/-! # Notices

What a run tells about besides its results:

* `Notice` — the events worth a word, with their `level` and `message`.
* `Reports m` — monads in which notices can be given.
-/

namespace FixedDomain

/-- An event worth a word. -/
inductive Notice where
  | skippedDocument (path directory reason : String)
  | unknownProjection (iri : String)
  | partialAnswers (count : Nat)
  | noAction
  | failed (locator reason : String)
  deriving DecidableEq

/-- How serious a notice is. -/
inductive Level where
  | warning
  | error
  deriving DecidableEq

namespace Notice

/-- How serious a notice is. -/
def level : Notice → Level
  | failed _ _ => .error
  | _ => .warning

/-- The wording of a notice. -/
def message : Notice → String
  | skippedDocument path directory reason =>
    "Skipping " ++ path ++ " while scanning " ++ directory ++ ": " ++ reason
  | unknownProjection iri => "Projected class " ++ iri ++ " does not occur in the ontology"
  | partialAnswers count =>
    "clingo stopped early; returning " ++ toString count ++ " partial answer sets"
  | noAction => "No action given; ontologies are only loaded and translated"
  | failed locator reason => "Failed to process " ++ locator ++ ": " ++ reason

end Notice

/-- Monads in which notices can be given. -/
class Reports (m : Type → Type) where
  report : Notice → m Unit

/-- Notices are given in a state that keeps them in order. -/
instance {m : Type → Type} [Monad m] : Reports (StateT (Array Notice) m) :=
  ⟨fun n => modify (·.push n)⟩

/-- Notices pass through a layer of errors. -/
instance {ε : Type} {m : Type → Type} [Monad m] [Reports m] : Reports (ExceptT ε m) :=
  ⟨fun n => ExceptT.lift (Reports.report n)⟩

end FixedDomain
