import FixedDomain.AnswerSet.Solver
import FixedDomain.Json
import FixedDomain.Notice

/-! # Reports of clingo

What clingo writes about a call when it is asked for JSON, and what the report says:

* `Report` — the parts of a report that count. `Report.read` takes them from the text.
* `Report.answers` — the answer sets that a report brings, or the error that it stands for. A
  search that was cut short is no proof that there are no answer sets.
-/

namespace FixedDomain.Clingo

/-- One answer set, by the texts of its atoms. -/
structure Witness where
  atoms : List String
  deriving DecidableEq

/-- One run of the search. -/
structure Call where
  witnesses : List Witness
  deriving DecidableEq

/-- What clingo says about the outcome, and what it has found. -/
structure Report where
  result : String
  calls : List Call
  deriving DecidableEq

/-! ## Reading -/

/-- The items of a list that may be missing. -/
def listed {α : Type} (item : JsonValue → Option α) : Option JsonValue → Option (List α)
  | none => some []
  | some v => v.items?.bind fun items => items.mapM item

/-- A witness, from its JSON form. -/
def Witness.ofJson? (v : JsonValue) : Option Witness := do
  match ← v.record? ["Value"] with
  | [value] => return ⟨← listed JsonValue.text? value⟩
  | _ => none

/-- A run of the search, from its JSON form. -/
def Call.ofJson? (v : JsonValue) : Option Call := do
  match ← v.record? ["Witnesses"] with
  | [witnesses] => return ⟨← listed Witness.ofJson? witnesses⟩
  | _ => none

namespace Report

/-- A report, from its JSON form. -/
def ofJson? (v : JsonValue) : Option Report := do
  match ← v.record? ["Result", "Call"] with
  | [some result, calls] => return ⟨← result.text?, ← listed Call.ofJson? calls⟩
  | _ => none

/-- The report that a text holds. -/
def read (text : String) : Option Report := (JsonValue.read text).bind ofJson?

/-! ## Conclusions -/

/-- The witnesses of all runs. -/
def witnesses (r : Report) : List Witness := r.calls.flatMap Call.witnesses

/-- The answer set of a witness. -/
def answerOf (w : Witness) : Except SolverError AnswerSet :=
  match w.atoms.mapM Atom.read with
  | .ok atoms => .ok (.ofList atoms)
  | .error e => .error (.output e.message)

/-- The outcomes of a search that came to its end. -/
def conclusions : List String := ["SATISFIABLE", "UNSATISFIABLE", "OPTIMUM FOUND"]

/-- The answer sets that a report brings, given the time that the call was allowed. -/
def answers (r : Report) (budget : Option Duration) : Except SolverError (List AnswerSet) := do
  let found ← r.witnesses.mapM answerOf
  if r.result ∈ conclusions then pure found
  else if r.result = "UNKNOWN" then
    if found.isEmpty then throw (.timeout (budget.getD .zero)) else pure found
  else throw (.output ("unexpected clingo result '" ++ r.result ++ "'"))

/-- What is to be noticed about a report that brings some answer sets. -/
def notices (r : Report) (found : List AnswerSet) : List Notice :=
  if r.result = "UNKNOWN" then [.partialAnswers found.length] else []

end Report

end FixedDomain.Clingo
