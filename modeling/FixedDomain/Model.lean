import FixedDomain.AnswerSet.Basic
import FixedDomain.Grounding.Context

/-! # Models

* `Model` — a model in the vocabulary of the ontology: the classes of each individual and its
  successors along each property.
* `Context.decode` — the model that an answer set stands for. Atoms over symbols that were not
  given to an entity are passed over; under a projection only the projected classes count.
* `Context.observableAtoms` — the atoms that tell models apart.
-/

namespace FixedDomain

/-! ## Models -/

/-- A property with the individual that it leads to. -/
structure Successor where
  property : Iri
  target : Individual
  deriving DecidableEq

namespace Successor

instance : Ord Successor := ⟨compareLex (compareOn property) (compareOn target)⟩

instance : Std.TransOrd Successor :=
  inferInstanceAs (Std.TransCmp (compareLex (compareOn property) (compareOn target)))

instance : Std.LawfulEqOrd Successor where
  eq_of_compare {a b} h := by
    have h : compareLex (compareOn property) (compareOn target) a b = .eq := h
    simp only [compareLex_eq_eq, compareOn, Std.LawfulEqCmp.compare_eq_iff_eq] at h
    obtain ⟨h1, h2⟩ := h
    cases a; cases b; simp_all

end Successor

/-- The classes of individuals, and their successors. -/
structure Model where
  classes : SortedMap Individual (SortedSet Iri)
  successors : SortedMap Individual (SortedSet Successor)
  deriving DecidableEq

namespace Model

/-- The model in which the elements of a domain belong to no class. -/
def blank (elements : List Individual) : Model :=
  ⟨.ofList (elements.map fun i => (i, .empty)), .empty⟩

/-- The model in which an individual also belongs to a class. -/
def addClass (m : Model) (i : Individual) (c : Iri) : Model :=
  { m with classes := m.classes.insert i (((m.classes.find? i).getD .empty).insert c) }

/-- The model in which a property also leads from one individual to another. -/
def addSuccessor (m : Model) (i : Individual) (property : Iri) (target : Individual) : Model :=
  let s := (m.successors.find? i).getD .empty
  { m with successors := m.successors.insert i (s.insert ⟨property, target⟩) }

/-- Whether an individual belongs to a class. -/
def hasClass (m : Model) (i : Individual) (c : Iri) : Bool :=
  match m.classes.find? i with
  | some cs => c ∈ cs
  | none => false

/-- Whether a property leads from one individual to another. -/
def hasProperty (m : Model) (i : Individual) (property : Iri) (target : Individual) : Bool :=
  match m.successors.find? i with
  | some s => (⟨property, target⟩ : Successor) ∈ s
  | none => false

/-- The line of an individual with its classes, and a line for each of its successors. Each line is
in the fragments in which it is written. -/
def lines (m : Model) : List (List String) :=
  m.classes.entries.flatMap fun (i, classes) =>
    [i.iri.localName, ": ", ", ".intercalate (classes.toList.map Iri.localName)] ::
      ((m.successors.find? i).getD .empty).toList.map fun s =>
        ["  ", s.property.localName, " -> ", s.target.iri.localName]

/-- The fragments in which a model is written. -/
def fragments (m : Model) : List String := m.lines.flatMap (· ++ ["\n"])

/-- The text of a model. -/
def render (m : Model) : String := String.join m.fragments

end Model

/-! ## Decoding -/

namespace Context

/-- The individual that a constant was given to. -/
def individual? (c : Context) (constant : String) : Option Individual :=
  match c.naming.entity? constant with
  | some (.individual iri) => some ⟨iri⟩
  | _ => none

/-- What an atom that holds says about a model. -/
def decodeAtom (c : Context) (projection : Option (SortedSet Iri)) (m : Model) (a : Atom) : Model :=
  if a.negated then m
  else
    match c.naming.entity? a.predicate, a.arguments.mapM c.individual? with
    | some (.atomicClass iri), some [x] =>
      match projection with
      | none => m.addClass x iri
      | some p => if iri ∈ p then m.addClass x iri else m
    | some (.objectProperty iri), some [x, y] =>
      if projection.isNone then m.addSuccessor x iri y else m
    | _, _ => m

/-- The model that an answer set stands for. -/
def decode (c : Context) (answer : AnswerSet) (projection : Option (SortedSet Iri)) : Model :=
  answer.atoms.toList.foldl (c.decodeAtom projection) (.blank c.domain.elements.toList)

/-- The atoms that tell models apart: memberships in the classes, and successors unless there is
a projection. -/
def observableAtoms (c : Context) (projection : Option (SortedSet Iri)) : List Atom :=
  let classes := c.classes.entries.filter fun (iri, _) =>
    match projection with
    | none => true
    | some p => iri ∈ p
  let memberships := classes.flatMap fun (_, symbol) => c.elements.map (unaryAtom symbol)
  let successors := c.properties.entries.flatMap fun (_, symbol) =>
    c.elements.flatMap fun x => c.elements.map (binaryAtom symbol x)
  memberships ++ if projection.isNone then successors else []

end Context

end FixedDomain
