import FixedDomain.Grounding.Axiom

/-! # Queries

* `witnesses` — bodies for all ways of violating an axiom.
* `negatedQuery` — a program fragment that leaves of a program's answer sets those that violate an
  axiom: each witness derives a fresh query atom, and a constraint demands that atom.
-/

namespace FixedDomain.Grounding

/-! ## Violations -/

/-- Both bodies together, if both can be true. -/
def both : Option Body → Option Body → List Body
  | some a, some b => [a ++ b]
  | _, _ => []

/-- The ways for an element to belong to one expression and not to another. -/
def inclusionWitnesses (sub sup : ClassExpression) : Grounding (List Body) := do
  collect (← get).elements fun x => do
    let inside ← holds sub x
    return both inside (← holdsNot sup x)

/-- The ways for a first expression to differ from each of the others. -/
def equivalenceWitnesses : List ClassExpression → Grounding (List Body)
  | [] => pure []
  | c :: cs =>
    collect cs fun d => return (← inclusionWitnesses c d) ++ (← inclusionWitnesses d c)

/-- The ways for an element to belong to two of some expressions. -/
def disjointnessWitnesses (cs : List ClassExpression) : Grounding (List Body) :=
  collect (laterPairs cs) fun (c, d) => do
    collect (← get).elements fun x => do
      let first ← holds c x
      return both first (← holds d x)

/-- The ways for one role to lead where another does not. -/
def roleInclusionWitnesses (sub sup : Role) : Grounding (List Body) := do
  (← get).pairs.mapM fun (x, y) => do
    let inside ← roleAtom sub x y
    return [.pos inside, .pos (← roleAtom sup x y).complement]

/-- The ways for a first role to differ from each of the others. -/
def roleEquivalenceWitnesses : List Role → Grounding (List Body)
  | [] => pure []
  | r :: rs =>
    collect rs fun s => return (← roleInclusionWitnesses r s) ++ (← roleInclusionWitnesses s r)

/-- The ways for a role to lead from an element to two others. -/
def functionalityWitnesses (r : Role) : Grounding (List Body) := do
  collect (← get).elements fun x => do
    (laterPairs (← get).elements).mapM fun (y, z) => do
      let first ← roleAtom r x y
      return [.pos first, .pos (← roleAtom r x z)]

/-- The ways for a role to lead from, or to, an element outside of an expression. -/
def typingWitnesses (r : Role) (c : ClassExpression) (typed : Element × Element → Element) :
    Grounding (List Body) := do
  collect (← get).pairs fun (x, y) => do
    match ← holdsNot c (typed (x, y)) with
    | none => pure []
    | some outside => return [.pos (← roleAtom r x y) :: outside]

/-- The ways of violating an axiom. -/
def witnesses : Axiom → Grounding (List Body)
  | .declaration _ => pure []
  | .subClassOf c d => inclusionWitnesses c d
  | .equivalentClasses cs => equivalenceWitnesses cs
  | .disjointClasses cs => disjointnessWitnesses cs
  | .disjointUnion whole parts => do
    let differing ← equivalenceWitnesses [.named whole, .unionOf parts]
    return differing ++ (← disjointnessWitnesses parts)
  | .subObjectPropertyOf r s => roleInclusionWitnesses r s
  | .equivalentObjectProperties rs => roleEquivalenceWitnesses rs
  | .disjointObjectProperties rs =>
    collect (laterPairs rs) fun (r, s) => do
      (← get).pairs.mapM fun (x, y) => do
        let first ← roleAtom r x y
        return [.pos first, .pos (← roleAtom s x y)]
  | .inverseObjectProperties r s => roleEquivalenceWitnesses [r, s.inverse]
  | .objectPropertyDomain r c => typingWitnesses r c (·.1)
  | .objectPropertyRange r c => typingWitnesses r c (·.2)
  | .functionalObjectProperty r => functionalityWitnesses r
  | .inverseFunctionalObjectProperty r => functionalityWitnesses r.inverse
  | .reflexiveObjectProperty r => do
    (← get).elements.mapM fun x => return [.pos (← roleAtom r x x).complement]
  | .irreflexiveObjectProperty r => do
    (← get).elements.mapM fun x => return [.pos (← roleAtom r x x)]
  | .symmetricObjectProperty r => do
    ((← get).pairs.filter fun (x, y) => x ≠ y).mapM fun (x, y) => do
      let there ← roleAtom r x y
      return [.pos there, .pos (← roleAtom r y x).complement]
  | .asymmetricObjectProperty r => do
    (upperPairs (← get).elements).mapM fun (x, y) => do
      let there ← roleAtom r x y
      if x = y then pure [.pos there] else return [.pos there, .pos (← roleAtom r y x)]
  | .transitiveObjectProperty r => do
    collect ((← get).pairs.filter fun (x, y) => x ≠ y) fun (x, y) => do
      ((← get).elements.filter fun z => z ≠ y).mapM fun z => do
        let first ← roleAtom r x y
        let second ← roleAtom r y z
        return [.pos first, .pos second, .pos (← roleAtom r x z).complement]
  | .sameIndividual is => return if differ (← members is) then [[]] else []
  | .differentIndividuals is => return if (← members is).Nodup then [] else [[]]
  | .classAssertion c i => do return (← holdsNot c (← element i)).toList
  | .objectPropertyAssertion r i j => do
    let x ← element i
    let y ← element j
    return [[.pos (← roleAtom r x y).complement]]
  | .negativeObjectPropertyAssertion r i j => do
    let x ← element i
    let y ← element j
    return [[.pos (← roleAtom r x y)]]
  | .unsupported keyword source => fail (.unsupported keyword source .entailment)

/-! ## Fragments -/

/-- The fragment that restricts a program to its answer sets that violate an axiom. What is new in
the axiom is defined in the fragment. -/
def negatedQuery (a : Axiom) : Grounding Program := do
  let bodies ← witnesses a
  let query := Atom.positive (← freshQuery) []
  let program := Program.empty.comment ("negation of " ++ a.render) ++ (← takePending)
  pure ((program.pushAll (bodies.map fun body => .derive query body)).push
    (.constraint [.not query]))

end FixedDomain.Grounding
