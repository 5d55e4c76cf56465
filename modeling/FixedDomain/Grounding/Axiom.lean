import FixedDomain.Grounding.Expression

/-! # Axioms as rules

* `assertMember` — rules that make an element belong to an expression whenever a body is true. The
  encoding with counts follows the structure of the expression; the generic one forbids that the
  element does not belong to it.
* `axiomRules` — the rules of an axiom: all ways of violating it are excluded.
-/

namespace FixedDomain

/-- Every element of a list with every later one, in order. -/
def laterPairs {α : Type} : List α → List (α × α)
  | [] => []
  | x :: xs => xs.map (fun y => (x, y)) ++ laterPairs xs

/-- Every element of a list with itself and with every later one, in order. -/
def upperPairs {α : Type} : List α → List (α × α)
  | [] => []
  | x :: xs => (x, x) :: xs.map (fun y => (x, y)) ++ upperPairs xs

namespace Grounding

/-- The results of a step for the items of a list, one after another. -/
def collect {α β : Type} (items : List α) (step : α → Grounding (List β)) : Grounding (List β) := do
  return (← items.mapM step).flatten

/-! ## Membership -/

/-- The rules that exclude a body together with a count that satisfies a comparison; without
possible successors the comparison is settled. -/
def excludeCount (successors : List (Element × Body)) (body : Body) (op : Comparison)
    (bound : Nat) : List Rule :=
  if successors.isEmpty then if op.holds 0 bound then [.constraint body] else []
  else [.constraint (body ++ [.count (countElements successors) op bound])]

/-- The rules that exclude a body together with a violation, if there can be one. -/
def exclude (body : Body) : Option Body → List Rule
  | none => []
  | some violation => [.constraint (body ++ violation)]

/-- The successors that belong to a filler. -/
def fillerSuccessors (r : Role) (d : ClassExpression) (x : Element) :
    Grounding (List (Element × Body)) :=
  related r x fun y => holds d y

mutual

/-- The rules that make an element belong to an expression whenever a body is true. -/
def assertMember (c : ClassExpression) (x : Element) (body : Body) : Grounding (List Rule) :=
  match c with
  | .complementOf (.named iri) => return [.derive (← classAtom iri x).complement body]
  | .thing => pure []
  | .nothing => pure [.constraint body]
  | .named iri => return [.derive (← classAtom iri x) body]
  | c => do
    if (← get).isDirect then assertStructure c x body
    else return exclude body (← holdsNot c x)
termination_by 4 * c.weight + 1
decreasing_by all_goals omega

/-- The same, by the structure of the expression. -/
def assertStructure (c : ClassExpression) (x : Element) (body : Body) : Grounding (List Rule) :=
  match c with
  | .intersectionOf cs => assertAll cs x body
  | .unionOf cs => return exclude body (← conjoin (fun c => holdsNot c x) cs)
  | .oneOf is => return if x ∈ (← members is) then [] else [.constraint body]
  | .someValuesFrom r d => return excludeCount (← fillerSuccessors r d x) body .lt 1
  | .minCardinality n r d => do
    if n = 0 then pure []
    else
      let successors ← fillerSuccessors r (ClassExpression.fillerOrThing d) x
      pure (excludeCount successors body .lt n.toNat)
  | .maxCardinality n r d => do
    let successors ← fillerSuccessors r (ClassExpression.fillerOrThing d) x
    pure (excludeCount successors body .gt n.toNat)
  | .exactCardinality n r d => do
    let fewer ← fillerSuccessors r (ClassExpression.fillerOrThing d) x
    let more ← fillerSuccessors r (ClassExpression.fillerOrThing d) x
    pure (excludeCount fewer body .lt n.toNat ++ excludeCount more body .gt n.toNat)
  | .allValuesFrom r d => do
    collect (← get).elements fun y => do
      let role ← roleAtom r x y
      assertMember d y (body ++ [.pos role])
  | .hasValue r i => do
    let y ← element i
    return [.derive (← roleAtom r x y) body]
  | .hasSelf r => return [.derive (← roleAtom r x x) body]
  | c => return exclude body (← holdsNot c x)
termination_by 4 * c.weight + 0
decreasing_by all_goals (simp only [ClassExpression.weight]; omega)

/-- The rules that make an element belong to all of some expressions. -/
def assertAll (cs : List ClassExpression) (x : Element) (body : Body) : Grounding (List Rule) :=
  match cs with
  | [] => pure []
  | c :: cs => do
    let first ← assertMember c x body
    let rest ← assertAll cs x body
    pure (first ++ rest)
termination_by 4 * ClassExpression.weightList cs + 0
decreasing_by all_goals (simp only [ClassExpression.weightList]; omega)

end

/-! ## Inclusion and disjointness -/

/-- The rules that one expression is included in another. -/
def inclusion (sub sup : ClassExpression) : Grounding (List Rule) := do
  collect (← get).elements fun x => do
    collect (← lhsBodies sub x) fun body => assertMember sup x body

/-- The rules that two expressions have nothing in common. -/
def disjointness (c d : ClassExpression) : Grounding (List Rule) := do
  collect (← get).elements fun x => do
    let left ← lhsBodies c x
    let right ← lhsBodies d x
    pure (left.flatMap fun a => right.map fun b => .constraint (a ++ b))

/-- The rules that some expressions are pairwise disjoint. -/
def pairwiseDisjointness (cs : List ClassExpression) : Grounding (List Rule) :=
  collect (laterPairs cs) fun (c, d) => disjointness c d

/-- The rules that a first expression equals each of the others. -/
def equivalence : List ClassExpression → Grounding (List Rule)
  | [] => pure []
  | c :: cs => collect cs fun d => return (← inclusion c d) ++ (← inclusion d c)

/-! ## Roles -/

/-- The rules that one role is included in another. -/
def roleInclusion (sub sup : Role) : Grounding (List Rule) := do
  (← get).pairs.mapM fun (x, y) => do
    let body ← roleAtom sub x y
    return .derive (← roleAtom sup x y) [.pos body]

/-- The rules that a first role equals each of the others. -/
def roleEquivalence : List Role → Grounding (List Rule)
  | [] => pure []
  | r :: rs => collect rs fun s => return (← roleInclusion r s) ++ (← roleInclusion s r)

/-- The constraint that two atoms do not hold together. -/
def excludeBoth (a b : Atom) : Rule := .constraint [.pos a, .pos b]

/-- The rules that a role leads from each element to at most one. -/
def functionality (r : Role) : Grounding (List Rule) := do
  collect (← get).elements fun x => do
    if (← get).isDirect then
      let elements ← (← get).elements.mapM fun y => do
        pure ⟨[y.constant], [.pos (← roleAtom r x y)]⟩
      pure [.constraint [.count elements .gt 1]]
    else
      (laterPairs (← get).elements).mapM fun (y, z) => do
        let first ← roleAtom r x y
        return excludeBoth first (← roleAtom r x z)

/-- The rules that a role leads only from, or only to, members of an expression. -/
def typing (r : Role) (c : ClassExpression) (typed : Element × Element → Element) :
    Grounding (List Rule) := do
  collect (← get).pairs fun (x, y) => do
    let role ← roleAtom r x y
    assertMember c (typed (x, y)) [.pos role]

/-- The rules that two steps along a role can be made in one. Steps that stay where they are say
nothing. -/
def transitivity (r : Role) : Grounding (List Rule) := do
  collect ((← get).pairs.filter fun (x, y) => x ≠ y) fun (x, y) => do
    ((← get).elements.filter fun z => z ≠ y).mapM fun z => do
      let first ← roleAtom r x y
      let second ← roleAtom r y z
      return .derive (← roleAtom r x z) [.pos first, .pos second]

/-- The rules that a role never leads back. -/
def asymmetry (r : Role) : Grounding (List Rule) := do
  (upperPairs (← get).elements).mapM fun (x, y) => do
    let there ← roleAtom r x y
    if x = y then pure (.constraint [.pos there])
    else return excludeBoth there (← roleAtom r y x)

/-! ## Axioms -/

/-- Whether some elements are not all the same. -/
def differ : List Element → Bool
  | [] => false
  | x :: xs => xs.any fun y => y ≠ x

/-- The rules of an axiom. Distinct names denote distinct elements, so that individuals said to be
different are so without a rule. -/
def axiomRules : Axiom → Grounding (List Rule)
  | .declaration _ => pure []
  | .subClassOf c d => inclusion c d
  | .equivalentClasses cs => equivalence cs
  | .disjointClasses cs => pairwiseDisjointness cs
  | .disjointUnion whole parts => do
    let equal ← equivalence [.named whole, .unionOf parts]
    return equal ++ (← pairwiseDisjointness parts)
  | .subObjectPropertyOf r s => roleInclusion r s
  | .equivalentObjectProperties rs => roleEquivalence rs
  | .disjointObjectProperties rs =>
    collect (laterPairs rs) fun (r, s) => do
      (← get).pairs.mapM fun (x, y) => do
        let first ← roleAtom r x y
        return excludeBoth first (← roleAtom s x y)
  | .inverseObjectProperties r s => roleEquivalence [r, s.inverse]
  | .objectPropertyDomain r c => typing r c (·.1)
  | .objectPropertyRange r c => typing r c (·.2)
  | .functionalObjectProperty r => functionality r
  | .inverseFunctionalObjectProperty r => functionality r.inverse
  | .reflexiveObjectProperty r => do
    (← get).elements.mapM fun x => return .fact (← roleAtom r x x)
  | .irreflexiveObjectProperty r => do
    (← get).elements.mapM fun x => return .constraint [.pos (← roleAtom r x x)]
  | .symmetricObjectProperty r => do
    ((← get).pairs.filter fun (x, y) => x ≠ y).mapM fun (x, y) => do
      let there ← roleAtom r x y
      return .derive (← roleAtom r y x) [.pos there]
  | .asymmetricObjectProperty r => asymmetry r
  | .transitiveObjectProperty r => transitivity r
  | .sameIndividual is => return if differ (← members is) then [.constraint []] else []
  | .differentIndividuals is => do
    let _ ← members is
    pure []
  | .classAssertion c i => do assertMember c (← element i) []
  | .objectPropertyAssertion r i j => do
    let x ← element i
    let y ← element j
    return [.fact (← roleAtom r x y)]
  | .negativeObjectPropertyAssertion r i j => do
    let x ← element i
    let y ← element j
    return [.fact (← roleAtom r x y).complement]
  | .unsupported keyword source => fail (.unsupported keyword source .grounding)

end Grounding

end FixedDomain
