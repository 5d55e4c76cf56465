import FixedDomain.Grounding.Context
import FixedDomain.Grounding.Weight

/-! # Class expressions as rule bodies

* `holds`, `holdsNot` — a body that is true exactly when an element belongs, or does not belong, to
  an expression; `none` if that never happens. Other expressions than literals get an auxiliary
  predicate (`auxFor`), which is defined once and then remembered.
* `define` — the alternative bodies that define an expression at an element.
* `lhsBodies` — alternative bodies for an expression on the left of an inclusion; the encoding
  with counts unfolds nominals, unions and intersections there.
-/

namespace FixedDomain

/-- A conjunction of literals. -/
abbrev Body := List Literal

/-- The next larger cardinality; the largest one stays. -/
def nextCardinality (n : UInt32) : UInt32 := if n = UInt32.ofNat (UInt32.size - 1) then n else n + 1

/-- The sublists of a length, in lexicographic order of positions. -/
def choose {α : Type} : Nat → List α → List (List α)
  | 0, _ => [[]]
  | _ + 1, [] => []
  | n + 1, x :: xs =>
    if xs.length < n then [] else (choose n xs).map (x :: ·) ++ choose (n + 1) xs

namespace Grounding

/-! ## Bodies -/

/-- The literal that an element belongs to the expression of an auxiliary predicate. -/
def auxAtom (k : Nat) (x : Element) : Atom := unaryAtom (auxName k) x

/-- For each element for which a filler gives a body: the element, and the body that a role leads
there and the filler's body is true. -/
def related (r : Role) (x : Element) (fillerBody : Element → Grounding (Option Body)) :
    Grounding (List (Element × Body)) := do
  let found ← (← get).elements.mapM fun y => do
    match ← fillerBody y with
    | none => pure none
    | some body => pure (some (y, .pos (← roleAtom r x y) :: body))
  pure (found.filterMap id)

/-- What a count over successors counts. -/
def countElements (successors : List (Element × Body)) : List CountElement :=
  successors.map fun (y, body) => ⟨[y.constant], body⟩

/-- The body that the number of successors compares with a bound; without possible successors the
outcome is settled. -/
def countBodies (successors : List (Element × Body)) (op : Comparison) (bound : Nat) :
    List Body :=
  if successors.isEmpty then if op.holds 0 bound then [[]] else []
  else [[.count (countElements successors) op bound]]

/-- The body that an element is one of some elements. -/
def memberBodies (elements : List Element) (x : Element) : List Body :=
  if x ∈ elements then [[]] else []

/-- The conjunction of the bodies for each of some expressions; `none` as soon as one of them has
none. -/
def conjoin (body : ClassExpression → Grounding (Option Body)) :
    List ClassExpression → Grounding (Option Body)
  | [] => pure (some [])
  | c :: cs => do
    match ← body c with
    | none => pure none
    | some first =>
      match ← conjoin body cs with
      | none => pure none
      | some rest => pure (some (first ++ rest))

/-! ## Expressions -/

mutual

/-- The body that an element belongs to an expression. -/
def holds (c : ClassExpression) (x : Element) : Grounding (Option Body) :=
  match c with
  | .named iri => return some [.pos (← classAtom iri x)]
  | .thing => pure (some [])
  | .nothing => pure none
  | .complementOf d => do
    if d.isLiteral then holdsNot d x
    else return some [.pos (auxAtom (← auxFor (.complementOf d)) x)]
  | c => return some [.pos (auxAtom (← auxFor c) x)]
termination_by 4 * c.weight + 3
decreasing_by
  all_goals
    try simp only [ClassExpression.weight]
    omega

/-- The body that an element does not belong to an expression. -/
def holdsNot (c : ClassExpression) (x : Element) : Grounding (Option Body) :=
  match c with
  | .named iri => return some [.pos (← classAtom iri x).complement]
  | .thing => pure none
  | .nothing => pure (some [])
  | .complementOf d => holds d x
  | c => return some [.not (auxAtom (← auxFor c) x)]
termination_by 4 * c.weight + 3
decreasing_by
  all_goals
    try simp only [ClassExpression.weight]
    omega

/-- The number of the auxiliary predicate of an expression. The predicates of its parts are
defined before its own. -/
def auxFor (c : ClassExpression) : Grounding Nat := do
  match (← get).definitions.idxOf? c with
  | some k => pure (k + 1)
  | none =>
    let bodies ← (← get).elements.mapM fun x => return (x, ← define c x)
    -- the number is taken only now, behind those of the parts
    defineAux c bodies
termination_by 4 * c.weight + 2
decreasing_by all_goals omega

/-- The alternative bodies that an element belongs to an expression. -/
def define (c : ClassExpression) (x : Element) : Grounding (List Body) :=
  match c with
  | .named iri => return [[.pos (← classAtom iri x)]]
  | .thing => pure [[]]
  | .nothing => pure []
  | .intersectionOf cs => return (← holdsAll cs x).toList
  | .unionOf cs => holdsSome cs x
  | .complementOf d => return (← holdsNot d x).toList
  | .oneOf is => return memberBodies (← members is) x
  | .someValuesFrom r d => do
    let successors ← related r x fun y => holds d y
    if (← get).isDirect then pure (countBodies successors .ge 1)
    else pure (successors.map (·.2))
  | .allValuesFrom r d => do
    if (← get).isDirect then
      -- no successor lies outside of the filler
      return countBodies (← related r x fun y => holdsNot d y) .le 0
    else return (← holdsNot (.someValuesFrom r d.negation) x).toList
  | .hasValue r i => do
    let y ← element i
    return [[.pos (← roleAtom r x y)]]
  | .hasSelf r => return [[.pos (← roleAtom r x x)]]
  | .minCardinality n r d => do
    if n = 0 then pure [[]]
    else
      let successors ← related r x fun y => holds (ClassExpression.fillerOrThing d) y
      if (← get).isDirect then pure (countBodies successors .ge n.toNat)
      -- one alternative for each set of so many successors
      else pure ((choose n.toNat (successors.map (·.2))).map List.flatten)
  | .maxCardinality n r d => do
    if (← get).isDirect then
      let successors ← related r x fun y => holds (ClassExpression.fillerOrThing d) y
      pure (countBodies successors .le n.toNat)
    else return (← holdsNot (.minCardinality (nextCardinality n) r d) x).toList
  | .exactCardinality n r d => do
    if (← get).isDirect then
      let successors ← related r x fun y => holds (ClassExpression.fillerOrThing d) y
      pure (countBodies successors .eq n.toNat)
    else
      let atLeast ← holds (.minCardinality n r d) x
      let noMore ← holdsNot (.minCardinality (nextCardinality n) r d) x
      match atLeast, noMore with
      | some a, some b => pure [a ++ b]
      | _, _ => pure []
termination_by 4 * c.weight + 1
decreasing_by
  all_goals
    try have := ClassExpression.weight_negation_le d
    try simp only [ClassExpression.weight, ClassExpression.weight_fillerOrThing]
    omega

/-- The conjunction of the bodies of some expressions at an element. -/
def holdsAll (cs : List ClassExpression) (x : Element) : Grounding (Option Body) :=
  match cs with
  | [] => pure (some [])
  | c :: cs => do
    match ← holds c x with
    | none => pure none
    | some first =>
      match ← holdsAll cs x with
      | none => pure none
      | some rest => pure (some (first ++ rest))
termination_by 4 * ClassExpression.weightList cs + 0
decreasing_by all_goals (simp only [ClassExpression.weightList]; omega)

/-- The bodies of those of some expressions that can hold at an element. -/
def holdsSome (cs : List ClassExpression) (x : Element) : Grounding (List Body) :=
  match cs with
  | [] => pure []
  | c :: cs => do
    let first ← holds c x
    let rest ← holdsSome cs x
    pure (first.toList ++ rest)
termination_by 4 * ClassExpression.weightList cs + 0
decreasing_by all_goals (simp only [ClassExpression.weightList]; omega)

end

/-! ## Left-hand sides -/

mutual

/-- The unfolded alternative bodies of an expression on the left of an inclusion. -/
def unfoldedBodies (c : ClassExpression) (x : Element) : Grounding (List Body) :=
  match c with
  | .nothing => pure []
  | .thing => pure [[]]
  | .oneOf is => return memberBodies (← members is) x
  | .unionOf cs => unfoldedUnion cs x
  | .intersectionOf cs => unfoldedProduct [[]] cs x
  | c => return (← holds c x).toList

/-- The alternatives of some disjuncts, one after another. -/
def unfoldedUnion (cs : List ClassExpression) (x : Element) : Grounding (List Body) :=
  match cs with
  | [] => pure []
  | c :: cs => do
    let first ← unfoldedBodies c x
    let rest ← unfoldedUnion cs x
    pure (first ++ rest)

/-- The alternatives of some conjuncts, each combined with each; once there is none the remaining
conjuncts are not looked at. -/
def unfoldedProduct (product : List Body) (cs : List ClassExpression) (x : Element) :
    Grounding (List Body) :=
  match cs with
  | [] => pure product
  | c :: cs => do
    let alternatives ← unfoldedBodies c x
    let product := product.flatMap fun a => alternatives.map fun b => a ++ b
    if product.isEmpty then pure [] else unfoldedProduct product cs x

end

/-- The alternative bodies of an expression on the left of an inclusion. -/
def lhsBodies (c : ClassExpression) (x : Element) : Grounding (List Body) := do
  if (← get).isDirect then unfoldedBodies c x else return (← holds c x).toList

end Grounding

end FixedDomain
