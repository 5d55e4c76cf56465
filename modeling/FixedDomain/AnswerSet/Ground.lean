import Std.Data.HashMap
import FixedDomain.Program.Basic

/-! # Normal programs over numbered atoms

What the search works on:

* `Numbering` — the atoms of a program, numbered in the order in which they occur: rule by rule,
  the body of a rule before its head.
* `BodyLiteral`, `NormalRule` — literals over numbers, and rules with at most one head atom. In a
  count, the conditions of elements with equal terms form one group, which counts once.
* `NormalProgram.ofRules` — the normal program of some rules. A disjunctive rule is shifted: it
  becomes one rule for each of its head atoms, in which the other head atoms are denied. Atoms
  that are opposite to each other are excluded by a constraint.
-/

namespace FixedDomain

/-! ## Occurrences -/

mutual

/-- The atoms of a literal from left to right, those of conditions included. -/
def Literal.atoms : Literal → List Atom
  | .pos a => [a]
  | .not a => [a]
  | .count es _ _ => CountElement.atomsList es

/-- The atoms of a list of literals. -/
def Literal.atomsList : List Literal → List Atom
  | [] => []
  | l :: ls => l.atoms ++ Literal.atomsList ls

/-- The atoms in the condition of an element. -/
def CountElement.atoms : CountElement → List Atom
  | ⟨_, condition⟩ => Literal.atomsList condition

/-- The atoms in the conditions of a list of elements. -/
def CountElement.atomsList : List CountElement → List Atom
  | [] => []
  | e :: es => e.atoms ++ CountElement.atomsList es

end

/-- The atoms of a rule, body before head. -/
def Rule.atoms (r : Rule) : List Atom := Literal.atomsList r.body ++ r.head

/-- Whether a literal is a count. -/
def Literal.isCount : Literal → Bool
  | .count _ _ _ => true
  | _ => false

/-- Whether a literal counts something whose condition contains a count. -/
def Literal.isNested : Literal → Bool
  | .count es _ _ => es.any fun e => e.condition.any Literal.isCount
  | _ => false

/-! ## Numbering -/

namespace AnswerSet

/-- Atoms with their numbers: each atom stands at its number. -/
structure Numbering where
  atoms : Array Atom
  numbers : Std.HashMap Atom Nat

namespace Numbering

/-- The numbering of no atoms. -/
def empty : Numbering := ⟨#[], ∅⟩

/-- Gives an atom the next number, unless it has one. -/
def insert (n : Numbering) (a : Atom) : Numbering :=
  if n.numbers.contains a then n
  else ⟨n.atoms.push a, n.numbers.insert a n.atoms.size⟩

/-- Numbers the atoms of a list in the order of their first occurrences. -/
def ofList (atoms : List Atom) : Numbering := atoms.foldl insert empty

/-- The number of an atom. -/
def number? (n : Numbering) (a : Atom) : Option Nat := n.numbers[a]?

/-- The number of an atom that has one. -/
def number (n : Numbering) (a : Atom) : Nat := (n.number? a).getD 0

end Numbering

/-! ## Literals and rules -/

/-- A conjunction of atoms and denied atoms; the flag says that the atom is to hold. -/
abbrev Condition := List (Nat × Bool)

/-- A literal over numbered atoms. A count has a group of alternative conditions for each tuple of
terms. -/
inductive BodyLiteral where
  | pos (atom : Nat)
  | not (atom : Nat)
  | count (groups : List (List Condition)) (op : Comparison) (bound : Nat)
  deriving DecidableEq, Inhabited

/-- A rule with at most one head atom; one without is a constraint. -/
structure NormalRule where
  head : Option Nat
  body : List BodyLiteral
  deriving DecidableEq, Inhabited

/-- The condition of an element over numbered atoms. -/
def numberCondition (n : Numbering) (condition : List Literal) : Condition :=
  condition.filterMap fun
    | .pos a => some (n.number a, true)
    | .not a => some (n.number a, false)
    | .count _ _ _ => none

/-- Adds a condition to the group with its terms, or as a new group at the end. -/
def addCondition (terms : List String) (condition : Condition) :
    List (List String × List Condition) → List (List String × List Condition)
  | [] => [(terms, [condition])]
  | (ts, group) :: groups =>
    if ts = terms then (ts, group ++ [condition]) :: groups
    else (ts, group) :: addCondition terms condition groups

/-- The conditions of the elements of a count, in groups by their terms. -/
def groupElements (n : Numbering) (es : List CountElement) : List (List Condition) :=
  (es.foldl (fun groups e => addCondition e.terms (numberCondition n e.condition) groups) []).map
    (·.2)

/-- A literal over numbered atoms. -/
def numberLiteral (n : Numbering) : Literal → BodyLiteral
  | .pos a => .pos (n.number a)
  | .not a => .not (n.number a)
  | .count es op bound => .count (groupElements n es) op bound

/-- Each element of a list with all the others. -/
def eachWithOthers {α : Type} : List α → List (α × List α)
  | [] => []
  | x :: xs => (x, xs) :: (eachWithOthers xs).map fun (y, others) => (y, x :: others)

/-- The normal rules of a rule: one for each head atom, where the other head atoms are denied. -/
def shift (head : List Nat) (body : List BodyLiteral) : List NormalRule :=
  match head with
  | [] => [⟨none, body⟩]
  | _ => (eachWithOthers head).map fun (h, others) => ⟨some h, body ++ others.map .not⟩

/-- The normal rules of a rule, over numbered atoms. -/
def normalRules (n : Numbering) (r : Rule) : List NormalRule :=
  shift (r.head.map n.number) (r.body.map (numberLiteral n))

/-- The constraints that no atom holds together with its opposite. -/
def oppositeConstraints (n : Numbering) : List NormalRule :=
  n.atoms.toList.filterMap fun a =>
    if a.negated then none
    else (n.number? a.complement).map fun j => ⟨none, [.pos (n.number a), .pos j]⟩

/-! ## Programs -/

/-- A normal program. `supports` holds, for each atom, the bodies of the rules that derive it, in
the order of the rules. -/
structure NormalProgram where
  atoms : Array Atom
  rules : List NormalRule
  supports : Array (List (List BodyLiteral))

/-- The bodies of the rules that derive an atom. -/
def bodiesOf (rules : List NormalRule) (atom : Nat) : List (List BodyLiteral) :=
  rules.filterMap fun r => if r.head = some atom then some r.body else none

/-- Adds the body of a rule to those that derive its head. -/
def collectSupport (supports : Array (List (List BodyLiteral))) (r : NormalRule) :
    Array (List (List BodyLiteral)) :=
  match r.head with
  | some h => supports.modify h (r.body :: ·)
  | none => supports

/-- The bodies of the rules, collected by head atom in one pass. -/
def collectSupports (size : Nat) (rules : List NormalRule) :
    Array (List (List BodyLiteral)) :=
  -- the last body stands first until all are collected
  (rules.foldl collectSupport (Array.replicate size [])).map List.reverse

theorem bodiesOf_cons (r : NormalRule) (rs : List NormalRule) (atom : Nat) :
    bodiesOf (r :: rs) atom =
      (if r.head = some atom then [r.body] else []) ++ bodiesOf rs atom := by
  by_cases h : r.head = some atom <;> simp [bodiesOf, h]

theorem getElem?_foldl_collectSupport (rules : List NormalRule)
    (supports : Array (List (List BodyLiteral))) (atom : Nat) :
    (rules.foldl collectSupport supports)[atom]? =
      supports[atom]?.map ((bodiesOf rules atom).reverse ++ ·) := by
  induction rules generalizing supports with
  | nil => simp [bodiesOf]
  | cons r rs ih =>
    rw [List.foldl_cons, ih, bodiesOf_cons]
    cases hr : r.head with
    | none => simp [collectSupport, hr]
    | some h =>
      by_cases ha : h = atom
      · subst ha
        simp [collectSupport, hr, Array.getElem?_modify, Function.comp_def]
      · simp [collectSupport, hr, Array.getElem?_modify, ha]

/-- Every numbered atom has the bodies of the rules that derive it. -/
theorem getElem?_collectSupports {size atom : Nat} (rules : List NormalRule) (h : atom < size) :
    (collectSupports size rules)[atom]? = some (bodiesOf rules atom) := by
  simp [collectSupports, getElem?_foldl_collectSupport, h]

/-- The normal program of some rules. -/
def NormalProgram.ofRules (rules : List Rule) : NormalProgram :=
  let n := Numbering.ofList (rules.flatMap Rule.atoms)
  let normal := rules.flatMap (normalRules n) ++ oppositeConstraints n
  ⟨n.atoms, normal, collectSupports n.atoms.size normal⟩

end AnswerSet

end FixedDomain
