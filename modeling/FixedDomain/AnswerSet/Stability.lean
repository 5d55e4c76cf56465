import FixedDomain.AnswerSet.Assignment

/-! # Stability

A total assignment is an answer set of the rules if exactly the atoms that it makes hold can be
derived, step by step, where denied atoms are read in the assignment:

* `holdsInReduct` — whether a literal holds of the atoms derived so far. A count that can only
  gain reads its atoms among those derived; any other count is read in the assignment.
* `close` — all atoms that can be derived.
* `isStable` — the comparison with the assignment.
-/

namespace FixedDomain.AnswerSet

/-- The atoms derived so far, as a flag for each. -/
structure Derived where
  flags : Array Bool

namespace Derived

/-- Nothing derived yet, of so many atoms. -/
def none (size : Nat) : Derived := ⟨Array.replicate size false⟩

/-- Whether an atom has been derived. -/
def contains (d : Derived) (atom : Nat) : Bool := d.flags[atom]?.getD false

/-- Adds an atom. -/
def insert (d : Derived) (atom : Nat) : Derived := ⟨d.flags.setIfInBounds atom true⟩

/-- How many atoms have not been derived. -/
def missing (d : Derived) : Nat := d.flags.count false

end Derived

/-! ## Literals under a candidate -/

/-- Whether a condition holds; a count that can only gain reads its atoms among those derived. -/
def conditionInReduct (candidate : Assignment) (d : Derived) (monotone : Bool)
    (condition : Condition) : Bool :=
  condition.all fun (atom, positive) =>
    if positive then
      if monotone then d.contains atom else candidate.get atom == .holds
    else candidate.get atom != .holds

/-- Whether a literal holds of the atoms derived so far. -/
def holdsInReduct (candidate : Assignment) (d : Derived) : BodyLiteral → Bool
  | .pos atom => d.contains atom
  | .not atom => candidate.get atom != .holds
  | .count groups op bound =>
    let n := groups.countP fun group =>
      group.any (conditionInReduct candidate d op.isMonotone)
    op.holds n bound

/-! ## Closure -/

/-- Derives the head of a rule whose body holds. -/
def deriveStep (candidate : Assignment) (d : Derived) (r : NormalRule) : Derived :=
  match r.head with
  | none => d
  | some h =>
    if d.contains h then d
    else if r.body.all (holdsInReduct candidate d) then d.insert h
    else d

/-- Derives heads from each rule in turn. -/
def derivePass (rules : List NormalRule) (candidate : Assignment) (d : Derived) : Derived :=
  rules.foldl (deriveStep candidate) d

/-- Repeats passes as long as they derive new atoms. -/
def close (rules : List NormalRule) (candidate : Assignment) (d : Derived) : Derived :=
  -- a pass that derives nothing new leaves nothing to derive
  let e := derivePass rules candidate d
  if e.missing < d.missing then close rules candidate e else e
termination_by d.missing

/-- Whether the atoms that hold are exactly those that can be derived. -/
def isStable (p : NormalProgram) (candidate : Assignment) : Bool :=
  let d := close p.rules candidate (.none p.atoms.size)
  (List.range p.atoms.size).all fun atom =>
    d.contains atom == (candidate.get atom == .holds)

end FixedDomain.AnswerSet
