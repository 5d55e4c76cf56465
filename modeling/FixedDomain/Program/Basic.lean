import FixedDomain.Program.Atom

/-! # Logic programs

* `Comparison` — how a count is compared with its bound.
* `Literal` — atoms, atoms under default negation, and counts of the elements whose conditions
  hold; elements with equal terms count once.
* `Rule` — `h₁ | … | hₙ :- body`; a rule without head atoms is a constraint.
* `Program` — rules and comments in order.
-/

namespace FixedDomain

/-! ## Comparisons -/

/-- How a count is compared with its bound. -/
inductive Comparison where
  | lt
  | le
  | eq
  | ge
  | gt
  deriving DecidableEq, Inhabited

namespace Comparison

/-- Whether a number stands in the relation to a bound. -/
def holds : Comparison → Nat → Nat → Bool
  | lt, value, bound => value < bound
  | le, value, bound => value ≤ bound
  | eq, value, bound => value == bound
  | ge, value, bound => bound ≤ value
  | gt, value, bound => bound < value

/-- Whether a larger number can only do better. -/
def isMonotone : Comparison → Bool
  | ge | gt => true
  | lt | le | eq => false

/-- The monotone comparisons are those that go on holding of larger numbers. -/
theorem isMonotone_iff {op : Comparison} : op.isMonotone = true ↔
    ∀ {m n bound : Nat}, m ≤ n → op.holds m bound = true → op.holds n bound = true := by
  constructor
  · intro h m n bound hmn hm
    cases op <;> simp_all [isMonotone, holds] <;> omega
  · -- zero and one tell the others apart
    intro h
    cases op with
    | ge => rfl
    | gt => rfl
    | lt => exact absurd (@h 0 1 1 (by decide) rfl) (by decide)
    | le => exact absurd (@h 0 1 0 (by decide) rfl) (by decide)
    | eq => exact absurd (@h 0 1 0 (by decide) rfl) (by decide)

end Comparison

/-! ## Literals -/

mutual

/-- A condition in the body of a rule. -/
inductive Literal where
  | pos (atom : Atom)
  | not (atom : Atom)
  | count (elements : List CountElement) (op : Comparison) (bound : Nat)

/-- What a count counts: a tuple of terms, if its condition holds. -/
structure CountElement where
  terms : List String
  condition : List Literal

end

instance : Inhabited Literal := ⟨.pos default⟩

/-! ## Rules -/

/-- A rule: if the body holds, one of the head atoms does. -/
structure Rule where
  head : List Atom
  body : List Literal
  deriving Inhabited

namespace Rule

/-- The rule that an atom holds. -/
def fact (a : Atom) : Rule := ⟨[a], []⟩

/-- The rule that an atom holds if a body does. -/
def derive (a : Atom) (body : List Literal) : Rule := ⟨[a], body⟩

/-- The rule that a body never holds. -/
def constraint (body : List Literal) : Rule := ⟨[], body⟩

/-- The rule that one of an atom and its opposite holds. -/
def choice (a : Atom) : Rule := ⟨[a, a.complement], []⟩

/-- Whether the rule derives nothing. -/
def isConstraint (r : Rule) : Bool := r.head.isEmpty

end Rule

/-! ## Programs -/

/-- An entry of a program. -/
inductive Statement where
  | comment (text : String)
  | rule (r : Rule)
  deriving Inhabited

/-- The rule of an entry, unless it is a comment. -/
def Statement.rule? : Statement → Option Rule
  | comment _ => none
  | rule r => some r

/-- A program: rules and comments in order. -/
structure Program where
  statements : Array Statement
  deriving Inhabited

namespace Program

/-- The program without entries. -/
def empty : Program := ⟨#[]⟩

/-- Appends a rule. -/
def push (p : Program) (r : Rule) : Program := ⟨p.statements.push (.rule r)⟩

/-- Appends rules. -/
def pushAll (p : Program) (rs : List Rule) : Program := rs.foldl push p

/-- Appends a comment. -/
def comment (p : Program) (text : String) : Program := ⟨p.statements.push (.comment text)⟩

/-- Appends another program. -/
def append (p q : Program) : Program := ⟨p.statements ++ q.statements⟩

instance : Append Program := ⟨append⟩

/-- The rules in order. -/
def rules (p : Program) : List Rule := p.statements.toList.filterMap Statement.rule?

/-- How many rules there are. -/
def length (p : Program) : Nat := p.rules.length

/-- Whether there is neither a rule nor a comment. -/
def isBlank (p : Program) : Bool := p.statements.isEmpty

@[simp] theorem rules_empty : empty.rules = [] := rfl

@[simp] theorem rules_push (p : Program) (r : Rule) : (p.push r).rules = p.rules ++ [r] := by
  simp [push, rules, Statement.rule?]

@[simp] theorem rules_pushAll (p : Program) (rs : List Rule) :
    (p.pushAll rs).rules = p.rules ++ rs := by
  induction rs generalizing p with
  | nil => simp [pushAll]
  | cons r rs ih =>
    have : p.pushAll (r :: rs) = (p.push r).pushAll rs := rfl
    rw [this, ih, rules_push, List.append_assoc, List.singleton_append]

@[simp] theorem rules_comment (p : Program) (text : String) : (p.comment text).rules = p.rules := by
  simp [comment, rules, Statement.rule?]

@[simp] theorem rules_append (p q : Program) : (p ++ q).rules = p.rules ++ q.rules := by
  change (append p q).rules = _
  simp [append, rules]

end Program

end FixedDomain
