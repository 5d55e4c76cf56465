import FixedDomain.AnswerSet.Assignment

/-! # Propagation

Consequences of a partial assignment:

* a body that holds makes its head hold; a body that must fail and has one open literal makes
  that literal fail (`ruleStep`);
* an atom that no body can support fails, and an atom that holds by a single possible body makes
  the literals of that body hold (`supportStep`).

`propagate` repeats both until nothing changes. The answer is `none` when the assignment has no
extension that is an answer set.
-/

namespace FixedDomain.AnswerSet

/-! ## Rules -/

/-- What an assignment says of a body: it fails, it holds, or it has one or several open
literals. -/
inductive BodyStatus where
  | failed
  | satisfied
  | oneOpen (l : BodyLiteral)
  | open
  deriving DecidableEq

/-- The status of a body. -/
def bodyStatus (a : Assignment) : List BodyLiteral → BodyStatus
  | [] => .satisfied
  | l :: ls =>
    match l.value a with
    | .fails => .failed
    | .holds => bodyStatus a ls
    | .unknown =>
      -- a later literal may still fail, and then the body does
      match bodyStatus a ls with
      | .failed => .failed
      | .satisfied => .oneOpen l
      | _ => .open

/-- Settles the atom of a literal so that the literal fails; counts settle nothing. -/
def refute (a : Assignment) : BodyLiteral → Assignment
  | .pos atom => a.decide atom false
  | .not atom => a.decide atom true
  | .count _ _ _ => a

/-- Settles the atom of a literal so that the literal holds; counts settle nothing. -/
def confirm (a : Assignment) : BodyLiteral → Assignment
  | .pos atom => a.decide atom true
  | .not atom => a.decide atom false
  | .count _ _ _ => a

/-- Whether the head of a rule cannot hold: there is none, or it fails. -/
def headFails (a : Assignment) : Option Nat → Bool
  | none => true
  | some h => a.get h == .fails

/-- What one rule says about an assignment. -/
def ruleStep (a : Assignment) (r : NormalRule) : Option Assignment :=
  match bodyStatus a r.body with
  | .failed | .open => some a
  | .satisfied =>
    if headFails a r.head then none
    else some (r.head.elim a fun h => a.decide h true)
  | .oneOpen l => some (if headFails a r.head then refute a l else a)

/-! ## Support -/

/-- How many of the bodies that derive an atom can still hold: none, one, or several. -/
inductive Support where
  | none
  | sole (body : List BodyLiteral)
  | several

/-- Whether a body can still hold. -/
def isPossible (a : Assignment) (body : List BodyLiteral) : Bool := bodyValue a body != .fails

/-- The support of an atom, from the bodies that derive it. -/
def support (a : Assignment) : List (List BodyLiteral) → Support
  | [] => .none
  | body :: bodies =>
    if isPossible a body then
      if bodies.any (isPossible a) then .several else .sole body
    else support a bodies

/-- What the bodies that derive an atom say about an assignment. -/
def supportStep (p : NormalProgram) (a : Assignment) (atom : Nat) : Option Assignment :=
  match a.get atom with
  | .fails => some a
  | .holds =>
    match support a (p.supports[atom]?.getD []) with
    -- an atom that holds cannot do without support
    | .none => none
    | .sole body => some (body.foldl confirm a)
    | .several => some a
  | .unknown =>
    match support a (p.supports[atom]?.getD []) with
    | .none => some (a.decide atom false)
    | _ => some a

/-! ## Closure -/

/-- Runs a step for each item in turn, until one fails. -/
def runSteps {α : Type} (step : Assignment → α → Option Assignment) :
    List α → Assignment → Option Assignment
  | [], a => some a
  | x :: xs, a =>
    match step a x with
    | none => none
    | some b => runSteps step xs b

/-- One pass over all rules and then over all atoms. -/
def pass (p : NormalProgram) (a : Assignment) : Option Assignment :=
  match runSteps ruleStep p.rules a with
  | none => none
  | some b => runSteps (supportStep p) (List.range p.atoms.size) b

/-- Repeats passes as long as they settle atoms. -/
def propagate (p : NormalProgram) (a : Assignment) : Option Assignment :=
  match pass p a with
  | none => none
  | some b => if b.undecided < a.undecided then propagate p b else some b
termination_by a.undecided

/-! ## Propagation does not forget -/

theorem refute_undecided_le (a : Assignment) (l : BodyLiteral) :
    (refute a l).undecided ≤ a.undecided := by
  cases l <;> simp [refute, Assignment.undecided_decide_le]

theorem confirm_undecided_le (a : Assignment) (l : BodyLiteral) :
    (confirm a l).undecided ≤ a.undecided := by
  cases l <;> simp [confirm, Assignment.undecided_decide_le]

theorem foldl_confirm_undecided_le (body : List BodyLiteral) (a : Assignment) :
    (body.foldl confirm a).undecided ≤ a.undecided := by
  induction body generalizing a with
  | nil => exact Nat.le_refl _
  | cons l ls ih => exact Nat.le_trans (ih _) (confirm_undecided_le a l)

theorem ruleStep_undecided_le {a b : Assignment} {r : NormalRule} (h : ruleStep a r = some b) :
    b.undecided ≤ a.undecided := by
  unfold ruleStep at h
  split at h
  · cases h; exact Nat.le_refl _
  · cases h; exact Nat.le_refl _
  · split at h
    · cases h
    · cases h
      cases r.head with
      | none => exact Nat.le_refl _
      | some h => exact Assignment.undecided_decide_le ..
  · cases h
    split
    · exact refute_undecided_le ..
    · exact Nat.le_refl _

theorem supportStep_undecided_le {p : NormalProgram} {a b : Assignment} {atom : Nat}
    (h : supportStep p a atom = some b) : b.undecided ≤ a.undecided := by
  unfold supportStep at h
  split at h
  · cases h; exact Nat.le_refl _
  · split at h
    · cases h
    · cases h; exact foldl_confirm_undecided_le ..
    · cases h; exact Nat.le_refl _
  · split at h
    · cases h; exact Assignment.undecided_decide_le ..
    · cases h; exact Nat.le_refl _

theorem runSteps_undecided_le {α : Type} {step : Assignment → α → Option Assignment}
    (hstep : ∀ {a b x}, step a x = some b → b.undecided ≤ a.undecided) {xs : List α}
    {a b : Assignment} (h : runSteps step xs a = some b) : b.undecided ≤ a.undecided := by
  induction xs generalizing a with
  | nil => cases h; exact Nat.le_refl _
  | cons x xs ih =>
    unfold runSteps at h
    split at h
    · cases h
    · next hx => exact Nat.le_trans (ih h) (hstep hx)

theorem pass_undecided_le {p : NormalProgram} {a b : Assignment} (h : pass p a = some b) :
    b.undecided ≤ a.undecided := by
  unfold pass at h
  split at h
  · cases h
  · next hr =>
    exact Nat.le_trans (runSteps_undecided_le supportStep_undecided_le h)
      (runSteps_undecided_le ruleStep_undecided_le hr)

/-- No atom becomes open again. -/
theorem propagate_undecided_le {p : NormalProgram} {a b : Assignment}
    (h : propagate p a = some b) : b.undecided ≤ a.undecided := by
  fun_induction propagate p a with
  | case1 => cases h
  | case2 a c hc hlt ih => exact Nat.le_trans (ih h) (Nat.le_of_lt hlt)
  | case3 a c hc hlt => cases h; exact pass_undecided_le hc

end FixedDomain.AnswerSet
