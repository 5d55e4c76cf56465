import FixedDomain.AnswerSet.Ground

/-! # Partial assignments

* `Truth` — what is known of an atom: that it holds, that it fails, or nothing yet.
* `Assignment` — a truth value for each numbered atom. `decide` settles an atom that is not
  settled yet and never changes one that is.
* `value` — what an assignment says of a condition, a literal and a body. The value of a count is
  found from the number of groups that certainly hold and of those that possibly do.
-/

namespace FixedDomain.AnswerSet

/-! ## Truth values -/

/-- What is known of an atom. -/
inductive Truth where
  | unknown
  | holds
  | fails
  deriving DecidableEq, Inhabited

namespace Truth

/-- The settled value of a Boolean. -/
def ofBool : Bool → Truth
  | true => holds
  | false => fails

/-- The opposite value. -/
def negate : Truth → Truth
  | unknown => unknown
  | holds => fails
  | fails => holds

end Truth

/-! ## Assignments -/

/-- A truth value for each numbered atom. -/
structure Assignment where
  values : Array Truth
  deriving DecidableEq

namespace Assignment

/-- The assignment that knows nothing of so many atoms. -/
def unknown (size : Nat) : Assignment := ⟨Array.replicate size .unknown⟩

/-- The value of an atom. -/
def get (a : Assignment) (atom : Nat) : Truth := a.values[atom]?.getD .unknown

/-- Settles an atom, unless it is settled already. -/
def decide (a : Assignment) (atom : Nat) (value : Bool) : Assignment :=
  match a.get atom with
  | .unknown => ⟨a.values.setIfInBounds atom (Truth.ofBool value)⟩
  | _ => a

/-- How many atoms are not settled. -/
def undecided (a : Assignment) : Nat := a.values.count .unknown

/-- The first atom that is not settled. -/
def firstUndecided? (a : Assignment) : Option Nat := a.values.findIdx? (· == .unknown)

theorem undecided_decide_le (a : Assignment) (atom : Nat) (value : Bool) :
    (a.decide atom value).undecided ≤ a.undecided := by
  unfold decide
  split
  · rw [undecided, undecided, ← Array.count_toList, ← Array.count_toList,
      Array.toList_setIfInBounds]
    by_cases h : atom < a.values.toList.length
    · have hv : (Truth.ofBool value == Truth.unknown) = false := by cases value <;> rfl
      rw [List.count_set h, hv]
      exact Nat.sub_le ..
    · exact Nat.le_of_eq (by rw [List.set_eq_of_length_le (by omega)])
  · exact Nat.le_refl _

theorem undecided_decide_lt {a : Assignment} {atom : Nat} (h : a.firstUndecided? = some atom)
    (value : Bool) : (a.decide atom value).undecided < a.undecided := by
  rw [firstUndecided?, Array.findIdx?_eq_some_iff_getElem] at h
  obtain ⟨hlt, hget, -⟩ := h
  -- the atom is open, so one open value is replaced by a settled one
  have hu : a.get atom = .unknown := by
    simp only [get, Array.getElem?_eq_getElem hlt, Option.getD_some]
    simpa using hget
  have hlt' : atom < a.values.toList.length := by simpa using hlt
  have heq : (a.values.toList[atom] == Truth.unknown) = true := by simpa using hget
  have hmem : Truth.unknown ∈ a.values.toList := eq_of_beq heq ▸ List.getElem_mem hlt'
  have hpos := List.count_pos_iff.2 hmem
  have hv : (Truth.ofBool value == Truth.unknown) = false := by cases value <;> rfl
  unfold decide
  rw [hu]
  rw [undecided, undecided, ← Array.count_toList, ← Array.count_toList,
    Array.toList_setIfInBounds, List.count_set hlt', heq, hv]
  exact Nat.sub_lt hpos Nat.one_pos

end Assignment

/-! ## Values of conditions -/

/-- The value of an atom, or of its denial. -/
def atomValue (a : Assignment) (atom : Nat) (positive : Bool) : Truth :=
  if positive then a.get atom else (a.get atom).negate

/-- The value of a conjunction: it fails as soon as one conjunct does. -/
def conjunction {α : Type} (value : α → Truth) : List α → Truth
  | [] => .holds
  | x :: xs =>
    match value x with
    | .fails => .fails
    | .holds => conjunction value xs
    | .unknown =>
      match conjunction value xs with
      | .fails => .fails
      | _ => .unknown

/-- The value of a disjunction: it holds as soon as one disjunct does. -/
def disjunction {α : Type} (value : α → Truth) : List α → Truth
  | [] => .fails
  | x :: xs =>
    match value x with
    | .holds => .holds
    | .fails => disjunction value xs
    | .unknown =>
      match disjunction value xs with
      | .holds => .holds
      | _ => .unknown

/-- The value of a condition. -/
def conditionValue (a : Assignment) (condition : Condition) : Truth :=
  conjunction (fun (atom, positive) => atomValue a atom positive) condition

/-- The value of a group: one of its conditions has to hold. -/
def groupValue (a : Assignment) (group : List Condition) : Truth :=
  disjunction (conditionValue a) group

/-- The value of a comparison, from the count that is certain and the largest one possible. -/
def compareCounts (op : Comparison) (certain possible bound : Nat) : Truth :=
  let (satisfied, violated) :=
    match op with
    | .ge => (Nat.ble bound certain, Nat.blt possible bound)
    | .gt => (Nat.blt bound certain, Nat.ble possible bound)
    | .le => (Nat.ble possible bound, Nat.blt bound certain)
    | .lt => (Nat.blt possible bound, Nat.ble bound certain)
    | .eq => (certain == bound && possible == bound, Nat.blt bound certain || Nat.blt possible bound)
  if satisfied then .holds else if violated then .fails else .unknown

/-- How many groups certainly hold, and how many possibly do. -/
def countGroups (a : Assignment) (groups : List (List Condition)) : Nat × Nat :=
  groups.foldl (fun (certain, possible) group =>
    match groupValue a group with
    | .holds => (certain + 1, possible + 1)
    | .unknown => (certain, possible + 1)
    | .fails => (certain, possible)) (0, 0)

/-- The value of a literal. -/
def BodyLiteral.value (a : Assignment) : BodyLiteral → Truth
  | .pos atom => atomValue a atom true
  | .not atom => atomValue a atom false
  | .count groups op bound =>
    let (certain, possible) := countGroups a groups
    compareCounts op certain possible bound

/-- The value of a body. -/
def bodyValue (a : Assignment) (body : List BodyLiteral) : Truth :=
  conjunction (BodyLiteral.value a) body

end FixedDomain.AnswerSet
