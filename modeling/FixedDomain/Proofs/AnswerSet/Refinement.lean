import Mathlib.Data.List.Forall2
import Mathlib.Tactic.Common
import FixedDomain.AnswerSet.Stability

/-! # Refinement of partial assignments

An assignment refines another if it settles all that the other settles, in the same way. What is
known of conditions, counts, literals and bodies is kept by every refinement
(`BodyLiteral.value_mono`, `bodyValue_mono`), and under a total assignment everything is known and
agrees with what the reduct says (`holdsInReduct_iff_value`).
-/

namespace FixedDomain.AnswerSet

/-! ## Truth values -/

namespace Truth

/-- A value is refined by itself, and the unknown one by every value. -/
instance : LE Truth := ⟨fun s t => s = .unknown ∨ s = t⟩

@[simp] theorem unknown_le (t : Truth) : unknown ≤ t := .inl rfl

@[simp] theorem le_refl (t : Truth) : t ≤ t := .inr rfl

theorem eq_of_le {s t : Truth} (h : s ≤ t) (hs : s ≠ .unknown) : t = s := by
  rcases h with h | h
  · exact absurd h hs
  · exact h.symm

theorem negate_le {s t : Truth} (h : s ≤ t) : s.negate ≤ t.negate := by
  rcases h with rfl | rfl
  · exact .inl rfl
  · exact .inr rfl

@[simp] theorem ofBool_ne_unknown (v : Bool) : ofBool v ≠ .unknown := by cases v <;> simp [ofBool]

end Truth

/-! ## Assignments -/

namespace Assignment

/-- `b` settles all that `a` settles, in the same way. -/
structure Refines (a b : Assignment) : Prop where
  size : b.values.size = a.values.size
  get : ∀ i, a.get i ≤ b.get i

instance : LE Assignment := ⟨Refines⟩

theorem le_refl (a : Assignment) : a ≤ a := ⟨rfl, fun _ => .inr rfl⟩

theorem le_trans {a b c : Assignment} (hab : a ≤ b) (hbc : b ≤ c) : a ≤ c := by
  refine ⟨hbc.size.trans hab.size, fun i => ?_⟩
  rcases hab.get i with h | h
  · exact .inl h
  · exact h ▸ hbc.get i

theorem get_eq_of_le {a b : Assignment} (h : a ≤ b) {i : Nat} {t : Truth} (ha : a.get i = t)
    (ht : t ≠ .unknown := by simp) : b.get i = t := by
  rw [← ha] at ht ⊢
  exact Truth.eq_of_le (h.get i) ht

/-- Two assignments of one size are the same if they say the same of each atom. -/
theorem ext_get {a b : Assignment} (hsize : a.values.size = b.values.size)
    (h : ∀ i < a.values.size, a.get i = b.get i) : a = b := by
  obtain ⟨a⟩ := a
  obtain ⟨b⟩ := b
  congr
  apply Array.ext hsize
  intro i hia hib
  have hi := h i hia
  have hia' : i < a.size := hia
  have hib' : i < b.size := hib
  simpa [get, hia', hib'] using hi

theorem get_of_size_le {a : Assignment} {i : Nat} (h : a.values.size ≤ i) :
    a.get i = .unknown := by
  simp [get, Array.getElem?_eq_none h]

@[simp] theorem get_unknown (n i : Nat) : (unknown n).get i = .unknown := by
  simp only [unknown, get, Array.getElem?_replicate]
  split <;> rfl

@[simp] theorem size_unknown (n : Nat) : (unknown n).values.size = n := by simp [unknown]

@[simp] theorem size_decide (a : Assignment) (i : Nat) (v : Bool) :
    (a.decide i v).values.size = a.values.size := by
  unfold decide
  split <;> simp

theorem get_decide (a : Assignment) (i j : Nat) (v : Bool) :
    (a.decide i v).get j =
      if j = i ∧ a.get i = .unknown ∧ i < a.values.size then Truth.ofBool v else a.get j := by
  unfold decide
  split
  · next hi =>
    by_cases hj : j = i
    · subst hj
      by_cases hlt : j < a.values.size
      · simp [get, hlt] at hi ⊢
        simp [hi]
      · simp [get, hlt]
    · simp [get, hj, Ne.symm hj]
  · next hi =>
    rw [if_neg]
    rintro ⟨-, h, -⟩
    exact hi h

/-- Settling an atom refines. -/
theorem le_decide (a : Assignment) (i : Nat) (v : Bool) : a ≤ a.decide i v := by
  refine ⟨by simp, fun j => ?_⟩
  rw [get_decide]
  split
  · next h => exact .inl (h.1 ▸ h.2.1)
  · exact .inr rfl

/-- Settling an atom as a refinement has it leads to no other assignments. -/
theorem decide_le {a b : Assignment} (h : a ≤ b) {i : Nat} {v : Bool}
    (hi : i < b.values.size → b.get i = Truth.ofBool v) : a.decide i v ≤ b := by
  refine ⟨by simpa using h.size, fun j => ?_⟩
  rw [get_decide]
  split
  · next hj =>
    obtain ⟨rfl, -, hlt⟩ := hj
    exact .inr (hi (h.size ▸ hlt)).symm
  · exact h.get j

/-- Every numbered atom is settled. -/
def IsTotal (a : Assignment) : Prop := ∀ i < a.values.size, a.get i ≠ .unknown

theorem eq_of_le_of_isTotal {a b : Assignment} (ha : a.IsTotal) (h : a ≤ b) : a = b := by
  apply ext_get h.size.symm
  intro i hi
  rcases h.get i with hu | he
  · exact absurd hu (ha i hi)
  · exact he

theorem isTotal_iff_firstUndecided? {a : Assignment} :
    a.IsTotal ↔ a.firstUndecided? = none := by
  rw [firstUndecided?, Array.findIdx?_eq_none_iff]
  constructor
  · intro h t ht
    obtain ⟨i, hi, rfl⟩ := Array.mem_iff_getElem.1 ht
    have := h i hi
    simpa [get, hi] using this
  · intro h i hi
    have := h _ (Array.getElem_mem hi)
    simpa [get, hi] using this

theorem lt_and_get_of_firstUndecided? {a : Assignment} {i : Nat} (h : a.firstUndecided? = some i) :
    i < a.values.size ∧ a.get i = .unknown := by
  rw [firstUndecided?, Array.findIdx?_eq_some_iff_getElem] at h
  obtain ⟨hlt, hget, -⟩ := h
  exact ⟨hlt, by simpa [get, hlt] using hget⟩

/-- The atoms before the first open one are settled. -/
theorem get_of_lt_firstUndecided? {a : Assignment} {i j : Nat} (h : a.firstUndecided? = some i)
    (hj : j < i) : a.get j ≠ .unknown := by
  rw [firstUndecided?, Array.findIdx?_eq_some_iff_getElem] at h
  obtain ⟨hlt, -, hbefore⟩ := h
  have hj' : j < a.values.size := Nat.lt_trans hj hlt
  simpa [get, hj'] using hbefore j hj

theorem count_unknown_le {s t : List Truth} (h : List.Forall₂ (· ≤ ·) s t) :
    t.count .unknown ≤ s.count .unknown := by
  induction h with
  | nil => exact Nat.le_refl _
  | cons hd _ ih =>
    simp only [List.count_cons]
    rcases hd with rfl | rfl
    · split <;> simp <;> omega
    · omega

theorem eq_of_count_unknown_le {s t : List Truth} (h : List.Forall₂ (· ≤ ·) s t)
    (hc : s.count .unknown ≤ t.count .unknown) : s = t := by
  induction h with
  | nil => rfl
  | @cons x y xs ys hd tl ih =>
    have hle := count_unknown_le tl
    simp only [List.count_cons] at hc
    rcases hd with rfl | rfl
    · have hy : y = .unknown := by
        by_contra hy
        simp [hy] at hc
        omega
      subst hy
      rw [ih (by omega)]
    · rw [ih (by omega)]

/-- A refinement with no fewer open atoms settles nothing. -/
theorem eq_of_le_of_undecided_le {a b : Assignment} (h : a ≤ b) (hu : a.undecided ≤ b.undecided) :
    a = b := by
  obtain ⟨a⟩ := a
  obtain ⟨b⟩ := b
  have hsize : b.size = a.size := h.size
  have hall : List.Forall₂ (· ≤ ·) a.toList b.toList := by
    refine List.forall₂_iff_get.2 ⟨by simpa using hsize.symm, fun i hi hi' => ?_⟩
    have hia : i < a.size := by simpa using hi
    have hib : i < b.size := by simpa using hi'
    simpa [get, hia, hib] using h.get i
  simp only [undecided, ← Array.count_toList] at hu
  rw [Assignment.mk.injEq, ← Array.toList_inj]
  exact eq_of_count_unknown_le hall hu

end Assignment

/-! ## Conjunctions and disjunctions -/

theorem conjunction_eq_holds_iff {α : Type} {f : α → Truth} {xs : List α} :
    conjunction f xs = .holds ↔ ∀ x ∈ xs, f x = .holds := by
  induction xs with
  | nil => simp [conjunction]
  | cons x xs ih =>
    simp only [conjunction, List.forall_mem_cons]
    cases hx : f x with
    | holds => simpa using ih
    | fails => simp
    | unknown => cases conjunction f xs <;> simp

theorem conjunction_eq_fails_iff {α : Type} {f : α → Truth} {xs : List α} :
    conjunction f xs = .fails ↔ ∃ x ∈ xs, f x = .fails := by
  induction xs with
  | nil => simp [conjunction]
  | cons x xs ih =>
    simp only [conjunction, List.exists_mem_cons_iff]
    cases hx : f x with
    | holds => simpa using ih
    | fails => simp
    | unknown => cases hr : conjunction f xs <;> simp_all

theorem disjunction_eq_holds_iff {α : Type} {f : α → Truth} {xs : List α} :
    disjunction f xs = .holds ↔ ∃ x ∈ xs, f x = .holds := by
  induction xs with
  | nil => simp [disjunction]
  | cons x xs ih =>
    simp only [disjunction, List.exists_mem_cons_iff]
    cases hx : f x with
    | holds => simp
    | fails => simpa using ih
    | unknown => cases hr : disjunction f xs <;> simp_all

theorem disjunction_eq_fails_iff {α : Type} {f : α → Truth} {xs : List α} :
    disjunction f xs = .fails ↔ ∀ x ∈ xs, f x = .fails := by
  induction xs with
  | nil => simp [disjunction]
  | cons x xs ih =>
    simp only [disjunction, List.forall_mem_cons]
    cases hx : f x with
    | holds => simp
    | fails => simpa using ih
    | unknown => cases disjunction f xs <;> simp

theorem conjunction_ne_unknown {α : Type} {f : α → Truth} {xs : List α}
    (h : ∀ x ∈ xs, f x ≠ .unknown) : conjunction f xs ≠ .unknown := by
  induction xs with
  | nil => simp [conjunction]
  | cons x xs ih =>
    obtain ⟨hx, hxs⟩ := List.forall_mem_cons.1 h
    simp only [conjunction]
    cases hfx : f x with
    | holds => exact ih hxs
    | fails => simp
    | unknown => exact absurd hfx hx

theorem disjunction_ne_unknown {α : Type} {f : α → Truth} {xs : List α}
    (h : ∀ x ∈ xs, f x ≠ .unknown) : disjunction f xs ≠ .unknown := by
  induction xs with
  | nil => simp [disjunction]
  | cons x xs ih =>
    obtain ⟨hx, hxs⟩ := List.forall_mem_cons.1 h
    simp only [disjunction]
    cases hfx : f x with
    | holds => simp
    | fails => exact ih hxs
    | unknown => exact absurd hfx hx

/-- A value that is settled when it holds and when it fails is kept by every refinement. -/
theorem Truth.le_of_imp {s t : Truth} (hh : s = .holds → t = .holds)
    (hf : s = .fails → t = .fails) : s ≤ t := by
  cases s with
  | unknown => exact .inl rfl
  | holds => exact .inr (hh rfl).symm
  | fails => exact .inr (hf rfl).symm

theorem conjunction_mono {α : Type} {f g : α → Truth} {xs : List α} (h : ∀ x ∈ xs, f x ≤ g x) :
    conjunction f xs ≤ conjunction g xs := by
  apply Truth.le_of_imp
  · rw [conjunction_eq_holds_iff, conjunction_eq_holds_iff]
    intro hf x hx
    exact Truth.eq_of_le (hf x hx ▸ h x hx) (by simp)
  · rw [conjunction_eq_fails_iff, conjunction_eq_fails_iff]
    rintro ⟨x, hx, hf⟩
    exact ⟨x, hx, Truth.eq_of_le (hf ▸ h x hx) (by simp)⟩

theorem disjunction_mono {α : Type} {f g : α → Truth} {xs : List α} (h : ∀ x ∈ xs, f x ≤ g x) :
    disjunction f xs ≤ disjunction g xs := by
  apply Truth.le_of_imp
  · rw [disjunction_eq_holds_iff, disjunction_eq_holds_iff]
    rintro ⟨x, hx, hf⟩
    exact ⟨x, hx, Truth.eq_of_le (hf ▸ h x hx) (by simp)⟩
  · rw [disjunction_eq_fails_iff, disjunction_eq_fails_iff]
    intro hf x hx
    exact Truth.eq_of_le (hf x hx ▸ h x hx) (by simp)

/-! ## Counts -/

/-- What is known of a comparison is kept when the certain count grows and the possible one
shrinks. -/
theorem compareCounts_mono (op : Comparison) (bound : Nat) {c p c' p' : Nat} (hc : c ≤ c')
    (hp : p' ≤ p) (h : c' ≤ p') : compareCounts op c p bound ≤ compareCounts op c' p' bound := by
  apply Truth.le_of_imp
  · cases op <;> simp [compareCounts] <;> grind
  · cases op <;> simp [compareCounts] <;> grind

theorem compareCounts_self (op : Comparison) (n bound : Nat) :
    compareCounts op n n bound = Truth.ofBool (op.holds n bound) := by
  cases op <;> simp [compareCounts, Comparison.holds, Truth.ofBool] <;> grind

/-- A step that counts a group in one or both of two numbers counts all groups that way. -/
theorem foldl_eq_countP {α : Type} {step : Nat × Nat → α → Nat × Nat} {p q : α → Bool}
    (hstep : ∀ m n x, step (m, n) x = (m + (p x).toNat, n + (q x).toNat)) (xs : List α)
    (m n : Nat) : xs.foldl step (m, n) = (m + xs.countP p, n + xs.countP q) := by
  induction xs generalizing m n with
  | nil => rfl
  | cons x xs ih =>
    rw [List.foldl_cons, hstep, ih, List.countP_cons, List.countP_cons]
    cases p x <;> cases q x <;> simp <;> omega

theorem countGroups_eq (a : Assignment) (groups : List (List Condition)) :
    countGroups a groups =
      (groups.countP (groupValue a · == .holds), groups.countP (groupValue a · != .fails)) := by
  rw [countGroups, foldl_eq_countP (p := (groupValue a · == .holds))
    (q := (groupValue a · != .fails)), Nat.zero_add, Nat.zero_add]
  intro m n group
  dsimp only
  cases groupValue a group <;> rfl

theorem atomValue_mono {a b : Assignment} (h : a ≤ b) (i : Nat) (positive : Bool) :
    atomValue a i positive ≤ atomValue b i positive := by
  cases positive with
  | true => exact h.get i
  | false => exact Truth.negate_le (h.get i)

theorem groupValue_mono {a b : Assignment} (h : a ≤ b) (group : List Condition) :
    groupValue a group ≤ groupValue b group :=
  disjunction_mono fun _ _ => conjunction_mono fun p _ => atomValue_mono h p.1 p.2

/-! ## Literals and bodies -/

theorem BodyLiteral.value_count (a : Assignment) (groups : List (List Condition))
    (op : Comparison) (bound : Nat) :
    (BodyLiteral.count groups op bound).value a =
      compareCounts op (groups.countP (groupValue a · == .holds))
        (groups.countP (groupValue a · != .fails)) bound := by
  simp only [BodyLiteral.value, countGroups_eq]

/-- What is known of a literal is kept by every refinement. -/
theorem BodyLiteral.value_mono {a b : Assignment} (h : a ≤ b) (l : BodyLiteral) :
    l.value a ≤ l.value b := by
  cases l with
  | pos i => exact atomValue_mono h i true
  | not i => exact atomValue_mono h i false
  | count groups op bound =>
    rw [value_count, value_count]
    apply compareCounts_mono
    · -- a group that certainly holds goes on doing so
      apply List.countP_mono_left
      intro group _ hg
      have hg : groupValue a group = .holds := by simpa using hg
      simpa using Truth.eq_of_le (hg ▸ groupValue_mono h group) (by simp)
    · -- a group that has failed stays so
      apply List.countP_mono_left
      intro group _ hg
      have hg : groupValue b group ≠ .fails := by simpa using hg
      have : groupValue a group ≠ .fails := fun ha =>
        hg (Truth.eq_of_le (ha ▸ groupValue_mono h group) (by simp))
      simpa using this
    · apply List.countP_mono_left
      intro group _ hg
      simp_all

theorem bodyValue_mono {a b : Assignment} (h : a ≤ b) (body : List BodyLiteral) :
    bodyValue a body ≤ bodyValue b body :=
  conjunction_mono fun l _ => l.value_mono h

theorem bodyValue_eq_holds_iff {a : Assignment} {body : List BodyLiteral} :
    bodyValue a body = .holds ↔ ∀ l ∈ body, l.value a = .holds := conjunction_eq_holds_iff

/-! ## Total assignments -/

/-- The atoms of a literal are among so many numbered ones. -/
def BodyLiteral.Within (n : Nat) : BodyLiteral → Prop
  | .pos i => i < n
  | .not i => i < n
  | .count groups _ _ => ∀ group ∈ groups, ∀ condition ∈ group, ∀ p ∈ condition, p.1 < n

/-- The atoms of a rule are among so many numbered ones. -/
structure NormalRule.Within (n : Nat) (r : NormalRule) : Prop where
  head : ∀ h, r.head = some h → h < n
  body : ∀ l ∈ r.body, l.Within n

/-- The atoms derived are those that hold. -/
def Derived.Matches (d : Derived) (a : Assignment) : Prop :=
  ∀ i, d.contains i = true ↔ a.get i = .holds

section Total

variable {a : Assignment} {d : Derived} (ht : a.IsTotal) (hd : d.Matches a)

include ht hd

theorem conditionInReduct_iff_value {monotone : Bool} {condition : Condition}
    (hw : ∀ p ∈ condition, p.1 < a.values.size) :
    conditionInReduct a d monotone condition = true ↔ conditionValue a condition = .holds := by
  rw [conditionInReduct, conditionValue, conjunction_eq_holds_iff, List.all_eq_true]
  apply forall₂_congr
  intro p hp
  obtain ⟨i, positive⟩ := p
  have hi := ht i (hw _ hp)
  cases positive with
  | true => cases monotone <;> simp [atomValue, hd i]
  | false => cases hai : a.get i <;> simp_all [atomValue, Truth.negate]

theorem groupInReduct_iff_value {monotone : Bool} {group : List Condition}
    (hw : ∀ condition ∈ group, ∀ p ∈ condition, p.1 < a.values.size) :
    group.any (conditionInReduct a d monotone) = true ↔ groupValue a group = .holds := by
  rw [groupValue, disjunction_eq_holds_iff, List.any_eq_true]
  exact exists_congr fun condition => and_congr_right fun hc =>
    conditionInReduct_iff_value ht hd (hw condition hc)

omit hd in
theorem groupValue_ne_unknown {group : List Condition}
    (hw : ∀ condition ∈ group, ∀ p ∈ condition, p.1 < a.values.size) :
    groupValue a group ≠ .unknown := by
  refine disjunction_ne_unknown fun condition hc => conjunction_ne_unknown fun p hp => ?_
  obtain ⟨i, positive⟩ := p
  have hi := ht i (hw condition hc _ hp)
  cases hai : a.get i <;> cases positive <;> simp_all [atomValue, Truth.negate]

omit hd in
/-- No group is open, so the possible count is the certain one. -/
theorem countP_ne_fails {groups : List (List Condition)}
    (hw : ∀ group ∈ groups, ∀ condition ∈ group, ∀ p ∈ condition, p.1 < a.values.size) :
    groups.countP (groupValue a · != .fails) = groups.countP (groupValue a · == .holds) := by
  apply List.countP_congr
  intro group hg
  have := groupValue_ne_unknown ht (hw group hg)
  cases hv : groupValue a group <;> simp_all

omit hd in
theorem BodyLiteral.value_ne_unknown {l : BodyLiteral} (hw : l.Within a.values.size) :
    l.value a ≠ .unknown := by
  cases l with
  | pos i => exact ht i hw
  | not i =>
    have hi := ht i hw
    cases hai : a.get i <;> simp_all [BodyLiteral.value, atomValue, Truth.negate]
  | count groups op bound =>
    rw [BodyLiteral.value_count, countP_ne_fails ht hw, compareCounts_self]
    exact Truth.ofBool_ne_unknown _

/-- Under a total assignment the reduct says of a literal what the assignment says. -/
theorem holdsInReduct_iff_value {l : BodyLiteral} (hw : l.Within a.values.size) :
    holdsInReduct a d l = true ↔ l.value a = .holds := by
  cases l with
  | pos i => exact hd i
  | not i =>
    have hi := ht i hw
    cases hai : a.get i <;> simp_all [holdsInReduct, BodyLiteral.value, atomValue, Truth.negate]
  | count groups op bound =>
    have hcount : groups.countP (fun group => group.any (conditionInReduct a d op.isMonotone)) =
        groups.countP (groupValue a · == .holds) := by
      apply List.countP_congr
      intro group hg
      rw [groupInReduct_iff_value ht hd (hw group hg), beq_iff_eq]
    rw [BodyLiteral.value_count, countP_ne_fails ht hw, compareCounts_self, holdsInReduct, hcount]
    cases op.holds _ bound <;> simp [Truth.ofBool]

end Total

end FixedDomain.AnswerSet
