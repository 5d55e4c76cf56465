/-! # Sorted sets

Finite sets kept as strictly increasing lists:

* `SortedSet α` — the list together with the proof that it increases, so that a set has exactly
  one representation and its elements come out in order.
* `insert`, `ofList`, `filter` and membership, with one membership lemma for each.
-/

namespace FixedDomain

/-- A finite set, given by its elements in strictly increasing order. -/
structure SortedSet (α : Type) [Ord α] where
  toList : List α
  sorted : toList.Pairwise fun a b => compare a b = .lt

namespace SortedSet

variable {α : Type} [Ord α]

/-! ## Construction -/

/-- The set without elements. -/
def empty : SortedSet α := ⟨[], .nil⟩

instance : Inhabited (SortedSet α) := ⟨empty⟩

instance [DecidableEq α] : DecidableEq (SortedSet α) := fun s t =>
  decidable_of_iff (s.toList = t.toList) <| by
    cases s; cases t; simp

/-- Puts an element before the first larger one; an element already there stays as it is. -/
def insertSorted (x : α) : List α → List α
  | [] => [x]
  | y :: ys =>
    match compare x y with
    | .lt => x :: y :: ys
    | .eq => y :: ys
    | .gt => y :: insertSorted x ys

theorem mem_insertSorted [Std.LawfulEqOrd α] {x z : α} {ys : List α} :
    z ∈ insertSorted x ys ↔ z = x ∨ z ∈ ys := by
  induction ys with
  | nil => simp [insertSorted]
  | cons y ys ih =>
    simp only [insertSorted]
    split
    · simp
    · next h =>
      have hxy : x = y := Std.LawfulEqCmp.eq_of_compare h
      simp [hxy]
    · simp only [List.mem_cons, ih]
      constructor
      · rintro (h | h | h) <;> simp [h]
      · rintro (h | h | h) <;> simp [h]

theorem pairwise_insertSorted [Std.TransOrd α] [Std.LawfulEqOrd α] {x : α} {ys : List α}
    (h : ys.Pairwise fun a b => compare a b = .lt) :
    (insertSorted x ys).Pairwise fun a b => compare a b = .lt := by
  induction ys with
  | nil => simp [insertSorted]
  | cons y ys ih =>
    have ⟨hy, hys⟩ := List.pairwise_cons.1 h
    simp only [insertSorted]
    split
    · next hxy =>
      refine List.pairwise_cons.2 ⟨fun z hz => ?_, h⟩
      rcases List.mem_cons.1 hz with rfl | hz
      · exact hxy
      · exact Std.TransCmp.lt_trans hxy (hy z hz)
    · exact h
    · next hxy =>
      refine List.pairwise_cons.2 ⟨fun z hz => ?_, ih hys⟩
      rcases mem_insertSorted.1 hz with rfl | hz
      · exact Std.OrientedCmp.lt_of_gt hxy
      · exact hy z hz

/-- The set with one more element. -/
def insert [Std.TransOrd α] [Std.LawfulEqOrd α] (s : SortedSet α) (x : α) : SortedSet α :=
  ⟨insertSorted x s.toList, pairwise_insertSorted s.sorted⟩

/-- The set with every element of a list added. -/
def insertAll [Std.TransOrd α] [Std.LawfulEqOrd α] (s : SortedSet α) (xs : List α) : SortedSet α :=
  xs.foldl insert s

/-- The elements of a list, each once and in order. -/
def ofList [Std.TransOrd α] [Std.LawfulEqOrd α] (xs : List α) : SortedSet α :=
  empty.insertAll xs

/-- The elements that pass a test. -/
def filter (p : α → Bool) (s : SortedSet α) : SortedSet α :=
  ⟨s.toList.filter p, s.sorted.filter p⟩

/-- How many elements there are. -/
def size (s : SortedSet α) : Nat := s.toList.length

/-- Whether there is no element. -/
def isEmpty (s : SortedSet α) : Bool := s.toList.isEmpty

/-! ## Membership -/

instance : Membership α (SortedSet α) := ⟨fun s x => x ∈ s.toList⟩

theorem mem_def {s : SortedSet α} {x : α} : x ∈ s ↔ x ∈ s.toList := Iff.rfl

instance [DecidableEq α] (s : SortedSet α) (x : α) : Decidable (x ∈ s) :=
  inferInstanceAs (Decidable (x ∈ s.toList))

@[simp] theorem not_mem_empty {x : α} : x ∉ (empty : SortedSet α) := by
  simp [mem_def, empty]

@[simp] theorem mem_insert [Std.TransOrd α] [Std.LawfulEqOrd α] {s : SortedSet α} {x z : α} :
    z ∈ s.insert x ↔ z = x ∨ z ∈ s := mem_insertSorted

@[simp] theorem mem_insertAll [Std.TransOrd α] [Std.LawfulEqOrd α] {s : SortedSet α} {xs : List α}
    {z : α} : z ∈ s.insertAll xs ↔ z ∈ xs ∨ z ∈ s := by
  induction xs generalizing s with
  | nil => simp [insertAll]
  | cons x xs ih =>
    have : s.insertAll (x :: xs) = (s.insert x).insertAll xs := rfl
    rw [this, ih, mem_insert, List.mem_cons]
    constructor
    · rintro (h | h | h) <;> simp [h]
    · rintro ((h | h) | h) <;> simp [h]

@[simp] theorem mem_ofList [Std.TransOrd α] [Std.LawfulEqOrd α] {xs : List α} {z : α} :
    z ∈ ofList xs ↔ z ∈ xs := by
  simp [ofList]

@[simp] theorem mem_filter {s : SortedSet α} {p : α → Bool} {z : α} :
    z ∈ s.filter p ↔ z ∈ s ∧ p z = true := List.mem_filter

theorem nodup [Std.TransOrd α] (s : SortedSet α) : s.toList.Nodup :=
  s.sorted.imp fun hlt => by
    rintro rfl
    simp at hlt

/-- A set is determined by its elements. -/
theorem ext [Std.TransOrd α] [Std.LawfulEqOrd α] {s t : SortedSet α}
    (h : ∀ x, x ∈ s ↔ x ∈ t) : s = t := by
  obtain ⟨xs, hx⟩ := s
  obtain ⟨ys, hy⟩ := t
  simp only [mem_def] at h
  congr 1
  induction xs generalizing ys with
  | nil =>
    cases ys with
    | nil => rfl
    | cons y ys => exact absurd ((h y).2 (by simp)) (by simp)
  | cons x xs ih =>
    cases ys with
    | nil => exact absurd ((h x).1 (by simp)) (by simp)
    | cons y ys =>
      have ⟨hxs, hx'⟩ := List.pairwise_cons.1 hx
      have ⟨hys, hy'⟩ := List.pairwise_cons.1 hy
      have irrefl : ∀ a : α, compare a a ≠ .lt := fun a => by simp
      -- either head is the least element
      have hxy : x = y := by
        rcases List.mem_cons.1 ((h x).1 (by simp)) with h1 | h1
        · exact h1
        rcases List.mem_cons.1 ((h y).2 (by simp)) with h2 | h2
        · exact h2.symm
        exact absurd (Std.TransCmp.lt_trans (hys x h1) (hxs y h2)) (irrefl y)
      subst hxy
      -- the rests have the same elements, as neither holds the head
      have : xs = ys := ih hx' ys hy' fun z => by
        constructor
        · intro hz
          rcases List.mem_cons.1 ((h z).1 (by simp [hz])) with rfl | hz'
          · exact absurd (hxs _ hz) (irrefl _)
          · exact hz'
        · intro hz
          rcases List.mem_cons.1 ((h z).2 (by simp [hz])) with rfl | hz'
          · exact absurd (hys _ hz) (irrefl _)
          · exact hz'
      rw [this]

end SortedSet

end FixedDomain
