/-! # Sorted maps

Finite maps kept as lists of entries with strictly increasing keys:

* `SortedMap κ ν` — the entries together with the proof that their keys increase.
* `insert` gives a key its value, in place of one it had; `find?` reads it back.
-/

namespace FixedDomain

/-- A finite map, given by its entries in strictly increasing order of keys. -/
structure SortedMap (κ ν : Type) [Ord κ] where
  entries : List (κ × ν)
  sorted : entries.Pairwise fun a b => compare a.1 b.1 = .lt

namespace SortedMap

variable {κ ν : Type} [Ord κ]

/-- The map without entries. -/
def empty : SortedMap κ ν := ⟨[], .nil⟩

instance : Inhabited (SortedMap κ ν) := ⟨empty⟩

instance [DecidableEq κ] [DecidableEq ν] : DecidableEq (SortedMap κ ν) := fun s t =>
  decidable_of_iff (s.entries = t.entries) <| by
    cases s; cases t; simp

/-! ## Insertion -/

/-- Puts an entry before the first larger key, or in place of the entry with its key. -/
def insertEntry (k : κ) (v : ν) : List (κ × ν) → List (κ × ν)
  | [] => [(k, v)]
  | e :: es =>
    match compare k e.1 with
    | .lt => (k, v) :: e :: es
    | .eq => (k, v) :: es
    | .gt => e :: insertEntry k v es

theorem fst_mem_of_mem_insertEntry {k : κ} {v : ν} {e : κ × ν} {es : List (κ × ν)}
    (h : e ∈ insertEntry k v es) : e = (k, v) ∨ e ∈ es := by
  induction es with
  | nil => simpa [insertEntry] using h
  | cons d ds ih =>
    simp only [insertEntry] at h
    split at h
    · simpa using h
    · rcases List.mem_cons.1 h with h | h
      · exact .inl h
      · exact .inr (List.mem_cons_of_mem _ h)
    · rcases List.mem_cons.1 h with h | h
      · exact .inr (by simp [h])
      · exact (ih h).imp_right (List.mem_cons_of_mem _)

theorem pairwise_insertEntry [Std.TransOrd κ] [Std.LawfulEqOrd κ] {k : κ} {v : ν}
    {es : List (κ × ν)} (h : es.Pairwise fun a b => compare a.1 b.1 = .lt) :
    (insertEntry k v es).Pairwise fun a b => compare a.1 b.1 = .lt := by
  induction es with
  | nil => simp [insertEntry]
  | cons d ds ih =>
    have ⟨hd, hds⟩ := List.pairwise_cons.1 h
    simp only [insertEntry]
    split
    · next hk =>
      refine List.pairwise_cons.2 ⟨fun e he => ?_, h⟩
      rcases List.mem_cons.1 he with rfl | he
      · exact hk
      · exact Std.TransCmp.lt_trans hk (hd e he)
    · next hk =>
      have : k = d.1 := Std.LawfulEqCmp.eq_of_compare hk
      exact List.pairwise_cons.2 ⟨fun e he => by simpa [this] using hd e he, hds⟩
    · next hk =>
      refine List.pairwise_cons.2 ⟨fun e he => ?_, ih hds⟩
      rcases fst_mem_of_mem_insertEntry he with rfl | he
      · exact Std.OrientedCmp.lt_of_gt hk
      · exact hd e he

/-- The map that sends `k` to `v` and every other key where it went before. -/
def insert [Std.TransOrd κ] [Std.LawfulEqOrd κ] (m : SortedMap κ ν) (k : κ) (v : ν) :
    SortedMap κ ν :=
  ⟨insertEntry k v m.entries, pairwise_insertEntry m.sorted⟩

/-- The map built by inserting the entries of a list one after another. -/
def ofList [Std.TransOrd κ] [Std.LawfulEqOrd κ] (es : List (κ × ν)) : SortedMap κ ν :=
  es.foldl (fun m e => m.insert e.1 e.2) empty

/-! ## Reading -/

/-- The value of a key. -/
def find? [DecidableEq κ] (m : SortedMap κ ν) (k : κ) : Option ν :=
  (m.entries.find? fun e => decide (e.1 = k)).map (·.2)

/-- Whether a key has a value. -/
def contains [DecidableEq κ] (m : SortedMap κ ν) (k : κ) : Bool :=
  m.entries.any fun e => decide (e.1 = k)

theorem find?_insertEntry [DecidableEq κ] [Std.TransOrd κ] [Std.LawfulEqOrd κ] {k j : κ} {v : ν}
    {es : List (κ × ν)} (h : es.Pairwise fun a b => compare a.1 b.1 = .lt) :
    ((insertEntry k v es).find? fun e => decide (e.1 = j)).map (·.2) =
      if k = j then some v else (es.find? fun e => decide (e.1 = j)).map (·.2) := by
  induction es with
  | nil => by_cases hj : k = j <;> simp [insertEntry, hj]
  | cons d ds ih =>
    have ⟨hd, hds⟩ := List.pairwise_cons.1 h
    simp only [insertEntry]
    split
    · by_cases hj : k = j <;> simp [List.find?_cons, hj]
    · next hk =>
      have : k = d.1 := Std.LawfulEqCmp.eq_of_compare hk
      by_cases hj : k = j
      · simp [hj]
      · have : ¬ d.1 = j := this ▸ hj
        simp [hj, this]
    · next hk =>
      by_cases hdj : d.1 = j
      · have : ¬ k = j := by
          rintro rfl
          rw [hdj] at hk
          simp at hk
        simp [hdj, this]
      · simp [hdj, ih hds]

@[simp] theorem find?_insert [DecidableEq κ] [Std.TransOrd κ] [Std.LawfulEqOrd κ]
    (m : SortedMap κ ν) (k j : κ) (v : ν) :
    (m.insert k v).find? j = if k = j then some v else m.find? j :=
  find?_insertEntry m.sorted

/-- An entry has the value of its key, since no key has two entries. -/
theorem mem_entries_iff [DecidableEq κ] [Std.LawfulEqOrd κ] {m : SortedMap κ ν} {k : κ} {v : ν} :
    (k, v) ∈ m.entries ↔ m.find? k = some v := by
  obtain ⟨es, hes⟩ := m
  unfold find?
  induction es with
  | nil => simp
  | cons e es ih =>
    obtain ⟨he, hes⟩ := List.pairwise_cons.1 hes
    by_cases hk : e.1 = k
    · -- no later entry has the same key
      have hlater : (k, v) ∉ es := fun hmem => by simpa [hk] using he _ hmem
      obtain ⟨j, w⟩ := e
      obtain rfl : j = k := hk
      simp [hlater, eq_comm]
    · have hne : (k, v) ≠ e := fun h => hk (h ▸ rfl)
      simpa [hk, hne] using ih hes

theorem contains_eq [DecidableEq κ] (m : SortedMap κ ν) (k : κ) :
    m.contains k = (m.find? k).isSome := by
  rw [contains, find?, Option.isSome_map, List.isSome_find?]

/-- A key that has its value already is not inserted again. -/
theorem insert_of_find?_eq_some [DecidableEq κ] [Std.TransOrd κ] [Std.LawfulEqOrd κ]
    {m : SortedMap κ ν} {k : κ} {v : ν} (h : m.find? k = some v) : m.insert k v = m := by
  obtain ⟨es, hes⟩ := m
  rw [← mem_entries_iff] at h
  simp only [insert, mk.injEq]
  induction es with
  | nil => cases h
  | cons e es ih =>
    obtain ⟨he, hes⟩ := List.pairwise_cons.1 hes
    rcases List.mem_cons.1 h with rfl | h
    · simp [insertEntry]
    · have hk : compare k e.1 = .gt := Std.OrientedCmp.gt_of_lt (he _ h)
      simp [insertEntry, hk, ih hes h]

/-- A new key adds an entry. -/
theorem length_entries_insert [DecidableEq κ] [Std.TransOrd κ] [Std.LawfulEqOrd κ]
    {m : SortedMap κ ν} {k : κ} (h : m.find? k = none) (v : ν) :
    (m.insert k v).entries.length = m.entries.length + 1 := by
  have hnew : ∀ e ∈ m.entries, e.1 ≠ k := by simpa [find?] using h
  have hinsert : ∀ es : List (κ × ν), (∀ e ∈ es, e.1 ≠ k) →
      (insertEntry k v es).length = es.length + 1 := by
    intro es hes
    induction es with
    | nil => rfl
    | cons e es ih =>
      obtain ⟨he, hes⟩ := List.forall_mem_cons.1 hes
      simp only [insertEntry]
      split
      · rfl
      · next hk => exact absurd (Std.LawfulEqCmp.eq_of_compare hk).symm he
      · rw [List.length_cons, ih hes, List.length_cons]
  exact hinsert m.entries hnew

/-- A key that is larger than all others is inserted at the end. -/
theorem insertEntry_eq_append [Std.TransOrd κ] {k : κ} {v : ν} {es : List (κ × ν)}
    (h : ∀ e ∈ es, compare e.1 k = .lt) : insertEntry k v es = es ++ [(k, v)] := by
  induction es with
  | nil => rfl
  | cons e es ih =>
    obtain ⟨he, hes⟩ := List.forall_mem_cons.1 h
    have hk : compare k e.1 = .gt := Std.OrientedCmp.gt_of_lt he
    simp [insertEntry, hk, ih hes]

/-- A map is built again by inserting its entries in order. -/
theorem ofList_entries [Std.TransOrd κ] [Std.LawfulEqOrd κ] (m : SortedMap κ ν) :
    ofList m.entries = m := by
  have hfold : ∀ (es : List (κ × ν)) (acc : SortedMap κ ν),
      (acc.entries ++ es).Pairwise (fun a b => compare a.1 b.1 = .lt) →
        (es.foldl (fun m e => m.insert e.1 e.2) acc).entries = acc.entries ++ es := by
    intro es
    induction es with
    | nil => simp
    | cons e es ih =>
      intro acc hsorted
      have hlast : (acc.insert e.1 e.2).entries = acc.entries ++ [e] :=
        insertEntry_eq_append fun d hd =>
          (List.pairwise_append.1 hsorted).2.2 d hd e List.mem_cons_self
      have hsplit : acc.entries ++ e :: es = (acc.insert e.1 e.2).entries ++ es := by simp [hlast]
      rw [List.foldl_cons, ih _ (hsplit ▸ hsorted), hsplit]
  have hentries : (ofList m.entries).entries = m.entries := hfold m.entries empty m.sorted
  generalize ofList m.entries = m' at hentries
  cases m
  cases m'
  simpa using hentries

@[simp] theorem find?_empty [DecidableEq κ] (k : κ) : (empty : SortedMap κ ν).find? k = none := rfl

end SortedMap

end FixedDomain
