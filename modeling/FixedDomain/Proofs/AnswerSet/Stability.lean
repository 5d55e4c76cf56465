import FixedDomain.Proofs.AnswerSet.Propagation

/-! # Closures and stability

`close` is the least set of atoms that is closed under the rules (`closed_close`, `close_le`). So a
total assignment is stable if and only if the atoms that hold are closed and lie in every closed set
(`isStable_iff`). A stable assignment that violates no constraint is a supported model, which is why
propagation never loses one.
-/

namespace FixedDomain.AnswerSet

/-! ## Derived atoms -/

namespace Derived

/-- Every atom derived in `d` is derived in `e`. -/
instance : LE Derived := ⟨fun d e => ∀ i, d.contains i = true → e.contains i = true⟩

theorem le_refl (d : Derived) : d ≤ d := fun _ h => h

theorem le_trans {d e f : Derived} (hde : d ≤ e) (hef : e ≤ f) : d ≤ f :=
  fun i h => hef i (hde i h)

theorem lt_size_of_contains {d : Derived} {i : Nat} (h : d.contains i = true) :
    i < d.flags.size := by
  by_contra hi
  simp [contains, Array.getElem?_eq_none (Nat.not_lt.1 hi)] at h

/-- Two sets of derived atoms of one size are the same if each lies in the other. -/
theorem eq_of_le {d e : Derived} (hsize : d.flags.size = e.flags.size) (hde : d ≤ e)
    (hed : e ≤ d) : d = e := by
  obtain ⟨d⟩ := d
  obtain ⟨e⟩ := e
  congr
  apply Array.ext hsize
  intro i hi hi'
  have h := Bool.eq_iff_iff.2 ⟨hde i, hed i⟩
  have hid : i < d.size := hi
  have hie : i < e.size := hi'
  simpa [contains, hid, hie] using h

@[simp] theorem contains_none (n i : Nat) : (none n).contains i = false := by
  simp only [none, contains, Array.getElem?_replicate]
  split <;> rfl

@[simp] theorem size_none (n : Nat) : (none n).flags.size = n := by simp [none]

@[simp] theorem size_insert (d : Derived) (i : Nat) :
    (d.insert i).flags.size = d.flags.size := by
  simp [insert]

theorem contains_insert {d : Derived} {i j : Nat} :
    (d.insert i).contains j = true ↔ d.contains j = true ∨ j = i ∧ i < d.flags.size := by
  by_cases hj : j = i
  · subst hj
    by_cases hlt : j < d.flags.size <;> simp [insert, contains, hlt]
  · simp [insert, contains, Ne.symm hj, hj]

/-- The atoms that hold in an assignment. -/
def ofAssignment (a : Assignment) : Derived := ⟨a.values.map (· == .holds)⟩

@[simp] theorem size_ofAssignment (a : Assignment) :
    (ofAssignment a).flags.size = a.values.size := by
  simp [ofAssignment]

theorem matches_ofAssignment (a : Assignment) : (ofAssignment a).Matches a := by
  intro i
  by_cases hi : i < a.values.size <;> simp [ofAssignment, contains, Assignment.get, hi]

theorem count_false_le {s t : List Bool} (h : List.Forall₂ (fun x y => x = true → y = true) s t) :
    t.count false ≤ s.count false := by
  induction h with
  | nil => exact Nat.le_refl _
  | @cons x y _ _ hd _ ih => cases x <;> cases y <;> simp at hd ⊢ <;> omega

theorem eq_of_count_false_le {s t : List Bool}
    (h : List.Forall₂ (fun x y => x = true → y = true) s t)
    (hc : s.count false ≤ t.count false) : s = t := by
  induction h with
  | nil => rfl
  | @cons x y _ _ hd tl ih =>
    have := count_false_le tl
    cases x <;> cases y <;> simp at hd hc ⊢
    · exact ih hc
    · omega
    · exact ih hc

/-- A larger set that misses no fewer atoms is no larger. -/
theorem eq_of_missing_le {d e : Derived} (hsize : d.flags.size = e.flags.size) (h : d ≤ e)
    (hm : d.missing ≤ e.missing) : d = e := by
  obtain ⟨d⟩ := d
  obtain ⟨e⟩ := e
  have hsize : d.size = e.size := hsize
  have hall : List.Forall₂ (fun x y => x = true → y = true) d.toList e.toList := by
    refine List.forall₂_iff_get.2 ⟨by simpa using hsize, fun i hi hi' => ?_⟩
    have hid : i < d.size := by simpa using hi
    have hie : i < e.size := by simpa using hi'
    simpa [contains, hid, hie] using h i
  simp only [missing, ← Array.count_toList] at hm
  rw [Derived.mk.injEq, ← Array.toList_inj]
  exact eq_of_count_false_le hall hm

end Derived

/-! ## Closed sets -/

theorem conditionInReduct_mono {a : Assignment} {d e : Derived} (h : d ≤ e)
    {condition : Condition} (hc : conditionInReduct a d true condition = true) :
    conditionInReduct a e true condition = true := by
  rw [conditionInReduct, List.all_eq_true] at hc ⊢
  rintro ⟨i, positive⟩ hp
  have := hc _ hp
  cases positive with
  | true => exact h i this
  | false => exact this

/-- A literal that holds goes on holding when more atoms are derived. -/
theorem holdsInReduct_mono {a : Assignment} {d e : Derived} (h : d ≤ e) {l : BodyLiteral}
    (hl : holdsInReduct a d l = true) : holdsInReduct a e l = true := by
  cases l with
  | pos i => exact h i hl
  | not i => exact hl
  | count groups op bound =>
    cases hop : op.isMonotone with
    | true =>
      simp only [holdsInReduct, hop] at hl ⊢
      refine Comparison.isMonotone_iff.1 hop (List.countP_mono_left fun group _ hg => ?_) hl
      obtain ⟨condition, hc, hh⟩ := List.any_eq_true.1 hg
      exact List.any_eq_true.2 ⟨condition, hc, conditionInReduct_mono h hh⟩
    | false =>
      -- a count that can lose does not look at what is derived
      have hcond : conditionInReduct a d false = conditionInReduct a e false := by
        funext condition
        simp [conditionInReduct]
      simpa only [holdsInReduct, hop, hcond] using hl

/-- Every head whose body holds is derived. -/
def Closed (rules : List NormalRule) (a : Assignment) (d : Derived) : Prop :=
  ∀ r ∈ rules, ∀ i, r.head = some i → r.body.all (holdsInReduct a d) = true → d.contains i = true

theorem all_holdsInReduct_mono {a : Assignment} {d e : Derived} (h : d ≤ e)
    {body : List BodyLiteral} (hb : body.all (holdsInReduct a d) = true) :
    body.all (holdsInReduct a e) = true :=
  List.all_eq_true.2 fun l hl => holdsInReduct_mono h (List.all_eq_true.1 hb l hl)

/-! ## Steps of the closure -/

section Steps

variable (rules : List NormalRule) (a : Assignment) (d : Derived)

@[simp] theorem size_deriveStep (r : NormalRule) :
    (deriveStep a d r).flags.size = d.flags.size := by
  unfold deriveStep
  cases r.head with
  | none => rfl
  | some i =>
    dsimp only
    split
    · rfl
    · split
      · exact d.size_insert i
      · rfl

@[simp] theorem size_derivePass : (derivePass rules a d).flags.size = d.flags.size := by
  unfold derivePass
  induction rules generalizing d with
  | nil => rfl
  | cons r rs ih => rw [List.foldl_cons, ih, size_deriveStep]

@[simp] theorem size_close : (close rules a d).flags.size = d.flags.size := by
  fun_induction close rules a d with
  | case1 d e _ ih => rw [ih, size_derivePass]
  | case2 d e _ => exact size_derivePass rules a d

theorem le_deriveStep (r : NormalRule) : d ≤ deriveStep a d r := by
  unfold deriveStep
  cases r.head with
  | none => exact d.le_refl
  | some i =>
    dsimp only
    split
    · exact d.le_refl
    · split
      · exact fun j hj => Derived.contains_insert.2 (.inl hj)
      · exact d.le_refl

theorem le_derivePass : d ≤ derivePass rules a d := by
  unfold derivePass
  induction rules generalizing d with
  | nil => exact d.le_refl
  | cons r rs ih => exact Derived.le_trans (le_deriveStep a d r) (ih _)

end Steps

section Least

variable {rules : List NormalRule} {a : Assignment} {d e : Derived}

/-- A closed set contains what a step derives from a part of it. -/
theorem deriveStep_le (he : Closed rules a e) (h : d ≤ e) {r : NormalRule} (hr : r ∈ rules) :
    deriveStep a d r ≤ e := by
  unfold deriveStep
  cases hh : r.head with
  | none => exact h
  | some i =>
    dsimp only
    split
    · exact h
    · split
      · next hb =>
        intro j hj
        rcases Derived.contains_insert.1 hj with hj | ⟨rfl, -⟩
        · exact h j hj
        · exact he r hr j hh (all_holdsInReduct_mono h hb)
      · exact h

theorem derivePass_le (he : Closed rules a e) (h : d ≤ e) : derivePass rules a d ≤ e := by
  -- a pass goes over fewer and fewer of the rules, closed sets are about all of them
  suffices hsub : ∀ rs ⊆ rules, ∀ d ≤ e, derivePass rs a d ≤ e from
    hsub rules (List.Subset.refl _) d h
  intro rs
  induction rs with
  | nil => exact fun _ _ hd => hd
  | cons r rs ih =>
    intro hsub d hd
    obtain ⟨hr, hrs⟩ := List.cons_subset.1 hsub
    exact ih hrs _ (deriveStep_le he hd hr)

/-- Every closed set that contains the start contains the closure. -/
theorem close_le (he : Closed rules a e) (h : d ≤ e) : close rules a d ≤ e := by
  fun_induction close rules a d with
  | case1 d f _ ih => exact ih (derivePass_le he h)
  | case2 d f _ => exact derivePass_le he h

theorem deriveStep_eq_of_derivePass_eq {rs : List NormalRule} (h : derivePass rs a d = d)
    {r : NormalRule} (hr : r ∈ rs) : deriveStep a d r = d := by
  induction rs with
  | nil => cases hr
  | cons first rest ih =>
    have hstep : derivePass rest a (deriveStep a d first) = d := h
    -- what the rest leaves as it is contains what the first step derives, and no more
    have hfirst : deriveStep a d first = d := by
      refine Derived.eq_of_le (size_deriveStep a d first) ?_ (le_deriveStep a d first)
      have := le_derivePass rest a (deriveStep a d first)
      rwa [hstep] at this
    rcases List.mem_cons.1 hr with rfl | hr
    · exact hfirst
    · rw [hfirst] at hstep
      exact ih hstep hr

/-- A pass that derives nothing new starts from a closed set. -/
theorem closed_of_derivePass_eq (hw : ∀ r ∈ rules, r.Within d.flags.size)
    (h : derivePass rules a d = d) : Closed rules a d := by
  intro r hr i hi hb
  have hstep := deriveStep_eq_of_derivePass_eq h hr
  by_contra hc
  simp only [deriveStep, hi, hc, if_false, hb, if_true] at hstep
  apply hc
  rw [← hstep]
  exact Derived.contains_insert.2 (.inr ⟨rfl, (hw r hr).head i hi⟩)

/-- The closure is closed. -/
theorem closed_close (hw : ∀ r ∈ rules, r.Within d.flags.size) :
    Closed rules a (close rules a d) := by
  fun_induction close rules a d with
  | case1 d f _ ih => exact ih (by simpa [f] using hw)
  | case2 d f hlt =>
    -- the last pass has left as many atoms missing as before, so it has derived none
    have hfix : d = f :=
      Derived.eq_of_missing_le (size_derivePass rules a d).symm (le_derivePass rules a d)
        (Nat.not_lt.1 hlt)
    rw [← hfix]
    exact closed_of_derivePass_eq hw hfix.symm

end Least

/-! ## Stable assignments -/

section Stable

variable {p : NormalProgram} {a : Assignment} (hp : p.Numbered)
  (hsize : a.values.size = p.atoms.size)

include hp hsize

/-- A total assignment is stable if the atoms that hold are the least closed set. -/
theorem isStable_iff :
    isStable p a = true ↔ Closed p.rules a (.ofAssignment a) ∧
      ∀ d : Derived, d.flags.size = p.atoms.size → Closed p.rules a d → .ofAssignment a ≤ d := by
  have hnone : ∀ d : Derived, Derived.none p.atoms.size ≤ d := fun d i hi => by simp at hi
  have hclosed : Closed p.rules a (close p.rules a (.none p.atoms.size)) :=
    closed_close (by simpa using hp.rules)
  rw [isStable, List.all_eq_true]
  constructor
  · intro h
    -- what the check compares atom by atom are equal sets
    have heq : close p.rules a (.none p.atoms.size) = .ofAssignment a := by
      refine Derived.eq_of_le (by simp [hsize]) (fun i hi => ?_) (fun i hi => ?_)
      all_goals
        have hlt : i < p.atoms.size := by simpa [hsize] using Derived.lt_size_of_contains hi
        have := h i (List.mem_range.2 hlt)
        have hm := Derived.matches_ofAssignment a i
        simp_all
    exact ⟨heq ▸ hclosed, fun d _ hd => heq ▸ close_le hd (hnone d)⟩
  · rintro ⟨hc, hleast⟩ i -
    have hle := close_le hc (hnone _)
    have hge := hleast _ (by simp) hclosed
    have hm := Derived.matches_ofAssignment a i
    have hi : (close p.rules a (.none p.atoms.size)).contains i = true ↔ a.get i = .holds :=
      ⟨fun h => hm.1 (hle i h), fun h => hge i (hm.2 h)⟩
    rw [beq_iff_eq, Bool.eq_iff_iff, hi, beq_iff_eq]

/-- Under a total assignment a body holds in the reduct if it holds. -/
theorem all_holdsInReduct_iff (ht : a.IsTotal) {r : NormalRule} (hr : r ∈ p.rules) :
    r.body.all (holdsInReduct a (.ofAssignment a)) = true ↔ bodyValue a r.body = .holds := by
  rw [List.all_eq_true, bodyValue_eq_holds_iff]
  apply forall₂_congr
  intro l hl
  have hw := (hp.rules r hr).body l hl
  exact holdsInReduct_iff_value ht (Derived.matches_ofAssignment a) (by rwa [hsize])

/-- What holds in a stable assignment is supported. -/
theorem supported_of_isStable (ht : a.IsTotal) (hs : isStable p a = true) {i : Nat}
    (hi : a.get i = .holds) : ∃ body ∈ bodiesOf p.rules i, bodyValue a body = .holds := by
  obtain ⟨hc, hleast⟩ := (isStable_iff hp hsize).1 hs
  by_contra hno
  -- without `i` the atoms that hold are still closed
  let d : Derived := ⟨(Derived.ofAssignment a).flags.setIfInBounds i false⟩
  have hd : ∀ j, d.contains j = true ↔ (Derived.ofAssignment a).contains j = true ∧ j ≠ i := by
    intro j
    by_cases hj : j = i
    · subst hj
      simp [d, Derived.contains]
    · simp [d, Derived.contains, Ne.symm hj, hj]
  have hdclosed : Closed p.rules a d := by
    intro r hr j hj hb
    have hb' := all_holdsInReduct_mono (fun k hk => ((hd k).1 hk).1) hb
    refine (hd j).2 ⟨hc r hr j hj hb', ?_⟩
    rintro rfl
    refine hno ⟨r.body, mem_bodiesOf.2 (hj ▸ hr), ?_⟩
    exact (all_holdsInReduct_iff hp hsize ht hr).1 hb'
  have hle := hleast d (by simp [d, hsize]) hdclosed
  exact ((hd i).1 (hle i ((Derived.matches_ofAssignment a i).2 hi))).2 rfl

/-- A stable assignment that violates no constraint is a supported model. -/
theorem supportedModel_of_isStable (ht : a.IsTotal)
    (hconstraints : ∀ r ∈ p.rules, r.head = none → bodyValue a r.body ≠ .holds)
    (hs : isStable p a = true) : SupportedModel p a := by
  refine ⟨hsize, ht, fun r hr hb => ?_, fun i hi => ?_⟩
  · cases hh : r.head with
    | none => exact absurd hb (hconstraints r hr hh)
    | some i =>
      have hc := ((isStable_iff hp hsize).1 hs).1
      refine ⟨i, rfl, (Derived.matches_ofAssignment a i).1 ?_⟩
      exact hc r hr i hh ((all_holdsInReduct_iff hp hsize ht hr).2 hb)
  · have hlt : i < p.atoms.size := by
      by_contra hge
      rw [Assignment.get_of_size_le (by omega)] at hi
      cases hi
    rw [hp.supports i hlt]
    exact supported_of_isStable hp hsize ht hs hi

end Stable

end FixedDomain.AnswerSet
