import FixedDomain.AnswerSet.Propagation
import FixedDomain.Proofs.AnswerSet.Refinement

/-! # Soundness of propagation

A supported model of a normal program is a total assignment that satisfies every rule and supports
every atom that holds. Propagation refines (`le_of_propagate`), leads away from no supported model
(`exists_propagate_le`), and a total assignment that it lets through is one
(`supportedModel_of_propagate`).
-/

namespace FixedDomain.AnswerSet

/-- A total assignment that satisfies every rule and supports every atom that holds. -/
structure SupportedModel (p : NormalProgram) (v : Assignment) : Prop where
  size : v.values.size = p.atoms.size
  total : v.IsTotal
  satisfied : ∀ r ∈ p.rules, bodyValue v r.body = .holds →
    ∃ h, r.head = some h ∧ v.get h = .holds
  supported : ∀ i, v.get i = .holds →
    ∃ body ∈ p.supports[i]?.getD [], bodyValue v body = .holds

/-! ## Steps refine -/

theorem le_refute (a : Assignment) (l : BodyLiteral) : a ≤ refute a l := by
  cases l with
  | pos i => exact a.le_decide i false
  | not i => exact a.le_decide i true
  | count groups op bound => exact a.le_refl

theorem le_confirm (a : Assignment) (l : BodyLiteral) : a ≤ confirm a l := by
  cases l with
  | pos i => exact a.le_decide i true
  | not i => exact a.le_decide i false
  | count groups op bound => exact a.le_refl

theorem le_foldl_confirm (body : List BodyLiteral) (a : Assignment) : a ≤ body.foldl confirm a := by
  induction body generalizing a with
  | nil => exact a.le_refl
  | cons l ls ih => exact Assignment.le_trans (le_confirm a l) (ih _)

theorem le_of_ruleStep {a b : Assignment} {r : NormalRule} (h : ruleStep a r = some b) :
    a ≤ b := by
  unfold ruleStep at h
  split at h
  · cases h; exact a.le_refl
  · cases h; exact a.le_refl
  · split at h
    · cases h
    · cases h
      cases r.head with
      | none => exact a.le_refl
      | some i => exact a.le_decide i true
  · cases h
    split
    · exact le_refute a _
    · exact a.le_refl

theorem le_of_supportStep {p : NormalProgram} {a b : Assignment} {i : Nat}
    (h : supportStep p a i = some b) : a ≤ b := by
  unfold supportStep at h
  split at h
  · cases h; exact a.le_refl
  · split at h
    · cases h
    · cases h; exact le_foldl_confirm _ a
    · cases h; exact a.le_refl
  · split at h
    · cases h; exact a.le_decide i false
    · cases h; exact a.le_refl

theorem le_of_runSteps {α : Type} {step : Assignment → α → Option Assignment}
    (hstep : ∀ {a b x}, step a x = some b → a ≤ b) {xs : List α} {a b : Assignment}
    (h : runSteps step xs a = some b) : a ≤ b := by
  induction xs generalizing a with
  | nil => cases h; exact Assignment.le_refl _
  | cons x xs ih =>
    unfold runSteps at h
    split at h
    · cases h
    · next hx => exact Assignment.le_trans (hstep hx) (ih h)

theorem le_of_pass {p : NormalProgram} {a b : Assignment} (h : pass p a = some b) : a ≤ b := by
  unfold pass at h
  split at h
  · cases h
  · next hr =>
    exact Assignment.le_trans (le_of_runSteps le_of_ruleStep hr)
      (le_of_runSteps le_of_supportStep h)

/-- Propagation never changes what is settled. -/
theorem le_of_propagate {p : NormalProgram} {a b : Assignment} (h : propagate p a = some b) :
    a ≤ b := by
  fun_induction propagate p a with
  | case1 => cases h
  | case2 a c hc _ ih => exact Assignment.le_trans (le_of_pass hc) (ih h)
  | case3 a c hc _ => cases h; exact le_of_pass hc

/-! ## The status of a body -/

theorem bodyValue_of_bodyStatus_satisfied {a : Assignment} {body : List BodyLiteral}
    (h : bodyStatus a body = .satisfied) : bodyValue a body = .holds := by
  induction body with
  | nil => rfl
  | cons l ls ih =>
    rw [bodyValue_eq_holds_iff, List.forall_mem_cons]
    simp only [bodyStatus] at h
    split at h
    · cases h
    · next hl => exact ⟨hl, bodyValue_eq_holds_iff.1 (ih h)⟩
    · split at h <;> cases h

theorem bodyStatus_of_bodyValue_holds {a : Assignment} {body : List BodyLiteral}
    (h : bodyValue a body = .holds) : bodyStatus a body = .satisfied := by
  induction body with
  | nil => rfl
  | cons l ls ih =>
    rw [bodyValue_eq_holds_iff, List.forall_mem_cons] at h
    simp only [bodyStatus, h.1]
    exact ih (bodyValue_eq_holds_iff.2 h.2)

/-- With one open literal, all others hold. -/
theorem of_bodyStatus_oneOpen {a : Assignment} {body : List BodyLiteral} {l : BodyLiteral}
    (h : bodyStatus a body = .oneOpen l) :
    l.value a = .unknown ∧ ∀ k ∈ body, k = l ∨ k.value a = .holds := by
  induction body with
  | nil => cases h
  | cons k ks ih =>
    simp only [bodyStatus] at h
    split at h
    · cases h
    · next hk =>
      obtain ⟨hl, hks⟩ := ih h
      exact ⟨hl, List.forall_mem_cons.2 ⟨.inr hk, hks⟩⟩
    · next hk =>
      split at h
      · cases h
      · next hks =>
        -- the open literal is this one, and everything behind it holds
        cases h
        have := bodyValue_eq_holds_iff.1 (bodyValue_of_bodyStatus_satisfied hks)
        exact ⟨hk, List.forall_mem_cons.2 ⟨.inl rfl, fun k' hk' => .inr (this k' hk')⟩⟩
      · cases h

/-! ## Steps keep supported models -/

section Sound

variable {p : NormalProgram} {a v : Assignment} (hv : SupportedModel p v) (h : a ≤ v)

include hv h

theorem refute_le {l : BodyLiteral} (hl : l.value v ≠ .holds) : refute a l ≤ v := by
  cases l with
  | pos i =>
    apply Assignment.decide_le h
    intro hi
    -- the model is total, so a literal that does not hold there fails
    have := hv.total i hi
    cases hvi : v.get i <;> simp_all [BodyLiteral.value, atomValue, Truth.ofBool]
  | not i =>
    apply Assignment.decide_le h
    intro hi
    have := hv.total i hi
    cases hvi : v.get i <;> simp_all [BodyLiteral.value, atomValue, Truth.ofBool, Truth.negate]
  | count groups op bound => exact h

omit hv in
theorem confirm_le {l : BodyLiteral} (hl : l.value v = .holds) : confirm a l ≤ v := by
  cases l with
  | pos i => exact Assignment.decide_le h fun _ => hl
  | not i =>
    apply Assignment.decide_le h
    intro _
    cases hvi : v.get i <;> simp_all [BodyLiteral.value, atomValue, Truth.ofBool, Truth.negate]
  | count groups op bound => exact h

omit hv in
theorem foldl_confirm_le {body : List BodyLiteral} (hb : ∀ l ∈ body, l.value v = .holds) :
    body.foldl confirm a ≤ v := by
  induction body generalizing a with
  | nil => exact h
  | cons l ls ih =>
    obtain ⟨hl, hls⟩ := List.forall_mem_cons.1 hb
    exact ih (confirm_le h hl) hls

omit hv in
/-- A head that fails is not among those that hold. -/
theorem ne_holds_of_headFails {head : Option Nat} (hf : headFails a head = true) (i : Nat)
    (hi : head = some i) : v.get i ≠ .holds := by
  subst hi
  have hai : a.get i = .fails := by simpa [headFails] using hf
  rw [Assignment.get_eq_of_le h hai]
  simp

theorem exists_ruleStep_le {r : NormalRule} (hr : r ∈ p.rules) :
    ∃ b, ruleStep a r = some b ∧ b ≤ v := by
  unfold ruleStep
  split
  · exact ⟨a, rfl, h⟩
  · exact ⟨a, rfl, h⟩
  · next hs =>
    -- the body holds in the model as well, and so does the head
    have hbody := Truth.eq_of_le
      (bodyValue_of_bodyStatus_satisfied hs ▸ bodyValue_mono h r.body) (by simp)
    obtain ⟨i, hi, hvi⟩ := hv.satisfied r hr hbody
    rw [if_neg fun hf => ne_holds_of_headFails h hf i hi hvi]
    refine ⟨_, rfl, ?_⟩
    rw [hi]
    exact Assignment.decide_le h fun _ => hvi
  · next l hs =>
    split
    · next hf =>
      refine ⟨_, rfl, refute_le hv h fun hl => ?_⟩
      -- otherwise the whole body held, and the head with it
      obtain ⟨-, hothers⟩ := of_bodyStatus_oneOpen hs
      have hbody : bodyValue v r.body = .holds := by
        apply bodyValue_eq_holds_iff.2
        intro k hk
        rcases hothers k hk with rfl | hk
        · exact hl
        · exact Truth.eq_of_le (hk ▸ k.value_mono h) (by simp)
      obtain ⟨i, hi, hvi⟩ := hv.satisfied r hr hbody
      exact ne_holds_of_headFails h hf i hi hvi
    · exact ⟨a, rfl, h⟩

omit hv in
theorem isPossible_of_bodyValue_holds {body : List BodyLiteral} (hb : bodyValue v body = .holds) :
    isPossible a body = true := by
  rw [isPossible, bne_iff_ne]
  intro hf
  have hfv : bodyValue v body = .fails := Truth.eq_of_le (hf ▸ bodyValue_mono h body) (by simp)
  rw [hfv] at hb
  cases hb

omit hv in
/-- What supports an atom in a model is among the possible supports. -/
theorem support_cases {bodies : List (List BodyLiteral)} {body : List BodyLiteral}
    (hb : body ∈ bodies) (hbv : bodyValue v body = .holds) :
    support a bodies = .several ∨ support a bodies = .sole body := by
  induction bodies with
  | nil => cases hb
  | cons first rest ih =>
    simp only [support]
    rcases List.mem_cons.1 hb with rfl | hb
    · rw [if_pos (isPossible_of_bodyValue_holds h hbv)]
      split
      · exact .inl rfl
      · exact .inr rfl
    · split
      · -- another possible body comes first, so this one is not alone
        rw [if_pos (List.any_eq_true.2 ⟨body, hb, isPossible_of_bodyValue_holds h hbv⟩)]
        exact .inl rfl
      · exact ih hb

theorem exists_supportStep_le (i : Nat) : ∃ b, supportStep p a i = some b ∧ b ≤ v := by
  unfold supportStep
  split
  · exact ⟨a, rfl, h⟩
  · next hai =>
    -- the atom holds in the model too, and is supported there
    obtain ⟨body, hb, hbv⟩ := hv.supported i (Assignment.get_eq_of_le h hai)
    rcases support_cases h hb hbv with hs | hs
    · exact ⟨a, by rw [hs], h⟩
    · exact ⟨_, by rw [hs], foldl_confirm_le h (bodyValue_eq_holds_iff.1 hbv)⟩
  · split
    · next hs =>
      refine ⟨_, rfl, Assignment.decide_le h fun hi => ?_⟩
      -- an atom without possible support does not hold in the model
      have hne : v.get i ≠ .holds := by
        intro hvi
        obtain ⟨body, hb, hbv⟩ := hv.supported i hvi
        rcases support_cases h hb hbv with hs' | hs' <;> rw [hs] at hs' <;> cases hs'
      have := hv.total i hi
      cases hvi : v.get i <;> simp_all [Truth.ofBool]
    · exact ⟨a, rfl, h⟩

omit hv in
theorem exists_runSteps_le {α : Type} {step : Assignment → α → Option Assignment} (xs : List α)
    (hstep : ∀ x ∈ xs, ∀ a ≤ v, ∃ b, step a x = some b ∧ b ≤ v) :
    ∃ b, runSteps step xs a = some b ∧ b ≤ v := by
  induction xs generalizing a with
  | nil => exact ⟨a, rfl, h⟩
  | cons x xs ih =>
    obtain ⟨hx, hxs⟩ := List.forall_mem_cons.1 hstep
    obtain ⟨b, hb, hbv⟩ := hx a h
    obtain ⟨c, hc, hcv⟩ := ih hbv hxs
    exact ⟨c, by rw [runSteps, hb]; exact hc, hcv⟩

theorem exists_pass_le : ∃ b, pass p a = some b ∧ b ≤ v := by
  obtain ⟨b, hb, hbv⟩ := exists_runSteps_le h p.rules
    fun r hr _ hav => exists_ruleStep_le hv hav hr
  obtain ⟨c, hc, hcv⟩ := exists_runSteps_le hbv (List.range p.atoms.size)
    fun i _ _ hav => exists_supportStep_le hv hav i
  exact ⟨c, by rw [pass, hb]; exact hc, hcv⟩

end Sound

/-- Propagation leads away from no supported model. -/
theorem exists_propagate_le {p : NormalProgram} {a v : Assignment} (hv : SupportedModel p v)
    (h : a ≤ v) : ∃ b, propagate p a = some b ∧ b ≤ v := by
  fun_induction propagate p a with
  | case1 a hpass =>
    obtain ⟨b, hb, -⟩ := exists_pass_le hv h
    rw [hpass] at hb
    cases hb
  | case2 a b hpass _ ih =>
    obtain ⟨c, hc, hcv⟩ := exists_pass_le hv h
    rw [hpass] at hc
    cases hc
    exact ih hcv
  | case3 a b hpass _ =>
    obtain ⟨c, hc, hcv⟩ := exists_pass_le hv h
    rw [hpass] at hc
    cases hc
    exact ⟨b, rfl, hcv⟩

/-! ## Total assignments that are let through -/

/-- What propagation arrives at, it leaves as it is. -/
theorem pass_of_propagate {p : NormalProgram} {a b : Assignment} (h : propagate p a = some b) :
    pass p b = some b := by
  fun_induction propagate p a with
  | case1 => cases h
  | case2 a c hc _ ih => exact ih h
  | case3 a c hc hlt =>
    cases h
    -- a pass that settles nothing changes nothing
    have : a = b := Assignment.eq_of_le_of_undecided_le (le_of_pass hc) (Nat.not_lt.1 hlt)
    rwa [this] at hc

theorem step_of_runSteps_of_isTotal {α : Type} {step : Assignment → α → Option Assignment}
    (hstep : ∀ {a b x}, step a x = some b → a ≤ b) {xs : List α} {a b : Assignment}
    (ht : a.IsTotal) (h : runSteps step xs a = some b) : b = a ∧ ∀ x ∈ xs, step a x = some a := by
  induction xs with
  | nil => cases h; simp
  | cons x xs ih =>
    unfold runSteps at h
    split at h
    · cases h
    · next c hx =>
      obtain rfl := Assignment.eq_of_le_of_isTotal ht (hstep hx)
      obtain ⟨rfl, hxs⟩ := ih h
      exact ⟨rfl, List.forall_mem_cons.2 ⟨hx, hxs⟩⟩

theorem exists_possible_of_support_ne_none {a : Assignment} {bodies : List (List BodyLiteral)}
    (h : support a bodies ≠ .none) : ∃ body ∈ bodies, isPossible a body = true := by
  induction bodies with
  | nil => exact absurd rfl h
  | cons first rest ih =>
    simp only [support] at h
    split at h
    · next hf => exact ⟨first, List.mem_cons_self, hf⟩
    · obtain ⟨body, hb, hp⟩ := ih h
      exact ⟨body, List.mem_cons_of_mem _ hb, hp⟩

/-- The heads and bodies of a program are numbered. -/
structure NormalProgram.Numbered (p : NormalProgram) : Prop where
  rules : ∀ r ∈ p.rules, r.Within p.atoms.size
  supports : ∀ i < p.atoms.size, p.supports[i]? = some (bodiesOf p.rules i)

theorem bodyValue_ne_unknown {a : Assignment} (ht : a.IsTotal) {body : List BodyLiteral}
    (hw : ∀ l ∈ body, l.Within a.values.size) : bodyValue a body ≠ .unknown :=
  conjunction_ne_unknown fun l hl => BodyLiteral.value_ne_unknown ht (hw l hl)

theorem mem_bodiesOf {rules : List NormalRule} {i : Nat} {body : List BodyLiteral} :
    body ∈ bodiesOf rules i ↔ ⟨some i, body⟩ ∈ rules := by
  simp only [bodiesOf, List.mem_filterMap]
  constructor
  · rintro ⟨⟨head, body'⟩, hr, h⟩
    split at h
    · next hh => cases h; cases hh; exact hr
    · cases h
  · intro h
    exact ⟨_, h, by simp⟩

/-- A total assignment that propagation lets through is a supported model. -/
theorem supportedModel_of_propagate {p : NormalProgram} (hp : p.Numbered) {a v : Assignment}
    (hsize : v.values.size = p.atoms.size) (ht : v.IsTotal) (h : propagate p a = some v) :
    SupportedModel p v := by
  have hpass := pass_of_propagate h
  unfold pass at hpass
  split at hpass
  · cases hpass
  next b hb =>
  -- a step cannot add to a total assignment, so each one has left it as it is
  obtain ⟨rfl, hrules⟩ := step_of_runSteps_of_isTotal le_of_ruleStep ht hb
  obtain ⟨-, hsupports⟩ := step_of_runSteps_of_isTotal le_of_supportStep ht hpass
  refine ⟨hsize, ht, fun r hr hbody => ?_, fun i hi => ?_⟩
  · have hstep := hrules r hr
    unfold ruleStep at hstep
    rw [bodyStatus_of_bodyValue_holds hbody] at hstep
    simp only at hstep
    split at hstep
    · cases hstep
    next hf =>
    cases hh : r.head with
    | none => simp [headFails, hh] at hf
    | some i =>
      have hi : i < b.values.size := hsize ▸ (hp.rules r hr).head i hh
      have := ht i hi
      refine ⟨i, rfl, ?_⟩
      cases hbi : b.get i <;> simp_all [headFails]
  · have hlt : i < p.atoms.size := by
      by_contra hge
      rw [Assignment.get_of_size_le (by omega)] at hi
      cases hi
    have hstep := hsupports i (List.mem_range.2 hlt)
    rw [hp.supports i hlt]
    simp only [supportStep, hi, hp.supports i hlt, Option.getD_some] at hstep
    have hsupport : support b (bodiesOf p.rules i) ≠ .none := fun hs => by simp [hs] at hstep
    obtain ⟨body, hb, hposs⟩ := exists_possible_of_support_ne_none hsupport
    refine ⟨body, hb, ?_⟩
    have hw := (hp.rules _ (mem_bodiesOf.1 hb)).body
    have := bodyValue_ne_unknown ht (hsize ▸ hw)
    cases hbv : bodyValue b body <;> simp_all [isPossible]

end FixedDomain.AnswerSet
