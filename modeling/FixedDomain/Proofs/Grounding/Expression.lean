import FixedDomain.Proofs.Grounding.Successors

/-! # Class expressions as bodies

Under every strategy the bodies for an expression are true exactly at its members
(`readable_of_vocabulary`), and so is one of the bodies for it on the left of an inclusion
(`lhsBodies_meets`). The induction is on the weight of an expression, since some restrictions are
read through others that are no parts of them; what an auxiliary predicate stands for is remembered
in the context.
-/

namespace FixedDomain

namespace ClassExpression

/-! ## Parts of expressions -/

theorem mem_vocabularyList {e : Entity} {cs : List ClassExpression} :
    e ∈ vocabularyList cs ↔ ∃ c ∈ cs, e ∈ c.vocabulary := by
  induction cs with
  | nil => simp [vocabularyList]
  | cons c cs ih => simp [vocabularyList, ih]

theorem vocabulary_negation (c : ClassExpression) : c.negation.vocabulary = c.vocabulary := by
  unfold negation
  split
  · rw [vocabulary]
  · rw [vocabulary]

@[simp] theorem vocabulary_fillerOrThing (filler : Option ClassExpression) :
    (fillerOrThing filler).vocabulary = vocabularyFiller filler := by
  cases filler <;> simp [fillerOrThing, vocabulary, vocabularyFiller]

theorem weight_lt_of_mem {c : ClassExpression} {cs : List ClassExpression} (h : c ∈ cs) :
    c.weight < weightList cs := by
  induction cs with
  | nil => cases h
  | cons d ds ih =>
    rw [weightList]
    rcases List.mem_cons.1 h with rfl | h
    · omega
    · have := ih h
      omega

end ClassExpression

namespace Grounding

variable {V : Set Entity} {c : Context}

/-! ## Single bodies -/

/-- The bodies for an expression are true exactly at its members, or at all others. -/
structure Readable (V : Set Entity) (d : ClassExpression) : Prop where
  holds : ∀ {c x}, c.Ready → x ∈ c.elements → Meets V (holds d x) c
    fun c' body => c'.Decides (fun I => I.Member d x.individual) body
  holdsNot : ∀ {c x}, c.Ready → x ∈ c.elements → Meets V (holdsNot d x) c
    fun c' body => c'.Decides (fun I => ¬ I.Member d x.individual) body

/-- The body that an auxiliary predicate holds of an element. -/
theorem aux_meets {d : ClassExpression} {x : Element} (hx : x ∈ c.elements)
    (haux : Meets V (auxFor d) c fun c' k => ∃ j, k = j + 1 ∧ c'.definitions[j]? = some d) :
    Meets V (do return some [.pos (auxAtom (← auxFor d) x)]) c
      fun c' body => c'.Decides (fun I => I.Member d x.individual) body := by
  apply haux.map
  intro k c' hgrows hk
  obtain ⟨j, rfl, hj⟩ := hk
  exact .aux hj (hgrows.le.elements ▸ hx)

theorem not_aux_meets {d : ClassExpression} {x : Element} (hx : x ∈ c.elements)
    (haux : Meets V (auxFor d) c fun c' k => ∃ j, k = j + 1 ∧ c'.definitions[j]? = some d) :
    Meets V (do return some [.not (auxAtom (← auxFor d) x)]) c
      fun c' body => c'.Decides (fun I => ¬ I.Member d x.individual) body := by
  apply haux.map
  intro k c' hgrows hk
  obtain ⟨j, rfl, hj⟩ := hk
  exact .not_aux hj (hgrows.le.elements ▸ hx)

/-- An expression is readable if its auxiliary predicate stands for it. -/
theorem readable_of_aux {d : ClassExpression} (hV : ∀ e ∈ d.vocabulary, e ∈ V)
    (haux : ∀ {c : Context}, c.Ready → Meets V (auxFor d) c
      fun c' k => ∃ j, k = j + 1 ∧ c'.definitions[j]? = some d)
    (hoperand : ∀ e, d = .complementOf e → Readable V e) : Readable V d := by
  refine ⟨fun {c x} hc hx => ?_, fun {c x} hc hx => ?_⟩
  · cases d with
    | named iri =>
      rw [holds]
      refine (classAtom_meets hc (hV _ (by simp [ClassExpression.vocabulary])) hx).map
        fun a c' _ ha => ?_
      exact (Context.Decides.pos ha).congr fun I S _ => by simp
    | thing =>
      rw [holds]
      exact .pure hc (Context.Decides.always.congr fun I S _ => by simp)
    | nothing =>
      rw [holds]
      exact .pure hc (Context.Decides.never.congr fun I S _ => by simp)
    | complementOf e =>
      rw [holds]
      split
      · exact ((hoperand e rfl).holdsNot hc hx).imp fun b c' _ hb => hb.congr fun I S _ => by
          simp
      · exact aux_meets hx (haux hc)
    | _ =>
      simp only [holds]
      exact aux_meets hx (haux hc)
  · cases d with
    | named iri =>
      rw [holdsNot]
      refine (classAtom_meets hc (hV _ (by simp [ClassExpression.vocabulary])) hx).map
        fun a c' _ ha => ?_
      exact (Context.Decides.complement ha).congr fun I S _ => by simp
    | thing =>
      rw [holdsNot]
      exact .pure hc (Context.Decides.never.congr fun I S _ => by simp)
    | nothing =>
      rw [holdsNot]
      exact .pure hc (Context.Decides.always.congr fun I S _ => by simp)
    | complementOf e =>
      rw [holdsNot]
      exact ((hoperand e rfl).holds hc hx).imp fun b c' _ hb => hb.congr fun I S _ => by
        simp
    | _ =>
      simp only [holdsNot]
      exact not_aux_meets hx (haux hc)

/-! ## Alternatives -/

theorem holdsAll_meets {cs : List ClassExpression} (h : ∀ d ∈ cs, Readable V d) {x : Element}
    (hc : c.Ready) (hx : x ∈ c.elements) :
    Meets V (holdsAll cs x) c
      fun c' body => c'.Decides (fun I => I.MemberAll cs x.individual) body := by
  induction cs generalizing c with
  | nil =>
    rw [holdsAll]
    exact .pure hc (Context.Decides.always.congr fun I S _ => by simp)
  | cons d ds ih =>
    obtain ⟨hd, hds⟩ := List.forall_mem_cons.1 h
    rw [holdsAll]
    apply (hd.holds hc hx).bind
    intro first c₁ h₁ hfirst
    cases first with
    | none =>
      refine .pure h₁.ready (Context.Decides.never.congr fun I S hS => ?_)
      simp [hfirst.not_of_none hS]
    | some first =>
      apply (ih hds h₁.ready (h₁.le.elements ▸ hx)).bind
      intro rest c₂ h₂ hrest
      cases rest with
      | none =>
        refine .pure h₂.ready (Context.Decides.never.congr fun I S hS => ?_)
        simp [hrest.not_of_none hS]
      | some rest =>
        exact .pure h₂.ready (((hfirst.mono h₂.le).and hrest).congr fun I S _ => by simp)

theorem holdsSome_meets {cs : List ClassExpression} (h : ∀ d ∈ cs, Readable V d) {x : Element}
    (hc : c.Ready) (hx : x ∈ c.elements) :
    Meets V (holdsSome cs x) c
      fun c' bodies => c'.Expresses (fun I => I.MemberSome cs x.individual) bodies := by
  induction cs generalizing c with
  | nil =>
    rw [holdsSome]
    exact .pure hc (Context.Expresses.never.congr fun I S _ => by simp)
  | cons d ds ih =>
    obtain ⟨hd, hds⟩ := List.forall_mem_cons.1 h
    rw [holdsSome]
    apply (hd.holds hc hx).bind
    intro first c₁ h₁ hfirst
    apply (ih hds h₁.ready (h₁.le.elements ▸ hx)).map
    intro rest c₂ h₂ hrest
    exact ((hfirst.mono h₂.le).expresses.or hrest).congr fun I S _ => by simp

theorem expresses_memberBodies (hc : c.Ready) {is : List Individual} {members : List Element}
    (hmembers : List.Forall₂ (fun i x => x ∈ c.elements ∧ x.individual = i) is members)
    {x : Element} (hx : x ∈ c.elements) :
    c.Expresses (fun I => I.Member (.oneOf is) x.individual) (memberBodies members x) := by
  -- elements are told apart by their individuals
  have hiff : x ∈ members ↔ x.individual ∈ is := by
    constructor
    · intro hmem
      obtain ⟨i, hi, -, rfl⟩ := exists_left_of_forall₂ hmembers hmem
      exact hi
    · intro hmem
      obtain ⟨y, hy, hyc, hyx⟩ := exists_right_of_forall₂ hmembers hmem
      exact hc.eq_of_individual_eq hyc hx hyx ▸ hy
  unfold memberBodies
  split
  · next hmem =>
    exact Context.Expresses.always.congr fun I S hS => by
      simpa [hS.denote] using hiff.1 hmem
  · next hmem =>
    exact Context.Expresses.never.congr fun I S hS => by
      simpa [hS.denote] using mt hiff.2 hmem

section Restrictions

variable {r : Role} {x : Element} {d : ClassExpression} {I : Evaluation Individual}
  {S : Set Atom}

theorem member_someValuesFrom_iff (hS : c.Describes I S) :
    I.Member (.someValuesFrom r d) x.individual ↔
      (c.reached r x (fun y I => I.Member d y.individual) I).Nonempty := by
  rw [Evaluation.member_someValuesFrom, hS.exists_domain]
  rfl

theorem member_allValuesFrom_iff (hS : c.Describes I S) :
    I.Member (.allValuesFrom r d) x.individual ↔
      ¬ (c.reached r x (fun y I => ¬ I.Member d y.individual) I).Nonempty := by
  rw [Evaluation.member_allValuesFrom, hS.forall_domain]
  simp only [Set.Nonempty, Context.reached, Set.mem_ofPred_eq, not_exists, not_and, not_not]

theorem member_minCardinality_iff (hc : c.Ready) (hS : c.Describes I S) {n : UInt32}
    {filler : Option ClassExpression} :
    I.Member (.minCardinality n r filler) x.individual ↔ n.toNat ≤ (c.reached r x
      (fun y I => I.Member (ClassExpression.fillerOrThing filler) y.individual) I).ncard := by
  rw [Evaluation.member_minCardinality, hS.encard_successors hc, Nat.cast_le]

section Counted

variable (hI : I.counts = true)

include hI

theorem member_maxCardinality_iff (hc : c.Ready) (hS : c.Describes I S) {n : UInt32}
    {filler : Option ClassExpression} :
    I.Member (.maxCardinality n r filler) x.individual ↔ (c.reached r x
      (fun y I => I.Member (ClassExpression.fillerOrThing filler) y.individual) I).ncard ≤
      n.toNat := by
  rw [Evaluation.member_maxCardinality hI, hS.encard_successors hc, Nat.cast_le]

theorem member_exactCardinality_iff (hc : c.Ready) (hS : c.Describes I S) {n : UInt32}
    {filler : Option ClassExpression} :
    I.Member (.exactCardinality n r filler) x.individual ↔ (c.reached r x
      (fun y I => I.Member (ClassExpression.fillerOrThing filler) y.individual) I).ncard =
      n.toNat := by
  rw [Evaluation.member_exactCardinality hI, hS.encard_successors hc, Nat.cast_inj]

end Counted

/-- The successors that belong to a readable filler. -/
theorem related_holds_meets (hd : Readable V d) (hc : c.Ready)
    (hr : .objectProperty r.property ∈ V) (hx : x ∈ c.elements) :
    Meets V (related r x fun y => holds d y) c
      fun c' successors => c'.Reaches r x (fun y I => I.Member d y.individual) successors :=
  related_meets hc hr hx fun _ hy _ hgrows => hd.holds hgrows.ready (hgrows.le.elements ▸ hy)

/-! ### Definitions of restrictions -/

theorem define_someValuesFrom_meets (hd : Readable V d) (hc : c.Ready)
    (hr : .objectProperty r.property ∈ V) (hx : x ∈ c.elements) :
    Meets V (define (.someValuesFrom r d) x) c fun c' bodies =>
      c'.Expresses (fun I => I.Member (.someValuesFrom r d) x.individual) bodies := by
  rw [define]
  refine (related_holds_meets hd hc hr hx).bind fun successors c' hgrows hs => .get ?_
  split
  · refine .pure hgrows.ready ((Context.expresses_countBodies hgrows.ready hs .ge 1).congr
      fun I S hS => ?_)
    rw [member_someValuesFrom_iff hS, ← Set.ncard_pos Context.reached_finite]
    simp [Comparison.holds, Nat.one_le_iff_ne_zero, Nat.pos_iff_ne_zero]
  · refine .pure hgrows.ready ((Context.expresses_bodies hs).congr fun I S hS => ?_)
    rw [member_someValuesFrom_iff hS]

/-- Without counts a value restriction is read as the opposite of an existential one. -/
theorem define_allValuesFrom_meets (hd : Readable V d)
    (hopposite : Readable V (.someValuesFrom r d.negation)) (hc : c.Ready)
    (hr : .objectProperty r.property ∈ V) (hx : x ∈ c.elements) :
    Meets V (define (.allValuesFrom r d) x) c fun c' bodies =>
      c'.Expresses (fun I => I.Member (.allValuesFrom r d) x.individual) bodies := by
  rw [define]
  refine .get ?_
  split
  · refine (related_meets hc hr hx fun y hy c₁ h₁ =>
      hd.holdsNot h₁.ready (h₁.le.elements ▸ hy)).map fun successors c' hgrows hs => ?_
    apply (Context.expresses_countBodies hgrows.ready hs .le 0).congr
    intro I S hS
    rw [member_allValuesFrom_iff hS, ← Set.ncard_pos Context.reached_finite]
    simp [Comparison.holds]
  · refine (hopposite.holdsNot hc hx).map fun body c' hgrows hb =>
      hb.expresses.congr fun I S hS => ?_
    simp only [Evaluation.member_someValuesFrom, Evaluation.member_allValuesFrom,
      Evaluation.member_negation, not_exists, not_and, not_not]

section Cardinalities

variable {n : UInt32} {filler : Option ClassExpression}
  (hfiller : Readable V (ClassExpression.fillerOrThing filler))

include hfiller

theorem define_minCardinality_meets (hc : c.Ready) (hr : .objectProperty r.property ∈ V)
    (hx : x ∈ c.elements) :
    Meets V (define (.minCardinality n r filler) x) c fun c' bodies =>
      c'.Expresses (fun I => I.Member (.minCardinality n r filler) x.individual) bodies := by
  rw [define]
  split
  · next hn =>
    refine .pure hc (Context.Expresses.always.congr fun I S hS => ?_)
    simp [member_minCardinality_iff hc hS, hn]
  · refine (related_holds_meets hfiller hc hr hx).bind fun successors c' hgrows hs => .get ?_
    split
    · refine .pure hgrows.ready ((Context.expresses_countBodies hgrows.ready hs .ge _).congr
        fun I S hS => ?_)
      simp [member_minCardinality_iff hgrows.ready hS, Comparison.holds]
    · refine .pure hgrows.ready ((Context.expresses_choose hgrows.ready hs _).congr
        fun I S hS => ?_)
      rw [member_minCardinality_iff hgrows.ready hS]

/-- Without counts an upper bound is read as the opposite of the next larger lower bound. -/
theorem define_maxCardinality_meets
    (hmore : Readable V (.minCardinality (nextCardinality n) r filler)) (hc : c.Ready)
    (hr : .objectProperty r.property ∈ V) (hx : x ∈ c.elements) :
    Meets V (define (.maxCardinality n r filler) x) c fun c' bodies =>
      c'.Expresses (fun I => I.Member (.maxCardinality n r filler) x.individual) bodies := by
  rw [define]
  refine .get ?_
  split
  · next hdirect =>
    apply (related_holds_meets hfiller hc hr hx).bind
    intro successors c' hgrows hs
    refine .pure hgrows.ready ((Context.expresses_countBodies hgrows.ready hs .le _).congr
      fun I S hS => ?_)
    have hcounts := (hS.anti hgrows.le).counts.trans hdirect
    simp [member_maxCardinality_iff hcounts hgrows.ready hS, Comparison.holds]
  · next hdirect =>
    refine (hmore.holdsNot hc hx).map fun body c' hgrows hb => hb.expresses.congr fun I S hS => ?_
    have hcounts := (hS.anti hgrows.le).counts.trans (Bool.eq_false_of_not_eq_true hdirect)
    rw [Evaluation.member_maxCardinality_iff_not hcounts]

/-- Without counts an exact bound is read as a lower bound and the opposite of the next larger
one. -/
theorem define_exactCardinality_meets
    (hleast : Readable V (.minCardinality n r filler))
    (hmore : Readable V (.minCardinality (nextCardinality n) r filler)) (hc : c.Ready)
    (hr : .objectProperty r.property ∈ V) (hx : x ∈ c.elements) :
    Meets V (define (.exactCardinality n r filler) x) c fun c' bodies =>
      c'.Expresses (fun I => I.Member (.exactCardinality n r filler) x.individual) bodies := by
  rw [define]
  refine .get ?_
  split
  · next hdirect =>
    apply (related_holds_meets hfiller hc hr hx).bind
    intro successors c' hgrows hs
    refine .pure hgrows.ready ((Context.expresses_countBodies hgrows.ready hs .eq _).congr
      fun I S hS => ?_)
    have hcounts := (hS.anti hgrows.le).counts.trans hdirect
    simp [member_exactCardinality_iff hcounts hgrows.ready hS, Comparison.holds]
  · next hdirect =>
    apply (hleast.holds hc hx).bind
    intro atLeast c₁ h₁ hle
    apply (hmore.holdsNot h₁.ready (h₁.le.elements ▸ hx)).bind
    intro noMore c₂ h₂ hge
    have hle := hle.mono h₂.le
    have hiff : ∀ I S, c₂.Describes I S → (I.Member (.exactCardinality n r filler) x.individual ↔
        I.Member (.minCardinality n r filler) x.individual ∧
          ¬ I.Member (.minCardinality (nextCardinality n) r filler) x.individual) := by
      intro I S hS
      have hcounts := (hS.anti (Context.le_trans h₁.le h₂.le)).counts
      exact Evaluation.member_exactCardinality_iff_and
        (hcounts.trans (Bool.eq_false_of_not_eq_true hdirect))
    -- if one of the two bodies is missing, so is the definition
    cases atLeast with
    | none =>
      refine .pure h₂.ready (Context.Expresses.never.congr fun I S hS => ?_)
      simp [hiff I S hS, hle.not_of_none hS]
    | some a =>
      cases noMore with
      | none =>
        refine .pure h₂.ready (Context.Expresses.never.congr fun I S hS => ?_)
        have := hge.not_of_none hS
        simp only [hiff I S hS, this, and_false]
      | some b =>
        refine .pure h₂.ready ((hle.and hge).expresses.congr fun I S hS => ?_)
        rw [hiff I S hS]

end Cardinalities

end Restrictions

/-! ## Definitions -/

section Lighter

variable {w : Nat}
  (h : ∀ e : ClassExpression, e.weight < w → (∀ v ∈ e.vocabulary, v ∈ V) → Readable V e)

include h

theorem readable_of_mem {cs : List ClassExpression} (hw : ClassExpression.weightList cs ≤ w)
    (hV : ∀ v ∈ ClassExpression.vocabularyList cs, v ∈ V) : ∀ e ∈ cs, Readable V e := by
  intro e he
  apply h e (Nat.lt_of_lt_of_le (ClassExpression.weight_lt_of_mem he) hw)
  exact fun v hv => hV v (ClassExpression.mem_vocabularyList.2 ⟨e, he, hv⟩)

theorem readable_fillerOrThing {filler : Option ClassExpression}
    (hw : ClassExpression.weightFiller filler < w)
    (hV : ∀ v ∈ ClassExpression.vocabularyFiller filler, v ∈ V) :
    Readable V (ClassExpression.fillerOrThing filler) := by
  apply h
  · rw [ClassExpression.weight_fillerOrThing]
    exact hw
  · rw [ClassExpression.vocabulary_fillerOrThing]
    exact hV

end Lighter

section Definitions

variable {d : ClassExpression} (hV : ∀ e ∈ d.vocabulary, e ∈ V)
  (h : ∀ e : ClassExpression, e.weight < d.weight → (∀ v ∈ e.vocabulary, v ∈ V) → Readable V e)

include hV h

/-- One of the alternatives that define an expression is true exactly at its members, if all lighter
expressions are readable. -/
theorem define_meets {x : Element} (hc : c.Ready) (hx : x ∈ c.elements) :
    Meets V (define d x) c
      fun c' bodies => c'.Expresses (fun I => I.Member d x.individual) bodies := by
  cases d with
  | named iri =>
    rw [define]
    refine (classAtom_meets hc (hV _ (by simp [ClassExpression.vocabulary])) hx).map
      fun a c' _ ha => ?_
    exact (Context.Expresses.pos ha).congr fun I S _ => by simp
  | thing =>
    rw [define]
    exact .pure hc (Context.Expresses.always.congr fun I S _ => by simp)
  | nothing =>
    rw [define]
    exact .pure hc (Context.Expresses.never.congr fun I S _ => by simp)
  | intersectionOf cs =>
    rw [define]
    rw [ClassExpression.vocabulary] at hV
    have hparts := readable_of_mem h (by rw [ClassExpression.weight]; omega) hV
    apply (holdsAll_meets hparts hc hx).map
    intro body c' _ hb
    exact hb.expresses.congr fun I S _ => by simp
  | unionOf cs =>
    rw [define]
    rw [ClassExpression.vocabulary] at hV
    have hparts := readable_of_mem h (by rw [ClassExpression.weight]; omega) hV
    apply (holdsSome_meets hparts hc hx).imp
    intro bodies c' _ hb
    exact hb.congr fun I S _ => by simp
  | complementOf e =>
    rw [define]
    have he : Readable V e :=
      h e (by rw [ClassExpression.weight]; omega) (by rwa [ClassExpression.vocabulary] at hV)
    apply (he.holdsNot hc hx).map
    intro body c' _ hb
    exact hb.expresses.congr fun I S _ => by simp
  | oneOf is =>
    rw [define]
    rw [ClassExpression.vocabulary] at hV
    refine (members_meets hc fun i hi => hV _ (List.mem_map_of_mem hi)).map
      fun members c' hgrows hm => ?_
    exact expresses_memberBodies hgrows.ready hm (hgrows.le.elements ▸ hx)
  | someValuesFrom r e =>
    rw [ClassExpression.vocabulary, List.forall_mem_cons] at hV
    exact define_someValuesFrom_meets (h e (by rw [ClassExpression.weight]; omega) hV.2) hc hV.1 hx
  | allValuesFrom r e =>
    rw [ClassExpression.vocabulary, List.forall_mem_cons] at hV
    have hweight := e.weight_negation_le
    have hopposite : Readable V (.someValuesFrom r e.negation) := by
      apply h _ (by simp only [ClassExpression.weight]; omega)
      rw [ClassExpression.vocabulary, ClassExpression.vocabulary_negation, List.forall_mem_cons]
      exact hV
    exact define_allValuesFrom_meets (h e (by rw [ClassExpression.weight]; omega) hV.2) hopposite hc
      hV.1 hx
  | hasValue r i =>
    rw [define]
    rw [ClassExpression.vocabulary, List.forall_mem_cons, List.forall_mem_singleton] at hV
    apply (element_meets hc hV.2).bind
    intro y c₁ h₁ hy
    apply (roleAtom_meets h₁.ready hV.1 (h₁.le.elements ▸ hx) hy.1).map
    intro a c₂ h₂ ha
    apply (Context.Expresses.pos ha).congr
    intro I S hS
    rw [Evaluation.member_hasValue, hS.denote, hy.2, id]
  | hasSelf r =>
    rw [define]
    rw [ClassExpression.vocabulary, List.forall_mem_singleton] at hV
    apply (roleAtom_meets hc hV hx hx).map
    intro a c' _ ha
    exact (Context.Expresses.pos ha).congr fun I S _ => by simp
  | minCardinality n r filler =>
    rw [ClassExpression.vocabulary, List.forall_mem_cons] at hV
    have hfiller := readable_fillerOrThing h (by rw [ClassExpression.weight]; omega) hV.2
    exact define_minCardinality_meets hfiller hc hV.1 hx
  | maxCardinality n r filler =>
    have hmore : Readable V (.minCardinality (nextCardinality n) r filler) :=
      h _ (by simp only [ClassExpression.weight]; omega)
        (by simpa [ClassExpression.vocabulary] using hV)
    rw [ClassExpression.vocabulary, List.forall_mem_cons] at hV
    have hfiller := readable_fillerOrThing h (by rw [ClassExpression.weight]; omega) hV.2
    exact define_maxCardinality_meets hfiller hmore hc hV.1 hx
  | exactCardinality n r filler =>
    have hmin : ∀ m, Readable V (.minCardinality m r filler) := fun m =>
      h _ (by simp only [ClassExpression.weight]; omega)
        (by simpa [ClassExpression.vocabulary] using hV)
    rw [ClassExpression.vocabulary, List.forall_mem_cons] at hV
    have hfiller := readable_fillerOrThing h (by rw [ClassExpression.weight]; omega) hV.2
    exact define_exactCardinality_meets hfiller (hmin n) (hmin _) hc hV.1 hx

/-- The auxiliary predicate of an expression stands for it. -/
theorem auxFor_meets (hc : c.Ready) :
    Meets V (auxFor d) c fun c' k => ∃ j, k = j + 1 ∧ c'.definitions[j]? = some d := by
  rw [auxFor]
  refine .get ?_
  cases hk : c.definitions.idxOf? d with
  | some k =>
    -- remembered from an earlier use
    refine .pure hc ⟨k, rfl, ?_⟩
    obtain ⟨hlt, hget, -⟩ := List.findIdx?_eq_some_iff_getElem.1 hk
    rw [List.getElem?_eq_getElem hlt]
    simpa using hget
  | none =>
    refine .get ?_
    -- what the bodies for one element express stays true while those for the next are made
    refine (Meets.mapM (χ := fun x c' entry => entry.1 = x ∧
      c'.Expresses (fun I => I.Member d x.individual) entry.2) hc ?_ fun x hx c₁ h₁ => ?_).bind
      fun bodies c₁ h₁ hb => defineAux_meets h₁.ready (h₁.le.elements ▸ hb)
    · rintro x entry c₁ c₂ hgrows ⟨hfst, he⟩
      exact ⟨hfst, he.mono hgrows.le⟩
    · exact (define_meets hV h h₁.ready (h₁.le.elements ▸ hx)).map fun bodies c₂ h₂ hb => ⟨rfl, hb⟩

end Definitions

/-- Every expression over the vocabulary is readable. -/
theorem readable_of_vocabulary (d : ClassExpression) (hV : ∀ e ∈ d.vocabulary, e ∈ V) :
    Readable V d := by
  induction hn : d.weight using Nat.strongRecOn generalizing d with
  | ind n ih =>
  subst hn
  -- the auxiliary predicate of an expression is defined through lighter ones
  have hlighter : ∀ e : ClassExpression, e.weight < d.weight → (∀ v ∈ e.vocabulary, v ∈ V) →
      Readable V e := fun e he hVe => ih _ he e hVe rfl
  apply readable_of_aux hV (auxFor_meets hV hlighter)
  rintro e rfl
  exact hlighter e (by rw [ClassExpression.weight]; omega)
    (by rwa [ClassExpression.vocabulary] at hV)

/-! ## Left-hand sides -/

/-- The unfolded alternatives for an expression are true exactly at its members. -/
def Unfoldable (V : Set Entity) (d : ClassExpression) : Prop :=
  ∀ c x, c.Ready → x ∈ c.elements → Meets V (unfoldedBodies d x) c
    fun c' bodies => c'.Expresses (fun I => I.Member d x.individual) bodies

theorem unfoldedUnion_meets {cs : List ClassExpression} (h : ∀ d ∈ cs, Unfoldable V d)
    {x : Element} (hc : c.Ready) (hx : x ∈ c.elements) :
    Meets V (unfoldedUnion cs x) c
      fun c' bodies => c'.Expresses (fun I => I.MemberSome cs x.individual) bodies := by
  induction cs generalizing c with
  | nil =>
    rw [unfoldedUnion]
    exact .pure hc (Context.Expresses.never.congr fun I S _ => by simp)
  | cons d ds ih =>
    obtain ⟨hd, hds⟩ := List.forall_mem_cons.1 h
    rw [unfoldedUnion]
    apply (hd c x hc hx).bind
    intro first c₁ h₁ hfirst
    apply (ih hds h₁.ready (h₁.le.elements ▸ hx)).map
    intro rest c₂ h₂ hrest
    exact ((hfirst.mono h₂.le).or hrest).congr fun I S _ => by simp

theorem unfoldedProduct_meets {cs : List ClassExpression} (h : ∀ d ∈ cs, Unfoldable V d)
    {x : Element} {φ : Sentence} {product : List Body} (hc : c.Ready) (hx : x ∈ c.elements)
    (hproduct : c.Expresses φ product) :
    Meets V (unfoldedProduct product cs x) c
      fun c' bodies => c'.Expresses (fun I => φ I ∧ I.MemberAll cs x.individual) bodies := by
  induction cs generalizing c φ product with
  | nil =>
    rw [unfoldedProduct]
    exact .pure hc (hproduct.congr fun I S _ => by simp)
  | cons d ds ih =>
    obtain ⟨hd, hds⟩ := List.forall_mem_cons.1 h
    rw [unfoldedProduct]
    apply (hd c x hc hx).bind
    intro alternatives c₁ h₁ halternatives
    have hboth := (hproduct.mono h₁.le).product halternatives
    dsimp only
    split
    · next hempty =>
      -- no combination is left, whatever the other conjuncts are
      rw [List.isEmpty_iff.1 hempty] at hboth
      refine .pure h₁.ready (Context.Expresses.never.congr fun I S hS => ?_)
      have hnot : ¬ (φ I ∧ I.Member d x.individual) := by
        rw [← hboth.iff I S S hS hS]
        simp
      rw [Evaluation.memberAll_cons, ← and_assoc]
      simp [hnot]
    · apply (ih hds h₁.ready (h₁.le.elements ▸ hx) hboth).imp
      intro bodies c₂ h₂ hb
      exact hb.congr fun I S _ => by rw [Evaluation.memberAll_cons, and_assoc]

theorem unfoldable_of_vocabulary (d : ClassExpression) (hV : ∀ e ∈ d.vocabulary, e ∈ V) :
    Unfoldable V d := by
  induction hn : d.weight using Nat.strongRecOn generalizing d with
  | ind n ih =>
  subst hn
  intro c x hc hx
  have hparts : ∀ {cs : List ClassExpression}, (∀ e ∈ ClassExpression.vocabularyList cs, e ∈ V) →
      ClassExpression.weightList cs < d.weight → ∀ e ∈ cs, Unfoldable V e := by
    intro cs hcs hlt e he
    have := ClassExpression.weight_lt_of_mem he
    refine ih _ (by omega) e (fun v hv => hcs v ?_) rfl
    exact ClassExpression.mem_vocabularyList.2 ⟨e, he, hv⟩
  -- what is not unfolded is read as anywhere else
  have hsingle : Meets V (do return (← holds d x).toList) c
      fun c' bodies => c'.Expresses (fun I => I.Member d x.individual) bodies :=
    ((readable_of_vocabulary d hV).holds hc hx).map fun body c' _ hb => hb.expresses
  cases d with
  | thing =>
    rw [unfoldedBodies]
    exact .pure hc (Context.Expresses.always.congr fun I S _ => by simp)
  | nothing =>
    rw [unfoldedBodies]
    exact .pure hc (Context.Expresses.never.congr fun I S _ => by simp)
  | oneOf is =>
    rw [unfoldedBodies]
    rw [ClassExpression.vocabulary] at hV
    refine (members_meets hc fun i hi => hV _ (List.mem_map_of_mem hi)).map
      fun members c' hgrows hm => ?_
    exact expresses_memberBodies hgrows.ready hm (hgrows.le.elements ▸ hx)
  | unionOf cs =>
    rw [unfoldedBodies]
    rw [ClassExpression.vocabulary] at hV
    refine (unfoldedUnion_meets (hparts hV (by rw [ClassExpression.weight]; omega)) hc hx).imp
      fun bodies c' _ hb => hb.congr fun I S _ => by simp
  | intersectionOf cs =>
    rw [unfoldedBodies]
    rw [ClassExpression.vocabulary] at hV
    refine (unfoldedProduct_meets (hparts hV (by rw [ClassExpression.weight]; omega)) hc hx
      .always).imp fun bodies c' _ hb => hb.congr fun I S _ => ?_
    rw [Evaluation.member_intersectionOf, true_and]
  | _ =>
    simp only [unfoldedBodies]
    exact hsingle

/-- One of the alternatives for an expression on the left of an inclusion is true exactly at its
members. -/
theorem lhsBodies_meets {d : ClassExpression} (hV : ∀ e ∈ d.vocabulary, e ∈ V) {x : Element}
    (hc : c.Ready) (hx : x ∈ c.elements) :
    Meets V (lhsBodies d x) c
      fun c' bodies => c'.Expresses (fun I => I.Member d x.individual) bodies := by
  refine .get ?_
  split
  · exact unfoldable_of_vocabulary d hV c x hc hx
  · exact ((readable_of_vocabulary d hV).holds hc hx).map fun body c' _ hb => hb.expresses

end Grounding

end FixedDomain
