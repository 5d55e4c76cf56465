import FixedDomain.Grounding.Query
import FixedDomain.Proofs.Grounding.Axiom

/-! # Violations of axioms

One of the bodies for the ways of violating a supported axiom is true exactly when the axiom is false
(`witnesses_meets`). The proofs run parallel to those for the rules of axioms, with the same pairs of
elements and expressions; only here are individuals looked at that are said to be different.
-/

namespace FixedDomain.Grounding

variable {V : Set Entity} {c : Context} {φ ψ : Sentence}

/-! ## Traversals -/

namespace Meets

variable {α : Type} {χ : α → Sentence}

/-- The ways for a statement to be false of an item of a list. -/
theorem collect_refutes (hc : c.Ready) {items : List α} {step : α → Grounding (List Body)}
    (h : ∀ x ∈ items, ∀ c', c.Grows V c' →
      Meets V (step x) c' fun c' bodies => c'.Expresses (fun I => ¬ χ x I) bodies) :
    Meets V (collect items step) c fun c' bodies =>
      c'.Expresses (fun I => ¬ ∀ x ∈ items, χ x I) bodies :=
  (collect_expresses hc h).imp fun _ _ _ hb => hb.congr fun I S _ => by
    simp only [not_forall, exists_prop]

/-- One way for a statement to be false for each item of a list. -/
theorem mapM_refutes (hc : c.Ready) {items : List α} {step : α → Grounding Body}
    (h : ∀ x ∈ items, ∀ c', c.Grows V c' →
      Meets V (step x) c' fun c' body => c'.Expresses (fun I => ¬ χ x I) [body]) :
    Meets V (items.mapM step) c fun c' bodies =>
      c'.Expresses (fun I => ¬ ∀ x ∈ items, χ x I) bodies :=
  (mapM_expresses hc h).imp fun _ _ _ hb => hb.congr fun I S _ => by
    simp only [not_forall, exists_prop]

end Meets

/-! ## Classes -/

theorem expresses_both {a b : Option Body} (ha : c.Decides φ a) (hb : c.Decides ψ b) :
    c.Expresses (fun I => φ I ∧ ψ I) (both a b) := by
  cases a with
  | none => exact Context.Expresses.never.congr fun I S hS => by simp [ha.not_of_none hS]
  | some a =>
    cases b with
    | none => exact Context.Expresses.never.congr fun I S hS => by simp [hb.not_of_none hS]
    | some b => exact ha.expresses.and hb.expresses

section Classes

variable {d e : ClassExpression} (hd : ∀ v ∈ d.vocabulary, v ∈ V) (he : ∀ v ∈ e.vocabulary, v ∈ V)

include hd he

theorem inclusionWitnesses_meets (hc : c.Ready) : Meets V (inclusionWitnesses d e) c
    fun c' bodies => c'.Expresses (fun I => ¬ I.Included d e) bodies := by
  refine .get ?_
  refine (Meets.collect_refutes (χ := fun x I => I.Member d x.individual →
    I.Member e x.individual) hc fun x hx c₁ h₁ => ?_).imp fun bodies c' hgrows hb => ?_
  · have hx₁ : x ∈ c₁.elements := h₁.le.elements ▸ hx
    apply ((readable_of_vocabulary d hd).holds h₁.ready hx₁).bind
    intro inside c₂ h₂ hin
    refine ((readable_of_vocabulary e he).holdsNot h₂.ready (h₂.le.elements ▸ hx₁)).map
      fun outside c₃ h₃ hout => ?_
    exact (expresses_both (hin.mono h₃.le) hout).congr fun I S _ => by rw [Classical.not_imp]
  · refine hb.congr fun I S hS => not_congr ?_
    rw [I.included_iff, (hS.anti hgrows.le).forall_domain]

/-- The ways for an element to belong to both of two expressions. -/
theorem overlapWitnesses_meets (hc : c.Ready) :
    Meets V (do
      collect (← get).elements fun x => do
        let first ← holds d x
        return both first (← holds e x)) c
      fun c' bodies => c'.Expresses (fun I => ¬ I.Disjoint d e) bodies := by
  refine .get ?_
  refine (Meets.collect_refutes (χ := fun x I => ¬ (I.Member d x.individual ∧
    I.Member e x.individual)) hc fun x hx c₁ h₁ => ?_).imp fun bodies c' hgrows hb => ?_
  · have hx₁ : x ∈ c₁.elements := h₁.le.elements ▸ hx
    apply ((readable_of_vocabulary d hd).holds h₁.ready hx₁).bind
    intro first c₂ h₂ hfirst
    refine ((readable_of_vocabulary e he).holds h₂.ready (h₂.le.elements ▸ hx₁)).map
      fun second c₃ h₃ hsecond => ?_
    exact (expresses_both (hfirst.mono h₃.le) hsecond).congr fun I S _ => by rw [not_not]
  · refine hb.congr fun I S hS => not_congr ?_
    rw [I.disjoint_iff, (hS.anti hgrows.le).forall_domain]

end Classes

theorem disjointnessWitnesses_meets {ds : List ClassExpression}
    (hds : ∀ v ∈ ClassExpression.vocabularyList ds, v ∈ V) (hc : c.Ready) :
    Meets V (disjointnessWitnesses ds) c
      fun c' bodies => c'.Expresses (fun I => ¬ I.Satisfies (.disjointClasses ds)) bodies := by
  have hparts : ∀ d ∈ ds, ∀ v ∈ d.vocabulary, v ∈ V := fun d hd v hv =>
    hds v (ClassExpression.mem_vocabularyList.2 ⟨d, hd, hv⟩)
  refine (Meets.collect_refutes (χ := fun p I => I.Disjoint p.1 p.2) hc fun p hp c₁ h₁ => ?_).imp
    fun bodies c' _ hb => hb.congr fun I S _ => by
      rw [I.satisfies_disjointClasses_iff, forall_laterPairs_iff]
  exact overlapWitnesses_meets (hparts _ (mem_laterPairs hp).1) (hparts _ (mem_laterPairs hp).2)
    h₁.ready

theorem equivalenceWitnesses_meets {ds : List ClassExpression}
    (hds : ∀ v ∈ ClassExpression.vocabularyList ds, v ∈ V) (hc : c.Ready) :
    Meets V (equivalenceWitnesses ds) c fun c' bodies =>
      c'.Expresses (fun I => ¬ I.Satisfies (.equivalentClasses ds)) bodies := by
  have hparts : ∀ d ∈ ds, ∀ v ∈ d.vocabulary, v ∈ V := fun d hd v hv =>
    hds v (ClassExpression.mem_vocabularyList.2 ⟨d, hd, hv⟩)
  cases ds with
  | nil => exact .pure hc (Context.Expresses.never.congr fun I S _ => by
      simp [Evaluation.Satisfies, Axiom.restated, Interpretation.Satisfies])
  | cons d ds =>
    have hd := hparts d List.mem_cons_self
    refine (Meets.collect_refutes (χ := fun e I => I.Included d e ∧ I.Included e d) hc
      fun e hmem c₁ h₁ => ?_).imp fun bodies c' _ hb => hb.congr fun I S _ => not_congr ?_
    · have he := hparts e (List.mem_cons_of_mem _ hmem)
      apply (inclusionWitnesses_meets hd he h₁.ready).bind
      intro there c₂ h₂ hthere
      apply (inclusionWitnesses_meets he hd h₂.ready).map
      intro back c₃ h₃ hback
      exact ((hthere.mono h₃.le).or hback).congr fun I S _ => by rw [not_and_or]
    · exact I.forall_included_iff

/-! ## Roles -/

section Roles

variable {r s : Role} (hr : .objectProperty r.property ∈ V)

include hr

theorem roleInclusionWitnesses_meets (hs : .objectProperty s.property ∈ V) (hc : c.Ready) :
    Meets V (roleInclusionWitnesses r s) c
      fun c' bodies => c'.Expresses (fun I => ¬ I.RoleIncluded r s) bodies := by
  refine .get ?_
  refine (Meets.mapM_refutes (χ := fun p I => I.Leads r p.1.individual p.2.individual →
    I.Leads s p.1.individual p.2.individual) hc fun p hp c₁ h₁ => ?_).imp
    fun bodies c' hgrows hb => hb.congr fun I S hS => not_congr ?_
  · obtain ⟨x, y⟩ := p
    obtain ⟨hx, hy⟩ := Context.mem_pairs.1 hp
    refine (roleAtom_meets h₁.ready hr (h₁.le.elements ▸ hx) (h₁.le.elements ▸ hy)).bind
      fun a c₂ h₂ ha => ?_
    have hle := Context.le_trans h₁.le h₂.le
    refine (roleAtom_meets h₂.ready hs (hle.elements ▸ hx) (hle.elements ▸ hy)).map
      fun b c₃ h₃ hb => ?_
    exact (Context.Expresses.and (.pos (ha.mono h₃.le)) (.complement hb)).congr
      fun I S _ => by rw [Classical.not_imp]
  · exact (hS.anti hgrows.le).roleIncluded_iff.symm

/-- The body that two roles of two pairs hold together. -/
theorem bothRoles_meets {x y x' y' : Element} (hs : .objectProperty s.property ∈ V)
    (hc : c.Ready) (hx : x ∈ c.elements) (hy : y ∈ c.elements) (hx' : x' ∈ c.elements)
    (hy' : y' ∈ c.elements) :
    Meets V (do
      let first ← roleAtom r x y
      return [.pos first, .pos (← roleAtom s x' y')]) c
      fun c' body => c'.Expresses (fun I => ¬ ¬ (I.Leads r x.individual y.individual ∧
        I.Leads s x'.individual y'.individual)) [body] := by
  apply (roleAtom_meets hc hr hx hy).bind
  intro a c₁ h₁ ha
  refine (roleAtom_meets h₁.ready hs (h₁.le.elements ▸ hx') (h₁.le.elements ▸ hy')).map
    fun b c₂ h₂ hb => ?_
  exact (Context.Expresses.and (.pos (ha.mono h₂.le)) (.pos hb)).congr fun I S _ => by rw [not_not]

theorem functionalityWitnesses_meets (hc : c.Ready) : Meets V (functionalityWitnesses r) c
    fun c' bodies => c'.Expresses (fun I => ¬ I.Functional r) bodies := by
  refine .get ?_
  refine (Meets.collect_refutes (χ := fun x I => ∀ p ∈ laterPairs c.elements,
    ¬ (I.Leads r x.individual p.1.individual ∧ I.Leads r x.individual p.2.individual)) hc
    fun x hx c₁ h₁ => .get ?_).imp fun bodies c' hgrows hb => hb.congr fun I S hS => not_congr ?_
  · have hx₁ : x ∈ c₁.elements := h₁.le.elements ▸ hx
    rw [← h₁.le.elements]
    apply Meets.mapM_refutes h₁.ready
    intro p hp c₂ h₂
    obtain ⟨hy, hz⟩ := mem_laterPairs hp
    exact bothRoles_meets hr hr h₂.ready (h₂.le.elements ▸ hx₁) (h₂.le.elements ▸ hy)
      (h₂.le.elements ▸ hx₁) (h₂.le.elements ▸ hz)
  · exact ((hS.anti hgrows.le).functional_iff hc).symm

theorem typingWitnesses_meets {d : ClassExpression} (hd : ∀ v ∈ d.vocabulary, v ∈ V)
    {typed : Element × Element → Element} (htyped : ∀ p ∈ c.pairs, typed p ∈ c.elements)
    (hc : c.Ready) : Meets V (typingWitnesses r d typed) c fun c' bodies => c'.Expresses (fun I =>
      ¬ ∀ p ∈ c.pairs, I.Leads r p.1.individual p.2.individual →
        I.Member d (typed p).individual) bodies := by
  refine .get ?_
  apply Meets.collect_refutes hc
  intro p hp c₁ h₁
  have hx := htyped p hp
  obtain ⟨x, y⟩ := p
  obtain ⟨hx', hy'⟩ := Context.mem_pairs.1 hp
  refine ((readable_of_vocabulary d hd).holdsNot h₁.ready (h₁.le.elements ▸ hx)).bind
    fun outside c₂ h₂ hout => ?_
  cases outside with
  | none =>
    refine .pure h₂.ready (Context.Expresses.never.congr fun I S hS => ?_)
    simp [not_not.1 (hout.not_of_none hS)]
  | some outside =>
    have hle := Context.le_trans h₁.le h₂.le
    refine (roleAtom_meets h₂.ready hr (hle.elements ▸ hx') (hle.elements ▸ hy')).map
      fun a c₃ h₃ ha => ?_
    exact (Context.Expresses.and (.pos ha) (hout.mono h₃.le).expresses).congr
      fun I S _ => by rw [Classical.not_imp]

theorem transitivityWitnesses_meets (hc : c.Ready) :
    Meets V (witnesses (.transitiveObjectProperty r)) c fun c' bodies =>
      c'.Expresses (fun I => ¬ I.Satisfies (.transitiveObjectProperty r)) bodies := by
  refine .get ?_
  refine (Meets.collect_refutes (χ := fun p I => ∀ z ∈ c.elements.filter fun z => z ≠ p.2,
    I.Leads r p.1.individual p.2.individual ∧ I.Leads r p.2.individual z.individual →
      I.Leads r p.1.individual z.individual) hc fun p hp c₁ h₁ => ?_).imp
    fun bodies c' hgrows hb => hb.congr fun I S hS => not_congr ?_
  · obtain ⟨x, y⟩ := p
    obtain ⟨hx, hy⟩ := Context.mem_pairs.1 (List.mem_filter.1 hp).1
    refine .get ?_
    rw [h₁.le.elements]
    apply Meets.mapM_refutes h₁.ready
    intro z hz c₂ h₂
    have hz := (List.mem_filter.1 hz).1
    have hle₂ := Context.le_trans h₁.le h₂.le
    refine (roleAtom_meets h₂.ready hr (hle₂.elements ▸ hx) (hle₂.elements ▸ hy)).bind
      fun a c₃ h₃ ha => ?_
    have hle₃ := Context.le_trans hle₂ h₃.le
    refine (roleAtom_meets h₃.ready hr (hle₃.elements ▸ hy) (hle₃.elements ▸ hz)).bind
      fun b c₄ h₄ hb => ?_
    have hle₄ := Context.le_trans hle₃ h₄.le
    refine (roleAtom_meets h₄.ready hr (hle₄.elements ▸ hx) (hle₄.elements ▸ hz)).map
      fun d c₅ h₅ hd => ?_
    have ha := (ha.mono h₄.le).mono h₅.le
    exact (Context.Expresses.and (.pos ha) (.and (.pos (hb.mono h₅.le)) (.complement hd))).congr
      fun I S _ => by rw [Classical.not_imp, and_assoc]
  · exact (hS.anti hgrows.le).transitive_iff.symm

theorem symmetryWitnesses_meets (hc : c.Ready) :
    Meets V (witnesses (.symmetricObjectProperty r)) c fun c' bodies =>
      c'.Expresses (fun I => ¬ I.Satisfies (.symmetricObjectProperty r)) bodies := by
  refine .get ?_
  refine (Meets.mapM_refutes (χ := fun p I => I.Leads r p.1.individual p.2.individual →
    I.Leads r p.2.individual p.1.individual) hc fun p hp c₁ h₁ => ?_).imp
    fun bodies c' hgrows hb => hb.congr fun I S hS => not_congr ?_
  · obtain ⟨x, y⟩ := p
    obtain ⟨hx, hy⟩ := Context.mem_pairs.1 (List.mem_filter.1 hp).1
    refine (roleAtom_meets h₁.ready hr (h₁.le.elements ▸ hx) (h₁.le.elements ▸ hy)).bind
      fun a c₂ h₂ ha => ?_
    have hle := Context.le_trans h₁.le h₂.le
    refine (roleAtom_meets h₂.ready hr (hle.elements ▸ hy) (hle.elements ▸ hx)).map
      fun b c₃ h₃ hb => ?_
    exact (Context.Expresses.and (.pos (ha.mono h₃.le)) (.complement hb)).congr
      fun I S _ => by rw [Classical.not_imp]
  · exact (hS.anti hgrows.le).symmetric_iff.symm

theorem asymmetryWitnesses_meets (hc : c.Ready) :
    Meets V (witnesses (.asymmetricObjectProperty r)) c fun c' bodies =>
      c'.Expresses (fun I => ¬ I.Satisfies (.asymmetricObjectProperty r)) bodies := by
  refine .get ?_
  refine (Meets.mapM_refutes (χ := fun p I => ¬ (I.Leads r p.1.individual p.2.individual ∧
    I.Leads r p.2.individual p.1.individual)) hc fun p hp c₁ h₁ => ?_).imp
    fun bodies c' hgrows hb => hb.congr fun I S hS => not_congr ?_
  · obtain ⟨hx, hy⟩ := mem_upperPairs hp
    obtain ⟨x, y⟩ := p
    refine (roleAtom_meets h₁.ready hr (h₁.le.elements ▸ hx) (h₁.le.elements ▸ hy)).bind
      fun a c₂ h₂ ha => ?_
    split
    · next hxy =>
      subst hxy
      exact .pure h₂.ready ((Context.Expresses.pos ha).congr fun I S _ => by simp)
    · have hle := Context.le_trans h₁.le h₂.le
      refine (roleAtom_meets h₂.ready hr (hle.elements ▸ hy) (hle.elements ▸ hx)).map
        fun b c₃ h₃ hb => ?_
      exact (Context.Expresses.and (.pos (ha.mono h₃.le)) (.pos hb)).congr
        fun I S _ => by rw [not_not]
  · exact (hS.anti hgrows.le).asymmetric_iff.symm

theorem reflexivityWitnesses_meets (hc : c.Ready) :
    Meets V (witnesses (.reflexiveObjectProperty r)) c fun c' bodies =>
      c'.Expresses (fun I => ¬ I.Satisfies (.reflexiveObjectProperty r)) bodies := by
  refine .get ?_
  refine (Meets.mapM_refutes (χ := fun x I => I.Leads r x.individual x.individual) hc
    fun x hx c₁ h₁ => ?_).imp fun bodies c' hgrows hb => hb.congr fun I S hS => not_congr ?_
  · exact (roleAtom_meets h₁.ready hr (h₁.le.elements ▸ hx) (h₁.le.elements ▸ hx)).map
      fun a c₂ _ ha => .complement ha
  · simp only [Evaluation.Satisfies, Axiom.restated, Interpretation.Satisfies]
    rw [(hS.anti hgrows.le).forall_domain]

theorem irreflexivityWitnesses_meets (hc : c.Ready) :
    Meets V (witnesses (.irreflexiveObjectProperty r)) c fun c' bodies =>
      c'.Expresses (fun I => ¬ I.Satisfies (.irreflexiveObjectProperty r)) bodies := by
  refine .get ?_
  refine (Meets.mapM_refutes (χ := fun x I => ¬ I.Leads r x.individual x.individual) hc
    fun x hx c₁ h₁ => ?_).imp fun bodies c' hgrows hb => hb.congr fun I S hS => not_congr ?_
  · exact (roleAtom_meets h₁.ready hr (h₁.le.elements ▸ hx) (h₁.le.elements ▸ hx)).map
      fun a c₂ _ ha => (Context.Expresses.pos ha).congr fun I S _ => by rw [not_not]
  · simp only [Evaluation.Satisfies, Axiom.restated, Interpretation.Satisfies]
    rw [(hS.anti hgrows.le).forall_domain]

theorem roleAssertionWitnesses_meets {i j : Individual} (hi : .individual i.iri ∈ V)
    (hj : .individual j.iri ∈ V) (hc : c.Ready) :
    Meets V (witnesses (.objectPropertyAssertion r i j)) c fun c' bodies =>
      c'.Expresses (fun I => ¬ I.Satisfies (.objectPropertyAssertion r i j)) bodies := by
  apply (element_meets hc hi).bind
  intro x c₁ h₁ hx
  apply (element_meets h₁.ready hj).bind
  intro y c₂ h₂ hy
  apply (roleAtom_meets h₂.ready hr (h₂.le.elements ▸ hx.1) hy.1).map
  intro a c₃ _ ha
  exact (Context.Expresses.complement ha).congr fun I S hS => by
    simp only [Evaluation.Satisfies, Axiom.restated, Interpretation.Satisfies]
    rw [hS.denote, hx.2, hy.2, id, id]

theorem negativeRoleAssertionWitnesses_meets {i j : Individual} (hi : .individual i.iri ∈ V)
    (hj : .individual j.iri ∈ V) (hc : c.Ready) :
    Meets V (witnesses (.negativeObjectPropertyAssertion r i j)) c fun c' bodies =>
      c'.Expresses (fun I => ¬ I.Satisfies (.negativeObjectPropertyAssertion r i j)) bodies := by
  apply (element_meets hc hi).bind
  intro x c₁ h₁ hx
  apply (element_meets h₁.ready hj).bind
  intro y c₂ h₂ hy
  apply (roleAtom_meets h₂.ready hr (h₂.le.elements ▸ hx.1) hy.1).map
  intro a c₃ _ ha
  exact (Context.Expresses.pos ha).congr fun I S hS => by
    simp only [Evaluation.Satisfies, Axiom.restated, Interpretation.Satisfies]
    rw [hS.denote, hx.2, hy.2, id, id, not_not]

end Roles

theorem roleEquivalenceWitnesses_meets {rs : List Role}
    (hrs : ∀ r ∈ rs, .objectProperty r.property ∈ V) (hc : c.Ready) :
    Meets V (roleEquivalenceWitnesses rs) c fun c' bodies =>
      c'.Expresses (fun I => ¬ I.Satisfies (.equivalentObjectProperties rs)) bodies := by
  cases rs with
  | nil => exact .pure hc (Context.Expresses.never.congr fun I S _ => by
      simp [Evaluation.Satisfies, Axiom.restated, Interpretation.Satisfies])
  | cons r rs =>
    have hr := hrs r List.mem_cons_self
    refine (Meets.collect_refutes (χ := fun s I => I.RoleIncluded r s ∧ I.RoleIncluded s r) hc
      fun s hmem c₁ h₁ => ?_).imp fun bodies c' _ hb => hb.congr fun I S _ => not_congr ?_
    · have hs := hrs s (List.mem_cons_of_mem _ hmem)
      apply (roleInclusionWitnesses_meets hr hs h₁.ready).bind
      intro there c₂ h₂ hthere
      apply (roleInclusionWitnesses_meets hs hr h₂.ready).map
      intro back c₃ h₃ hback
      exact ((hthere.mono h₃.le).or hback).congr fun I S _ => by rw [not_and_or]
    · exact I.forall_roleIncluded_iff

theorem roleDisjointnessWitnesses_meets {rs : List Role}
    (hrs : ∀ r ∈ rs, .objectProperty r.property ∈ V) (hc : c.Ready) :
    Meets V (witnesses (.disjointObjectProperties rs)) c fun c' bodies =>
      c'.Expresses (fun I => ¬ I.Satisfies (.disjointObjectProperties rs)) bodies := by
  refine (Meets.collect_refutes (χ := fun p I => ∀ x ∈ I.domain, ∀ y ∈ I.domain,
    ¬ (I.Leads p.1 x y ∧ I.Leads p.2 x y)) hc fun p hp c₁ h₁ => .get ?_).imp
    fun bodies c' _ hb => hb.congr fun I S hS => not_congr ?_
  · obtain ⟨hr, hs⟩ := mem_laterPairs hp
    obtain ⟨r, s⟩ := p
    refine (Meets.mapM_refutes (χ := fun q I => ¬ (I.Leads r q.1.individual q.2.individual ∧
      I.Leads s q.1.individual q.2.individual)) h₁.ready fun q hq c₂ h₂ => ?_).imp
      fun bodies c₂ h₂ hb => hb.congr fun I S hS => not_congr ?_
    · obtain ⟨x, y⟩ := q
      obtain ⟨hx, hy⟩ := Context.mem_pairs.1 hq
      exact bothRoles_meets (hrs r hr) (hrs s hs) h₂.ready (h₂.le.elements ▸ hx)
        (h₂.le.elements ▸ hy) (h₂.le.elements ▸ hx) (h₂.le.elements ▸ hy)
    · exact (hS.anti h₂.le).roleDisjoint_iff.symm
  · simp only [Evaluation.Satisfies, Axiom.restated, Interpretation.Satisfies]
    rw [← forall_laterPairs_iff]

/-! ## Individuals -/

/-- Individuals denote different objects if their elements are different. -/
theorem satisfies_differentIndividuals_iff {c : Context} (hc : c.Ready)
    {I : Evaluation Individual} (hI : I.denote = id) {members : List Element}
    (h : ∀ x ∈ members, x ∈ c.elements) :
    I.Satisfies (.differentIndividuals (members.map (·.individual))) ↔ members.Nodup := by
  simp only [Evaluation.Satisfies, Axiom.restated, Interpretation.Satisfies]
  rw [hI]
  change (members.map (·.individual)).Nodup ↔ _
  exact ⟨.of_map _, fun hn => hn.map_on fun x hx y hy => hc.eq_of_individual_eq (h x hx) (h y hy)⟩

/-! ## Axioms -/

/-- One of the ways of violating a supported axiom is there exactly when the axiom is false. -/
theorem witnesses_meets {a : Axiom} (ha : a.IsSupported) (hV : ∀ v ∈ entities a, v ∈ V)
    (hc : c.Ready) : Meets V (witnesses a) c
      fun c' bodies => c'.Expresses (fun I => ¬ I.Satisfies a) bodies := by
  cases a with
  | declaration e =>
    exact .pure hc (Context.Expresses.never.congr fun I S _ => by
      simp [Evaluation.Satisfies, Axiom.restated, Interpretation.Satisfies])
  | subClassOf d e =>
    simp only [entities, Axiom.vocabulary, List.forall_mem_append] at hV
    exact inclusionWitnesses_meets hV.1 hV.2 hc
  | equivalentClasses ds => exact equivalenceWitnesses_meets hV hc
  | disjointClasses ds => exact disjointnessWitnesses_meets hV hc
  | disjointUnion whole parts =>
    simp only [entities, Axiom.vocabulary, List.forall_mem_cons] at hV
    have hequal : ∀ v ∈ ClassExpression.vocabularyList [.named whole, .unionOf parts], v ∈ V := by
      simpa [ClassExpression.vocabularyList, ClassExpression.vocabulary] using hV
    apply (equivalenceWitnesses_meets hequal hc).bind
    intro differing c₁ h₁ he
    apply (disjointnessWitnesses_meets hV.2 h₁.ready).map
    intro overlapping c₂ h₂ hd
    apply ((he.mono h₂.le).or hd).congr
    intro I S _
    rw [I.satisfies_disjointUnion_iff, not_and_or]
  | subObjectPropertyOf r s =>
    have hrs : ∀ r' ∈ [r, s], .objectProperty r'.property ∈ V := List.forall_mem_map.1 hV
    exact roleInclusionWitnesses_meets (hrs r (by simp)) (hrs s (by simp)) hc
  | equivalentObjectProperties rs =>
    exact roleEquivalenceWitnesses_meets (List.forall_mem_map.1 hV) hc
  | disjointObjectProperties rs =>
    exact roleDisjointnessWitnesses_meets (List.forall_mem_map.1 hV) hc
  | inverseObjectProperties r s =>
    have hrs : ∀ r' ∈ [r, s.inverse], .objectProperty r'.property ∈ V := by
      simpa [entities, Axiom.vocabulary, Axiom.rolesVocabulary] using hV
    refine (roleEquivalenceWitnesses_meets hrs hc).imp fun bodies c' _ hb => hb.congr
      fun I S _ => not_congr ?_
    exact I.satisfies_inverseObjectProperties_iff.symm
  | objectPropertyDomain r d =>
    simp only [entities, Axiom.vocabulary, List.forall_mem_append] at hV
    refine (typingWitnesses_meets (hV.1 _ List.mem_cons_self) hV.2
      (fun p hp => (Context.mem_pairs.1 hp).1) hc).imp
      fun bodies c' hgrows hb => hb.congr fun I S hS => not_congr ?_
    exact (hS.anti hgrows.le).domain_iff.symm
  | objectPropertyRange r d =>
    simp only [entities, Axiom.vocabulary, List.forall_mem_append] at hV
    refine (typingWitnesses_meets (hV.1 _ List.mem_cons_self) hV.2
      (fun p hp => (Context.mem_pairs.1 hp).2) hc).imp
      fun bodies c' hgrows hb => hb.congr fun I S hS => not_congr ?_
    exact (hS.anti hgrows.le).range_iff.symm
  | functionalObjectProperty r => exact functionalityWitnesses_meets (hV _ List.mem_cons_self) hc
  | inverseFunctionalObjectProperty r =>
    exact functionalityWitnesses_meets (r.property_inverse ▸ hV _ List.mem_cons_self) hc
  | reflexiveObjectProperty r => exact reflexivityWitnesses_meets (hV _ List.mem_cons_self) hc
  | irreflexiveObjectProperty r => exact irreflexivityWitnesses_meets (hV _ List.mem_cons_self) hc
  | symmetricObjectProperty r => exact symmetryWitnesses_meets (hV _ List.mem_cons_self) hc
  | asymmetricObjectProperty r => exact asymmetryWitnesses_meets (hV _ List.mem_cons_self) hc
  | transitiveObjectProperty r => exact transitivityWitnesses_meets (hV _ List.mem_cons_self) hc
  | sameIndividual is =>
    apply (members_meets hc (List.forall_mem_map.1 hV)).map
    intro members c' hgrows hm
    obtain ⟨rfl, helements⟩ := map_individual hm
    split
    · next hd =>
      exact Context.Expresses.always.congr fun I S hS => by
        simp [satisfies_sameIndividual_iff hgrows.ready hS.denote helements, hd]
    · next hd =>
      exact Context.Expresses.never.congr fun I S hS => by
        simp [satisfies_sameIndividual_iff hgrows.ready hS.denote helements, hd]
  | differentIndividuals is =>
    apply (members_meets hc (List.forall_mem_map.1 hV)).map
    intro members c' hgrows hm
    obtain ⟨rfl, helements⟩ := map_individual hm
    split
    · next hn =>
      exact Context.Expresses.never.congr fun I S hS => by
        simp [satisfies_differentIndividuals_iff hgrows.ready hS.denote helements, hn]
    · next hn =>
      exact Context.Expresses.always.congr fun I S hS => by
        simp [satisfies_differentIndividuals_iff hgrows.ready hS.denote helements, hn]
  | classAssertion d i =>
    simp only [entities, Axiom.vocabulary, List.forall_mem_append] at hV
    apply (element_meets hc (hV.2 _ List.mem_cons_self)).bind
    intro x c₁ h₁ hx
    apply ((readable_of_vocabulary d hV.1).holdsNot h₁.ready hx.1).map
    intro outside c₂ _ hb
    apply hb.expresses.congr
    intro I S hS
    rw [I.satisfies_classAssertion_iff, hS.denote, hx.2, id]
  | objectPropertyAssertion r i j =>
    simp only [entities, Axiom.vocabulary, List.forall_mem_append] at hV
    have hij : ∀ i' ∈ [i, j], .individual i'.iri ∈ V := List.forall_mem_map.1 hV.2
    exact roleAssertionWitnesses_meets (hV.1 _ List.mem_cons_self) (hij i (by simp))
      (hij j (by simp)) hc
  | negativeObjectPropertyAssertion r i j =>
    simp only [entities, Axiom.vocabulary, List.forall_mem_append] at hV
    have hij : ∀ i' ∈ [i, j], .individual i'.iri ∈ V := List.forall_mem_map.1 hV.2
    exact negativeRoleAssertionWitnesses_meets (hV.1 _ List.mem_cons_self) (hij i (by simp))
      (hij j (by simp)) hc
  | unsupported keyword source => cases ha

/-! ## Fragments -/

/-- The atom of the next query. -/
def nextQuery (c : Context) : Atom := .positive (queryName (c.queryCount + 1)) []

/-- The rules of a fragment are those for what is new in the axiom, one for each way of violating it,
and the demand for one of them. -/
theorem exec_negatedQuery {a : Axiom} {bodies : List Body} {c c' : Context}
    (h : (witnesses a).exec c = (.ok bodies, c')) :
    ∃ fragment, ((negatedQuery a).exec c).1 = .ok fragment ∧
      fragment.rules = c'.pending.rules ++ bodies.map (.derive (nextQuery c')) ++
        [.constraint [.not (nextQuery c')]] := by
  unfold negatedQuery
  rw [exec_bind, h]
  refine ⟨_, rfl, ?_⟩
  rw [Program.rules_push, Program.rules_pushAll, Program.rules_append, Program.rules_comment]
  rfl

end FixedDomain.Grounding
