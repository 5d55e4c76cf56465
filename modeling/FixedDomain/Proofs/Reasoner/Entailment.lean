import FixedDomain.Proofs.Grounding.Query
import FixedDomain.Proofs.Reasoner.Encoding

/-! # Entailment

An axiom is entailed if it is true in all interpretations that extend a decoded model by anything for
the names without a symbol (`isEntailed_iff`). Over a small domain those are the interpretations that
respect all axioms (`Encoded.exists_extends_iff`), and the program for the violations of an axiom
has an answer set if the axiom is false in one of them (`Encoded.violationProgram_realizes`).
-/

namespace FixedDomain

/-- An interpretation over the domain of a context extends a model: on all names with a symbol they
agree. -/
structure Interpretation.Extends (I : Interpretation Individual) (c : Context) (m : Model) : Prop
    extends I.OverDomain c.domain where
  classes : ∀ iri, c.Knows (.atomicClass iri) → ∀ i ∈ c.domain.elements,
    (i ∈ I.classes iri ↔ m.hasClass i iri = true)
  properties : ∀ iri, c.Knows (.objectProperty iri) → ∀ i ∈ c.domain.elements,
    ∀ j ∈ c.domain.elements, (I.properties iri i j ↔ m.hasProperty i iri j = true)

namespace Reasoner

variable {o : Ontology} {d : Domain} {e : Encoding} {κ : Context} {I : Interpretation Individual}

/-! ## Extensions of decoded models -/

namespace Encoded

variable (h : Encoded o d e κ)

include h

/-- An interpretation extends the decoding of an answer set if they agree on all atoms over
symbols. -/
theorem extends_decode_iff {A : AnswerSet} (hA : e.complete.IsAnswerSet A.toSet) :
    I.Extends κ (κ.decode A none) ↔
      I.OverDomain κ.domain ∧ ∀ a ψ, κ.States a ψ → (a ∈ A ↔ ψ (κ.evaluate I)) := by
  have hdecode := h.interpretation_decode hA
  have hclass : ∀ i iri, (κ.decode A none).hasClass i iri = true ↔
      i ∈ (κ.interpret A.toSet).classes iri := fun i iri => by rw [← hdecode]; rfl
  have hproperty : ∀ i iri j, (κ.decode A none).hasProperty i iri j = true ↔
      (κ.interpret A.toSet).properties iri i j := fun i iri j => by rw [← hdecode]; rfl
  constructor
  · intro hI
    refine ⟨hI.toOverDomain, fun a ψ ha => (ha.mem_iff_interpret h.ready).trans ?_⟩
    cases ha with
    | @member iri s x hs hx =>
      have hknown := Option.ne_none_iff_exists'.2 ⟨s, hs⟩
      have hi := h.ready.exists_element_iff.1 ⟨x, hx, rfl⟩
      exact ((hI.classes iri hknown _ hi).trans (hclass _ _)).symm
    | @leads iri s x y hs hx hy =>
      have hknown := Option.ne_none_iff_exists'.2 ⟨s, hs⟩
      have hi := h.ready.exists_element_iff.1 ⟨x, hx, rfl⟩
      have hj := h.ready.exists_element_iff.1 ⟨y, hy, rfl⟩
      exact ((hI.properties iri hknown _ hi _ hj).trans (hproperty _ _ _)).symm
  · rintro ⟨hover, hstates⟩
    refine ⟨hover, fun iri hknown i hi => ?_, fun iri hknown i hi j hj => ?_⟩
    · obtain ⟨s, hs⟩ := Option.ne_none_iff_exists'.1 hknown
      obtain ⟨x, hx, rfl⟩ := h.ready.exists_element_iff.2 hi
      have ha := Context.States.member hs hx
      exact ((hstates _ _ ha).symm.trans (ha.mem_iff_interpret h.ready)).trans (hclass _ _).symm
    · obtain ⟨s, hs⟩ := Option.ne_none_iff_exists'.1 hknown
      obtain ⟨x, hx, rfl⟩ := h.ready.exists_element_iff.2 hi
      obtain ⟨y, hy, rfl⟩ := h.ready.exists_element_iff.2 hj
      have ha := Context.States.leads hs hx hy
      exact ((hstates _ _ ha).symm.trans (ha.mem_iff_interpret h.ready)).trans
        (hproperty _ _ _).symm

/-- The interpretations that extend a decoded model are those over the domain, if it is small, that
respect all axioms. -/
theorem exists_extends_iff (hsize : d.size < UInt32.size - 1) :
    (∃ A : AnswerSet, e.complete.IsAnswerSet A.toSet ∧ I.Extends κ (κ.decode A none)) ↔
      I.OverDomain d ∧ ∀ a ∈ o.axioms, I.Respects a := by
  constructor
  · rintro ⟨A, hA, hI⟩
    obtain ⟨hover, hstates⟩ := (h.extends_decode_iff hA).1 hI
    have hφ := (h.realizes.describes h.ready hA (Context.admits_evaluate hover) hstates).2.1
    rw [h.domain] at hover
    exact ⟨hover, fun a ha => (κ.respects_evaluate_iff (hover.isSmall hsize) a).1 (hφ a ha)⟩
  · rintro ⟨hover, hφ⟩
    have hsmall := hover.isSmall hsize
    rw [← h.domain] at hover
    have hadmits := Context.admits_evaluate hover
    have hS := h.realizes.isAnswerSet_truth h.ready hadmits fun a ha =>
      (κ.respects_evaluate_iff hsmall a).2 (hφ a ha)
    obtain ⟨A, hA⟩ := hS.exists_answerSet
    rw [← hA] at hS
    refine ⟨A, hS, (h.extends_decode_iff hS).2 ⟨hover, fun a ψ ha => ?_⟩⟩
    have hdescribes := Context.describes_truth h.ready hadmits h.realizes.switches
    rw [← hA] at hdescribes
    exact (hdescribes.states a ψ ha).1

end Encoded

/-! ## Violations -/

theorem nextQuery_not_mem_activations (c : Context) (ks : List Nat) :
    Grounding.nextQuery c ∉ Context.activations ks := by
  rintro ⟨k, -, heq⟩
  have harguments := congrArg Atom.arguments heq
  cases harguments

section Violations

variable {a : Axiom} (h : Encoded o d e κ)

include h

/-- The program for the violations of an axiom, if there is one, is about the evaluations in which all
axioms are respected and this one is false. -/
theorem Encoded.realizes_of_violationProgram {settings : Settings} {p : Program}
    (hp : violationProgram ⟨o, settings, κ, e, false⟩ a = .ok p) :
    ∃ (κ' : Context) (F : Set Atom), κ'.Ready ∧ (∀ I, κ'.Admits I ↔ κ.Admits I) ∧
      κ'.Realizes p F fun I => (∀ b ∈ o.axioms, I.Respects b) ∧ ¬ I.Satisfies a := by
  have ha : a.IsSupported := by
    cases a with
    | unsupported keyword source => cases hp
    | _ => trivial
  have hwitnesses := Grounding.witnesses_meets (V := {v | v ∈ Grounding.entities a}) ha
    (fun _ hv => hv) h.ready
  have hviolation : violationProgram ⟨o, settings, κ, e, false⟩ a =
      ((Grounding.negatedQuery a).exec κ).1.map (e.complete ++ ·) := by
    simp only [violationProgram, Grounding.exec]
    rcases (Grounding.negatedQuery a).run κ with ⟨_ | _, _⟩ <;> rfl
  rw [hviolation] at hp
  rcases hrun : (Grounding.witnesses a).exec κ with ⟨error | bodies, κ'⟩
  · unfold Grounding.negatedQuery at hp
    rw [Grounding.exec_bind, hrun] at hp
    cases hp
  · have hgrows := hwitnesses.grows
    have hbodies := hwitnesses.ok bodies (by rw [hrun])
    rw [hrun] at hgrows hbodies
    obtain ⟨fragment, hfragment, hrules⟩ := Grounding.exec_negatedQuery hrun
    rw [hfragment] at hp
    cases hp
    obtain ⟨background, arranged, hb, harranged, hprogram⟩ := h.realizes
    -- what the witnesses made pending goes into the fragment, so the background stays complete
    refine ⟨κ', insert (Grounding.nextQuery κ') (Context.activations e.positions), hgrows.ready,
      fun I => ?_, background ++ κ'.pending.rules, _,
      hgrows.background background ?_, (harranged.mono hgrows.le).query hgrows.ready (.query _)
        (nextQuery_not_mem_activations κ' _) hbodies, fun r => ?_⟩
    · exact Context.admits_congr hgrows.domain (Context.isDirect_eq hgrows.le)
    · rw [h.settled, List.append_nil]
      exact hb
    · rw [Program.rules_append, hrules]
      simp only [List.mem_append, hprogram]
      tauto

variable (ha : a.IsSupported) (hi : ∀ i ∈ a.individualsAsserted, i ∈ d.elements)

include ha hi

/-- There is a program for the violations of a supported axiom over the domain. -/
theorem Encoded.violationProgram_realizes (settings : Settings) :
    ∃ (p : Program) (κ' : Context) (F : Set Atom),
      violationProgram ⟨o, settings, κ, e, false⟩ a = .ok p ∧ κ'.Ready ∧
        (∀ I, κ'.Admits I ↔ κ.Admits I) ∧
        κ'.Realizes p F fun I => (∀ b ∈ o.axioms, I.Respects b) ∧ ¬ I.Satisfies a := by
  have hwitnesses := Grounding.witnesses_meets (V := {v | v ∈ Grounding.entities a}) ha
    (fun _ hv => hv) h.ready
  rcases hrun : (Grounding.witnesses a).exec κ with ⟨error | bodies, κ'⟩
  · obtain ⟨i, hmem, hout⟩ := hwitnesses.error error (by rw [hrun])
    exact absurd (h.domain ▸ hi i (mem_individualsAsserted_iff.2 hmem)) hout
  · obtain ⟨fragment, hfragment, -⟩ := Grounding.exec_negatedQuery hrun
    have hp : violationProgram ⟨o, settings, κ, e, false⟩ a = .ok (e.complete ++ fragment) := by
      rcases hquery : (Grounding.negatedQuery a).exec κ with ⟨_ | fragment', κ''⟩
      · rw [hquery] at hfragment
        cases hfragment
      · rw [hquery] at hfragment
        cases hfragment
        simp only [violationProgram]
        rw [show (Grounding.negatedQuery a).run κ = _ from hquery]
        rfl
    obtain ⟨κ'', F, hrealizes⟩ := h.realizes_of_violationProgram hp
    exact ⟨_, κ'', F, hp, hrealizes⟩

/-- The solver of this library finds out whether an axiom is false in an evaluation that respects all
axioms. -/
theorem Encoded.satisfiable_violationProgram {settings : Settings}
    (htime : settings.timeoutMilliseconds = none) :
    ∃ p b, violationProgram ⟨o, settings, κ, e, false⟩ a = .ok p ∧
      (satisfiable ⟨o, settings, κ, e, false⟩ (Solver.builtin Id) p).run = .ok b ∧
      (b = true ↔ ∃ I, κ.Admits I ∧ (∀ b ∈ o.axioms, I.Respects b) ∧ ¬ I.Satisfies a) := by
  obtain ⟨p, κ', F, hp, hready, hadmits, hrealizes⟩ := h.violationProgram_realizes ha hi settings
  obtain ⟨b, hrun, hb⟩ := satisfiable_builtin (r := ⟨o, settings, κ, e, false⟩) rfl htime
    hrealizes.not_nestsCounts
  refine ⟨p, b, hp, hrun, ?_⟩
  simp only [hb, hrealizes.exists_isAnswerSet_iff hready, hadmits]

end Violations

/-! ## Entailment -/

theorem isEntailed_cons {r : Reasoner} {a : Axiom} {rest : List Axiom} {p : Program}
    {violated : Bool} (hp : r.violationProgram a = .ok p)
    (hrun : (r.satisfiable (Solver.builtin Id) p).run = .ok violated) :
    (r.isEntailed (Solver.builtin Id) (a :: rest)).run =
      if violated then .ok false else (r.isEntailed (Solver.builtin Id) rest).run := by
  rw [isEntailed, hp]
  change ExceptT.bindCont _ (r.satisfiable (Solver.builtin Id) p).run = _
  rw [hrun]
  cases violated <;> rfl

/-- The solver of this library finds out whether all axioms of a query are true in the evaluations that
respect all axioms. -/
theorem Encoded.isEntailed_builtin (h : Encoded o d e κ) {settings : Settings}
    (htime : settings.timeoutMilliseconds = none) {query : List Axiom}
    (hs : ∀ a ∈ query, a.IsSupported)
    (hi : ∀ a ∈ query, ∀ i ∈ a.individualsAsserted, i ∈ d.elements) :
    ∃ b, (isEntailed ⟨o, settings, κ, e, false⟩ (Solver.builtin Id) query).run = .ok b ∧
      (b = true ↔ ∀ a ∈ query, ∀ I, κ.Admits I → (∀ b ∈ o.axioms, I.Respects b) →
        I.Satisfies a) := by
  induction query with
  | nil => exact ⟨true, rfl, by simp⟩
  | cons a rest ih =>
    obtain ⟨ha, hrest⟩ := List.forall_mem_cons.1 hs
    obtain ⟨hia, hirest⟩ := List.forall_mem_cons.1 hi
    obtain ⟨p, violated, hp, hrun, hviolated⟩ := h.satisfiable_violationProgram ha hia htime
    obtain ⟨b, hrunrest, hb⟩ := ih hrest hirest
    rw [isEntailed_cons hp hrun]
    -- the first axiom that can be violated settles the answer
    cases violated with
    | true =>
      obtain ⟨I, hadmits, hφ, hfalse⟩ := hviolated.1 rfl
      refine ⟨false, rfl, iff_of_false Bool.false_ne_true fun hall => hfalse ?_⟩
      exact hall a List.mem_cons_self I hadmits hφ
    | false =>
      refine ⟨b, hrunrest, hb.trans ?_⟩
      rw [List.forall_mem_cons]
      refine (and_iff_right fun I hadmits hφ => ?_).symm
      by_contra hfalse
      exact Bool.false_ne_true (hviolated.2 ⟨I, hadmits, hφ, hfalse⟩)

/-- In a session over a small domain the solver of this library finds out whether all axioms of a query
are true in every interpretation that extends a decoded model. What extends it is free for names that
have no symbol, which are the names that only the query mentions if the signature has those of all
axioms. -/
theorem isEntailed_iff {listed : Option Ontology} {settings : Settings} {r : Reasoner}
    (hd : Domain.resolve o listed = .ok d) (hnew : new o listed settings = .ok r)
    (hsize : d.size < UInt32.size - 1) (htime : settings.timeoutMilliseconds = none)
    {query : List Axiom} (hs : ∀ a ∈ query, a.IsSupported)
    (hi : ∀ a ∈ query, ∀ i ∈ a.individualsAsserted, i ∈ d.elements) :
    (∃ b, (r.isEntailed (Solver.builtin Id) query).run = .ok b ∧
      (b = true ↔ ∀ A : AnswerSet, r.program.IsAnswerSet A.toSet →
        ∀ I : Interpretation Individual, I.Extends r.context (r.context.decode A none) →
          ∀ a ∈ query, I.Satisfies a)) ∧
    (∀ v, Grounding.HasName o.signature v → r.context.Knows v) ∧
    ∀ v, r.context.Knows v → Grounding.HasName o.signature v ∨ ∃ a ∈ o.axioms, v ∈ a.vocabulary := by
  obtain ⟨d', e, κ, hd', -, hencode, rfl⟩ := new_eq_ok_iff.1 hnew
  rw [hd] at hd'
  cases hd'
  have h := encoded_of_encode hencode
  refine ⟨?_, h.knows, fun v hv => (h.within v hv).imp_right fun ⟨a, ha, hmem⟩ =>
    ⟨a, ha, mem_vocabulary_of_mem_entities hmem⟩⟩
  obtain ⟨b, hrun, hb⟩ := h.isEntailed_builtin htime hs hi
  refine ⟨b, hrun, hb.trans ?_⟩
  constructor
  · intro hall A hA I hI a ha
    obtain ⟨hover, hφ⟩ := (h.exists_extends_iff hsize).1 ⟨A, hA, hI⟩
    have hsmall := hover.isSmall hsize
    rw [← κ.satisfies_evaluate_iff hsmall]
    exact hall a ha _ (Context.admits_evaluate (h.domain.symm ▸ hover)) fun b hb =>
      (κ.respects_evaluate_iff hsmall b).2 (hφ b hb)
  · intro hall a ha I hadmits hφ
    have hover : I.OverDomain d := h.domain ▸ hadmits.toOverDomain
    have hsmall := hover.isSmall hsize
    rw [Evaluation.satisfies_iff hsmall]
    obtain ⟨A, hA, hI⟩ := (h.exists_extends_iff hsize).2
      ⟨hover, fun b hb => (Evaluation.respects_iff hsmall b).1 (hφ b hb)⟩
    exact hall A hA _ hI a ha

theorem isEntailed_iff_family :
    let query : List Axiom := [.objectPropertyAssertion (.named ⟨"urn:family#hasChild"⟩)
        ⟨⟨"urn:family#ann"⟩⟩ ⟨⟨"urn:family#bob"⟩⟩,
      .classAssertion (.named ⟨"urn:family#Person"⟩) ⟨⟨"urn:family#bob"⟩⟩]
    ∃ r, new .family none { Settings.standard with strategy := .direct } = .ok r ∧
      (∃ b, (r.isEntailed (Solver.builtin Id) query).run = .ok b ∧
        (b = true ↔ ∀ A : AnswerSet, r.program.IsAnswerSet A.toSet →
          ∀ I : Interpretation Individual, I.Extends r.context (r.context.decode A none) →
            ∀ a ∈ query, I.Satisfies a)) ∧
      (∀ v, Grounding.HasName Ontology.family.signature v → r.context.Knows v) ∧
      ∀ v, r.context.Knows v → Grounding.HasName Ontology.family.signature v ∨
        ∃ a ∈ Ontology.family.axioms, v ∈ a.vocabulary := by
  intro query
  have hd : Domain.resolve .family none = .ok (.ofSet Ontology.family.assertedIndividuals) := rfl
  obtain ⟨e, κ, hencode, -⟩ := exists_encode Ontology.family_isSupported
    (Ontology.family_built.isCovered.mem_of_resolve hd) .plain .direct
  have hnew : new .family none { Settings.standard with strategy := .direct } = .ok _ :=
    new_eq_ok_iff.2 ⟨_, e, κ, hd, rfl, hencode, rfl⟩
  refine ⟨_, hnew, isEntailed_iff hd hnew Ontology.family_size rfl ?_ ?_⟩
  · simp [query, Axiom.IsSupported]
  · decide

/-! ## Asserted axioms -/

/-- An axiom that is respected is true, unless it says of an individual that it is different from
itself. -/
theorem satisfies_of_respects {I : Evaluation Individual} (hI : I.denote = id) {a : Axiom}
    (hrespects : I.Respects a) (hnodup : ∀ is, a = .differentIndividuals is → is.Nodup) :
    I.Satisfies a := by
  by_cases ha : ∃ is, a = .differentIndividuals is
  · obtain ⟨is, rfl⟩ := ha
    have hdifferent : is.Pairwise fun i j => I.denote i ≠ I.denote j := hI ▸ hnodup is rfl
    exact hdifferent
  · rwa [← I.respects_eq_satisfies (not_exists.1 ha)]

/-- Axioms of the ontology are true in all evaluations that respect it if none of them says of an
individual that it is different from itself, or if there are no such evaluations. -/
theorem Encoded.satisfies_asserted_iff (h : Encoded o d e κ) {query : List Axiom}
    (hquery : query ⊆ o.axioms) :
    (∀ a ∈ query, ∀ I, κ.Admits I → (∀ b ∈ o.axioms, I.Respects b) → I.Satisfies a) ↔
      (∀ is, .differentIndividuals is ∈ query → is.Nodup) ∨
        ∀ A : AnswerSet, ¬ e.complete.IsAnswerSet A.toSet := by
  constructor
  · intro hall
    by_contra hneither
    obtain ⟨hrepeats, hanswer⟩ := not_or.1 hneither
    obtain ⟨A, hA⟩ := not_forall_not.1 hanswer
    refine hrepeats fun is his => ?_
    -- an answer set describes an evaluation, in which individuals denote themselves
    have hadmits := Context.admits_interpret (S := A.toSet) h.ready
    have htrue := hall _ his _ hadmits (h.realizes.interpret h.ready hA).1
    have hdifferent : is.Pairwise fun i j => i ≠ j := htrue
    exact hdifferent
  · rintro (hnodup | hnone) a ha I hadmits hrespects
    · exact satisfies_of_respects hadmits.denote (hrespects a (hquery ha)) fun is heq =>
        hnodup is (heq ▸ ha)
    · have hS := h.realizes.isAnswerSet_truth h.ready hadmits hrespects
      obtain ⟨A, hA⟩ := hS.exists_answerSet
      exact absurd (hA ▸ hS) (hnone A)

theorem Encoded.isEntailed_asserted (h : Encoded o d e κ) (ho : o.IsCovered)
    (hs : ∀ a ∈ o.axioms, a.IsSupported) {listed : Option Ontology}
    (hd : Domain.resolve o listed = .ok d) {settings : Settings}
    (htime : settings.timeoutMilliseconds = none) {query : List Axiom} (hquery : query ⊆ o.axioms) :
    ∃ b, (isEntailed ⟨o, settings, κ, e, false⟩ (Solver.builtin Id) query).run = .ok b ∧
      (b = true ↔ (∀ is, .differentIndividuals is ∈ query → is.Nodup) ∨
        ∀ A : AnswerSet, ¬ e.complete.IsAnswerSet A.toSet) := by
  obtain ⟨b, hrun, hb⟩ := h.isEntailed_builtin htime (fun a ha => hs a (hquery ha))
    fun a ha => ho.mem_of_resolve hd a (hquery ha)
  exact ⟨b, hrun, hb.trans (h.satisfies_asserted_iff hquery)⟩

/-- In a session, whatever its strategy and its domain, axioms of the ontology are entailed exactly if
none of them says of an individual that it is different from itself, or if there is no model. The
rules of such an axiom leave out what its violation looks for. -/
theorem isEntailed_asserted_iff (ho : o.IsCovered) {listed : Option Ontology} {settings : Settings}
    {r : Reasoner} (hnew : new o listed settings = .ok r)
    (htime : settings.timeoutMilliseconds = none) {query : List Axiom} (hquery : query ⊆ o.axioms) :
    ∃ b, (r.isEntailed (Solver.builtin Id) query).run = .ok b ∧
      (b = true ↔ (∀ is, .differentIndividuals is ∈ query → is.Nodup) ∨
        ∀ A : AnswerSet, ¬ r.program.IsAnswerSet A.toSet) := by
  obtain ⟨d, e, κ, hd, -, hencode, rfl⟩ := new_eq_ok_iff.1 hnew
  have hs := Grounding.supported_of_groundOntology (congrArg Prod.fst (encode_eq_ok_iff.1 hencode))
  exact (encoded_of_encode hencode).isEntailed_asserted ho hs hd htime hquery

theorem isEntailed_asserted_iff_family : ∃ r,
    new .family none { Settings.standard with strategy := .debug } = .ok r ∧
      (r.isEntailed (Solver.builtin Id) Ontology.family.axioms).run = .ok true := by
  have hd : Domain.resolve .family none = .ok (.ofSet Ontology.family.assertedIndividuals) := rfl
  obtain ⟨e, κ, hencode, -⟩ := exists_encode Ontology.family_isSupported
    (Ontology.family_built.isCovered.mem_of_resolve hd) .plain .debug
  have hnew : new .family none { Settings.standard with strategy := .debug } = .ok _ :=
    new_eq_ok_iff.2 ⟨_, e, κ, hd, rfl, hencode, rfl⟩
  obtain ⟨b, hrun, hb⟩ := isEntailed_asserted_iff Ontology.family_built.isCovered hnew rfl
    (List.Subset.refl _)
  have hnodup : ∀ is, .differentIndividuals is ∈ Ontology.family.axioms → is.Nodup := by
    simp [Ontology.family, Ontology.ofAxioms, Ontology.add, Ontology.empty]
  exact ⟨_, hnew, hb.2 (.inl hnodup) ▸ hrun⟩

/-- The axiom that an individual is different from itself is not entailed by itself. -/
theorem not_isEntailed_self_different :
    let o : Ontology := .ofAxioms [.differentIndividuals [⟨⟨"urn:family#ann"⟩⟩, ⟨⟨"urn:family#ann"⟩⟩]]
    ∃ r, new o none Settings.standard = .ok r ∧
      (r.isEntailed (Solver.builtin Id) o.axioms).run = .ok false := by
  intro o
  have ho : o.IsCovered := (Ontology.Built.add (.header none [] .empty) _).isCovered
  have hs : ∀ a ∈ o.axioms, a.IsSupported := by
    simp [o, Ontology.ofAxioms, Ontology.add, Ontology.empty, Axiom.IsSupported]
  have hd : Domain.resolve o none = .ok (.ofSet o.assertedIndividuals) := rfl
  obtain ⟨e, κ, hencode, h⟩ := exists_encode hs (ho.mem_of_resolve hd) .plain .naive
  have htime : Settings.standard.timeoutMilliseconds = none := rfl
  obtain ⟨b, hrun, hb⟩ := h.isEntailed_asserted ho hs hd htime (List.Subset.refl _)
  -- the axiom has no rules, so every evaluation respects the ontology
  have hall : ∀ a ∈ o.axioms, (κ.interpret ∅).Respects a := by
    simp [o, Ontology.ofAxioms, Ontology.add, Ontology.empty, Evaluation.Respects, Axiom.restated,
      Interpretation.Respects]
  have hS := h.realizes.isAnswerSet_truth h.ready (Context.admits_interpret h.ready) hall
  obtain ⟨A, hA⟩ := hS.exists_answerSet
  have hfalse : b = false := by
    rw [Bool.eq_false_iff, Ne, hb]
    rintro (hnodup | hnone)
    · simpa using hnodup _ List.mem_cons_self
    · exact hnone A (hA ▸ hS)
  exact ⟨_, new_eq_ok_iff.2 ⟨_, e, κ, hd, rfl, hencode, rfl⟩, hfalse ▸ hrun⟩

end Reasoner

end FixedDomain
