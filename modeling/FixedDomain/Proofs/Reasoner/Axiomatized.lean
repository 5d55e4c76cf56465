import FixedDomain.Proofs.Closure
import FixedDomain.Proofs.Reasoner.Activation

/-! # Sessions over an ontology with its domain

Over a fixed domain the closure axioms say nothing new, so stating the domain by axioms does not change
which evaluations respect the axioms (`Domain.respects_axiomatize_iff`). The domain is found again, the
names get the same symbols, and so a session over the ontology with its domain has the verdict and the
decoded models of a session over the ontology (`Reasoner.axiomatize_keeps_models`).
-/

namespace FixedDomain

/-! ## Respected axioms -/

theorem Domain.respects_of_mem_closureAxioms {d : Domain} {I : Evaluation Individual}
    (hI : I.OverDomain d) {a : Axiom} (ha : a ∈ d.closureAxioms) : I.Respects a := by
  rcases mem_closureAxioms.1 ha with ⟨i, -, rfl⟩ | ⟨-, rfl⟩ | rfl
  · trivial
  · trivial
  · intro x hx _
    rw [hI.domain] at hx
    exact ⟨x, hx, congrFun hI.denote x⟩

theorem Domain.respects_axiomatize_iff {o : Ontology} {d : Domain} {I : Evaluation Individual}
    (hI : I.OverDomain d) :
    (∀ a ∈ (d.axiomatize o).axioms, I.Respects a) ↔ ∀ a ∈ o.axioms, I.Respects a := by
  refine ⟨fun h a ha => h a (mem_axioms_axiomatize.2 (.inl ha)), fun h a ha => ?_⟩
  exact (mem_axioms_axiomatize.1 ha).elim (h a) (respects_of_mem_closureAxioms hI)

/-! ## Encodings -/

namespace Reasoner

variable {o o' : Ontology} {d d' : Domain} {e e' : Encoding} {κ κ' : Context}

/-- The decoded models of an encoding are among those of another under the same strategy, with the same
symbols, if the axioms of the other are respected wherever those of the one are. -/
theorem Encoded.image_decode_subset (h : Encoded o d e κ) (h' : Encoded o' d' e' κ')
    (hsame : Grounding.SameSymbols κ κ') (hstrategy : κ'.strategy = κ.strategy)
    (himp : ∀ I : Evaluation Individual, I.OverDomain d → (∀ a ∈ o.axioms, I.Respects a) →
      ∀ a ∈ o'.axioms, I.Respects a) (projection : Option (SortedSet Iri)) :
    (fun A : AnswerSet => κ.decode A projection) '' {A | e.complete.IsAnswerSet A.toSet} ⊆
      (fun A : AnswerSet => κ'.decode A projection) '' {A | e'.complete.IsAnswerSet A.toSet} := by
  have hdirect : κ'.isDirect = κ.isDirect := by rw [Context.isDirect, hstrategy, Context.isDirect]
  -- both contexts count successors alike
  have hevaluate : ∀ I, κ.Admits I → κ'.evaluate I.toInterpretation = I := by
    intro I hI
    rw [Context.evaluate, hdirect, ← hI.counts]
  rintro _ ⟨A, hA, rfl⟩
  obtain ⟨A', hA', hdecode⟩ := h.realizes.exists_decode_eq h'.realizes h.ready h'.ready hsame
    (fun I hI hrespects => by
      rw [hevaluate I hI]
      exact himp I (h.domain ▸ hI.toOverDomain) hrespects) hA
  exact ⟨A', hA', hdecode projection⟩

/-! ## Sessions -/

/-- Sessions under the same settings have the same verdict if there is a model for the one exactly if
there is one for the other. -/
theorem exists_verdict (r r' : Reasoner) (hcancelled : r.cancelled = false)
    (hcancelled' : r'.cancelled = false) (hsettings : r'.settings = r.settings)
    (hp : ¬ r.program.NestsCounts) (hp' : ¬ r'.program.NestsCounts)
    (hiff : (∃ A : AnswerSet, r.program.IsAnswerSet A.toSet) ↔
      ∃ A : AnswerSet, r'.program.IsAnswerSet A.toSet) :
    ∃ verdict, (r.isConsistent (Solver.builtin Id)).run = verdict ∧
      (r'.isConsistent (Solver.builtin Id)).run = verdict ∧
      (r.settings.timeout ≠ some .zero → ∃ b, verdict = .ok b ∧
        (b = true ↔ ∃ A : AnswerSet, r.program.IsAnswerSet A.toSet)) := by
  obtain ⟨b, hb, hrun⟩ := satisfiable_builtin_eq hcancelled hp
  obtain ⟨b', hb', hrun'⟩ := satisfiable_builtin_eq hcancelled' hp'
  rw [Program.exists_isAnswerSet_iff] at hb hb'
  obtain rfl : b = b' := Bool.eq_iff_iff.2 (hb.trans (hiff.trans hb'.symm))
  rw [hsettings] at hrun'
  exact ⟨_, hrun, hrun', fun htime => ⟨b, if_neg htime, hb⟩⟩

/-- Stating the domain by axioms keeps what a session finds. The domain is found again; a session over
the ontology with its domain has the verdict of one over the ontology under the same settings, which is
whether there is a model unless no time is allowed, and the same decoded models; and stating the domain
once more adds nothing. -/
theorem axiomatize_keeps_models (ho : o.Built) {listed : Option Ontology}
    (hd : Domain.resolve o listed = .ok d) {scheme : NamingScheme} {strategy : Strategy}
    {translation : Encoding × Context} (htranslates : encode o d scheme strategy = .ok translation) :
    (∃ d', Domain.resolve (d.axiomatize o) none = .ok d' ∧ d'.elements = d.elements) ∧
    (∀ settings : Settings, checkSize d settings.maxDomainSize = .ok () → ∃ r r' verdict,
      new o listed settings = .ok r ∧ new (d.axiomatize o) none settings = .ok r' ∧
      (r.isConsistent (Solver.builtin Id)).run = verdict ∧
      (r'.isConsistent (Solver.builtin Id)).run = verdict ∧
      (settings.timeout ≠ some .zero → ∃ b, verdict = .ok b ∧
        (b = true ↔ ∃ A : AnswerSet, r.program.IsAnswerSet A.toSet)) ∧
      ∀ projection, (fun A : AnswerSet => r.context.decode A projection) ''
          {A | r.program.IsAnswerSet A.toSet} =
        (fun A : AnswerSet => r'.context.decode A projection) ''
          {A | r'.program.IsAnswerSet A.toSet}) ∧
    (d.axiomatize (d.axiomatize o)).axioms = (d.axiomatize o).axioms := by
  have hnamed := ho.isCovered.mem_of_resolve hd
  have hresolve := Domain.resolve_axiomatize hnamed
  have ho' := d.built_axiomatize o
  have hs : ∀ a ∈ o.axioms, a.IsSupported := supported_of_encode htranslates
  refine ⟨⟨_, hresolve, d.elements_ofSet⟩, fun settings hlimit => ?_,
    d.axioms_axiomatize_axiomatize o⟩
  obtain ⟨e, κ, hencode, h⟩ := exists_encode hs hnamed settings.naming settings.strategy
  obtain ⟨e', κ', hencode', h'⟩ := exists_encode (Domain.isSupported_axiomatize hs)
    (ho'.isCovered.mem_of_resolve hresolve) settings.naming settings.strategy
  -- stating the domain adds no class and no property, so both contexts have the same symbols
  have hsame : Grounding.SameSymbols κ κ' :=
    sameSymbols_of_encode_congr ho.isCovered ho'.isCovered (Domain.classes_axiomatize ho)
      (Domain.objectProperties_axiomatize ho) d.elements_ofSet hencode hencode'
  have hstrategy : κ'.strategy = κ.strategy :=
    (strategy_of_encode hencode').trans (strategy_of_encode hencode).symm
  have hmodels : ∀ projection, (fun A : AnswerSet => κ.decode A projection) ''
        {A | e.complete.IsAnswerSet A.toSet} =
      (fun A : AnswerSet => κ'.decode A projection) '' {A | e'.complete.IsAnswerSet A.toSet} := by
    intro projection
    refine Set.Subset.antisymm
      (h.image_decode_subset h' hsame hstrategy (fun I hI => ?_) projection)
      (h'.image_decode_subset h hsame.symm hstrategy.symm (fun I hI => ?_) projection)
    · exact (Domain.respects_axiomatize_iff hI).2
    · exact (Domain.respects_axiomatize_iff (hI.congr d.elements_ofSet.symm)).1
  have hiff : (∃ A : AnswerSet, e.complete.IsAnswerSet A.toSet) ↔
      ∃ A : AnswerSet, e'.complete.IsAnswerSet A.toSet := by
    have := congrArg Set.Nonempty (hmodels none)
    rwa [Set.image_nonempty, Set.image_nonempty, eq_iff_iff] at this
  obtain ⟨verdict, hrun, hrun', hverdict⟩ := exists_verdict ⟨o, settings, κ, e, false⟩
    ⟨d.axiomatize o, settings, κ', e', false⟩ rfl rfl rfl h.realizes.not_nestsCounts
    h'.realizes.not_nestsCounts hiff
  have hlimit' : checkSize (.ofSet d.elements) settings.maxDomainSize = .ok () := by
    have hsize : (Domain.ofSet d.elements).size = d.size := by
      rw [Domain.size, Domain.elements_ofSet, Domain.size]
    unfold checkSize
    rwa [hsize]
  exact ⟨_, _, verdict, new_eq_ok_iff.2 ⟨d, e, κ, hd, hlimit, hencode, rfl⟩,
    new_eq_ok_iff.2 ⟨_, e', κ', hresolve, hlimit', hencode', rfl⟩, hrun, hrun', hverdict, hmodels⟩

theorem axiomatize_keeps_models_family :
    ∃ translation : Encoding × Context,
      encode .family (.ofSet Ontology.family.assertedIndividuals) .plain .naive = .ok translation ∧
      ∀ settings : Settings, settings.maxDomainSize = none → ∃ r r' verdict,
        new .family none settings = .ok r ∧
        new (Domain.axiomatize .family (.ofSet Ontology.family.assertedIndividuals)) none settings =
          .ok r' ∧
        (r.isConsistent (Solver.builtin Id)).run = verdict ∧
        (r'.isConsistent (Solver.builtin Id)).run = verdict ∧
        (settings.timeout ≠ some .zero → ∃ b, verdict = .ok b ∧
          (b = true ↔ ∃ A : AnswerSet, r.program.IsAnswerSet A.toSet)) ∧
        ∀ projection, (fun A : AnswerSet => r.context.decode A projection) ''
            {A | r.program.IsAnswerSet A.toSet} =
          (fun A : AnswerSet => r'.context.decode A projection) ''
            {A | r'.program.IsAnswerSet A.toSet} := by
  have hd : Domain.resolve .family none = .ok (.ofSet Ontology.family.assertedIndividuals) := rfl
  obtain ⟨e, κ, hencode, -⟩ := exists_encode Ontology.family_isSupported
    (Ontology.family_built.isCovered.mem_of_resolve hd) .plain .naive
  refine ⟨(e, κ), hencode, fun settings hlimit => ?_⟩
  exact (axiomatize_keeps_models Ontology.family_built hd hencode).2.1 settings (by rw [hlimit]; rfl)

end Reasoner

end FixedDomain
