import Mathlib.Data.Set.Function
import FixedDomain.Proofs.Reasoner.Encoding

/-! # Adequacy of the encodings

Under every strategy the answer sets of an encoding are, by their decodings, the interpretations of
the signature over the domain that respect all axioms (`Encoded.bijOn`). With no individual said to
be different from itself these are the models of the ontology (`naive_adequate`); without that
condition two strategies still have the same decoded models (`naive_direct_agree`).
-/

namespace FixedDomain

/-- Without repetitions among individuals that are said to be different, an axiom is respected
exactly when it is true. -/
theorem Interpretation.respects_iff {I : Interpretation Individual} (hI : I.denote = id)
    {a : Axiom} (ha : ∀ is, a = .differentIndividuals is → is.Nodup) :
    I.Respects a ↔ I.Satisfies a := by
  cases a with
  | differentIndividuals is =>
    apply iff_of_true trivial
    rw [Satisfies, hI]
    exact ha is rfl
  | _ => rfl

namespace Reasoner

variable {o : Ontology} {d : Domain} {e : Encoding} {κ : Context}

/-! ## Decoded models -/

namespace Encoded

variable (h : Encoded o d e κ)

include h

/-- The interpretation that a set of atoms describes is one of the signature. -/
theorem ofSignature_interpret (ho : o.IsCovered) (S : Set Atom) :
    (κ.interpret S).OfSignature d o.signature where
  toOverDomain := h.domain ▸ (Context.admits_interpret h.ready).toOverDomain
  classes iri i := by
    rintro ⟨s, hs, x, hx, rfl, -⟩
    refine ⟨(h.knows_iff ho (v := .atomicClass iri)).1 (Option.ne_none_iff_exists'.2 ⟨s, hs⟩), ?_⟩
    exact h.domain ▸ h.ready.exists_element_iff.1 ⟨x, hx, rfl⟩
  properties iri i j := by
    rintro ⟨s, hs, x, hx, y, hy, rfl, rfl, -⟩
    refine ⟨(h.knows_iff ho (v := .objectProperty iri)).1 (Option.ne_none_iff_exists'.2 ⟨s, hs⟩), ?_, ?_⟩
    · exact h.domain ▸ h.ready.exists_element_iff.1 ⟨x, hx, rfl⟩
    · exact h.domain ▸ h.ready.exists_element_iff.1 ⟨y, hy, rfl⟩

/-- An interpretation of the signature is the one that its description describes. -/
theorem interpret_eq {I : Interpretation Individual} (hI : I.OfSignature d o.signature)
    {S : Set Atom} (hS : κ.Describes (κ.evaluate I) S) : (κ.interpret S).toInterpretation = I := by
  obtain ⟨domain, denote, classes, properties⟩ := I
  have hdomain : domain = _ := hS.domain
  have hdenote : denote = id := hS.denote
  subst hdomain hdenote
  simp only [Context.interpret, Interpretation.mk.injEq, true_and]
  constructor
  · funext iri
    ext i
    constructor
    · rintro ⟨s, hs, x, hx, rfl, hmem⟩
      exact (hS.states _ _ (.member hs hx)).1.1 hmem
    · intro hi
      obtain ⟨hiri, hid⟩ := hI.classes iri i hi
      obtain ⟨s, hs⟩ := Option.ne_none_iff_exists'.1 (h.knows (.atomicClass iri) hiri)
      obtain ⟨x, hx, rfl⟩ := h.ready.exists_element_iff.2 (h.domain.symm ▸ hid)
      exact ⟨s, hs, x, hx, rfl, (hS.states _ _ (.member hs hx)).1.2 hi⟩
  · funext iri i j
    refine propext ⟨?_, fun hij => ?_⟩
    · rintro ⟨s, hs, x, hx, y, hy, rfl, rfl, hmem⟩
      exact (hS.states _ _ (.leads hs hx hy)).1.1 hmem
    · obtain ⟨hiri, hid, hjd⟩ := hI.properties iri i j hij
      obtain ⟨s, hs⟩ := Option.ne_none_iff_exists'.1 (h.knows (.objectProperty iri) hiri)
      obtain ⟨x, hx, rfl⟩ := h.ready.exists_element_iff.2 (h.domain.symm ▸ hid)
      obtain ⟨y, hy, rfl⟩ := h.ready.exists_element_iff.2 (h.domain.symm ▸ hjd)
      exact ⟨s, hs, x, hx, y, hy, rfl, rfl, (hS.states _ _ (.leads hs hx hy)).1.2 hij⟩

/-- Over a small domain decoding is one to one between the answer sets and the interpretations of the
signature that respect all axioms. -/
theorem bijOn (ho : o.IsCovered) (hsize : d.size < UInt32.size - 1) :
    Set.BijOn (fun A : AnswerSet => (κ.decode A none).interpretation d)
    {A | e.complete.IsAnswerSet A.toSet}
    {I | I.OfSignature d o.signature ∧ ∀ a ∈ o.axioms, I.Respects a} := by
  refine ⟨fun A hA => ?_, fun A hA A' hA' heq => ?_, fun I hI => ?_⟩
  · dsimp only
    rw [h.interpretation_decode hA]
    have hsignature := h.ofSignature_interpret ho A.toSet
    refine ⟨hsignature, fun a ha => ?_⟩
    rw [← Evaluation.respects_iff (hsignature.isSmall hsize)]
    exact (h.realizes.interpret h.ready hA).1 a ha
  -- an answer set is what is true in the interpretation that it describes
  · dsimp only at heq
    rw [h.interpretation_decode hA, h.interpretation_decode hA'] at heq
    apply AnswerSet.toSet_injective
    have hinterpret : κ.interpret A.toSet = κ.interpret A'.toSet := congrArg κ.evaluate heq
    rw [(h.realizes.interpret h.ready hA).2, (h.realizes.interpret h.ready hA').2, hinterpret]
  · have hadmits : κ.Admits (κ.evaluate I) :=
      Context.admits_evaluate (h.domain.symm ▸ hI.1.toOverDomain)
    have hS := h.realizes.isAnswerSet_truth h.ready hadmits fun a ha =>
      (κ.respects_evaluate_iff (hI.1.isSmall hsize) a).2 (hI.2 a ha)
    obtain ⟨A, hA⟩ := hS.exists_answerSet
    rw [← hA] at hS
    refine ⟨A, hS, ?_⟩
    dsimp only
    rw [h.interpretation_decode hS]
    apply h.interpret_eq hI.1
    rw [hA]
    exact Context.describes_truth h.ready hadmits h.realizes.switches

end Encoded

/-- The completed program of the naive encoding has, for each interpretation of the signature over the
domain in which all axioms are true, exactly one answer set that is decoded to it, and no others. -/
theorem naive_adequate (ho : o.Built) (hs : ∀ a ∈ o.axioms, a.IsSupported)
    (hdifferent : ∀ is, .differentIndividuals is ∈ o.axioms → is.Nodup) {listed : Option Ontology}
    (hd : Domain.resolve o listed = .ok d) (hsize : d.size < UInt32.size - 1)
    (scheme : NamingScheme) :
    ∃ e κ, encode o d scheme .naive = .ok (e, κ) ∧
      Set.BijOn (fun A : AnswerSet => (κ.decode A none).interpretation d)
        {A | e.complete.IsAnswerSet A.toSet}
        {I | I.OfSignature d o.signature ∧ ∀ a ∈ o.axioms, I.Satisfies a} := by
  obtain ⟨e, κ, hencode, h⟩ := exists_encode hs (ho.isCovered.mem_of_resolve hd) scheme .naive
  have hmodels : {I : Interpretation Individual | I.OfSignature d o.signature ∧
      ∀ a ∈ o.axioms, I.Satisfies a} =
      {I | I.OfSignature d o.signature ∧ ∀ a ∈ o.axioms, I.Respects a} := by
    ext I
    refine and_congr_right fun hI => forall₂_congr fun a ha => ?_
    exact (Interpretation.respects_iff hI.denote fun is heq => hdifferent is (heq ▸ ha)).symm
  exact ⟨e, κ, hencode, hmodels ▸ h.bijOn ho.isCovered hsize⟩

theorem naive_adequate_family : ∃ e κ,
    encode .family (.ofSet Ontology.family.assertedIndividuals) .plain .naive = .ok (e, κ) ∧
      Set.BijOn (fun A : AnswerSet => (κ.decode A none).interpretation
          (.ofSet Ontology.family.assertedIndividuals))
        {A | e.complete.IsAnswerSet A.toSet}
        {I | I.OfSignature (.ofSet Ontology.family.assertedIndividuals) Ontology.family.signature ∧
          ∀ a ∈ Ontology.family.axioms, I.Satisfies a} := by
  have hdifferent : ∀ is, .differentIndividuals is ∈ Ontology.family.axioms → is.Nodup := by
    simp [Ontology.family, Ontology.ofAxioms, Ontology.add, Ontology.empty]
  have hd : Domain.resolve .family none = .ok (.ofSet Ontology.family.assertedIndividuals) := rfl
  exact naive_adequate Ontology.family_built Ontology.family_isSupported hdifferent hd
    Ontology.family_size .plain

/-! ## Strategies -/

end Reasoner

/-- Every decoded model of a program is one of another program over the same symbols, if the sentence
of the one implies that of the other. -/
theorem Context.Realizes.exists_decode_eq {c c' : Context} {p p' : Program} {F F' : Set Atom}
    {φ φ' : Sentence} (h : c.Realizes p F φ) (h' : c'.Realizes p' F' φ') (hc : c.Ready)
    (hc' : c'.Ready) (hsame : Grounding.SameSymbols c c')
    (himp : ∀ I, c.Admits I → φ I → φ' (c'.evaluate I.toInterpretation)) {A : AnswerSet}
    (hA : p.IsAnswerSet A.toSet) :
    ∃ A' : AnswerSet, p'.IsAnswerSet A'.toSet ∧
      ∀ projection, c'.decode A' projection = c.decode A projection := by
  obtain ⟨hφ, hset⟩ := h.interpret hc hA
  have hadmits := Context.admits_interpret (S := A.toSet) hc
  -- what the first answer set describes is described by one of the other program
  have hS := h'.isAnswerSet_truth hc'
    (Context.admits_evaluate (hadmits.toOverDomain.congr hsame.domain)) (himp _ hadmits hφ)
  obtain ⟨A', hA'⟩ := hS.exists_answerSet
  refine ⟨A', hA' ▸ hS, fun projection =>
    Context.decode_congr hc hsame.domain hsame.naming fun a ha => ?_⟩
  have hmem : a ∈ A ↔ a ∈ c.truth (c.interpret A.toSet) ∪ _ := Set.ext_iff.1 hset a
  have hmem' : a ∈ A' ↔ a ∈ c'.truth (c'.evaluate _) ∪ _ := Set.ext_iff.1 hA' a
  rw [hmem, hmem', Context.mem_truth_iff h.switches ha, Context.mem_truth_iff h'.switches ha]
  refine exists_congr fun ψ => ?_
  rw [hsame.states_iff]
  exact and_congr_right fun hs => (hs.evaluate_iff c' _).symm

/-- Two programs over the same symbols whose sentences imply each other have the same decoded models,
each from exactly one answer set of either. -/
theorem Context.Realizes.exists_bijOn {c c' : Context} {p p' : Program} {F F' : Set Atom}
    {φ φ' : Sentence} (h : c.Realizes p F φ) (h' : c'.Realizes p' F' φ') (hc : c.Ready)
    (hc' : c'.Ready) (hsame : Grounding.SameSymbols c c')
    (himp : ∀ I, c.Admits I → φ I → φ' (c'.evaluate I.toInterpretation))
    (himp' : ∀ I, c'.Admits I → φ' I → φ (c.evaluate I.toInterpretation)) :
    ∃ models : Set Model,
      Set.BijOn (fun A : AnswerSet => c.decode A none) {A | p.IsAnswerSet A.toSet} models ∧
      Set.BijOn (fun A : AnswerSet => c'.decode A none) {A | p'.IsAnswerSet A.toSet} models := by
  refine ⟨_, (h.injOn_decode hc).bijOn_image, fun A hA => ?_, h'.injOn_decode hc', ?_⟩
  · obtain ⟨A', hA', heq⟩ := h'.exists_decode_eq h hc' hc hsame.symm himp' hA
    exact ⟨A', hA', heq none⟩
  · rintro _ ⟨A, hA, rfl⟩
    obtain ⟨A', hA', heq⟩ := h.exists_decode_eq h' hc hc' hsame himp hA
    exact ⟨A', hA', heq none⟩

/-- Over a small domain an axiom is respected alike under all strategies. -/
theorem Context.Admits.respects_iff {c : Context} {I : Evaluation Individual} (hI : c.Admits I)
    (hsize : c.domain.size < UInt32.size - 1) (c' : Context) (a : Axiom) :
    (c'.evaluate I.toInterpretation).Respects a ↔ I.Respects a := by
  have hsmall := hI.toOverDomain.isSmall hsize
  rw [Context.respects_evaluate_iff hsmall, Evaluation.respects_iff hsmall]

namespace Reasoner

/-- Over a small domain every decoded model of an encoding is one of another encoding with the same
symbols. -/
theorem Encoded.exists_decode_eq {e' : Encoding} {κ' : Context} (h : Encoded o d e κ)
    (h' : Encoded o d e' κ') (hsize : d.size < UInt32.size - 1)
    (hsame : Grounding.SameSymbols κ κ') {A : AnswerSet} (hA : e.complete.IsAnswerSet A.toSet) :
    ∃ A' : AnswerSet, e'.complete.IsAnswerSet A'.toSet ∧ κ'.decode A' none = κ.decode A none := by
  obtain ⟨A', hA', heq⟩ := h.realizes.exists_decode_eq h'.realizes h.ready h'.ready hsame
    (fun _ hI hφ a ha => (hI.respects_iff (h.domain ▸ hsize) κ' a).2 (hφ a ha)) hA
  exact ⟨A', hA', heq none⟩

/-- The solver of this library finds out whether an encoding has an answer set. -/
theorem Encoded.isConsistent_builtin (h : Encoded o d e κ) (settings : Settings)
    (htime : settings.timeoutMilliseconds = none) :
    ∃ b, (isConsistent ⟨o, settings, κ, e, false⟩ (Solver.builtin Id)).run = .ok b ∧
      (b = true ↔ ∃ A : AnswerSet, e.complete.IsAnswerSet A.toSet) := by
  obtain ⟨b, hrun, hb⟩ := satisfiable_builtin (r := ⟨o, settings, κ, e, false⟩) rfl htime
    h.realizes.not_nestsCounts
  exact ⟨b, hrun, hb.trans Program.exists_isAnswerSet_iff⟩

/-- The answer sets of the naive and of the direct encoding are decoded to the same models, each from
exactly one answer set of either; so sessions that differ in this strategy agree on consistency. -/
theorem naive_direct_agree (ho : o.Built) (hs : ∀ a ∈ o.axioms, a.IsSupported)
    {listed : Option Ontology} (hd : Domain.resolve o listed = .ok d)
    (hsize : d.size < UInt32.size - 1) (scheme : NamingScheme) :
    ∃ e₁ κ₁ e₂ κ₂, encode o d scheme .naive = .ok (e₁, κ₁) ∧
      encode o d scheme .direct = .ok (e₂, κ₂) ∧ ∃ models : Set Model,
        Set.BijOn (fun A : AnswerSet => κ₁.decode A none)
          {A | e₁.complete.IsAnswerSet A.toSet} models ∧
        Set.BijOn (fun A : AnswerSet => κ₂.decode A none)
          {A | e₂.complete.IsAnswerSet A.toSet} models ∧
        ∀ settings : Settings, settings.naming = scheme → settings.timeoutMilliseconds = none →
          checkSize d settings.maxDomainSize = .ok () →
          ∃ r₁ r₂ b, new o listed { settings with strategy := .naive } = .ok r₁ ∧
            new o listed { settings with strategy := .direct } = .ok r₂ ∧
            (r₁.isConsistent (Solver.builtin Id)).run = .ok b ∧
            (r₂.isConsistent (Solver.builtin Id)).run = .ok b ∧
            (b = true ↔ models.Nonempty) := by
  obtain ⟨e₁, κ₁, he₁, h₁⟩ := exists_encode hs (ho.isCovered.mem_of_resolve hd) scheme .naive
  obtain ⟨e₂, κ₂, he₂, h₂⟩ := exists_encode hs (ho.isCovered.mem_of_resolve hd) scheme .direct
  have hsame : Grounding.SameSymbols κ₁ κ₂ := by
    have := Grounding.sameSymbols_strategies hs (fun _ ha _ hv =>
      hasName_of_mem_entities ho.isCovered ha hv) d scheme .naive .direct
    rwa [encode_eq_ok_iff.1 he₁, encode_eq_ok_iff.1 he₂] at this
  refine ⟨e₁, κ₁, e₂, κ₂, he₁, he₂, _, (h₁.realizes.injOn_decode h₁.ready).bijOn_image,
    ⟨fun A hA => ?_, h₂.realizes.injOn_decode h₂.ready, ?_⟩, fun settings hscheme htime hlimit => ?_⟩
  · obtain ⟨A', hA', heq⟩ := h₂.exists_decode_eq h₁ hsize hsame.symm hA
    exact ⟨A', hA', heq⟩
  · rintro _ ⟨A, hA, rfl⟩
    obtain ⟨A', hA', heq⟩ := h₁.exists_decode_eq h₂ hsize hsame hA
    exact ⟨A', hA', heq⟩
  · subst hscheme
    have hnew₁ : new o listed { settings with strategy := .naive } = .ok _ :=
      new_eq_ok_iff.2 ⟨d, e₁, κ₁, hd, hlimit, he₁, rfl⟩
    have hnew₂ : new o listed { settings with strategy := .direct } = .ok _ :=
      new_eq_ok_iff.2 ⟨d, e₂, κ₂, hd, hlimit, he₂, rfl⟩
    obtain ⟨b₁, hrun₁, hb₁⟩ :=
      h₁.isConsistent_builtin { settings with strategy := .naive } htime
    obtain ⟨b₂, hrun₂, hb₂⟩ :=
      h₂.isConsistent_builtin { settings with strategy := .direct } htime
    -- a decoded model of one strategy gives one of the other
    have hb : b₁ = b₂ := by
      rw [Bool.eq_iff_iff, hb₁, hb₂]
      constructor
      · rintro ⟨A, hA⟩
        obtain ⟨A', hA', -⟩ := h₁.exists_decode_eq h₂ hsize hsame hA
        exact ⟨A', hA'⟩
      · rintro ⟨A, hA⟩
        obtain ⟨A', hA', -⟩ := h₂.exists_decode_eq h₁ hsize hsame.symm hA
        exact ⟨A', hA'⟩
    exact ⟨_, _, b₁, hnew₁, hnew₂, hrun₁, hb ▸ hrun₂, hb₁.trans Set.image_nonempty.symm⟩

theorem naive_direct_agree_family : ∃ e₁ κ₁ e₂ κ₂,
    encode .family (.ofSet Ontology.family.assertedIndividuals) .aspCore .naive = .ok (e₁, κ₁) ∧
      encode .family (.ofSet Ontology.family.assertedIndividuals) .aspCore .direct =
        .ok (e₂, κ₂) ∧
      ∃ models : Set Model,
        Set.BijOn (fun A : AnswerSet => κ₁.decode A none)
          {A | e₁.complete.IsAnswerSet A.toSet} models ∧
        Set.BijOn (fun A : AnswerSet => κ₂.decode A none)
          {A | e₂.complete.IsAnswerSet A.toSet} models ∧
        ∃ r₁ r₂ b, new .family none { Settings.standard with naming := .aspCore } = .ok r₁ ∧
          new .family none { Settings.standard with naming := .aspCore, strategy := .direct } =
            .ok r₂ ∧
          (r₁.isConsistent (Solver.builtin Id)).run = .ok b ∧
          (r₂.isConsistent (Solver.builtin Id)).run = .ok b ∧ (b = true ↔ models.Nonempty) := by
  have hd : Domain.resolve .family none = .ok (.ofSet Ontology.family.assertedIndividuals) := rfl
  obtain ⟨e₁, κ₁, e₂, κ₂, he₁, he₂, models, hnaive, hdirect, hconsistent⟩ :=
    naive_direct_agree Ontology.family_built Ontology.family_isSupported hd Ontology.family_size
      .aspCore
  exact ⟨e₁, κ₁, e₂, κ₂, he₁, he₂, models, hnaive, hdirect,
    hconsistent { Settings.standard with naming := .aspCore } rfl rfl rfl⟩

end Reasoner

end FixedDomain
