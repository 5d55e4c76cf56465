import FixedDomain.Proofs.Grounding.Ontology

/-! # Minimal models of encodings

The answer sets of an encoding are the minimal models of its reduct, where heads are not shifted and
counts are read in the submodel (`Context.Realizes.isMinimalAnswerSet_iff`).

A part of an answer set that is a model of the reduct has one of each symbol's atoms and their opposites,
since all symbols are total. The definitions, of which each is over earlier ones, then settle its
auxiliary atoms, so that it describes the same evaluation (`describes_of_modelsReduct`). All bodies are
read there as in the answer set, counts included, and nothing can be left out.
-/

namespace FixedDomain

namespace Context

variable {c : Context} {I : Evaluation Individual} {F S D : Set Atom} {φ : Sentence}
  {background arranged rules : List Rule}

/-- What is a model of the reduct in a described set describes the same. -/
theorem describes_of_modelsReduct (hb : c.Background background)
    (hmem : ∀ r ∈ background, r ∈ rules) (hS : c.Describes I S) (hD : D ⊆ S)
    (hmodel : ModelsReduct rules S D) : c.Describes I D := by
  refine describes_of_defined hS.counts hS.domain hS.denote (fun a φ ha => ?_)
    fun k d hd x hx hbefore => ?_
  · obtain ⟨htrue, hfalse⟩ := hS.states a φ ha
    -- the choice holds in the part, and only one alternative holds in the whole
    obtain ⟨b, hchosen, hbD⟩ := hmodel _ (hmem _ (hb.total a φ ha)) (bodyHolds_nil S S) (by simp [Rule.choice])
    simp only [Rule.choice, List.mem_cons, List.not_mem_nil, or_false] at hchosen
    refine ⟨⟨fun h => htrue.1 (hD h), fun h => ?_⟩, ⟨fun h => hfalse.1 (hD h), fun h => ?_⟩⟩
    · rcases hchosen with rfl | rfl
      · exact hbD
      · exact absurd h (hfalse.1 (hD hbD))
    · rcases hchosen with rfl | rfl
      · exact absurd (htrue.1 (hD hbD)) h
      · exact hbD
  · refine ⟨fun h => (hS.defined k d hd x hx).1 (hD h), fun h => ?_⟩
    have hk := (List.getElem?_eq_some_iff.1 hd).1
    obtain ⟨bodies, ⟨d', hd', -, he⟩, hrules⟩ := hb.defined k hk x hx
    rw [hd] at hd'
    cases hd'
    -- one of the defining bodies is true, and is so in the part as well
    have hbeforeS := hS.anti (before_le c k)
    obtain ⟨b, hbmem, hbody⟩ := (he.iff I S D hbeforeS hbefore).2 h
    have hself := he.determined b hbmem I S D S S hbeforeS hbefore hbeforeS hbeforeS hbody
    obtain ⟨a, ha, haD⟩ := hmodel _ (hmem _ (hrules b hbmem)) hself
      fun l hl => he.submodel b hbmem l hl I S D hbeforeS hbefore (hbody l hl)
    obtain rfl := List.mem_singleton.1 ha
    exact haD

section

variable (hc : c.Ready) (hb : c.Background background) (ha : c.Arranges F φ arranged)
  (hrules : ∀ r, r ∈ rules ↔ r ∈ background ∨ r ∈ arranged)

include hb ha hrules

/-- Only the totality of symbols has rules with more than one head atom. -/
theorem Arranges.isHeadSimple : IsHeadSimple rules := by
  intro r hr
  rcases (hrules r).1 hr with hr | hr
  · rcases hb.only r hr with ⟨a, ψ, -, rfl⟩ | ⟨k, x, bodies, -, b, -, rfl⟩
    · exact .inr (.inr ⟨a, rfl⟩)
    · exact .inr (.inl ⟨_, rfl⟩)
  · rcases ha.heads r hr with hnil | ⟨f, -, hhead⟩ | ⟨a, ψ, -, hhead | hhead⟩
    · exact .inl hnil
    · exact .inr (.inl ⟨f, hhead⟩)
    · exact .inr (.inl ⟨a, hhead⟩)
    · exact .inr (.inl ⟨_, hhead⟩)

include hc

/-- An answer set of the program lies in every part of it that is a model of the reduct. -/
theorem Arranges.subset_of_modelsReduct (hS : IsStable rules S) (hD : D ⊆ S)
    (hmodel : ModelsReduct rules S D) : S ⊆ D := by
  have hdescribes := ha.describes hc hb hrules hS (admits_interpret hc)
    fun _ _ hs => hs.mem_iff_interpret hc
  have hpart := describes_of_modelsReduct hb (fun r hr => (hrules r).2 (.inl hr)) hdescribes hD hmodel
  rw [(ha.of_describes hc hb hrules hS hdescribes).2]
  apply Set.union_subset hpart.truth_subset
  -- what switches something on does so in the part
  intro f hf
  have hfS : f ∈ S := ha.forced S (fun r hr => hS.satisfiedBy ((hrules r).2 (.inr hr))) hf
  obtain ⟨r, hr, hhead, hbody⟩ := ha.exists_rule hc hb hrules hS hf hfS
  obtain ⟨a, hmem, haD⟩ := hmodel r ((hrules r).2 (.inr hr)) hbody
    (ha.determined r hr f hf hhead _ S D hdescribes hpart hbody).2
  rw [hhead, List.mem_singleton] at hmem
  exact hmem ▸ haD

end

/-- The answer sets of an encoding are its minimal models. -/
theorem Realizes.isMinimalAnswerSet_iff {p : Program} (h : c.Realizes p F φ) (hc : c.Ready) :
    p.IsMinimalAnswerSet S ↔ p.IsAnswerSet S := by
  obtain ⟨background, arranged, hb, ha, hrules⟩ := h
  exact ⟨fun hS => hS.isStable (ha.isHeadSimple hb hrules),
    fun hS => IsStable.isMinimalModel hS fun _ => ha.subset_of_modelsReduct hc hb hrules hS⟩

end Context

end FixedDomain
