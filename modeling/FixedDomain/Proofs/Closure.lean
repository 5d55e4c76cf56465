import FixedDomain.Ontology.Printer
import FixedDomain.Proofs.Isomorphism

/-! # Domains stated as axioms

The closure axioms of a domain say of an interpretation over any objects that the elements denote each
object exactly once (`Domain.satisfies_closureAxioms_iff`). What such an interpretation says can be read
off the elements instead (`Interpretation.readOver`), which keeps the meaning of all axioms about them. So an
ontology has a model over a fixed domain exactly if the ontology with its domain stated by axioms has a
model at all (`Domain.axiomatize_adequate`).
-/

namespace FixedDomain

/-! ## Open interpretations -/

/-- The property that leads from everything to everything. -/
def Iri.topProperty : Iri := ⟨owlNamespace ++ "topObjectProperty"⟩

/-- The property that leads nowhere. -/
def Iri.bottomProperty : Iri := ⟨owlNamespace ++ "bottomObjectProperty"⟩

namespace Interpretation

variable {Δ : Type}

/-- An interpretation over some objects: there is at least one, individuals denote objects, and classes
and properties are about objects. -/
structure IsOpen (I : Interpretation Δ) : Prop where
  nonempty : I.domain.Nonempty
  denote : ∀ i, I.denote i ∈ I.domain
  classes : ∀ iri, I.classes iri ⊆ I.domain
  properties : ∀ p x y, I.properties p x y → x ∈ I.domain ∧ y ∈ I.domain

/-- The predefined names stand for what they are meant for. -/
structure FixesPredefined (I : Interpretation Δ) : Prop where
  thing : I.classes Iri.thing = I.domain
  nothing : I.classes Iri.nothing = ∅
  top : ∀ x ∈ I.domain, ∀ y ∈ I.domain, I.properties Iri.topProperty x y
  bottom : ∀ x y, ¬ I.properties Iri.bottomProperty x y

/-- What an interpretation says about the objects that the elements of a domain denote, as said about
the elements. -/
def readOver (I : Interpretation Δ) (d : Domain) : Interpretation Individual where
  domain := {i | i ∈ d.elements}
  denote := id
  classes iri := {i | i ∈ d.elements ∧ I.denote i ∈ I.classes iri}
  properties p i j := i ∈ d.elements ∧ j ∈ d.elements ∧ I.properties p (I.denote i) (I.denote j)

variable {I : Interpretation Δ} {d : Domain}

theorem overDomain_readOver : (I.readOver d).OverDomain d := ⟨rfl, rfl⟩

theorem isomorphism_readOver (h : Set.BijOn I.denote {i | i ∈ d.elements} I.domain) :
    Isomorphism I.denote (I.readOver d) I {i | i ∈ d.elements} where
  bijOn := h
  classes _ _ hx := (and_iff_right hx).symm
  properties _ _ hx _ hy := ((and_iff_right hx).trans (and_iff_right hy)).symm
  denote_mem _ hi := hi
  denote _ _ := rfl

theorem FixesPredefined.readOver (hI : I.FixesPredefined)
    (h : Set.BijOn I.denote {i | i ∈ d.elements} I.domain) : (I.readOver d).FixesPredefined where
  thing := by
    ext i
    exact and_iff_left_of_imp fun hi => hI.thing ▸ h.mapsTo hi
  nothing := by
    ext i
    simp [Interpretation.readOver, hI.nothing]
  top i hi j hj := ⟨hi, hj, hI.top _ (h.mapsTo hi) _ (h.mapsTo hj)⟩
  bottom i j hij := hI.bottom _ _ hij.2.2

theorem OverDomain.bijOn {J : Interpretation Individual} (hJ : J.OverDomain d) :
    Set.BijOn J.denote {i | i ∈ d.elements} J.domain := by
  rw [hJ.domain, hJ.denote]
  exact Set.bijOn_id _

/-- An interpretation over a domain with other denotations for the individuals outside. -/
theorem OverDomain.isomorphism {J : Interpretation Individual} (hJ : J.OverDomain d)
    {denote : Individual → Individual} (hdenote : ∀ i ∈ d.elements, denote i = i) :
    Isomorphism id J { J with denote } {i | i ∈ d.elements} where
  bijOn := Set.bijOn_id _
  classes _ _ _ := Iff.rfl
  properties _ _ _ _ _ := Iff.rfl
  denote_mem i hi := by rwa [hJ.domain, hJ.denote]
  denote i hi := (hdenote i hi).trans (congrFun hJ.denote i).symm

end Interpretation

/-! ## Closure axioms -/

namespace Domain

variable {d : Domain} {o : Ontology}

theorem mem_axioms_axiomatize {a : Axiom} :
    a ∈ (d.axiomatize o).axioms ↔ a ∈ o.axioms ∨ a ∈ d.closureAxioms := by
  rw [axiomatize, Ontology.mem_foldl_addNew, List.mem_append]
  simp [Ontology.empty]

theorem mem_closureAxioms {a : Axiom} : a ∈ d.closureAxioms ↔
    (∃ i ∈ d.elements, a = .declaration (.individual i.iri)) ∨
      (1 < d.size ∧ a = .differentIndividuals d.elements.toList) ∨
        a = .subClassOf .thing (.oneOf d.elements.toList) := by
  simp only [closureAxioms, List.mem_append, List.mem_map, List.mem_ite_nil_right,
    List.mem_singleton, or_assoc, eq_comm]
  rfl

theorem mem_elements_of_mem_closureAxioms {a : Axiom} (ha : a ∈ d.closureAxioms) :
    ∀ i ∈ a.individualsAsserted, i ∈ d.elements := by
  rcases mem_closureAxioms.1 ha with ⟨j, -, rfl⟩ | ⟨-, rfl⟩ | rfl
  · exact fun i hi => absurd hi List.not_mem_nil
  · exact fun i hi => mem_individualsVocabulary_iff.1 (mem_individualsAsserted_iff.1 hi)
  · exact fun i hi => mem_individualsVocabulary_iff.1 (mem_individualsAsserted_iff.1 hi)

/-- The closure axioms say that the elements denote each object exactly once. -/
theorem satisfies_closureAxioms_iff {Δ : Type} {I : Interpretation Δ} :
    (∀ a ∈ d.closureAxioms, I.Satisfies a) ↔
      Set.InjOn I.denote {i | i ∈ d.elements} ∧ Set.SurjOn I.denote {i | i ∈ d.elements} I.domain := by
  have hdeclarations : ∀ a ∈ d.elements.toList.map fun i => Axiom.declaration (.individual i.iri),
      I.Satisfies a := by
    intro a ha
    obtain ⟨i, -, rfl⟩ := List.mem_map.1 ha
    trivial
  have hdifferent : I.Satisfies (.differentIndividuals d.elements.toList) ↔
      Set.InjOn I.denote {i | i ∈ d.elements} := by
    rw [Interpretation.Satisfies, ← List.pairwise_map]
    exact List.nodup_map_iff_inj_on d.elements.nodup
  have hclosed : I.Satisfies (.subClassOf .thing (.oneOf d.elements.toList)) ↔
      Set.SurjOn I.denote {i | i ∈ d.elements} I.domain :=
    forall₂_congr fun x _ => true_imp_iff
  rw [closureAxioms, List.forall_mem_append, List.forall_mem_append, and_iff_right hdeclarations,
    List.forall_mem_singleton, hclosed]
  refine and_congr_left' ?_
  split
  · rw [List.forall_mem_singleton, hdifferent]
  · next hlength =>
    -- one element is different from all others
    obtain ⟨i, hi⟩ : ∃ i, d.elements.toList = [i] :=
      List.length_eq_one_iff.1 (le_antisymm (not_lt.1 hlength) (List.length_pos_iff.2 d.nonempty))
    refine iff_of_true (by simp) fun j hj k hk _ => ?_
    rw [Set.mem_ofPred_eq, SortedSet.mem_def, hi, List.mem_singleton] at hj hk
    rw [hj, hk]

/-! ## The ontology with its domain -/

theorem built_axiomatize (d : Domain) (o : Ontology) : (d.axiomatize o).Built :=
  (Ontology.Built.header o.iri [] o.prefixes).foldl_addNew _

theorem isSupported_axiomatize (h : ∀ a ∈ o.axioms, a.IsSupported) :
    ∀ a ∈ (d.axiomatize o).axioms, a.IsSupported := by
  intro a ha
  rcases mem_axioms_axiomatize.1 ha with ha | ha
  · exact h a ha
  · rcases mem_closureAxioms.1 ha with ⟨i, -, rfl⟩ | ⟨-, rfl⟩ | rfl <;> trivial

theorem contains_axiomatize_iff (ho : o.Built) {e : Entity} (he : ∀ iri, e ≠ .individual iri) :
    (d.axiomatize o).signature.Contains e ↔ o.signature.Contains e := by
  have hclosure : ∀ a ∈ d.closureAxioms, e ∉ a.vocabulary := by
    intro a ha hmem
    rcases mem_closureAxioms.1 ha with ⟨i, -, rfl⟩ | ⟨-, rfl⟩ | rfl
    · exact he _ (List.mem_singleton.1 hmem)
    · obtain ⟨i, -, rfl⟩ := List.mem_map.1 hmem
      exact he _ rfl
    · obtain ⟨i, -, rfl⟩ := List.mem_map.1 hmem
      exact he _ rfl
  rw [(d.built_axiomatize o).contains_iff, ho.contains_iff]
  constructor
  · rintro ⟨a, ha, hmem⟩
    exact ⟨a, (mem_axioms_axiomatize.1 ha).resolve_right fun ha => hclosure a ha hmem, hmem⟩
  · rintro ⟨a, ha, hmem⟩
    exact ⟨a, mem_axioms_axiomatize.2 (.inl ha), hmem⟩

theorem classes_axiomatize (ho : o.Built) :
    (d.axiomatize o).signature.classes = o.signature.classes :=
  SortedSet.ext fun iri => contains_axiomatize_iff ho (e := .atomicClass iri) nofun

theorem objectProperties_axiomatize (ho : o.Built) :
    (d.axiomatize o).signature.objectProperties = o.signature.objectProperties :=
  SortedSet.ext fun iri => contains_axiomatize_iff ho (e := .objectProperty iri) nofun

/-- The axioms of the domain are about all elements, so the domain is found again. -/
theorem resolve_axiomatize (hnamed : ∀ a ∈ o.axioms, ∀ i ∈ a.individualsAsserted, i ∈ d.elements) :
    resolve (d.axiomatize o) none = .ok (ofSet d.elements) := by
  have hclosed : Axiom.subClassOf .thing (.oneOf d.elements.toList) ∈ (d.axiomatize o).axioms :=
    mem_axioms_axiomatize.2 (.inr (mem_closureAxioms.2 (.inr (.inr rfl))))
  have helements : (d.axiomatize o).assertedIndividuals = d.elements := by
    refine SortedSet.ext fun i => ?_
    rw [Ontology.assertedIndividuals, SortedSet.mem_ofList, List.mem_flatMap]
    constructor
    · rintro ⟨a, ha, hi⟩
      exact (mem_axioms_axiomatize.1 ha).elim (hnamed a · i hi)
        (mem_elements_of_mem_closureAxioms · i hi)
    · exact fun hi => ⟨_, hclosed, mem_individualsAsserted_iff.2 (mem_individualsVocabulary_iff.2 hi)⟩
  rw [resolve, helements]

theorem axioms_axiomatize_axiomatize (d : Domain) (o : Ontology) :
    (d.axiomatize (d.axiomatize o)).axioms = (d.axiomatize o).axioms := by
  have hnodup : (d.axiomatize o).axioms.Nodup := Ontology.nodup_foldl_addNew List.nodup_nil
  have hagain : ∀ header : Ontology, header.axioms = [] →
      ((d.axiomatize o).axioms.foldl Ontology.addNew header).axioms = (d.axiomatize o).axioms := by
    intro header hempty
    rw [Ontology.foldl_addNew_of_nodup (by rwa [hempty]), Ontology.foldl_add, hempty,
      List.nil_append]
  rw [axiomatize, List.foldl_append, Ontology.foldl_addNew_of_subset]
  · exact hagain _ rfl
  · intro a ha
    rw [hagain _ rfl]
    exact mem_axioms_axiomatize.2 (.inr ha)

/-! ## Models -/

/-- The element that an individual denotes where each has to denote one. -/
def nearest (d : Domain) (i : Individual) : Individual :=
  if i ∈ d.elements then i else d.elements.toList.head d.nonempty

theorem nearest_mem (i : Individual) : d.nearest i ∈ d.elements := by
  unfold nearest
  split
  · assumption
  · exact List.head_mem d.nonempty

/-- Over an open interpretation with closure axioms the elements stand for the objects. -/
theorem bijOn_of_satisfies {Δ : Type} {I : Interpretation Δ} (hI : I.IsOpen)
    (h : ∀ a ∈ (d.axiomatize o).axioms, I.Satisfies a) :
    Set.BijOn I.denote {i | i ∈ d.elements} I.domain := by
  obtain ⟨hinjective, honto⟩ :=
    satisfies_closureAxioms_iff.1 fun a ha => h a (mem_axioms_axiomatize.2 (.inr ha))
  exact ⟨fun i _ => hI.denote i, hinjective, honto⟩

/-- What is true over a domain stays true if other individuals denote something else, and the domain can
be stated by axioms then. -/
theorem satisfies_axiomatize (hnamed : ∀ a ∈ o.axioms, ∀ i ∈ a.individualsAsserted, i ∈ d.elements)
    {J : Interpretation Individual} (hJ : J.OverDomain d) (h : ∀ a ∈ o.axioms, J.Satisfies a)
    {denote : Individual → Individual} (hdenote : ∀ i ∈ d.elements, denote i = i) :
    ∀ a ∈ (d.axiomatize o).axioms, Interpretation.Satisfies { J with denote } a := by
  have hisomorphism := hJ.isomorphism hdenote
  intro a ha
  rcases mem_axioms_axiomatize.1 ha with ha | ha
  · exact (hisomorphism.satisfies_iff (hnamed a ha)).2 (h a ha)
  · refine (hisomorphism.satisfies_iff (mem_elements_of_mem_closureAxioms ha)).2 ?_
    exact satisfies_closureAxioms_iff.2 ⟨hJ.bijOn.injOn, hJ.bijOn.surjOn⟩ a ha

/-- Stating the domain by axioms is adequate. In every open model of the axioms the elements stand for
the objects, one for each, and what the model says about the objects is a model of the ontology over the
domain; every model over the domain is a model of the axioms, whatever other individuals denote, of which
the axioms say nothing. So one has a model exactly if the other has, whether or not the predefined names
are fixed. -/
theorem axiomatize_adequate (ho : o.Built) {listed : Option Ontology}
    (hd : resolve o listed = .ok d) :
    (∀ {Δ : Type} (I : Interpretation Δ), I.IsOpen →
      (∀ a ∈ (d.axiomatize o).axioms, I.Satisfies a) →
        Set.BijOn I.denote {i | i ∈ d.elements} I.domain ∧ (I.readOver d).OverDomain d ∧
          (∀ a ∈ o.axioms, (I.readOver d).Satisfies a) ∧
          (I.FixesPredefined → (I.readOver d).FixesPredefined)) ∧
    (∀ J : Interpretation Individual, J.OverDomain d → (∀ a ∈ o.axioms, J.Satisfies a) →
      ∀ denote : Individual → Individual, (∀ i ∈ d.elements, denote i = i) →
        ∀ a ∈ (d.axiomatize o).axioms, Interpretation.Satisfies { J with denote } a) ∧
    (∀ a ∈ (d.axiomatize o).axioms, ∀ i ∈ a.individualsAsserted, i ∈ d.elements) ∧
    ∀ fixed : Prop,
      (∃ J : Interpretation Individual, J.OverDomain d ∧ (fixed → J.FixesPredefined) ∧
        ∀ a ∈ o.axioms, J.Satisfies a) ↔
      ∃ (Δ : Type) (I : Interpretation Δ), I.IsOpen ∧ (fixed → I.FixesPredefined) ∧
        ∀ a ∈ (d.axiomatize o).axioms, I.Satisfies a := by
  have hnamed := ho.isCovered.mem_of_resolve hd
  have hclosed : ∀ {Δ : Type} (I : Interpretation Δ), I.IsOpen →
      (∀ a ∈ (d.axiomatize o).axioms, I.Satisfies a) →
        Set.BijOn I.denote {i | i ∈ d.elements} I.domain ∧
          ∀ a ∈ o.axioms, (I.readOver d).Satisfies a := by
    intro Δ I hI h
    have hbij := bijOn_of_satisfies hI h
    refine ⟨hbij, fun a ha => ?_⟩
    rw [← (Interpretation.isomorphism_readOver hbij).satisfies_iff (hnamed a ha)]
    exact h a (mem_axioms_axiomatize.2 (.inl ha))
  refine ⟨fun I hI h => ?_, fun J hJ h denote hdenote => satisfies_axiomatize hnamed hJ h hdenote,
    fun a ha => ?_, fun fixed => ⟨?_, ?_⟩⟩
  · obtain ⟨hbij, hover⟩ := hclosed I hI h
    exact ⟨hbij, Interpretation.overDomain_readOver, hover, fun hfixes => hfixes.readOver hbij⟩
  · exact (mem_axioms_axiomatize.1 ha).elim (hnamed a) mem_elements_of_mem_closureAxioms
  · rintro ⟨J, hJ, hfixes, h⟩
    -- classes and properties are cut down to the elements
    have hisomorphism := Interpretation.isomorphism_readOver hJ.bijOn
    have hover : ∀ a ∈ (d.axiomatize o).axioms,
        Interpretation.Satisfies { J.readOver d with denote := d.nearest } a :=
      satisfies_axiomatize hnamed Interpretation.overDomain_readOver
        (fun a ha => (hisomorphism.satisfies_iff (hnamed a ha)).1 (h a ha)) fun i hi => if_pos hi
    refine ⟨Individual, { J.readOver d with denote := d.nearest }, ?_, fun hfixed => ?_, hover⟩
    · exact
        { nonempty := ⟨_, List.head_mem d.nonempty⟩
          denote := fun i => nearest_mem i
          classes := fun iri i hi => hi.1
          properties := fun p i j hij => ⟨hij.1, hij.2.1⟩ }
    · obtain ⟨thing, nothing, top, bottom⟩ := (hfixes hfixed).readOver hJ.bijOn
      exact ⟨thing, nothing, top, bottom⟩
  · rintro ⟨Δ, I, hI, hfixes, h⟩
    obtain ⟨hbij, hover⟩ := hclosed I hI h
    exact ⟨I.readOver d, Interpretation.overDomain_readOver,
      fun hfixed => (hfixes hfixed).readOver hbij, hover⟩

theorem axiomatize_adequate_family :
    resolve .family none = .ok (ofSet Ontology.family.assertedIndividuals) ∧ ∀ fixed : Prop,
      (∃ J : Interpretation Individual, J.OverDomain (ofSet Ontology.family.assertedIndividuals) ∧
        (fixed → J.FixesPredefined) ∧ ∀ a ∈ Ontology.family.axioms, J.Satisfies a) ↔
      ∃ (Δ : Type) (I : Interpretation Δ), I.IsOpen ∧ (fixed → I.FixesPredefined) ∧
        ∀ a ∈ (axiomatize .family (ofSet Ontology.family.assertedIndividuals)).axioms,
          I.Satisfies a := by
  have hd : resolve .family none = .ok (ofSet Ontology.family.assertedIndividuals) := rfl
  obtain ⟨-, -, -, h⟩ := axiomatize_adequate Ontology.family_built hd
  exact ⟨hd, h⟩

end Domain

end FixedDomain
