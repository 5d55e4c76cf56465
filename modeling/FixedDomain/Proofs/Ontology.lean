import FixedDomain.Domain
import FixedDomain.Proofs.Grounding.Axiom

/-! # Ontologies built axiom by axiom

An ontology that has only grown by `add` mentions nothing that its signature does not have
(`Built.isCovered`), so the domain that is resolved for it has every individual that its rules look
for (`IsCovered.mem_of_resolve`). The ontology `family` is built like this.
-/

namespace FixedDomain

/-! ## Signatures -/

namespace Signature

/-- Whether a signature has an entity. -/
def Contains (s : Signature) : Entity → Prop
  | .atomicClass iri => iri ∈ s.classes
  | .objectProperty iri => iri ∈ s.objectProperties
  | .individual iri => ⟨iri⟩ ∈ s.individuals

theorem contains_insert {s : Signature} {e e' : Entity} :
    (s.insert e').Contains e ↔ e = e' ∨ s.Contains e := by
  cases e <;> cases e' <;> simp [insert, Contains]

theorem contains_foldl_insert {s : Signature} {es : List Entity} {e : Entity} :
    (es.foldl insert s).Contains e ↔ e ∈ es ∨ s.Contains e := by
  induction es generalizing s with
  | nil => simp
  | cons e' es ih =>
    rw [List.foldl_cons, ih, contains_insert, List.mem_cons, or_left_comm, or_assoc]

end Signature

namespace Ontology

/-- The ontologies that have grown axiom by axiom, under any header. -/
inductive Built : Ontology → Prop
  | header (iri : Option Iri) (imports : List Iri) (prefixes : SortedMap String String) :
    Built ⟨iri, imports, prefixes, [], .empty⟩
  | add {o : Ontology} (h : Built o) (a : Axiom) : Built (o.add a)

/-- The signature has all that the axioms mention. -/
def IsCovered (o : Ontology) : Prop := ∀ a ∈ o.axioms, ∀ e ∈ a.vocabulary, o.signature.Contains e

/-- The signature has what the axioms mention, and nothing else. -/
theorem Built.contains_iff {o : Ontology} (h : o.Built) {e : Entity} :
    o.signature.Contains e ↔ ∃ a ∈ o.axioms, e ∈ a.vocabulary := by
  induction h with
  | header iri imports prefixes =>
    refine iff_of_false ?_ (by simp)
    cases e <;> simp [Signature.empty, Signature.Contains]
  | @add o h b ih =>
    rw [Ontology.add, Signature.contains_foldl_insert, ih]
    simp [or_and_right, exists_or, or_comm]

theorem Built.isCovered {o : Ontology} (h : o.Built) : o.IsCovered :=
  fun a ha _ he => h.contains_iff.2 ⟨a, ha, he⟩

theorem built_ofAxioms (axioms : List Axiom) : (ofAxioms axioms).Built := by
  have hfold : ∀ o : Ontology, o.Built → (axioms.foldl add o).Built := by
    induction axioms with
    | nil => exact fun _ h => h
    | cons a axioms ih => exact fun o h => ih _ (h.add a)
  exact hfold empty (.header none [] .empty)

/-- What axioms add to an ontology does not depend on its header. -/
theorem foldl_add (axioms : List Axiom) (o : Ontology) :
    axioms.foldl add o = { o with
      axioms := o.axioms ++ axioms
      signature := axioms.foldl (fun s a => a.vocabulary.foldl Signature.insert s) o.signature } := by
  induction axioms generalizing o with
  | nil => simp
  | cons a axioms ih =>
    rw [List.foldl_cons, ih]
    simp [add]

theorem axioms_ofAxioms (axioms : List Axiom) : (ofAxioms axioms).axioms = axioms := by
  rw [ofAxioms, foldl_add, empty, List.nil_append]

/-- The signature has nothing that the axioms do not mention. -/
theorem exists_of_contains_ofAxioms {axioms : List Axiom} {e : Entity}
    (h : (ofAxioms axioms).signature.Contains e) : ∃ a ∈ axioms, e ∈ a.vocabulary := by
  rwa [(built_ofAxioms axioms).contains_iff, axioms_ofAxioms] at h

/-! ## Axioms taken once -/

section AddNew

variable {o : Ontology} {axioms : List Axiom}

theorem Built.foldl_addNew (h : o.Built) (axioms : List Axiom) : (axioms.foldl addNew o).Built := by
  induction axioms generalizing o with
  | nil => exact h
  | cons a axioms ih =>
    rw [List.foldl_cons, addNew]
    split
    · exact ih h
    · exact ih (h.add a)

theorem mem_foldl_addNew {a : Axiom} :
    a ∈ (axioms.foldl addNew o).axioms ↔ a ∈ o.axioms ∨ a ∈ axioms := by
  induction axioms generalizing o with
  | nil => simp
  | cons b axioms ih =>
    rw [List.foldl_cons, ih, addNew]
    split
    · next hb =>
      have hold : a = b → a ∈ o.axioms ∨ a ∈ axioms := fun heq => .inl (heq ▸ hb)
      rw [List.mem_cons, or_left_comm, or_iff_right_of_imp hold]
    · simp [add, or_assoc]

theorem nodup_foldl_addNew (h : o.axioms.Nodup) : (axioms.foldl addNew o).axioms.Nodup := by
  induction axioms generalizing o with
  | nil => exact h
  | cons a axioms ih =>
    rw [List.foldl_cons, addNew]
    split
    · exact ih h
    · next ha => exact ih (h.append (List.nodup_singleton a) (by simpa using ha))

theorem foldl_addNew_of_subset (h : ∀ a ∈ axioms, a ∈ o.axioms) : axioms.foldl addNew o = o := by
  induction axioms with
  | nil => rfl
  | cons a axioms ih =>
    rw [List.foldl_cons, addNew, if_pos (h a List.mem_cons_self)]
    exact ih fun b hb => h b (List.mem_cons_of_mem a hb)

/-- Axioms that differ from each other and from those that are there are added one by one. -/
theorem foldl_addNew_of_nodup (h : (o.axioms ++ axioms).Nodup) :
    axioms.foldl addNew o = axioms.foldl add o := by
  induction axioms generalizing o with
  | nil => rfl
  | cons a axioms ih =>
    have ha : a ∉ o.axioms := fun ha => List.disjoint_of_nodup_append h ha List.mem_cons_self
    rw [List.foldl_cons, List.foldl_cons, addNew, if_neg ha]
    exact ih (by rwa [add, List.append_assoc, List.singleton_append])

end AddNew

end Ontology

/-! ## Entities of axioms -/

theorem mem_vocabulary_of_mem_entities {a : Axiom} {e : Entity}
    (h : e ∈ Grounding.entities a) : e ∈ a.vocabulary := by
  cases a with
  | declaration e' => cases h
  | _ => exact h

theorem mem_individualsAsserted_iff {a : Axiom} {i : Individual} :
    i ∈ a.individualsAsserted ↔ .individual i.iri ∈ Grounding.entities a := by
  have hfilter : ∀ (f : Entity → Option Individual) (es : List Entity),
      (∀ e, f e = some i ↔ e = .individual i.iri) →
        (i ∈ es.filterMap f ↔ .individual i.iri ∈ es) := by
    intro f es hf
    simp only [List.mem_filterMap, hf, exists_eq_right]
  cases a with
  | declaration e => simp [Axiom.individualsAsserted, Grounding.entities]
  | _ =>
    obtain ⟨iri⟩ := i
    refine hfilter _ _ fun e => ?_
    cases e <;> simp

theorem mem_individualsVocabulary_iff {individuals : List Individual} {i : Individual} :
    .individual i.iri ∈ Axiom.individualsVocabulary individuals ↔ i ∈ individuals := by
  constructor
  · intro h
    obtain ⟨⟨iri⟩, hmem, heq⟩ := List.mem_map.1 h
    cases heq
    exact hmem
  · exact fun h => List.mem_map_of_mem h

/-! ## Resolved domains -/

theorem Domain.mem_ofSet {individuals : SortedSet Individual} {i : Individual}
    (h : i ∈ individuals) : i ∈ (ofSet individuals).elements := by
  have hne : individuals.toList ≠ [] := List.ne_nil_of_mem h
  rw [ofSet, dif_neg hne]
  exact h

theorem Domain.elements_ofSet (d : Domain) : (ofSet d.elements).elements = d.elements := by
  rw [ofSet, dif_neg d.nonempty]

/-- A document lists a domain if it names its elements. Ontologies with no other individuals have
this domain then. -/
theorem Domain.resolve_of_elements_eq {d : Domain} {o document : Ontology}
    (hdocument : document.signature.individuals = d.elements)
    (ho : ∀ i ∈ o.signature.individuals, i ∈ d.elements) :
    resolve o (some document) = .ok (ofSet d.elements) := by
  have hnonempty : d.elements.isEmpty = false := by simpa [SortedSet.isEmpty] using d.nonempty
  have hmissing : (o.signature.individuals.filter fun i => !decide (i ∈ d.elements)).isEmpty =
      true := by
    rw [SortedSet.isEmpty, List.isEmpty_iff, SortedSet.filter, List.filter_eq_nil_iff]
    intro i hi
    simpa using ho i hi
  simp [resolve, hdocument, hnonempty, hmissing]

/-- The domain of an ontology has every individual that its axioms say something about. -/
theorem Ontology.IsCovered.mem_of_resolve {o : Ontology} (ho : o.IsCovered)
    {listed : Option Ontology} {d : Domain} (hd : Domain.resolve o listed = .ok d) :
    ∀ a ∈ o.axioms, ∀ i ∈ a.individualsAsserted, i ∈ d.elements := by
  intro a ha i hi
  cases listed with
  | none =>
    cases hd
    exact Domain.mem_ofSet (SortedSet.mem_ofList.2 (List.mem_flatMap.2 ⟨a, ha, hi⟩))
  | some document =>
    have hmem : i ∈ o.signature.individuals :=
      ho a ha _ (mem_vocabulary_of_mem_entities (mem_individualsAsserted_iff.1 hi))
    simp only [Domain.resolve] at hd
    split at hd
    · cases hd
    · split at hd
      · next hmissing =>
        cases hd
        apply Domain.mem_ofSet
        by_contra hout
        have : i ∈ o.signature.individuals.filter
            fun i => !decide (i ∈ document.signature.individuals) :=
          SortedSet.mem_filter.2 ⟨hmem, by simpa using hout⟩
        rw [SortedSet.mem_def, List.isEmpty_iff.1 hmissing] at this
        cases this
      · cases hd

/-! ## A family -/

namespace Ontology

/-- Two individuals, of which one is a parent. Parents have a child, and nobody is their own child. -/
def family : Ontology :=
  let parent := ClassExpression.named ⟨"urn:family#Parent"⟩
  let child := Role.named ⟨"urn:family#hasChild"⟩
  let ann : Individual := ⟨⟨"urn:family#ann"⟩⟩
  let bob : Individual := ⟨⟨"urn:family#bob"⟩⟩
  .ofAxioms [.subClassOf parent (.minCardinality 1 child none), .irreflexiveObjectProperty child,
    .classAssertion parent ann, .differentIndividuals [ann, bob]]

theorem family_built : family.Built := .add (.add (.add (.add (.header none [] .empty) _) _) _) _

theorem family_isSupported : ∀ a ∈ family.axioms, a.IsSupported := by
  simp [family, ofAxioms, add, empty, Axiom.IsSupported]

theorem family_size : (Domain.ofSet family.assertedIndividuals).size < UInt32.size - 1 := by decide

end Ontology

end FixedDomain
