import FixedDomain.Proofs.FunctionalSyntax.Rewriting

/-! # What the signature has

* `ClassExpression.Mentions`, `Axiom.Mentions` — what stands in an expression or an axiom, at any depth.
* `Ontology.Assembled` — the ontologies that are put together from documents.

The signature of an assembled ontology has exactly the object properties and individuals that its axioms
mention, and the classes among them but for the two predefined ones (`Assembled.signature_exact`). There
is one exception: a predefined class that is said to be a disjoint union is entered like any other
(`signature_of_predefined_union`).
-/

namespace FixedDomain

open FunctionalSyntax

/-! ## Expressions -/

namespace ClassExpression

/-- The expressions that an expression is made of. -/
def parts : ClassExpression → List ClassExpression
  | intersectionOf cs | unionOf cs => cs
  | complementOf c | someValuesFrom _ c | allValuesFrom _ c => [c]
  | minCardinality _ _ c | maxCardinality _ _ c | exactCardinality _ _ c => c.toList
  | _ => []

/-- The entities that stand in an expression besides its parts. -/
def own : ClassExpression → List Entity
  | named iri => [.atomicClass iri]
  | oneOf is => Axiom.individualsVocabulary is
  | hasValue r i => Axiom.rolesVocabulary [r] ++ Axiom.individualsVocabulary [i]
  | someValuesFrom r _ | allValuesFrom r _ | hasSelf r => Axiom.rolesVocabulary [r]
  | minCardinality _ r _ | maxCardinality _ r _ | exactCardinality _ r _ => Axiom.rolesVocabulary [r]
  | _ => []

/-- An entity stands in an expression, at some depth. -/
inductive Mentions : ClassExpression → Entity → Prop
  | own {c : ClassExpression} {e : Entity} (h : e ∈ c.own) : Mentions c e
  | part {c d : ClassExpression} {e : Entity} (hd : d ∈ c.parts) (h : Mentions d e) : Mentions c e

theorem mem_vocabulary_of_mem_parts {c d : ClassExpression} {e : Entity} (hd : d ∈ c.parts)
    (h : e ∈ d.vocabulary) : e ∈ c.vocabulary := by
  cases c with
  | intersectionOf cs | unionOf cs => exact mem_vocabularyList.2 ⟨d, hd, h⟩
  | complementOf c => exact List.mem_singleton.1 hd ▸ h
  | someValuesFrom r c | allValuesFrom r c =>
    exact List.mem_cons_of_mem _ (List.mem_singleton.1 hd ▸ h)
  | minCardinality n r c | maxCardinality n r c | exactCardinality n r c =>
    obtain rfl := Option.mem_toList.1 hd
    exact List.mem_cons_of_mem _ h
  | _ => cases hd

theorem mem_vocabulary_of_mem_own {c : ClassExpression} {e : Entity} (h : e ∈ c.own) :
    e ∈ c.vocabulary := by
  cases c with
  | named _ | oneOf _ | hasValue _ _ | hasSelf _ => exact h
  | someValuesFrom _ _ | allValuesFrom _ _ | minCardinality _ _ _ | maxCardinality _ _ _
  | exactCardinality _ _ _ => exact List.mem_singleton.1 h ▸ List.mem_cons_self
  | _ => cases h

-- The collection goes through lists and fillers by functions of their own, and so does the proof.
mutual

theorem mentions_of_mem_vocabulary {e : Entity} :
    ∀ c : ClassExpression, e ∈ c.vocabulary → c.Mentions e
  | named _, h | oneOf _, h | hasValue _ _, h | hasSelf _, h => .own h
  | intersectionOf cs, h | unionOf cs, h =>
    have ⟨_, hc, hmentions⟩ := exists_mentions_of_mem_vocabularyList cs h
    .part hc hmentions
  | complementOf c, h => .part (List.mem_singleton_self c) (mentions_of_mem_vocabulary c h)
  | someValuesFrom _ c, h | allValuesFrom _ c, h =>
    (List.mem_cons.1 h).elim (fun h => .own (List.mem_singleton.2 h)) fun h =>
      .part (List.mem_singleton_self c) (mentions_of_mem_vocabulary c h)
  | minCardinality _ _ c, h | maxCardinality _ _ c, h | exactCardinality _ _ c, h =>
    (List.mem_cons.1 h).elim (fun h => .own (List.mem_singleton.2 h)) fun h =>
      have ⟨_, hd, hmentions⟩ := exists_mentions_of_mem_vocabularyFiller c h
      .part hd hmentions

theorem exists_mentions_of_mem_vocabularyList {e : Entity} :
    ∀ cs : List ClassExpression, e ∈ vocabularyList cs → ∃ c ∈ cs, c.Mentions e
  | c :: cs, h =>
    (List.mem_append.1 h).elim
      (fun h => ⟨c, List.mem_cons_self, mentions_of_mem_vocabulary c h⟩) fun h =>
      have ⟨d, hd, hmentions⟩ := exists_mentions_of_mem_vocabularyList cs h
      ⟨d, List.mem_cons_of_mem c hd, hmentions⟩

theorem exists_mentions_of_mem_vocabularyFiller {e : Entity} :
    ∀ c : Option ClassExpression, e ∈ vocabularyFiller c → ∃ d ∈ c.toList, d.Mentions e
  | some c, h => ⟨c, List.mem_singleton_self c, mentions_of_mem_vocabulary c h⟩

end

theorem mem_vocabulary_iff {c : ClassExpression} {e : Entity} : e ∈ c.vocabulary ↔ c.Mentions e := by
  refine ⟨mentions_of_mem_vocabulary c, fun h => ?_⟩
  induction h with
  | own h => exact mem_vocabulary_of_mem_own h
  | part hd _ ih => exact mem_vocabulary_of_mem_parts hd ih

theorem isShapedList_iff {cs : List ClassExpression} : IsShapedList cs ↔ ∀ c ∈ cs, c.IsShaped := by
  induction cs with
  | nil => simp [IsShapedList]
  | cons c cs ih => simp [IsShapedList, ih]

theorem IsShaped.part {c d : ClassExpression} (h : c.IsShaped) (hd : d ∈ c.parts) : d.IsShaped := by
  cases c with
  | intersectionOf cs | unionOf cs => exact isShapedList_iff.1 h.2 d hd
  | complementOf c | someValuesFrom r c | allValuesFrom r c => exact List.mem_singleton.1 hd ▸ h
  | minCardinality n r c | maxCardinality n r c | exactCardinality n r c =>
    obtain rfl := Option.mem_toList.1 hd
    exact h
  | _ => cases hd

/-- Expressions as they are read do not mention the predefined classes by name. -/
theorem Mentions.ne_predefined {c : ClassExpression} {iri : Iri} (h : c.Mentions (.atomicClass iri))
    (hc : c.IsShaped) : iri ≠ Iri.thing ∧ iri ≠ Iri.nothing := by
  generalize he : Entity.atomicClass iri = e at h
  induction h with
  | @own c e h =>
    subst he
    cases c with
    | named iri' =>
      obtain rfl := Entity.atomicClass.inj (List.mem_singleton.1 h)
      exact hc
    | _ =>
      simp [ClassExpression.own, Axiom.rolesVocabulary, Axiom.individualsVocabulary] at h
  | part hd _ ih => exact ih (hc.part hd) he

end ClassExpression

/-! ## Axioms -/

namespace Axiom

/-- The expressions that an axiom is about. -/
def parts : Axiom → List ClassExpression
  | subClassOf c d => [c, d]
  | equivalentClasses cs | disjointClasses cs | disjointUnion _ cs => cs
  | objectPropertyDomain _ c | objectPropertyRange _ c | classAssertion c _ => [c]
  | _ => []

/-- The entities that stand in an axiom besides its expressions. -/
def own : Axiom → List Entity
  | declaration e => [e]
  | disjointUnion whole _ => [.atomicClass whole]
  | subObjectPropertyOf r s | inverseObjectProperties r s => rolesVocabulary [r, s]
  | equivalentObjectProperties rs | disjointObjectProperties rs => rolesVocabulary rs
  | objectPropertyDomain r _ | objectPropertyRange r _ | functionalObjectProperty r
  | inverseFunctionalObjectProperty r | reflexiveObjectProperty r | irreflexiveObjectProperty r
  | symmetricObjectProperty r | asymmetricObjectProperty r | transitiveObjectProperty r =>
    rolesVocabulary [r]
  | sameIndividual is | differentIndividuals is => individualsVocabulary is
  | classAssertion _ i => individualsVocabulary [i]
  | objectPropertyAssertion r i j | negativeObjectPropertyAssertion r i j =>
    rolesVocabulary [r] ++ individualsVocabulary [i, j]
  | _ => []

/-- An entity stands in an axiom, at some depth. -/
def Mentions (a : Axiom) (e : Entity) : Prop := e ∈ a.own ∨ ∃ c ∈ a.parts, c.Mentions e

theorem mem_declaredVocabulary_iff {e e' : Entity} : e ∈ declaredVocabulary e' ↔
    e = e' ∧ e ≠ .atomicClass Iri.thing ∧ e ≠ .atomicClass Iri.nothing := by
  cases e' with
  | atomicClass iri =>
    rw [declaredVocabulary]
    split
    · next h =>
      refine iff_of_false List.not_mem_nil ?_
      rintro ⟨rfl, hthing, hnothing⟩
      exact h.elim (fun h => hthing (h ▸ rfl)) fun h => hnothing (h ▸ rfl)
    · next h =>
      rw [List.mem_singleton, iff_self_and]
      rintro rfl
      simpa using h
  | _ => simp +contextual [declaredVocabulary]

/-- An axiom mentions what it enters into the signature, and a predefined class that it declares. -/
theorem mentions_iff {a : Axiom} {e : Entity} : a.Mentions e ↔ e ∈ a.vocabulary ∨
    a = .declaration e ∧ (e = .atomicClass Iri.thing ∨ e = .atomicClass Iri.nothing) := by
  cases a with
  | declaration e' =>
    simp only [Mentions, own, parts, vocabulary, mem_declaredVocabulary_iff, List.mem_singleton,
      List.not_mem_nil, false_and, exists_false, or_false, declaration.injEq, ← not_or, eq_comm,
      ← and_or_left]
    tauto
  | classAssertion c i =>
    simp [vocabulary, Mentions, own, parts, ClassExpression.mem_vocabulary_iff, or_comm]
  | _ =>
    simp [vocabulary, Mentions, own, parts, ClassExpression.mem_vocabularyList,
      ClassExpression.mem_vocabulary_iff]

theorem IsShaped.part {a : Axiom} {c : ClassExpression} (h : a.IsShaped) (hc : c ∈ a.parts) :
    c.IsShaped := by
  cases a with
  | subClassOf sub sup =>
    rcases List.mem_pair.1 hc with rfl | rfl
    · exact h.1
    · exact h.2
  | equivalentClasses cs | disjointClasses cs | disjointUnion whole cs =>
    exact ClassExpression.isShapedList_iff.1 h.2 c hc
  | objectPropertyDomain r c | objectPropertyRange r c | classAssertion c i =>
    exact List.mem_singleton.1 hc ▸ h
  | _ => cases hc

/-- A predefined class is entered into the signature only by an axiom that says that it is a disjoint
union. -/
theorem ne_predefined_of_mem_vocabulary {a : Axiom} (ha : a.IsShaped) {iri : Iri}
    (h : .atomicClass iri ∈ a.vocabulary) :
    iri ≠ Iri.thing ∧ iri ≠ Iri.nothing ∨ ∃ parts, a = .disjointUnion iri parts := by
  rcases mentions_iff.2 (.inl h) with hown | ⟨c, hc, hmentions⟩
  · cases a with
    | declaration e =>
      -- what is collected from a declaration has been checked
      obtain ⟨-, hthing, hnothing⟩ := mem_declaredVocabulary_iff.1 h
      exact .inl ⟨fun heq => hthing (heq ▸ rfl), fun heq => hnothing (heq ▸ rfl)⟩
    | disjointUnion whole parts =>
      obtain rfl := Entity.atomicClass.inj (List.mem_singleton.1 hown)
      exact .inr ⟨parts, rfl⟩
    | _ => simp [own, rolesVocabulary, individualsVocabulary] at hown
  · exact .inl (hmentions.ne_predefined (ha.part hc))

end Axiom

/-! ## Ontologies -/

namespace Ontology

/-- The ontologies that are put together from documents: what is read from one, with axioms of others
added and others merged into it. -/
inductive Assembled : Ontology → Prop
  | read {text : String} {o : Ontology} (h : readOntology text = .ok o) : Assembled o
  | add {o source : Ontology} {text : String} {a : Axiom} (h : Assembled o)
    (hsource : readOntology text = .ok source) (ha : a ∈ source.axioms) : Assembled (o.add a)
  | merge {o other : Ontology} {text : String} (h : Assembled o)
    (hother : readOntology text = .ok other) : Assembled (o.merge other)

theorem Assembled.built {o : Ontology} (h : o.Assembled) : o.Built := by
  induction h with
  | read h => exact (isAccepted_of_readOntology h).built
  | add _ _ _ ih => exact ih.add _
  | merge _ _ ih => exact ih.foldl_addNew _

theorem Assembled.isShaped {o : Ontology} (h : o.Assembled) : ∀ a ∈ o.axioms, a.IsShaped := by
  induction h with
  | read h => exact (isAccepted_of_readOntology h).shaped
  | add _ hsource ha ih =>
    intro b hb
    rcases List.mem_append.1 hb with hb | hb
    · exact ih b hb
    · exact List.mem_singleton.1 hb ▸ (isAccepted_of_readOntology hsource).shaped _ ha
  | merge _ hother ih =>
    intro b hb
    exact (mem_foldl_addNew.1 hb).elim (ih b) ((isAccepted_of_readOntology hother).shaped b)

/-- The signature of an assembled ontology has the object properties and the individuals that stand in
its axioms, and the classes among them that are not predefined or are said to be a disjoint union. What
is not supported adds nothing. -/
theorem Assembled.signature_exact {o : Ontology} (h : o.Assembled) :
    (∀ iri, iri ∈ o.signature.classes ↔ (∃ a ∈ o.axioms, a.Mentions (.atomicClass iri)) ∧
      (iri ≠ Iri.thing ∧ iri ≠ Iri.nothing ∨ ∃ parts, .disjointUnion iri parts ∈ o.axioms)) ∧
    (∀ iri, iri ∈ o.signature.objectProperties ↔
      ∃ a ∈ o.axioms, a.Mentions (.objectProperty iri)) ∧
    (∀ i, i ∈ o.signature.individuals ↔ ∃ a ∈ o.axioms, a.Mentions (.individual i.iri)) ∧
    ∀ keyword source, (o.add (.unsupported keyword source)).signature = o.signature := by
  have hcontains : ∀ e, o.signature.Contains e ↔ ∃ a ∈ o.axioms, e ∈ a.vocabulary := fun e =>
    h.built.contains_iff
  refine ⟨fun iri => (hcontains (.atomicClass iri)).trans ⟨?_, ?_⟩, fun iri => ?_, fun i => ?_, ?_⟩
  · rintro ⟨a, ha, hmem⟩
    refine ⟨⟨a, ha, Axiom.mentions_iff.2 (.inl hmem)⟩, ?_⟩
    refine (Axiom.ne_predefined_of_mem_vocabulary (h.isShaped a ha) hmem).imp_right ?_
    rintro ⟨parts, rfl⟩
    exact ⟨parts, ha⟩
  · rintro ⟨⟨a, ha, hmentions⟩, hne | ⟨parts, hunion⟩⟩
    · refine ⟨a, ha, (Axiom.mentions_iff.1 hmentions).resolve_right ?_⟩
      simp [hne]
    · exact ⟨_, hunion, List.mem_cons_self⟩
  · exact (hcontains (.objectProperty iri)).trans (by simp [Axiom.mentions_iff])
  · exact (hcontains (.individual i.iri)).trans (by simp [Axiom.mentions_iff])
  · exact fun keyword source => rfl

/-- An individual behind an inverse property. -/
def nominal : Ontology :=
  .ofAxioms [.subClassOf (.named ⟨"urn:a"⟩)
    (.someValuesFrom (.inverseOf ⟨"urn:p"⟩) (.oneOf [⟨⟨"urn:i"⟩⟩]))]

theorem readOntology_nominal : readOntology "Ontology(SubClassOf(<urn:a>
    ObjectSomeValuesFrom(ObjectInverseOf(<urn:p>) ObjectOneOf(<urn:i>))))" = .ok nominal :=
  eq_ok_of_toOption (by decide +kernel)

theorem signature_exact_nominal : nominal.Assembled ∧
    (∀ iri, iri ∈ nominal.signature.classes ↔
      (∃ a ∈ nominal.axioms, a.Mentions (.atomicClass iri)) ∧
        (iri ≠ Iri.thing ∧ iri ≠ Iri.nothing ∨ ∃ parts, .disjointUnion iri parts ∈ nominal.axioms)) ∧
    (∀ iri, iri ∈ nominal.signature.objectProperties ↔
      ∃ a ∈ nominal.axioms, a.Mentions (.objectProperty iri)) ∧
    (∀ i, i ∈ nominal.signature.individuals ↔
      ∃ a ∈ nominal.axioms, a.Mentions (.individual i.iri)) ∧
    ∀ keyword source, (nominal.add (.unsupported keyword source)).signature = nominal.signature :=
  have h : nominal.Assembled := .read readOntology_nominal
  ⟨h, h.signature_exact⟩

/-- The class of everything as a disjoint union. -/
def everything : Ontology :=
  .ofAxioms [.disjointUnion Iri.thing [.named ⟨"urn:a"⟩, .named ⟨"urn:b"⟩]]

theorem readOntology_everything :
    readOntology "Ontology(DisjointUnion(owl:Thing <urn:a> <urn:b>))" = .ok everything :=
  eq_ok_of_toOption (by decide +kernel)

/-- A predefined class that is said to be a disjoint union is among the classes of the signature. -/
theorem signature_of_predefined_union : everything.Assembled ∧ Iri.thing ∈ everything.signature.classes :=
  ⟨.read readOntology_everything, by decide +kernel⟩

end Ontology

end FixedDomain
