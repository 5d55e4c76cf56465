import FixedDomain.Proofs.Ontology

/-! # Isomorphic interpretations

A map is an isomorphism if it is one to one between the domains and keeps classes, properties and what
some named individuals denote. Expressions and axioms that use no other individuals have the same
meaning on both sides (`Isomorphism.member_iff`, `Isomorphism.satisfies_iff`).
-/

namespace FixedDomain.Interpretation

variable {Δ Δ' : Type}

/-- A map between the domains of two interpretations keeps what they say, as far as only some
individuals are named. -/
structure Isomorphism (f : Δ → Δ') (I : Interpretation Δ) (J : Interpretation Δ')
    (named : Set Individual) : Prop where
  bijOn : Set.BijOn f I.domain J.domain
  classes : ∀ iri, ∀ x ∈ I.domain, f x ∈ J.classes iri ↔ x ∈ I.classes iri
  properties : ∀ p, ∀ x ∈ I.domain, ∀ y ∈ I.domain, J.properties p (f x) (f y) ↔ I.properties p x y
  denote_mem : ∀ i ∈ named, I.denote i ∈ I.domain
  denote : ∀ i ∈ named, J.denote i = f (I.denote i)

namespace Isomorphism

variable {f : Δ → Δ'} {I : Interpretation Δ} {J : Interpretation Δ'} {named : Set Individual}
  (h : Isomorphism f I J named)

include h

/-! ## Objects -/

theorem forall_iff {P : Δ' → Prop} : (∀ y ∈ J.domain, P y) ↔ ∀ x ∈ I.domain, P (f x) := by
  rw [← h.bijOn.image_eq, Set.forall_mem_image]

theorem exists_iff {P : Δ' → Prop} : (∃ y ∈ J.domain, P y) ↔ ∃ x ∈ I.domain, P (f x) := by
  rw [← h.bijOn.image_eq, Set.exists_mem_image]

theorem encard_eq {P : Δ' → Prop} {Q : Δ → Prop} (hPQ : ∀ x ∈ I.domain, P (f x) ↔ Q x) :
    {y | y ∈ J.domain ∧ P y}.encard = {x | x ∈ I.domain ∧ Q x}.encard := by
  have himage : {y | y ∈ J.domain ∧ P y} = f '' {x | x ∈ I.domain ∧ Q x} := by
    ext y
    constructor
    · rintro ⟨hy, hP⟩
      obtain ⟨x, hx, rfl⟩ := h.bijOn.surjOn hy
      exact ⟨x, ⟨hx, (hPQ x hx).1 hP⟩, rfl⟩
    · rintro ⟨x, ⟨hx, hQ⟩, rfl⟩
      exact ⟨h.bijOn.mapsTo hx, (hPQ x hx).2 hQ⟩
  rw [himage]
  exact (h.bijOn.injOn.mono fun _ hx => hx.1).encard_image

/-! ## Roles -/

theorem leads_iff (r : Role) {x y : Δ} (hx : x ∈ I.domain) (hy : y ∈ I.domain) :
    J.Leads r (f x) (f y) ↔ I.Leads r x y := by
  cases r with
  | named p => exact h.properties p x hx y hy
  | inverseOf p => exact h.properties p y hy x hx

/-! ## Class expressions -/

omit h

mutual

theorem member_iff (h : Isomorphism f I J named) :
    ∀ c : ClassExpression, (∀ i : Individual, .individual i.iri ∈ c.vocabulary → i ∈ named) →
      ∀ x ∈ I.domain, J.Member c (f x) ↔ I.Member c x
  | .named iri, _, x, hx => h.classes iri x hx
  | .thing, _, _, _ => Iff.rfl
  | .nothing, _, _, _ => Iff.rfl
  | .intersectionOf cs, hc, x, hx => memberAll_iff h cs hc x hx
  | .unionOf cs, hc, x, hx => memberSome_iff h cs hc x hx
  | .complementOf c, hc, x, hx => not_congr (member_iff h c hc x hx)
  | .oneOf is, hc, x, hx => exists_congr fun i => and_congr_right fun hi => by
    have hnamed := hc i (List.mem_map_of_mem hi)
    rw [h.denote i hnamed]
    exact h.bijOn.injOn.eq_iff (h.denote_mem i hnamed) hx
  | .someValuesFrom r c, hc, x, hx => h.exists_iff.trans <|
    exists_congr fun y => and_congr_right fun hy => and_congr (h.leads_iff r hx hy) <|
      member_iff h c (fun i hi => hc i (List.mem_cons_of_mem _ hi)) y hy
  | .allValuesFrom r c, hc, x, hx => h.forall_iff.trans <|
    forall₂_congr fun y hy => imp_congr (h.leads_iff r hx hy) <|
      member_iff h c (fun i hi => hc i (List.mem_cons_of_mem _ hi)) y hy
  | .hasValue r i, hc, x, hx => by
    have hnamed := hc i (List.mem_cons_of_mem _ (List.mem_singleton_self _))
    rw [Member, Member, h.denote i hnamed]
    exact h.leads_iff r hx (h.denote_mem i hnamed)
  | .hasSelf r, _, x, hx => h.leads_iff r hx hx
  | .minCardinality n r c, hc, x, hx => by
    rw [Member, Member, h.encard_eq (fun y hy => successor_iff h r c hc x hx y hy)]
  | .maxCardinality n r c, hc, x, hx => by
    rw [Member, Member, h.encard_eq (fun y hy => successor_iff h r c hc x hx y hy)]
  | .exactCardinality n r c, hc, x, hx => by
    rw [Member, Member, h.encard_eq (fun y hy => successor_iff h r c hc x hx y hy)]

theorem memberAll_iff (h : Isomorphism f I J named) : ∀ cs : List ClassExpression,
    (∀ i : Individual, .individual i.iri ∈ ClassExpression.vocabularyList cs → i ∈ named) →
      ∀ x ∈ I.domain, J.MemberAll cs (f x) ↔ I.MemberAll cs x
  | [], _, _, _ => Iff.rfl
  | c :: cs, hcs, x, hx =>
    and_congr (member_iff h c (fun i hi => hcs i (List.mem_append_left _ hi)) x hx)
      (memberAll_iff h cs (fun i hi => hcs i (List.mem_append_right _ hi)) x hx)

theorem memberSome_iff (h : Isomorphism f I J named) : ∀ cs : List ClassExpression,
    (∀ i : Individual, .individual i.iri ∈ ClassExpression.vocabularyList cs → i ∈ named) →
      ∀ x ∈ I.domain, J.MemberSome cs (f x) ↔ I.MemberSome cs x
  | [], _, _, _ => Iff.rfl
  | c :: cs, hcs, x, hx =>
    or_congr (member_iff h c (fun i hi => hcs i (List.mem_append_left _ hi)) x hx)
      (memberSome_iff h cs (fun i hi => hcs i (List.mem_append_right _ hi)) x hx)

theorem successor_iff (h : Isomorphism f I J named) (r : Role) : ∀ c : Option ClassExpression,
    (∀ i : Individual, .individual i.iri ∈ .objectProperty r.property ::
      ClassExpression.vocabularyFiller c → i ∈ named) → ∀ x ∈ I.domain, ∀ y ∈ I.domain,
      J.Leads r (f x) (f y) ∧ J.MemberFiller c (f y) ↔ I.Leads r x y ∧ I.MemberFiller c y
  | none, _, _, hx, _, hy => and_congr_left' (h.leads_iff r hx hy)
  | some c, hc, _, hx, y, hy => and_congr (h.leads_iff r hx hy) <|
    member_iff h c (fun i hi => hc i (List.mem_cons_of_mem _ hi)) y hy

end

/-! ## Axioms -/

include h

theorem leads_denote_iff (r : Role) {i j : Individual} (hi : i ∈ named) (hj : j ∈ named) :
    J.Leads r (J.denote i) (J.denote j) ↔ I.Leads r (I.denote i) (I.denote j) := by
  rw [h.denote i hi, h.denote j hj]
  exact h.leads_iff r (h.denote_mem i hi) (h.denote_mem j hj)

theorem denote_eq_iff {i j : Individual} (hi : i ∈ named) (hj : j ∈ named) :
    J.denote i = J.denote j ↔ I.denote i = I.denote j := by
  rw [h.denote i hi, h.denote j hj]
  exact h.bijOn.injOn.eq_iff (h.denote_mem i hi) (h.denote_mem j hj)

theorem included_iff {c d : ClassExpression}
    (hc : ∀ i : Individual, .individual i.iri ∈ c.vocabulary → i ∈ named)
    (hd : ∀ i : Individual, .individual i.iri ∈ d.vocabulary → i ∈ named) :
    J.Included c d ↔ I.Included c d :=
  h.forall_iff.trans <| forall₂_congr fun x hx =>
    imp_congr (h.member_iff c hc x hx) (h.member_iff d hd x hx)

theorem pairwise_disjoint_iff {cs : List ClassExpression}
    (hcs : ∀ c ∈ cs, ∀ i : Individual, .individual i.iri ∈ c.vocabulary → i ∈ named) :
    cs.Pairwise J.Disjoint ↔ cs.Pairwise I.Disjoint :=
  List.Pairwise.iff_of_mem fun {c d} hc hd => h.forall_iff.trans <| forall₂_congr fun x hx =>
    not_congr (and_congr (h.member_iff c (hcs c hc) x hx) (h.member_iff d (hcs d hd) x hx))

theorem forall_forall_iff {P : Δ' → Δ' → Prop} {Q : Δ → Δ → Prop}
    (hPQ : ∀ x ∈ I.domain, ∀ y ∈ I.domain, P (f x) (f y) ↔ Q x y) :
    (∀ x ∈ J.domain, ∀ y ∈ J.domain, P x y) ↔ ∀ x ∈ I.domain, ∀ y ∈ I.domain, Q x y :=
  h.forall_iff.trans <| forall₂_congr fun x hx => h.forall_iff.trans <| forall₂_congr (hPQ x hx)

theorem roleIncluded_iff (r s : Role) : J.RoleIncluded r s ↔ I.RoleIncluded r s :=
  h.forall_forall_iff fun _ hx _ hy => imp_congr (h.leads_iff r hx hy) (h.leads_iff s hx hy)

theorem functional_iff (r : Role) : J.Functional r ↔ I.Functional r :=
  h.forall_forall_iff fun _ hx _ hy => h.forall_iff.trans <| forall₂_congr fun _ hz =>
    imp_congr (h.leads_iff r hx hy) <| imp_congr (h.leads_iff r hx hz) <|
      h.bijOn.injOn.eq_iff hy hz

/-- Both sides satisfy the same axioms about the named individuals. -/
theorem satisfies_iff {a : Axiom} (ha : ∀ i ∈ a.individualsAsserted, i ∈ named) :
    J.Satisfies a ↔ I.Satisfies a := by
  have hnamed : ∀ i : Individual, .individual i.iri ∈ Grounding.entities a → i ∈ named :=
    fun i hi => ha i (mem_individualsAsserted_iff.2 hi)
  cases a with
  | declaration _ => exact Iff.rfl
  | unsupported _ _ => exact Iff.rfl
  | subClassOf c d =>
    exact h.included_iff (fun i hi => hnamed i (List.mem_append_left _ hi))
      fun i hi => hnamed i (List.mem_append_right _ hi)
  | equivalentClasses cs =>
    have hcs : ∀ c ∈ cs, ∀ i : Individual, .individual i.iri ∈ c.vocabulary → i ∈ named :=
      fun c hc i hi => hnamed i (ClassExpression.mem_vocabularyList.2 ⟨c, hc, hi⟩)
    exact forall₂_congr fun c hc => forall₂_congr fun d hd => h.included_iff (hcs c hc) (hcs d hd)
  | disjointClasses cs =>
    exact h.pairwise_disjoint_iff fun c hc i hi =>
      hnamed i (ClassExpression.mem_vocabularyList.2 ⟨c, hc, hi⟩)
  | disjointUnion whole parts =>
    have hparts : ∀ c ∈ parts, ∀ i : Individual, .individual i.iri ∈ c.vocabulary → i ∈ named :=
      fun c hc i hi => hnamed i <|
        List.mem_cons_of_mem _ (ClassExpression.mem_vocabularyList.2 ⟨c, hc, hi⟩)
    refine and_congr ?_ (h.pairwise_disjoint_iff hparts)
    exact h.forall_iff.trans <| forall₂_congr fun x hx => iff_congr (h.classes whole x hx) <|
      exists_congr fun c => and_congr_right fun hc => h.member_iff c (hparts c hc) x hx
  | subObjectPropertyOf r s => exact h.roleIncluded_iff r s
  | equivalentObjectProperties rs =>
    exact forall₂_congr fun r _ => forall₂_congr fun s _ => h.roleIncluded_iff r s
  | disjointObjectProperties rs =>
    exact List.Pairwise.iff fun r s => h.forall_forall_iff fun _ hx _ hy =>
      not_congr (and_congr (h.leads_iff r hx hy) (h.leads_iff s hx hy))
  | inverseObjectProperties r s =>
    exact h.forall_forall_iff fun _ hx _ hy => iff_congr (h.leads_iff r hx hy) (h.leads_iff s hy hx)
  | objectPropertyDomain r c =>
    exact h.forall_forall_iff fun x hx _ hy => imp_congr (h.leads_iff r hx hy) <|
      h.member_iff c (fun i hi => hnamed i (List.mem_cons_of_mem _ hi)) x hx
  | objectPropertyRange r c =>
    exact h.forall_forall_iff fun _ hx y hy => imp_congr (h.leads_iff r hx hy) <|
      h.member_iff c (fun i hi => hnamed i (List.mem_cons_of_mem _ hi)) y hy
  | functionalObjectProperty r => exact h.functional_iff r
  | inverseFunctionalObjectProperty r => exact h.functional_iff r.inverse
  | reflexiveObjectProperty r =>
    exact h.forall_iff.trans <| forall₂_congr fun _ hx => h.leads_iff r hx hx
  | irreflexiveObjectProperty r =>
    exact h.forall_iff.trans <| forall₂_congr fun _ hx => not_congr (h.leads_iff r hx hx)
  | symmetricObjectProperty r =>
    exact h.forall_forall_iff fun _ hx _ hy => imp_congr (h.leads_iff r hx hy) (h.leads_iff r hy hx)
  | asymmetricObjectProperty r =>
    exact h.forall_forall_iff fun _ hx _ hy =>
      imp_congr (h.leads_iff r hx hy) (not_congr (h.leads_iff r hy hx))
  | transitiveObjectProperty r =>
    exact h.forall_forall_iff fun _ hx _ hy => h.forall_iff.trans <| forall₂_congr fun _ hz =>
      imp_congr (h.leads_iff r hx hy) (imp_congr (h.leads_iff r hy hz) (h.leads_iff r hx hz))
  | sameIndividual is =>
    have his : ∀ i ∈ is, i ∈ named := fun i hi => hnamed i (List.mem_map_of_mem hi)
    exact forall₂_congr fun i hi => forall₂_congr fun j hj => h.denote_eq_iff (his i hi) (his j hj)
  | differentIndividuals is =>
    have his : ∀ i ∈ is, i ∈ named := fun i hi => hnamed i (List.mem_map_of_mem hi)
    exact List.Pairwise.iff_of_mem fun hi hj => not_congr (h.denote_eq_iff (his _ hi) (his _ hj))
  | classAssertion c i =>
    have hi : i ∈ named := hnamed i (List.mem_append_right _ (List.mem_singleton_self _))
    rw [Satisfies, Satisfies, h.denote i hi]
    exact h.member_iff c (fun i hi => hnamed i (List.mem_append_left _ hi)) _ (h.denote_mem i hi)
  | objectPropertyAssertion r i j =>
    have hi : i ∈ named := hnamed i (List.mem_append_right _ List.mem_cons_self)
    have hj : j ∈ named :=
      hnamed j (List.mem_append_right _ (List.mem_cons_of_mem _ List.mem_cons_self))
    exact h.leads_denote_iff r hi hj
  | negativeObjectPropertyAssertion r i j =>
    have hi : i ∈ named := hnamed i (List.mem_append_right _ List.mem_cons_self)
    have hj : j ∈ named :=
      hnamed j (List.mem_append_right _ (List.mem_cons_of_mem _ List.mem_cons_self))
    exact not_congr (h.leads_denote_iff r hi hj)

end Isomorphism

end FixedDomain.Interpretation
