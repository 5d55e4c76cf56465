import Mathlib.Data.List.Pairwise
import FixedDomain.Proofs.Grounding.Membership

/-! # Rules of axioms

The rules of a supported axiom are satisfied exactly when the axiom is true (`axiomRules_meets`),
except that nothing is demanded of individuals that are said to be different, since distinct names
denote distinct elements anyway. Which pairs of elements or of expressions have a rule is told by the
lemmas on `Context.pairs`, `laterPairs` and `upperPairs`.
-/

namespace FixedDomain

/-! ## Pairs -/

section Pairs

variable {α : Type} {R : α → α → Prop} {xs : List α}

theorem mem_laterPairs {p : α × α} (h : p ∈ laterPairs xs) : p.1 ∈ xs ∧ p.2 ∈ xs := by
  induction xs with
  | nil => cases h
  | cons x xs ih =>
    rw [laterPairs, List.mem_append, List.mem_map] at h
    rcases h with ⟨y, hy, rfl⟩ | h
    · exact ⟨List.mem_cons_self, List.mem_cons_of_mem _ hy⟩
    · exact (ih h).imp (List.mem_cons_of_mem _) (List.mem_cons_of_mem _)

theorem forall_laterPairs_iff : (∀ p ∈ laterPairs xs, R p.1 p.2) ↔ xs.Pairwise R := by
  induction xs with
  | nil => simp [laterPairs]
  | cons x xs ih =>
    rw [List.pairwise_cons, ← ih]
    simp only [laterPairs, List.forall_mem_append, List.forall_mem_map]

theorem mem_upperPairs {p : α × α} (h : p ∈ upperPairs xs) : p.1 ∈ xs ∧ p.2 ∈ xs := by
  induction xs with
  | nil => cases h
  | cons x xs ih =>
    rw [upperPairs, List.cons_append, List.mem_cons, List.mem_append, List.mem_map] at h
    rcases h with rfl | ⟨y, hy, rfl⟩ | h
    · exact ⟨List.mem_cons_self, List.mem_cons_self⟩
    · exact ⟨List.mem_cons_self, List.mem_cons_of_mem _ hy⟩
    · exact (ih h).imp (List.mem_cons_of_mem _) (List.mem_cons_of_mem _)

theorem forall_upperPairs_iff (hsymm : ∀ x y, R x y → R y x) :
    (∀ p ∈ upperPairs xs, R p.1 p.2) ↔ ∀ x ∈ xs, ∀ y ∈ xs, R x y := by
  induction xs with
  | nil => simp [upperPairs]
  | cons x xs ih =>
    simp only [upperPairs, List.forall_mem_append, List.forall_mem_map, List.forall_mem_cons,
      ih]
    constructor
    · rintro ⟨⟨hself, hfirst⟩, hrest⟩
      exact ⟨⟨hself, hfirst⟩, fun y hy => ⟨hsymm x y (hfirst y hy), hrest y hy⟩⟩
    · rintro ⟨hfirst, hrest⟩
      exact ⟨hfirst, fun y hy => (hrest y hy).2⟩

end Pairs

namespace Context

theorem mem_pairs {c : Context} {x y : Element} :
    (x, y) ∈ c.pairs ↔ x ∈ c.elements ∧ y ∈ c.elements := by
  simp only [pairs, List.mem_flatMap, List.mem_map, Prod.mk.injEq]
  constructor
  · rintro ⟨x', hx, y', hy, rfl, rfl⟩
    exact ⟨hx, hy⟩
  · rintro ⟨hx, hy⟩
    exact ⟨x, hx, y, hy, rfl, rfl⟩

theorem forall_pairs_iff {c : Context} {P : Element → Element → Prop} :
    (∀ p ∈ c.pairs, P p.1 p.2) ↔ ∀ x ∈ c.elements, ∀ y ∈ c.elements, P x y :=
  ⟨fun h x hx y hy => h (x, y) (mem_pairs.2 ⟨hx, hy⟩),
    fun h _ hp => h _ (mem_pairs.1 hp).1 _ (mem_pairs.1 hp).2⟩

theorem forall_laterPairs_leads_iff {c : Context} (hc : c.Ready) {I : Evaluation Individual}
    {r : Role} {x : Element} :
    (∀ p ∈ laterPairs c.elements, ¬ (I.Leads r x.individual p.1.individual ∧
      I.Leads r x.individual p.2.individual)) ↔
    ∀ y ∈ c.elements, ∀ z ∈ c.elements, I.Leads r x.individual y.individual →
      I.Leads r x.individual z.individual → y = z := by
  rw [forall_laterPairs_iff (R := fun y z : Element =>
    ¬ (I.Leads r x.individual y.individual ∧ I.Leads r x.individual z.individual))]
  constructor
  · intro h y hy z hz hxy hxz
    by_contra hne
    have : Std.Symm fun y z : Element =>
        ¬ (I.Leads r x.individual y.individual ∧ I.Leads r x.individual z.individual) :=
      ⟨fun _ _ h h' => h h'.symm⟩
    exact h.forall hy hz hne ⟨hxy, hxz⟩
  · intro h
    exact hc.nodup_elements.pairwise_of_forall_ne fun y hy z hz hne hboth =>
      hne (h y hy z hz hboth.1 hboth.2)

/-! ## What is true of all pairs -/

namespace Describes

variable {c : Context} {I : Evaluation Individual} {S : Set Atom} (hS : c.Describes I S)
  {r s : Role}

include hS

theorem roleIncluded_iff : I.RoleIncluded r s ↔ ∀ p ∈ c.pairs,
    I.Leads r p.1.individual p.2.individual → I.Leads s p.1.individual p.2.individual := by
  rw [forall_pairs_iff (P := fun x y => I.Leads r x.individual y.individual →
    I.Leads s x.individual y.individual)]
  simp only [Interpretation.RoleIncluded, hS.forall_domain]

theorem roleDisjoint_iff : (∀ x ∈ I.domain, ∀ y ∈ I.domain, ¬ (I.Leads r x y ∧ I.Leads s x y)) ↔
    ∀ p ∈ c.pairs, ¬ (I.Leads r p.1.individual p.2.individual ∧
      I.Leads s p.1.individual p.2.individual) := by
  rw [forall_pairs_iff (P := fun x y => ¬ (I.Leads r x.individual y.individual ∧
    I.Leads s x.individual y.individual))]
  simp only [hS.forall_domain]

theorem domain_iff {d : ClassExpression} : I.Satisfies (.objectPropertyDomain r d) ↔
    ∀ p ∈ c.pairs, I.Leads r p.1.individual p.2.individual → I.Member d p.1.individual := by
  rw [forall_pairs_iff (P := fun x y => I.Leads r x.individual y.individual →
    I.Member d x.individual)]
  simp only [Evaluation.satisfies_objectPropertyDomain_iff, hS.forall_domain]

theorem range_iff {d : ClassExpression} : I.Satisfies (.objectPropertyRange r d) ↔
    ∀ p ∈ c.pairs, I.Leads r p.1.individual p.2.individual → I.Member d p.2.individual := by
  rw [forall_pairs_iff (P := fun x y => I.Leads r x.individual y.individual →
    I.Member d y.individual)]
  simp only [Evaluation.satisfies_objectPropertyRange_iff, hS.forall_domain]

theorem symmetric_iff : I.Satisfies (.symmetricObjectProperty r) ↔
    ∀ p ∈ c.pairs.filter fun (x, y) => x ≠ y,
      I.Leads r p.1.individual p.2.individual → I.Leads r p.2.individual p.1.individual := by
  simp only [Evaluation.Satisfies, Axiom.restated, Interpretation.Satisfies, hS.forall_domain]
  constructor
  · intro h p hp
    obtain ⟨hx, hy⟩ := mem_pairs.1 (List.mem_filter.1 hp).1
    exact h _ hx _ hy
  · intro h x hx y hy hxy
    by_cases heq : x = y
    · subst heq
      exact hxy
    · exact h (x, y) (List.mem_filter.2 ⟨mem_pairs.2 ⟨hx, hy⟩, by simpa using heq⟩) hxy

theorem asymmetric_iff : I.Satisfies (.asymmetricObjectProperty r) ↔
    ∀ p ∈ upperPairs c.elements, ¬ (I.Leads r p.1.individual p.2.individual ∧
      I.Leads r p.2.individual p.1.individual) := by
  rw [forall_upperPairs_iff (R := fun x y : Element =>
    ¬ (I.Leads r x.individual y.individual ∧ I.Leads r y.individual x.individual))
    fun _ _ h h' => h h'.symm]
  simp only [Evaluation.Satisfies, Axiom.restated, Interpretation.Satisfies, hS.forall_domain, not_and]

theorem transitive_iff : I.Satisfies (.transitiveObjectProperty r) ↔
    ∀ p ∈ c.pairs.filter fun (x, y) => x ≠ y, ∀ z ∈ c.elements.filter fun z => z ≠ p.2,
      I.Leads r p.1.individual p.2.individual ∧ I.Leads r p.2.individual z.individual →
        I.Leads r p.1.individual z.individual := by
  simp only [Evaluation.Satisfies, Axiom.restated, Interpretation.Satisfies, hS.forall_domain]
  constructor
  · intro h p hp z hz
    obtain ⟨hx, hy⟩ := mem_pairs.1 (List.mem_filter.1 hp).1
    exact fun hboth => h _ hx _ hy z (List.mem_filter.1 hz).1 hboth.1 hboth.2
  · -- a step that stays where it is adds nothing
    intro h x hx y hy z hz hxy hyz
    by_cases hxy' : x = y
    · rwa [hxy']
    · by_cases hzy : z = y
      · rwa [hzy]
      · exact h (x, y) (List.mem_filter.2 ⟨mem_pairs.2 ⟨hx, hy⟩, by simpa using hxy'⟩) z
          (List.mem_filter.2 ⟨hz, by simpa using hzy⟩) ⟨hxy, hyz⟩

/-- A role is functional if it leads from no element to two of the list of all elements. -/
theorem functional_iff (hc : c.Ready) : I.Functional r ↔
    ∀ x ∈ c.elements, ∀ p ∈ laterPairs c.elements,
      ¬ (I.Leads r x.individual p.1.individual ∧ I.Leads r x.individual p.2.individual) := by
  simp only [Interpretation.Functional, hS.forall_domain]
  apply forall₂_congr
  intro x _
  rw [forall_laterPairs_leads_iff hc]
  refine forall₄_congr fun y hy z hz => forall₂_congr fun _ _ => ?_
  exact ⟨hc.eq_of_individual_eq hy hz, congrArg _⟩

end Describes

end Context

namespace Grounding

variable {V : Set Entity} {c : Context}

/-! ## Classes -/

section Classes

variable {d e : ClassExpression} (hd : ∀ v ∈ d.vocabulary, v ∈ V) (he : ∀ v ∈ e.vocabulary, v ∈ V)

include hd he

theorem inclusion_meets (hc : c.Ready) : Meets V (inclusion d e) c
    fun c' rules => c'.Enforces (fun I => I.Included d e) rules := by
  refine .get ?_
  refine (Meets.collect_enforces (χ := fun x I => I.Member d x.individual →
    I.Member e x.individual) hc fun x hx c₁ h₁ => ?_).imp fun rules c' hgrows hr => ?_
  · apply (lhsBodies_meets hd h₁.ready (h₁.le.elements ▸ hx)).bind
    intro bodies c₂ h₂ hb
    have hx₂ : x ∈ c₂.elements := (Context.le_trans h₁.le h₂.le).elements ▸ hx
    refine (Meets.collect_enforces (χ := fun b I => c₂.Reading b I → I.Member e x.individual)
      h₂.ready fun b hmem c₃ h₃ => ?_).imp fun rules c₃ h₃ hr => hr.congr fun I S hS => ?_
    · -- each alternative for the left side has rules of its own
      exact assertMember_meets he h₃.ready (h₃.le.elements ▸ hx₂) ((hb.reading hmem).mono h₃.le)
    · rw [← hb.exists_reading_iff (hS.anti h₃.le)]
      simp only [forall_exists_index, and_imp]
  · apply hr.congr
    intro I S hS
    rw [I.included_iff, (hS.anti hgrows.le).forall_domain]

theorem disjointness_meets (hc : c.Ready) : Meets V (disjointness d e) c
    fun c' rules => c'.Enforces (fun I => I.Disjoint d e) rules := by
  refine .get ?_
  refine (Meets.collect_enforces (χ := fun x I => ¬ (I.Member d x.individual ∧
    I.Member e x.individual)) hc fun x hx c₁ h₁ => ?_).imp fun rules c' hgrows hr => ?_
  · apply (lhsBodies_meets hd h₁.ready (h₁.le.elements ▸ hx)).bind
    intro left c₂ h₂ hleft
    have hx₂ : x ∈ c₂.elements := (Context.le_trans h₁.le h₂.le).elements ▸ hx
    apply (lhsBodies_meets he h₂.ready hx₂).map
    intro right c₃ h₃ hright
    have := Context.Enforces.constraints ((hleft.mono h₃.le).product hright)
    simpa only [List.map_flatMap, List.map_map, Function.comp_def] using this
  · apply hr.congr
    intro I S hS
    rw [I.disjoint_iff, (hS.anti hgrows.le).forall_domain]

end Classes

theorem pairwiseDisjointness_meets {ds : List ClassExpression}
    (hds : ∀ v ∈ ClassExpression.vocabularyList ds, v ∈ V) (hc : c.Ready) :
    Meets V (pairwiseDisjointness ds) c
      fun c' rules => c'.Enforces (fun I => I.Satisfies (.disjointClasses ds)) rules := by
  have hparts : ∀ d ∈ ds, ∀ v ∈ d.vocabulary, v ∈ V := fun d hd v hv =>
    hds v (ClassExpression.mem_vocabularyList.2 ⟨d, hd, hv⟩)
  refine (Meets.collect_enforces (χ := fun p I => I.Disjoint p.1 p.2) hc fun p hp c₁ h₁ => ?_).imp
    fun rules c' _ hr => hr.congr fun I S _ => by
      rw [I.satisfies_disjointClasses_iff, forall_laterPairs_iff]
  exact disjointness_meets (hparts _ (mem_laterPairs hp).1) (hparts _ (mem_laterPairs hp).2)
    h₁.ready

theorem equivalence_meets {ds : List ClassExpression}
    (hds : ∀ v ∈ ClassExpression.vocabularyList ds, v ∈ V) (hc : c.Ready) :
    Meets V (equivalence ds) c
      fun c' rules => c'.Enforces (fun I => I.Satisfies (.equivalentClasses ds)) rules := by
  have hparts : ∀ d ∈ ds, ∀ v ∈ d.vocabulary, v ∈ V := fun d hd v hv =>
    hds v (ClassExpression.mem_vocabularyList.2 ⟨d, hd, hv⟩)
  cases ds with
  | nil => exact .pure hc (Context.Enforces.nil.congr fun I S _ => by
      simp [I.satisfies_equivalentClasses_iff])
  | cons d ds =>
    have hd := hparts d List.mem_cons_self
    refine (Meets.collect_enforces (χ := fun e I => I.Included d e ∧ I.Included e d) hc
      fun e hmem c₁ h₁ => ?_).imp fun rules c' _ hr => hr.congr fun I S _ => ?_
    · have he := hparts e (List.mem_cons_of_mem _ hmem)
      apply (inclusion_meets hd he h₁.ready).bind
      intro there c₂ h₂ hthere
      apply (inclusion_meets he hd h₂.ready).map
      intro back c₃ h₃ hback
      exact (hthere.mono h₃.le).append hback
    · exact I.forall_included_iff

/-! ## Roles -/

section Roles

variable {r s : Role} (hr : .objectProperty r.property ∈ V)

include hr

theorem roleInclusion_meets (hs : .objectProperty s.property ∈ V) (hc : c.Ready) :
    Meets V (roleInclusion r s) c
      fun c' rules => c'.Enforces (fun I => I.RoleIncluded r s) rules := by
  refine .get ?_
  refine (Meets.mapM_enforces (χ := fun p I => I.Leads r p.1.individual p.2.individual →
    I.Leads s p.1.individual p.2.individual) hc fun p hp c₁ h₁ => ?_).imp
    fun rules c' hgrows hrules => hrules.congr fun I S hS => ?_
  · obtain ⟨x, y⟩ := p
    obtain ⟨hx, hy⟩ := Context.mem_pairs.1 hp
    refine (roleAtom_meets h₁.ready hr (h₁.le.elements ▸ hx) (h₁.le.elements ▸ hy)).bind
      fun a c₂ h₂ ha => ?_
    have hle := Context.le_trans h₁.le h₂.le
    refine (roleAtom_meets h₂.ready hs (hle.elements ▸ hx) (hle.elements ▸ hy)).map
      fun b c₃ h₃ hb => ?_
    exact .derive (.pos (ha.mono h₃.le)) hb
  · exact (hS.anti hgrows.le).roleIncluded_iff.symm

/-- The constraints that no two roles of two pairs hold together. -/
theorem excludeBoth_meets {x y x' y' : Element} (hs : .objectProperty s.property ∈ V)
    (hc : c.Ready) (hx : x ∈ c.elements) (hy : y ∈ c.elements) (hx' : x' ∈ c.elements)
    (hy' : y' ∈ c.elements) :
    Meets V (do
      let first ← roleAtom r x y
      return excludeBoth first (← roleAtom s x' y')) c
      fun c' rule => c'.Enforces (fun I => ¬ (I.Leads r x.individual y.individual ∧
        I.Leads s x'.individual y'.individual)) [rule] := by
  apply (roleAtom_meets hc hr hx hy).bind
  intro a c₁ h₁ ha
  refine (roleAtom_meets h₁.ready hs (h₁.le.elements ▸ hx') (h₁.le.elements ▸ hy')).map
    fun b c₂ h₂ hb => ?_
  exact .constraint (.and (.pos (ha.mono h₂.le)) (.pos hb))

omit hr in
/-- The elements that are counted for the successors of an element. -/
theorem exists_successors {x : Element} {items : List Element} {found : List CountElement}
    (h : List.Forall₂ (fun y e => ∃ a, e = ⟨[y.constant], [.pos a]⟩ ∧
      c.States a fun I => I.Leads r x.individual y.individual) items found) :
    ∃ successors : List (Element × Body), countElements successors = found ∧
      successors.map (·.1) = items ∧ ∀ s ∈ successors,
        c.Decides (fun I => I.Leads r x.individual s.1.individual ∧ True) (some s.2) := by
  induction h with
  | nil => exact ⟨[], rfl, rfl, by simp⟩
  | @cons y e items found he _ ih =>
    obtain ⟨a, rfl, ha⟩ := he
    obtain ⟨successors, hfound, hitems, hdecides⟩ := ih
    refine ⟨(y, [.pos a]) :: successors, ?_, ?_, List.forall_mem_cons.2 ⟨?_, hdecides⟩⟩
    · rw [← hfound]
      rfl
    · rw [List.map_cons, hitems]
    · exact (Context.Decides.pos ha).congr fun I S _ => by simp

/-- A constraint on the number of all successors. -/
theorem atMostOne_meets {x : Element} (hc : c.Ready) (hx : x ∈ c.elements) :
    Meets V (do
      let elements ← (← get).elements.mapM fun y => do
        pure ⟨[y.constant], [.pos (← roleAtom r x y)]⟩
      pure [.constraint [.count elements .gt 1]]) c
      fun c' rules => c'.Enforces (fun I => ∀ p ∈ laterPairs c.elements,
        ¬ (I.Leads r x.individual p.1.individual ∧
          I.Leads r x.individual p.2.individual)) rules := by
  refine .get ?_
  refine (Meets.mapM (χ := fun y c' e => ∃ a, e = ⟨[y.constant], [.pos a]⟩ ∧
    c'.States a fun I => I.Leads r x.individual y.individual) hc ?_
    fun y hy c₁ h₁ => ?_).map fun found c₁ h₁ hfound => ?_
  · rintro y e c₁ c₂ h₁ ⟨a, he, ha⟩
    exact ⟨a, he, ha.mono h₁.le⟩
  · exact (roleAtom_meets h₁.ready hr (h₁.le.elements ▸ hx) (h₁.le.elements ▸ hy)).map
      fun a c₂ _ ha => ⟨a, rfl, ha⟩
  · obtain ⟨successors, rfl, hitems, hdecides⟩ := exists_successors hfound
    -- all elements are listed, so no successor is missed
    have hreaches : c₁.Reaches r x (fun _ _ => True) successors := by
      refine ⟨?_, hdecides, fun y hy hn => ?_⟩
      · rw [hitems, h₁.le.elements]
      · rw [hitems, ← h₁.le.elements] at hn
        exact absurd hy hn
    refine (Context.Enforces.constraint
      (Context.expresses_count h₁.ready hreaches .gt 1)).congr fun I S _ => ?_
    rw [← h₁.le.elements, Context.forall_laterPairs_leads_iff h₁.ready]
    simp only [Comparison.holds, decide_eq_true_eq, Set.one_lt_ncard_iff Context.reached_finite]
    constructor
    · intro h y hy z hz hxy hxz
      by_contra hne
      exact h ⟨y, z, ⟨hy, hxy, trivial⟩, ⟨hz, hxz, trivial⟩, hne⟩
    · rintro h ⟨y, z, ⟨hy, hxy, -⟩, ⟨hz, hxz, -⟩, hne⟩
      exact hne (h y hy z hz hxy hxz)

theorem functionality_meets (hc : c.Ready) : Meets V (functionality r) c
    fun c' rules => c'.Enforces (fun I => I.Functional r) rules := by
  refine .get ?_
  refine (Meets.collect_enforces (χ := fun x I => ∀ p ∈ laterPairs c.elements,
    ¬ (I.Leads r x.individual p.1.individual ∧ I.Leads r x.individual p.2.individual)) hc
    fun x hx c₁ h₁ => .get ?_).imp fun rules c' hgrows hrules => hrules.congr fun I S hS => ?_
  · have hx₁ : x ∈ c₁.elements := h₁.le.elements ▸ hx
    rw [← h₁.le.elements]
    -- with counts one constraint for each element, without one for each pair of successors
    split
    · exact atMostOne_meets hr h₁.ready hx₁
    · refine .get ?_
      apply Meets.mapM_enforces h₁.ready
      intro p hp c₂ h₂
      obtain ⟨hy, hz⟩ := mem_laterPairs hp
      exact excludeBoth_meets hr hr h₂.ready (h₂.le.elements ▸ hx₁) (h₂.le.elements ▸ hy)
        (h₂.le.elements ▸ hx₁) (h₂.le.elements ▸ hz)
  · exact ((hS.anti hgrows.le).functional_iff hc).symm

theorem typing_meets {d : ClassExpression} (hd : ∀ v ∈ d.vocabulary, v ∈ V)
    {typed : Element × Element → Element} (htyped : ∀ p ∈ c.pairs, typed p ∈ c.elements)
    (hc : c.Ready) : Meets V (typing r d typed) c fun c' rules => c'.Enforces (fun I =>
      ∀ p ∈ c.pairs, I.Leads r p.1.individual p.2.individual →
        I.Member d (typed p).individual) rules := by
  refine .get ?_
  apply Meets.collect_enforces hc
  intro p hp c₁ h₁
  have hx := htyped p hp
  obtain ⟨x, y⟩ := p
  obtain ⟨hx', hy'⟩ := Context.mem_pairs.1 hp
  refine (roleAtom_meets h₁.ready hr (h₁.le.elements ▸ hx') (h₁.le.elements ▸ hy')).bind
    fun a c₂ h₂ ha => ?_
  exact assertMember_meets hd h₂.ready ((Context.le_trans h₁.le h₂.le).elements ▸ hx) (.pos ha)

theorem transitivity_meets (hc : c.Ready) : Meets V (transitivity r) c
    fun c' rules => c'.Enforces (fun I => I.Satisfies (.transitiveObjectProperty r)) rules := by
  refine .get ?_
  refine (Meets.collect_enforces (χ := fun p I => ∀ z ∈ c.elements.filter fun z => z ≠ p.2,
    I.Leads r p.1.individual p.2.individual ∧ I.Leads r p.2.individual z.individual →
      I.Leads r p.1.individual z.individual) hc fun p hp c₁ h₁ => ?_).imp
    fun rules c' hgrows hrules => hrules.congr fun I S hS => ?_
  · obtain ⟨x, y⟩ := p
    obtain ⟨hx, hy⟩ := Context.mem_pairs.1 (List.mem_filter.1 hp).1
    refine .get ?_
    rw [h₁.le.elements]
    apply Meets.mapM_enforces h₁.ready
    intro z hz c₂ h₂
    have hz := (List.mem_filter.1 hz).1
    have hle₂ := Context.le_trans h₁.le h₂.le
    refine (roleAtom_meets h₂.ready hr (hle₂.elements ▸ hx) (hle₂.elements ▸ hy)).bind
      fun a c₃ h₃ ha => ?_
    have hle₃ := Context.le_trans hle₂ h₃.le
    refine (roleAtom_meets h₃.ready hr (hle₃.elements ▸ hy) (hle₃.elements ▸ hz)).bind
      fun b c₄ h₄ hb => ?_
    have hle₄ := Context.le_trans hle₃ h₄.le
    refine (roleAtom_meets h₄.ready hr (hle₄.elements ▸ hx) (hle₄.elements ▸ hz)).map
      fun d c₅ h₅ hd => ?_
    have ha := (ha.mono h₄.le).mono h₅.le
    exact .derive (.and (.pos ha) (.pos (hb.mono h₅.le))) hd
  · exact (hS.anti hgrows.le).transitive_iff.symm

theorem asymmetry_meets (hc : c.Ready) : Meets V (asymmetry r) c
    fun c' rules => c'.Enforces (fun I => I.Satisfies (.asymmetricObjectProperty r)) rules := by
  refine .get ?_
  refine (Meets.mapM_enforces (χ := fun p I => ¬ (I.Leads r p.1.individual p.2.individual ∧
    I.Leads r p.2.individual p.1.individual)) hc fun p hp c₁ h₁ => ?_).imp
    fun rules c' hgrows hrules => hrules.congr fun I S hS => ?_
  · obtain ⟨hx, hy⟩ := mem_upperPairs hp
    obtain ⟨x, y⟩ := p
    refine (roleAtom_meets h₁.ready hr (h₁.le.elements ▸ hx) (h₁.le.elements ▸ hy)).bind
      fun a c₂ h₂ ha => ?_
    split
    · next hxy =>
      subst hxy
      exact .pure h₂.ready ((Context.Enforces.constraint (.pos ha)).congr fun I S _ => by simp)
    · have hle := Context.le_trans h₁.le h₂.le
      refine (roleAtom_meets h₂.ready hr (hle.elements ▸ hy) (hle.elements ▸ hx)).map
        fun b c₃ h₃ hb => ?_
      exact .constraint (.and (.pos (ha.mono h₃.le)) (.pos hb))
  · exact (hS.anti hgrows.le).asymmetric_iff.symm

theorem symmetry_meets (hc : c.Ready) : Meets V (axiomRules (.symmetricObjectProperty r)) c
    fun c' rules => c'.Enforces (fun I => I.Satisfies (.symmetricObjectProperty r)) rules := by
  refine .get ?_
  refine (Meets.mapM_enforces (χ := fun p I => I.Leads r p.1.individual p.2.individual →
    I.Leads r p.2.individual p.1.individual) hc fun p hp c₁ h₁ => ?_).imp
    fun rules c' hgrows hrules => hrules.congr fun I S hS => ?_
  · obtain ⟨x, y⟩ := p
    obtain ⟨hx, hy⟩ := Context.mem_pairs.1 (List.mem_filter.1 hp).1
    refine (roleAtom_meets h₁.ready hr (h₁.le.elements ▸ hx) (h₁.le.elements ▸ hy)).bind
      fun a c₂ h₂ ha => ?_
    have hle := Context.le_trans h₁.le h₂.le
    refine (roleAtom_meets h₂.ready hr (hle.elements ▸ hy) (hle.elements ▸ hx)).map
      fun b c₃ h₃ hb => ?_
    exact .derive (.pos (ha.mono h₃.le)) hb
  · exact (hS.anti hgrows.le).symmetric_iff.symm

theorem reflexivity_meets (hc : c.Ready) : Meets V (axiomRules (.reflexiveObjectProperty r)) c
    fun c' rules => c'.Enforces (fun I => I.Satisfies (.reflexiveObjectProperty r)) rules := by
  refine .get ?_
  refine (Meets.mapM_enforces (χ := fun x I => I.Leads r x.individual x.individual) hc
    fun x hx c₁ h₁ => ?_).imp fun rules c' hgrows hrules => hrules.congr fun I S hS => ?_
  · refine (roleAtom_meets h₁.ready hr (h₁.le.elements ▸ hx) (h₁.le.elements ▸ hx)).map
      fun a c₂ _ ha => ?_
    exact .fact ha
  · simp only [Evaluation.Satisfies, Axiom.restated, Interpretation.Satisfies]
    rw [(hS.anti hgrows.le).forall_domain]

theorem irreflexivity_meets (hc : c.Ready) : Meets V (axiomRules (.irreflexiveObjectProperty r)) c
    fun c' rules => c'.Enforces (fun I => I.Satisfies (.irreflexiveObjectProperty r)) rules := by
  refine .get ?_
  refine (Meets.mapM_enforces (χ := fun x I => ¬ I.Leads r x.individual x.individual) hc
    fun x hx c₁ h₁ => ?_).imp fun rules c' hgrows hrules => hrules.congr fun I S hS => ?_
  · refine (roleAtom_meets h₁.ready hr (h₁.le.elements ▸ hx) (h₁.le.elements ▸ hx)).map
      fun a c₂ _ ha => ?_
    exact .constraint (.pos ha)
  · simp only [Evaluation.Satisfies, Axiom.restated, Interpretation.Satisfies]
    rw [(hS.anti hgrows.le).forall_domain]

theorem roleAssertion_meets {i j : Individual} (hi : .individual i.iri ∈ V)
    (hj : .individual j.iri ∈ V) (hc : c.Ready) :
    Meets V (axiomRules (.objectPropertyAssertion r i j)) c
      fun c' rules => c'.Enforces (fun I => I.Satisfies (.objectPropertyAssertion r i j)) rules := by
  apply (element_meets hc hi).bind
  intro x c₁ h₁ hx
  apply (element_meets h₁.ready hj).bind
  intro y c₂ h₂ hy
  apply (roleAtom_meets h₂.ready hr (h₂.le.elements ▸ hx.1) hy.1).map
  intro a c₃ _ ha
  exact (Context.Enforces.fact ha).congr fun I S hS => by
    simp only [Evaluation.Satisfies, Axiom.restated, Interpretation.Satisfies]
    rw [hS.denote, hx.2, hy.2, id, id]

theorem negativeRoleAssertion_meets {i j : Individual} (hi : .individual i.iri ∈ V)
    (hj : .individual j.iri ∈ V) (hc : c.Ready) :
    Meets V (axiomRules (.negativeObjectPropertyAssertion r i j)) c fun c' rules =>
      c'.Enforces (fun I => I.Satisfies (.negativeObjectPropertyAssertion r i j)) rules := by
  apply (element_meets hc hi).bind
  intro x c₁ h₁ hx
  apply (element_meets h₁.ready hj).bind
  intro y c₂ h₂ hy
  apply (roleAtom_meets h₂.ready hr (h₂.le.elements ▸ hx.1) hy.1).map
  intro a c₃ _ ha
  exact (Context.Enforces.fact_complement ha).congr fun I S hS => by
    simp only [Evaluation.Satisfies, Axiom.restated, Interpretation.Satisfies]
    rw [hS.denote, hx.2, hy.2, id, id]

end Roles

theorem roleEquivalence_meets {rs : List Role} (hrs : ∀ r ∈ rs, .objectProperty r.property ∈ V)
    (hc : c.Ready) : Meets V (roleEquivalence rs) c
      fun c' rules => c'.Enforces (fun I => ∀ r ∈ rs, ∀ s ∈ rs, I.RoleIncluded r s) rules := by
  cases rs with
  | nil => exact .pure hc (Context.Enforces.nil.congr fun I S _ => by simp)
  | cons r rs =>
    have hr := hrs r List.mem_cons_self
    refine (Meets.collect_enforces (χ := fun s I => I.RoleIncluded r s ∧ I.RoleIncluded s r) hc
      fun s hmem c₁ h₁ => ?_).imp fun rules c' _ hr => hr.congr fun I S _ => ?_
    · have hs := hrs s (List.mem_cons_of_mem _ hmem)
      apply (roleInclusion_meets hr hs h₁.ready).bind
      intro there c₂ h₂ hthere
      apply (roleInclusion_meets hs hr h₂.ready).map
      intro back c₃ h₃ hback
      exact (hthere.mono h₃.le).append hback
    · exact I.forall_roleIncluded_iff

theorem roleDisjointness_meets {rs : List Role} (hrs : ∀ r ∈ rs, .objectProperty r.property ∈ V)
    (hc : c.Ready) : Meets V (axiomRules (.disjointObjectProperties rs)) c
      fun c' rules => c'.Enforces (fun I => I.Satisfies (.disjointObjectProperties rs)) rules := by
  refine (Meets.collect_enforces (χ := fun p I => ∀ x ∈ I.domain, ∀ y ∈ I.domain,
    ¬ (I.Leads p.1 x y ∧ I.Leads p.2 x y)) hc fun p hp c₁ h₁ => .get ?_).imp
    fun rules c' _ hrules => hrules.congr fun I S hS => ?_
  · obtain ⟨hr, hs⟩ := mem_laterPairs hp
    obtain ⟨r, s⟩ := p
    refine (Meets.mapM_enforces (χ := fun q I => ¬ (I.Leads r q.1.individual q.2.individual ∧
      I.Leads s q.1.individual q.2.individual)) h₁.ready fun q hq c₂ h₂ => ?_).imp
      fun rules c₂ h₂ hrules => hrules.congr fun I S hS => ?_
    · obtain ⟨x, y⟩ := q
      obtain ⟨hx, hy⟩ := Context.mem_pairs.1 hq
      exact excludeBoth_meets (hrs r hr) (hrs s hs) h₂.ready (h₂.le.elements ▸ hx)
        (h₂.le.elements ▸ hy) (h₂.le.elements ▸ hx) (h₂.le.elements ▸ hy)
    · exact (hS.anti h₂.le).roleDisjoint_iff.symm
  · simp only [Evaluation.Satisfies, Axiom.restated, Interpretation.Satisfies]
    rw [← forall_laterPairs_iff]

/-! ## Individuals -/

theorem differ_eq_false_iff {xs : List Element} :
    differ xs = false ↔ ∀ x ∈ xs, ∀ y ∈ xs, x = y := by
  cases xs with
  | nil => simp [differ]
  | cons x xs =>
    rw [← Interpretation.forall_first_iff (fun _ => rfl) (fun _ _ _ => Eq.trans)]
    simp only [differ, List.any_eq_false, decide_not, Bool.not_eq_true', decide_eq_false_iff_not,
      not_not]
    exact ⟨fun h y hy => ⟨(h y hy).symm, h y hy⟩, fun h y hy => (h y hy).2⟩

/-- The elements that some individuals are, and the individuals that these are. -/
theorem map_individual {is : List Individual} {members : List Element}
    (h : List.Forall₂ (fun i x => x ∈ c.elements ∧ x.individual = i) is members) :
    members.map (·.individual) = is ∧ ∀ x ∈ members, x ∈ c.elements := by
  induction h with
  | nil => exact ⟨rfl, by simp⟩
  | cons hx _ ih => exact ⟨by rw [List.map_cons, hx.2, ih.1], List.forall_mem_cons.2 ⟨hx.1, ih.2⟩⟩

/-- Individuals denote the same object if their elements are the same. -/
theorem satisfies_sameIndividual_iff (hc : c.Ready) {I : Evaluation Individual}
    (hI : I.denote = id) {members : List Element} (h : ∀ x ∈ members, x ∈ c.elements) :
    I.Satisfies (.sameIndividual (members.map (·.individual))) ↔ differ members = false := by
  simp only [differ_eq_false_iff, Evaluation.Satisfies, Axiom.restated, Interpretation.Satisfies, hI,
    List.forall_mem_map]
  apply forall₂_congr
  intro x hx
  exact forall₂_congr fun y hy => ⟨hc.eq_of_individual_eq (h x hx) (h y hy), congrArg _⟩

theorem sameIndividual_meets {is : List Individual} (his : ∀ i ∈ is, .individual i.iri ∈ V)
    (hc : c.Ready) : Meets V (axiomRules (.sameIndividual is)) c
      fun c' rules => c'.Enforces (fun I => I.Satisfies (.sameIndividual is)) rules := by
  apply (members_meets hc his).map
  intro members c' hgrows hm
  obtain ⟨rfl, helements⟩ := map_individual hm
  split
  · next hd =>
    exact (Context.Enforces.constraint .always).congr fun I S hS => by
      simp [satisfies_sameIndividual_iff hgrows.ready hS.denote helements, hd]
  · next hd =>
    exact Context.Enforces.nil.congr fun I S hS => by
      simp [satisfies_sameIndividual_iff hgrows.ready hS.denote helements, hd]

/-! ## Axioms -/

/-- The entities that the rules of an axiom are about. A declaration has no rules. -/
def entities : Axiom → List Entity
  | .declaration _ => []
  | a => a.vocabulary

/-- The rules of a supported axiom are satisfied exactly when it is respected. -/
theorem axiomRules_meets {a : Axiom} (ha : a.IsSupported) (hV : ∀ v ∈ entities a, v ∈ V)
    (hc : c.Ready) : Meets V (axiomRules a) c
      fun c' rules => c'.Enforces (fun I => I.Respects a) rules := by
  cases a with
  | declaration e => exact .pure hc Context.Enforces.nil
  | subClassOf d e =>
    simp only [entities, Axiom.vocabulary, List.forall_mem_append] at hV
    exact inclusion_meets hV.1 hV.2 hc
  | equivalentClasses ds => exact equivalence_meets hV hc
  | disjointClasses ds => exact pairwiseDisjointness_meets hV hc
  | disjointUnion whole parts =>
    simp only [entities, Axiom.vocabulary, List.forall_mem_cons] at hV
    have hequal : ∀ v ∈ ClassExpression.vocabularyList [.named whole, .unionOf parts], v ∈ V := by
      simpa [ClassExpression.vocabularyList, ClassExpression.vocabulary] using hV
    apply (equivalence_meets hequal hc).bind
    intro equal c₁ h₁ he
    apply (pairwiseDisjointness_meets hV.2 h₁.ready).map
    intro disjoint c₂ h₂ hd
    exact ((he.mono h₂.le).append hd).congr fun I S _ => I.satisfies_disjointUnion_iff.symm
  | subObjectPropertyOf r s =>
    have hrs : ∀ r' ∈ [r, s], .objectProperty r'.property ∈ V := List.forall_mem_map.1 hV
    exact roleInclusion_meets (hrs r (by simp)) (hrs s (by simp)) hc
  | equivalentObjectProperties rs => exact roleEquivalence_meets (List.forall_mem_map.1 hV) hc
  | disjointObjectProperties rs => exact roleDisjointness_meets (List.forall_mem_map.1 hV) hc
  | inverseObjectProperties r s =>
    have hrs : ∀ r' ∈ [r, s.inverse], .objectProperty r'.property ∈ V := by
      simpa [entities, Axiom.vocabulary, Axiom.rolesVocabulary] using hV
    refine (roleEquivalence_meets hrs hc).imp fun rules c' _ hr => hr.congr fun I S _ => ?_
    exact I.satisfies_inverseObjectProperties_iff.symm
  | objectPropertyDomain r d =>
    simp only [entities, Axiom.vocabulary, List.forall_mem_append] at hV
    refine (typing_meets (hV.1 _ List.mem_cons_self) hV.2
      (fun p hp => (Context.mem_pairs.1 hp).1) hc).imp
      fun rules c' hgrows hr => hr.congr fun I S hS => ?_
    exact (hS.anti hgrows.le).domain_iff.symm
  | objectPropertyRange r d =>
    simp only [entities, Axiom.vocabulary, List.forall_mem_append] at hV
    refine (typing_meets (hV.1 _ List.mem_cons_self) hV.2
      (fun p hp => (Context.mem_pairs.1 hp).2) hc).imp
      fun rules c' hgrows hr => hr.congr fun I S hS => ?_
    exact (hS.anti hgrows.le).range_iff.symm
  | functionalObjectProperty r => exact functionality_meets (hV _ List.mem_cons_self) hc
  | inverseFunctionalObjectProperty r =>
    exact functionality_meets (r.property_inverse ▸ hV _ List.mem_cons_self) hc
  | reflexiveObjectProperty r => exact reflexivity_meets (hV _ List.mem_cons_self) hc
  | irreflexiveObjectProperty r => exact irreflexivity_meets (hV _ List.mem_cons_self) hc
  | symmetricObjectProperty r => exact symmetry_meets (hV _ List.mem_cons_self) hc
  | asymmetricObjectProperty r => exact asymmetry_meets (hV _ List.mem_cons_self) hc
  | transitiveObjectProperty r => exact transitivity_meets (hV _ List.mem_cons_self) hc
  | sameIndividual is => exact sameIndividual_meets (List.forall_mem_map.1 hV) hc
  | differentIndividuals is =>
    exact (members_meets hc (List.forall_mem_map.1 hV)).map fun _ _ _ _ => Context.Enforces.nil
  | classAssertion d i =>
    simp only [entities, Axiom.vocabulary, List.forall_mem_append] at hV
    apply (element_meets hc (hV.2 _ List.mem_cons_self)).bind
    intro x c₁ h₁ hx
    refine (assertMember_meets hV.1 h₁.ready hx.1 .always).imp
      fun rules c' _ hr => hr.congr fun I S hS => ?_
    rw [Evaluation.respects_eq_satisfies _ (by simp), Evaluation.satisfies_classAssertion_iff,
      hS.denote, hx.2, id, true_imp_iff]
  | objectPropertyAssertion r i j =>
    simp only [entities, Axiom.vocabulary, List.forall_mem_append] at hV
    have hij : ∀ i' ∈ [i, j], .individual i'.iri ∈ V := List.forall_mem_map.1 hV.2
    exact roleAssertion_meets (hV.1 _ List.mem_cons_self) (hij i (by simp)) (hij j (by simp)) hc
  | negativeObjectPropertyAssertion r i j =>
    simp only [entities, Axiom.vocabulary, List.forall_mem_append] at hV
    have hij : ∀ i' ∈ [i, j], .individual i'.iri ∈ V := List.forall_mem_map.1 hV.2
    exact negativeRoleAssertion_meets (hV.1 _ List.mem_cons_self) (hij i (by simp)) (hij j (by simp)) hc
  | unsupported keyword source => cases ha

end Grounding

end FixedDomain
