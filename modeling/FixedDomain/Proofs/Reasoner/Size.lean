import FixedDomain.Proofs.Grounding.Reuse
import FixedDomain.Proofs.Grounding.Tally
import FixedDomain.Proofs.Reasoner.Activation

/-! # The size of the counting encoding

The counting encoding is meant to be the smaller one: it does not name what it unfolds. What it saves are
the auxiliary predicates of the generic encoding that it has no use for (`direct_size`). Against this stand
what is unfolded more than once (`Axiom.repetition`), lower bounds that no element can meet
(`ClassExpression.exceeds`), and predicates that it alone needs where what is asserted is not plain
(`Axiom.isPlain`). Each of them can make it the larger one (`direct_larger`).
-/

namespace FixedDomain

namespace Context

/-- How many rules of a program define the auxiliary predicates of expressions with a property. -/
def rulesDefining (c : Context) (p : Program) (which : ClassExpression → Bool) : Nat :=
  ((c.definitions.zipIdx.filter fun entry => which entry.1).map fun entry =>
    (p.rules.filter (·.derives (auxName (entry.2 + 1)))).length).sum

variable {κ κ₁ κ₂ : Context} {p : Program}

theorem rulesDefining_eq (h : κ.Emitted p.rules) (which : ClassExpression → Bool) :
    κ.rulesDefining p which = ((κ.definitions.filter which).map κ.definitionSize).sum := by
  have hentry : ∀ entry ∈ κ.definitions.zipIdx.filter fun entry => which entry.1,
      (p.rules.filter (·.derives (auxName (entry.2 + 1)))).length = κ.definitionSize entry.1 := by
    rintro ⟨d, k⟩ hmem
    obtain ⟨bodies, hbodies, hrules⟩ :=
      h.defined k d (List.mem_zipIdx_iff_getElem?.1 (List.mem_of_mem_filter hmem))
    rw [hrules, length_definitionRules, definitionSize_eq hbodies κ.le_refl]
  have hfilter : κ.definitions.filter which =
      (κ.definitions.zipIdx.filter fun entry => which entry.1).map Prod.fst := by
    rw [← List.zipIdx_map_fst 0 κ.definitions, List.filter_map, List.zipIdx_map_fst]
    rfl
  rw [rulesDefining, List.map_congr_left hentry, hfilter, List.map_map]
  rfl

theorem Emitted.exists_definitionBodies {rules : List Rule} (h : κ.Emitted rules) {d : ClassExpression}
    (hd : d ∈ κ.definitions) :
    ∃ bodies, (Grounding.definitionBodies d).exec κ = (.ok bodies, κ) := by
  obtain ⟨k, hk⟩ := List.mem_iff_getElem?.1 hd
  obtain ⟨bodies, hbodies, -⟩ := h.defined k d hk
  exact ⟨bodies, hbodies⟩

theorem sum_filter_add_sum_filter_not (size : ClassExpression → Nat) (P : ClassExpression → Prop)
    [DecidablePred P] (ds : List ClassExpression) : ((ds.filter (P ·)).map size).sum +
      ((ds.filter (¬ P ·)).map size).sum = (ds.map size).sum := by
  simp only [decide_not]
  rw [← List.sum_append, ← List.map_append]
  exact ((List.filter_append_perm _ ds).map size).sum_eq

theorem sum_map_ite (n : Nat) (which : ClassExpression → Bool) (ds : List ClassExpression) :
    (ds.map fun d => if which d then n else 0).sum = n * ds.countP which := by
  induction ds with
  | nil => rfl
  | cons d ds ih =>
    rw [List.map_cons, List.sum_cons, ih, List.countP_cons, Nat.mul_add, Nat.add_comm]
    split <;> simp

/-- The sizes of shared definitions can be compared one by one. -/
theorem sum_definitionSize_le {extra : Nat} {which : ClassExpression → Bool}
    (hnodup₁ : κ₁.definitions.Nodup) (hnodup₂ : κ₂.definitions.Nodup)
    (hsize : ∀ d ∈ κ₁.definitions, d ∈ κ₂.definitions →
      κ₂.definitionSize d ≤ κ₁.definitionSize d + if which d then extra else 0) :
    (κ₂.definitions.map κ₂.definitionSize).sum +
        ((κ₁.definitions.filter (· ∉ κ₂.definitions)).map κ₁.definitionSize).sum ≤
      (κ₁.definitions.map κ₁.definitionSize).sum +
        ((κ₂.definitions.filter (· ∉ κ₁.definitions)).map κ₂.definitionSize).sum +
        extra * κ₂.definitions.countP which := by
  let shared₁ := κ₁.definitions.filter (· ∈ κ₂.definitions)
  let shared₂ := κ₂.definitions.filter (· ∈ κ₁.definitions)
  -- what both define is the same list up to order, as no definition is repeated
  have hperm : shared₂.Perm shared₁ := by
    refine (List.perm_ext_iff_of_nodup (hnodup₂.filter _) (hnodup₁.filter _)).2 fun d => ?_
    simp [and_comm]
  have hsum₁ : (shared₁.map κ₁.definitionSize).sum + _ = _ :=
    sum_filter_add_sum_filter_not κ₁.definitionSize (· ∈ κ₂.definitions) κ₁.definitions
  have hsum₂ : (shared₂.map κ₂.definitionSize).sum + _ = _ :=
    sum_filter_add_sum_filter_not κ₂.definitionSize (· ∈ κ₁.definitions) κ₂.definitions
  have hshared : (shared₂.map κ₂.definitionSize).sum ≤
      (shared₁.map κ₁.definitionSize).sum + extra * κ₂.definitions.countP which := calc
    _ ≤ (shared₂.map fun d => κ₁.definitionSize d + if which d then extra else 0).sum :=
      List.sum_le_sum fun d hd => by
        obtain ⟨hd₂, hd₁⟩ := List.mem_filter.1 hd
        exact hsize d (of_decide_eq_true hd₁) hd₂
    _ = (shared₁.map κ₁.definitionSize).sum + extra * shared₂.countP which := by
      rw [List.sum_map_add, sum_map_ite, (hperm.map κ₁.definitionSize).sum_eq]
    _ ≤ _ := Nat.add_le_add_left (Nat.mul_le_mul_left _ (List.filter_sublist.countP_le)) _
  omega

end Context

namespace Reasoner

variable {o : Ontology} {d : Domain} {e e₁ : Encoding} {κ κ₁ : Context} {scheme : NamingScheme}
  {strategy : Strategy}

theorem emitted_of_encode (h : encode o d scheme strategy = .ok (e, κ)) :
    κ.Emitted e.program.rules := by
  have hrun := encode_eq_ok_iff.1 h
  have hemitting := Grounding.groundOntology_emitting (Context.emitting_new d scheme strategy) o
  rw [hrun, Grounding.written_of_ok hrun] at hemitting
  have hemitted := hemitting.emitted
  rwa [List.nil_append, (encoded_of_encode h).settled, List.append_nil] at hemitted

theorem Encoded.length_elements (h : Encoded o d e κ) : κ.elements.length = d.size := by
  rw [← List.length_map (·.individual), h.ready.elements, h.domain]
  rfl

theorem Encoded.elements_ne_nil (h : Encoded o d e κ) : κ.elements ≠ [] := by
  rw [← List.length_pos_iff, h.length_elements]
  exact List.length_pos_iff.2 d.nonempty

/-- The generic encoding defines all that it needs. -/
theorem closed_of_encode (h : encode o d scheme .naive = .ok (e, κ)) :
    ClassExpression.Closed κ.definitions ∧ ∀ a ∈ o.axioms, a.EncodedIn κ.definitions := by
  have hne := (encoded_of_encode h).elements_ne_nil
  have hstrategy := strategy_of_encode h
  refine ⟨fun c hc => ?_, fun a ha => ?_⟩
  · obtain ⟨bodies, hbodies⟩ := (emitted_of_encode h).exists_definitionBodies hc
    exact ((Grounding.definitionBodies_naive hne c).ok rfl hstrategy hbodies).2 fun _ hd => hd
  · obtain ⟨rules, hrules⟩ := (Grounding.length_groundOntology (encode_eq_ok_iff.1 h)).1 a ha
    obtain ⟨p, hp⟩ := Grounding.axiomRules_comparable hne a
    exact ((hp.naive κ.definitions).ok rfl hstrategy hrules).2 fun _ hd => hd

section Strategies

variable {e₂ : Encoding} {κ₂ : Context} (h₁ : encode o d scheme .naive = .ok (e₁, κ₁))
  (h₂ : encode o d scheme .direct = .ok (e₂, κ₂)) (helements : κ₂.elements = κ₁.elements)

include h₁ h₂ helements

/-- An expression that both encodings define has no more rules in the counting one, unless it asks for more
successors than there are. -/
theorem definitionSize_le {c : ClassExpression} (hc₁ : c ∈ κ₁.definitions) (hc₂ : c ∈ κ₂.definitions) :
    κ₂.definitionSize c ≤ κ₁.definitionSize c + if c.exceeds d.size then d.size else 0 := by
  obtain ⟨bodies₁, hbodies₁⟩ := (emitted_of_encode h₁).exists_definitionBodies hc₁
  obtain ⟨bodies₂, hbodies₂⟩ := (emitted_of_encode h₂).exists_definitionBodies hc₂
  have hne := (encoded_of_encode h₁).elements_ne_nil
  have hnaive := ((Grounding.definitionBodies_naive (T := []) hne c).ok rfl (strategy_of_encode h₁)
    hbodies₁).1
  have hdirect := ((Grounding.definitionBodies_direct (T := []) c).ok helements
    (strategy_of_encode h₂) hbodies₂).1
  rw [Context.definitionSize_eq hbodies₁ κ₁.le_refl, Context.definitionSize_eq hbodies₂ κ₂.le_refl,
    ← (encoded_of_encode h₁).length_elements]
  exact hdirect.trans hnaive

/-- An axiom has no more rules in the counting encoding, but for repetition. -/
theorem axiomSize_le {a : Axiom} (ha : a ∈ o.axioms) :
    κ₂.axiomSize a ≤ κ₁.axiomSize a + a.repetition d.size := by
  obtain ⟨rules₁, hrules₁⟩ := (Grounding.length_groundOntology (encode_eq_ok_iff.1 h₁)).1 a ha
  obtain ⟨rules₂, hrules₂⟩ := (Grounding.length_groundOntology (encode_eq_ok_iff.1 h₂)).1 a ha
  obtain ⟨p, hp⟩ := Grounding.axiomRules_comparable (encoded_of_encode h₁).elements_ne_nil a
  have hnaive := ((hp.naive []).ok rfl (strategy_of_encode h₁) hrules₁).1
  have hdirect := ((hp.direct []).ok helements (strategy_of_encode h₂) hrules₂).1
  rw [(encoded_of_encode h₁).length_elements] at hdirect
  simp only [Context.axiomSize, hrules₁, hrules₂]
  omega

end Strategies

/-- The counting encoding of what the generic one encodes exists. If nothing but plain expressions is
asserted, all its auxiliary predicates are among those of the generic one. Its rules are at most as many as
those of the generic one, less the definitions that only the generic one has, and with those that only it
has, what is unfolded more than once, and the lower bounds it defines that no element can meet. -/
theorem direct_size (ho : o.Built) {listed : Option Ontology} (hd : Domain.resolve o listed = .ok d)
    (h : encode o d scheme .naive = .ok (e₁, κ₁)) :
    ∃ e₂ κ₂, encode o d scheme .direct = .ok (e₂, κ₂) ∧
      ((∀ a ∈ o.axioms, a.isPlain) →
        (∀ c ∈ κ₂.definitions, c ∈ κ₁.definitions) ∧ κ₂.auxCount ≤ κ₁.auxCount) ∧
      e₂.program.length + κ₁.rulesDefining e₁.program (· ∉ κ₂.definitions) ≤
        e₁.program.length + κ₂.rulesDefining e₂.program (· ∉ κ₁.definitions) +
          (o.axioms.map (·.repetition d.size)).sum +
          d.size * κ₂.definitions.countP (ClassExpression.exceeds d.size) := by
  have hs := supported_of_encode h
  obtain ⟨e₂, κ₂, h₂, -⟩ := exists_encode hs (ho.isCovered.mem_of_resolve hd) scheme .direct
  refine ⟨e₂, κ₂, h₂, fun hplain => ?_, ?_⟩
  · obtain ⟨hclosed, hneeds⟩ := closed_of_encode h
    have hsubset : κ₂.definitions ⊆ κ₁.definitions := Grounding.groundOntology_within hclosed
      (fun a ha => ⟨hneeds a ha, hplain a ha⟩) (encode_eq_ok_iff.1 h₂)
    exact ⟨hsubset, ((emitted_of_encode h₂).distinct.subperm hsubset).length_le⟩
  -- both have the same totality rules, and are compared by axioms and definitions
  · have hsame := sameSymbols_of_encode ho.isCovered ho.isCovered rfl h h₂
    have hlength₁ := (Grounding.length_groundOntology (encode_eq_ok_iff.1 h)).2
    have hlength₂ := (Grounding.length_groundOntology (encode_eq_ok_iff.1 h₂)).2
    have hdefinitions := Context.sum_definitionSize_le (emitted_of_encode h).distinct
      (emitted_of_encode h₂).distinct fun c hc₁ hc₂ => definitionSize_le h h₂ hsame.elements hc₁ hc₂
    have haxioms : (o.axioms.map κ₂.axiomSize).sum ≤
        (o.axioms.map κ₁.axiomSize).sum + (o.axioms.map (·.repetition d.size)).sum := by
      rw [← List.sum_map_add]
      exact List.sum_le_sum fun a ha => axiomSize_le h h₂ hsame.elements ha
    have hpending : κ₁.pending.length = 0 ∧ κ₂.pending.length = 0 :=
      ⟨congrArg List.length (encoded_of_encode h).settled,
        congrArg List.length (encoded_of_encode h₂).settled⟩
    rw [Context.rulesDefining_eq (emitted_of_encode h), Context.rulesDefining_eq (emitted_of_encode h₂)]
    simp only [Context.tally, hsame.elements, hsame.classes, hsame.properties] at hlength₁ hlength₂
    omega

theorem direct_size_family : ∃ e₁ κ₁ e₂ κ₂,
    encode .family (.ofSet Ontology.family.assertedIndividuals) .aspCore .naive = .ok (e₁, κ₁) ∧
      encode .family (.ofSet Ontology.family.assertedIndividuals) .aspCore .direct =
        .ok (e₂, κ₂) ∧
      (∀ c ∈ κ₂.definitions, c ∈ κ₁.definitions) ∧ κ₂.auxCount ≤ κ₁.auxCount ∧
      e₂.program.length + κ₁.rulesDefining e₁.program (· ∉ κ₂.definitions) ≤
        e₁.program.length + κ₂.rulesDefining e₂.program (· ∉ κ₁.definitions) +
          (Ontology.family.axioms.map (·.repetition 2)).sum +
          2 * κ₂.definitions.countP (ClassExpression.exceeds 2) := by
  have hd : Domain.resolve .family none = .ok (.ofSet Ontology.family.assertedIndividuals) := rfl
  obtain ⟨e₁, κ₁, h₁, -⟩ := exists_encode Ontology.family_isSupported
    (Ontology.family_built.isCovered.mem_of_resolve hd) .aspCore .naive
  obtain ⟨e₂, κ₂, h₂, haux, hrules⟩ := direct_size Ontology.family_built hd h₁
  obtain ⟨hsubset, hcount⟩ := haux (by decide)
  exact ⟨e₁, κ₁, e₂, κ₂, h₁, h₂, hsubset, hcount, hrules⟩

/-- How many auxiliary predicates and how many rules the encoding of an ontology over its own domain has. -/
def sizes (o : Ontology) (strategy : Strategy) : Option (Nat × Nat) := do
  let d ← (Domain.resolve o none).toOption
  let (e, κ) ← (encode o d .aspCore strategy).toOption
  return (κ.auxCount, e.program.length)

/-- Ontologies over one synthesized element whose counting encoding is the larger one. -/
def enlarged : List Ontology :=
  let a := ClassExpression.named ⟨"urn:A"⟩
  let b := ClassExpression.named ⟨"urn:B"⟩
  let c := ClassExpression.named ⟨"urn:C"⟩
  let d := ClassExpression.named ⟨"urn:D"⟩
  let r := Role.named ⟨"urn:r"⟩
  let s := Role.named ⟨"urn:s"⟩
  let self := fun role => ClassExpression.complementOf (.complementOf (.hasSelf role))
  [ -- a rule that no element can violate
    .ofAxioms [.functionalObjectProperty r],
    -- a rule for each conjunct
    .ofAxioms [.subClassOf a (.intersectionOf [b, c, d])],
    -- a rule for each disjunct, and for both axioms
    .ofAxioms [.subClassOf (.unionOf [a, b, c]) .nothing, .subClassOf (.unionOf [a, b, c]) d],
    -- a bound that no element can meet
    .ofAxioms [.subClassOf (.minCardinality 2 r none) a],
    -- what stands behind an impossible conjunct
    .ofAxioms [.subClassOf a (.intersectionOf [.nothing, .unionOf [.someValuesFrom r b, .hasSelf r]])],
    -- double complements, and what is under them
    .ofAxioms [.subClassOf a (.intersectionOf [self r, self s]), .subClassOf (self r) b,
      .subClassOf (self s) b]]

theorem direct_larger : enlarged.map (fun o => (sizes o .naive, sizes o .direct)) =
    [(some (0, 1), some (0, 2)), (some (1, 6), some (0, 7)), (some (1, 9), some (0, 10)),
      (some (1, 3), some (1, 4)), (some (1, 4), some (2, 7)), (some (5, 12), some (6, 14))] := by
  decide +kernel

end Reasoner

end FixedDomain
