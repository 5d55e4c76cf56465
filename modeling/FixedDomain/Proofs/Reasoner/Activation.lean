import FixedDomain.Proofs.Reasoner.Adequacy

/-! # Active axioms

Under the debug strategy the rules of an axiom apply only if the axiom is active. Those of the other
axioms ask for an atom that nothing derives, so that the answer sets are those of a program without
them, in which the active axioms are respected (`Encoded.exists_realizes_withActive`). Definitions
are never switched off, and those that only inactive axioms use do no harm.

Hence the program with some active axioms has the models of the ontology that is restricted to these
axioms (`withActive_agree`).
-/

namespace FixedDomain

/-- The ontology with only the axioms at some positions, over the same signature. -/
def Ontology.restrict (o : Ontology) (positions : List Nat) : Ontology :=
  { o with axioms := (o.axioms.zipIdx.filter fun entry => entry.2 ∈ positions).map (·.1) }

theorem Ontology.mem_axioms_restrict {o : Ontology} {positions : List Nat} {a : Axiom} :
    a ∈ (o.restrict positions).axioms ↔ ∃ k ∈ positions, (a, k) ∈ o.axioms.zipIdx := by
  simp [restrict, and_comm]

theorem Ontology.mem_of_mem_restrict {o : Ontology} {positions : List Nat} {a : Axiom}
    (h : a ∈ (o.restrict positions).axioms) : a ∈ o.axioms := by
  obtain ⟨k, -, hmem⟩ := mem_axioms_restrict.1 h
  exact List.fst_mem_of_mem_zipIdx hmem

theorem Ontology.IsCovered.restrict {o : Ontology} (h : o.IsCovered) (positions : List Nat) :
    (o.restrict positions).IsCovered :=
  fun a ha => h a (mem_of_mem_restrict ha)

/-- The axioms with tagged rules at some positions. -/
def Encoding.listedAt (e : Encoding) (positions : List Nat) : List Axiom :=
  (e.activations.filter fun entry => entry.1 ∈ positions).map (·.2)

theorem Encoding.mem_listedAt {e : Encoding} {positions : List Nat} {a : Axiom} :
    a ∈ e.listedAt positions ↔ ∃ k ∈ positions, (k, a) ∈ e.activations := by
  simp [listedAt, and_comm]

theorem activationAtom_injective : Function.Injective activationAtom := by
  intro j k h
  have harguments : [toString j] = [toString k] := congrArg Atom.arguments h
  exact Nat.repr_injective (List.singleton_injective harguments)

namespace Context

variable {c : Context} {e : Encoding} {items : List EncodedAxiom}

/-- The listed axioms are those with rules. -/
theorem Encodes.mem_listedAt_iff (h : c.Encodes e items) (hdebug : c.strategy = .debug)
    {active : List Nat} {a : Axiom} : a ∈ e.listedAt active ↔
      ∃ i ∈ items, i.rules ≠ [] ∧ i.position ∈ active ∧ i.content = a := by
  simp only [Encoding.mem_listedAt, h.listed, if_pos hdebug, List.mem_map, List.mem_filter,
    Bool.not_eq_true', List.isEmpty_eq_false_iff, Prod.mk.injEq]
  constructor
  · rintro ⟨k, hk, i, ⟨hi, hne⟩, rfl, rfl⟩
    exact ⟨i, hi, hne, hk, rfl⟩
  · rintro ⟨i, hi, hne, hk, rfl⟩
    exact ⟨i.position, hk, i, ⟨hi, hne⟩, rfl, rfl⟩

/-- The axioms with rules at some positions. -/
def liveAt (items : List EncodedAxiom) (active : List Nat) : List EncodedAxiom :=
  items.filter fun i => !i.rules.isEmpty && decide (i.position ∈ active)

theorem mem_liveAt {active : List Nat} {i : EncodedAxiom} :
    i ∈ liveAt items active ↔ i ∈ items ∧ i.rules ≠ [] ∧ i.position ∈ active := by
  simp [liveAt]

theorem Encodes.forall_liveAt_iff (h : c.Encodes e items) (hdebug : c.strategy = .debug)
    {active : List Nat} {P : Axiom → Prop} :
    (∀ i ∈ liveAt items active, P i.content) ↔ ∀ a ∈ e.listedAt active, P a := by
  constructor
  · intro hP a ha
    obtain ⟨i, hi, hne, hk, rfl⟩ := (h.mem_listedAt_iff hdebug).1 ha
    exact hP i (mem_liveAt.2 ⟨hi, hne, hk⟩)
  · intro hP i hi
    obtain ⟨hi, hne, hk⟩ := mem_liveAt.1 hi
    exact hP _ ((h.mem_listedAt_iff hdebug).2 ⟨i, hi, hne, hk, rfl⟩)

/-- The rules of the listed axioms, switched on, arrange that these are respected. -/
theorem Encodes.arranges_liveAt (hc : c.Ready) (h : c.Encodes e items) (hdebug : c.strategy = .debug)
    (active : List Nat) :
    c.Arranges (activations active) (fun I => ∀ a ∈ e.listedAt active, I.Respects a)
      (rulesOf c.strategy (liveAt items active) ++ active.map fun k => .fact (activationAtom k)) := by
  have henforces := enforcesOn_rulesOf (F := activations active)
    (fun i hi => h.enforces i (mem_liveAt.1 hi).1) c.strategy
    fun _ i hi _ => ⟨i.position, (mem_liveAt.1 hi).2.2, rfl⟩
  have hsentence : (fun I : Evaluation Individual => ∀ i ∈ liveAt items active, I.Respects i.content) =
      fun I => ∀ a ∈ e.listedAt active, I.Respects a :=
    funext fun _ => propext (h.forall_liveAt_iff hdebug)
  exact hsentence ▸ henforces.arranges hc fun _ => Iff.rfl

/-- A tagged rule belongs to an axiom at one of the positions, or asks for the tag of another one. -/
theorem mem_rulesOf_debug (active : List Nat) {r : Rule} (hr : r ∈ rulesOf .debug items) :
    r ∈ rulesOf .debug (liveAt items active) ∨
      ∃ k, k ∉ active ∧ .pos (activationAtom k) ∈ r.body := by
  obtain ⟨i, hi, hr⟩ := List.mem_flatMap.1 hr
  by_cases hactive : i.position ∈ active
  · have hne : i.rules ≠ [] := by
      intro hnil
      simp [hnil, Grounding.tagged] at hr
    exact .inl (List.mem_flatMap.2 ⟨i, mem_liveAt.2 ⟨hi, hne, hactive⟩, hr⟩)
  · rw [Grounding.tagged, if_pos rfl] at hr
    obtain ⟨r₀, -, rfl⟩ := List.mem_map.1 hr
    exact .inr ⟨i.position, hactive, by simp [Grounding.tag]⟩

/-- The program with some active axioms has the rules of one that realizes that these are respected,
and others that ask for atoms which those do not derive. -/
theorem Encodes.exists_live_withActive (hc : c.Ready) (h : c.Encodes e items)
    (hdebug : c.strategy = .debug) (active : List Nat) :
    ∃ p, c.Realizes p (Context.activations active)
        (fun I => ∀ a ∈ e.listedAt active, I.Respects a) ∧
      (∀ r ∈ p.rules, r ∈ (e.withActive active).rules) ∧
      ∀ r ∈ (e.withActive active).rules,
        r ∈ p.rules ∨ ∃ f, .pos f ∈ r.body ∧ ∀ r' ∈ p.rules, f ∉ r'.head := by
  obtain ⟨background, hb, hprogram⟩ := h.program
  have harranges := h.arranges_liveAt hc hdebug active
  let p := Program.empty.pushAll (background ++ (rulesOf c.strategy (liveAt items active) ++
    active.map fun k => .fact (activationAtom k)))
  have hp : ∀ r, r ∈ p.rules ↔ r ∈ background ∨ r ∈ rulesOf c.strategy (liveAt items active) ++
      active.map fun k => .fact (activationAtom k) := by
    simp [p]
  refine ⟨p, ⟨background, _, hb, harranges, hp⟩, fun r hr => ?_, fun r hr => ?_⟩
  · rw [rules_withActive, List.mem_append, hprogram, or_assoc]
    refine ((hp r).1 hr).imp_right fun hr => ?_
    refine (List.mem_append.1 hr).imp_left fun hr => ?_
    obtain ⟨i, hi, hr⟩ := List.mem_flatMap.1 hr
    exact List.mem_flatMap.2 ⟨i, (mem_liveAt.1 hi).1, hr⟩
  -- what `p` lacks are the rules of inactive axioms, whose tags are never derived
  · rw [rules_withActive, List.mem_append, hprogram, or_assoc] at hr
    rcases hr with hr | hr | hr
    · exact .inl ((hp r).2 (.inl hr))
    · rw [hdebug] at hr
      rcases mem_rulesOf_debug active hr with hlive | ⟨k, hk, hbody⟩
      · exact .inl ((hp r).2 (.inr (List.mem_append_left _ (hdebug ▸ hlive))))
      · refine .inr ⟨activationAtom k, hbody, fun r' hr' => ?_⟩
        refine harranges.notMem_head hc hb hp (.activation k) ?_ hr'
        rintro ⟨j, hj, heq⟩
        exact hk (activationAtom_injective heq ▸ hj)
    · exact .inl ((hp r).2 (.inr (List.mem_append_right _ hr)))

/-- The program with some active axioms has the answer sets of one that realizes that these are
respected. -/
theorem Encodes.exists_realizes_withActive (hc : c.Ready) (h : c.Encodes e items)
    (hdebug : c.strategy = .debug) (active : List Nat) :
    ∃ p, c.Realizes p (Context.activations active)
        (fun I => ∀ a ∈ e.listedAt active, I.Respects a) ∧
      ∀ S, (e.withActive active).IsAnswerSet S ↔ p.IsAnswerSet S := by
  obtain ⟨p, hp, hlive, hdormant⟩ := h.exists_live_withActive hc hdebug active
  exact ⟨p, hp, fun S => isStable_iff_of_dormant hlive hdormant⟩

/-- Two programs over the same symbols and a small domain that realize that the same axioms are
respected have the same decoded models, each from exactly one answer set of either. -/
theorem Realizes.exists_bijOn_of_respects {c' : Context} {p p' : Program} {F F' : Set Atom}
    {axioms axioms' : List Axiom} (h : c.Realizes p F fun I => ∀ a ∈ axioms, I.Respects a)
    (h' : c'.Realizes p' F' fun I => ∀ a ∈ axioms', I.Respects a) (hc : c.Ready) (hc' : c'.Ready)
    (hsame : Grounding.SameSymbols c c') (hsize : c.domain.size < UInt32.size - 1)
    (haxioms : ∀ a, a ∈ axioms ↔ a ∈ axioms') :
    ∃ models : Set Model,
      Set.BijOn (fun A : AnswerSet => c.decode A none) {A | p.IsAnswerSet A.toSet} models ∧
      Set.BijOn (fun A : AnswerSet => c'.decode A none) {A | p'.IsAnswerSet A.toSet} models := by
  refine h.exists_bijOn h' hc hc' hsame (fun I hI hφ a ha => ?_) fun I hI hφ a ha => ?_
  · rw [hI.respects_iff hsize]
    exact hφ a ((haxioms a).2 ha)
  · have hsize' : c'.domain.size < UInt32.size - 1 := by rwa [Domain.size, hsame.domain]
    rw [hI.respects_iff hsize']
    exact hφ a ((haxioms a).1 ha)

end Context

namespace Reasoner

variable {o : Ontology} {d : Domain} {e : Encoding} {κ : Context} {scheme : NamingScheme}
  {strategy : Strategy}

theorem strategy_of_encode (h : encode o d scheme strategy = .ok (e, κ)) :
    κ.strategy = strategy := by
  have hrun := encode_eq_ok_iff.1 h
  have hs := Grounding.supported_of_groundOntology (congrArg Prod.fst hrun)
  have hfollows := (groundOntology_yields hs d scheme strategy).follows
  rw [hrun] at hfollows
  exact hfollows.le.strategy

theorem supported_of_encode (h : encode o d scheme strategy = .ok (e, κ)) :
    ∀ a ∈ o.axioms, a.IsSupported :=
  Grounding.supported_of_groundOntology (congrArg Prod.fst (encode_eq_ok_iff.1 h))

/-- Ontologies with the same classes and properties are encoded over the same symbols, if the domains
have the same elements. -/
theorem sameSymbols_of_encode_congr {o' : Ontology} {d' : Domain} {e' : Encoding} {κ' : Context}
    {strategy' : Strategy} (ho : o.IsCovered) (ho' : o'.IsCovered)
    (hclasses : o'.signature.classes = o.signature.classes)
    (hproperties : o'.signature.objectProperties = o.signature.objectProperties)
    (hdomain : d'.elements = d.elements) (h : encode o d scheme strategy = .ok (e, κ))
    (h' : encode o' d' scheme strategy' = .ok (e', κ')) : Grounding.SameSymbols κ κ' := by
  have := Grounding.sameSymbols_of_signature_eq (supported_of_encode h) (supported_of_encode h')
    (fun _ ha _ hv => hasName_of_mem_entities ho ha hv)
    (fun _ ha _ hv => hasName_of_mem_entities ho' ha hv) hclasses hproperties hdomain scheme
    strategy strategy'
  rwa [encode_eq_ok_iff.1 h, encode_eq_ok_iff.1 h'] at this

theorem sameSymbols_of_encode {o' : Ontology} {e' : Encoding} {κ' : Context}
    {strategy' : Strategy} (ho : o.IsCovered) (ho' : o'.IsCovered)
    (hsignature : o'.signature = o.signature) (h : encode o d scheme strategy = .ok (e, κ))
    (h' : encode o' d scheme strategy' = .ok (e', κ')) : Grounding.SameSymbols κ κ' :=
  sameSymbols_of_encode_congr ho ho' (congrArg _ hsignature) (congrArg _ hsignature) rfl h h'

namespace Encoded

variable (h : Encoded o d e κ) (hdebug : κ.strategy = .debug)

include h hdebug

/-- The listed axioms stand at their positions, in order. -/
theorem activations_sublist :
    (e.activations.map fun entry => (entry.2, entry.1)).Sublist o.axioms.zipIdx := by
  obtain ⟨items, hitems, hencodes⟩ := h.encodes
  rw [hencodes.listed, if_pos hdebug, List.map_map, ← hitems]
  exact List.filter_sublist.map _

theorem mem_zipIdx_of_mem_activations {k : Nat} {a : Axiom} (hmem : (k, a) ∈ e.activations) :
    (a, k) ∈ o.axioms.zipIdx :=
  (h.activations_sublist hdebug).subset (List.mem_map_of_mem hmem)

/-- Declarations are not listed. -/
theorem ne_declaration_of_mem_activations {k : Nat} {a : Axiom} (hmem : (k, a) ∈ e.activations)
    (v : Entity) : a ≠ .declaration v := by
  rintro rfl
  obtain ⟨items, -, hencodes⟩ := h.encodes
  rw [hencodes.listed, if_pos hdebug] at hmem
  obtain ⟨i, hi, heq⟩ := List.mem_map.1 hmem
  obtain ⟨hi, hne⟩ := List.mem_filter.1 hi
  simp [hencodes.undeclared i hi v (Prod.mk.inj heq).2] at hne

theorem exists_realizes_withActive (active : List Nat) :
    ∃ p, κ.Realizes p (Context.activations active)
        (fun I => ∀ a ∈ e.listedAt active, I.Respects a) ∧
      ∀ S, (e.withActive active).IsAnswerSet S ↔ p.IsAnswerSet S := by
  obtain ⟨items, -, hencodes⟩ := h.encodes
  exact hencodes.exists_realizes_withActive h.ready hdebug active

/-- The active axioms are those of the restricted ontology. -/
theorem mem_listedAt_iff {active : List Nat} (hactive : ∀ k ∈ active, k ∈ e.positions) {a : Axiom} :
    a ∈ e.listedAt active ↔ a ∈ (o.restrict active).axioms := by
  rw [Encoding.mem_listedAt, Ontology.mem_axioms_restrict]
  refine exists_congr fun k => and_congr_right fun hk => ⟨h.mem_zipIdx_of_mem_activations hdebug, ?_⟩
  intro hmem
  obtain ⟨⟨k', a'⟩, hentry, rfl⟩ := List.mem_map.1 (hactive k hk)
  -- there is one axiom at a position
  have hmem' := h.mem_zipIdx_of_mem_activations hdebug hentry
  rw [List.mem_zipIdx_iff_getElem?] at hmem hmem'
  obtain rfl : a = a' := Option.some_injective _ (hmem.symm.trans hmem')
  exact hentry

end Encoded

/-- With some axioms active, the debug encoding has the decoded models of the naive encoding of the
ontology that is restricted to these axioms; with all axioms active, those of the naive encoding of
the ontology. Each model comes from exactly one answer set of either. The signature has to have what
the axioms mention, as that of every ontology that has grown by `add`. -/
theorem withActive_agree (ho : o.IsCovered) {listed : Option Ontology}
    (hd : Domain.resolve o listed = .ok d) (hsize : d.size < UInt32.size - 1)
    (hencode : encode o d scheme .debug = .ok (e, κ)) :
    (∀ active : List Nat, (∀ k ∈ active, k ∈ e.positions) → ∃ e' κ',
      encode (o.restrict active) d scheme .naive = .ok (e', κ') ∧ ∃ models : Set Model,
        Set.BijOn (fun A : AnswerSet => κ.decode A none)
          {A | (e.withActive active).IsAnswerSet A.toSet} models ∧
        Set.BijOn (fun A : AnswerSet => κ'.decode A none)
          {A | e'.complete.IsAnswerSet A.toSet} models) ∧
    ∃ e' κ', encode o d scheme .naive = .ok (e', κ') ∧ ∃ models : Set Model,
      Set.BijOn (fun A : AnswerSet => κ.decode A none)
        {A | e.complete.IsAnswerSet A.toSet} models ∧
      Set.BijOn (fun A : AnswerSet => κ'.decode A none)
        {A | e'.complete.IsAnswerSet A.toSet} models := by
  have h := encoded_of_encode hencode
  have hdebug := strategy_of_encode hencode
  have hs := supported_of_encode hencode
  have hi := ho.mem_of_resolve hd
  refine ⟨fun active hactive => ?_, ?_⟩
  · obtain ⟨e', κ', hencode', h'⟩ := exists_encode (o := o.restrict active) (d := d)
      (fun a ha => hs a (Ontology.mem_of_mem_restrict ha))
      (fun a ha => hi a (Ontology.mem_of_mem_restrict ha)) scheme .naive
    have hsame := sameSymbols_of_encode ho (ho.restrict active) rfl hencode hencode'
    obtain ⟨p, hp, hiff⟩ := h.exists_realizes_withActive hdebug active
    simp only [hiff]
    exact ⟨e', κ', hencode', hp.exists_bijOn_of_respects h'.realizes h.ready h'.ready hsame
      (h.domain ▸ hsize) fun a => h.mem_listedAt_iff hdebug hactive⟩
  · obtain ⟨e', κ', hencode', h'⟩ := exists_encode hs hi scheme .naive
    have hsame := sameSymbols_of_encode ho ho rfl hencode hencode'
    exact ⟨e', κ', hencode', h.realizes.exists_bijOn_of_respects h'.realizes h.ready h'.ready hsame
      (h.domain ▸ hsize) fun _ => Iff.rfl⟩

theorem withActive_agree_family : ∃ e κ,
    encode .family (.ofSet Ontology.family.assertedIndividuals) .plain .debug = .ok (e, κ) ∧
      (∀ k ∈ [0, 2], k ∈ e.positions) ∧ ∃ e' κ',
      encode (Ontology.family.restrict [0, 2]) (.ofSet Ontology.family.assertedIndividuals) .plain
        .naive = .ok (e', κ') ∧ ∃ models : Set Model,
        Set.BijOn (fun A : AnswerSet => κ.decode A none)
          {A | (e.withActive [0, 2]).IsAnswerSet A.toSet} models ∧
        Set.BijOn (fun A : AnswerSet => κ'.decode A none)
          {A | e'.complete.IsAnswerSet A.toSet} models := by
  have hd : Domain.resolve .family none = .ok (.ofSet Ontology.family.assertedIndividuals) := rfl
  have ho := Ontology.family_built.isCovered
  obtain ⟨e, κ, hencode, -⟩ :=
    exists_encode Ontology.family_isSupported (ho.mem_of_resolve hd) .plain .debug
  have hpositions : ((encode .family (.ofSet Ontology.family.assertedIndividuals) .plain .debug).map
      fun result => result.1.positions).toOption = some [0, 1, 2] := by decide +kernel
  rw [hencode] at hpositions
  obtain hpositions : e.positions = [0, 1, 2] := Option.some_injective _ hpositions
  have hactive : ∀ k ∈ [0, 2], k ∈ e.positions := by simp [hpositions]
  obtain ⟨e', κ', hencode', models, hmodels, hmodels'⟩ :=
    (withActive_agree ho hd Ontology.family_size hencode).1 [0, 2] hactive
  exact ⟨e, κ, hencode, hactive, e', κ', hencode', models, hmodels, hmodels'⟩

end Reasoner

end FixedDomain
