import FixedDomain.Reasoner.Basic
import FixedDomain.Proofs.AnswerSet.Exactness
import FixedDomain.Proofs.Grounding.Ontology
import FixedDomain.Proofs.Model
import FixedDomain.Proofs.Ontology

/-! # Encodings in sessions

* `Context.Realizes` — the answer sets of a program are the evaluations over the domain in which a
  sentence is true, where names without a symbol are left open.
* `Reasoner.Encoded` — what is known of the encoding of an ontology. If the domain has all individuals
  of the axioms, there is one under every strategy (`Reasoner.exists_encode`).
* `Reasoner.satisfiable_builtin` — the solver of this library finds out whether there is an answer
  set.
-/

namespace FixedDomain

/-! ## Programs -/

/-- Every answer set is a finite set of atoms. -/
theorem Program.IsAnswerSet.exists_answerSet {p : Program} {S : Set Atom} (h : p.IsAnswerSet S) :
    ∃ A : AnswerSet, A.toSet = S := by
  obtain ⟨b, -, -, hb⟩ := AnswerSet.exists_answerOf_eq h
  exact ⟨_, hb⟩

theorem Program.exists_isAnswerSet_iff {p : Program} :
    (∃ S, p.IsAnswerSet S) ↔ ∃ A : AnswerSet, p.IsAnswerSet A.toSet := by
  refine ⟨fun ⟨S, hS⟩ => ?_, fun ⟨A, hA⟩ => ⟨_, hA⟩⟩
  obtain ⟨A, rfl⟩ := hS.exists_answerSet
  exact ⟨A, hS⟩

namespace Context.Realizes

variable {c : Context} {p : Program} {F : Set Atom} {φ : Sentence} (h : c.Realizes p F φ)
  {I : Evaluation Individual} {S : Set Atom}

include h

theorem switches : ∀ f ∈ F, IsSwitch f := by
  obtain ⟨_, _, -, ha, -⟩ := h
  exact ha.switches

theorem not_nestsCounts : ¬ p.NestsCounts := by
  obtain ⟨background, arranged, hb, ha, hrules⟩ := h
  rw [← Program.any_isNested_iff]
  simp only [List.any_eq_true, not_exists, not_and]
  intro r hr l hl hnested
  have hplain : l.isNested = false := by
    rcases (hrules r).1 hr with hr | hr
    · rcases hb.only r hr with ⟨a, ψ, -, rfl⟩ | ⟨k, x, bodies, ⟨d, -, -, he⟩, b, hbmem, rfl⟩
      · cases hl
      · exact he.unnested b hbmem l hl
    · exact ha.unnested r hr l hl
  rw [hplain] at hnested
  cases hnested

/-- Each atom over a symbol is chosen or denied. -/
theorem choice_mem {a : Atom} {ψ : Sentence} (ha : c.States a ψ) : .choice a ∈ p.rules := by
  obtain ⟨background, arranged, hb, -, hrules⟩ := h
  exact (hrules _).2 (.inl (hb.total a ψ ha))

variable (hc : c.Ready)

include hc

/-- An answer set describes all evaluations that agree with it on what has a symbol. -/
theorem describes (hS : p.IsAnswerSet S) (hI : c.Admits I)
    (hstates : ∀ a ψ, c.States a ψ → (a ∈ S ↔ ψ I)) :
    c.Describes I S ∧ φ I ∧ S = c.truth I ∪ F := by
  obtain ⟨background, arranged, hb, ha, hrules⟩ := h
  have hdescribes := ha.describes hc hb hrules hS hI hstates
  exact ⟨hdescribes, ha.of_describes hc hb hrules hS hdescribes⟩

/-- The sentence is true in the evaluation that an answer set describes. -/
theorem interpret (hS : p.IsAnswerSet S) :
    φ (c.interpret S) ∧ S = c.truth (c.interpret S) ∪ F :=
  (h.describes hc hS (admits_interpret hc) fun _ _ ha => ha.mem_iff_interpret hc).2

/-- Every evaluation in which the sentence is true is described by an answer set. -/
theorem isAnswerSet_truth (hI : c.Admits I) (hφ : φ I) :
    p.IsAnswerSet (c.truth I ∪ F) := by
  obtain ⟨background, arranged, hb, ha, hrules⟩ := h
  exact ha.isStable_truth hc hb hrules hI hφ

/-- There is an answer set if the sentence is true in some evaluation. -/
theorem exists_isAnswerSet_iff : (∃ S, p.IsAnswerSet S) ↔ ∃ I, c.Admits I ∧ φ I := by
  constructor
  · rintro ⟨S, hS⟩
    exact ⟨c.interpret S, admits_interpret hc, (h.interpret hc hS).1⟩
  · rintro ⟨I, hI, hφ⟩
    exact ⟨_, h.isAnswerSet_truth hc hI hφ⟩

/-- The plain atoms of an answer set are over symbols of classes and properties. -/
theorem exists_states {A : AnswerSet} (hA : p.IsAnswerSet A.toSet) {a : Atom} (ha : a ∈ A)
    (hplain : IsPlain a) : ∃ ψ, c.States a ψ := by
  have hmem : a ∈ c.truth (c.interpret A.toSet) ∪ F := (h.interpret hc hA).2 ▸ ha
  obtain ⟨ψ, hs, -⟩ := (mem_truth_iff h.switches hplain).1 hmem
  exact ⟨ψ, hs⟩

/-- The decoding of an answer set is the interpretation that it describes. -/
theorem interpretation_decode {A : AnswerSet} (hA : p.IsAnswerSet A.toSet) :
    (c.decode A none).interpretation c.domain = (c.interpret A.toSet).toInterpretation :=
  Context.interpretation_decode hc fun _ ha hread => h.exists_states hc hA ha (hread.isPlain hc)

/-- Different answer sets have different decodings. -/
theorem injOn_decode :
    Set.InjOn (fun A : AnswerSet => c.decode A none) {A | p.IsAnswerSet A.toSet} := by
  intro A hA A' hA' heq
  have hinterpret : c.interpret A.toSet = c.interpret A'.toSet := by
    have hinterpretation : (c.interpret A.toSet).toInterpretation =
        (c.interpret A'.toSet).toInterpretation := by
      rw [← h.interpretation_decode hc hA, ← h.interpretation_decode hc hA']
      exact congrArg (fun m => m.interpretation c.domain) heq
    exact congrArg c.evaluate hinterpretation
  apply AnswerSet.toSet_injective
  rw [(h.interpret hc hA).2, (h.interpret hc hA').2, hinterpret]

end Context.Realizes

/-! ## Encodings -/

namespace Reasoner

variable {o : Ontology} {d : Domain} {e : Encoding} {κ : Context} {scheme : NamingScheme}
  {strategy : Strategy}

theorem encode_eq_ok_iff : encode o d scheme strategy = .ok (e, κ) ↔
    (Grounding.groundOntology o).exec (.new d scheme strategy) = (.ok e, κ) := by
  unfold encode Grounding.exec
  split
  · next e' κ' hrun => simp [hrun]
  · next error κ' hrun => simp [hrun]

/-- What is known of the encoding of an ontology over a domain: each axiom has brought rules which
enforce that it is respected. All names of the signature have symbols, and no others have but for
those in axioms. -/
structure Encoded (o : Ontology) (d : Domain) (e : Encoding) (κ : Context) : Prop where
  ready : κ.Ready
  domain : κ.domain = d
  settled : κ.pending.rules = []
  encodes : ∃ items : List EncodedAxiom,
    items.map (fun i => (i.content, i.position)) = o.axioms.zipIdx ∧ κ.Encodes e items
  knows : ∀ v, Grounding.HasName o.signature v → κ.Knows v
  within : ∀ v, κ.Knows v →
    Grounding.HasName o.signature v ∨ ∃ a ∈ o.axioms, v ∈ Grounding.entities a

/-- The classes and properties of the signature and all entities of axioms. -/
def encodedEntities (o : Ontology) : Set Entity :=
  {v | (∃ a ∈ o.axioms, v ∈ Grounding.entities a) ∨
    (∃ iri ∈ o.signature.classes, v = .atomicClass iri) ∨
    ∃ iri ∈ o.signature.objectProperties, v = .objectProperty iri}

theorem groundOntology_yields (hs : ∀ a ∈ o.axioms, a.IsSupported) (d : Domain)
    (scheme : NamingScheme) (strategy : Strategy) :
    Grounding.Yields (encodedEntities o) (Grounding.groundOntology o) (.new d scheme strategy)
      fun c' e => c'.pending.rules = [] ∧ (∃ items : List EncodedAxiom,
        items.map (fun i => (i.content, i.position)) = o.axioms.zipIdx ∧ c'.Encodes e items) ∧
        ∀ v, Grounding.HasName o.signature v → c'.Knows v :=
  Grounding.groundOntology_yields hs (fun iri hiri => .inr (.inl ⟨iri, hiri, rfl⟩))
    (fun iri hiri => .inr (.inr ⟨iri, hiri, rfl⟩)) (fun a ha _ hv => .inl ⟨a, ha, hv⟩) d scheme
    strategy

/-- An encoding is one of all axioms. -/
theorem encoded_of_encode (h : encode o d scheme strategy = .ok (e, κ)) : Encoded o d e κ := by
  have hrun := encode_eq_ok_iff.1 h
  have hs := Grounding.supported_of_groundOntology (congrArg Prod.fst hrun)
  have hyields := groundOntology_yields hs d scheme strategy
  have hfollows := hyields.follows
  have hok := hyields.ok e (by rw [hrun])
  rw [hrun] at hfollows hok
  obtain ⟨hsettled, hencodes, hknows⟩ := hok
  refine ⟨hfollows.ready, hfollows.domain, hsettled, hencodes, hknows, fun v hv => ?_⟩
  -- the first context has no symbols, so all of them come from the vocabulary
  rcases hfollows.within v hv with hnew | hmem | ⟨iri, hiri, rfl⟩ | ⟨iri, hiri, rfl⟩
  · cases v with
    | atomicClass iri => exact absurd (SortedMap.find?_empty iri) hnew
    | objectProperty iri => exact absurd (SortedMap.find?_empty iri) hnew
    | individual iri => exact .inl trivial
  · exact .inr hmem
  · exact .inl hiri
  · exact .inl hiri

/-- Every answer set of the completed program is an evaluation that respects all axioms. -/
theorem Encoded.realizes (h : Encoded o d e κ) :
    κ.Realizes e.complete (Context.activations e.positions)
      fun I => ∀ a ∈ o.axioms, I.Respects a := by
  obtain ⟨items, hitems, hencodes⟩ := h.encodes
  have hcontents : items.map (·.content) = o.axioms := by
    have := congrArg (List.map Prod.fst) hitems
    rwa [List.map_map, List.zipIdx_map_fst] at this
  have hrealizes := hencodes.realizes h.ready
  rw [← hcontents]
  simpa only [List.forall_mem_map] using hrealizes

/-- An ontology is encoded if all of its axioms are supported and all of their individuals are in the
domain. -/
theorem exists_encode (hs : ∀ a ∈ o.axioms, a.IsSupported)
    (hi : ∀ a ∈ o.axioms, ∀ i ∈ a.individualsAsserted, i ∈ d.elements)
    (scheme : NamingScheme) (strategy : Strategy) :
    ∃ e κ, encode o d scheme strategy = .ok (e, κ) ∧ Encoded o d e κ := by
  have hyields := groundOntology_yields hs d scheme strategy
  rcases hrun : (Grounding.groundOntology o).exec (.new d scheme strategy) with ⟨error | e, κ⟩
  · obtain ⟨i, ⟨a, ha, hmem⟩ | ⟨iri, -, hmem⟩ | ⟨iri, -, hmem⟩, hout⟩ :=
      hyields.error error (by rw [hrun])
    · exact absurd (hi a ha i (mem_individualsAsserted_iff.2 hmem)) hout
    · cases hmem
    · cases hmem
  · have hencode := encode_eq_ok_iff.2 hrun
    exact ⟨e, κ, hencode, encoded_of_encode hencode⟩

theorem hasName_of_mem_entities (ho : o.IsCovered) {a : Axiom} (ha : a ∈ o.axioms) {v : Entity}
    (hv : v ∈ Grounding.entities a) : Grounding.HasName o.signature v := by
  have hcontains := ho a ha v (mem_vocabulary_of_mem_entities hv)
  cases v with
  | atomicClass iri => exact hcontains
  | objectProperty iri => exact hcontains
  | individual iri => trivial

theorem Encoded.knows_iff (h : Encoded o d e κ) (ho : o.IsCovered) {v : Entity} :
    κ.Knows v ↔ Grounding.HasName o.signature v :=
  ⟨fun hv => (h.within v hv).elim id fun ⟨_, ha, hmem⟩ => hasName_of_mem_entities ho ha hmem,
    h.knows v⟩

theorem Encoded.interpretation_decode (h : Encoded o d e κ) {A : AnswerSet}
    (hA : e.complete.IsAnswerSet A.toSet) :
    (κ.decode A none).interpretation d = (κ.interpret A.toSet).toInterpretation :=
  h.domain ▸ h.realizes.interpretation_decode h.ready hA

/-! ## Sessions -/

theorem new_eq_ok_iff {listed : Option Ontology} {settings : Settings} {r : Reasoner} :
    new o listed settings = .ok r ↔ ∃ d e κ, Domain.resolve o listed = .ok d ∧
      checkSize d settings.maxDomainSize = .ok () ∧
      encode o d settings.naming settings.strategy = .ok (e, κ) ∧
      r = ⟨o, settings, κ, e, false⟩ := by
  constructor
  · intro h
    simp only [new, bind, Except.bind] at h
    split at h
    · cases h
    · next d hd =>
      split at h
      · cases h
      · next hlimit =>
        split at h
        · cases h
        · next encoded he =>
          cases h
          exact ⟨d, encoded.1, encoded.2, hd, hlimit, he, rfl⟩
  · rintro ⟨d, e, κ, hd, hlimit, he, rfl⟩
    simp only [new, hd, hlimit, he, bind, Except.bind]
    rfl

/-! ## Calls of the solver -/

/-- A step that succeeds is followed by the next one. -/
theorem run_bind_eq_of_ok {ε α β : Type} {x : ExceptT ε Id α} {a : α} (h : x.run = .ok a)
    (f : α → ExceptT ε Id β) : (x >>= f).run = (f a).run := by
  rw [ExceptT.run_bind, h]
  rfl

/-- The solver of this library finds out whether a program without nested counts has an answer set,
unless it is given no time at all. -/
theorem satisfiable_builtin_eq {r : Reasoner} (hcancelled : r.cancelled = false) {p : Program}
    (hp : ¬ p.NestsCounts) : ∃ b, (b = true ↔ ∃ S, p.IsAnswerSet S) ∧
      (r.satisfiable (Solver.builtin Id) p).run =
        if r.settings.timeout = some .zero then .error (.solver (.timeout .zero)) else .ok b := by
  obtain ⟨answers, -, hanswers, hsolve⟩ := AnswerSet.exists_solve_eq hp
  refine ⟨!(AnswerSet.upTo 1 answers).isEmpty, ?_, ?_⟩
  · cases answers with
    | nil => simpa [AnswerSet.upTo] using fun S => (hanswers S).not.2 (by simp)
    | cons A rest =>
      simp only [AnswerSet.upTo, one_ne_zero, if_false, List.take_succ_cons, List.isEmpty_cons,
        Bool.not_false, true_iff]
      exact ⟨A.toSet, (hanswers _).2 ⟨A, List.mem_cons_self, rfl⟩⟩
  · split
    · next htime =>
      have hcall : AnswerSet.solve p (r.options 1) = .error (.timeout .zero) := by
        simp [AnswerSet.solve, AnswerSet.solveWatched, AnswerSet.Watch.ofOptions,
          AnswerSet.Watch.always, AnswerSet.Interruption.toError, options, hcancelled, htime]
      simp [satisfiable, Solver.builtin, hcall]
      rfl
    · next htime =>
      have hcall : AnswerSet.solve p (r.options 1) = .ok (AnswerSet.upTo 1 answers) :=
        hsolve (r.options 1) hcancelled htime
      simp [satisfiable, Solver.builtin, hcall]
      rfl

theorem satisfiable_builtin {r : Reasoner} (hcancelled : r.cancelled = false)
    (htime : r.settings.timeoutMilliseconds = none) {p : Program} (hp : ¬ p.NestsCounts) :
    ∃ b, (r.satisfiable (Solver.builtin Id) p).run = .ok b ∧
      (b = true ↔ ∃ S, p.IsAnswerSet S) := by
  obtain ⟨b, hb, hrun⟩ := satisfiable_builtin_eq hcancelled hp
  have hsome : r.settings.timeout ≠ some .zero := by simp [Settings.timeout, htime]
  exact ⟨b, by rw [hrun, if_neg hsome], hb⟩

end Reasoner

end FixedDomain
