import FixedDomain.Proofs.Grounding.Emission

/-! # Calls on one context

* `Call` — the encoding of an ontology or of a query that is asked for.
* `Call.runAll` — calls are made one after another on one context, and each may fail.

A call for an ontology that fails loses what it has written by then, which is the program of the axioms
before the failing one (`Call.lost_ontology`). Nothing else is lost, and nothing is written twice
(`Call.runAll_emitsOnce`).
-/

namespace FixedDomain

/-- An encoding of an ontology, or of a query, that is asked for. -/
inductive Call where
  | ontology (o : Ontology)
  | query (a : Axiom)

namespace Call

/-- What a call leaves behind: its result, and what it has written in vain. -/
structure Outcome where
  result : Except ReasonerError Program
  lost : Program

/-- The rules of the program that a call returns. -/
def Outcome.kept (o : Outcome) : List Rule :=
  match o.result with
  | .ok program => program.rules
  | .error _ => []

/-- The program of a call. -/
def encode : Call → Grounding Program
  | ontology o => return (← Grounding.groundOntology o).program
  | query a => Grounding.negatedQuery a

/-- Makes a call. The program of an ontology that has been begun is lost if the call fails. -/
def run (call : Call) (c : Context) : Outcome × Context :=
  match call, call.encode.exec c with
  | _, (.ok program, c') => (⟨.ok program, .empty⟩, c')
  | ontology o, (.error e, c') => (⟨.error e, Grounding.written o c⟩, c')
  | query _, (.error e, c') => (⟨.error e, .empty⟩, c')

/-- Makes calls, one after another. -/
def runAll : List Call → Context → List Outcome × Context
  | [], c => ([], c)
  | call :: calls, c =>
    let (outcome, c) := call.run c
    let (outcomes, c) := runAll calls c
    (outcome :: outcomes, c)

variable {c c' : Context} {d : Domain} {emitted : List Rule}

/-! ## Results -/

theorem exec_encode_ontology_of_ok {o : Ontology} {e : Encoding}
    (h : (Grounding.groundOntology o).exec c = (.ok e, c')) :
    (ontology o).encode.exec c = (.ok e.program, c') := by
  rw [encode, Grounding.exec_bind, h]
  rfl

theorem exec_encode_ontology_of_error {o : Ontology} {e : ReasonerError}
    (h : (Grounding.groundOntology o).exec c = (.error e, c')) :
    (ontology o).encode.exec c = (.error e, c') := by
  rw [encode, Grounding.exec_bind, h]

/-- A call for a query loses nothing, and neither does one that succeeds. -/
theorem lost_eq_empty {call : Call}
    (h : ∀ o, call = .ontology o → ∃ program, (call.run c).1.result = .ok program) :
    (call.run c).1.lost = .empty := by
  rcases hrun : call.encode.exec c with ⟨e | program, c'⟩
  · cases call with
    | ontology o =>
      obtain ⟨program, hok⟩ := h o rfl
      simp only [run, hrun] at hok
      cases hok
    | query a => simp only [run, hrun]
  · simp only [run, hrun]

theorem lost_runAll {calls : List Call}
    (h : ∀ p ∈ calls.zip (runAll calls c).1, ∀ o, p.1 = .ontology o →
      ∃ program, p.2.result = .ok program) :
    ∀ o ∈ (runAll calls c).1, o.lost = .empty := by
  induction calls generalizing c with
  | nil => simp [runAll]
  | cons call calls ih =>
    simp only [runAll, List.zip_cons_cons, List.forall_mem_cons] at h ⊢
    exact ⟨lost_eq_empty h.1, ih h.2⟩

/-- A call for an ontology that fails loses the program of the axioms before the failing one. -/
theorem lost_ontology {o : Ontology} {e : ReasonerError}
    (h : ((ontology o).run c).1.result = .error e) : ∃ before a after,
      o.axioms = before ++ a :: after ∧ ((ontology { o with axioms := before }).run c).1.result =
        .ok ((ontology o).run c).1.lost := by
  rcases hrun : (Grounding.groundOntology o).exec c with ⟨error | encoding, c'⟩
  · obtain ⟨before, a, after, e₁, c₁, heq, hbefore, hwritten⟩ := Grounding.written_of_error hrun
    refine ⟨before, a, after, heq, ?_⟩
    simp only [run, exec_encode_ontology_of_error hrun, exec_encode_ontology_of_ok hbefore, hwritten]
  · simp only [run, exec_encode_ontology_of_ok hrun] at h
    cases h

/-! ## Rules -/

theorem run_emitting (call : Call) (h : c.Emitting d emitted) : (call.run c).2.Emitting d
    (emitted ++ ((call.run c).1.kept ++ (call.run c).1.lost.rules)) := by
  cases call with
  | ontology o =>
    have hemitting := Grounding.groundOntology_emitting h o
    rcases hrun : (Grounding.groundOntology o).exec c with ⟨e | e, c'⟩
    · rw [hrun] at hemitting
      simpa only [run, exec_encode_ontology_of_error hrun, Outcome.kept, List.nil_append]
        using hemitting
    · rw [hrun, Grounding.written_of_ok hrun] at hemitting
      simpa only [run, exec_encode_ontology_of_ok hrun, Outcome.kept, Program.rules_empty,
        List.append_nil] using hemitting
  | query a =>
    rcases Grounding.negatedQuery_emitting h a with ⟨e, c', hrun, hemitting⟩ |
      ⟨program, c', hrun, hemitting⟩
    · have hencode : (query a).encode.exec c = (.error e, c') := hrun
      simpa only [run, hencode, Outcome.kept, Program.rules_empty, List.append_nil] using hemitting
    · have hencode : (query a).encode.exec c = (.ok program, c') := hrun
      simpa only [run, hencode, Outcome.kept, Program.rules_empty, List.append_nil] using hemitting

theorem runAll_emitting (calls : List Call) (h : c.Emitting d emitted) :
    (runAll calls c).2.Emitting d
      (emitted ++ (runAll calls c).1.flatMap fun o => o.kept ++ o.lost.rules) := by
  induction calls generalizing c emitted with
  | nil => simpa [runAll] using h
  | cons call calls ih =>
    simpa only [runAll, List.flatMap_cons, List.append_assoc] using ih (call.run_emitting h)

/-- However calls on one context end, what they return, what failing calls for ontologies lose and what
is pending have all rules for the symbols and definitions of the context once. So nothing is lost if no
call for an ontology fails, and otherwise no more than the program of the axioms before the failing
one. -/
theorem runAll_emitsOnce (d : Domain) (scheme : NamingScheme) (strategy : Strategy) (calls : List Call) :
    let run := runAll calls (.new d scheme strategy)
    run.2.elements.map (·.individual) = d.elements.toList ∧
      run.2.EmitsOnce ((run.1.flatMap fun o => o.kept ++ o.lost.rules) ++ run.2.pending.rules) ∧
      ((∀ p ∈ calls.zip run.1, ∀ o, p.1 = .ontology o → ∃ program, p.2.result = .ok program) →
        run.2.EmitsOnce (run.1.flatMap Outcome.kept ++ run.2.pending.rules)) ∧
      ∀ o c e, ((ontology o).run c).1.result = .error e → ∃ before a after,
        o.axioms = before ++ a :: after ∧ ((ontology { o with axioms := before }).run c).1.result =
          .ok ((ontology o).run c).1.lost := by
  intro run
  obtain ⟨hready, hdomain, hemitted⟩ :=
    runAll_emitting calls (Context.emitting_new d scheme strategy)
  have honce := hemitted.emitsOnce
  rw [List.nil_append] at honce
  refine ⟨hdomain ▸ hready.elements, honce, fun h => ?_, fun o c e => lost_ontology⟩
  have hnone : (run.1.flatMap fun o => o.kept ++ o.lost.rules) = run.1.flatMap Outcome.kept := by
    refine List.flatMap_congr fun o ho => ?_
    rw [lost_runAll h o ho, Program.rules_empty, List.append_nil]
  exact hnone ▸ honce

/-- A call for an ontology, one for a query that is not supported, and one for a query with a new
property. -/
def failingQuery : List Call :=
  [.ontology (.ofAxioms [.classAssertion (.named ⟨"urn:A"⟩) ⟨⟨"urn:i"⟩⟩]),
    .query (.unsupported "K" "K(x)"),
    .query (.subClassOf (.named ⟨"urn:A"⟩) (.hasSelf (.named ⟨"urn:p"⟩)))]

/-- The second call fails, and nothing is lost. -/
theorem runAll_emitsOnce_failingQuery :
    let run := runAll failingQuery (.new (.ofIndividuals [⟨⟨"urn:i"⟩⟩]) .aspCore .naive)
    run.1.map (·.result.toOption.isSome) = [true, false, true] ∧
      run.2.EmitsOnce (run.1.flatMap Outcome.kept ++ run.2.pending.rules) := by
  intro run
  have hresults : run.1.map (·.result.toOption.isSome) = [true, false, true] := by decide +kernel
  refine ⟨hresults, (runAll_emitsOnce _ .aspCore .naive failingQuery).2.2.1 fun p hp o ho => ?_⟩
  -- only the first of the calls is for an ontology
  obtain ⟨first, second, third, hrun⟩ := List.length_eq_three.1
    (by simpa using congrArg List.length hresults : run.1.length = 3)
  have hfirst : first.result.toOption.isSome = true := by
    rw [hrun] at hresults
    exact (List.cons.inj hresults).1
  have hmem : p ∈ failingQuery.zip [first, second, third] := hrun ▸ hp
  rcases List.mem_cons.1 hmem with rfl | hmem
  · cases hresult : first.result with
    | error e =>
      rw [hresult] at hfirst
      cases hfirst
    | ok program => exact ⟨program, rfl⟩
  · rcases List.mem_pair.1 hmem with rfl | rfl <;> cases ho

/-- A declaration in front of an axiom that is not supported. -/
def interrupted : Ontology :=
  .ofAxioms [.declaration (.atomicClass ⟨"urn:A"⟩), .unsupported "K" "K(x)"]

/-- The class that has been entered before the failure is total nowhere. -/
theorem not_emitsOnce_interrupted :
    let run := runAll [.ontology interrupted] (.new (.ofIndividuals [⟨⟨"urn:i"⟩⟩]) .aspCore .naive)
    ¬ run.2.EmitsOnce (run.1.flatMap Outcome.kept ++ run.2.pending.rules) := by
  intro run h
  have hnone : (run.1.flatMap Outcome.kept ++ run.2.pending.rules).length = 0 := by decide +kernel
  obtain ⟨s, hs⟩ : ∃ s, run.2.classes.find? ⟨"urn:A"⟩ = some s :=
    Option.isSome_iff_exists.1 (by decide +kernel)
  obtain ⟨x, hx⟩ : ∃ x, x ∈ run.2.elements := List.exists_mem_of_length_pos (by decide +kernel)
  have honce := h.classes _ s hs x hx
  rw [List.length_eq_zero_iff.1 hnone] at honce
  cases honce

end Call

end FixedDomain
