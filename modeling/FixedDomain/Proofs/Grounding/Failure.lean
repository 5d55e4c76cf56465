import FixedDomain.Proofs.Grounding.Ontology
import FixedDomain.Proofs.Signature

/-! # Ontologies that have no encoding

The axioms before the first unsupported one are encoded whatever stands behind them
(`exec_groundOntology_append`), since a resolved domain has every individual that they look for. So an
unsupported axiom is the only reason for an ontology to have no encoding, and it is the first one that
is reported (`groundOntology_fails_iff`).
-/

namespace FixedDomain

/-! ## Individuals of axioms -/

theorem Axiom.Mentions.mem_individualsAsserted {a : Axiom} {i : Individual}
    (h : a.Mentions (.individual i.iri)) (ha : ∀ e, a ≠ .declaration e) :
    i ∈ a.individualsAsserted := by
  have hmem : .individual i.iri ∈ a.vocabulary :=
    (Axiom.mentions_iff.1 h).resolve_right fun ⟨hdeclared, _⟩ => ha _ hdeclared
  rw [mem_individualsAsserted_iff]
  cases a with
  | declaration e => exact absurd rfl (ha e)
  | _ => exact hmem

/-- Elements have their constants at the places of their individuals. -/
theorem Context.exists_element_at {d : Domain} {i : Individual} (h : i ∈ d.elements)
    (scheme : NamingScheme) (strategy : Strategy) : ∃ k x, d.indexOf? i = some k ∧
      (new d scheme strategy).elements[k]? = some x ∧ x.individual = i := by
  have helements : (new d scheme strategy).elements.map (·.individual) = d.elements.toList :=
    (ready_new d scheme strategy).elements
  cases hk : d.indexOf? i with
  | none =>
    have hout : i ∉ d.elements.toList := by simpa [Domain.indexOf?] using hk
    exact absurd h hout
  | some k =>
    obtain ⟨hlt, heq, -⟩ := List.findIdx?_eq_some_iff_getElem.1 hk
    have hget : d.elements.toList[k]? = some i := by simpa [hlt] using heq
    rw [← helements, List.getElem?_map, Option.map_eq_some_iff] at hget
    obtain ⟨x, hx, hxi⟩ := hget
    exact ⟨k, x, rfl, hx, hxi⟩

/-- The axioms of a list that stand before the first unsupported one. -/
theorem Axiom.exists_append_unsupported {axioms : List Axiom}
    (h : ∃ a ∈ axioms, ¬ a.IsSupported) : ∃ before keyword source after,
      axioms = before ++ .unsupported keyword source :: after ∧ ∀ a ∈ before, a.IsSupported := by
  induction axioms with
  | nil => simp at h
  | cons a rest ih =>
    by_cases ha : a.IsSupported
    · have hrest : ∃ b ∈ rest, ¬ b.IsSupported := by simpa [ha] using h
      obtain ⟨before, keyword, source, after, rfl, hbefore⟩ := ih hrest
      exact ⟨a :: before, keyword, source, after, rfl, List.forall_mem_cons.2 ⟨ha, hbefore⟩⟩
    · cases a with
      | unsupported keyword source => exact ⟨[], keyword, source, rest, rfl, by simp⟩
      | _ => exact absurd trivial ha

namespace Grounding

variable {α : Type}

/-! ## Encodings of parts -/

/-- A step does not fail if all individuals of its vocabulary are elements. -/
theorem Yields.exists_ok {V : Set Entity} {m : Grounding α} {c : Context} {Q : Context → α → Prop}
    (h : Yields V m c Q) (hV : ∀ i : Individual, .individual i.iri ∈ V → i ∈ c.domain.elements) :
    ∃ a c', m.exec c = (.ok a, c') ∧ c.Follows V c' ∧ Q c' a := by
  obtain ⟨hfollows, hok, herror⟩ := h
  rcases hrun : m.exec c with ⟨e | a, c'⟩
  · obtain ⟨i, hi, hout⟩ := herror e (by rw [hrun])
    exact absurd (hV i hi) hout
  · rw [hrun] at hfollows hok
    exact ⟨a, c', rfl, hfollows, hok a rfl⟩

theorem groundAxioms_append (e : Encoding) (k : Nat) (before after : List Axiom) :
    groundAxioms e k (before ++ after) =
      groundAxioms e k before >>= fun e => groundAxioms e (k + before.length) after := by
  induction before generalizing e k with
  | nil => simp [groundAxioms]
  | cons a before ih =>
    simp [groundAxioms, ih, bind_assoc, Nat.add_comm, Nat.add_left_comm]

/-- Supported axioms whose individuals are in the domain are encoded, whatever stands behind them. -/
theorem exec_groundOntology_append {o : Ontology} {before after : List Axiom}
    (ho : o.axioms = before ++ after) (hs : ∀ a ∈ before, a.IsSupported) {d : Domain}
    (hi : ∀ a ∈ before, ∀ i ∈ a.individualsAsserted, i ∈ d.elements) (scheme : NamingScheme)
    (strategy : Strategy) : ∃ e c, (groundOntology o).exec (.new d scheme strategy) =
      (groundAxioms e before.length after).exec c := by
  -- of the vocabulary only the individuals matter, which are all in the domain
  let V : Set Entity := {v | ∀ i : Individual, v = .individual i.iri → i ∈ d.elements}
  have hV : ∀ a ∈ before, ∀ v ∈ entities a, v ∈ V := by
    rintro a ha v hv i rfl
    exact hi a ha i (mem_individualsAsserted_iff.2 hv)
  have helement : ∀ {c : Context}, c.domain = d →
      ∀ i : Individual, .individual i.iri ∈ V → i ∈ c.domain.elements := by
    rintro c rfl i hmem
    exact hmem i rfl
  have hready := Context.ready_new d scheme strategy
  obtain ⟨program, c₁, hrun₁, h₁, hpending, hb, -⟩ :=
    (enterSignature_yields (V := V) (s := o.signature) (fun _ _ _ heq => nomatch heq)
      (fun _ _ _ heq => nomatch heq) hready (Context.background_new d scheme strategy)).exists_ok
      (helement rfl)
  obtain ⟨e, c₂, hrun₂, -, -⟩ :=
    (groundAxioms_yields hs hV h₁.ready hpending hb.encodes (k := 0)).exists_ok
      (helement h₁.domain)
  refine ⟨e, c₂, ?_⟩
  rw [groundOntology_eq, exec_bind, hrun₁, ho]
  simp only [groundAxioms_append, exec_bind, hrun₂, Nat.zero_add]

/-! ## Failures -/

/-- An ontology has no encoding over its domain if and only if one of its axioms is not supported. The
first one of these is reported; every individual that an axiom says something about is found. -/
theorem groundOntology_fails_iff {o : Ontology} (ho : o.Built) {listed : Option Ontology} {d : Domain}
    (hd : Domain.resolve o listed = .ok d) (scheme : NamingScheme) (strategy : Strategy) :
    let result := ((groundOntology o).exec (.new d scheme strategy)).1
    ((∃ e, result = .error e) ↔ ∃ keyword source, .unsupported keyword source ∈ o.axioms) ∧
      (∀ e, result = .error e → ∃ before keyword source after,
        o.axioms = before ++ .unsupported keyword source :: after ∧
          (∀ a ∈ before, ∀ k s, a ≠ .unsupported k s) ∧
            e = .unsupported keyword source .grounding) ∧
      (∀ i, result ≠ .error (.configuration (.notAnElement i))) ∧
      ∀ a ∈ o.axioms, (∀ v, a ≠ .declaration v) → ∀ i : Individual, a.Mentions (.individual i.iri) →
        ∃ k x, d.indexOf? i = some k ∧ (Context.new d scheme strategy).elements[k]? = some x ∧
          x.individual = i := by
  intro result
  have hi := ho.isCovered.mem_of_resolve hd
  -- where all axioms are supported, the run over all of them succeeds
  have hfails : ∀ e, result = .error e → ∃ a ∈ o.axioms, ¬ a.IsSupported := by
    intro e he
    by_contra hall
    have hs : ∀ a ∈ o.axioms, a.IsSupported := by simpa using hall
    obtain ⟨e', c, hexec⟩ :=
      exec_groundOntology_append (List.append_nil o.axioms).symm hs hi scheme strategy
    have hok : result = .ok e' := congrArg Prod.fst hexec
    rw [hok] at he
    cases he
  -- the run over the axioms before the first other one succeeds, and there it ends
  have hreports : (∃ a ∈ o.axioms, ¬ a.IsSupported) → ∃ before keyword source after,
      o.axioms = before ++ .unsupported keyword source :: after ∧
        (∀ a ∈ before, a.IsSupported) ∧ result = .error (.unsupported keyword source .grounding) := by
    intro h
    obtain ⟨before, keyword, source, after, heq, hs⟩ := Axiom.exists_append_unsupported h
    have hbefore : ∀ a ∈ before, a ∈ o.axioms := fun a ha =>
      heq ▸ List.mem_append_left _ ha
    obtain ⟨e, c, hexec⟩ := exec_groundOntology_append heq hs
      (fun a ha => hi a (hbefore a ha)) scheme strategy
    exact ⟨before, keyword, source, after, heq, hs, congrArg Prod.fst hexec⟩
  have hfirst : ∀ e, result = .error e → ∃ before keyword source after,
      o.axioms = before ++ .unsupported keyword source :: after ∧
        (∀ a ∈ before, ∀ k s, a ≠ .unsupported k s) ∧ e = .unsupported keyword source .grounding := by
    intro e he
    obtain ⟨before, keyword, source, after, heq, hs, hresult⟩ := hreports (hfails e he)
    rw [hresult] at he
    refine ⟨before, keyword, source, after, heq, fun a ha k s h => ?_, (Except.error.inj he).symm⟩
    exact (h ▸ hs a ha : (Axiom.unsupported k s).IsSupported)
  refine ⟨⟨fun ⟨e, he⟩ => ?_, fun ⟨keyword, source, hmem⟩ => ?_⟩, hfirst, fun i he => ?_,
    fun a ha hv i hmentions => ?_⟩
  · obtain ⟨before, keyword, source, after, heq, -⟩ := hfirst e he
    exact ⟨keyword, source, by simp [heq]⟩
  · obtain ⟨_, _, _, _, -, -, hresult⟩ := hreports ⟨_, hmem, id⟩
    exact ⟨_, hresult⟩
  · obtain ⟨_, _, _, _, -, -, h⟩ := hfirst _ he
    cases h
  · exact Context.exists_element_at (hi a ha i (hmentions.mem_individualsAsserted hv)) scheme strategy

/-- A chain of properties, behind an assertion. -/
def chained : Ontology :=
  .ofAxioms [.classAssertion (.named ⟨"urn:A"⟩) ⟨⟨"urn:i"⟩⟩,
    .unsupported "SubObjectPropertyOf" "SubObjectPropertyOf(ObjectPropertyChain(:p :q) :p)"]

theorem groundOntology_fails_chained : chained.Built ∧
    Domain.resolve chained none = .ok (.ofSet chained.assertedIndividuals) ∧
    ∃ e, ((groundOntology chained).exec
      (.new (.ofSet chained.assertedIndividuals) .aspCore .direct)).1 = .error e := by
  have hbuilt : chained.Built := .add (.add (.header none [] .empty) _) _
  have hd : Domain.resolve chained none = .ok (.ofSet chained.assertedIndividuals) := rfl
  refine ⟨hbuilt, hd, (groundOntology_fails_iff hbuilt hd .aspCore .direct).1.2 ?_⟩
  exact ⟨_, _, List.mem_cons_of_mem _ List.mem_cons_self⟩

end Grounding

end FixedDomain
