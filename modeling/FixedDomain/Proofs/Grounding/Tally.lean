import FixedDomain.Proofs.Grounding.Emission

/-! # How many rules a program has

* `Context.definitionSize` — how many rules define the auxiliary predicate of an expression.
* `Context.tally` — how many rules there are for the symbols and definitions of a context.

What is added to a context adds as many rules to what is pending as to the tally (`Additions.tally`), and
the encoding of an axiom writes what is pending and the rules of the axiom. So the program of an ontology
has the tally of the context it leaves, and the rules of each axiom (`length_groundOntology`).
-/

namespace FixedDomain

namespace Context

/-- How many rules define the auxiliary predicate of an expression. -/
def definitionSize (κ : Context) (d : ClassExpression) : Nat :=
  match (Grounding.definitionBodies d).exec κ with
  | (.ok bodies, _) => (bodies.map (·.2.length)).sum
  | (.error _, _) => 0

/-- How many rules an axiom has. -/
def axiomSize (κ : Context) (a : Axiom) : Nat :=
  match (Grounding.axiomRules a).exec κ with
  | (.ok rules, _) => rules.length
  | (.error _, _) => 0

/-- How many rules make the symbols of a context total and define its auxiliary predicates. How many
define a predicate can be seen in a larger context `κ`. -/
def tally (κ c : Context) : Nat :=
  κ.elements.length * c.classes.entries.length +
    κ.elements.length * κ.elements.length * c.properties.entries.length +
    (c.definitions.map κ.definitionSize).sum

variable {P : ClassExpression → Prop} {κ c c' : Context}

theorem length_definitionRules (k : Nat) (bodies : List (Element × List Body)) :
    (Grounding.definitionRules k bodies).length = (bodies.map (·.2.length)).sum := by
  simp [Grounding.definitionRules, List.length_flatMap]

theorem definitionSize_eq {d : ClassExpression} {bodies : List (Element × List Body)}
    (h : (Grounding.definitionBodies d).exec c = (.ok bodies, c)) (hle : c ≤ κ) :
    κ.definitionSize d = (bodies.map (·.2.length)).sum := by
  simp [definitionSize, definitionBodies_again h hle]

/-- What is added becomes pending, and is counted. -/
theorem Addition.tally (h : Addition P c c') (hle : c' ≤ κ) :
    c'.pending.length + κ.tally c = c.pending.length + κ.tally c' := by
  have hold : c ≤ κ := le_trans h.le hle
  have helements : c.elements = κ.elements := hold.elements.symm
  cases h with
  | @enterClass iri hnone =>
    have hpending : (c.withClass iri).pending.length = c.pending.length + κ.elements.length := by
      simp [Program.length, withClass, classTotality, helements]
    have hclasses : (c.withClass iri).classes.entries.length = c.classes.entries.length + 1 :=
      SortedMap.length_entries_insert hnone _
    have hproperties : (c.withClass iri).properties = c.properties := rfl
    have hdefinitions : (c.withClass iri).definitions = c.definitions := rfl
    simp only [Context.tally, hpending, hclasses, hproperties, hdefinitions, Nat.mul_succ]
    omega
  | @enterProperty iri hnone =>
    have hpending : (c.withProperty iri).pending.length =
        c.pending.length + κ.elements.length * κ.elements.length := by
      simp [Program.length, withProperty, propertyTotality, List.length_flatMap, helements]
    have hproperties : (c.withProperty iri).properties.entries.length =
        c.properties.entries.length + 1 := SortedMap.length_entries_insert hnone _
    have hclasses : (c.withProperty iri).classes = c.classes := rfl
    have hdefinitions : (c.withProperty iri).definitions = c.definitions := rfl
    simp only [Context.tally, hpending, hclasses, hproperties, hdefinitions, Nat.mul_succ]
    omega
  | @definition d bodies _ hnew hbodies =>
    have hpending : (c.withDefinition d bodies).pending.length =
        c.pending.length + κ.definitionSize d := by
      rw [definitionSize_eq hbodies hold, ← length_definitionRules (c.auxCount + 1)]
      simp [Program.length, withDefinition]
    have hclasses : (c.withDefinition d bodies).classes = c.classes := rfl
    have hproperties : (c.withDefinition d bodies).properties = c.properties := rfl
    have hdefinitions : (c.withDefinition d bodies).definitions = c.definitions ++ [d] := rfl
    simp only [Context.tally, hpending, hclasses, hproperties, hdefinitions, List.map_append,
      List.sum_append, List.map_cons, List.map_nil, List.sum_singleton]
    omega

theorem Additions.tally (h : Additions P c c') (hle : c' ≤ κ) :
    c'.pending.length + κ.tally c = c.pending.length + κ.tally c' := by
  induction h with
  | refl => rfl
  | tail _ hadd ih =>
    have hfirst := ih (le_trans hadd.le hle)
    have hlast := hadd.tally hle
    omega

end Context

namespace Grounding

open Context

variable {κ c c' : Context}

theorem length_tagged (strategy : Strategy) (k : Nat) (rules : List Rule) :
    (tagged strategy k rules).length = rules.length := by
  unfold tagged
  split
  · rw [List.length_map]
  · rfl

/-- The program of some axioms grows by what has been added to the context and by the rules of each. -/
theorem length_groundAxioms {axioms : List Axiom} {e e' : Encoding} {k : Nat}
    (h : (groundAxioms e k axioms).exec c = (.ok e', κ)) : c ≤ κ ∧
      (∀ a ∈ axioms, ∃ rules, (axiomRules a).exec κ = (.ok rules, κ)) ∧
      e'.program.length + κ.pending.length + κ.tally c =
        e.program.length + c.pending.length + κ.tally κ + (axioms.map κ.axiomSize).sum := by
  induction axioms generalizing e k c with
  | nil =>
    cases h
    exact ⟨κ.le_refl, List.forall_mem_nil _, by simp⟩
  | cons a rest ih =>
    have hrepeats := axiomRules_repeatable (P := fun _ => True) (fun _ => trivial) a
    have hadditions := hrepeats.additions c
    rw [groundAxioms] at h
    rcases hrun : (axiomRules a).exec c with ⟨error | rules, c₁⟩
    · rw [exec_bind, exec_groundAxiom_of_error hrun e k] at h
      cases h
    · obtain ⟨e₁, hexec, hrules⟩ := exec_groundAxiom_of_ok hrun e k
      rw [exec_bind, hexec] at h
      rw [hrun] at hadditions
      dsimp only at hadditions
      obtain ⟨hle, hrest, hlength⟩ := ih h
      have hle₁ : c₁ ≤ κ := le_trans c₁.le_settle hle
      have hagain := hrepeats.again hrun hle₁
      have htally := hadditions.tally hle₁
      have hsize : κ.axiomSize a = rules.length := by simp [axiomSize, hagain]
      have hprogram : e₁.program.length = e.program.length + c₁.pending.length + rules.length := by
        rw [Program.length, hrules, List.length_append, List.length_append, length_tagged]
        rfl
      -- what has been written is no longer pending
      have hsettled : c₁.settle.pending.length = 0 ∧ κ.tally c₁.settle = κ.tally c₁ := ⟨rfl, rfl⟩
      refine ⟨le_trans hadditions.le hle₁, List.forall_mem_cons.2 ⟨⟨rules, hagain⟩, hrest⟩, ?_⟩
      rw [List.map_cons, List.sum_cons]
      omega

/-- The program of an ontology has the rules for the symbols and definitions of the context it leaves,
and those of each axiom. -/
theorem length_groundOntology {o : Ontology} {d : Domain} {scheme : NamingScheme}
    {strategy : Strategy} {e : Encoding}
    (h : (groundOntology o).exec (.new d scheme strategy) = (.ok e, κ)) :
    (∀ a ∈ o.axioms, ∃ rules, (axiomRules a).exec κ = (.ok rules, κ)) ∧
      e.program.length + κ.pending.length = κ.tally κ + (o.axioms.map κ.axiomSize).sum := by
  obtain ⟨program, c, hadditions, hexec, hrules⟩ :=
    exec_enterSignature o.signature (.new d scheme strategy)
  rw [groundOntology_eq, exec_bind, hexec] at h
  obtain ⟨hle, hrest, hlength⟩ := length_groundAxioms h
  have htally := (hadditions fun _ => True).tally (le_trans c.le_settle hle)
  have hprogram : program.length = c.pending.length := by rw [Program.length, hrules]; rfl
  have hnew : (Context.new d scheme strategy).pending.length = 0 ∧
      κ.tally (.new d scheme strategy) = 0 := ⟨rfl, rfl⟩
  have hsettled : c.settle.pending.length = 0 ∧ κ.tally c.settle = κ.tally c := ⟨rfl, rfl⟩
  refine ⟨hrest, ?_⟩
  simp only [hprogram] at hlength
  omega

end Grounding

end FixedDomain
