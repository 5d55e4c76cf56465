import FixedDomain.Proofs.Grounding.Submodels
import FixedDomain.Proofs.Reasoner.Entailment
import FixedDomain.Proofs.Reasoner.Enumeration
import FixedDomain.Proofs.Reasoner.Justification

/-! # Programs that sessions submit

A session submits the program of all axioms, those with some active axioms, those for the violations of
an axiom, and any of them with constraints that block answer sets (`Reasoner.Submitted`). The search
finds their minimal models, as a solver for disjunctive programs does (`solve_eq_minimal`).
-/

namespace FixedDomain.Reasoner

/-- The programs that a session submits to a solver. -/
inductive Submitted (r : Reasoner) : Program → Prop
  | complete : Submitted r r.program
  | active {e : Encoding} (h : r.taggedEncoding = .ok e) (active : List Nat) :
      Submitted r (e.withActive active)
  | violation {a : Axiom} {p : Program} (h : r.violationProgram a = .ok p) : Submitted r p
  | blocked {p : Program} (h : Submitted r p) (observable : List Atom) (answer : AnswerSet) :
      Submitted r (p.push (Enumeration.blocking observable answer))

/-- The solver accepts a program, and its answer sets are the minimal models. -/
structure Agrees (p : Program) : Prop where
  unnested : ¬ p.NestsCounts
  iff : ∀ S, p.IsMinimalAnswerSet S ↔ p.IsAnswerSet S

namespace Agrees

theorem of_realizes {c : Context} {p : Program} {F : Set Atom} {φ : Sentence} (hc : c.Ready)
    (h : c.Realizes p F φ) : Agrees p :=
  ⟨h.not_nestsCounts, fun _ => h.isMinimalAnswerSet_iff hc⟩

/-- Blocking constraints exclude the same sets from both. -/
theorem blocked {p : Program} (h : Agrees p) (observable : List Atom) (answer : AnswerSet) :
    Agrees (p.push (Enumeration.blocking observable answer)) := by
  refine ⟨?_, fun S => ?_⟩
  · have hunnested := h.unnested
    rw [← Program.any_isNested_iff] at hunnested ⊢
    have hblocking : ∀ l ∈ (Enumeration.blocking observable answer).body, l.isNested = false :=
      Enumeration.isNested_of_mem_blocking
    simpa [or_imp, forall_and] using And.intro hunnested hblocking
  · rw [Program.IsMinimalAnswerSet, Program.IsAnswerSet, Program.rules_push, Enumeration.blocking,
      isMinimalModel_append_constraint_iff, isStable_append_constraint_iff]
    exact and_congr_left fun _ => h.iff S

variable {o : Ontology} {d : Domain} {e : Encoding} {κ : Context}

theorem withActive (h : Encoded o d e κ) (hdebug : κ.strategy = .debug) (active : List Nat) :
    Agrees (e.withActive active) := by
  obtain ⟨items, -, hencodes⟩ := h.encodes
  obtain ⟨p, hp, hlive, hdormant⟩ := hencodes.exists_live_withActive h.ready hdebug active
  refine ⟨h.not_nestsCounts_withActive active, fun S => ?_⟩
  calc (e.withActive active).IsMinimalAnswerSet S
      ↔ p.IsMinimalAnswerSet S := isMinimalModel_iff_of_dormant hlive hdormant
    _ ↔ p.IsAnswerSet S := hp.isMinimalAnswerSet_iff h.ready
    _ ↔ (e.withActive active).IsAnswerSet S := (isStable_iff_of_dormant hlive hdormant).symm

end Agrees

/-- All programs that a session submits are like this. -/
theorem Submitted.agrees {o : Ontology} {listed : Option Ontology} {settings : Settings}
    {r : Reasoner} (hnew : new o listed settings = .ok r) {p : Program} (hp : r.Submitted p) :
    Agrees p := by
  obtain ⟨d, e, κ, -, -, hencode, rfl⟩ := new_eq_ok_iff.1 hnew
  have h := encoded_of_encode hencode
  induction hp with
  | complete => exact .of_realizes h.ready h.realizes
  | @active e' htagged active =>
    by_cases hdebug : κ.strategy = .debug
    · simp only [taggedEncoding, Reasoner.strategy, hdebug, if_true] at htagged
      cases htagged
      exact .withActive h hdebug active
    · simp only [taggedEncoding, Reasoner.strategy, hdebug, if_false] at htagged
      rcases hencode' : encode o (Reasoner.domain ⟨o, settings, κ, e, false⟩) settings.naming .debug
        with error | ⟨e'', κ''⟩
      · rw [hencode'] at htagged
        cases htagged
      · rw [hencode'] at htagged
        cases htagged
        exact .withActive (encoded_of_encode hencode') (strategy_of_encode hencode') active
  | violation hviolation =>
    obtain ⟨κ', F, hready, -, hrealizes⟩ := h.realizes_of_violationProgram hviolation
    exact .of_realizes hready hrealizes
  | blocked _ observable answer ih => exact ih.blocked observable answer

/-- The search finds the answer sets that a solver for disjunctive programs finds: of every program that
a session submits it returns, each once, the minimal models of the reduct, without shifted heads and
with counts that are read in the submodel. -/
theorem solve_eq_minimal {o : Ontology} {listed : Option Ontology} {settings : Settings}
    {r : Reasoner} (hnew : new o listed settings = .ok r) {p : Program} (hp : r.Submitted p) :
    ∃ answers, AnswerSet.solve p ⟨0, none, false⟩ = .ok answers ∧ answers.Nodup ∧
      ∀ S : Set Atom, p.IsMinimalAnswerSet S ↔ ∃ A ∈ answers, A.toSet = S := by
  have hagrees := Submitted.agrees hnew hp
  obtain ⟨answers, hnodup, hmem, hsolve⟩ := AnswerSet.exists_solve_eq hagrees.unnested
  exact ⟨answers, hsolve ⟨0, none, false⟩ rfl (by simp), hnodup,
    fun S => (hagrees.iff S).trans (hmem S)⟩

/-- The violations of an assertion, without the answer sets in which nobody is a parent. -/
theorem solve_eq_minimal_family :
    let violated : Axiom := .objectPropertyAssertion (.named ⟨"urn:family#hasChild"⟩)
      ⟨⟨"urn:family#ann"⟩⟩ ⟨⟨"urn:family#bob"⟩⟩
    ∃ r p, new .family none { Settings.standard with strategy := .direct } = .ok r ∧
      r.violationProgram violated = .ok p ∧
      let q := p.push (Enumeration.blocking [.positive "Parent" ["ann"], .positive "Parent" ["bob"]] ⟨.empty⟩)
      r.Submitted q ∧ ∃ answers, AnswerSet.solve q ⟨0, none, false⟩ = .ok answers ∧ answers.Nodup ∧
        ∀ S : Set Atom, q.IsMinimalAnswerSet S ↔ ∃ A ∈ answers, A.toSet = S := by
  intro violated
  have hd : Domain.resolve .family none = .ok (.ofSet Ontology.family.assertedIndividuals) := rfl
  obtain ⟨e, κ, hencode, h⟩ := exists_encode Ontology.family_isSupported
    (Ontology.family_built.isCovered.mem_of_resolve hd) .plain .direct
  have hnew : new .family none { Settings.standard with strategy := .direct } = .ok _ :=
    new_eq_ok_iff.2 ⟨_, e, κ, hd, rfl, hencode, rfl⟩
  obtain ⟨p, -, -, hp, -⟩ := h.violationProgram_realizes (a := violated) trivial (by decide)
    { Settings.standard with strategy := .direct }
  have hsubmitted := (Submitted.violation hp).blocked
    [.positive "Parent" ["ann"], .positive "Parent" ["bob"]] ⟨.empty⟩
  exact ⟨_, p, hnew, hp, hsubmitted, solve_eq_minimal hnew hsubmitted⟩

end FixedDomain.Reasoner
