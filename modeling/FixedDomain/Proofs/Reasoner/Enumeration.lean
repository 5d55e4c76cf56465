import Mathlib.Data.Finset.Card
import Mathlib.Data.Finset.Powerset
import FixedDomain.Proofs.AnswerSet.Constraint
import FixedDomain.Proofs.Reasoner.Encoding

/-! # Enumerated models

Models are drawn one at a time: after each draw the answer sets that agree with the drawn one on all
observable atoms are excluded. This excludes exactly those with the same decoding, and leaves the
others in their order, so that the models that are drawn are the decodings of all answer sets, each
where it is met first (`models_eq`).

`Enumeration.Draws` is the invariant: which answer sets are left. One draw takes the first of them
and all with its decoding (`Draws.advance`); the number of draws is bounded by the number of ways to
choose observable atoms (`Draws.length_le`).
-/

namespace FixedDomain

theorem nodup_eraseDups {α : Type} [BEq α] [LawfulBEq α] (xs : List α) : xs.eraseDups.Nodup := by
  induction hn : xs.length using Nat.strongRecOn generalizing xs with
  | ind n ih =>
  subst hn
  cases xs with
  | nil => simp
  | cons x xs =>
    rw [List.eraseDups_cons, List.nodup_cons]
    refine ⟨by simp [List.mem_eraseDups], ih _ ?_ _ rfl⟩
    exact Nat.lt_succ_of_le (List.length_filter_le _ _)

namespace Enumeration

open AnswerSet (Enumerates occurrences upTo)

/-! ## Blocking constraints -/

theorem isNested_of_mem_blocking {observable : List Atom} {answer : AnswerSet} :
    ∀ l ∈ (blocking observable answer).body, l.isNested = false := by
  intro l hl
  obtain ⟨a, -, rfl⟩ := List.mem_map.1 hl
  split <;> rfl

theorem atomsList_blocking (observable : List Atom) (answer : AnswerSet) :
    Literal.atomsList (blocking observable answer).body = observable := by
  have hatoms : ∀ a : Atom, (if a ∈ answer then Literal.pos a else .not a).atoms = [a] := by
    intro a
    split <;> simp [Literal.atoms]
  simp only [blocking, Rule.constraint]
  induction observable with
  | nil => simp [Literal.atomsList]
  | cons a observable ih => rw [List.map_cons, Literal.atomsList, hatoms, ih]; rfl

/-- A blocking constraint is violated by the sets that agree on the observable atoms. -/
theorem bodyHolds_blocking_iff {observable : List Atom} {answer : AnswerSet} {S : Set Atom} :
    BodyHolds S S (blocking observable answer).body ↔ ∀ a ∈ observable, (a ∈ S ↔ a ∈ answer) := by
  simp only [BodyHolds, blocking, Rule.constraint, List.forall_mem_map]
  refine forall₂_congr fun a _ => ?_
  by_cases ha : a ∈ answer <;> simp [ha]

/-! ## Draws -/

/-- The model that an answer set stands for. -/
abbrev decode (e : Enumeration) (A : AnswerSet) : Model := e.context.decode A e.projection

/-- What is left of an enumeration: some answer sets, of which those with the same decoding agree on
the observable atoms, and no others do. -/
structure Draws (e : Enumeration) (answers : List AnswerSet) : Prop where
  unnested : ¬ e.program.NestsCounts
  enumerates : Enumerates e.program answers
  observable : e.observable ⊆ occurrences e.program.rules
  decode_iff : ∀ A ∈ answers, ∀ B ∈ answers,
    e.decode A = e.decode B ↔ ∀ a ∈ e.observable, (a ∈ A ↔ a ∈ B)
  single : e.options.maxModels = 1
  quiet : e.options.cancelled = false ∧ e.options.timeout ≠ some .zero

/-- The models that are left to draw. -/
def modelsOf (e : Enumeration) (answers : List AnswerSet) : List Model :=
  (answers.map e.decode).eraseDups

/-- The models that are drawn before the limit is reached. -/
def withinLimit (e : Enumeration) (models : List Model) : List Model :=
  if e.limit = 0 then models else models.take (e.limit - e.found)

section Draws

variable {m : Type → Type} [Monad m] [LawfulMonad m] {e : Enumeration} {A : AnswerSet}
  {answers : List AnswerSet}

theorem modelsOf_cons : e.modelsOf (A :: answers) =
    e.decode A :: e.modelsOf (answers.filter fun B => e.decode B ≠ e.decode A) := by
  simp only [modelsOf, List.map_cons, List.eraseDups_cons, List.filter_map]
  congr 4
  funext B
  rw [Bool.eq_iff_iff]
  simp

/-- There are at most as many models as ways to choose observable atoms. -/
theorem Draws.length_le (h : e.Draws answers) :
    (e.modelsOf answers).length ≤ 2 ^ e.observable.length := by
  -- a model is told apart by the observable atoms of its answer sets
  let observed (M : Model) : Finset Atom :=
    e.observable.toFinset.filter fun a => ∃ B ∈ answers, e.decode B = M ∧ a ∈ B
  have hobserved : ∀ B ∈ answers, ∀ a ∈ e.observable, a ∈ observed (e.decode B) ↔ a ∈ B := by
    intro B hB a ha
    simp only [observed, Finset.mem_filter, List.mem_toFinset, ha, true_and]
    constructor
    · rintro ⟨C, hC, heq, hmem⟩
      exact ((h.decode_iff C hC B hB).1 heq a ha).1 hmem
    · exact fun hmem => ⟨B, hB, rfl, hmem⟩
  have hinj : Set.InjOn observed (e.modelsOf answers).toFinset := by
    intro M hM N hN heq
    simp only [modelsOf, List.coe_toFinset, Set.mem_ofPred_eq, List.mem_eraseDups, List.mem_map]
      at hM hN
    obtain ⟨B, hB, rfl⟩ := hM
    obtain ⟨C, hC, rfl⟩ := hN
    rw [h.decode_iff B hB C hC]
    intro a ha
    rw [← hobserved B hB a ha, heq, hobserved C hC a ha]
  have hmaps : Set.MapsTo observed (e.modelsOf answers).toFinset
      (e.observable.toFinset.powerset : Finset (Finset Atom)) := by
    intro M _
    exact Finset.mem_coe.2 (Finset.mem_powerset.2 (Finset.filter_subset _ _))
  calc (e.modelsOf answers).length
      = (e.modelsOf answers).toFinset.card :=
        (List.toFinset_card_of_nodup (nodup_eraseDups _)).symm
    _ ≤ e.observable.toFinset.powerset.card := Finset.card_le_card_of_injOn observed hmaps hinj
    _ = 2 ^ e.observable.toFinset.card := Finset.card_powerset _
    _ ≤ 2 ^ e.observable.length := Nat.pow_le_pow_right (by decide) (List.toFinset_card_le _)

/-- A draw takes the first answer set that is left. -/
theorem Draws.next_eq (h : e.Draws answers) (hover : e.isOver = false) :
    e.next (Solver.builtin m) = pure (match answers with
      | [] => (none, { e with done := true })
      | A :: _ => (some (.ok (e.decode A)), e.advance A)) := by
  have hcall := h.enumerates.solve_eq e.options h.quiet.1 h.quiet.2
  rw [h.single] at hcall
  cases answers <;> simp [next, hover, Solver.builtin, hcall, upTo]

theorem advance_of_eq_nil (hempty : e.observable = []) (A : AnswerSet) :
    e.advance A = { e with found := e.found + 1, done := true } := by
  simp [advance, hempty]

theorem advance_of_ne_nil (hne : e.observable ≠ []) (A : AnswerSet) : e.advance A = { e with
    found := e.found + 1, program := e.program.push (blocking e.observable A) } := by
  simp [advance, hne]

theorem modelsOf_advance (e : Enumeration) (A : AnswerSet) :
    (e.advance A).modelsOf = e.modelsOf := by
  unfold advance
  split <;> rfl

theorem withinLimit_of_isOver (hdone : e.done = false) (hover : e.isOver = true)
    (models : List Model) : e.withinLimit models = [] := by
  have hlimit : 0 < e.limit ∧ e.limit ≤ e.found := by simpa [isOver, hdone] using hover
  rw [withinLimit, if_neg (by omega), Nat.sub_eq_zero_of_le hlimit.2, List.take_zero]

/-- Before the limit is reached, the first model is drawn, and what comes after it counts from there. -/
theorem withinLimit_cons (hover : e.isOver = false) (A : AnswerSet) (M : Model)
    (models : List Model) :
    e.withinLimit (M :: models) = M :: (e.advance A).withinLimit models := by
  have hadvance : (e.advance A).limit = e.limit ∧ (e.advance A).found = e.found + 1 := by
    unfold advance
    split <;> exact ⟨rfl, rfl⟩
  have hroom : e.limit = 0 ∨ e.found < e.limit := by
    simp [isOver] at hover
    omega
  rw [withinLimit, withinLimit, hadvance.1, hadvance.2]
  rcases hroom with hzero | hlt
  · rw [if_pos hzero, if_pos hzero]
  · have hleft : e.limit - e.found = (e.limit - (e.found + 1)) + 1 := by omega
    rw [if_neg (by omega), if_neg (by omega), hleft, List.take_succ_cons]

/-- A draw leaves the answer sets with another decoding, in their order. -/
theorem Draws.advance (h : e.Draws (A :: answers)) (hne : e.observable ≠ []) :
    (e.advance A).Draws (answers.filter fun B => e.decode B ≠ e.decode A) := by
  have hkeep : ∀ B ∈ A :: answers, decide (e.decode B ≠ e.decode A) = true ↔
      ¬ BodyHolds B.toSet B.toSet (blocking e.observable A).body := by
    intro B hB
    rw [decide_eq_true_iff, bodyHolds_blocking_iff, Ne,
      h.decode_iff B hB A List.mem_cons_self]
    rfl
  obtain ⟨hunnested, henumerates⟩ := h.enumerates.push_constraint h.unnested
    isNested_of_mem_blocking (by rw [atomsList_blocking]; exact h.observable) hkeep
  rw [List.filter_cons_of_neg (by simp)] at henumerates
  rw [advance_of_ne_nil hne]
  refine ⟨hunnested, henumerates, ?_, fun B hB C hC => ?_, h.single, h.quiet⟩
  · simpa [occurrences] using List.Subset.trans h.observable (List.subset_append_left _ _)
  · exact h.decode_iff B (List.mem_cons_of_mem A (List.mem_of_mem_filter hB)) C
      (List.mem_cons_of_mem A (List.mem_of_mem_filter hC))

theorem drainWithin_of_isOver (hover : e.isOver = true) (draws : Nat) :
    drainWithin (Solver.builtin m) draws e = pure ([], none) := by
  cases draws <;> simp [drainWithin, next, hover]

/-- With draws to spare, exactly the models that are left are drawn, up to the limit. -/
theorem Draws.drainWithin_eq {draws : Nat} (h : e.Draws answers) (hdone : e.done = false)
    (hdraws : (e.modelsOf answers).length < draws) :
    drainWithin (Solver.builtin m) draws e =
      pure (e.withinLimit (e.modelsOf answers), none) := by
  induction draws generalizing e answers with
  | zero => cases hdraws
  | succ draws ih =>
  cases hover : e.isOver with
  -- only the limit can have been reached
  | true => rw [drainWithin_of_isOver hover, withinLimit_of_isOver hdone hover]
  | false =>
  cases answers with
  | nil => simp [drainWithin, h.next_eq hover, modelsOf, withinLimit]
  | cons A rest =>
    rw [modelsOf_cons, withinLimit_cons hover A]
    rw [modelsOf_cons, List.length_cons] at hdraws
    by_cases hempty : e.observable = []
    · -- nothing tells models apart, so this was the only one
      have hadvance : (e.advance A).isOver = true := by simp [advance_of_eq_nil hempty, isOver]
      have hrest : rest.filter (fun B => e.decode B ≠ e.decode A) = [] := by
        rw [List.filter_eq_nil_iff]
        intro B hB
        have heq := (h.decode_iff B (List.mem_cons_of_mem A hB) A List.mem_cons_self).2
          (by simp [hempty])
        simp [heq]
      have hnone : (e.advance A).withinLimit (e.modelsOf []) = [] := by simp [modelsOf, withinLimit]
      rw [hrest, hnone]
      simp [drainWithin, h.next_eq hover, drainWithin_of_isOver hadvance]
    · -- each draw takes one model away, so there stay draws to spare
      have hdone' : (e.advance A).done = false := by rw [advance_of_ne_nil hempty]; exact hdone
      have hrec := ih (h.advance hempty) hdone' (by rw [modelsOf_advance]; omega)
      simp [drainWithin, h.next_eq hover, hrec, modelsOf_advance]

theorem Draws.drain_eq (h : e.Draws answers) (hdone : e.done = false) :
    e.drain (Solver.builtin m) = pure (e.withinLimit (e.modelsOf answers), none) := by
  apply h.drainWithin_eq hdone
  exact Nat.lt_succ_of_le h.length_le

end Draws

end Enumeration

/-! ## Sessions -/

/-- Before the first draw all answer sets of a program that realizes a sentence are left. -/
theorem Context.Realizes.draws_start {c : Context} {p : Program} {F : Set Atom} {φ : Sentence}
    (h : c.Realizes p F φ) (hc : c.Ready) {answers : List AnswerSet}
    (hanswers : AnswerSet.Enumerates p answers) {options : SolveOptions}
    (hquiet : options.cancelled = false ∧ options.timeout ≠ some .zero)
    (projection : Option (SortedSet Iri)) (limit : Nat) :
    (Enumeration.start c p projection options limit).Draws answers where
  unnested := h.not_nestsCounts
  enumerates := hanswers
  observable a ha := by
    obtain ⟨ψ, hs⟩ := exists_states_of_mem_observableAtoms ha
    exact AnswerSet.mem_occurrences (h.choice_mem hs) (by simp [Rule.atoms, Rule.choice])
  decode_iff A hA B hB :=
    decode_eq_iff hc (fun _ ha => h.exists_states hc ((hanswers.mem_iff A).1 hA) ha)
      fun _ ha => h.exists_states hc ((hanswers.mem_iff B).1 hB) ha
  single := rfl
  quiet := hquiet

namespace Reasoner

/-- The models of a session are the decodings of all answer sets of its program, each where it is
met first, up to the limit. Projected classes that are not in the ontology are reported before. -/
theorem models_eq {m : Type → Type} [Monad m] [LawfulMonad m] [Reports m] {o : Ontology}
    {listed : Option Ontology} {settings : Settings} {r : Reasoner}
    (hnew : new o listed settings = .ok r) (htime : settings.timeoutMilliseconds = none)
    (limit : Nat) :
    ∃ answers, AnswerSet.solve r.program ⟨0, none, false⟩ = .ok answers ∧
      (r.models (Solver.builtin m) limit).run = (do
        r.projectionNotices.forM Reports.report
        pure (.ok (AnswerSet.upTo limit
          (answers.map fun A => r.context.decode A r.projection).eraseDups))) := by
  obtain ⟨d, e, κ, -, -, hencode, rfl⟩ := new_eq_ok_iff.1 hnew
  have h := encoded_of_encode hencode
  obtain ⟨answers, hanswers⟩ := AnswerSet.exists_enumerates h.realizes.not_nestsCounts
  refine ⟨answers, hanswers.solve_eq ⟨0, none, false⟩ rfl (by simp), ?_⟩
  have hquiet : (options ⟨o, settings, κ, e, false⟩ 1).cancelled = false ∧
      (options ⟨o, settings, κ, e, false⟩ 1).timeout ≠ some .zero :=
    ⟨rfl, by simp [options, Settings.timeout, htime]⟩
  have hdraws := h.realizes.draws_start h.ready hanswers hquiet
    (projection ⟨o, settings, κ, e, false⟩) limit
  have hdrain := hdraws.drain_eq (m := m) rfl
  simp only [models, enumerate, program] at hdrain ⊢
  simp [hdrain]
  rfl

/-- A class of the family and one that it does not mention, of which two models are asked for. -/
theorem models_eq_family : ∃ r answers,
    new .family none { Settings.standard with
      strategy := .direct, projection := ["urn:family#Parent", "urn:family#Child"] } = .ok r ∧
    AnswerSet.solve r.program ⟨0, none, false⟩ = .ok answers ∧
    (r.models (Solver.builtin (StateM (Array Notice))) 2).run = (do
      r.projectionNotices.forM Reports.report
      pure (.ok (AnswerSet.upTo 2
        (answers.map fun A => r.context.decode A r.projection).eraseDups))) := by
  have hd : Domain.resolve .family none = .ok (.ofSet Ontology.family.assertedIndividuals) := rfl
  obtain ⟨e, κ, hencode, -⟩ := exists_encode Ontology.family_isSupported
    (Ontology.family_built.isCovered.mem_of_resolve hd) .plain .direct
  have hnew : new .family none { Settings.standard with
      strategy := .direct, projection := ["urn:family#Parent", "urn:family#Child"] } = .ok _ :=
    new_eq_ok_iff.2 ⟨_, e, κ, hd, rfl, hencode, rfl⟩
  obtain ⟨answers, hsolve, hmodels⟩ := models_eq (m := StateM (Array Notice)) hnew rfl 2
  exact ⟨_, answers, hnew, hsolve, hmodels⟩

end Reasoner

end FixedDomain
