import FixedDomain.Proofs.AnswerSet.Dependency
import FixedDomain.Proofs.AnswerSet.Exactness

/-! # Shifted heads and minimal models

The search works on shifted rules: of a head, one atom is derived if the others are denied. As a
disjunctive program, on the other hand, a program has those sets as its answer sets that are minimal
among the models of their reduct (`reductOf`).

An answer set of the shifted rules is always one of the disjunctive rules (`IsStable.minimal`). The way
back needs heads without repeated atoms and without cycles (`isStable_of_minimal`): what the shifted
rules leave without foundation has a part that depends on nothing else without foundation. A head has
at most one atom in that part, so the disjunctive rules do not need it either.
-/

namespace FixedDomain

open Relation (TransGen ReflTransGen)

/-! ## Reducts -/

/-- The reduct of rules in a candidate: a rule that denies an atom of the candidate is left out, and
the others lose what they deny. -/
def reductOf (rules : List Rule) (S : Set Atom) : Set Rule :=
  {r' | ∃ r ∈ rules, (∀ a, .not a ∈ r.body → a ∉ S) ∧
    r' = ⟨r.head, r.body.filter Literal.isPositive⟩}

/-- No two atoms of a head lie on a common cycle of dependencies. -/
def IsHeadCycleFree (rules : List Rule) : Prop :=
  ∀ r ∈ rules, ∀ a ∈ r.head, ∀ b ∈ r.head, a ≠ b →
    ¬ (TransGen (DependsOn rules) a b ∧ TransGen (DependsOn rules) b a)

section Reduct

variable {rules : List Rule} {S D : Set Atom}
  (hcount : ∀ r ∈ rules, ∀ l ∈ r.body, l.isCount = false)

include hcount

theorem bodyHolds_iff_filter {r : Rule} (hr : r ∈ rules) :
    BodyHolds S D r.body ↔ (∀ a, .not a ∈ r.body → a ∉ S) ∧
      BodyHolds D D (r.body.filter Literal.isPositive) := by
  constructor
  · refine fun h => ⟨fun a ha => h _ ha, fun l hl => ?_⟩
    obtain ⟨hl, hpositive⟩ := List.mem_filter.1 hl
    cases l with
    | pos a => exact h _ hl
    | not a => cases hpositive
    | count es op bound => cases hpositive
  · rintro ⟨hnot, hpositive⟩ l hl
    cases l with
    | pos a => exact hpositive _ (List.mem_filter.2 ⟨hl, rfl⟩)
    | not a => exact hnot a hl
    | count es op bound => cases hcount r hr _ hl

/-- A set satisfies the reduct if it satisfies the rules with what they deny read in the candidate. -/
theorem forall_reductOf_iff :
    (∀ r ∈ reductOf rules S, r.SatisfiedBy D) ↔
      ∀ r ∈ rules, BodyHolds S D r.body → ∃ a ∈ r.head, a ∈ D := by
  constructor
  · intro h r hr hbody
    obtain ⟨hnot, hpositive⟩ := (bodyHolds_iff_filter hcount hr).1 hbody
    exact h ⟨r.head, r.body.filter Literal.isPositive⟩ ⟨r, hr, hnot, rfl⟩ hpositive
  · rintro h _ ⟨r, hr, hnot, rfl⟩ hpositive
    exact h r hr ((bodyHolds_iff_filter hcount hr).2 ⟨hnot, hpositive⟩)

/-! ## From shifted rules to disjunctive ones -/

/-- What is derived from a model of the reduct is in it, as far as the candidate allows. -/
theorem consequences_subset_of_models (hmodels : ∀ r ∈ reductOf rules S, r.SatisfiedBy D)
    (hDS : D ⊆ S) : consequences rules S D ⊆ D := by
  intro a ha
  obtain ⟨r, hr, hsupports⟩ := mem_consequences.1 ha
  obtain ⟨b, hb, hbD⟩ := (forall_reductOf_iff hcount).1 hmodels r hr hsupports.body
  exact hsupports.eq_of_mem hb (hDS hbD) ▸ hbD

theorem IsStable.minimal (h : IsStable rules S) :
    Minimal (fun D => ∀ r ∈ reductOf rules S, r.SatisfiedBy D) S := by
  refine ⟨(forall_reductOf_iff hcount).2 fun r hr => h.satisfiedBy hr, fun D hmodels hDS => ?_⟩
  have hle : (consequences rules S).lfp ≤ D :=
    OrderHom.lfp_le _ (consequences_subset_of_models hcount hmodels hDS)
  rwa [h.founded] at hle

/-! ## From disjunctive rules to shifted ones -/

section Minimal

variable (h : Minimal (fun D => ∀ r ∈ reductOf rules S, r.SatisfiedBy D) S)

include h

theorem subset_heads_of_minimal : S ⊆ heads rules := by
  have hmodels : ∀ r ∈ reductOf rules S, r.SatisfiedBy (S ∩ heads rules) := by
    refine (forall_reductOf_iff hcount).2 fun r hr hbody => ?_
    obtain ⟨a, ha, haS⟩ :=
      (forall_reductOf_iff hcount).1 h.prop r hr (hbody.mono Set.inter_subset_left)
    exact ⟨a, ha, haS, r, hr, ha⟩
  exact (h.le_of_le hmodels Set.inter_subset_left).trans Set.inter_subset_right

variable (hnodup : ∀ r ∈ rules, r.head.Nodup) (hcycle : IsHeadCycleFree rules)

include hnodup hcycle

/-- A candidate can do without a part of what has no foundation, if the part depends on nothing else
without foundation and is a single component. -/
theorem models_diff_component {X : Set Atom} (hX : X ⊆ S \ (consequences rules S).lfp)
    (hclosed : ∀ a ∈ X, ∀ b ∈ S \ (consequences rules S).lfp, DependsOn rules a b → b ∈ X)
    (hreach : ∀ a ∈ X, ∀ b ∈ X, ReflTransGen (DependsOn rules) a b) :
    ∀ r ∈ reductOf rules S, r.SatisfiedBy (S \ X) := by
  refine (forall_reductOf_iff hcount).2 fun r hr hbody => ?_
  obtain ⟨a, ha, haS⟩ :=
    (forall_reductOf_iff hcount).1 h.prop r hr (hbody.mono Set.sdiff_subset)
  by_cases haX : a ∈ X
  · by_contra hnone
    have hinX : ∀ b ∈ r.head, b ∈ S → b ∈ X := by
      intro b hb hbS
      by_contra hbX
      exact hnone ⟨b, hb, hbS, hbX⟩
    -- another head atom in the candidate would lie on a cycle with `a`
    have hothers : ∀ b ∈ r.head.erase a, b ∉ S := by
      intro b hb hbS
      obtain ⟨hba, hb⟩ := (hnodup r hr).mem_erase_iff.1 hb
      have hbX := hinX b hb hbS
      have hab := (Relation.reflTransGen_iff_eq_or_transGen.1 (hreach a haX b hbX)).resolve_left hba
      have hba' := (Relation.reflTransGen_iff_eq_or_transGen.1 (hreach b hbX a haX)).resolve_left
        (Ne.symm hba)
      exact hcycle r hr a ha b hb (Ne.symm hba) ⟨hab, hba'⟩
    have hfounded : BodyHolds S (consequences rules S).lfp r.body := by
      intro l hl
      cases l with
      | pos b =>
        by_contra hb
        obtain ⟨hbS, hbX⟩ := hbody _ hl
        exact hbX (hclosed a haX b ⟨hbS, hb⟩ ⟨r, hr, ha, _, hl, rfl⟩)
      | not b => exact hbody _ hl
      | count es op bound => cases hcount r hr _ hl
    have hmem : a ∈ consequences rules S (consequences rules S).lfp :=
      mem_consequences.2 ⟨r, hr, ha, hfounded, hothers⟩
    rw [OrderHom.map_lfp] at hmem
    exact (hX haX).2 hmem
  · exact ⟨a, ha, haS, haX⟩

theorem isStable_of_minimal (hconsistent : ∀ a ∈ S, a.complement ∉ S) : IsStable rules S := by
  refine ⟨fun r hr hnil hbody => ?_, hconsistent, Set.Subset.antisymm ?_ ?_⟩
  · obtain ⟨a, ha, -⟩ := (forall_reductOf_iff hcount).1 h.prop r hr hbody
    simp [hnil] at ha
  · exact OrderHom.lfp_le _ (consequences_subset_of_models hcount h.prop subset_rfl)
  · by_contra hnot
    have hfinite : (S \ (consequences rules S).lfp).Finite :=
      ((heads_finite rules).subset (subset_heads_of_minimal hcount h)).subset Set.sdiff_subset
    obtain ⟨X, hX, ⟨a, ha⟩, hclosed, hreach⟩ :=
      exists_component (DependsOn rules) hfinite (Set.sdiff_nonempty.2 hnot)
    have hmodels := models_diff_component hcount h hnodup hcycle hX hclosed hreach
    -- the candidate would lie in what is left of it
    exact (h.le_of_le hmodels Set.sdiff_subset (hX ha).1).2 ha

end Minimal

end Reduct

/-! ## Calls of the solver -/

namespace AnswerSet

/-- For a program without counts, whose heads hold no atom twice and no two atoms on a common cycle,
the solver returns the answer sets of the disjunctive program. -/
theorem solve_headCycleFree (p : Program)
    (hcount : ∀ r ∈ p.rules, ∀ l ∈ r.body, l.isCount = false)
    (hnodup : ∀ r ∈ p.rules, r.head.Nodup) (hcycle : IsHeadCycleFree p.rules) :
    ∃ answers : List AnswerSet, solve p ⟨0, none, false⟩ = .ok answers ∧
      ∀ S : Set Atom, (∃ A ∈ answers, A.toSet = S) ↔
        (∀ a ∈ S, a.complement ∉ S) ∧
          Minimal (fun D => ∀ r ∈ reductOf p.rules S, r.SatisfiedBy D) S := by
  have hnests : ¬ p.NestsCounts := by
    rintro ⟨r, hr, es, op, bound, hl, -⟩
    cases hcount r hr _ hl
  obtain ⟨answers, hanswers⟩ := exists_enumerates hnests
  refine ⟨answers, hanswers.solve_all, fun S => ?_⟩
  rw [← hanswers.isAnswerSet_iff]
  constructor
  · exact fun hS => ⟨hS.consistent, IsStable.minimal hcount hS⟩
  · exact fun ⟨hconsistent, hminimal⟩ =>
      isStable_of_minimal hcount hminimal hnodup hcycle hconsistent

/-- A choice between `a` and `b`, of which `a` lies on a cycle from which `b` is reached. -/
def cycleBesideHead : Program :=
  let a := Atom.positive "a" []
  let b := Atom.positive "b" []
  let c := Atom.positive "c" []
  Program.empty.pushAll [⟨[a, b], []⟩, .derive a [.pos c], .derive c [.pos a], .derive c [.pos b],
    .constraint [.not b, .not c]]

theorem isHeadCycleFree_cycleBesideHead : IsHeadCycleFree cycleBesideHead.rules := by
  -- `b` depends on nothing
  have hb : ∀ x, ¬ TransGen (DependsOn cycleBesideHead.rules) (.positive "b" []) x := by
    intro x hx
    obtain ⟨y, ⟨r, hr, hhead, l, hl, -⟩, -⟩ := Relation.TransGen.head'_iff.1 hx
    simp only [cycleBesideHead, Program.rules_pushAll, Program.rules_empty, List.nil_append,
      List.mem_cons, List.not_mem_nil, or_false] at hr
    rcases hr with rfl | rfl | rfl | rfl | rfl <;>
      simp_all [Rule.derive, Rule.constraint, Atom.positive]
  intro r hr x hx y hy hxy hcycle
  simp only [cycleBesideHead, Program.rules_pushAll, Program.rules_empty, List.nil_append,
    List.mem_cons, List.not_mem_nil, or_false] at hr
  rcases hr with rfl | rfl | rfl | rfl | rfl <;>
    simp only [Rule.derive, Rule.constraint, List.mem_cons, List.not_mem_nil, or_false] at hx hy
  · rcases hx with rfl | rfl
    · rcases hy with rfl | rfl
      · exact hxy rfl
      · exact hb _ hcycle.2
    · exact hb _ hcycle.1
  all_goals exact hxy (hx.trans hy.symm)

theorem solve_headCycleFree_cycleBesideHead :
    (∀ r ∈ cycleBesideHead.rules, ∀ l ∈ r.body, l.isCount = false) ∧
    (∀ r ∈ cycleBesideHead.rules, r.head.Nodup) ∧ IsHeadCycleFree cycleBesideHead.rules ∧
    ∃ answers : List AnswerSet, solve cycleBesideHead ⟨0, none, false⟩ = .ok answers ∧
      ∀ S : Set Atom, (∃ A ∈ answers, A.toSet = S) ↔
        (∀ a ∈ S, a.complement ∉ S) ∧
          Minimal (fun D => ∀ r ∈ reductOf cycleBesideHead.rules S, r.SatisfiedBy D) S := by
  have hcount : ∀ r ∈ cycleBesideHead.rules, ∀ l ∈ r.body, l.isCount = false := by decide
  have hnodup : ∀ r ∈ cycleBesideHead.rules, r.head.Nodup := by decide
  exact ⟨hcount, hnodup, isHeadCycleFree_cycleBesideHead,
    solve_headCycleFree cycleBesideHead hcount hnodup isHeadCycleFree_cycleBesideHead⟩

end AnswerSet

end FixedDomain
