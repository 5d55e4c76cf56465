import FixedDomain.Proofs.AnswerSet.Dependency
import FixedDomain.Proofs.AnswerSet.Exactness
import FixedDomain.Proofs.AnswerSet.Interruption

/-! # Support by counts

Counts over atoms may take part in the recursion of rules with single heads. No answer set then owes
anything to atoms that only support each other by such counts: it is a minimal model of the rules whose
bodies hold in it, where the counts are evaluated anew in every smaller model (`solve_founded`).

The exception are counts that ask for an exact number of atoms. They are read in the candidate, so an
atom can support itself by the count of itself (`not_minimal_selfCount`). Such a count is circular if
one of its atoms depends on the head of the rule; other exact counts are evaluated anew like the rest.

What a smaller model lacks of the answer set has a part that depends on no other missing atoms. Without
this part the answer set is still closed (`consequences_subset_diff`), so there is no such part.
-/

namespace FixedDomain

open Relation (ReflTransGen)

/-- Whether what a literal counts, if it counts, are atoms that are not denied. -/
def Literal.countsAtoms : Literal → Bool
  | .count es _ _ => es.all fun e => e.condition.all Literal.isPositive
  | _ => true

/-- All counts are over atoms that are not denied. -/
def CountsAtoms (rules : List Rule) : Prop := ∀ r ∈ rules, ∀ l ∈ r.body, l.countsAtoms = true

instance (rules : List Rule) : Decidable (CountsAtoms rules) :=
  inferInstanceAs (Decidable (∀ r ∈ rules, ∀ l ∈ r.body, l.countsAtoms = true))

/-- Whether a literal of a rule counts an exact number of atoms, one of which depends on the head. -/
def Rule.IsCircular (rules : List Rule) (r : Rule) : Literal → Prop
  | .count es .eq _ => ∃ e ∈ es, ∃ b, .pos b ∈ e.condition ∧
      ∃ a ∈ r.head, ReflTransGen (DependsOn rules) b a
  | _ => False

/-- A head atom holds if the literals of the body do, circular ones apart. -/
def Rule.SatisfiedApart (rules : List Rule) (D : Set Atom) (r : Rule) : Prop :=
  (∀ l ∈ r.body, ¬ r.IsCircular rules l → l.InReduct D D) → ∃ a ∈ r.head, a ∈ D

theorem Literal.countsAtoms_count_iff {es : List CountElement} {op : Comparison} {bound : Nat} :
    (Literal.count es op bound).countsAtoms = true ↔
      ∀ e ∈ es, ∀ l ∈ e.condition, ∃ a, l = .pos a := by
  have hpositive : ∀ l : Literal, l.isPositive = true ↔ ∃ a, l = .pos a := by
    intro l
    cases l <;> simp [Literal.isPositive]
  simp [Literal.countsAtoms, hpositive]

theorem CountsAtoms.not_nestsCounts {p : Program} (h : CountsAtoms p.rules) : ¬ p.NestsCounts := by
  rintro ⟨r, hr, es, op, bound, hl, e, he, es', op', bound', hmem⟩
  obtain ⟨a, ha⟩ := Literal.countsAtoms_count_iff.1 (h r hr _ hl) e he _ hmem
  cases ha

theorem Rule.head_eq_of_mem {r : Rule} (h : r.head.length ≤ 1) {a : Atom} (ha : a ∈ r.head) :
    r.head = [a] := by
  obtain ⟨b, hb⟩ := List.length_eq_one_iff.1 (Nat.le_antisymm h (List.length_pos_of_mem ha))
  rw [hb] at ha ⊢
  rw [List.mem_singleton.1 ha]

/-! ## Literals in a part of a candidate -/

theorem Comparison.holds_anti {op : Comparison} (h : op = .lt ∨ op = .le) {m n bound : Nat}
    (hmn : m ≤ n) (hn : op.holds n bound = true) : op.holds m bound = true := by
  rcases h with rfl | rfl <;> simp_all [Comparison.holds] <;> omega

/-- A literal that holds of derived atoms holds in a part of the candidate that keeps the derived atoms
for which it asks and, if it is an exact count, all atoms of the candidate that it counts. -/
theorem Literal.InReduct.inPart {S T D : Set Atom} {l : Literal} (hl : l.InReduct S T) (hDS : D ⊆ S)
    (hatoms : l.countsAtoms = true)
    (hkeep : ∀ a ∈ T, l.AsksFor a → a ∈ D)
    (hexact : ∀ es bound, l = .count es .eq bound →
      ∀ e ∈ es, ∀ a ∈ S, .pos a ∈ e.condition → a ∈ D) :
    l.InReduct D D := by
  cases l with
  | pos a => exact hkeep a hl rfl
  | not a => exact fun ha => hl (hDS ha)
  | count es op bound =>
    have hcondition := Literal.countsAtoms_count_iff.1 hatoms
    have hop : (op = .lt ∨ op = .le) ∨ op = .eq ∨ op.isMonotone = true := by
      cases op <;> simp [Comparison.isMonotone]
    simp only [Literal.InReduct] at hl ⊢
    rcases hop with hop | rfl | hop
    · -- in a part there is less to count
      refine Comparison.holds_anti hop (ncard_counted_mono fun e he k hk hkD => ?_) hl
      obtain ⟨a, rfl⟩ := hcondition e he k hk
      rcases hop with rfl | rfl <;> exact hDS hkD
    -- an exact count looks at the candidate, of which all that it counts is kept
    · have hncard : (counted (Literal.InCondition false D D) es).ncard =
          (counted (Literal.InCondition false S T) es).ncard := by
        refine Nat.le_antisymm (ncard_counted_mono fun e he k hk hkD => ?_)
          (ncard_counted_mono fun e he k hk hkS => ?_)
        · obtain ⟨a, rfl⟩ := hcondition e he k hk
          exact hDS hkD
        · obtain ⟨a, rfl⟩ := hcondition e he k hk
          exact hexact es bound rfl e he a hkS hk
      rw [Comparison.isMonotone] at hl ⊢
      rwa [hncard]
    · -- all that was counted is kept
      refine Comparison.isMonotone_iff.1 hop (ncard_counted_mono fun e he k hk hkT => ?_) hl
      obtain ⟨a, rfl⟩ := hcondition e he k hk
      rw [hop] at hkT ⊢
      refine hkeep a hkT ⟨?_, ?_, e, he, hk⟩ <;> rintro rfl <;> cases hop

/-! ## Minimality -/

section Minimal

variable {rules : List Rule} {S D : Set Atom} (h : IsStable rules S)
  (hsingle : ∀ r ∈ rules, r.head.length ≤ 1) (hatoms : CountsAtoms rules)

include h hsingle hatoms

/-- Without a component of what a smaller model lacks, a candidate is still closed. -/
theorem consequences_subset_diff
    (hmodels : ∀ r ∈ rules, BodyHolds S S r.body → r.SatisfiedApart rules D) (hDS : D ⊆ S)
    {X : Set Atom} (hX : X ⊆ S \ D)
    (hclosed : ∀ a ∈ X, ∀ b ∈ S \ D, DependsOn rules a b → b ∈ X)
    (hreach : ∀ a ∈ X, ∀ b ∈ X, ReflTransGen (DependsOn rules) a b) :
    consequences rules S (S \ X) ⊆ S \ X := by
  intro a ha
  refine ⟨h.consequences_subset Set.sdiff_subset ha, fun haX => ?_⟩
  obtain ⟨r, hr, hhead, hbody, -⟩ := mem_consequences.1 ha
  have hpart : ∀ l ∈ r.body, ¬ r.IsCircular rules l → l.InReduct D D := by
    intro l hl hcircular
    -- what the body asks for is missing in `D` only if it is in the component
    have hkeep : ∀ b ∈ S, l.AsksFor b → b ∉ X → b ∈ D := by
      intro b hb hasks hbX
      by_contra hbD
      exact hbX (hclosed a haX b ⟨hb, hbD⟩ ⟨r, hr, hhead, l, hl, hasks⟩)
    refine (hbody l hl).inPart hDS (hatoms r hr l hl)
      (fun b hb hasks => hkeep b hb.1 hasks hb.2) ?_
    rintro es bound rfl e he b hb hmem
    have hasks : (Literal.count es .eq bound).AsksFor b := ⟨nofun, nofun, e, he, hmem⟩
    refine hkeep b hb hasks fun hbX => ?_
    exact hcircular ⟨e, he, b, hmem, a, hhead, hreach b hbX a haX⟩
  obtain ⟨b, hb, hbD⟩ := hmodels r hr (hbody.mono Set.sdiff_subset) hpart
  rw [Rule.head_eq_of_mem (hsingle r hr) hhead] at hb
  obtain rfl := List.mem_singleton.1 hb
  exact (hX haX).2 hbD

theorem IsStable.minimal_apart :
    Minimal (fun D => ∀ r ∈ rules, BodyHolds S S r.body → r.SatisfiedApart rules D) S := by
  refine ⟨fun r hr hbody _ => h.satisfiedBy hr hbody, fun D hmodels hDS => ?_⟩
  by_contra hnot
  obtain ⟨X, hX, ⟨a, ha⟩, hclosed, hreach⟩ := exists_component (DependsOn rules)
    (((heads_finite rules).subset h.subset_heads).subset Set.sdiff_subset)
    (Set.sdiff_nonempty.2 hnot)
  have hle := OrderHom.lfp_le _
    (consequences_subset_diff h hsingle hatoms hmodels hDS hX hclosed hreach)
  rw [h.founded] at hle
  exact (hle (hX ha).1).2 ha

/-- Some atom of every set of atoms is derived by a rule that does not need the set. -/
theorem IsStable.exists_support {U : Set Atom} (hU : U ⊆ S) (hne : U.Nonempty) :
    ∃ r ∈ rules, ∃ a ∈ U, r.head = [a] ∧ BodyHolds S S r.body ∧
      ∀ l ∈ r.body, ¬ r.IsCircular rules l → l.InReduct (S \ U) (S \ U) := by
  by_contra hnone
  have hmodels : ∀ r ∈ rules, BodyHolds S S r.body → r.SatisfiedApart rules (S \ U) := by
    intro r hr hbody hpart
    obtain ⟨a, ha, haS⟩ := h.satisfiedBy hr hbody
    refine ⟨a, ha, haS, fun haU => hnone ⟨r, hr, a, haU, ?_, hbody, hpart⟩⟩
    exact Rule.head_eq_of_mem (hsingle r hr) ha
  obtain ⟨a, ha⟩ := hne
  exact ((h.minimal_apart hsingle hatoms).le_of_le hmodels Set.sdiff_subset (hU ha)).2 ha

end Minimal

/-! ## Calls of the solver -/

namespace AnswerSet

theorem isAnswerSet_of_mem {p : Program} (hnests : ¬ p.NestsCounts) {options : SolveOptions}
    {watch : Watch} {answers : List AnswerSet} (hsolve : solveWatched p options watch = .ok answers)
    {A : AnswerSet} (hA : A ∈ answers) : p.IsAnswerSet A.toSet := by
  obtain ⟨looks, hlooks⟩ := exists_solveWatched_eq p options
  obtain ⟨all, hall⟩ := exists_enumerates hnests
  rw [hlooks watch, hall.solve_eq ⟨options.maxModels, none, false⟩ rfl (by simp)] at hsolve
  cases hwatch : watch.first 0 looks with
  | some i =>
    rw [hwatch] at hsolve
    cases hsolve
  | none =>
    rw [hwatch] at hsolve
    cases hsolve
    apply (hall.mem_iff A).1
    unfold upTo at hA
    split at hA
    · exact hA
    · exact List.mem_of_mem_take hA

/-! ### Loops through counts -/

section Small

variable {S D : Set Atom} {es : List CountElement} {e : CountElement}

theorem ncard_counted_pos_iff {holds : Literal → Prop} :
    0 < (counted holds es).ncard ↔ ∃ e ∈ es, ∀ l ∈ e.condition, holds l := by
  rw [Set.ncard_pos (counted_finite holds es)]
  constructor
  · rintro ⟨terms, e, he, -, h⟩
    exact ⟨e, he, h⟩
  · rintro ⟨e, he, h⟩
    exact ⟨e.terms, e, he, rfl, h⟩

theorem ncard_counted_singleton_le (holds : Literal → Prop) (e : CountElement) :
    (counted holds [e]).ncard ≤ 1 := by
  have hsub : counted holds [e] ⊆ {e.terms} := by
    rintro terms ⟨f, hf, rfl, -⟩
    rw [List.mem_singleton.1 hf, Set.mem_singleton_iff]
  simpa using Set.ncard_le_ncard hsub

theorem inReduct_ge_one_iff : (Literal.count es .ge 1).InReduct S D ↔
    ∃ e ∈ es, ∀ l ∈ e.condition, l.InCondition true S D := by
  rw [Literal.InReduct, Comparison.holds, decide_eq_true_iff, Nat.succ_le_iff, ncard_counted_pos_iff,
    Comparison.isMonotone]

theorem inReduct_le_one : (Literal.count [e] .le 1).InReduct S D :=
  decide_eq_true (ncard_counted_singleton_le _ e)

theorem inReduct_eq_one_iff : (Literal.count [e] .eq 1).InReduct S D ↔
    ∀ l ∈ e.condition, l.InCondition false S D := by
  have hle := ncard_counted_singleton_le (Literal.InCondition false S D) e
  have hpos : 0 < (counted (Literal.InCondition false S D) [e]).ncard ↔
      ∀ l ∈ e.condition, l.InCondition false S D := by
    simp only [ncard_counted_pos_iff, List.mem_singleton, exists_eq_left]
  rw [Literal.InReduct, Comparison.holds, Comparison.isMonotone, beq_iff_eq, ← hpos]
  omega

end Small

/-- No literal is circular in a rule whose head no rule asks for. -/
theorem not_isCircular_of_forall_not_dependsOn {rules : List Rule} {r : Rule} (hr : r ∈ rules)
    (h : ∀ a ∈ r.head, ∀ b, ¬ DependsOn rules b a) : ∀ l ∈ r.body, ¬ r.IsCircular rules l := by
  intro l hl hcircular
  cases l with
  | pos a => exact hcircular
  | not a => exact hcircular
  | count es op bound =>
    cases op with
    | eq =>
      obtain ⟨e, he, b, hb, a, ha, hpath⟩ := hcircular
      rcases hpath.cases_tail with rfl | ⟨c, -, hc⟩
      · exact h a ha a ⟨r, hr, ha, _, hl, nofun, nofun, e, he, hb⟩
      · exact h a ha c hc
    | _ => exact hcircular

/-- Every answer set that the solver returns for a program with single heads and counts over atoms is
a minimal model of the rules whose bodies hold in it, circular literals apart, and none of its parts is
supported by itself only. If no literal is circular, nothing is apart. -/
theorem solve_founded (p : Program) (hsingle : ∀ r ∈ p.rules, r.head.length ≤ 1)
    (hatoms : CountsAtoms p.rules) {options : SolveOptions} {watch : Watch}
    {answers : List AnswerSet} (hsolve : solveWatched p options watch = .ok answers)
    {A : AnswerSet} (hA : A ∈ answers) :
    Minimal (fun D => ∀ r ∈ p.rules, BodyHolds A.toSet A.toSet r.body →
      r.SatisfiedApart p.rules D) A.toSet ∧
    (∀ U ⊆ A.toSet, U.Nonempty → ∃ r ∈ p.rules, ∃ a ∈ U, r.head = [a] ∧
      BodyHolds A.toSet A.toSet r.body ∧
      ∀ l ∈ r.body, ¬ r.IsCircular p.rules l → l.InReduct (A.toSet \ U) (A.toSet \ U)) ∧
    ((∀ r ∈ p.rules, ∀ l ∈ r.body, ¬ r.IsCircular p.rules l) →
      Minimal (fun D => ∀ r ∈ p.rules, BodyHolds A.toSet A.toSet r.body → r.SatisfiedBy D)
        A.toSet) := by
  have h : IsStable p.rules A.toSet := isAnswerSet_of_mem hatoms.not_nestsCounts hsolve hA
  have hminimal := h.minimal_apart hsingle hatoms
  refine ⟨hminimal, fun U hU hne => h.exists_support hsingle hatoms hU hne, fun hcircular => ?_⟩
  have hapart : ∀ D, (∀ r ∈ p.rules, BodyHolds A.toSet A.toSet r.body →
      r.SatisfiedApart p.rules D) ↔
      ∀ r ∈ p.rules, BodyHolds A.toSet A.toSet r.body → r.SatisfiedBy D := by
    intro D
    refine forall₂_congr fun r hr => imp_congr_right fun _ => imp_congr_left ?_
    exact forall₂_congr fun l hl => by simp [hcircular r hr l hl]
  simpa only [hapart] using hminimal

/-- Two atoms that support each other by counts, one of them also by an atom that excludes another, and
an atom that is derived if exactly one of two elements holds. -/
def countLoop : Program :=
  let p := Atom.positive "p" []
  let q := Atom.positive "q" []
  let r := Atom.positive "r" []
  let s := Atom.positive "s" []
  let t := Atom.positive "t" []
  Program.empty.pushAll [.derive r [.not t], .derive t [.not r],
    .derive p [.count [⟨["x"], [.pos q]⟩, ⟨["x"], [.pos r]⟩] .ge 1],
    .derive q [.pos p, .count [⟨["x"], [.pos q]⟩] .le 1],
    .derive s [.count [⟨["x"], [.pos p]⟩] .eq 1]]

/-- The answer set of `countLoop` in which its loop is supported from outside. -/
def countLoopAnswer : AnswerSet :=
  .ofList [.positive "p" [], .positive "q" [], .positive "r" [], .positive "s" []]

theorem isStable_countLoop : IsStable countLoop.rules countLoopAnswer.toSet := by
  refine isStable_of_forall_closed ?_ ?_ ?_ fun D hD => ?_
  · simp [countLoop, Rule.derive]
  · simp [countLoopAnswer, Atom.complement, Atom.positive]
  · -- only the head of the rule for `t` is missing, and its body does not hold
    have hrules : ∀ r ∈ countLoop.rules, ∀ a,
        r.Supports countLoopAnswer.toSet countLoopAnswer.toSet a → a ∈ countLoopAnswer.toSet := by
      simp [countLoop, countLoopAnswer]
    rintro a ⟨r, hr, hsupports⟩
    exact hrules r hr a hsupports
  · have hclosed : ∀ a body, Rule.derive a body ∈ countLoop.rules →
        BodyHolds countLoopAnswer.toSet D body → a ∈ D :=
      fun a body hr hbody => hD ⟨_, hr, Rule.supports_derive.2 ⟨rfl, hbody⟩⟩
    have hr : .positive "r" [] ∈ D :=
      hclosed _ [.not (.positive "t" [])] (by simp [countLoop])
        (by simp [countLoopAnswer, Atom.positive])
    have hp : .positive "p" [] ∈ D :=
      hclosed _ [.count [⟨["x"], [.pos (.positive "q" [])]⟩, ⟨["x"], [.pos (.positive "r" [])]⟩] .ge 1]
        (by simp [countLoop]) (by simp [inReduct_ge_one_iff, Literal.InCondition, hr])
    have hq : .positive "q" [] ∈ D :=
      hclosed _ [.pos (.positive "p" []), .count [⟨["x"], [.pos (.positive "q" [])]⟩] .le 1]
        (by simp [countLoop]) (by simp [hp, inReduct_le_one])
    have hs : .positive "s" [] ∈ D :=
      hclosed _ [.count [⟨["x"], [.pos (.positive "p" [])]⟩] .eq 1] (by simp [countLoop])
        (by simp [inReduct_eq_one_iff, Literal.InCondition, countLoopAnswer])
    simp [Set.subset_def, countLoopAnswer, hp, hq, hr, hs]

theorem not_isCircular_countLoop :
    ∀ r ∈ countLoop.rules, ∀ l ∈ r.body, ¬ r.IsCircular countLoop.rules l := by
  intro r hr
  by_cases hhead : r.head = [.positive "s" []]
  · refine not_isCircular_of_forall_not_dependsOn hr ?_
    simp [hhead, DependsOn, countLoop, Rule.derive, Literal.AsksFor, Atom.positive]
  · -- the other rules have no exact counts
    revert r
    simp [countLoop, Rule.derive, Rule.IsCircular]

theorem solve_founded_countLoop :
    (∀ r ∈ countLoop.rules, r.head.length ≤ 1) ∧ CountsAtoms countLoop.rules ∧
    ∃ answers, solveWatched countLoop ⟨0, none, false⟩ .quiet = .ok answers ∧
      countLoopAnswer ∈ answers ∧
      Minimal (fun D => ∀ r ∈ countLoop.rules,
        BodyHolds countLoopAnswer.toSet countLoopAnswer.toSet r.body → r.SatisfiedBy D)
        countLoopAnswer.toSet := by
  have hsingle : ∀ r ∈ countLoop.rules, r.head.length ≤ 1 := by decide
  have hatoms : CountsAtoms countLoop.rules := by decide
  obtain ⟨answers, hanswers⟩ := exists_enumerates hatoms.not_nestsCounts
  have hsolve : solveWatched countLoop ⟨0, none, false⟩ .quiet = .ok answers :=
    hanswers.solve_all
  have hA : countLoopAnswer ∈ answers := (hanswers.mem_iff _).2 isStable_countLoop
  exact ⟨hsingle, hatoms, answers, hsolve, hA,
    (solve_founded countLoop hsingle hatoms hsolve hA).2.2 not_isCircular_countLoop⟩

/-- An atom that holds if it holds once. -/
def selfCount : Program :=
  Program.empty.push (.derive (.positive "a" []) [.count [⟨["x"], [.pos (.positive "a" [])]⟩] .eq 1])

theorem isStable_selfCount : IsStable selfCount.rules (AnswerSet.ofList [.positive "a" []]).toSet := by
  refine isStable_of_forall_closed ?_ ?_ ?_ fun D hD => ?_
  · simp [selfCount, Rule.derive]
  · simp [Atom.complement, Atom.positive]
  · simp [Set.subset_def, mem_consequences, selfCount]
  · simpa [Set.subset_def, mem_consequences, selfCount, inReduct_eq_one_iff, Literal.InCondition]
      using hD

/-- The atom supports itself, though without it the count would not hold. -/
theorem not_minimal_selfCount :
    (∀ r ∈ selfCount.rules, r.head.length ≤ 1) ∧ CountsAtoms selfCount.rules ∧
    ∃ answers, solve selfCount ⟨0, none, false⟩ = .ok answers ∧
      ∃ A ∈ answers, ¬ Minimal (fun D => ∀ r ∈ selfCount.rules,
        BodyHolds A.toSet A.toSet r.body → r.SatisfiedBy D) A.toSet := by
  have hatoms : CountsAtoms selfCount.rules := by decide
  obtain ⟨answers, hanswers⟩ := exists_enumerates hatoms.not_nestsCounts
  refine ⟨by decide, hatoms, answers, hanswers.solve_all,
    .ofList [.positive "a" []], (hanswers.mem_iff _).2 isStable_selfCount, fun hminimal => ?_⟩
  have hempty : ∀ r ∈ selfCount.rules, r.SatisfiedBy ∅ := by
    simp [selfCount, Rule.derive, Rule.SatisfiedBy, inReduct_eq_one_iff, Literal.InCondition]
  have hle := hminimal.le_of_le (fun r hr _ => hempty r hr) (Set.empty_subset _)
  exact hle (show .positive "a" [] ∈ _ by simp)

end AnswerSet

end FixedDomain
