import Mathlib.Data.List.Dedup
import FixedDomain.Proofs.AnswerSet.Exactness

/-! # Repeated atoms and literals

Whether a literal stands once or several times in a body makes no difference. In a head it does: the
others of an atom that is repeated include the atom itself, so a rule never derives an atom that it
repeats. The rule still asks that one of its head atoms holds.

`Program.distinct` is a program without repetitions. Its answer sets include those of the program, and
the program has just those that are founded on head atoms that are not repeated (`solve_distinct`). A
head that repeats its only atom is a constraint (`solve_repeatedFact`).
-/

namespace FixedDomain

/-! ## Equality of literals -/

mutual

/-- Whether two literals are the same. -/
def Literal.same : Literal → Literal → Bool
  | .pos a, .pos b => a = b
  | .not a, .not b => a = b
  | .count es op m, .count fs op' n => CountElement.sameList es fs && op = op' && m = n
  | _, _ => false

def CountElement.same : CountElement → CountElement → Bool
  | ⟨ts, ls⟩, ⟨us, ks⟩ => ts = us && Literal.sameList ls ks

def Literal.sameList : List Literal → List Literal → Bool
  | [], [] => true
  | l :: ls, k :: ks => l.same k && Literal.sameList ls ks
  | _, _ => false

def CountElement.sameList : List CountElement → List CountElement → Bool
  | [], [] => true
  | e :: es, f :: fs => e.same f && CountElement.sameList es fs
  | _, _ => false

end

mutual

theorem Literal.same_iff : ∀ l k : Literal, l.same k = true ↔ l = k
  | .pos _, k => by cases k <;> simp [Literal.same]
  | .not _, k => by cases k <;> simp [Literal.same]
  | .count es _ _, k => by
    cases k <;> simp [Literal.same, CountElement.sameList_iff es, and_assoc]

theorem CountElement.same_iff : ∀ e f : CountElement, e.same f = true ↔ e = f
  | ⟨_, ls⟩, ⟨_, _⟩ => by simp [CountElement.same, Literal.sameList_iff ls]

theorem Literal.sameList_iff : ∀ ls ks : List Literal, Literal.sameList ls ks = true ↔ ls = ks
  | [], ks => by cases ks <;> simp [Literal.sameList]
  | l :: ls, ks => by
    cases ks <;> simp [Literal.sameList, Literal.same_iff l, Literal.sameList_iff ls]

theorem CountElement.sameList_iff :
    ∀ es fs : List CountElement, CountElement.sameList es fs = true ↔ es = fs
  | [], fs => by cases fs <;> simp [CountElement.sameList]
  | e :: es, fs => by
    cases fs <;>
      simp [CountElement.sameList, CountElement.same_iff e, CountElement.sameList_iff es]

end

instance : DecidableEq Literal := fun l k => decidable_of_iff _ (Literal.same_iff l k)

/-! ## Programs without repetitions -/

/-- A rule with every head atom and every body literal once. -/
def Rule.distinct (r : Rule) : Rule := ⟨r.head.dedup, r.body.dedup⟩

def Statement.distinct : Statement → Statement
  | .comment text => .comment text
  | .rule r => .rule r.distinct

/-- A program without repetitions in its rules. -/
def Program.distinct (p : Program) : Program := ⟨p.statements.map Statement.distinct⟩

theorem Program.rules_distinct (p : Program) : p.distinct.rules = p.rules.map Rule.distinct := by
  have hrule : ∀ s : Statement, s.distinct.rule? = s.rule?.map Rule.distinct := by
    intro s
    cases s <;> rfl
  simp [Program.rules, Program.distinct, List.filterMap_map, hrule,
    List.map_filterMap]

theorem Program.not_nestsCounts_distinct {p : Program} (h : ¬ p.NestsCounts) :
    ¬ p.distinct.NestsCounts := by
  rintro ⟨r', hr', es, op, bound, hl, he⟩
  rw [p.rules_distinct] at hr'
  obtain ⟨r, hr, rfl⟩ := List.mem_map.1 hr'
  exact h ⟨r, hr, es, op, bound, List.mem_dedup.1 hl, he⟩

/-! ## Derivations without repetitions -/

/-- The atoms derived in one step by rules that hold them only once in their heads. -/
def singleConsequences (rules : List Rule) (S : Set Atom) : Set Atom →o Set Atom where
  toFun D := {a | ∃ r ∈ rules, r.head.count a = 1 ∧ BodyHolds S D r.body ∧
    ∀ b ∈ r.head, b ≠ a → b ∉ S}
  monotone' := fun _ _ h _ ⟨r, hr, hhead, hbody, hothers⟩ =>
    ⟨r, hr, hhead, hbody.mono h, hothers⟩

variable {rules : List Rule} {S D : Set Atom} {a : Atom}

theorem bodyHolds_distinct_iff {r : Rule} : BodyHolds S D r.distinct.body ↔ BodyHolds S D r.body := by
  simp [BodyHolds, Rule.distinct]

theorem mem_consequences_distinct_iff :
    a ∈ consequences (rules.map Rule.distinct) S D ↔
      ∃ r ∈ rules, a ∈ r.head ∧ BodyHolds S D r.body ∧ ∀ b ∈ r.head, b ≠ a → b ∉ S := by
  have hhead : ∀ r : Rule, a ∈ r.distinct.head ↔ a ∈ r.head := fun r => List.mem_dedup
  have hothers : ∀ r : Rule, (∀ b ∈ r.distinct.head.erase a, b ∉ S) ↔
      ∀ b ∈ r.head, b ≠ a → b ∉ S := by
    intro r
    simp only [Rule.distinct, (List.nodup_dedup r.head).mem_erase_iff, List.mem_dedup, and_imp]
    exact ⟨fun h b hb hba => h b hba hb, fun h b hba hb => h b hb hba⟩
  simp only [mem_consequences, Rule.supports_iff, List.mem_map, exists_exists_and_eq_and, hhead,
    bodyHolds_distinct_iff, hothers]

theorem singleConsequences_le : singleConsequences rules S ≤ consequences rules S := by
  rintro D a ⟨r, hr, hhead, hbody, hothers⟩
  refine mem_consequences.2 ⟨r, hr, List.count_pos_iff.1 (by omega), hbody, fun b hb => ?_⟩
  have hba : b ≠ a := by
    rintro rfl
    have := List.count_pos_iff.2 hb
    rw [List.count_erase_self] at this
    omega
  exact hothers b (List.mem_of_mem_erase hb) hba

theorem consequences_le_distinct :
    consequences rules S ≤ consequences (rules.map Rule.distinct) S := by
  intro D a ha
  obtain ⟨r, hr, hsupports⟩ := mem_consequences.1 ha
  exact mem_consequences_distinct_iff.2 ⟨r, hr, hsupports.head, hsupports.body,
    fun b hb hba hbS => hba (hsupports.eq_of_mem hb hbS)⟩

/-- What is derived and belongs to the candidate is not repeated in the head of the rule. -/
theorem mem_singleConsequences_of_mem (ha : a ∈ consequences rules S D) (haS : a ∈ S) :
    a ∈ singleConsequences rules S D := by
  obtain ⟨r, hr, hsupports⟩ := mem_consequences.1 ha
  refine ⟨r, hr, ?_, hsupports.body, fun b hb hba hbS => hba (hsupports.eq_of_mem hb hbS)⟩
  have hpos := List.count_pos_iff.2 hsupports.head
  have hnot : (r.head.erase a).count a = 0 :=
    List.count_eq_zero.2 fun hmem => hsupports.others a hmem haS
  rw [List.count_erase_self] at hnot
  omega

/-! ## Answer sets without repetitions -/

theorem IsStable.distinct (h : IsStable rules S) : IsStable (rules.map Rule.distinct) S := by
  refine ⟨fun r' hr' hnil hbody => ?_, h.consistent, Set.Subset.antisymm ?_ ?_⟩
  · obtain ⟨r, hr, rfl⟩ := List.mem_map.1 hr'
    exact h.constraints r hr ((List.dedup_eq_nil _).1 hnil) (bodyHolds_distinct_iff.1 hbody)
  · apply OrderHom.lfp_le
    intro a ha
    obtain ⟨r, hr, hhead, hbody, hothers⟩ := mem_consequences_distinct_iff.1 ha
    -- the head atom that holds can only be the one that is derived
    obtain ⟨b, hb, hbS⟩ := h.satisfiedBy hr hbody
    by_cases hba : b = a
    · exact hba ▸ hbS
    · exact absurd hbS (hothers b hb hba)
  · have hle : (consequences rules S).lfp ≤ (consequences (rules.map Rule.distinct) S).lfp :=
      OrderHom.lfp.monotone consequences_le_distinct
    rwa [h.founded] at hle

theorem IsStable.lfp_singleConsequences (h : IsStable rules S) :
    (singleConsequences rules S).lfp = S := by
  have hle : (singleConsequences rules S).lfp ≤ S :=
    (OrderHom.lfp.monotone singleConsequences_le).trans h.founded.le
  refine Set.Subset.antisymm hle ?_
  have hlfp : (consequences rules S).lfp ≤ (singleConsequences rules S).lfp := by
    apply OrderHom.lfp_le
    intro a ha
    rw [← OrderHom.map_lfp]
    exact mem_singleConsequences_of_mem ha (h.consequences_subset hle ha)
  rwa [h.founded] at hlfp

/-- The answer sets of rules are those of the rules without repetitions that are founded on head atoms
which are not repeated. -/
theorem isStable_iff_distinct :
    IsStable rules S ↔ IsStable (rules.map Rule.distinct) S ∧ (singleConsequences rules S).lfp = S := by
  refine ⟨fun h => ⟨h.distinct, h.lfp_singleConsequences⟩, fun ⟨h, hsingle⟩ => ?_⟩
  refine ⟨fun r hr hnil hbody => ?_, h.consistent, Set.Subset.antisymm ?_ ?_⟩
  · exact h.constraints r.distinct (List.mem_map_of_mem hr) (by simp [Rule.distinct, hnil])
      (bodyHolds_distinct_iff.2 hbody)
  · exact (OrderHom.lfp.monotone consequences_le_distinct).trans h.founded.le
  · exact hsingle.ge.trans (OrderHom.lfp.monotone singleConsequences_le)

/-- Repeated literals never matter. -/
theorem isStable_distinct_iff_of_nodup (hnodup : ∀ r ∈ rules, r.head.Nodup) :
    IsStable (rules.map Rule.distinct) S ↔ IsStable rules S := by
  refine ⟨fun h => isStable_iff_distinct.2 ⟨h, ?_⟩, IsStable.distinct⟩
  have heq : singleConsequences rules S = consequences (rules.map Rule.distinct) S := by
    ext D a
    rw [mem_consequences_distinct_iff]
    refine exists_congr fun r => and_congr_right fun hr => and_congr_left fun _ => ?_
    simp [(hnodup r hr).count]
  rw [heq, h.founded]

/-! ## Calls of the solver -/

namespace AnswerSet

/-- Of the answer sets of a program without its repetitions, the solver returns for the program those
that are founded on head atoms which are not repeated. If no head repeats an atom, these are all. -/
theorem solve_distinct (p : Program) (h : ¬ p.NestsCounts) :
    ∃ answers distinctAnswers : List AnswerSet,
      solve p ⟨0, none, false⟩ = .ok answers ∧
      solve p.distinct ⟨0, none, false⟩ = .ok distinctAnswers ∧
      (∀ A, A ∈ answers ↔
        A ∈ distinctAnswers ∧ (singleConsequences p.rules A.toSet).lfp = A.toSet) ∧
      ((∀ r ∈ p.rules, r.head.Nodup) → ∀ A, A ∈ answers ↔ A ∈ distinctAnswers) := by
  obtain ⟨answers, hanswers⟩ := exists_enumerates h
  obtain ⟨distinctAnswers, hdistinct⟩ := exists_enumerates (p.not_nestsCounts_distinct h)
  have hmem : ∀ A, A ∈ distinctAnswers ↔ IsStable (p.rules.map Rule.distinct) A.toSet := by
    intro A
    rw [hdistinct.mem_iff, Program.IsAnswerSet, p.rules_distinct]
  refine ⟨answers, distinctAnswers, hanswers.solve_all, hdistinct.solve_all, fun A => ?_,
    fun hnodup A => ?_⟩
  · rw [hanswers.mem_iff, hmem, Program.IsAnswerSet, isStable_iff_distinct]
  · rw [hanswers.mem_iff, hmem, Program.IsAnswerSet, isStable_distinct_iff_of_nodup hnodup]

/-- A choice, a head that repeats one of its atoms, and a body that repeats its literals. -/
def repetitions : Program :=
  let a := Atom.positive "a" []
  let b := Atom.positive "b" []
  let c := Atom.positive "c" []
  Program.empty.pushAll [.choice c, ⟨[a, b, a], [.pos c, .pos c]⟩,
    .derive a [.not b, .pos c, .not b]]

/-- A choice, and a body that repeats a count. -/
def repeatedCount : Program :=
  let a := Atom.positive "a" []
  let b := Atom.positive "b" []
  let count := Literal.count [⟨["1"], [.pos b]⟩] .lt 1
  Program.empty.pushAll [.choice b, .derive a [count, .not b, count]]

theorem solve_distinct_repetitions :
    (¬ repetitions.NestsCounts ∧ ∃ answers distinctAnswers : List AnswerSet,
      solve repetitions ⟨0, none, false⟩ = .ok answers ∧
      solve repetitions.distinct ⟨0, none, false⟩ = .ok distinctAnswers ∧
      ∀ A, A ∈ answers ↔
        A ∈ distinctAnswers ∧ (singleConsequences repetitions.rules A.toSet).lfp = A.toSet) ∧
    (¬ repeatedCount.NestsCounts ∧ (∀ r ∈ repeatedCount.rules, r.head.Nodup) ∧
      ∃ answers distinctAnswers : List AnswerSet,
        solve repeatedCount ⟨0, none, false⟩ = .ok answers ∧
        solve repeatedCount.distinct ⟨0, none, false⟩ = .ok distinctAnswers ∧
        ∀ A, A ∈ answers ↔ A ∈ distinctAnswers) := by
  have hrepetitions : ¬ repetitions.NestsCounts := by decide
  have hcount : ¬ repeatedCount.NestsCounts := by decide
  have hnodup : ∀ r ∈ repeatedCount.rules, r.head.Nodup := by decide
  obtain ⟨answers, distinctAnswers, hsolve, hdistinct, hmem, -⟩ :=
    solve_distinct repetitions hrepetitions
  obtain ⟨answers', distinctAnswers', hsolve', hdistinct', -, hmem'⟩ :=
    solve_distinct repeatedCount hcount
  exact ⟨⟨hrepetitions, answers, distinctAnswers, hsolve, hdistinct, hmem⟩,
    hcount, hnodup, answers', distinctAnswers', hsolve', hdistinct', hmem' hnodup⟩

/-- A fact that repeats its atom. -/
def repeatedFact : Program :=
  Program.empty.push ⟨[.positive "a" [], .positive "a" []], []⟩

theorem isStable_fact (a : Atom) : IsStable [.fact a] {a} := by
  refine isStable_of_forall_closed (fun r hr hnil => ?_) (fun b hb hc => ?_) ?_
    fun D hclosed b hb => ?_
  · obtain rfl := List.mem_singleton.1 hr
    cases hnil
  · exact b.complement_ne (hc.trans hb.symm)
  · rintro b ⟨r, hr, hsupports⟩
    obtain rfl := List.mem_singleton.1 hr
    exact List.mem_singleton.1 hsupports.head
  · obtain rfl : b = a := hb
    exact hclosed ⟨_, List.mem_singleton_self _,
      (Rule.supports_of_head_eq rfl).2 ⟨rfl, bodyHolds_nil _ _⟩⟩

/-- Without the repetition there is an answer set, with it there is none. -/
theorem solve_repeatedFact :
    ¬ repeatedFact.NestsCounts ∧ solve repeatedFact ⟨0, none, false⟩ = .ok [] ∧
      ∃ answers, solve repeatedFact.distinct ⟨0, none, false⟩ = .ok answers ∧
        .ofList [.positive "a" []] ∈ answers := by
  have hnests : ¬ repeatedFact.NestsCounts := by decide
  obtain ⟨answers, hanswers⟩ := exists_enumerates hnests
  obtain ⟨distinctAnswers, hdistinct⟩ :=
    exists_enumerates (repeatedFact.not_nestsCounts_distinct hnests)
  refine ⟨hnests, ?_, distinctAnswers, hdistinct.solve_all, ?_⟩
  · have hnil : answers = [] := by
      refine List.eq_nil_iff_forall_not_mem.2 fun A hA => ?_
      have hstable : IsStable repeatedFact.rules A.toSet := (hanswers.mem_iff A).1 hA
      -- the rule is satisfied by its atom, which it cannot derive
      obtain ⟨a, ha, haA⟩ := hstable.satisfiedBy (List.mem_singleton_self _) (bodyHolds_nil _ _)
      have hderived := haA
      rw [← hstable.consequences_self] at hderived
      obtain ⟨r, hr, -, -, hothers⟩ := mem_consequences.1 hderived
      obtain rfl := List.mem_singleton.1 hr
      refine hothers a ?_ haA
      simp_all
    rw [hanswers.solve_all, hnil]
  · have hrules : repeatedFact.rules.map Rule.distinct = [.fact (.positive "a" [])] := by
      simp [repeatedFact, Rule.distinct, Rule.fact]
    have hset : (AnswerSet.ofList [.positive "a" []]).toSet = {.positive "a" []} := by
      ext a
      simp
    rw [hdistinct.mem_iff, Program.IsAnswerSet, repeatedFact.rules_distinct, hrules, hset]
    exact isStable_fact _

end AnswerSet

end FixedDomain
