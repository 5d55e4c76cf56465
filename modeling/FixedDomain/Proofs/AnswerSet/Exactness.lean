import FixedDomain.Proofs.AnswerSet.Numbering
import FixedDomain.Proofs.AnswerSet.Search

/-! # The search finds exactly the answer sets

A total assignment of the normal program is an answer if and only if the atoms that hold in it are
an answer set of the rules (`isAnswer_iff_isStable`), and every answer set is the atoms of one
assignment. With the completeness of the search, every call of the solver that is not interrupted
returns the answer sets of the program up to its limit, in an order that the atoms of the program
fix (`exists_enumerates`).
-/

namespace FixedDomain

/-- Some count of the program counts elements whose conditions contain a count themselves. -/
def Program.NestsCounts (p : Program) : Prop :=
  ∃ r ∈ p.rules, ∃ es op bound, Literal.count es op bound ∈ r.body ∧
    ∃ e ∈ es, ∃ es' op' bound', Literal.count es' op' bound' ∈ e.condition

theorem Literal.isNested_iff {l : Literal} :
    l.isNested = true ↔ ∃ es op bound, l = .count es op bound ∧
      ∃ e ∈ es, ∃ es' op' bound', Literal.count es' op' bound' ∈ e.condition := by
  have hcount : ∀ k : Literal, k.isCount = true ↔ ∃ es op bound, k = .count es op bound := by
    intro k
    cases k <;> simp [Literal.isCount]
  cases l with
  | pos a => simp [Literal.isNested]
  | not a => simp [Literal.isNested]
  | count es op bound =>
    simp only [Literal.isNested, List.any_eq_true, hcount]
    constructor
    · rintro ⟨e, he, k, hk, es', op', bound', rfl⟩
      exact ⟨es, op, bound, rfl, e, he, es', op', bound', hk⟩
    · rintro ⟨_, _, _, heq, e, he, es', op', bound', hk⟩
      cases heq
      exact ⟨e, he, _, hk, es', op', bound', rfl⟩

theorem Program.any_isNested_iff (p : Program) :
    (p.rules.any fun r => r.body.any Literal.isNested) = true ↔ p.NestsCounts := by
  simp only [List.any_eq_true, Literal.isNested_iff, Program.NestsCounts]
  refine exists_congr fun r => and_congr_right fun _ => ?_
  constructor
  · rintro ⟨l, hl, es, op, bound, rfl, h⟩
    exact ⟨es, op, bound, hl, h⟩
  · rintro ⟨es, op, bound, hl, h⟩
    exact ⟨_, hl, es, op, bound, rfl, h⟩

instance (p : Program) : Decidable p.NestsCounts := decidable_of_iff _ p.any_isNested_iff

namespace AnswerSet

/-! ## Assignments as sets of atoms -/

theorem mem_answerOf {p : NormalProgram} {b : Assignment} {a : Atom} :
    a ∈ answerOf p b ↔ ∃ i, p.atoms[i]? = some a ∧ b.get i = .holds := by
  rw [answerOf, mem_ofList]
  simp only [List.mem_filterMap, Prod.exists]
  simp only [List.mem_iff_getElem?, List.getElem?_zip_eq_some, Array.getElem?_toList]
  constructor
  · rintro ⟨a', value, ⟨i, ha, hv⟩, hif⟩
    split at hif
    · next hh =>
      cases hif
      exact ⟨i, ha, by simp [Assignment.get, hv, hh]⟩
    · cases hif
  · rintro ⟨i, ha, hh⟩
    refine ⟨a, .holds, ⟨i, ha, ?_⟩, by simp⟩
    unfold Assignment.get at hh
    cases hv : b.values[i]? with
    | none => simp [hv] at hh
    | some t => simpa [hv] using hh

section Rules

variable {rules : List Rule}

theorem mem_answerOf_ofRules {b : Assignment} {a : Atom} :
    a ∈ answerOf (.ofRules rules) b ↔
      a ∈ occurrences rules ∧ b.get ((numberingOf rules).number a) = .holds := by
  rw [mem_answerOf]
  constructor
  · rintro ⟨i, ha, hh⟩
    obtain ⟨hmem, rfl⟩ := Numbering.mem_and_number_of_getElem? ha
    exact ⟨hmem, hh⟩
  · rintro ⟨hmem, hh⟩
    exact ⟨_, Numbering.getElem?_number hmem, hh⟩

section Agreement

variable {b : Assignment} {d : Derived} {S D : Set Atom}
  (hS : ∀ a ∈ occurrences rules, b.get ((numberingOf rules).number a) = .holds ↔ a ∈ S)
  (hD : ∀ a ∈ occurrences rules, d.contains ((numberingOf rules).number a) = true ↔ a ∈ D)

include hS hD

theorem all_numberLiteral_iff {body : List Literal} (hnested : ∀ l ∈ body, l.isNested = false)
    (hatoms : ∀ l ∈ body, ∀ a ∈ l.atoms, a ∈ occurrences rules) :
    (body.map (numberLiteral (numberingOf rules))).all (holdsInReduct b d) = true ↔
      BodyHolds S D body := by
  rw [List.all_map, List.all_eq_true]
  apply forall₂_congr
  intro l hl
  exact holdsInReduct_numberLiteral (hnested l hl) (fun a ha => hS a (hatoms l hl a ha))
    (fun a ha => hD a (hatoms l hl a ha))

/-- A set of derived atoms is closed if it is closed as a set of atoms. -/
theorem closed_ofRules_iff (hnested : ∀ r ∈ rules, ∀ l ∈ r.body, l.isNested = false) :
    Closed (NormalProgram.ofRules rules).rules b d ↔ consequences rules S D ⊆ D := by
  constructor
  · rintro h a ⟨r, hr, hsupports⟩
    obtain ⟨body, hd, hb⟩ := Rule.exists_derivation_iff.2 hsupports
    obtain ⟨ha, hatoms⟩ := atoms_of_mem_derivations hd
    have hmem := mem_rules_ofRules.2 (.inr (.inl ⟨r, hr, a, body, hd, rfl⟩))
    refine (hD a (mem_occurrences hr ha)).1 (h _ hmem _ rfl ?_)
    exact (all_numberLiteral_iff hS hD (isNested_of_mem_derivations (hnested r hr) hd)
      fun l hl b hb => mem_occurrences hr (hatoms l hl b hb)).2 hb
  · intro h r hr i hi hb
    rcases mem_rules_ofRules.1 hr with ⟨_, -, -, rfl⟩ | ⟨r₀, hr₀, a, body, hd, rfl⟩ | hr
    · cases hi
    · cases hi
      obtain ⟨ha, hatoms⟩ := atoms_of_mem_derivations hd
      refine (hD a (mem_occurrences hr₀ ha)).2
        (h ⟨r₀, hr₀, Rule.exists_derivation_iff.1 ⟨body, hd, ?_⟩⟩)
      exact (all_numberLiteral_iff hS hD (isNested_of_mem_derivations (hnested r₀ hr₀) hd)
        fun l hl b hb => mem_occurrences hr₀ (hatoms l hl b hb)).1 hb
    · obtain ⟨a, i, j, -, -, -, rfl⟩ :=
        (mem_oppositeConstraints (Numbering.proper_ofList (occurrences rules))).1 hr
      cases hi

end Agreement

/-! ## Answers are answer sets -/

/-- No pair of opposite atoms violates a constraint if no atom holds with its opposite. -/
theorem oppositeConstraints_iff {b : Assignment} :
    (∀ r ∈ oppositeConstraints (numberingOf rules), bodyValue b r.body ≠ .holds) ↔
      ∀ a ∈ (answerOf (.ofRules rules) b).toSet,
        a.complement ∉ (answerOf (.ofRules rules) b).toSet := by
  have hproper := Numbering.proper_ofList (occurrences rules)
  -- a pair is found from its atom that is not negated
  have hpair : ∀ a : Atom, a.negated = false → a ∈ answerOf (.ofRules rules) b →
      a.complement ∈ answerOf (.ofRules rules) b →
      ∃ r ∈ oppositeConstraints (numberingOf rules), bodyValue b r.body = .holds := by
    intro a hneg ha hc
    rw [mem_answerOf_ofRules] at ha hc
    refine ⟨_, (mem_oppositeConstraints hproper).2 ⟨a, _, _, Numbering.number?_of_mem ha.1,
      Numbering.number?_of_mem hc.1, hneg, rfl⟩, ?_⟩
    simp [bodyValue_eq_holds_iff, BodyLiteral.value, atomValue, ha.2, hc.2]
  constructor
  · intro h a ha hc
    cases hneg : a.negated with
    | false =>
      obtain ⟨r, hr, hb⟩ := hpair a hneg ha hc
      exact h r hr hb
    | true =>
      obtain ⟨r, hr, hb⟩ := hpair a.complement (by simp [Atom.complement, hneg]) hc (by simpa using ha)
      exact h r hr hb
  · intro h r hr hb
    obtain ⟨a, i, j, hi, hj, -, rfl⟩ := (mem_oppositeConstraints hproper).1 hr
    simp only [bodyValue_eq_holds_iff, List.forall_mem_cons, BodyLiteral.value, atomValue,
      if_true] at hb
    have hmem : ∀ {c k}, (numberingOf rules).number? c = some k → b.get k = .holds →
        c ∈ answerOf (.ofRules rules) b := fun hk hh => mem_answerOf.2 ⟨_, (hproper _ _).1 hk, hh⟩
    exact h a (hmem hi hb.1) (hmem hj hb.2.1)

theorem get_number_eq_holds_iff (rules : List Rule) (b : Assignment) :
    ∀ a ∈ occurrences rules, b.get ((numberingOf rules).number a) = .holds ↔
      a ∈ (answerOf (.ofRules rules) b).toSet := by
  intro a ha
  simp [mem_answerOf_ofRules, ha]

theorem contains_number_iff (rules : List Rule) (b : Assignment) :
    ∀ a ∈ occurrences rules,
      (Derived.ofAssignment b).contains ((numberingOf rules).number a) = true ↔
        a ∈ (answerOf (.ofRules rules) b).toSet :=
  fun a ha => (Derived.matches_ofAssignment b _).trans (get_number_eq_holds_iff rules b a ha)

section Answers

variable {b : Assignment} (hsize : b.values.size = (NormalProgram.ofRules rules).atoms.size)
  (ht : b.IsTotal)

include hsize ht

section Unnested

variable (hnested : ∀ r ∈ rules, ∀ l ∈ r.body, l.isNested = false)

include hnested

/-- A constraint of the rules is violated if its normal rule is. -/
theorem bodyValue_constraint_iff {r : Rule} (hr : r ∈ rules) (hh : r.head = []) :
    bodyValue b (r.body.map (numberLiteral (numberingOf rules))) = .holds ↔
      BodyHolds (answerOf (.ofRules rules) b).toSet (answerOf (.ofRules rules) b).toSet r.body := by
  have hmem := mem_rules_ofRules.2 (.inl ⟨r, hr, hh, rfl⟩)
  rw [← all_holdsInReduct_iff (numbered_ofRules rules) hsize ht hmem]
  exact all_numberLiteral_iff (get_number_eq_holds_iff rules b) (contains_number_iff rules b)
    (hnested r hr) fun l hl a ha =>
      mem_occurrences hr (List.mem_append_left _ (Literal.mem_atomsList.2 ⟨l, hl, ha⟩))

theorem isStable_of_isAnswer (h : IsAnswer (.ofRules rules) b) :
    IsStable rules (answerOf (.ofRules rules) b).toSet := by
  classical
  obtain ⟨hclosed, hleast⟩ := (isStable_iff (numbered_ofRules rules) hsize).1 h.stable
  have hS := get_number_eq_holds_iff rules b
  have hd := contains_number_iff rules b
  refine isStable_of_forall_closed (fun r hr hh hb => ?_) ?_
    ((closed_ofRules_iff hS hd hnested).1 hclosed) fun D hD => ?_
  · exact h.constraints _ (mem_rules_ofRules.2 (.inl ⟨r, hr, hh, rfl⟩)) rfl
      ((bodyValue_constraint_iff hsize ht hnested hr hh).2 hb)
  · -- opposite atoms are excluded by constraints of the normal program
    apply (oppositeConstraints_iff).1
    intro r hr
    obtain ⟨_, _, _, -, -, -, rfl⟩ :=
      (mem_oppositeConstraints (Numbering.proper_ofList (occurrences rules))).1 hr
    exact h.constraints _ (mem_rules_ofRules.2 (.inr (.inr hr))) rfl
  · -- the set as flags, which are closed as well
    let e : Derived := ⟨(numberingOf rules).atoms.map fun a => decide (a ∈ D)⟩
    have he : ∀ a ∈ occurrences rules,
        e.contains ((numberingOf rules).number a) = true ↔ a ∈ D := by
      intro a ha
      simp [e, Derived.contains, Numbering.getElem?_number ha]
    have hle := hleast e (Array.size_map ..) ((closed_ofRules_iff hS he hnested).2 hD)
    intro a ha
    have hmem := (mem_answerOf_ofRules.1 ha).1
    exact (he a hmem).1 (hle _ ((hd a hmem).2 ha))

theorem isAnswer_of_isStable (h : IsStable rules (answerOf (.ofRules rules) b).toSet) :
    IsAnswer (.ofRules rules) b := by
  have hS := get_number_eq_holds_iff rules b
  have hd := contains_number_iff rules b
  refine ⟨hsize, ht, fun r hr hh hb => ?_,
    (isStable_iff (numbered_ofRules rules) hsize).2 ⟨?_, fun e he hclosed => ?_⟩⟩
  · rcases mem_rules_ofRules.1 hr with ⟨r₀, hr₀, hh₀, rfl⟩ | ⟨_, _, _, _, -, rfl⟩ | hr
    · exact h.constraints r₀ hr₀ hh₀ ((bodyValue_constraint_iff hsize ht hnested hr₀ hh₀).1 hb)
    · cases hh
    · exact (oppositeConstraints_iff).2 h.consistent r hr hb
  · exact (closed_ofRules_iff hS hd hnested).2 h.consequences_self.subset
  · -- what is closed as flags is closed as a set of atoms
    let D : Set Atom := {a | a ∈ occurrences rules ∧
      e.contains ((numberingOf rules).number a) = true}
    have heD : ∀ a ∈ occurrences rules,
        e.contains ((numberingOf rules).number a) = true ↔ a ∈ D :=
      fun a ha => ⟨fun hc => ⟨ha, hc⟩, fun hc => hc.2⟩
    have hSD : (answerOf (.ofRules rules) b).toSet ⊆ D := by
      rw [← h.founded]
      exact OrderHom.lfp_le _ ((closed_ofRules_iff hS heD hnested).1 hclosed)
    intro i hi
    have hlt : i < (numberingOf rules).atoms.size := by
      have := Derived.lt_size_of_contains hi
      rw [Derived.size_ofAssignment, hsize] at this
      exact this
    obtain ⟨hmem, hnum⟩ := Numbering.mem_and_number_of_getElem? (Array.getElem?_eq_getElem hlt)
    rw [← hnum] at hi ⊢
    exact (hSD ((hd _ hmem).1 hi)).2

/-- A total assignment is an answer if the atoms that hold in it are an answer set. -/
theorem isAnswer_iff_isStable :
    IsAnswer (.ofRules rules) b ↔ IsStable rules (answerOf (.ofRules rules) b).toSet :=
  ⟨isStable_of_isAnswer hsize ht hnested, isAnswer_of_isStable hsize ht hnested⟩

end Unnested

end Answers

/-- An answer set is the atoms that hold in some total assignment. -/
theorem exists_answerOf_eq {S : Set Atom} (h : IsStable rules S) :
    ∃ b : Assignment, b.values.size = (NormalProgram.ofRules rules).atoms.size ∧ b.IsTotal ∧
      (answerOf (.ofRules rules) b).toSet = S := by
  classical
  let b : Assignment := ⟨(numberingOf rules).atoms.map fun a => Truth.ofBool (decide (a ∈ S))⟩
  have hget : ∀ (i : Nat) (hi : i < (numberingOf rules).atoms.size),
      b.get i = Truth.ofBool (decide ((numberingOf rules).atoms[i] ∈ S)) := by
    intro i hi
    simp [b, Assignment.get, hi]
  refine ⟨b, Array.size_map .., fun i hi => ?_, ?_⟩
  · rw [hget i (by simpa [b] using hi)]
    exact Truth.ofBool_ne_unknown _
  · ext a
    rw [mem_toSet, mem_answerOf_ofRules]
    constructor
    · rintro ⟨ha, hh⟩
      have hat := Numbering.getElem?_number ha
      obtain ⟨hi, hai⟩ := Array.getElem?_eq_some_iff.1 hat
      rw [hget _ hi, hai] at hh
      by_contra hno
      simp [hno, Truth.ofBool] at hh
    · intro ha
      -- an atom of an answer set is the head of some rule
      obtain ⟨r, hr, hsupports⟩ := h.mem_iff.1 ha
      have hmem := mem_occurrences hr (List.mem_append_right _ hsupports.head)
      obtain ⟨hi, hai⟩ := Array.getElem?_eq_some_iff.1 (Numbering.getElem?_number hmem)
      exact ⟨hmem, by rw [hget _ hi, hai]; simp [ha, Truth.ofBool]⟩

end Rules

/-! ## Calls of the solver -/

/-- The first of some atoms on which two answer sets differ is in the second one. -/
def Earlier (atoms : Array Atom) (A B : AnswerSet) : Prop :=
  ∃ (i : Nat) (a : Atom), atoms[i]? = some a ∧ a ∉ A ∧ a ∈ B ∧
    ∀ j < i, ∀ b, atoms[j]? = some b → (b ∈ A ↔ b ∈ B)

instance (atoms : Array Atom) : Std.Asymm (Earlier atoms) where
  asymm A B := by
    rintro ⟨i, a, ha, haA, haB, hbefore⟩ ⟨j, b, hb, hbB, hbA, hbefore'⟩
    rcases Nat.lt_trichotomy i j with hlt | rfl | hlt
    · exact haA ((hbefore' i hlt a ha).1 haB)
    · rw [ha] at hb
      cases hb
      exact haA hbA
    · exact hbB ((hbefore j hlt b hb).1 hbA)

theorem earlier_of_precedes {rules : List Rule} {b c : Assignment}
    (hsize : c.values.size = (NormalProgram.ofRules rules).atoms.size) (h : Precedes b c) :
    Earlier (numberingOf rules).atoms (answerOf (.ofRules rules) b)
      (answerOf (.ofRules rules) c) := by
  obtain ⟨i, hfails, hholds, hbefore⟩ := h
  have hi : i < (numberingOf rules).atoms.size := by
    by_contra hi
    have hout : ¬ i < c.values.size := hsize ▸ hi
    simp [Assignment.get, hout] at hholds
  have hmem : ∀ {j : Nat} {a : Atom} (d : Assignment), (numberingOf rules).atoms[j]? = some a →
      (a ∈ answerOf (.ofRules rules) d ↔ d.get j = .holds) := by
    intro j a d hj
    obtain ⟨ha, hnumber⟩ := Numbering.mem_and_number_of_getElem? hj
    rw [mem_answerOf_ofRules, hnumber, and_iff_right ha]
  refine ⟨i, _, Array.getElem?_eq_getElem hi, ?_, ?_, fun j hj a ha => ?_⟩
  · simp [hmem b (Array.getElem?_eq_getElem hi), hfails]
  · exact (hmem c (Array.getElem?_eq_getElem hi)).2 hholds
  · rw [hmem b ha, hmem c ha, hbefore j hj]

/-- A list has the answer sets of a program in an order that depends on the atoms of the program
only, and calls of the solver that are not interrupted return its beginning. -/
structure Enumerates (p : Program) (answers : List AnswerSet) : Prop where
  ordered : answers.Pairwise (Earlier (numberingOf p.rules).atoms)
  mem_iff : ∀ A, A ∈ answers ↔ p.IsAnswerSet A.toSet
  solve_eq : ∀ options : SolveOptions, options.cancelled = false → options.timeout ≠ some .zero →
    solve p options = .ok (upTo options.maxModels answers)

theorem exists_enumerates {p : Program} (h : ¬ p.NestsCounts) :
    ∃ answers, Enumerates p answers := by
  have hany : (p.rules.any fun r => r.body.any Literal.isNested) = false := by
    rw [← Bool.not_eq_true, p.any_isNested_iff]
    exact h
  have hnested : ∀ r ∈ p.rules, ∀ l ∈ r.body, l.isNested = false := by
    simpa using hany
  -- the search starts where nothing is decided, and every answer is above that
  obtain ⟨found, hpair, hmem, hexplore⟩ := exists_explores (numbered_ofRules p.rules)
    (.unknown (NormalProgram.ofRules p.rules).atoms.size) (by simp)
  have hfound : ∀ b, b ∈ found ↔ IsAnswer (.ofRules p.rules) b := by
    intro b
    rw [hmem]
    refine and_iff_left_of_imp fun hb => ⟨by simp [hb.size], fun i => ?_⟩
    simp
  refine ⟨found.map (answerOf (.ofRules p.rules)), ?_, fun A => ?_, fun options hc ht => ?_⟩
  · rw [List.pairwise_map]
    exact hpair.imp_of_mem fun _ hc hbc => earlier_of_precedes ((hfound _).1 hc).size hbc
  · simp only [List.mem_map, hfound]
    constructor
    · rintro ⟨b, hb, rfl⟩
      exact (isAnswer_iff_isStable hb.size hb.total hnested).1 hb
    · intro hA
      obtain ⟨b, hsize, htotal, hb⟩ := exists_answerOf_eq hA
      obtain rfl := AnswerSet.toSet_injective hb
      exact ⟨b, (isAnswer_iff_isStable hsize htotal hnested).2 hA, rfl⟩
  · have hwatch : Watch.ofOptions options = .quiet := by
      simp [Watch.ofOptions, hc, ht]
    have hstart : Progress.start.isFull options.maxModels = false := by
      simp [Progress.isFull, Progress.start]
      omega
    obtain ⟨t, htexp, htfound⟩ := hexplore options.maxModels .start hstart
    have hsearch : search (.ofRules p.rules) .quiet options.maxModels = .ok t.found.toList := by
      rw [search, htexp]
      rfl
    rw [solve, hwatch, solveWatched, hany, hsearch, htfound]
    rfl

/-- Every answer set is one of a list that enumerates them, also as a set of atoms. -/
theorem Enumerates.isAnswerSet_iff {p : Program} {answers : List AnswerSet}
    (h : Enumerates p answers) {S : Set Atom} :
    p.IsAnswerSet S ↔ ∃ A ∈ answers, A.toSet = S := by
  constructor
  · intro hS
    obtain ⟨b, -, -, rfl⟩ := exists_answerOf_eq hS
    exact ⟨_, (h.mem_iff _).2 hS, rfl⟩
  · rintro ⟨A, hA, rfl⟩
    exact (h.mem_iff A).1 hA

/-- A call without limit returns them all. -/
theorem Enumerates.solve_all {p : Program} {answers : List AnswerSet} (h : Enumerates p answers) :
    solve p ⟨0, none, false⟩ = .ok answers :=
  h.solve_eq ⟨0, none, false⟩ rfl (by simp)

/-- Calls that are not interrupted return the answer sets of the program, each once, in an order
that depends on the program only, up to the limit of the call. -/
theorem exists_solve_eq {p : Program} (h : ¬ p.NestsCounts) :
    ∃ answers : List AnswerSet, answers.Nodup ∧
      (∀ S, p.IsAnswerSet S ↔ ∃ A ∈ answers, A.toSet = S) ∧
      ∀ options : SolveOptions, options.cancelled = false → options.timeout ≠ some .zero →
        solve p options = .ok (upTo options.maxModels answers) := by
  obtain ⟨answers, hanswers⟩ := exists_enumerates h
  exact ⟨answers, hanswers.ordered.nodup, fun _ => hanswers.isAnswerSet_iff, hanswers.solve_eq⟩

/-- Without interruptions and limit, the solver refuses a program that nests counts, and only such a
program; of every other program it returns every answer set, each once, and nothing else. -/
theorem solve_exact (p : Program) :
    ((∃ reason, solve p ⟨0, none, false⟩ = .error (.invalidProgram reason)) ↔ p.NestsCounts) ∧
    (¬ p.NestsCounts → ∃ answers, solve p ⟨0, none, false⟩ = .ok answers ∧ answers.Nodup ∧
      ∀ S : Set Atom, p.IsAnswerSet S ↔ ∃ A ∈ answers, A.toSet = S) := by
  have hok : ¬ p.NestsCounts → ∃ answers, solve p ⟨0, none, false⟩ = .ok answers ∧ answers.Nodup ∧
      ∀ S : Set Atom, p.IsAnswerSet S ↔ ∃ A ∈ answers, A.toSet = S := by
    intro h
    obtain ⟨answers, hnodup, hmem, hsolve⟩ := exists_solve_eq h
    exact ⟨answers, hsolve ⟨0, none, false⟩ rfl (by simp), hnodup, hmem⟩
  refine ⟨⟨?_, fun h => ⟨"nested aggregates are not supported", ?_⟩⟩, hok⟩
  · rintro ⟨reason, hreason⟩
    by_contra h
    obtain ⟨answers, hsolve, -⟩ := hok h
    rw [hsolve] at hreason
    cases hreason
  · have hany := p.any_isNested_iff.2 h
    simp [solve, solveWatched, Watch.ofOptions, Watch.quiet, hany, nestedCounts]

/-- Two atoms that derive each other, one of them also by a count in which two elements have equal
terms, and a choice. -/
def loopWithCount : Program :=
  let p := Atom.positive "p" ["x"]
  let q := Atom.positive "q" ["x"]
  let r := Atom.positive "r" []
  Program.empty.pushAll [.derive p [.pos q], .derive q [.pos p],
    .derive p [.count [⟨["x"], [.pos r]⟩, ⟨["x"], [.not q]⟩] .ge 1], .choice r,
    .constraint [.not p, .pos r]]

theorem solve_exact_loopWithCount :
    ¬ loopWithCount.NestsCounts ∧
      ∃ answers, solve loopWithCount ⟨0, none, false⟩ = .ok answers ∧ answers.Nodup ∧
        ∀ S : Set Atom, loopWithCount.IsAnswerSet S ↔ ∃ A ∈ answers, A.toSet = S := by
  have hnests : ¬ loopWithCount.NestsCounts := by
    rw [← Program.any_isNested_iff]
    decide
  exact ⟨hnests, (solve_exact loopWithCount).2 hnests⟩

end AnswerSet

end FixedDomain
