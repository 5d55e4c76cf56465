import FixedDomain.Proofs.AnswerSet.Exactness

/-! # Programs with one more constraint

A constraint takes away the answer sets that violate it (`isStable_append_constraint_iff`). If all
of its atoms are in the program already, no atom gets another number, so the other answer sets are
found in the same order as before (`Enumerates.push_constraint`).
-/

namespace FixedDomain

/-- A constraint derives nothing, so it only excludes answer sets. -/
theorem isStable_append_constraint_iff {rules : List Rule} {body : List Literal} {S : Set Atom} :
    IsStable (rules ++ [.constraint body]) S ↔ IsStable rules S ∧ ¬ BodyHolds S S body := by
  have hconsequences : consequences (rules ++ [.constraint body]) S = consequences rules S := by
    ext D a
    simp [mem_consequences, or_and_right, exists_or]
  constructor
  · intro h
    refine ⟨⟨fun r hr => h.constraints r (List.mem_append_left _ hr), h.consistent, ?_⟩, ?_⟩
    · rw [← hconsequences, h.founded]
    · exact h.constraints (.constraint body) (List.mem_append_right _ (List.mem_singleton_self _)) rfl
  · rintro ⟨h, hbody⟩
    refine ⟨fun r hr hhead => ?_, h.consistent, by rw [hconsequences, h.founded]⟩
    rcases List.mem_append.1 hr with hr | hr
    · exact h.constraints r hr hhead
    · obtain rfl := List.mem_singleton.1 hr
      exact hbody

namespace AnswerSet

/-- Atoms that have a number already change no numbering. -/
theorem Numbering.ofList_append_of_subset {atoms more : List Atom} (h : more ⊆ atoms) :
    ofList (atoms ++ more) = ofList atoms := by
  rw [ofList, List.foldl_append, ← ofList]
  induction more with
  | nil => rfl
  | cons a more ih =>
    obtain ⟨ha, hmore⟩ := List.cons_subset.1 h
    have hc : (ofList atoms).numbers.contains a = true := by
      rw [Std.HashMap.contains_eq_isSome_getElem?, Option.isSome_iff_ne_none]
      exact number?_ofList_ne_none_iff.2 ha
    rw [List.foldl_cons, Numbering.insert, if_pos hc, ih hmore]

theorem numberingOf_append_constraint {rules : List Rule} {body : List Literal}
    (h : Literal.atomsList body ⊆ occurrences rules) :
    numberingOf (rules ++ [.constraint body]) = numberingOf rules := by
  have hatoms : occurrences (rules ++ [.constraint body]) =
      occurrences rules ++ Literal.atomsList body := by
    simp [occurrences, Rule.atoms, Rule.constraint]
  rw [numberingOf, hatoms, Numbering.ofList_append_of_subset h]

/-- With one more constraint over known atoms, the answer sets that do not violate it are found, in
the order in which they were. -/
theorem Enumerates.push_constraint {p : Program} {answers : List AnswerSet}
    (h : Enumerates p answers) {body : List Literal} (hp : ¬ p.NestsCounts)
    (hnested : ∀ l ∈ body, l.isNested = false)
    (hatoms : Literal.atomsList body ⊆ occurrences p.rules) {keep : AnswerSet → Bool}
    (hkeep : ∀ A ∈ answers, keep A = true ↔ ¬ BodyHolds A.toSet A.toSet body) :
    ¬ (p.push (.constraint body)).NestsCounts ∧
      Enumerates (p.push (.constraint body)) (answers.filter keep) := by
  have hpush : ¬ (p.push (.constraint body)).NestsCounts := by
    rw [← Program.any_isNested_iff] at hp ⊢
    simpa [Rule.constraint, or_imp, forall_and] using And.intro hp hnested
  obtain ⟨found, hfound⟩ := exists_enumerates hpush
  have hordered := hfound.ordered
  rw [Program.rules_push, numberingOf_append_constraint hatoms] at hordered
  have heq : found = answers.filter keep := by
    refine hordered.eq_of_mem_iff (h.ordered.filter keep) fun A => ?_
    rw [hfound.mem_iff, Program.IsAnswerSet, Program.rules_push, isStable_append_constraint_iff,
      List.mem_filter, ← Program.IsAnswerSet, ← h.mem_iff]
    exact and_congr_right fun hA => (hkeep A hA).symm
  exact ⟨hpush, heq ▸ hfound⟩

end AnswerSet

end FixedDomain
