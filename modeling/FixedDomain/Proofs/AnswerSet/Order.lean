import FixedDomain.Proofs.AnswerSet.Exactness

/-! # The order of answer sets

Nothing sorts the answer sets of a program, and yet they come in the lexicographic order of their
truth vectors (`solve_increasing`): the atoms of the program stand in the order of their first
occurrences, and the case that an atom fails comes before the case that it holds.

The numbers that atoms get are their places in that order (`toList_numberingOf`), so `Earlier`, which
compares answer sets by numbers, compares their truth vectors.
-/

namespace FixedDomain

/-- The atoms of a program in the order of their first occurrences: rule by rule, the body of a rule
before its head, the conditions of a count where it stands. -/
def Program.atoms (p : Program) : List Atom := (p.rules.flatMap Rule.atoms).eraseDups

/-- Which of the atoms of a program are in an answer set, in their order. -/
def Program.truthVector (p : Program) (A : AnswerSet) : List Bool :=
  p.atoms.map fun a => decide (a ∈ A)

namespace AnswerSet

/-! ## Numbers as places -/

theorem Numbering.toList_ofList (atoms : List Atom) : (ofList atoms).atoms.toList = atoms.eraseDups := by
  -- by induction on the atom that is numbered last
  induction atoms using List.reverseRecOn with
  | nil => rfl
  | append_singleton atoms a ih =>
    have hinsert : ofList (atoms ++ [a]) = (ofList atoms).insert a := by
      simp [ofList, List.foldl_append]
    have hnumber : (ofList atoms).number? a = none ↔ a ∉ atoms := by
      rw [← number?_ofList_ne_none_iff (a := a), not_not]
    rw [hinsert, atoms_insert, List.eraseDups_append]
    by_cases ha : a ∈ atoms
    · simp [hnumber, ha, ih, List.removeAll]
    · simp [hnumber, ha, ih, List.removeAll, List.eraseDups_cons]

theorem toList_numberingOf (p : Program) : (numberingOf p.rules).atoms.toList = p.atoms :=
  Numbering.toList_ofList _

theorem Earlier.truthVector_lt {p : Program} {A B : AnswerSet}
    (h : Earlier (numberingOf p.rules).atoms A B) : p.truthVector A < p.truthVector B := by
  obtain ⟨i, a, ha, haA, haB, hbefore⟩ := h
  have hplace : ∀ {j : Nat} {b : Atom},
      (numberingOf p.rules).atoms[j]? = some b ↔ p.atoms[j]? = some b := by
    intro j b
    rw [← toList_numberingOf, Array.getElem?_toList]
  obtain ⟨hi, hai⟩ := List.getElem?_eq_some_iff.1 (hplace.1 ha)
  have hlength : ∀ C : AnswerSet, i < (p.truthVector C).length := fun C => by
    simpa [Program.truthVector] using hi
  -- the vectors agree before the place of `a`
  refine List.lt_iff_exists.2 (.inr ⟨i, hlength A, hlength B, fun j hj => ?_, ?_⟩)
  · have hb := hplace.2 (List.getElem?_eq_getElem (Nat.lt_trans hj hi))
    simp [Program.truthVector, hbefore j hj _ hb]
  · simp [Program.truthVector, hai, haA, haB]

/-! ## Calls of the solver -/

/-- Without interruptions the solver returns the answer sets of a program in the order of their truth
vectors. A call with a limit returns so many of them from the beginning of that list, or all if there
are fewer. -/
theorem solve_increasing (p : Program) (h : ¬ p.NestsCounts) :
    ∃ answers : List AnswerSet, solve p ⟨0, none, false⟩ = .ok answers ∧
      (∀ S : Set Atom, p.IsAnswerSet S ↔ ∃ A ∈ answers, A.toSet = S) ∧
      answers.Pairwise (fun A B => p.truthVector A < p.truthVector B) ∧
      ∀ n > 0, solve p ⟨n, none, false⟩ = .ok (answers.take (min n answers.length)) := by
  obtain ⟨answers, hanswers⟩ := exists_enumerates h
  have hsolve : ∀ n, solve p ⟨n, none, false⟩ = .ok (upTo n answers) :=
    fun n => hanswers.solve_eq ⟨n, none, false⟩ rfl (by simp)
  have hordered := hanswers.ordered.imp Earlier.truthVector_lt
  refine ⟨answers, hsolve 0, fun S => hanswers.isAnswerSet_iff, hordered, fun n hn => ?_⟩
  have hupTo : upTo n answers = answers.take n := if_neg (Nat.ne_of_gt hn)
  rw [hsolve n, hupTo, List.take_eq_take_min]

/-- Two choices, the second of which is numbered first, and an atom that propagation settles after
them. -/
def twoChoices : Program :=
  let a := Atom.positive "a" []
  let b := Atom.positive "b" []
  Program.empty.pushAll [
    .constraint [.count [⟨["1"], [.pos b]⟩, ⟨["2"], [.pos a]⟩] .gt 1],
    .derive (.positive "c" []) [.not a, .not b], .choice a, .choice b]

example : twoChoices.atoms = [.positive "b" [], .positive "a" [], .positive "c" [],
    (Atom.positive "a" []).complement, (Atom.positive "b" []).complement] := by decide

theorem solve_increasing_twoChoices :
    ¬ twoChoices.NestsCounts ∧
      ∃ answers : List AnswerSet, solve twoChoices ⟨0, none, false⟩ = .ok answers ∧
        (∀ S : Set Atom, twoChoices.IsAnswerSet S ↔ ∃ A ∈ answers, A.toSet = S) ∧
        answers.Pairwise (fun A B => twoChoices.truthVector A < twoChoices.truthVector B) ∧
        ∀ n > 0, solve twoChoices ⟨n, none, false⟩ = .ok (answers.take (min n answers.length)) := by
  have hnests : ¬ twoChoices.NestsCounts := by decide
  exact ⟨hnests, solve_increasing twoChoices hnests⟩

end AnswerSet

end FixedDomain
