import FixedDomain.Proofs.AnswerSet.Search

/-! # Interrupted searches

The search looks at the outside at certain points, the number of which depends on the program and on
the limit only. An interruption that is noticed at one of them ends the search with an error; one
that would be noticed later changes nothing (`exists_solveWatched_eq`). So no list of answer sets is
ever cut short by an interruption.
-/

namespace FixedDomain.AnswerSet

namespace Watch

/-- The first interruption that is noticed in so many looks, counted from a given one. -/
def first (watch : Watch) (start looks : Nat) : Option Interruption :=
  (List.range' start looks).findSome? watch

theorem first_zero (watch : Watch) (start : Nat) : watch.first start 0 = none := rfl

theorem first_succ (watch : Watch) (start looks : Nat) :
    watch.first start (looks + 1) = (watch start).or (watch.first (start + 1) looks) := by
  rw [first, List.range'_succ, List.findSome?_cons]
  cases watch start <;> rfl

theorem first_one (watch : Watch) (start : Nat) : watch.first start 1 = watch start := by
  rw [first_succ, first_zero, Option.or_none]

theorem first_add (watch : Watch) (start m n : Nat) :
    watch.first start (m + n) = (watch.first start m).or (watch.first (start + m) n) := by
  simp only [first, ← List.findSome?_append, List.range'_append_1]

theorem first_quiet (start looks : Nat) : quiet.first start looks = none := by
  simp [first, quiet]

end Watch

/-! ## Searches -/

/-- The search below an assignment makes so many looks at the outside. An interruption that is noticed
in one of them ends it; without one it has an outcome that does not depend on the watch. -/
def Attends (p : NormalProgram) (limit : Nat) (a : Assignment) (s : Progress) (looks : Nat)
    (outcome : Progress) : Prop :=
  ∀ watch : Watch, explore p watch limit a s =
    match watch.first s.looks looks with
    | some i => .error i
    | none => .ok outcome

section Explore

variable {p : NormalProgram} {limit : Nat} {a b : Assignment} {s t u : Progress} {x m n : Nat}

/-- If nothing is open, there is one look. -/
theorem Attends.one
    (h : ∀ watch : Watch, watch s.looks = none → explore p watch limit a s = .ok t) :
    Attends p limit a s 1 t := by
  intro watch
  rw [Watch.first_one]
  cases hw : watch s.looks with
  | some i => exact explore_of_watch hw
  | none => exact h watch hw

/-- The looks in the two cases of an open atom follow one another, if there is room for the second
case. -/
theorem Attends.split (h : propagate p a = some b) (hx : b.firstUndecided? = some x)
    (hfirst : Attends p limit (b.decide x false) s.look m t) (ht : t.looks = s.looks + 1 + m)
    (hsecond : Attends p limit (b.decide x true) t n u) :
    Attends p limit a s (m + (if t.isFull limit then 0 else n) + 1)
      (if t.isFull limit then t else u) := by
  intro watch
  rw [Watch.first_succ, Watch.first_add]
  cases hw : watch s.looks with
  | some i => exact explore_of_watch hw
  | none =>
    rw [explore_of_open hw h hx, hfirst watch, Option.none_or]
    have hlook : s.look.looks = s.looks + 1 := rfl
    rw [hlook]
    cases watch.first (s.looks + 1) m with
    | some i => rfl
    | none =>
      dsimp only [Option.none_or]
      cases hfull : t.isFull limit with
      | true => simp [Watch.first_zero]
      | false => simpa [ht] using hsecond watch

/-- Below every assignment the search makes some number of looks, by induction on the number of open
atoms. -/
theorem exists_attends (p : NormalProgram) (limit : Nat) (a : Assignment) (s : Progress) :
    ∃ looks t, t.looks = s.looks + looks ∧ Attends p limit a s looks t := by
  induction hn : a.undecided using Nat.strongRecOn generalizing a s with
  | ind n ih =>
  subst hn
  cases hprop : propagate p a with
  | none => exact ⟨1, s.look, rfl, .one fun _ hw => explore_of_propagate_eq_none hw hprop⟩
  | some b =>
    cases hx : b.firstUndecided? with
    | none =>
      refine ⟨1, record p b s.look, ?_, .one fun _ hw => explore_of_total hw hprop hx⟩
      unfold record
      split <;> rfl
    | some x =>
      have hlt : ∀ v, (b.decide x v).undecided < a.undecided := fun v =>
        Nat.lt_of_lt_of_le (Assignment.undecided_decide_lt hx v) (propagate_undecided_le hprop)
      obtain ⟨m, t, ht, hfirst⟩ := ih _ (hlt false) (b.decide x false) s.look rfl
      obtain ⟨n, u, hu, hsecond⟩ := ih _ (hlt true) (b.decide x true) t rfl
      have hlooks : t.looks = s.looks + 1 + m := ht
      refine ⟨_, _, ?_, hfirst.split hprop hx hlooks hsecond⟩
      split <;> omega

end Explore

/-! ## Calls of the solver -/

/-- A call of the solver makes a number of looks at the outside. The first interruption that is noticed
in one of them is its outcome; without one, the outcome is that of a call that is not cancelled and has
no budget. -/
theorem exists_solveWatched_eq (program : Program) (options : SolveOptions) :
    ∃ looks, ∀ watch : Watch, solveWatched program options watch =
      match watch.first 0 looks with
      | some i => .error (i.toError options)
      | none => solve program ⟨options.maxModels, none, false⟩ := by
  cases hnested : program.rules.any fun r => r.body.any Literal.isNested with
  | true =>
    -- only the look before the program is read
    refine ⟨1, fun watch => ?_⟩
    simp only [solve, solveWatched, hnested, Watch.first_one]
    cases watch 0 <;> rfl
  | false =>
    obtain ⟨looks, t, -, hattends⟩ := exists_attends (.ofRules program.rules) options.maxModels
      (.unknown (NormalProgram.ofRules program.rules).atoms.size) .start
    have hstart : Progress.start.looks = 1 := rfl
    have hquiet : Watch.ofOptions ⟨options.maxModels, none, false⟩ = .quiet := rfl
    refine ⟨looks + 1, fun watch => ?_⟩
    simp only [solve, solveWatched, search, hnested, hattends _, hstart, hquiet, Watch.first_quiet,
      Watch.first_succ watch 0]
    cases watch 0 with
    | some i => rfl
    | none => cases watch.first 1 looks <;> simp [Watch.quiet, Except.map]

end FixedDomain.AnswerSet
