import FixedDomain.Reasoner.Basic
import FixedDomain.Proofs.AnswerSet.Interruption

/-! # Calls that fail

What a session does with a solver whose calls may fail, each for a reason of its own:

* `Solver.unreliable` — such a solver; it counts its calls.
* `Weathers` — a step has the outcome that it has when no call fails, unless it ends at a failed call,
  whose error it passes on.
* `Enumeration.nexts` — what is drawn from an enumeration, whether it is over or not.

Consistency, entailment and justification weather all failures, and an enumeration is cut off by one
(`failures_change_no_answer`).
-/

namespace FixedDomain

/-- A solver that counts its calls. Some of them fail; the others answer as the search does when it is
not interrupted. -/
def Solver.unreliable (failures : Nat → Option SolverError) : Solver (StateM Nat) where
  name := "unreliable"
  strays := 0
  solve p options := fun n =>
    (match failures n with
      | some error => .error error
      | none => AnswerSet.solve p ⟨options.maxModels, none, false⟩, n + 1)

/-- The solver none of whose calls fails. -/
def Solver.reliable : Solver (StateM Nat) := .unreliable fun _ => none

theorem Solver.solve_unreliable_of_none {failures : Nat → Option SolverError} {n : Nat}
    (h : failures n = none) (p : Program) (options : SolveOptions) :
    (Solver.unreliable failures).solve p options n = Solver.reliable.solve p options n := by
  simp [unreliable, reliable, h]

theorem Solver.solve_unreliable_calls (failures : Nat → Option SolverError) (p : Program)
    (options : SolveOptions) (n : Nat) :
    ((Solver.unreliable failures).solve p options n).2 = n + 1 := rfl

theorem run_bind_stateM {σ α β : Type} (x : StateM σ α) (f : α → StateM σ β) (n : σ) :
    (x >>= f) n = f (x n).1 (x n).2 := rfl

/-- What a session makes of the answer of a solver with a state. -/
theorem Reasoner.run_satisfiable (r : Reasoner) {σ : Type} (s : Solver (StateM σ)) (p : Program)
    (n : σ) : (r.satisfiable s p).run n =
      match s.solve p (r.options 1) n with
      | (.ok answers, k) => (.ok !answers.isEmpty, k)
      | (.error error, k) => (.error (.solver error), k) := by
  have hlift : (Except.ok (ε := ReasonerError) <$> s.solve p (r.options 1) : StateM σ _) n =
      (.ok (s.solve p (r.options 1) n).1, (s.solve p (r.options 1) n).2) := rfl
  simp only [satisfiable, ExceptT.run_bind]
  refine (run_bind_stateM (Except.ok <$> s.solve p (r.options 1)) _ n).trans ?_
  rw [hlift]
  rcases s.solve p (r.options 1) n with ⟨_ | _, k⟩ <;> rfl

/-! ## Verdicts -/

/-- Whenever calls fail as they do in `failures`, a step has the outcome that it has when no call fails,
or it ends at a call that fails, with the error of that call. -/
def Weathers {α : Type} (failures : Nat → Option SolverError)
    (step : Solver (StateM Nat) → ExceptT ReasonerError (StateM Nat) α) : Prop :=
  ∀ n, (step (.unreliable failures)).run n = (step .reliable).run n ∨
    ∃ i error, failures i = some error ∧
      (step (.unreliable failures)).run n = (.error (.solver error), i + 1)

namespace Weathers

variable {α β : Type} {failures : Nat → Option SolverError}

/-- A step that makes no calls. -/
theorem const (x : ExceptT ReasonerError (StateM Nat) α) : Weathers failures fun _ => x :=
  fun _ => .inl rfl

theorem bind {x : Solver (StateM Nat) → ExceptT ReasonerError (StateM Nat) α}
    {f : Solver (StateM Nat) → α → ExceptT ReasonerError (StateM Nat) β} (hx : Weathers failures x)
    (hf : ∀ a, Weathers failures (f · a)) : Weathers failures fun s => x s >>= f s := by
  have hrun : ∀ s n, (x s >>= f s).run n = match (x s).run n with
      | (.ok a, k) => (f s a).run k
      | (.error e, k) => (.error e, k) := by
    intro s n
    rw [ExceptT.run_bind]
    refine (run_bind_stateM (x s).run _ n).trans ?_
    rcases (x s).run n with ⟨_ | _, k⟩ <;> rfl
  intro n
  rw [hrun, hrun]
  rcases hx n with h | ⟨i, error, hi, h⟩
  · rw [h]
    rcases (x .reliable).run n with ⟨_ | a, k⟩
    · exact .inl rfl
    · exact hf a k
  · exact .inr ⟨i, error, hi, by rw [h]⟩

end Weathers

namespace Reasoner

variable (r : Reasoner) (failures : Nat → Option SolverError)

/-- One call decides it: if it fails, its error is passed on. -/
theorem weathers_satisfiable (p : Program) : Weathers failures (r.satisfiable · p) := by
  intro n
  cases h : failures n with
  | none =>
    exact .inl (by rw [r.run_satisfiable, r.run_satisfiable, Solver.solve_unreliable_of_none h])
  | some error =>
    exact .inr ⟨n, error, h, by rw [r.run_satisfiable]; simp [Solver.unreliable, h]⟩

theorem weathers_isConsistent : Weathers failures (r.isConsistent ·) :=
  r.weathers_satisfiable failures r.program

theorem weathers_isEntailed (axioms : List Axiom) : Weathers failures (r.isEntailed · axioms) := by
  induction axioms with
  | nil => exact .const _
  | cons a rest ih =>
    simp only [isEntailed]
    cases r.violationProgram a with
    | error e => exact .const _
    | ok p =>
      refine (r.weathers_satisfiable failures p).bind fun violated => ?_
      cases violated with
      | true => exact .const _
      | false => exact ih

theorem weathers_minimize (e : Encoding) (kept rest : List Nat) :
    Weathers failures (r.minimize · e kept rest) := by
  induction rest generalizing kept with
  | nil => exact .const _
  | cons k rest ih =>
    simp only [minimize]
    refine (r.weathers_satisfiable failures _).bind fun consistent => ?_
    cases consistent with
    | true => exact ih (kept ++ [k])
    | false => exact ih kept

theorem weathers_justification : Weathers failures (r.justification ·) := by
  simp only [justification]
  cases r.taggedEncoding with
  | error error => exact .const _
  | ok e =>
    refine (r.weathers_satisfiable failures e.complete).bind fun consistent => ?_
    cases consistent with
    | true => exact .const _
    | false => exact (r.weathers_minimize failures e [] e.positions).bind fun _ => .const _

end Reasoner

/-! ## Draws -/

namespace Enumeration

/-- What a draw brings, and the enumeration that it leaves, when the solver has been called. -/
def receive (e : Enumeration) :
    Except SolverError (List AnswerSet) → Option (Except SolverError Model) × Enumeration
  | .error error => (some (.error error), { e with done := true })
  | .ok [] => (none, { e with done := true })
  | .ok (answer :: _) => (some (.ok (e.context.decode answer e.projection)), e.advance answer)

/-- So many draws one after another, whether the enumeration is over or not. -/
def nexts {m : Type → Type} [Monad m] (solver : Solver m) :
    Nat → Enumeration → m (List (Option (Except SolverError Model)) × Enumeration)
  | 0, e => pure ([], e)
  | draws + 1, e => do
    let (item, e) ← e.next solver
    let (items, e) ← e.nexts solver draws
    pure (item :: items, e)

section Unreliable

variable {failures : Nat → Option SolverError} {e : Enumeration}

theorem next_of_isOver (h : e.isOver) (solver : Solver (StateM Nat)) (n : Nat) :
    e.next solver n = ((none, e), n) := by
  simp only [next, h]
  rfl

theorem next_of_not_isOver (h : e.isOver = false) (n : Nat) :
    e.next (.unreliable failures) n =
      (e.receive ((Solver.unreliable failures).solve e.program e.options n).1, n + 1) := by
  simp only [next, h]
  refine (run_bind_stateM _ _ n).trans ?_
  rw [Solver.solve_unreliable_calls]
  rcases ((Solver.unreliable failures).solve e.program e.options n).1 with _ | _ | _ <;> rfl

theorem nexts_succ (solver : Solver (StateM Nat)) (draws n : Nat) :
    e.nexts solver (draws + 1) n =
      let drawn := e.next solver n
      let others := drawn.1.2.nexts solver draws drawn.2
      ((drawn.1.1 :: others.1.1, others.1.2), others.2) := rfl

/-- Nothing is drawn from an enumeration that is over, and the solver is not called. -/
theorem nexts_of_isOver (h : e.isOver) (solver : Solver (StateM Nat)) (draws n : Nat) :
    e.nexts solver draws n = ((List.replicate draws none, e), n) := by
  induction draws with
  | zero => rfl
  | succ draws ih => simp only [nexts_succ, next_of_isOver h, ih, List.replicate_succ]

/-- Whether a draw has brought a model. -/
def isModel : Option (Except SolverError Model) → Bool
  | some (.ok _) => true
  | _ => false

/-- A draw that brings no model ends the enumeration. -/
theorem isOver_next {n : Nat}
    (h : isModel (e.next (.unreliable failures) n).1.1 = false) :
    (e.next (.unreliable failures) n).1.2.isOver := by
  cases hover : e.isOver with
  | true => rwa [next_of_isOver hover]
  | false =>
    rw [next_of_not_isOver hover] at h ⊢
    rcases hx : ((Solver.unreliable failures).solve e.program e.options n).1 with _ | _ | _
    · simp [receive, isOver]
    · simp [receive, isOver]
    · simp [hx, receive, isModel] at h

/-- The models that are drawn are counted. -/
theorem found_next (failures : Nat → Option SolverError) (e : Enumeration) (n : Nat) :
    (e.next (.unreliable failures) n).1.2.limit = e.limit ∧
    (e.next (.unreliable failures) n).1.2.found =
      e.found + (isModel (e.next (.unreliable failures) n).1.1).toNat := by
  cases hover : e.isOver with
  | true => simp [next_of_isOver hover, isModel]
  | false =>
    rw [next_of_not_isOver hover]
    rcases ((Solver.unreliable failures).solve e.program e.options n).1 with _ | _ | _
    · simp [receive, isModel]
    · simp [receive, isModel]
    · simp only [receive, isModel, advance]
      split <;> simp

theorem isOver_nexts {draws n : Nat}
    (h : ∃ item ∈ (e.nexts (.unreliable failures) draws n).1.1, isModel item = false) :
    (e.nexts (.unreliable failures) draws n).1.2.isOver := by
  induction draws generalizing e n with
  | zero => obtain ⟨_, hmem, -⟩ := h; cases hmem
  | succ draws ih =>
    obtain ⟨item, hmem, hitem⟩ := h
    rw [nexts_succ] at hmem ⊢
    rcases List.mem_cons.1 hmem with rfl | hmem
    · have hover := isOver_next hitem
      dsimp only
      rwa [nexts_of_isOver hover]
    · exact ih ⟨item, hmem, hitem⟩

theorem found_nexts (failures : Nat → Option SolverError) (e : Enumeration) (draws n : Nat) :
    (e.nexts (.unreliable failures) draws n).1.2.limit = e.limit ∧
    (e.nexts (.unreliable failures) draws n).1.2.found =
      e.found + (e.nexts (.unreliable failures) draws n).1.1.countP isModel := by
  induction draws generalizing e n with
  | zero => exact ⟨rfl, rfl⟩
  | succ draws ih =>
    obtain ⟨hlimit, hfound⟩ := found_next failures e n
    rw [nexts_succ]
    dsimp only
    rw [(ih _ _).1, (ih _ _).2, hlimit, hfound, List.countP_cons]
    refine ⟨rfl, ?_⟩
    cases isModel (e.next (.unreliable failures) n).1.1 with
    | true => simp only [Bool.toNat_true, if_true]; omega
    | false => simp

/-- Models, at most one error, and nothing after it. The models are those that are drawn first when no
call fails; if something else is drawn, the error is that of a failed call. -/
theorem exists_nexts_eq (e : Enumeration) (draws n : Nat) :
    ∃ (models : List Model) (ending : Option SolverError) (rest : Nat),
      (e.nexts (.unreliable failures) draws n).1.1 =
        models.map (some ∘ .ok) ++ ending.toList.map (some ∘ .error) ++ List.replicate rest none ∧
      models.map (some ∘ .ok) <+: (e.nexts .reliable draws n).1.1 ∧
      ((e.nexts (.unreliable failures) draws n).1.1 = (e.nexts .reliable draws n).1.1 ∨
        ∃ i error, failures i = some error ∧ ending = some error) := by
  induction draws generalizing e n with
  | zero => exact ⟨[], none, 0, rfl, List.nil_prefix, .inl rfl⟩
  | succ draws ih =>
    cases hover : e.isOver with
    | true =>
      rw [nexts_of_isOver hover, nexts_of_isOver hover]
      exact ⟨[], none, draws + 1, rfl, List.nil_prefix, .inl rfl⟩
    | false =>
      rw [nexts_succ, nexts_succ, next_of_not_isOver hover, Solver.reliable,
        next_of_not_isOver hover, ← Solver.reliable]
      dsimp only
      cases hcall : failures n with
      -- the failed call ends the enumeration
      | some error =>
        have houtcome : ((Solver.unreliable failures).solve e.program e.options n).1 =
            .error error := by simp [Solver.unreliable, hcall]
        rw [houtcome]
        refine ⟨[], some error, draws, ?_, List.nil_prefix, .inr ⟨n, error, hcall, rfl⟩⟩
        dsimp only [receive]
        rw [nexts_of_isOver (by simp [isOver])]
        rfl
      | none =>
        rw [Solver.solve_unreliable_of_none hcall]
        rcases (Solver.reliable.solve e.program e.options n).1 with error | _ | ⟨answer, _⟩ <;>
          dsimp only [receive]
        · rw [nexts_of_isOver (by simp [isOver]), nexts_of_isOver (by simp [isOver])]
          exact ⟨[], some error, draws, rfl, List.nil_prefix, .inl rfl⟩
        · rw [nexts_of_isOver (by simp [isOver]), nexts_of_isOver (by simp [isOver])]
          exact ⟨[], none, draws + 1, rfl, List.nil_prefix, .inl rfl⟩
        -- both go on from the same model
        · obtain ⟨models, ending, rest, hdrawn, hprefix, hsame⟩ := ih (e.advance answer) (n + 1)
          refine ⟨e.context.decode answer e.projection :: models, ending, rest, ?_, ?_, ?_⟩
          · rw [hdrawn]; rfl
          · exact List.cons_prefix_cons.2 ⟨rfl, hprefix⟩
          · exact hsame.imp_left fun h => by rw [h]

end Unreliable

end Enumeration

/-! ## All that is asked -/

/-- A call that fails never changes an answer. Consistency, entailment and justification have the
outcome that they have when no call fails, or pass on the error of a call that has failed. What is
drawn from an enumeration is a number of models, the first of those that are drawn when no call fails,
then at most one error; after an error, the end or as many models as were asked for, nothing is drawn
and no call is made. An interruption that is noticed during a call is the outcome of the call, whenever
it is noticed first; otherwise the call is as one that is never interrupted. -/
theorem Reasoner.failures_change_no_answer (r : Reasoner) (failures : Nat → Option SolverError) :
    Weathers failures (r.isConsistent ·) ∧
    (∀ axioms, Weathers failures (r.isEntailed · axioms)) ∧
    Weathers failures (r.justification ·) ∧
    (∀ limit, let e := Enumeration.start r.context r.program r.projection (r.options 1) limit
      ∀ draws n, let drawn := e.nexts (.unreliable failures) draws n
        (∃ (models : List Model) (ending : Option SolverError) (rest : Nat),
          drawn.1.1 = models.map (some ∘ .ok) ++ ending.toList.map (some ∘ .error) ++
            List.replicate rest none ∧
          models.map (some ∘ .ok) <+: (e.nexts .reliable draws n).1.1 ∧
          (drawn.1.1 = (e.nexts .reliable draws n).1.1 ∨
            ∃ i error, failures i = some error ∧ ending = some error)) ∧
        ((∃ item ∈ drawn.1.1, Enumeration.isModel item = false) ∨
            0 < limit ∧ limit ≤ drawn.1.1.countP Enumeration.isModel →
          ∀ further, drawn.1.2.nexts (.unreliable failures) further drawn.2 =
            ((List.replicate further none, drawn.1.2), drawn.2))) ∧
    ∀ program options, ∃ looks, ∀ watch : AnswerSet.Watch,
      AnswerSet.solveWatched program options watch = match watch.first 0 looks with
        | some i => .error (i.toError options)
        | none => AnswerSet.solve program ⟨options.maxModels, none, false⟩ := by
  refine ⟨r.weathers_isConsistent failures, r.weathers_isEntailed failures,
    r.weathers_justification failures, ?_, AnswerSet.exists_solveWatched_eq⟩
  intro limit e draws n drawn
  refine ⟨e.exists_nexts_eq draws n, fun hended further => ?_⟩
  refine Enumeration.nexts_of_isOver ?_ _ further drawn.2
  rcases hended with hitem | ⟨hlimit, hcount⟩
  · exact Enumeration.isOver_nexts hitem
  · obtain ⟨hlimit', hfound⟩ := Enumeration.found_nexts failures e draws n
    have hstart : e.found = 0 ∧ e.limit = limit := ⟨rfl, rfl⟩
    simp only [Enumeration.isOver, drawn, hlimit', hfound, hstart, Nat.zero_add]
    simp [hlimit, hcount, drawn]

end FixedDomain
