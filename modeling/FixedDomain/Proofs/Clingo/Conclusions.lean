import Mathlib.Data.List.Forall2
import FixedDomain.Clingo.Solver
import FixedDomain.Proofs.Reasoner.Failure

/-! # What a report of clingo is taken for

A report brings no answer set exactly if it lists no witness and its result says that the search came
to its end (`Report.answers_eq_nil_iff`); a search that was cut short without a witness is an error
(`Report.answers_eq_timeout_iff`). A session that asks clingo calls a program inconsistent after such
reports only (`satisfiable_eq_false_iff`).

The result of such a report need not be that there are no answer sets: one that tells of success
without printing its witnesses is taken for the opposite (`satisfiable_eq_false_of_quiet`).
-/

namespace FixedDomain

/-! ## Lists of results -/

section Lists

variable {α β ε : Type} {f : α → Except ε β} {xs : List α}

theorem mapM_eq_ok_iff {ys : List β} :
    xs.mapM f = .ok ys ↔ List.Forall₂ (fun x y => f x = .ok y) xs ys := by
  induction xs generalizing ys with
  | nil => cases ys <;> simp [pure, Except.pure]
  | cons x xs ih =>
    rw [List.mapM_cons, List.forall₂_cons_left_iff]
    cases hx : f x with
    | error e => exact iff_of_false nofun nofun
    | ok y =>
      simp only [← ih, Except.ok.injEq, exists_and_left, exists_eq_left']
      cases xs.mapM f with
      | error e => exact iff_of_false nofun nofun
      | ok rest => simp [bind, Except.bind, pure, Except.pure, eq_comm]

theorem exists_of_mapM_eq_error {e : ε} (h : xs.mapM f = .error e) : ∃ x ∈ xs, f x = .error e := by
  induction xs with
  | nil => cases h
  | cons x xs ih =>
    rw [List.mapM_cons] at h
    rw [List.exists_mem_cons_iff]
    cases hx : f x with
    | error e' =>
      rw [hx] at h
      cases h
      exact .inl rfl
    | ok y =>
      cases hxs : xs.mapM f with
      | error e' =>
        rw [hx, hxs] at h
        cases h
        exact .inr (ih hxs)
      | ok ys =>
        rw [hx, hxs] at h
        cases h

end Lists

namespace Clingo

/-! ## Reports -/

namespace Report

variable {r : Report} {budget : Option Duration}

theorem exists_output_of_mapM_eq_error {e : SolverError}
    (h : r.witnesses.mapM answerOf = .error e) : ∃ reason, e = .output reason := by
  obtain ⟨w, -, hw⟩ := exists_of_mapM_eq_error h
  unfold answerOf at hw
  split at hw
  · cases hw
  · cases hw
    exact ⟨_, rfl⟩

theorem answers_of_concluded (h : r.result ∈ conclusions) :
    r.answers budget = r.witnesses.mapM answerOf := by
  unfold answers
  cases r.witnesses.mapM answerOf with
  | error e => rfl
  | ok found => exact if_pos h

/-- A search that was cut short brings what it found, if it found something. -/
theorem answers_of_unknown (h : r.result = "UNKNOWN") :
    r.answers budget = if r.witnesses = [] then .error (.timeout (budget.getD .zero))
      else r.witnesses.mapM answerOf := by
  have hout : r.result ∉ conclusions := by simp [h, conclusions]
  unfold answers
  cases hfound : r.witnesses.mapM answerOf with
  | error e =>
    have hne : r.witnesses ≠ [] := by
      rintro heq
      rw [heq] at hfound
      cases hfound
    exact (if_neg hne).symm
  | ok found =>
    refine (if_neg hout).trans ((if_pos h).trans ?_)
    have hforall := mapM_eq_ok_iff.1 hfound
    generalize r.witnesses = ws at hforall
    cases hforall with
    | nil => rfl
    | cons hw hws => rfl

theorem answers_of_unexpected (h : r.result ∉ conclusions) (hunknown : r.result ≠ "UNKNOWN")
    (budget : Option Duration) : ∃ reason, r.answers budget = .error (.output reason) := by
  unfold answers
  cases hfound : r.witnesses.mapM answerOf with
  | error e =>
    obtain ⟨reason, rfl⟩ := exists_output_of_mapM_eq_error hfound
    exact ⟨reason, rfl⟩
  | ok found => exact ⟨_, (if_neg h).trans (if_neg hunknown)⟩

theorem mapM_answerOf_eq_nil_iff : r.witnesses.mapM answerOf = .ok [] ↔ r.witnesses = [] := by
  rw [mapM_eq_ok_iff, List.forall₂_nil_right_iff]

theorem answers_eq_nil_iff :
    r.answers budget = .ok [] ↔ r.witnesses = [] ∧ r.result ∈ conclusions := by
  by_cases hresult : r.result ∈ conclusions
  · rw [answers_of_concluded hresult, mapM_answerOf_eq_nil_iff, and_iff_left hresult]
  · refine iff_of_false (fun h => ?_) fun h => hresult h.2
    by_cases hunknown : r.result = "UNKNOWN"
    · rw [answers_of_unknown hunknown] at h
      split at h
      · cases h
      · next hne => exact hne (mapM_answerOf_eq_nil_iff.1 h)
    · obtain ⟨reason, heq⟩ := answers_of_unexpected hresult hunknown budget
      rw [heq] at h
      cases h

/-- The time is up exactly if the search was cut short before it listed a witness. -/
theorem answers_eq_timeout_iff {t : Duration} : r.answers budget = .error (.timeout t) ↔
    r.witnesses = [] ∧ r.result = "UNKNOWN" ∧ t = budget.getD .zero := by
  have hwitnesses : r.witnesses.mapM answerOf ≠ .error (.timeout t) := by
    intro h
    obtain ⟨reason, heq⟩ := exists_output_of_mapM_eq_error h
    cases heq
  by_cases hunknown : r.result = "UNKNOWN"
  · rw [answers_of_unknown hunknown]
    split
    · next hnil => simp [hnil, hunknown, eq_comm]
    · next hne => exact iff_of_false hwitnesses fun h => hne h.1
  · refine iff_of_false (fun h => ?_) fun h => hunknown h.2.1
    by_cases hresult : r.result ∈ conclusions
    · exact hwitnesses (answers_of_concluded hresult ▸ h)
    · obtain ⟨reason, heq⟩ := answers_of_unexpected hresult hunknown budget
      rw [heq] at h
      cases h

end Report

/-! ## Sessions -/

/-- What the solver answers depends on the report only. -/
theorem solve_fst (path : String) (launch : Except FileError Executable) (extra : List String)
    (p : Program) (options : SolveOptions) (notices : Array Notice) :
    ((solver (m := StateM (Array Notice)) path launch extra).solve p options notices).1 =
      (report path launch extra p options).bind fun r => r.answers options.timeout := by
  simp only [solver]
  cases report path launch extra p options with
  | error e => rfl
  | ok r =>
    dsimp only [Except.bind]
    cases r.answers options.timeout with
    | error e => rfl
    | ok found => rfl

/-- A session takes a program for inconsistent exactly if its solver answers with an empty list. -/
theorem satisfiable_eq_false_iff_solve (s : Reasoner) {σ : Type} (backend : Solver (StateM σ))
    (p : Program) (k : σ) : ((s.satisfiable backend p).run k).1 = .ok false ↔
      (backend.solve p (s.options 1) k).1 = .ok [] := by
  rw [s.run_satisfiable]
  rcases backend.solve p (s.options 1) k with ⟨_ | _ | _, k'⟩
  · exact iff_of_false nofun nofun
  · exact iff_of_true rfl rfl
  · exact iff_of_false nofun nofun

/-- An empty answer stands for the result that there are no answer sets, provided that reports of
success list a witness. -/
theorem answers_eq_nil_imp_iff {r : Report} {budget : Option Duration} :
    (r.answers budget = .ok [] → r.result = "UNSATISFIABLE") ↔
      (r.result = "SATISFIABLE" ∨ r.result = "OPTIMUM FOUND" → r.witnesses ≠ []) := by
  rw [Report.answers_eq_nil_iff]
  have hconclusions : r.result ∈ Report.conclusions ↔ r.result = "UNSATISFIABLE" ∨
      (r.result = "SATISFIABLE" ∨ r.result = "OPTIMUM FOUND") := by
    simp [Report.conclusions, or_left_comm]
  rw [hconclusions]
  constructor
  · intro h hsuccess hnone
    rw [h ⟨hnone, .inr hsuccess⟩] at hsuccess
    exact absurd hsuccess (by decide)
  · rintro h ⟨hnone, hresult | hsuccess⟩
    · exact hresult
    · exact absurd hnone (h hsuccess)

/-- A session takes a program for inconsistent exactly if clingo leaves a report that lists no witness
and tells of a search that came to its end. Such reports bring no answer set, whatever time was allowed,
and no others do; they all say that there are no answer sets, provided that reports of success list a
witness. If the search was cut short without a witness, the time is up. -/
theorem satisfiable_eq_false_iff (s : Reasoner) (path : String)
    (launch : Except FileError Executable) (extra : List String) (p : Program)
    (notices : Array Notice) :
    (((s.satisfiable (m := StateM (Array Notice)) (solver path launch extra) p).run notices).1 =
        .ok false ↔
      ∃ r, report path launch extra p (s.options 1) = .ok r ∧ r.witnesses = [] ∧
        r.result ∈ Report.conclusions) ∧
    ∀ (r : Report) (budget : Option Duration),
      (r.answers budget = .ok [] ↔ r.witnesses = [] ∧ r.result ∈ Report.conclusions) ∧
      ((r.answers budget = .ok [] → r.result = "UNSATISFIABLE") ↔
        (r.result = "SATISFIABLE" ∨ r.result = "OPTIMUM FOUND" → r.witnesses ≠ [])) ∧
      ∀ t, r.answers budget = .error (.timeout t) ↔
        r.witnesses = [] ∧ r.result = "UNKNOWN" ∧ t = budget.getD .zero := by
  refine ⟨?_, fun r budget => ⟨Report.answers_eq_nil_iff, answers_eq_nil_imp_iff,
    fun t => Report.answers_eq_timeout_iff⟩⟩
  rw [satisfiable_eq_false_iff_solve, solve_fst]
  cases report path launch extra p (s.options 1) with
  | error e => exact iff_of_false nofun nofun
  | ok r =>
    rw [Except.bind, Report.answers_eq_nil_iff]
    exact ⟨fun h => ⟨r, rfl, h⟩, fun ⟨_, heq, h⟩ => Except.ok.inj heq ▸ h⟩

/-- What clingo writes about a program that has an answer set when it is told to keep quiet. -/
def quietText : String := "\x7b\"Call\": [\x7b\x7d], \"Result\": \"SATISFIABLE\"\x7d"

/-- A report that tells of an answer set without printing it brings none, and a session without a time
limit takes the program for inconsistent. -/
theorem satisfiable_eq_false_of_quiet :
    (∃ r, Report.read quietText = some r ∧ r.result = "SATISFIABLE" ∧
      r.answers none = .ok []) ∧
    ∀ s : Reasoner, s.settings.timeoutMilliseconds = none → ∀ (p : Program) (notices : Array Notice),
      ((s.satisfiable (m := StateM (Array Notice)) (solver "clingo"
        (.ok fun _ _ => .ended (.exited 10) quietText.toUTF8 .empty) ["--quiet=2"]) p).run
          notices).1 = .ok false := by
  have hread : Report.read quietText = some ⟨"SATISFIABLE", [⟨[]⟩]⟩ := by decide +kernel
  refine ⟨⟨_, hread, rfl, rfl⟩, fun s htime p notices => ?_⟩
  have hprinted : reportOf ⟨1, none, s.cancelled⟩ (.ended (.exited 10) quietText.toUTF8 .empty) =
      .ok ⟨"SATISFIABLE", [⟨[]⟩]⟩ := by
    have hstdout : String.fromUTF8? quietText.toUTF8 = some quietText := by decide +kernel
    have hstderr : String.fromUTF8? .empty = some "" := by decide +kernel
    rw [reportOf, hstdout, hstderr]
    dsimp only
    rw [hread]
    rfl
  have hoptions : s.options 1 = ⟨1, none, s.cancelled⟩ := by
    simp [Reasoner.options, Settings.timeout, htime]
  have harguments : ∀ cancelled : Bool,
      ("clingo" :: arguments ["--quiet=2"] ⟨1, none, cancelled⟩).any Path.hasNul = false := by
    decide +kernel
  have hreport : report "clingo" (.ok fun _ _ => .ended (.exited 10) quietText.toUTF8 .empty)
      ["--quiet=2"] p (s.options 1) = .ok ⟨"SATISFIABLE", [⟨[]⟩]⟩ := by
    rw [hoptions, report, start, harguments]
    exact hprinted
  rw [satisfiable_eq_false_iff_solve, solve_fst, hreport]
  rfl

end Clingo

end FixedDomain
