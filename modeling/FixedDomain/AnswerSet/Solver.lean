import FixedDomain.AnswerSet.Search
import FixedDomain.Duration
import FixedDomain.Files.Error

/-! # Solvers

* `SolverError` — why a solver gives no answer.
* `SolveOptions` — how many answer sets are wanted, within what time, and whether the call has
  been cancelled.
* `Solver m` — a solver whose calls are steps of a monad `m`: it may keep a record of its calls,
  fail at will, or run outside of this program.
* `solve` — the search of this library as a function; `Solver.builtin` makes a solver of it.
-/

namespace FixedDomain

/-! ## Errors -/

/-- Why a solver gives no answer. -/
inductive SolverError where
  | unavailable (reason : String)
  | crashed (status stderr : String)
  | timeout (budget : Duration)
  | cancelled
  | invalidProgram (reason : String)
  | output (reason : String)
  | file (error : FileError)
  deriving DecidableEq

/-- The wording of a solver error. -/
def SolverError.message : SolverError → String
  | unavailable reason => "Solver unavailable: " ++ reason
  | crashed status stderr => "Solver crashed (" ++ status ++ "): " ++ stderr
  | timeout budget => "Solver timed out after " ++ budget.render
  | cancelled => "Solver call cancelled"
  | invalidProgram reason => "Invalid program: " ++ reason
  | output reason => "Unreadable solver output: " ++ reason
  | file error => "I/O error: " ++ error.message

/-! ## Calls -/

/-- What a call asks for. At most `maxModels` answer sets are wanted, or all if it is zero. -/
structure SolveOptions where
  maxModels : Nat
  timeout : Option Duration
  cancelled : Bool
  deriving DecidableEq, Inhabited

/-- A solver whose calls are steps of `m`. `strays` bounds the calls whose answers may contradict
the program; it is zero for a solver that answers correctly. -/
structure Solver (m : Type → Type) where
  name : String
  strays : Nat
  solve : Program → SolveOptions → m (Except SolverError (List AnswerSet))

namespace AnswerSet

/-- The error that an interruption leads to. -/
def Interruption.toError (options : SolveOptions) : Interruption → SolverError
  | cancelled => .cancelled
  | timedOut => .timeout (options.timeout.getD .zero)

/-- The reason for refusing counts inside the conditions of a count. -/
def nestedCounts : SolverError := .invalidProgram "nested aggregates are not supported"

/-- The answer sets of a program, in the order of the search. -/
def solveWatched (program : Program) (options : SolveOptions) (watch : Watch) :
    Except SolverError (List AnswerSet) :=
  match watch 0 with
  | some i => .error (i.toError options)
  | none =>
    if program.rules.any fun r => r.body.any Literal.isNested then .error nestedCounts
    else
      match search (.ofRules program.rules) watch options.maxModels with
      | .ok answers => .ok answers
      | .error i => .error (i.toError options)

/-- What is noticed without a clock: a cancelled call is noticed at once, and so is a budget
without length. A longer budget is not used up. -/
def Watch.ofOptions (options : SolveOptions) : Watch :=
  if options.cancelled then .always .cancelled
  else if options.timeout = some .zero then .always .timedOut
  else .quiet

/-- The answer sets of a program, in the order of the search. -/
def solve (program : Program) (options : SolveOptions) : Except SolverError (List AnswerSet) :=
  solveWatched program options (.ofOptions options)

end AnswerSet

/-- The solver of this library. -/
def Solver.builtin (m : Type → Type) [Monad m] : Solver m where
  name := "builtin"
  strays := 0
  solve program options := pure (AnswerSet.solve program options)

end FixedDomain
