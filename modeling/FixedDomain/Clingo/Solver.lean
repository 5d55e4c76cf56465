import FixedDomain.Clingo.Report
import FixedDomain.Files.Path
import FixedDomain.Program.Printer

/-! # The clingo backend

A solver that asks clingo:

* `Execution` — what a started program does, as far as its caller can tell.
* `Executable` — a program that can be started, as a function of its arguments and its input.
* `Clingo.solver` — the solver. How clingo is started is left to its caller.
-/

namespace FixedDomain

/-! ## Programs of the system -/

/-- How a process ends. -/
inductive ExitStatus where
  | exited (code : Nat)
  | killed
  deriving DecidableEq

/-- The wording for how a process ends. -/
def ExitStatus.render : ExitStatus → String
  | exited code => "exit status: " ++ toString code
  | killed => "signal: 9 (SIGKILL)"

/-- What a started program does: it ends and leaves some output, or it never answers. -/
inductive Execution where
  | ended (how : ExitStatus) (stdout stderr : ByteArray)
  | silent

/-- A program that can be started with some arguments and an input. -/
abbrev Executable := List String → String → Execution

namespace Clingo

/-! ## Calls -/

/-- The arguments that clingo is started with. It takes its own limit in whole seconds, and at
least one. -/
def arguments (extra : List String) (options : SolveOptions) : List String :=
  ["--outf=2", "--models=" ++ toString options.maxModels] ++ extra ++
    match options.timeout with
    | none => []
    | some budget => ["--time-limit=" ++ toString (max budget.seconds 1)]

/-- Why clingo could not be started. -/
def launchError (path : String) : FileError → SolverError
  | .notFound => .unavailable ("clingo executable '" ++ path ++ "' not found")
  | e => .file e

/-- Whether clingo ends in an orderly way. Its codes tell what it found; those from 32 on are
errors. -/
def isOrderly : ExitStatus → Bool
  | .exited code => code < 32
  | .killed => false

/-- The report that a process leaves. -/
def reportOf (options : SolveOptions) : Execution → Except SolverError Report
  | .silent => .error (if options.cancelled then .cancelled else .timeout (options.timeout.getD .zero))
  | .ended how stdout stderr =>
    match String.fromUTF8? stdout, String.fromUTF8? stderr with
    | some stdout, some stderr =>
      if isOrderly how then
        match Report.read stdout with
        | some r => .ok r
        | none => .error (.output "invalid clingo JSON")
      else .error (.crashed how.render (trim stderr))
    | _, _ => .error (.file .invalidText)

/-- What becomes of starting clingo: a path or an argument that holds a NUL is refused beforehand. -/
def start (path : String) (launch : Except FileError Executable) (arguments : List String) :
    Except FileError (String → Execution) :=
  if (path :: arguments).any Path.hasNul then .error .nulInArgument
  else launch.map fun run => run arguments

/-- The report on a program. -/
def report (path : String) (launch : Except FileError Executable) (extra : List String)
    (program : Program) (options : SolveOptions) : Except SolverError Report :=
  match start path launch (arguments extra options) with
  | .error e => .error (launchError path e)
  | .ok run => reportOf options (run program.render)

/-- The solver that asks clingo at a path, which is started in the given way. -/
def solver {m : Type → Type} [Monad m] [Reports m] (path : String)
    (launch : Except FileError Executable) (extra : List String) : Solver m where
  name := "clingo"
  strays := 0
  solve program options := do
    match report path launch extra program options with
    | .error e => pure (.error e)
    | .ok r =>
      match r.answers options.timeout with
      | .error e => pure (.error e)
      | .ok found =>
        (r.notices found).forM Reports.report
        pure (.ok found)

end Clingo

end FixedDomain
