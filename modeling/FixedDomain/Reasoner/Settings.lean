import FixedDomain.Duration
import FixedDomain.Naming
import FixedDomain.Strategy

/-! # Settings of a session

* `Backend` — the solvers to choose from.
* `Settings` — how a session encodes, solves and shows models.
-/

namespace FixedDomain

/-- The solvers to choose from. -/
inductive Backend where
  | builtin
  | clingo
  deriving DecidableEq, Inhabited

namespace Backend

/-- The name of a backend. -/
def render : Backend → String
  | builtin => "builtin"
  | clingo => "clingo"

/-- The backend with a name in lower case. -/
def ofName? : String → Option Backend
  | "builtin" => some builtin
  | "clingo" => some clingo
  | _ => none

theorem ofName?_render (b : Backend) : ofName? b.render = some b := by
  cases b <;> rfl

end Backend

/-- Which solver is used, and how an external one is started. -/
structure SolverSettings where
  backend : Backend
  clingoPath : String
  arguments : List String
  deriving DecidableEq

/-- How a session encodes, solves and shows models. -/
structure Settings where
  strategy : Strategy
  naming : NamingScheme
  timeoutMilliseconds : Option Nat
  maxDomainSize : Option Nat
  projection : List String
  solver : SolverSettings
  deriving DecidableEq

namespace Settings

/-- The settings of a session for which nothing is said. -/
def standard : Settings where
  strategy := .naive
  naming := .plain
  timeoutMilliseconds := none
  maxDomainSize := none
  projection := []
  solver := ⟨.builtin, "clingo", []⟩

instance : Inhabited Settings := ⟨standard⟩

/-- The time that each solver call may take. -/
def timeout (s : Settings) : Option Duration := s.timeoutMilliseconds.map .ofMilliseconds

end Settings

end FixedDomain
