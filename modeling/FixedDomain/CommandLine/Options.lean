import FixedDomain.Reasoner.SettingsFile

/-! # Options of the command line

* `Action` — what can be done with an ontology.
* `Options` — what a command line asks for. The actions stand in the order in which they were
  asked for.
* `Options.settings` — the settings of the sessions: those of a file, where the command line does
  not say otherwise.
-/

namespace FixedDomain

/-- What is done with an ontology. -/
inductive Action where
  | translate (strategy : Strategy)
  | entail
  | models (limit : Nat)
  | consistent
  | justification
  | axiomatize (path : String)
  deriving DecidableEq

/-- What a command line asks for. -/
structure Options where
  verbose : Option Nat
  project : List String
  output : Option String
  entail : Option String
  domain : Option String
  config : Option String
  solver : Option Backend
  timeout : Option Nat
  maxDomain : Option Nat
  ontologies : List String
  actions : List Action
  deriving DecidableEq

namespace Options

/-- The options of a command line that says nothing. -/
def none : Options where
  verbose := .none
  project := []
  output := .none
  entail := .none
  domain := .none
  config := .none
  solver := .none
  timeout := .none
  maxDomain := .none
  ontologies := []
  actions := []

instance : Inhabited Options := ⟨none⟩

/-- Asks for one more action. -/
def request (o : Options) (a : Action) : Options := { o with actions := o.actions ++ [a] }

/-- The strategy of the program that is asked for. -/
def translate (o : Options) : Option Strategy :=
  o.actions.findSome? fun | .translate strategy => some strategy | _ => .none

/-- How many models are asked for. -/
def model (o : Options) : Option Nat :=
  o.actions.findSome? fun | .models limit => some limit | _ => .none

/-- The file that the axiomatized ontology goes to. -/
def axiomatize (o : Options) : Option String :=
  o.actions.findSome? fun | .axiomatize path => some path | _ => .none

/-- How much is reported about the run. -/
def logLevel (o : Options) : String :=
  match o.verbose.getD 0 with
  | 0 => "warn"
  | 1 => "info"
  | 2 => "debug"
  | _ => "trace"

/-- The given settings, where the command line does not say otherwise. -/
def override (o : Options) (s : Settings) : Settings := { s with
  projection := if o.project.isEmpty then s.projection else o.project
  solver := { s.solver with backend := o.solver.getD s.solver.backend }
  timeoutMilliseconds := o.timeout <|> s.timeoutMilliseconds
  maxDomainSize := o.maxDomain <|> s.maxDomainSize }

/-- The settings of the sessions. -/
def settings (o : Options) (t : Tree) : Except ConfigurationFault Settings :=
  match o.config with
  | .none => .ok (o.override .standard)
  | some path => (Settings.load t path).map o.override

end Options

end FixedDomain
