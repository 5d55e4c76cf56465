import FixedDomain.Catalog
import FixedDomain.Clingo.Solver
import FixedDomain.CommandLine.Options
import FixedDomain.CommandLine.World
import FixedDomain.Ontology.Fragments
import FixedDomain.Reasoner.Basic

/-! # Running a command line

What a command line asks for, as steps on a world of files:

* `SetupError`, `RunError` — why nothing can be run, and why one ontology fails.
* `Options.run` — scans the directories, loads the documents that the options name, and does with
  each ontology what is asked for. An ontology that fails does not stop the others.
-/

namespace FixedDomain

/-! ## Errors -/

/-- Messages from the outermost to the innermost, in one line. -/
def chained (messages : List String) : String := ": ".intercalate messages

/-- What a loading error says, and what the error under it says. -/
def LoadError.chain (e : LoadError) : List String :=
  e.message :: match e with
    | .file error => [error.message]
    | _ => []

/-- What a solver error says, and what the error under it says. -/
def SolverError.chain (e : SolverError) : List String :=
  e.message :: match e with
    | .file error => [error.message]
    | _ => []

/-- What a reasoning error says, and what the errors under it say. -/
def ReasonerError.chain (e : ReasonerError) : List String :=
  e.message :: match e with
    | .solver error => error.chain
    | .file error => [error.message]
    | _ => []

/-- Why an ontology fails. -/
inductive RunError where
  | load (error : LoadError)
  | reasoner (error : ReasonerError)
  deriving DecidableEq

/-- The wording for why an ontology fails. -/
def RunError.message : RunError → String
  | load e => chained e.chain
  | reasoner e => chained e.chain

/-- Why nothing can be run. -/
inductive SetupError where
  | settings (fault : ConfigurationFault)
  | scan (directory : String) (error : FileError)
  | domain (locator : String) (error : LoadError)
  | entailment (locator : String) (error : LoadError)
  | output (path : String) (error : FileError)
  deriving DecidableEq

/-- The wording for why nothing can be run. -/
def SetupError.message : SetupError → String
  | settings fault => (ReasonerError.configuration fault).message
  | scan directory e =>
    chained (("Failed to scan directory " ++ directory) :: (LoadError.file e).chain)
  | domain locator e => chained (("Failed to load domain ontology " ++ locator) :: e.chain)
  | entailment locator e =>
    chained (("Failed to load entailment ontology " ++ locator) :: e.chain)
  | output path e => chained ["Failed to create " ++ path, e.message]

/-! ## Setting up -/

/-- What a run works with. -/
structure Setup where
  settings : Settings
  catalog : Catalog
  domain : Option Ontology
  entailment : List Axiom
  actions : List Action

namespace Setup

/-- The directory that a locator names, if it names one. -/
def directory? (t : Tree) (locator : String) : Option String :=
  let path := Catalog.pathOf locator
  if t.isDirectory path then some path else none

/-- Scans the directories among some locators. -/
def scanAll (t : Tree) : List String → Catalog → ExceptT SetupError Run Catalog
  | [], c => pure c
  | locator :: rest, c =>
    match directory? t locator with
    | none => scanAll t rest c
    | some directory =>
      match c.scan t directory with
      | .error e => throw (.scan directory e)
      | .ok s => do
        s.notices.forM Reports.report
        scanAll t rest s.catalog

/-- Loads a document that an option names. -/
def loadNamed (c : Catalog) (t : Tree) (fault : String → LoadError → SetupError) :
    Option String → ExceptT SetupError Run (Option Ontology)
  | none => pure none
  | some locator =>
    match c.load t locator with
    | .ok o => pure (some o)
    | .error e => throw (fault locator e)

/-- Creates the file that the output goes to. -/
def openOutput (path : String) : ExceptT SetupError Run Unit := do
  let t ← Run.files
  match t.target path with
  | .error e => throw (.output path e)
  | .ok place =>
    modify fun w => { w with
      files := ⟨t.entries.insert place (.file ByteArray.empty)⟩
      destination := .file place 0 }

/-- Makes everything ready that the options ask for. -/
def ofOptions (o : Options) : ExceptT SetupError Run Setup := do
  let t ← Run.files
  let settings ←
    match o.settings t with
    | .ok s => pure s
    | .error fault => throw (.settings fault)
  let catalog ← scanAll t o.ontologies .empty
  let domain ← loadNamed catalog t .domain o.domain
  let entailment ← loadNamed catalog t .entailment o.entail
  if let some path := o.output then openOutput path
  if o.actions.isEmpty then Reports.report (m := ExceptT SetupError Run) .noAction
  pure ⟨settings, catalog, domain, (entailment.map Ontology.axioms).getD [], o.actions⟩

/-! ## Actions -/

/-- Starting a program from the files of a run: none of them can be executed, and no other program
is known by name. -/
def launch (t : Tree) (path : String) : FileError :=
  if path = "." || path = ".." then .permissionDenied
  else if path.toList.contains '/' then
    match t.find path with
    | .ok _ => .permissionDenied
    | .error e => e
  else if Path.maxNameSize < path.utf8ByteSize then .nameTooLong
  else .notFound

/-- The solver that the settings name. -/
def solver (s : SolverSettings) : Solver Run :=
  match s.backend with
  | .builtin => .builtin Run
  | .clingo =>
    { name := "clingo"
      strays := 0
      solve := fun program options => do
        let t ← Run.files
        (Clingo.solver s.clingoPath (.error (launch t s.clingoPath)) s.arguments).solve
          program options }

/-- Work on one ontology. -/
abbrev Work := ExceptT RunError Run

/-- A part of the work that asks the reasoner. -/
def reasoning {α : Type} (x : ExceptT ReasonerError Run α) : Work α :=
  ExceptT.mk do
    match ← x.run with
    | .ok a => pure (.ok a)
    | .error e => pure (.error (.reasoner e))

/-- Writes the program of an ontology in a strategy, and sends it off. -/
def writeProgram (s : Setup) (r : Reasoner) (strategy : Strategy) : Work Unit := do
  let program ←
    if strategy = r.strategy then pure r.program
    else
      match Reasoner.new r.ontology s.domain { s.settings with strategy } with
      | .ok other => pure other.program
      | .error e => throw (.reasoner e)
  Run.write [program.render]
  Run.flush

/-- Writes some models, the first of which has a number. -/
def writeModels : Nat → List Model → Run Unit
  | _, [] => pure ()
  | k, m :: ms => do
    Run.write (["Model ", toString k, ":\n"] ++ m.fragments)
    writeModels (k + 1) ms

/-- Writes the models of an ontology, up to a limit unless it is zero. Those found before an error
are written, too. -/
def enumerate (s : Setup) (r : Reasoner) (limit : Nat) : Work Unit := do
  let e ← (r.enumerate limit : Run Enumeration)
  let (models, ending) ← (e.drain (solver s.settings.solver) : Run _)
  writeModels 1 models
  match ending with
  | some error =>
    Run.write ["Enumeration stopped after ", toString models.length, " models\n"]
    Run.flush
    throw (.reasoner (.solver error))
  | none =>
    let requested :=
      if limit = 0 then [" models (requested ALL)\n"]
      else [" models (requested ", toString limit, ")\n"]
    Run.write (["Found ", toString models.length] ++ requested)

/-- Does one thing with an ontology. -/
def perform (s : Setup) (r : Reasoner) : Action → Work Unit
  | .translate strategy => s.writeProgram r strategy
  | .entail => do
    let entailed ← reasoning (r.isEntailed (solver s.settings.solver) s.entailment)
    Run.write ["Is entailed? : ", toString entailed, "\n"]
  | .models limit => s.enumerate r limit
  | .consistent => do
    if ← reasoning (r.isConsistent (solver s.settings.solver)) then
      Run.write ["Input ontologies are consistent\n"]
    else Run.write ["Input ontologies are inconsistent\n"]
  | .justification => do
    match ← reasoning (r.justification (solver s.settings.solver)) with
    | none => Run.write ["Input ontologies are consistent, no justification\n"]
    | some axioms =>
      Run.write ["Justification (", toString axioms.length, " axioms):\n"]
      axioms.forM fun a => Run.write (["  "] ++ a.fragments ++ ["\n"])
  | .axiomatize path => do
    match ← (Run.writeFile path r.axiomatized.render : Run _) with
    | .ok () => pure ()
    | .error e => throw (.reasoner (.file e))

/-- Loads one ontology, and does everything with it that is asked for. -/
def process (s : Setup) (locator : String) : Work Unit := do
  let t ← Run.files
  let o ←
    match s.catalog.load t locator with
    | .ok o => pure o
    | .error e => throw (.load e)
  let r ←
    match Reasoner.new o s.domain s.settings with
    | .ok r => pure r
    | .error e => throw (.reasoner e)
  s.actions.forM (s.perform r)
  Run.flush

/-- Processes all ontologies; answers how many have failed. Directories are passed over. -/
def processAll (s : Setup) : List String → Run Nat
  | [] => pure 0
  | locator :: rest => do
    if (directory? (← Run.files) locator).isSome then processAll s rest
    else
      -- what a failed ontology has left in the buffer is sent off later
      match ← (s.process locator).run with
      | .ok () => processAll s rest
      | .error e =>
        Reports.report (.failed locator e.message : Notice)
        return (← processAll s rest) + 1

end Setup

/-- Runs a command line; answers how many ontologies have failed. -/
def Options.run (o : Options) : ExceptT SetupError Run Nat := do
  let s ← Setup.ofOptions o
  let failures ← (s.processAll o.ontologies : Run Nat)
  Run.flush
  pure failures

end FixedDomain
