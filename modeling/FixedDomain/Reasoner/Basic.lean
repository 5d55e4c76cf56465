import FixedDomain.Grounding.Ontology
import FixedDomain.Grounding.Query
import FixedDomain.Notice
import FixedDomain.Reasoner.Enumeration
import FixedDomain.Reasoner.Settings

/-! # Fixed-domain reasoning

* `Reasoner` — an ontology with its domain and its encoding as a program.
* `isConsistent`, `isEntailed` — whether there is a model, and whether axioms hold in all models.
* `justification` — a minimal set of axioms that is inconsistent by itself.
* `enumerate`, `models` — the models, or their restrictions to some classes.

All of them ask a solver, which is passed to each; an error of the solver is passed on and never
read as an answer.
-/

namespace FixedDomain

/-- A session over one ontology and its fixed domain. A cancelled session makes cancelled calls. -/
structure Reasoner where
  ontology : Ontology
  settings : Settings
  context : Context
  encoding : Encoding
  cancelled : Bool

namespace Reasoner

/-! ## Sessions -/

/-- The encoding of an ontology over a domain, and the context that it leaves. -/
def encode (o : Ontology) (domain : Domain) (scheme : NamingScheme) (strategy : Strategy) :
    Except ReasonerError (Encoding × Context) :=
  match (Grounding.groundOntology o).run (.new domain scheme strategy) with
  | (.ok encoding, context) => .ok (encoding, context)
  | (.error e, _) => .error e

/-- Whether a domain is larger than allowed. -/
def checkSize (domain : Domain) (limit : Option Nat) : Except ReasonerError Unit :=
  match limit with
  | none => .ok ()
  | some limit =>
    if limit < domain.size then .error (.domainTooLarge domain.size limit) else .ok ()

/-- A session over an ontology, whose domain may be listed by a document. The size of the domain
is checked before anything is encoded. -/
def new (o : Ontology) (listed : Option Ontology) (settings : Settings) :
    Except ReasonerError Reasoner := do
  let domain ← Domain.resolve o listed
  checkSize domain settings.maxDomainSize
  let (encoding, context) ← encode o domain settings.naming settings.strategy
  pure { ontology := o, settings, context, encoding, cancelled := false }

/-- The domain of the session. -/
def domain (r : Reasoner) : Domain := r.context.domain

/-- The strategy of the session. -/
def strategy (r : Reasoner) : Strategy := r.context.strategy

/-- The program whose answer sets are the models. -/
def program (r : Reasoner) : Program := r.encoding.complete

/-- The options of a call for so many answer sets. -/
def options (r : Reasoner) (maxModels : Nat) : SolveOptions :=
  ⟨maxModels, r.settings.timeout, r.cancelled⟩

/-! ## Consistency -/

variable {m : Type → Type} [Monad m]

/-- Whether a program has an answer set. -/
def satisfiable (r : Reasoner) (solver : Solver m) (p : Program) : ExceptT ReasonerError m Bool := do
  match ← solver.solve p (r.options 1) with
  | .ok answers => pure !answers.isEmpty
  | .error e => throw (.solver e)

/-- Whether there is a model. -/
def isConsistent (r : Reasoner) (solver : Solver m) : ExceptT ReasonerError m Bool :=
  r.satisfiable solver r.program

/-! ## Entailment -/

/-- The program of the models that violate an axiom. -/
def violationProgram (r : Reasoner) (a : Axiom) : Except ReasonerError Program :=
  match (Grounding.negatedQuery a).run r.context with
  | (.ok fragment, _) => .ok (r.program ++ fragment)
  | (.error e, _) => .error e

/-- Whether every axiom of a list holds in all models. The first that does not settles it. -/
def isEntailed (r : Reasoner) (solver : Solver m) : List Axiom → ExceptT ReasonerError m Bool
  | [] => pure true
  | a :: rest => do
    match r.violationProgram a with
    | .error e => throw e
    | .ok p => if ← r.satisfiable solver p then pure false else r.isEntailed solver rest

/-! ## Justification -/

/-- The encoding in which every rule of an axiom is tagged by it. -/
def taggedEncoding (r : Reasoner) : Except ReasonerError Encoding :=
  if r.strategy = .debug then .ok r.encoding
  else (encode r.ontology r.domain r.settings.naming .debug).map (·.1)

/-- Drops one position after another for good, as long as the rest stays inconsistent. The
positions in `kept` are needed already. -/
def minimize (r : Reasoner) (solver : Solver m) (e : Encoding) (kept : List Nat) :
    List Nat → ExceptT ReasonerError m (List Nat)
  | [] => pure kept
  | k :: rest => do
    if ← r.satisfiable solver (e.withActive (kept ++ rest)) then
      r.minimize solver e (kept ++ [k]) rest
    else r.minimize solver e kept rest

/-- Axioms that are inconsistent by themselves and would not be without any one of them; `none` if
there is a model. -/
def justification (r : Reasoner) (solver : Solver m) :
    ExceptT ReasonerError m (Option (List Axiom)) := do
  match r.taggedEncoding with
  | .error error => throw error
  | .ok e =>
    if ← r.satisfiable solver e.complete then pure none
    else
      let needed ← r.minimize solver e [] e.positions
      pure (some ((e.activations.filter fun entry => entry.1 ∈ needed).map (·.2)))

/-! ## Models -/

/-- The classes that models are restricted to, unless none is named. -/
def projection (r : Reasoner) : Option (SortedSet Iri) :=
  if r.settings.projection.isEmpty then none
  else some (.ofList (r.settings.projection.map Iri.mk))

/-- The notices about projected classes that the ontology does not mention. -/
def projectionNotices (r : Reasoner) : List Notice :=
  match r.projection with
  | none => []
  | some p =>
    (p.toList.filter fun iri => !decide (iri ∈ r.ontology.signature.classes)).map fun iri =>
      .unknownProjection iri.text

/-- An enumeration of up to so many models, or of all if the limit is zero. -/
def enumerate [Reports m] (r : Reasoner) (limit : Nat) : m Enumeration := do
  r.projectionNotices.forM Reports.report
  pure (.start r.context r.program r.projection (r.options 1) limit)

/-- Up to so many models, or all if the limit is zero. -/
def models [Reports m] (r : Reasoner) (solver : Solver m) (limit : Nat) :
    ExceptT ReasonerError m (List Model) := do
  let e ← ExceptT.lift (r.enumerate limit)
  match ← ExceptT.lift (e.drain solver) with
  | (models, none) => pure models
  | (_, some error) => throw (.solver error)

/-! ## Output -/

/-- The ontology with its domain stated by axioms. -/
def axiomatized (r : Reasoner) : Ontology := r.domain.axiomatize r.ontology

end Reasoner

end FixedDomain
