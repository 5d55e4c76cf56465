import FixedDomain.AnswerSet.Solver
import FixedDomain.Ontology.Printer

/-! # Reasoning errors

* `ConfigurationFault` — what is wrong with the settings or the domain of a session.
* `Purpose` — what an unsupported axiom was wanted for.
* `ReasonerError` — why a session cannot be set up or cannot answer.
-/

namespace FixedDomain

/-- What is wrong with the settings or the domain of a session. -/
inductive ConfigurationFault where
  | emptyDomain
  | outsideDomain (individuals : List Individual)
  | notAnElement (individual : Individual)
  | unknownStrategy (name : String)
  | unknownBackend (name : String)
  | unreadableFile (path : String)
  | invalidFile (path : String)
  deriving DecidableEq

/-- The wording of a configuration fault. -/
def ConfigurationFault.message : ConfigurationFault → String
  | emptyDomain => "explicit domain declares no named individuals"
  | outsideDomain is =>
    "individuals outside the explicit domain: " ++ ", ".intercalate (is.map Individual.render)
  | notAnElement i => "individual " ++ i.render ++ " is not a domain element"
  | unknownStrategy name => "unknown translation strategy '" ++ name ++ "'"
  | unknownBackend name => "unknown solver backend '" ++ name ++ "'"
  | unreadableFile path => "cannot read " ++ path
  | invalidFile path => "invalid config " ++ path

/-- What an unsupported axiom was wanted for. -/
inductive Purpose where
  | grounding
  | entailment
  deriving DecidableEq

/-- Why an axiom with a keyword cannot serve a purpose. -/
def Purpose.reason (keyword : String) : Purpose → String
  | grounding => keyword ++ " axioms have no fixed-domain translation"
  | entailment => keyword ++ " axioms cannot be checked for entailment"

/-- Why a session cannot be set up or cannot answer. -/
inductive ReasonerError where
  | configuration (fault : ConfigurationFault)
  | unsupported (keyword source : String) (purpose : Purpose)
  | domainTooLarge (size limit : Nat)
  | solver (error : SolverError)
  | file (error : FileError)
  deriving DecidableEq

/-- The wording of a reasoning error. -/
def ReasonerError.message : ReasonerError → String
  | configuration fault => "Configuration error: " ++ fault.message
  | unsupported keyword source purpose =>
    "Unsupported construct in " ++ source ++ ": " ++ purpose.reason keyword
  | domainTooLarge size limit =>
    "Domain of " ++ toString size ++ " elements exceeds the limit of " ++ toString limit
  | solver error => "Solver error: " ++ error.message
  | file error => "I/O error: " ++ error.message

end FixedDomain
