import FixedDomain.AnswerSet.Assignment
import FixedDomain.AnswerSet.Basic
import FixedDomain.AnswerSet.Ground
import FixedDomain.AnswerSet.Propagation
import FixedDomain.AnswerSet.Search
import FixedDomain.AnswerSet.Solver
import FixedDomain.AnswerSet.Stability
import FixedDomain.Catalog
import FixedDomain.Clingo.Report
import FixedDomain.Clingo.Solver
import FixedDomain.Collections.SortedMap
import FixedDomain.Collections.SortedSet
import FixedDomain.CommandLine.Options
import FixedDomain.CommandLine.Reader
import FixedDomain.CommandLine.Run
import FixedDomain.CommandLine.World
import FixedDomain.Domain
import FixedDomain.Duration
import FixedDomain.Files.Buffer
import FixedDomain.Files.Error
import FixedDomain.Files.Path
import FixedDomain.Files.Tree
import FixedDomain.FunctionalSyntax.Reader
import FixedDomain.FunctionalSyntax.Reading
import FixedDomain.FunctionalSyntax.Token
import FixedDomain.Grounding.Axiom
import FixedDomain.Grounding.Context
import FixedDomain.Grounding.Expression
import FixedDomain.Grounding.Ontology
import FixedDomain.Grounding.Query
import FixedDomain.Grounding.Weight
import FixedDomain.Json
import FixedDomain.Main
import FixedDomain.Model
import FixedDomain.Naming
import FixedDomain.Notice
import FixedDomain.Ontology.Axiom
import FixedDomain.Ontology.Basic
import FixedDomain.Ontology.ClassExpression
import FixedDomain.Ontology.Fragments
import FixedDomain.Ontology.Name
import FixedDomain.Ontology.Printer
import FixedDomain.Program.Atom
import FixedDomain.Program.Basic
import FixedDomain.Program.Printer
import FixedDomain.Reasoner.Basic
import FixedDomain.Reasoner.Enumeration
import FixedDomain.Reasoner.Error
import FixedDomain.Reasoner.Settings
import FixedDomain.Reasoner.SettingsFile
import FixedDomain.Strategy
import FixedDomain.Text.Blank
import FixedDomain.Text.Invisible
import FixedDomain.Text.Quoted
import FixedDomain.Text.Scan
import FixedDomain.Text.Separated
import FixedDomain.Toml.Reader
import FixedDomain.Toml.Scalar
import FixedDomain.Toml.Value
import FixedDomain.Proofs.AnswerSet.Constraint
import FixedDomain.Proofs.AnswerSet.Disjunctive
import FixedDomain.Proofs.AnswerSet.Exactness
import FixedDomain.Proofs.AnswerSet.Interruption
import FixedDomain.Proofs.AnswerSet.Numbering
import FixedDomain.Proofs.AnswerSet.Propagation
import FixedDomain.Proofs.AnswerSet.Refinement
import FixedDomain.Proofs.AnswerSet.Search
import FixedDomain.Proofs.AnswerSet.Semantics
import FixedDomain.Proofs.AnswerSet.Stability
import FixedDomain.Proofs.Clingo.Conclusions
import FixedDomain.Proofs.Evaluation
import FixedDomain.Proofs.FunctionalSyntax.Accepted
import FixedDomain.Proofs.FunctionalSyntax.Document
import FixedDomain.Proofs.FunctionalSyntax.Grammar
import FixedDomain.Proofs.FunctionalSyntax.Kept
import FixedDomain.Proofs.FunctionalSyntax.Lexing
import FixedDomain.Proofs.FunctionalSyntax.Printed
import FixedDomain.Proofs.FunctionalSyntax.Rewriting
import FixedDomain.Proofs.FunctionalSyntax.RoundTrip
import FixedDomain.Proofs.FunctionalSyntax.Spelling
import FixedDomain.Proofs.FunctionalSyntax.Tracing
import FixedDomain.Proofs.FunctionalSyntax.Writable
import FixedDomain.Proofs.Grounding.Axiom
import FixedDomain.Proofs.Grounding.Expression
import FixedDomain.Proofs.Grounding.Meaning
import FixedDomain.Proofs.Grounding.Membership
import FixedDomain.Proofs.Grounding.Ontology
import FixedDomain.Proofs.Grounding.Program
import FixedDomain.Proofs.Grounding.Query
import FixedDomain.Proofs.Grounding.Steps
import FixedDomain.Proofs.Grounding.Submodels
import FixedDomain.Proofs.Grounding.Successors
import FixedDomain.Proofs.Interpretation
import FixedDomain.Proofs.Model
import FixedDomain.Proofs.Naming
import FixedDomain.Proofs.Ontology
import FixedDomain.Proofs.Reasoner.Activation
import FixedDomain.Proofs.Reasoner.Adequacy
import FixedDomain.Proofs.Reasoner.Encoding
import FixedDomain.Proofs.Reasoner.Entailment
import FixedDomain.Proofs.Reasoner.Enumeration
import FixedDomain.Proofs.Reasoner.Failure
import FixedDomain.Proofs.Reasoner.Justification
import FixedDomain.Proofs.Reasoner.Submitted
import FixedDomain.Proofs.Closure
import FixedDomain.Proofs.Signature
import FixedDomain.Proofs.Reasoner.Axiomatized
import FixedDomain.Proofs.Catalog
import FixedDomain.Proofs.Symbols
import FixedDomain.Proofs.Grounding.Additions
import FixedDomain.Proofs.Grounding.Emission
import FixedDomain.Proofs.Grounding.Failure
import FixedDomain.Proofs.Grounding.Calls
import FixedDomain.Proofs.AnswerSet.Dependency
import FixedDomain.Proofs.AnswerSet.Order
import FixedDomain.Proofs.AnswerSet.Shifting
import FixedDomain.Proofs.AnswerSet.CountSupport
import FixedDomain.Proofs.AnswerSet.Repetition
import FixedDomain.Proofs.Atom
import FixedDomain.Proofs.Grounding.LineByLine
import FixedDomain.Proofs.FunctionalSyntax.Joining
import FixedDomain.Proofs.Grounding.Needs
import FixedDomain.Proofs.Grounding.Tally
import FixedDomain.Proofs.Grounding.Unfolding
import FixedDomain.Proofs.Grounding.Reuse
import FixedDomain.Proofs.Reasoner.Size
import FixedDomain.Proofs.AnswerSet.Inference
import FixedDomain.Proofs.Grounding.Recursion
import FixedDomain.Proofs.Grounding.Orderly
import FixedDomain.Proofs.Grounding.Stratification
import FixedDomain.Proofs.Grounding.Reading
