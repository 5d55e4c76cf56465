import FixedDomain.FunctionalSyntax.Token

/-! # Reading token by token

* `SyntaxFault` — why a document cannot be read, with the `message` for each cause.
* `Failure` — how a reading step fails: with a fault at a place, or because it met a construct
  outside the supported language.
* `Reading` — steps that consume tokens, and the elementary ones among them.
-/

namespace FixedDomain.FunctionalSyntax

/-! ## Faults -/

/-- Why a document cannot be read. -/
inductive SyntaxFault where
  | strayCharacters (stuck : String)
  | expectedToken (expected : Token) (found : Option Token)
  | unexpectedEnd
  | emptyDocument
  | expectedHeader
  | expectedAxiom (found : Token)
  | unterminatedOntology
  | trailingContent
  | expectedPrefixName
  | expectedFullIri
  | expectedIri
  | unknownPrefix (name : String)
  | expectedEntityKind
  | unknownEntityKind (kind : String)
  | expectedClassExpression
  | expectedPropertyExpression
  | expectedIndividual
  | expectedCardinality
  | cardinalityOutOfRange (digits : String)
  | tooFewClassExpressions (least : Nat)
  | tooFewPropertyExpressions (least : Nat)
  | tooFewIndividuals (least : Nat)
  | unsupportedOutsideAxiom (construct : String)
  deriving DecidableEq

/-- The wording of a fault. -/
def SyntaxFault.message : SyntaxFault → String
  | strayCharacters stuck => "unexpected character sequence '" ++ stuck ++ "'"
  | expectedToken expected (some found) =>
    "expected " ++ expected.display ++ ", found " ++ found.display
  | expectedToken expected none => "expected " ++ expected.display ++ ", found end of input"
  | unexpectedEnd => "unexpected end of input"
  | emptyDocument => "empty document"
  | expectedHeader => "expected Prefix or Ontology"
  | expectedAxiom found => "expected axiom, found " ++ found.display
  | unterminatedOntology => "unterminated Ontology"
  | trailingContent => "trailing content after Ontology"
  | expectedPrefixName => "expected prefix name"
  | expectedFullIri => "expected full IRI"
  | expectedIri => "expected IRI"
  | unknownPrefix name => "unknown prefix '" ++ name ++ ":'"
  | expectedEntityKind => "expected entity kind"
  | unknownEntityKind kind => "unknown entity kind '" ++ kind ++ "'"
  | expectedClassExpression => "expected class expression"
  | expectedPropertyExpression => "expected object property expression"
  | expectedIndividual => "expected individual"
  | expectedCardinality => "expected cardinality"
  | cardinalityOutOfRange digits => "cardinality " ++ digits ++ " out of range"
  | tooFewClassExpressions least => "expected at least " ++ toString least ++ " class expressions"
  | tooFewPropertyExpressions least =>
    "expected at least " ++ toString least ++ " property expressions"
  | tooFewIndividuals least => "expected at least " ++ toString least ++ " individuals"
  | unsupportedOutsideAxiom construct =>
    "unsupported construct '" ++ construct ++ "' outside of an axiom"

/-! ## Steps -/

/-- How a reading step fails. A fault stands where the tokens that are left begin. -/
inductive Failure where
  | malformed (left : List Located) (fault : SyntaxFault)
  | unsupported (construct : String)

/-- A step that consumes tokens from the front of those that are left. -/
abbrev Reading := StateT (List Located) (Except Failure)

/-- Fails at the next token. -/
def fault {α : Type} (f : SyntaxFault) : Reading α := fun left => .error (.malformed left f)

/-- Gives up on a construct outside the supported language. -/
def unsupported {α : Type} (construct : String) : Reading α :=
  fun _ => .error (.unsupported construct)

/-- The next token, which stays where it is. -/
def peek : Reading (Option Token) := fun left => .ok (left.head?.map Located.token, left)

/-- Passes over the next token. -/
def skip : Reading Unit := fun left => .ok ((), left.tail)

/-- Takes the next token; there has to be one. -/
def next : Reading Token
  | [] => .error (.malformed [] .unexpectedEnd)
  | t :: left => .ok (t.token, left)

/-- Takes the next token, which has to be the given one. -/
def expect (token : Token) : Reading Unit
  | [] => .error (.malformed [] (.expectedToken token none))
  | t :: left =>
    if t.token = token then .ok ((), left)
    else .error (.malformed (t :: left) (.expectedToken token (some t.token)))

/-- Passes over the rest of some nested groups, given how many are open, and answers where the
last of them ends. -/
def skipRest : Nat → Place → Reading Place
  | 0, stop, left => .ok (stop, left)
  | _ + 1, _, [] => .error (.malformed [] .unexpectedEnd)
  | depth + 1, _, t :: left =>
    match t.token with
    | .leftParen => skipRest (depth + 2) t.stop left
    | .rightParen => skipRest depth t.stop left
    | _ => skipRest (depth + 1) t.stop left

/-- Passes over a group in parentheses and answers where it ends. -/
def skipGroup : Reading Place := do
  expect .leftParen
  skipRest 1 .start

end FixedDomain.FunctionalSyntax
