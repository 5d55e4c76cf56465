import FixedDomain.FunctionalSyntax.Reading
import FixedDomain.Ontology.Printer

/-! # Reading ontologies

The grammar of the functional syntax, read by recursive descent:

* `Namespaces` — the short names in force, and `expand`, which resolves a short IRI.
* `classExpression`, `role`, `individual` — the expressions.
* `statement` — one axiom. If it contains a construct outside the supported language, it is kept
  whole, as its source text.
* `readOntology` — a whole document.

Nested and repeated parts are read under a bound on the number of steps; every step consumes a
token, so the number of tokens, which `readOntology` supplies, is never exceeded.
-/

namespace FixedDomain.FunctionalSyntax

/-! ## Short names -/

/-- The namespaces that short names stand for: those that the document declares, before those
that every document knows. -/
structure Namespaces where
  declared : SortedMap String String

namespace Namespaces

/-- The short names known without a declaration. -/
def predefined : List (String × String) :=
  [("owl", owlNamespace),
    ("rdf", "http://www.w3.org/1999/02/22-rdf-syntax-ns#"),
    ("rdfs", "http://www.w3.org/2000/01/rdf-schema#"),
    ("xsd", "http://www.w3.org/2001/XMLSchema#")]

/-- The namespace of a short name. -/
def find? (ns : Namespaces) (name : String) : Option String :=
  (ns.declared.find? name).or (predefined.lookup name)

end Namespaces

/-- The half of a short IRI before its colon, and the half after it. -/
def splitName (name : String) : String × String :=
  let cs := name.toList
  (String.ofList (cs.takeWhile (· != ':')), String.ofList ((cs.dropWhile (· != ':')).drop 1))

/-- The IRI that a short IRI stands for. Anonymous individuals stay as they are written. -/
def expand (ns : Namespaces) (name : String) : Reading Iri :=
  let (first, second) := splitName name
  if first = "_" then pure ⟨name⟩
  else
    match ns.find? first with
    | some space => pure ⟨space ++ second⟩
    | none => fault (.unknownPrefix first)

/-! ## Names -/

/-- An IRI, if one comes next. -/
def iri? (ns : Namespaces) : Reading (Option Iri) := do
  match ← peek with
  | some (.fullIri text) =>
    skip
    pure (some ⟨text⟩)
  | some (.prefixedName name) =>
    let iri ← expand ns name
    skip
    pure (some iri)
  | _ => pure none

/-- An IRI, which has to come next; if none does, the given fault is raised. -/
def iriOr (missing : SyntaxFault) (ns : Namespaces) : Reading Iri := do
  match ← iri? ns with
  | some iri => pure iri
  | none => fault missing

/-- An IRI. -/
def iri : Namespaces → Reading Iri := iriOr .expectedIri

/-- An individual. -/
def individual (ns : Namespaces) : Reading Individual := do
  pure ⟨← iriOr .expectedIndividual ns⟩

/-- Items up to the closing parenthesis, which stays. -/
def untilClosed {α : Type} (item : Reading α) : Nat → Reading (List α)
  | 0 => fault .unexpectedEnd
  | steps + 1 => do
    if (← peek) = some .rightParen then pure []
    else
      let x ← item
      let xs ← untilClosed item steps
      pure (x :: xs)

/-- A list that has to have a least number of items. -/
def checkCount {α : Type} (least : Nat) (tooFew : Nat → SyntaxFault) (items : List α) :
    Reading (List α) :=
  if items.length < least then fault (tooFew least) else pure items

/-- At least so many individuals. -/
def individuals (ns : Namespaces) (steps least : Nat) : Reading (List Individual) := do
  checkCount least .tooFewIndividuals (← untilClosed (individual ns) steps)

/-! ## Roles -/

/-- An object property expression; inverses may be nested and cancel in pairs. -/
def role (ns : Namespaces) : Nat → Reading Role
  | 0 => fault .unexpectedEnd
  | steps + 1 => do
    match ← iri? ns with
    | some iri => pure (.named iri)
    | none =>
      match ← peek with
      | some (.keyword "ObjectInverseOf") =>
        skip
        expect .leftParen
        let inner ← role ns steps
        expect .rightParen
        pure inner.inverse
      | some (.keyword other) => unsupported other
      | _ => fault .expectedPropertyExpression

/-- At least so many object property expressions. -/
def roles (ns : Namespaces) (steps least : Nat) : Reading (List Role) := do
  checkCount least .tooFewPropertyExpressions (← untilClosed (role ns steps) steps)

/-! ## Class expressions -/

/-- The number that a run of digits stands for. -/
def decimal (digits : String) : Nat :=
  digits.toList.foldl (fun n c => 10 * n + (c.toNat - '0'.toNat)) 0

/-- The number in a counting restriction. -/
def cardinality : Reading UInt32 := do
  match ← peek with
  | some (.integer digits) =>
    let n := decimal digits
    if n < UInt32.size then
      skip
      pure (UInt32.ofNat n)
    else fault (.cardinalityOutOfRange digits)
  | _ => fault .expectedCardinality

mutual

/-- A class expression. -/
def classExpression (ns : Namespaces) : Nat → Reading ClassExpression
  | 0 => fault .unexpectedEnd
  | steps + 1 => do
    match ← iri? ns with
    | some iri => pure (.ofIri iri)
    | none =>
      match ← peek with
      | some (.keyword kind) =>
        skip
        expect .leftParen
        let expression ← construct ns kind steps
        expect .rightParen
        pure expression
      | _ => fault .expectedClassExpression

/-- What stands between the parentheses of a compound class expression. -/
def construct (ns : Namespaces) (kind : String) : Nat → Reading ClassExpression
  | 0 => fault .unexpectedEnd
  | steps + 1 =>
    match kind with
    | "ObjectIntersectionOf" => return .intersectionOf (← classExpressions ns 2 steps)
    | "ObjectUnionOf" => return .unionOf (← classExpressions ns 2 steps)
    | "ObjectComplementOf" => return .complementOf (← classExpression ns steps)
    | "ObjectOneOf" => return .oneOf (← individuals ns steps 1)
    | "ObjectSomeValuesFrom" =>
      return .someValuesFrom (← role ns steps) (← classExpression ns steps)
    | "ObjectAllValuesFrom" =>
      return .allValuesFrom (← role ns steps) (← classExpression ns steps)
    | "ObjectHasValue" => return .hasValue (← role ns steps) (← individual ns)
    | "ObjectHasSelf" => return .hasSelf (← role ns steps)
    | "ObjectMinCardinality" =>
      return .minCardinality (← cardinality) (← role ns steps) (← filler ns steps)
    | "ObjectMaxCardinality" =>
      return .maxCardinality (← cardinality) (← role ns steps) (← filler ns steps)
    | "ObjectExactCardinality" =>
      return .exactCardinality (← cardinality) (← role ns steps) (← filler ns steps)
    | other => unsupported other

/-- The filler of a counting restriction, which may be left out. -/
def filler (ns : Namespaces) : Nat → Reading (Option ClassExpression)
  | 0 => fault .unexpectedEnd
  | steps + 1 => do
    if (← peek) = some .rightParen then pure none
    else return some (← classExpression ns steps)

/-- Class expressions up to the closing parenthesis, of which there have to be at least so
many. -/
def classExpressions (ns : Namespaces) (least : Nat) : Nat → Reading (List ClassExpression)
  | 0 => fault .unexpectedEnd
  | steps + 1 => do
    checkCount least .tooFewClassExpressions (← classExpressionsUntilClosed ns steps)

/-- Class expressions up to the closing parenthesis. -/
def classExpressionsUntilClosed (ns : Namespaces) : Nat → Reading (List ClassExpression)
  | 0 => fault .unexpectedEnd
  | steps + 1 => do
    if (← peek) = some .rightParen then pure []
    else
      let c ← classExpression ns steps
      let cs ← classExpressionsUntilClosed ns steps
      pure (c :: cs)

end

/-! ## Statements -/

/-- Annotations at the front of a statement are passed over. -/
def skipAnnotations : Nat → Reading Unit
  | 0 => pure ()
  | steps + 1 => do
    if (← peek) = some (.keyword "Annotation") then
      skip
      let _ ← skipGroup
      skipAnnotations steps

/-- A declaration after its opening parenthesis, up to the end of the statement. Declarations of
datatypes, data properties and annotation properties say nothing that is kept. -/
def declaration (ns : Namespaces) : Reading (Option Axiom) := do
  match ← next with
  | .keyword kind =>
    expect .leftParen
    let iri ← iri ns
    expect .rightParen
    expect .rightParen
    match kind with
    | "Class" => pure (some (.declaration (.atomicClass iri)))
    | "ObjectProperty" => pure (some (.declaration (.objectProperty iri)))
    | "NamedIndividual" => pure (some (.declaration (.individual iri)))
    | "DataProperty" | "AnnotationProperty" | "Datatype" => pure none
    | other => fault (.unknownEntityKind other)
  | _ => fault .expectedEntityKind

/-- The arguments of an axiom of the given kind. -/
def axiomArguments (ns : Namespaces) (steps : Nat) (kind : String) : Reading Axiom :=
  let role := role ns steps
  let classExpression := classExpression ns steps
  match kind with
  | "SubClassOf" => return .subClassOf (← classExpression) (← classExpression)
  | "EquivalentClasses" => return .equivalentClasses (← classExpressions ns 2 steps)
  | "DisjointClasses" => return .disjointClasses (← classExpressions ns 2 steps)
  | "DisjointUnion" => return .disjointUnion (← iri ns) (← classExpressions ns 2 steps)
  | "SubObjectPropertyOf" => return .subObjectPropertyOf (← role) (← role)
  | "EquivalentObjectProperties" => return .equivalentObjectProperties (← roles ns steps 2)
  | "DisjointObjectProperties" => return .disjointObjectProperties (← roles ns steps 2)
  | "InverseObjectProperties" => return .inverseObjectProperties (← role) (← role)
  | "ObjectPropertyDomain" => return .objectPropertyDomain (← role) (← classExpression)
  | "ObjectPropertyRange" => return .objectPropertyRange (← role) (← classExpression)
  | "FunctionalObjectProperty" => return .functionalObjectProperty (← role)
  | "InverseFunctionalObjectProperty" => return .inverseFunctionalObjectProperty (← role)
  | "ReflexiveObjectProperty" => return .reflexiveObjectProperty (← role)
  | "IrreflexiveObjectProperty" => return .irreflexiveObjectProperty (← role)
  | "SymmetricObjectProperty" => return .symmetricObjectProperty (← role)
  | "AsymmetricObjectProperty" => return .asymmetricObjectProperty (← role)
  | "TransitiveObjectProperty" => return .transitiveObjectProperty (← role)
  | "SameIndividual" => return .sameIndividual (← individuals ns steps 2)
  | "DifferentIndividuals" => return .differentIndividuals (← individuals ns steps 2)
  | "ClassAssertion" => return .classAssertion (← classExpression) (← individual ns)
  | "ObjectPropertyAssertion" =>
    return .objectPropertyAssertion (← role) (← individual ns) (← individual ns)
  | "NegativeObjectPropertyAssertion" =>
    return .negativeObjectPropertyAssertion (← role) (← individual ns) (← individual ns)
  | other => unsupported other

/-- The keywords of statements about annotations, which have no logical content. -/
def annotationAxioms : List String :=
  ["AnnotationAssertion", "SubAnnotationPropertyOf", "AnnotationPropertyDomain",
    "AnnotationPropertyRange"]

/-- A statement after its keyword. -/
def statementBody (ns : Namespaces) (steps : Nat) (kind : String) : Reading (Option Axiom) := do
  expect .leftParen
  skipAnnotations steps
  if kind = "Declaration" then declaration ns
  else if kind ∈ annotationAxioms then
    let _ ← skipRest 1 .start
    pure none
  else
    let result ← axiomArguments ns steps kind
    expect .rightParen
    pure (some result)

/-- The characters of a text between two places. -/
def slice (text : List Char) (start stop : Place) : String :=
  String.ofList ((text.drop start.offset).take (stop.offset - start.offset))

/-- A statement whose keyword, which begins at `start`, has been read. One that contains an
unsupported construct is passed over as a group and kept as its source text. -/
def statement (text : List Char) (ns : Namespaces) (steps : Nat) (start : Place) (kind : String) :
    Reading (Option Axiom) := fun left =>
  match statementBody ns steps kind left with
  | .error (.unsupported _) =>
    -- the group is read again from its opening parenthesis
    match skipGroup left with
    | .error e => .error e
    | .ok (stop, rest) => .ok (some (.unsupported kind (slice text start stop)), rest)
  | result => result

/-! ## Documents -/

/-- A declaration of a short name after its keyword. -/
def namespaceDeclaration : Reading (String × String) := do
  expect .leftParen
  match ← next with
  | .prefixedName name =>
    let (first, second) := splitName name
    if second = "" then
      expect .equals
      match ← next with
      | .fullIri space =>
        expect .rightParen
        pure (first, space)
      | _ => fault .expectedFullIri
    else fault .expectedPrefixName
  | _ => fault .expectedPrefixName

/-- The declarations of short names, up to the keyword that opens the ontology. -/
def header : Nat → SortedMap String String → Reading (SortedMap String String)
  | 0, _ => fault .unexpectedEnd
  | steps + 1, declared => do
    match ← peek with
    | some (.keyword "Prefix") =>
      skip
      let (name, space) ← namespaceDeclaration
      header steps (declared.insert name space)
    | some (.keyword "Ontology") =>
      skip
      pure declared
    | some _ => fault .expectedHeader
    | none => fault .emptyDocument

/-- The parts of an ontology up to its closing parenthesis, added to what has been read. -/
def parts (text : List Char) (ns : Namespaces) : Nat → Ontology → Reading Ontology
  | 0, _ => fault .unexpectedEnd
  | steps + 1, o => do
    match (← get).head? with
    | none => fault .unterminatedOntology
    | some t =>
      match t.token with
      | .rightParen =>
        skip
        pure o
      | .keyword "Import" =>
        skip
        expect .leftParen
        let imported ← iri ns
        expect .rightParen
        parts text ns steps { o with imports := o.imports ++ [imported] }
      | .keyword "Annotation" =>
        skip
        let _ ← skipGroup
        parts text ns steps o
      | .keyword kind =>
        skip
        match ← statement text ns steps t.start kind with
        | some a => parts text ns steps (o.add a)
        | none => parts text ns steps o
      | other => fault (.expectedAxiom other)

/-- A whole document. -/
def document (text : List Char) (steps : Nat) : Reading Ontology := do
  let declared ← header steps .empty
  let ns : Namespaces := ⟨declared⟩
  expect .leftParen
  let name ← iri? ns
  if name.isSome then
    let _version ← iri? ns
  let o ← parts text ns steps { Ontology.empty with iri := name, prefixes := declared }
  match ← peek with
  | none => pure o
  | some _ => fault .trailingContent

/-- A fault with the line it stands on. -/
structure SyntaxError where
  line : Nat
  fault : SyntaxFault
  deriving DecidableEq

/-- The wording of a fault with its line. -/
def SyntaxError.message (e : SyntaxError) : String :=
  "Parse error at line " ++ toString e.line ++ ": " ++ e.fault.message

/-- The line that a fault stands on: that of the next token, or the last line of the text. -/
def faultLine (text : List Char) : List Located → Nat
  | [] => (Place.start.after text).line
  | t :: _ => t.start.line

/-- The ontology that a document describes. A stray character anywhere is reported before any
other fault. -/
def readOntology (document : String) : Except SyntaxError Ontology :=
  let text := document.toList
  match tokenize text with
  | .error (place, stuck) => .error ⟨place.line, .strayCharacters (String.ofList stuck)⟩
  | .ok tokens =>
    match FunctionalSyntax.document text (3 * tokens.length + 4) tokens with
    | .ok (o, _) => .ok o
    | .error (.malformed left f) => .error ⟨faultLine text left, f⟩
    | .error (.unsupported construct) =>
      .error ⟨faultLine text [], .unsupportedOutsideAxiom construct⟩

end FixedDomain.FunctionalSyntax
