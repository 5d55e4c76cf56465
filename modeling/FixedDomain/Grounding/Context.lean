import FixedDomain.Domain
import FixedDomain.Naming
import FixedDomain.Program.Printer
import FixedDomain.Strategy

/-! # Grounding contexts

What is known while axioms are turned into rules over a fixed domain:

* `Element` — a domain element with its constant in the program.
* `Context` — the symbols of classes and object properties met so far, the class expressions that
  have an auxiliary predicate, and the rules that wait to be put into a program (`pending`).
* `Grounding` — steps that read and extend a context and may fail. What a step has entered into the
  context stays there when it fails; what it has put into a program is lost with the program.

A class or property is made total when it is first met: for each element, or pair of elements, one
of the atom and its opposite has to hold.
-/

namespace FixedDomain

/-! ## Contexts -/

/-- A domain element and its constant. -/
structure Element where
  individual : Individual
  constant : String
  deriving DecidableEq, Inhabited

/-- The state of an encoding. The k-th expression of `definitions` has the k-th auxiliary
predicate. -/
structure Context where
  domain : Domain
  strategy : Strategy
  naming : Naming
  elements : List Element
  classes : SortedMap Iri String
  properties : SortedMap Iri String
  definitions : List ClassExpression
  queryCount : Nat
  pending : Program

namespace Context

/-- The domain elements with their constants, and the table in which they have them. -/
def nameElements (n : Naming) : List Individual → List Element × Naming
  | [] => ([], n)
  | i :: is =>
    let (constant, n) := n.symbol (.individual i.iri)
    let (elements, n) := nameElements n is
    (⟨i, constant⟩ :: elements, n)

/-- The context in which only the domain elements have symbols. -/
def new (domain : Domain) (scheme : NamingScheme) (strategy : Strategy) : Context :=
  let (elements, naming) := nameElements (.empty scheme) domain.elements.toList
  { domain, strategy, naming, elements
    classes := .empty
    properties := .empty
    definitions := []
    queryCount := 0
    pending := .empty }

instance : Inhabited Context := ⟨new default default default⟩

/-- Whether the encoding uses counts. -/
def isDirect (c : Context) : Bool := c.strategy = .direct

/-- The constants of the domain elements. -/
def constants (c : Context) : List String := c.elements.map (·.constant)

/-- How many auxiliary predicates there are. -/
def auxCount (c : Context) : Nat := c.definitions.length

/-- All pairs of domain elements, the first varying slowest. -/
def pairs (c : Context) : List (Element × Element) :=
  c.elements.flatMap fun x => c.elements.map fun y => (x, y)

end Context

/-! ## Predicates of the encoding -/

/-- The name of the k-th auxiliary predicate. -/
def auxName (k : Nat) : String := "_aux" ++ toString k

/-- The name of the k-th query predicate. -/
def queryName (k : Nat) : String := "_query" ++ toString k

/-- The atom that switches the k-th axiom on. -/
def activationAtom (k : Nat) : Atom := .positive "_ax" [toString k]

/-- The atom that a class symbol holds of an element. -/
def unaryAtom (symbol : String) (x : Element) : Atom := .positive symbol [x.constant]

/-- The atom that a property symbol holds of a pair of elements. -/
def binaryAtom (symbol : String) (x y : Element) : Atom :=
  .positive symbol [x.constant, y.constant]

/-- The rules that make a class symbol total. -/
def classTotality (elements : List Element) (symbol : String) : List Rule :=
  elements.map fun x => .choice (unaryAtom symbol x)

/-- The rules that make a property symbol total. -/
def propertyTotality (elements : List Element) (symbol : String) : List Rule :=
  elements.flatMap fun x => elements.map fun y => .choice (binaryAtom symbol x y)

/-! ## Steps -/

/-- Steps on a context. -/
abbrev Grounding := ExceptT ReasonerError (StateM Context)

namespace Grounding

/-- Fails for a reason. -/
def fail {α : Type} (e : ReasonerError) : Grounding α := throw e

/-- The symbol of a class; on first use it is entered, and made total. -/
def classSymbol (iri : Iri) : Grounding String := do
  let c ← get
  match c.classes.find? iri with
  | some symbol => pure symbol
  | none =>
    let (symbol, naming) := c.naming.symbol (.atomicClass iri)
    modify fun c => { c with
      naming
      classes := c.classes.insert iri symbol
      pending := c.pending.pushAll (classTotality c.elements symbol) }
    pure symbol

/-- The symbol of an object property; on first use it is entered, and made total. -/
def propertySymbol (iri : Iri) : Grounding String := do
  let c ← get
  match c.properties.find? iri with
  | some symbol => pure symbol
  | none =>
    let (symbol, naming) := c.naming.symbol (.objectProperty iri)
    modify fun c => { c with
      naming
      properties := c.properties.insert iri symbol
      pending := c.pending.pushAll (propertyTotality c.elements symbol) }
    pure symbol

/-- The atom that an element belongs to a named class. -/
def classAtom (iri : Iri) (x : Element) : Grounding Atom := do
  pure (unaryAtom (← classSymbol iri) x)

/-- The atom that a role leads from one element to another. -/
def roleAtom (r : Role) (x y : Element) : Grounding Atom := do
  let symbol ← propertySymbol r.property
  match r with
  | .named _ => pure (binaryAtom symbol x y)
  | .inverseOf _ => pure (binaryAtom symbol y x)

/-- The domain element that an individual is. -/
def element (i : Individual) : Grounding Element := do
  match (← get).elements.find? fun x => x.individual = i with
  | some x => pure x
  | none => fail (.configuration (.notAnElement i))

/-- The domain elements that some individuals are. -/
def members (is : List Individual) : Grounding (List Element) := is.mapM element

/-- Takes what is pending out of the context. -/
def takePending : Grounding Program :=
  modifyGet fun c => (c.pending, { c with pending := .empty })

/-- Gives an expression the next auxiliary predicate, defined by some bodies for each element. The
answer is the number of the predicate. -/
def defineAux (expression : ClassExpression) (bodies : List (Element × List (List Literal))) :
    Grounding Nat := do
  let k := (← get).auxCount + 1
  modify fun c => { c with
    definitions := c.definitions ++ [expression]
    pending := (c.pending.comment (auxName k ++ " := " ++ expression.render)).pushAll
      (bodies.flatMap fun (x, alternatives) =>
        alternatives.map fun body => .derive (unaryAtom (auxName k) x) body) }
  pure k

/-- The next query predicate. -/
def freshQuery : Grounding String :=
  modifyGet fun c => (queryName (c.queryCount + 1), { c with queryCount := c.queryCount + 1 })

end Grounding

end FixedDomain
