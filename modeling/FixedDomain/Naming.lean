import FixedDomain.Ontology.Name

/-! # Naming entities in programs

Every entity gets a symbol of its own in the program, and keeps it:

* `NamingScheme` — how a symbol is made from a name: a lower-case identifier from the local name
  (`plain`), or, in the manner of ASP-Core, prefixed identifiers for predicates and quoted names
  for individuals (`aspCore`).
* `Naming` — the symbols given so far. `symbol` gives one if there is none yet; `entity?` reads
  symbols back.
-/

namespace FixedDomain

/-! ## Symbols from names -/

/-- How symbols are made. -/
inductive NamingScheme where
  | plain
  | aspCore
  deriving DecidableEq, Inhabited

namespace NamingScheme

/-- The name of a naming scheme. -/
def render : NamingScheme → String
  | plain => "default"
  | aspCore => "asp-core"

/-- The naming scheme with a name. -/
def ofName? : String → Option NamingScheme
  | "default" => some plain
  | "asp-core" => some aspCore
  | _ => none

theorem ofName?_render (s : NamingScheme) : ofName? s.render = some s := by
  cases s <;> rfl

/-- Whether a character may stand in an identifier. -/
def isSymbolChar (c : Char) : Bool := c.isAlphanum || c == '_'

/-- The characters of a name, with an underscore for each that may not stand in an identifier. -/
def sanitize (name : String) : List Char :=
  name.toList.map fun c => if isSymbolChar c then c else '_'

/-- The letter that tells the kinds of entities apart. -/
def kindLetter : Entity → Char
  | .atomicClass _ => 'c'
  | .objectProperty _ => 'r'
  | .individual _ => 'i'

/-- An identifier that begins with the letter for the kind of an entity. -/
def marked (e : Entity) (name : List Char) : String := String.ofList (kindLetter e :: '_' :: name)

/-- The plain symbol for an entity: its local name as an identifier that begins with a lower-case
letter, marked with the kind if it begins with no letter or is a reserved word. -/
def plainSymbol (e : Entity) : String :=
  let name := (sanitize e.iri.localName).dropWhile (· == '_')
  match name with
  | [] => marked e []
  | c :: cs =>
    if c.isAlpha then
      let symbol := c.toLower :: cs
      if symbol = ['n', 'o', 't'] then marked e symbol else String.ofList symbol
    else marked e name

/-- A text as a string constant, with backslashes and quotes escaped. -/
def stringConstant (text : String) : String :=
  String.ofList ('"' :: (text.toList.flatMap fun c =>
    if c = '\\' then ['\\', '\\'] else if c = '"' then ['\\', '"'] else [c]) ++ ['"'])

/-- The ASP-Core symbol for an entity. -/
def aspCoreSymbol (e : Entity) : String :=
  match e with
  | .individual iri => stringConstant iri.text
  | _ => marked e (sanitize e.iri.localName)

/-- The symbol that a scheme would like to give an entity. -/
def symbol : NamingScheme → Entity → String
  | plain => plainSymbol
  | aspCore => aspCoreSymbol

end NamingScheme

/-! ## Symbol tables -/

/-- The symbols given so far, in the order in which they were given. -/
structure Naming where
  scheme : NamingScheme
  entries : List (Entity × String)
  deriving DecidableEq

namespace Naming

/-- No symbols given yet. -/
def empty (scheme : NamingScheme) : Naming := ⟨scheme, []⟩

/-- The symbol of an entity, if it has one. -/
def symbol? (n : Naming) (e : Entity) : Option String := n.entries.lookup e

/-- The entity that a symbol was given to. -/
def entity? (n : Naming) (symbol : String) : Option Entity :=
  (n.entries.find? fun entry => entry.2 == symbol).map (·.1)

/-- A symbol numbered from two upwards. -/
def numbered (base : String) (k : Nat) : String := base ++ "_" ++ toString (k + 2)

/-- The first of a symbol and its numbered forms that has not been given away. One of as many
numbered forms as there are symbols is always free. -/
def freshSymbol (n : Naming) (base : String) : String :=
  -- more candidates than symbols given away
  let candidates := base :: (List.range n.entries.length).map (numbered base)
  (candidates.find? fun symbol => (n.entity? symbol).isNone).getD base

/-- The symbol of an entity, and the table in which it has one. -/
def symbol (n : Naming) (e : Entity) : String × Naming :=
  match n.symbol? e with
  | some symbol => (symbol, n)
  | none =>
    let symbol := n.freshSymbol (n.scheme.symbol e)
    (symbol, { n with entries := n.entries ++ [(e, symbol)] })

end Naming

end FixedDomain
