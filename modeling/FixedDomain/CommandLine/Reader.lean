import FixedDomain.CommandLine.Options

/-! # Reading the command line

* `OptionName` — the options, with their short and long names.
* `UsageError` — why a command line is refused.
* `Options.read` — what the words of a command line ask for.

An option that takes a value may have it in the same word, behind its long name and an equals sign
or right behind its letter, or in the next word. A value from the next word is looked at only when
the reader comes to a known option, an ontology or the end, so that an unknown option is reported
before it.
-/

namespace FixedDomain

/-! ## Options by name -/

/-- The options. -/
inductive OptionName where
  | verbose
  | project
  | translate
  | output
  | entail
  | domain
  | model
  | consistent
  | justification
  | axiomatize
  | config
  | solver
  | timeout
  | maxDomain
  | help
  | version
  deriving DecidableEq

namespace OptionName

/-- The option with a letter. -/
def ofShort? : Char → Option OptionName
  | 'v' => some verbose
  | 'p' => some project
  | 'T' => some translate
  | 'O' => some output
  | 'e' => some entail
  | 'd' => some domain
  | 'm' => some model
  | 'c' => some consistent
  | 'j' => some justification
  | 'a' => some axiomatize
  | 'h' => some help
  | 'V' => some version
  | _ => none

/-- The option with a long name. -/
def ofLong? : String → Option OptionName
  | "verbose" => some verbose
  | "project" => some project
  | "translate" => some translate
  | "output" => some output
  | "entail" => some entail
  | "domain" => some domain
  | "model" => some model
  | "consistent" => some consistent
  | "justification" => some justification
  | "axiomatize" => some axiomatize
  | "config" => some config
  | "solver" => some solver
  | "timeout" => some timeout
  | "max-domain" => some maxDomain
  | "help" => some help
  | "version" => some version
  | _ => none

/-- Whether an option goes with a value: not at all, always, or only behind an equals sign. -/
inductive Arity where
  | flag
  | value
  | attached
  deriving DecidableEq

/-- How an option goes with a value. -/
def arity : OptionName → Arity
  | consistent | justification | help | version => .flag
  | verbose => .attached
  | _ => .value

/-- Whether an option may be given more than once. -/
def isRepeatable : OptionName → Bool
  | project => true
  | _ => false

end OptionName

/-! ## Errors -/

/-- Why a command line is refused, or what is to be shown in place of a run. -/
inductive UsageError where
  | unknownOption (name : String)
  | missingValue (option : OptionName)
  | unknownChoice (value : String)
  | malformedValue (value : String)
  | unexpectedValue (value : String)
  | repeatedOption (option : OptionName)
  | missingOntology
  | helpRequested
  | versionRequested
  deriving DecidableEq

/-- The wording for a command line that is refused, or what is shown in place of a run. -/
def UsageError.message : UsageError → String
  | unknownOption name => "error: unexpected argument '" ++ name ++ "' found"
  | missingValue _ => "error: a value is required for an option but none was supplied"
  | unknownChoice value => "error: '" ++ value ++ "' is none of naive, direct, naff"
  | malformedValue value => "error: invalid value '" ++ value ++ "'"
  | unexpectedValue value => "error: unexpected value '" ++ value ++ "' found"
  | repeatedOption _ => "error: an option cannot be used multiple times"
  | missingOntology => "error: no ontology was given"
  | helpRequested => "Usage: kitsune [OPTIONS] <IRI>..."
  | versionRequested => "kitsune 0.1.0"

/-! ## Values -/

namespace CommandLine

/-- The number that decimal digits stand for. -/
def decimal? (cs : List Char) : Option Nat :=
  if cs.isEmpty then none
  else cs.foldlM (fun n c => if c.isDigit then some (n * 10 + (c.toNat - '0'.toNat)) else none) 0

/-- A number below a bound; it may have a plus sign. -/
def number? (bound : Nat) (cs : List Char) : Option Nat :=
  (decimal? (if cs.head? = some '+' then cs.tail else cs)).filter (· < bound)

/-- A number of one byte; a zero may even have a minus sign. -/
def byte? (cs : List Char) : Option Nat :=
  if cs.head? = some '-' then (decimal? cs.tail).filter (· == 0) else number? UInt8.size cs

/-- The program that is asked for by name. -/
def target? : String → Option Strategy
  | "naive" => some .naive
  | "direct" => some .direct
  | "naff" => some .debug
  | _ => none

end CommandLine

namespace Options

open CommandLine

/-- Reads a value, or refuses it. -/
def valueOr {α : Type} (e : UsageError) : Option α → Except UsageError α
  | some a => .ok a
  | .none => .error e

/-- The options with one more, which has a value. -/
def withValue (o : Options) (name : OptionName) (value : String) : Except UsageError Options := do
  let path : Except UsageError String :=
    if value = "" then .error (.missingValue name) else .ok value
  let malformed := UsageError.malformedValue value
  let number := valueOr malformed (number? UInt64.size value.toList)
  match name with
  | .verbose => return { o with verbose := some (← valueOr malformed (byte? value.toList)) }
  | .project =>
    pure { o with project := o.project ++ (splitAt ',' value.toList).map String.ofList }
  | .translate => return o.request (.translate (← valueOr (.unknownChoice value) (target? value)))
  | .output => return { o with output := some (← path) }
  | .entail => pure ({ o with entail := some value }.request .entail)
  | .domain => pure { o with domain := some value }
  | .model => return o.request (.models (← number))
  | .axiomatize => return o.request (.axiomatize (← path))
  | .config => return { o with config := some (← path) }
  | .solver =>
    return { o with solver := some (← valueOr malformed (Backend.ofName? (lowerAscii value))) }
  | .timeout => return { o with timeout := some (← number) }
  | .maxDomain => return { o with maxDomain := some (← number) }
  | .consistent | .justification | .help | .version => throw (.unexpectedValue value)

/-- The options with one more, which has no value. -/
def withFlag (o : Options) : OptionName → Except UsageError Options
  | .consistent => .ok (o.request .consistent)
  | .justification => .ok (o.request .justification)
  | .help => .error .helpRequested
  | .version => .error .versionRequested
  | name => .error (.missingValue name)

end Options

/-! ## Words -/

namespace CommandLine

/-- What has been read of a command line: the options, their names, an option whose value has not
been looked at, and whether all that follows are ontologies. -/
structure Reading where
  options : Options
  given : List OptionName
  pending : Option (OptionName × Option String)
  onlyOntologies : Bool

namespace Reading

/-- Nothing read yet. -/
def start : Reading := ⟨.none, [], none, false⟩

/-- Enters an option, given what it adds. -/
def enter (r : Reading) (name : OptionName) (add : Options → Except UsageError Options) :
    Except UsageError Reading :=
  if name ∈ r.given && !name.isRepeatable then .error (.repeatedOption name)
  else (add r.options).map fun o => { r with options := o, given := name :: r.given }

/-- Looks at the value of the option that is pending. -/
def settle (r : Reading) : Except UsageError Reading :=
  match r.pending with
  | none => .ok r
  | some (name, none) => .error (.missingValue name)
  | some (name, some value) =>
    { r with pending := none }.enter name fun o => o.withValue name value

/-- Enters an option without value. -/
def flag (r : Reading) (name : OptionName) : Except UsageError Reading := do
  (← r.settle).enter name fun o => o.withFlag name

/-- Enters an option with a value in the same word. -/
def attached (r : Reading) (name : OptionName) (value : String) : Except UsageError Reading := do
  (← r.settle).enter name fun o => o.withValue name value

/-- Enters an option with a value in the next word. -/
def await (r : Reading) (name : OptionName) : Except UsageError Reading := do
  return { ← r.settle with pending := some (name, none) }

/-- Enters an ontology. -/
def ontology (r : Reading) (locator : String) : Except UsageError Reading := do
  let r ← r.settle
  pure { r with options := { r.options with ontologies := r.options.ontologies ++ [locator] } }

/-- Reads a long option: a name, and perhaps a value behind an equals sign. -/
def long (r : Reading) (word : List Char) : Except UsageError Reading :=
  let name := String.ofList (word.takeWhile (· != '='))
  let value := (word.dropWhile (· != '=')).tail?.map String.ofList
  match OptionName.ofLong? name with
  | none => .error (.unknownOption name)
  | some option =>
    match option.arity, value with
    | .flag, none => r.flag option
    -- refused even before a value that is pending
    | .flag, some value => .error (.unexpectedValue value)
    | .value, none => r.await option
    | .attached, none => r.attached option "1"
    | _, some value => r.attached option value

/-- Reads the letters of short options. The rest of the word is the value of the first option that
takes one. -/
def short (r : Reading) : List Char → Except UsageError Reading
  | [] => .ok r
  | c :: cs =>
    match OptionName.ofShort? c with
    | none => .error (.unknownOption (String.ofList [c]))
    | some option =>
      match option.arity, cs with
      | .flag, cs => do (← r.flag option).short cs
      | _, '=' :: value => r.attached option (String.ofList value)
      -- without an equals sign the rest of the word are more letters
      | .attached, cs => do (← r.attached option "1").short cs
      | .value, [] => r.await option
      | .value, value => r.attached option (String.ofList value)

/-- Reads a word that is neither an option nor a mark: the value of the option that awaits one, or
an ontology. -/
def plain (r : Reading) (word : String) : Except UsageError Reading :=
  match r.pending with
  | some (name, none) => .ok { r with pending := some (name, some word) }
  | _ => r.ontology word

/-- Reads a word. -/
def word (r : Reading) (word : String) : Except UsageError Reading :=
  if r.onlyOntologies then r.ontology word
  else
    match word.toList with
    | ['-', '-'] => .ok { r with onlyOntologies := true }
    | '-' :: '-' :: cs => r.long cs
    | '-' :: c :: cs => r.short (c :: cs)
    | _ => r.plain word

/-- The options that have been read. There has to be an ontology. -/
def finish (r : Reading) : Except UsageError Options := do
  let r ← r.settle
  if r.options.ontologies.isEmpty then throw .missingOntology else pure r.options

end Reading

end CommandLine

/-- What the words of a command line ask for. -/
def Options.read (words : List String) : Except UsageError Options := do
  (← words.foldlM CommandLine.Reading.word .start).finish

end FixedDomain
