import FixedDomain.Text.Scan

/-! # JSON

* `JsonValue` — the values. A string in which an escape names half of a character has no text.
  The entries of an object are kept as they are written, repeated ones included.
* `JsonValue.read` — the value that a text stands for.
* `JsonValue.record?` — the values of expected fields, from an object or from a list in their
  order. Other fields of an object do not count; an expected one may not be repeated.
-/

namespace FixedDomain

/-- A JSON value. Numbers are kept as they are written. -/
inductive JsonValue where
  | null
  | boolean (value : Bool)
  | number (digits : String)
  | string (text : Option String)
  | array (items : List JsonValue)
  | object (entries : List (Option String × JsonValue))
  deriving Inhabited

namespace JsonValue

/-! ## Strings -/

/-- The codes in the text of a string up to its closing quote: a character stands for itself, and
an escape for the code that it names. -/
def stringCodes : List Char → Option (List Nat × List Char)
  | [] => none
  | '"' :: cs => some ([], cs)
  | '\\' :: 'u' :: a :: b :: c :: d :: cs => do
    let code ← Scan.numeral? 16 [a, b, c, d]
    let (codes, cs) ← stringCodes cs
    pure (code :: codes, cs)
  | '\\' :: c :: cs => do
    let code ← escape? c
    let (codes, cs) ← stringCodes cs
    pure (code.toNat :: codes, cs)
  | c :: cs =>
    if c.toNat < 32 then none
    else do
      let (codes, cs) ← stringCodes cs
      pure (c.toNat :: codes, cs)
where
  /-- The character that a letter behind a backslash stands for. -/
  escape? : Char → Option Char
    | '"' => some '"'
    | '\\' => some '\\'
    | '/' => some '/'
    | 'b' => some '\x08'
    | 'f' => some '\x0c'
    | 'n' => some '\n'
    | 'r' => some '\r'
    | 't' => some '\t'
    | _ => none

/-- Whether a code is the first half of a character. -/
def isHighHalf (code : Nat) : Bool := 0xD800 ≤ code && code < 0xDC00

/-- Whether a code is the second half of a character. -/
def isLowHalf (code : Nat) : Bool := 0xDC00 ≤ code && code < 0xE000

/-- The characters that codes stand for. The halves of a character have to stand side by side. -/
def joinHalves : List Nat → Option (List Char)
  | [] => some []
  | [code] => if isHighHalf code || isLowHalf code then none else some [Char.ofNat code]
  | code :: next :: codes =>
    if isHighHalf code then
      if isLowHalf next then
        (joinHalves codes).map
          (Char.ofNat (0x10000 + (code - 0xD800) * 0x400 + (next - 0xDC00)) :: ·)
      else none
    else if isLowHalf code then none
    else (joinHalves (next :: codes)).map (Char.ofNat code :: ·)

/-- The rest of a string behind its opening quote. -/
def stringRest : Scan (Option String) := do
  let codes ← stringCodes
  pure ((joinHalves codes).map String.ofList)

/-! ## Numbers -/

/-- One digit or more. -/
def digits : Scan (List Char) := do
  let ds ← Scan.takeWhile Char.isDigit
  Scan.require !ds.isEmpty
  pure ds

/-- A number. Its first digit is zero only if it is the only one before the point. -/
def numberText : Scan String := do
  let sign := if ← Scan.accept ['-'] then ['-'] else []
  let whole ← digits
  Scan.require (whole.length = 1 || whole.head? ≠ some '0')
  let fraction ← if ← Scan.accept ['.'] then (['.'] ++ ·) <$> digits else pure []
  let exponent ←
    -- an exponent may stand without a fraction
    match ← Scan.peek with
    | some 'e' | some 'E' =>
      Scan.skip 1
      let sign ← if ← Scan.accept ['+'] then pure [] else
        if ← Scan.accept ['-'] then pure ['-'] else pure []
      (['e'] ++ sign ++ ·) <$> digits
    | _ => pure []
  pure (String.ofList (sign ++ whole ++ fraction ++ exponent))

/-! ## Values -/

/-- Passes over white space. -/
def blank : Scan Unit := Scan.skipWhile fun c => c = ' ' || c = '\t' || c = '\n' || c = '\r'

/-- The entry of an object, with a value that is read by another reader. -/
def entry (value : Scan JsonValue) : Scan (Option String × JsonValue) := do
  Scan.char '"'
  let key ← stringRest
  blank
  Scan.char ':'
  blank
  return (key, ← value)

/-- The given word. -/
def word (text : String) (value : JsonValue) : Scan JsonValue := do
  Scan.require (← Scan.accept text.toList)
  pure value

/-- A value that is nested at most so deep. -/
def valueWithin : Nat → Scan JsonValue
  | 0 => Scan.fail
  | depth + 1 => do
    match ← Scan.peek with
    | some '"' => Scan.skip 1; .string <$> stringRest
    | some '[' => Scan.skip 1; .array <$> Scan.list (valueWithin depth) blank ']' false
    | some '{' => Scan.skip 1; .object <$> Scan.list (entry (valueWithin depth)) blank '}' false
    | some 'n' => word "null" .null
    | some 't' => word "true" (.boolean true)
    | some 'f' => word "false" (.boolean false)
    | _ => .number <$> numberText

/-- The value that a text stands for. It is nested less deep than the text is long. -/
def read (text : String) : Option JsonValue :=
  Scan.read (do
    blank
    let v ← valueWithin text.length
    blank
    pure v) text

/-! ## Access -/

/-- The text of a string. -/
def text? : JsonValue → Option String
  | string text => text
  | _ => none

/-- The items of an array. -/
def items? : JsonValue → Option (List JsonValue)
  | array items => some items
  | _ => none

/-- The value of a field that is there at most once, if it is there at all. -/
def uniqueField? (entries : List (String × JsonValue)) (name : String) :
    Option (Option JsonValue) :=
  match entries.filter fun e => e.1 == name with
  | [] => some none
  | [e] => some (some e.2)
  | _ => none

/-- The values of expected fields. -/
def record? (names : List String) : JsonValue → Option (List (Option JsonValue))
  | object entries => do
    let entries ← entries.mapM fun e => e.1.map fun key => (key, e.2)
    names.mapM (uniqueField? entries)
  | array items =>
    if items.length ≤ names.length then
      some (items.map some ++ List.replicate (names.length - items.length) none)
    else none
  | _ => none

end JsonValue

end FixedDomain
