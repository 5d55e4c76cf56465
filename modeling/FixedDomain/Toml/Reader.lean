import FixedDomain.Toml.Scalar

/-! # Reading TOML

* `basicString`, `literalString` — the four kinds of strings.
* `key` — a key, possibly dotted.
* `valueWithin` — a value that is nested at most so deep.
* `Toml.read` — the entries of a whole document.

Arrays and braces may be nested less than eighty deep, and so may the parts of a key.
-/

namespace FixedDomain.Toml

/-! ## Blanks -/

/-- Spaces and tabs. -/
def isBlank (c : Char) : Bool := c = ' ' || c = '\t'

/-- Passes over spaces and tabs. -/
def blank : Scan Unit := Scan.skipWhile isBlank

/-- Whether a character may stand in a comment: no control character but the tab. -/
def isPlain (c : Char) : Bool := c = '\t' || (32 ≤ c.toNat && c.toNat ≠ 127)

/-- Takes a line break, if there is one; answers whether there is. -/
def lineBreak : Scan Bool := do
  if ← Scan.accept ['\n'] then pure true
  else Scan.accept ['\r', '\n']

/-- Passes over a comment, if there is one. -/
def comment : Scan Unit := do
  if (← Scan.peek) = some '#' then Scan.skipWhile isPlain

/-- Passes over the rest of a line, which holds no more than a comment. -/
def lineEnd : Scan Unit := do
  blank
  comment
  if !(← lineBreak) then Scan.require (← get).isEmpty

/-- Passes over blanks, comments and line breaks. A comment has to be followed by a line break. -/
def filler : Scan Unit := do
  let _ ← Scan.collect do
    blank
    if (← Scan.peek) = some '#' then
      comment
      Scan.require (← lineBreak)
      pure (some ())
    else if ← lineBreak then pure (some ())
    else pure none

/-! ## Strings -/

/-- The character for a code, which must not be half of one. -/
def character (code : Nat) : Scan Char :=
  if h : code.isValidChar then pure ⟨code.toUInt32, by
    have : code < 4294967296 := by
      rcases h with h | h <;> omega
    have hc : code.toUInt32.toNat = code := by
      simp only [Nat.toUInt32, UInt32.toNat_ofNat']
      omega
    simpa [UInt32.isValidChar, hc] using h⟩
  else Scan.fail

/-- The character that an escape stands for, behind its backslash. -/
def escape : Scan Char := do
  match ← Scan.next with
  | '"' => pure '"'
  | '\\' => pure '\\'
  | 'b' => pure '\x08'
  | 'f' => pure '\x0c'
  | 'n' => pure '\n'
  | 'r' => pure '\r'
  | 't' => pure '\t'
  | 'u' => character (← Scan.hexDigits 4)
  | 'U' => character (← Scan.hexDigits 8)
  | _ => Scan.fail

/-- The next character of a string on one line, up to its quote. -/
def lineCharacter (quote : Char) (escapes : Bool) : Scan (Option Char) := do
  let c ← Scan.next
  if c = quote then pure none
  else if escapes && c = '\\' then some <$> escape
  else
    Scan.require (isPlain c)
    pure (some c)

/-- The next characters of a string on many lines, up to its three quotes. Up to two more quotes
before these belong to the string. Behind a backslash, white space that begins with a line break
does not count. -/
def blockPiece (quote : Char) (escapes : Bool) : Scan (Option (List Char)) := do
  if ← Scan.startsWith (List.replicate 3 quote) then pure none
  else if ← lineBreak then pure (some ['\n'])
  else
    let c ← Scan.next
    if escapes && c = '\\' then
      -- either the line is continued, or an escape follows
      let rest ← get
      blank
      if ← lineBreak then
        let _ ← Scan.collect do
          blank
          if ← lineBreak then pure (some ()) else pure none
        pure (some [])
      else
        set rest
        (fun c => some [c]) <$> escape
    else
      Scan.require (isPlain c)
      pure (some [c])

/-- The quotes at the end of a string on many lines: three, and up to two that belong to it. -/
def closingQuotes (quote : Char) : Scan (List Char) := do
  let quotes ← Scan.takeWhile (· == quote)
  Scan.require (decide (quotes.length ≤ 5))
  pure (quotes.drop 3)

/-- A string between quotes of one kind, with escapes or without. -/
def quotedString (quote : Char) (escapes : Bool) : Scan String := do
  Scan.char quote
  String.ofList <$> Scan.collect (lineCharacter quote escapes)

/-- A string between three quotes of one kind on either side. A line break that comes first does
not count. -/
def blockString (quote : Char) (escapes : Bool) : Scan String := do
  let _ ← lineBreak
  let pieces ← Scan.collect (blockPiece quote escapes)
  let last ← closingQuotes quote
  pure (String.ofList (pieces.flatten ++ last))

/-- A string of any kind. -/
def stringValue (quote : Char) (escapes : Bool) : Scan Toml := do
  if ← Scan.accept (List.replicate 3 quote) then .string <$> blockString quote escapes
  else .string <$> quotedString quote escapes

/-! ## Keys -/

/-- How deep arrays, braces and keys may be nested. -/
def depthLimit : Nat := 79

/-- Whether a character may stand in a key without quotes. -/
def isKeyChar (c : Char) : Bool := c.isAlphanum || c = '_' || c = '-'

/-- One part of a key, with the blanks around it. -/
def keyPart : Scan String := do
  blank
  let part ←
    match ← Scan.peek with
    | some '"' => quotedString '"' true
    | some '\'' => quotedString '\'' false
    | _ => do
      let cs ← Scan.takeWhile isKeyChar
      Scan.require !cs.isEmpty
      pure (String.ofList cs)
  blank
  pure part

/-- A key: the path to a table, and the last part. -/
def key : Scan (List String × String) := do
  let first ← keyPart
  let rest ← Scan.collect do
    if ← Scan.accept ['.'] then some <$> keyPart else pure none
  let parts := first :: rest
  Scan.require (decide (parts.length ≤ depthLimit))
  pure (parts.dropLast, rest.getLast?.getD first)

/-! ## Values -/

/-- A key with its value. -/
structure KeyValue where
  path : List String
  key : String
  value : Toml

/-- A key with its value, which another reader reads. -/
def keyValue (value : Scan Toml) : Scan KeyValue := do
  let (path, k) ← key
  Scan.char '='
  blank
  return ⟨path, k, ← value⟩

/-- The table of some keys with their values. -/
def bracedTable (pairs : List KeyValue) : Option Toml :=
  (pairs.foldlM (fun (t : TableOrigin × Entries) p => assign p.path p.key p.value t.1 t.2)
    (.braced, [])).map fun t => .table .braced t.2

/-- A value that holds no other ones. -/
def leaf : Scan Toml := do
  match ← Scan.peek with
  | some '"' => stringValue '"' true
  | some '\'' => stringValue '\'' false
  | _ => scalar

/-- A value that is nested at most so deep. -/
def valueWithin : Nat → Scan Toml
  | 0 => leaf
  | depth + 1 => do
    match ← Scan.peek with
    | some '[' =>
      Scan.skip 1
      .array <$> Scan.list (valueWithin depth) filler ']' true
    | some '{' =>
      Scan.skip 1
      Scan.ofOption (bracedTable (← Scan.list (keyValue (valueWithin depth)) blank '}' false))
    | _ => leaf

/-! ## Documents -/

/-- One part of a document. -/
inductive Line where
  | empty
  | header (path : List String) (key : String)
  | element (path : List String) (key : String)
  | pair (p : KeyValue)

/-- The next part of a document, unless it ends. -/
def line : Scan (Option Line) := do
  blank
  match ← Scan.peek with
  | none => pure none
  | some '#' | some '\n' | some '\r' =>
    lineEnd
    pure (some .empty)
  | some '[' =>
    if ← Scan.accept ['[', '['] then
      let (path, k) ← key
      Scan.require (← Scan.accept [']', ']'])
      lineEnd
      pure (some (.element path k))
    else
      Scan.char '['
      let (path, k) ← key
      Scan.char ']'
      lineEnd
      pure (some (.header path k))
  | some _ =>
    let p ← keyValue (valueWithin depthLimit)
    lineEnd
    pure (some (.pair p))

/-- What has been read of a document: its entries, and the path of the table that is open. -/
structure Document where
  entries : Entries
  opened : List String

/-- Makes a change to the table of the whole document. -/
def Document.change (d : Document) (opened : List String) (change : Change) : Option Document :=
  (change .headed d.entries).map fun t => ⟨t.2, opened⟩

/-- The document with one more part. -/
def Document.add (d : Document) : Line → Option Document
  | .empty => some d
  | .header path k => d.change (path ++ [k]) (openTable path k)
  | .element path k => d.change (path ++ [k]) (openElement path k)
  | .pair p => d.change d.opened (within d.opened (assign p.path p.key p.value))

/-- The parts of a document. A mark of the byte order may come first. -/
def lines : Scan (List Line) := do
  let _ ← Scan.accept ['\ufeff']
  Scan.collect line

/-- The entries of a document. -/
def read (text : String) : Option Entries := do
  let ls ← Scan.read lines text
  let d ← ls.foldlM Document.add ⟨[], []⟩
  pure d.entries

end FixedDomain.Toml
