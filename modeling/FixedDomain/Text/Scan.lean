/-! # Scanning text

Small readers that take characters from the front of a text, or fail:

* `Scan` — the readers, and the elementary ones among them.
* `Scan.list` — items between commas.
* `Scan.read` — what a reader makes of a whole text.

A repeated part is read as often as there are characters left, which is never too seldom, as each
round takes a character.
-/

namespace FixedDomain

/-- A reader that takes characters from the front of those that are left, or fails. -/
abbrev Scan := StateT (List Char) Option

namespace Scan

/-- Fails. -/
def fail {α : Type} : Scan α := fun _ => none

/-- The next character, which stays where it is. -/
def peek : Scan (Option Char) := fun cs => some (cs.head?, cs)

/-- Takes the next character. -/
def next : Scan Char
  | [] => none
  | c :: cs => some (c, cs)

/-- Takes the next character, which has to pass a test. -/
def satisfy (p : Char → Bool) : Scan Char
  | [] => none
  | c :: cs => if p c then some (c, cs) else none

/-- Takes the given character. -/
def char (c : Char) : Scan Unit := do
  let _ ← satisfy (· == c)

/-- Takes all characters up to the first that fails a test. -/
def takeWhile (p : Char → Bool) : Scan (List Char) :=
  fun cs => some (cs.takeWhile p, cs.dropWhile p)

/-- Passes over all characters up to the first that fails a test. -/
def skipWhile (p : Char → Bool) : Scan Unit := fun cs => some ((), cs.dropWhile p)

/-- Whether the text that is left begins with another one. -/
def startsWith (text : List Char) : Scan Bool := fun cs => some (text.isPrefixOf cs, cs)

/-- Passes over so many characters. -/
def skip (n : Nat) : Scan Unit := fun cs => some ((), cs.drop n)

/-- Takes the given text, if it comes next; answers whether it does. -/
def accept (text : List Char) : Scan Bool := do
  if ← startsWith text then
    skip text.length
    pure true
  else pure false

/-- Fails unless a condition holds. -/
def require (condition : Bool) : Scan Unit := if condition then pure () else fail

/-- Accepts only what another check accepts. -/
def ofOption {α : Type} : Option α → Scan α
  | none => fail
  | some a => pure a

/-- The items that a step reads until it finds no more, in at most so many rounds. -/
def collectWithin {α : Type} (step : Scan (Option α)) : Nat → Scan (List α)
  | 0 => pure []
  | rounds + 1 => do
    match ← step with
    | none => pure []
    | some a => return a :: (← collectWithin step rounds)

/-- The items that a step reads until it finds no more. -/
def collect {α : Type} (step : Scan (Option α)) : Scan (List α) := do
  collectWithin step ((← get).length + 1)

/-- The items of a list that is not empty, in at most so many rounds. -/
def itemsWithin {α : Type} (item : Scan α) (blank : Scan Unit) (close : Char) (trailing : Bool) :
    Nat → Scan (List α)
  | 0 => fail
  | rounds + 1 => do
    let a ← item
    blank
    let c ← next
    if c = close then pure [a]
    else if c = ',' then
      blank
      if trailing && (← peek) = some close then
        skip 1
        pure [a]
      else return a :: (← itemsWithin item blank close trailing rounds)
    else fail

/-- The items between commas, up to a closing character. Blanks may stand around each item, and
a comma before the closing character only if it is allowed there. -/
def list {α : Type} (item : Scan α) (blank : Scan Unit) (close : Char) (trailing : Bool) :
    Scan (List α) := do
  blank
  if (← peek) = some close then
    skip 1
    pure []
  else itemsWithin item blank close trailing (← get).length

/-- What a reader makes of a text, all of which it has to take. -/
def read {α : Type} (scan : Scan α) (text : String) : Option α :=
  match scan text.toList with
  | some (a, []) => some a
  | _ => none

/-! ## Numerals -/

/-- The value of a hexadecimal digit. -/
def hexDigit? (c : Char) : Option Nat :=
  if c.isDigit then some (c.toNat - '0'.toNat)
  else if 'a' ≤ c && c ≤ 'f' then some (c.toNat - 'a'.toNat + 10)
  else if 'A' ≤ c && c ≤ 'F' then some (c.toNat - 'A'.toNat + 10)
  else none

/-- The number that digits in a base stand for. -/
def numeral? (base : Nat) (digits : List Char) : Option Nat :=
  digits.foldlM (fun n c =>
    match hexDigit? c with
    | some d => if d < base then some (n * base + d) else none
    | none => none) 0

/-- Takes so many hexadecimal digits. -/
def hexDigits (count : Nat) : Scan Nat := do
  let cs ← get
  require (decide (count ≤ cs.length))
  skip count
  ofOption (numeral? 16 (cs.take count))

end Scan

end FixedDomain
