import FixedDomain.Text.Scan
import FixedDomain.Toml.Value

/-! # TOML scalars

Numbers, dates and the like, as they stand in a document:

* `integer?` — whole numbers, within 64 bits.
* `isFloat` — numbers with a fraction or an exponent, and the special ones.
* `isDateTime` — dates, times of day, and both together, with an offset or without.
* `scalar?` — the value that a piece of text stands for.
-/

namespace FixedDomain.Toml

/-! ## Digits -/

/-- The digits of a numeral whose digits may be separated by single underscores. -/
def digits? (isDigit : Char → Bool) : List Char → Option (List Char)
  | [] => none
  | [c] => if isDigit c then some [c] else none
  | c :: '_' :: cs => if isDigit c then (digits? isDigit cs).map (c :: ·) else none
  | c :: cs => if isDigit c then (digits? isDigit cs).map (c :: ·) else none

/-- The decimal digits of a numeral, which does not begin with a superfluous zero. -/
def wholeDigits? (cs : List Char) : Option (List Char) :=
  match cs with
  | '0' :: _ :: _ => none
  | cs => digits? Char.isDigit cs

/-- Takes a sign off; answers whether it is negative. -/
def unsigned : List Char → Bool × List Char
  | '-' :: cs => (true, cs)
  | '+' :: cs => (false, cs)
  | cs => (false, cs)

/-! ## Integers -/

/-- The magnitude of an integer in a base that a letter marks. -/
def basedNumeral? (base : Nat) (cs : List Char) : Option Nat :=
  (digits? (fun c => (Scan.hexDigit? c).any (· < base)) cs).bind (Scan.numeral? base)

/-- The integer that a text stands for. -/
def integer? (cs : List Char) : Option Int :=
  let value : Option Int :=
    match cs with
    | '0' :: 'x' :: cs => (basedNumeral? 16 cs).map Int.ofNat
    | '0' :: 'o' :: cs => (basedNumeral? 8 cs).map Int.ofNat
    | '0' :: 'b' :: cs => (basedNumeral? 2 cs).map Int.ofNat
    | cs =>
      let (negative, cs) := unsigned cs
      ((wholeDigits? cs).bind (Scan.numeral? 10)).map fun n => if negative then -n else n
  value.filter fun n => decide (Int64.minValue.toInt ≤ n ∧ n ≤ Int64.maxValue.toInt)

/-! ## Floats -/

/-- Whether a positive number, `digits` times a power of ten, rounds to a finite double: it has to
lie below the middle between the largest finite one and the next power of two. -/
def isFinite (digits : Nat) (exponent : Int) : Bool :=
  let places := (Nat.toDigits 10 digits).length
  let limit := Nat.pow 2 1024 - Nat.pow 2 970
  -- only near the limit do the digits have to be compared
  if digits = 0 || places + exponent < 300 then true
  else if 320 < places + exponent then false
  else decide (digits * Nat.pow 10 exponent.toNat < limit * Nat.pow 10 (-exponent).toNat)

/-- The parts of a float: the whole digits, those of the fraction, and the exponent. -/
def floatParts (cs : List Char) : List Char × Option (List Char) × Option (List Char) :=
  let isMark (c : Char) : Bool := c = 'e' || c = 'E'
  let mantissa := cs.takeWhile fun c => !isMark c
  let exponent := (cs.dropWhile fun c => !isMark c).tail?
  let whole := mantissa.takeWhile (· != '.')
  let fraction := (mantissa.dropWhile (· != '.')).tail?
  (whole, fraction, exponent)

/-- Whether a text is a float. A number too large to be one is none, unless it is negative. -/
def isFloat (cs : List Char) : Bool :=
  let (negative, cs) := unsigned cs
  if cs = "inf".toList || cs = "nan".toList then true
  else
    let (whole, fraction, exponent) := floatParts cs
    if fraction.isNone && exponent.isNone then false
    else
      let parts : Option Bool := do
        let whole ← wholeDigits? whole
        let fraction ← digits? Char.isDigit (fraction.getD ['0'])
        let (down, exponent) := unsigned (exponent.getD ['0'])
        let exponent ← (digits? Char.isDigit exponent).bind (Scan.numeral? 10)
        let digits ← Scan.numeral? 10 (whole ++ fraction)
        let shift : Int := if down then -exponent else exponent
        pure (negative || isFinite digits (shift - fraction.length))
      parts.getD false

/-! ## Dates and times -/

/-- A numeral of exactly so many digits, and what follows it. -/
def fixedNumeral? (count : Nat) (cs : List Char) : Option (Nat × List Char) :=
  let ds := cs.take count
  if ds.length = count && ds.all Char.isDigit then
    (Scan.numeral? 10 ds).map fun n => (n, cs.drop count)
  else none

/-- How many days a month has. -/
def daysIn (year month : Nat) : Nat :=
  if month = 2 then if year % 4 = 0 && (year % 100 ≠ 0 || year % 400 = 0) then 29 else 28
  else if month ∈ [4, 6, 9, 11] then 30
  else 31

/-- What follows a given character. -/
def after? (c : Char) : List Char → Option (List Char)
  | d :: cs => if d = c then some cs else none
  | [] => none

/-- What follows a date. -/
def date? (cs : List Char) : Option (List Char) := do
  let (year, cs) ← fixedNumeral? 4 cs
  let (month, cs) ← fixedNumeral? 2 (← after? '-' cs)
  let (day, cs) ← fixedNumeral? 2 (← after? '-' cs)
  if 1 ≤ month && month ≤ 12 && 1 ≤ day && day ≤ daysIn year month then some cs else none

/-- What follows an hour and a minute. -/
def clock? (cs : List Char) : Option (List Char) := do
  let (hour, cs) ← fixedNumeral? 2 cs
  let (minute, cs) ← fixedNumeral? 2 (← after? ':' cs)
  if hour ≤ 23 && minute ≤ 59 then some cs else none

/-- What follows a time of day. A minute may have a leap second. -/
def time? (cs : List Char) : Option (List Char) := do
  let (second, cs) ← fixedNumeral? 2 (← after? ':' (← clock? cs))
  if second ≤ 60 then
    match cs with
    | '.' :: cs =>
      if (cs.head?.any Char.isDigit) then some (cs.dropWhile Char.isDigit) else none
    | cs => some cs
  else none

/-- Whether a text is an offset from universal time, or empty. -/
def isOffset : List Char → Bool
  | [] | ['Z'] | ['z'] => true
  | '+' :: cs | '-' :: cs => clock? cs = some []
  | _ => false

/-- Whether a text is a date, a time of day, or both. -/
def isDateTime (cs : List Char) : Bool :=
  match date? cs with
  | none => time? cs = some []
  | some [] => true
  | some (c :: cs) => (c = 'T' || c = 't' || c = ' ') && (time? cs).any isOffset

/-! ## All together -/

/-- The value that a text without quotes and brackets stands for. -/
def scalar? (cs : List Char) : Option Toml :=
  if cs = "true".toList then some (.boolean true)
  else if cs = "false".toList then some (.boolean false)
  else if isFloat cs then some .float
  else if isDateTime cs then some .dateTime
  else (integer? cs).map .integer

/-- Whether a character may occur in a value without quotes and brackets. -/
def isScalarChar (c : Char) : Bool :=
  c.isAlphanum || c = '+' || c = '-' || c = '_' || c = '.' || c = ':'

/-- A value without quotes and brackets. One space may stand between a date and a time. -/
def scalar : Scan Toml := do
  let cs ← Scan.takeWhile isScalarChar
  let rest ← get
  let time := rest.tail.takeWhile isScalarChar
  if date? cs = some [] && rest.head? = some ' ' && (time.take 3).getLast? = some ':' &&
      (fixedNumeral? 2 time).isSome then
    Scan.skip (time.length + 1)
    Scan.ofOption (scalar? (cs ++ ' ' :: time))
  else Scan.ofOption (scalar? cs)

example : integer? "-1_000".toList = some (-1000) ∧ integer? "0x10".toList = some 16 := by
  decide +kernel

example : integer? "01".toList = none ∧ integer? "1__0".toList = none := by decide +kernel

example : isFloat "6.626e-34".toList ∧ ¬ isFloat "1.".toList ∧ ¬ isFloat "1".toList := by
  decide +kernel

example : isDateTime "1979-05-27T07:32:00Z".toList ∧ ¬ isDateTime "1979-02-29".toList := by
  decide +kernel

end FixedDomain.Toml
