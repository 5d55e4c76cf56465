/-! # Durations

* `Duration` — a span of time in whole nanoseconds.
* `Duration.render` — its text: a decimal number of the largest unit that it fills once, without
  trailing zeros.
-/

namespace FixedDomain

/-- A span of time. -/
structure Duration where
  nanoseconds : Nat
  deriving DecidableEq, Inhabited

namespace Duration

/-- The span without length. -/
def zero : Duration := ⟨0⟩

/-- So many milliseconds. -/
def ofMilliseconds (n : Nat) : Duration := ⟨n * 1000000⟩

/-- So many microseconds. -/
def ofMicroseconds (n : Nat) : Duration := ⟨n * 1000⟩

/-- The whole seconds in a span. -/
def seconds (d : Duration) : Nat := d.nanoseconds / 1000000000

/-- The last decimal digits of a number, as many as asked for. -/
def lastDigits : Nat → Nat → List Char
  | 0, _ => []
  | places + 1, n => lastDigits places (n / 10) ++ [Nat.digitChar (n % 10)]

/-- A number with so many decimal places, without trailing zeros. -/
def decimal (places n : Nat) : String :=
  let fraction := ((lastDigits places n).reverse.dropWhile (· == '0')).reverse
  toString (n / Nat.pow 10 places) ++
    if fraction.isEmpty then "" else "." ++ String.ofList fraction

/-- The text of a duration. -/
def render (d : Duration) : String :=
  let n := d.nanoseconds
  if 1000000000 ≤ n then decimal 9 n ++ "s"
  else if 1000000 ≤ n then decimal 6 n ++ "ms"
  else if 1000 ≤ n then decimal 3 n ++ "µs"
  else toString n ++ "ns"

example : (ofMilliseconds 61001).render = "61.001s" := by decide +kernel

example : (ofMicroseconds 1500).render = "1.5ms" := by decide +kernel

end Duration

end FixedDomain
