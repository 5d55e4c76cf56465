import FixedDomain.Text.Invisible

/-! # Quoted text

How a text is shown inside a message: between double quotes, with quotes, backslashes and line
breaks escaped and characters without a picture given by their number.

* `escape` — how one character is shown.
* `quoted` — how a text is shown.
-/

namespace FixedDomain

/-- A number in lower-case hexadecimal digits. -/
def hexadecimal (n : Nat) : String := String.ofList (Nat.toDigits 16 n)

/-- A character given by its number. -/
def byNumber (c : Char) : String := "\\u\x7b" ++ hexadecimal c.toNat ++ "\x7d"

/-- How a character is shown between double quotes. -/
def escape (c : Char) : String :=
  if c = '"' then "\\\""
  else if c = '\\' then "\\\\"
  else if c = '\n' then "\\n"
  else if c = '\t' then "\\t"
  else if c = '\r' then "\\r"
  else if c.toNat = 0 then "\\0"
  else if c.toNat < 0x20 then byNumber c
  else if c.toNat < 0x7f then String.singleton c
  else if isInvisible c then byNumber c
  else String.singleton c

/-- A text between double quotes, each character shown by `escape`. -/
def quoted (s : String) : String :=
  "\"" ++ String.join (s.toList.map escape) ++ "\""

example : quoted "a\"b\\c\n" = "\"a\\\"b\\\\c\\n\"" := by decide +kernel

end FixedDomain
