/-! # White space

* `isWhiteSpace` — the characters with the `White_Space` property.
* `trim` — a text without the white space around it.
-/

namespace FixedDomain

/-- Whether a character is white space, in any script. -/
def isWhiteSpace (c : Char) : Bool :=
  let n := c.toNat
  (0x9 ≤ n && n ≤ 0xd) || n == 0x20 || n == 0x85 || n == 0xa0 || n == 0x1680 ||
    (0x2000 ≤ n && n ≤ 0x200a) || n == 0x2028 || n == 0x2029 || n == 0x202f || n == 0x205f ||
    n == 0x3000

/-- The characters that remain when white space is dropped at the front. -/
def dropBlanks (cs : List Char) : List Char := cs.dropWhile isWhiteSpace

/-- The characters that remain when white space is dropped at both ends. -/
def trimBlanks (cs : List Char) : List Char := (dropBlanks (dropBlanks cs).reverse).reverse

/-- The text without white space at its ends. -/
def trim (s : String) : String := String.ofList (trimBlanks s.toList)

end FixedDomain
