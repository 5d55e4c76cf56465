import FixedDomain.Text.Separated

/-! # Paths

How the texts of paths are read and put together:

* `Path.components` — the names that a path leads through.
* `Path.child` — the path of an entry of a directory.
* `Path.extension?` — what stands behind the last dot of a file name.
-/

namespace FixedDomain.Path

/-- The names that a path leads through. Two slashes in a row have an empty name between them, and so
has a slash at either end. -/
def components (path : String) : List String := (splitAt '/' path.toList).map String.ofList

/-- How many bytes a name in a path may have. -/
def maxNameSize : Nat := 255

/-- How many bytes a path may have. -/
def maxSize : Nat := 4095

/-- Whether a text holds the character that ends texts for the system, so that it cannot be passed
on as a whole. -/
def hasNul (text : String) : Bool := text.toList.any fun c => c.toNat = 0

/-- Whether a path begins at the root of the file system. -/
def isAbsolute (path : String) : Bool := path.toList.head? = some '/'

/-- The path of an entry of a directory. -/
def child (directory name : String) : String :=
  if directory.toList.getLast? = some '/' then directory ++ name else directory ++ "/" ++ name

/-- What stands behind the last dot of a file name, unless that dot comes first. -/
def extension? (name : String) : Option String :=
  let cs := name.toList.reverse
  match cs.dropWhile (· != '.') with
  | [] | [_] => none
  | _ :: _ :: _ => some (String.ofList (cs.takeWhile (· != '.')).reverse)

example : components "a//b/" = ["a", "", "b", ""] := by decide +kernel

example : extension? "a.b.ofn" = some "ofn" ∧ extension? ".ofn" = none := by decide +kernel

end FixedDomain.Path
