import FixedDomain.Collections.SortedMap
import FixedDomain.Files.Error
import FixedDomain.Files.Path

/-! # File trees

A file system as a value, seen from a current directory:

* `Tree` — files with their contents, and directories, by place.
* `Tree.locate` — the place that a path leads to, step by step from the current directory or the
  root. Every place on the way has to be a directory.
* `Tree.readText`, `Tree.list`, `Tree.write` — what is done with files, and how it fails.

The location of a place is the list of names that lead to it from the current directory. Locations
above the current directory begin with `..`, and those that are named from the root with `/`.
-/

namespace FixedDomain

/-! ## Trees -/

/-- What stands at a place. -/
inductive FileEntry where
  | file (content : ByteArray)
  | directory

/-- Whether a directory stands at a place. -/
def FileEntry.isDirectory : FileEntry → Bool
  | file _ => false
  | directory => true

/-- The names that lead to a place from the current directory. -/
abbrev Location := List String

/-- Files and directories by place. -/
structure Tree where
  entries : SortedMap Location FileEntry

namespace Tree

/-- The tree without entries. -/
def empty : Tree := ⟨.empty⟩

instance : Inhabited Tree := ⟨empty⟩

/-- The places that are directories in every tree: the current directory, those above it, and the
root. -/
def isFixed (place : Location) : Bool := place = ["/"] || place.all (· == "..")

/-- What stands at a place. -/
def entry? (t : Tree) (place : Location) : Option FileEntry :=
  if isFixed place then some .directory else t.entries.find? place

/-- The places above a place, from the current directory downwards. -/
def ancestors (place : Location) : List Location := (List.range place.length).map place.take

/-- The tree in which the directories that lead to a place exist. -/
def addParents (t : Tree) (place : Location) : Tree :=
  (ancestors place).foldl
    (fun t p => if isFixed p then t else ⟨t.entries.insert p .directory⟩) t

/-- The tree with an entry at a place, and with the directories that lead there. -/
def insert (t : Tree) (place : Location) (e : FileEntry) : Tree :=
  ⟨(t.addParents place).entries.insert place e⟩

/-! ## Paths -/

/-- The place above a directory. -/
def parent (place : Location) : Location :=
  if place = ["/"] then place
  else if place.all (· == "..") then place ++ [".."]
  else place.dropLast

/-- One step from a place, which has to be a directory. -/
def step (t : Tree) (place : Location) (name : String) : Except FileError Location :=
  match t.entry? place with
  | none => .error .notFound
  | some (.file _) => .error .notADirectory
  | some .directory =>
    if name = "" || name = "." then .ok place
    else if name = ".." then .ok (parent place)
    else if Path.maxNameSize < name.utf8ByteSize then .error .nameTooLong
    else .ok (place ++ [name])

/-- Where a path begins. -/
def origin (path : String) : Location := if Path.isAbsolute path then ["/"] else []

/-- Why a path is refused before any file is looked at, if it is. -/
def refusal? (path : String) : Option FileError :=
  if Path.hasNul path then some .nulInPath
  else if path = "" then some .notFound
  else if Path.maxSize < path.utf8ByteSize then some .nameTooLong
  else none

/-- The place that a path leads to, whether or not something stands there. -/
def locate (t : Tree) (path : String) : Except FileError Location :=
  match refusal? path with
  | some e => .error e
  | none => (Path.components path).foldlM t.step (origin path)

/-- What a path leads to. -/
def find (t : Tree) (path : String) : Except FileError FileEntry :=
  match t.locate path with
  | .error e => .error e
  | .ok place =>
    match t.entry? place with
    | some e => .ok e
    | none => .error .notFound

/-- Whether a path leads to a file. -/
def isFile (t : Tree) (path : String) : Bool :=
  match t.find path with
  | .ok (.file _) => true
  | _ => false

/-- Whether a path leads to a directory. -/
def isDirectory (t : Tree) (path : String) : Bool :=
  match t.find path with
  | .ok .directory => true
  | _ => false

/-! ## Reading -/

/-- The text of a file, which has to be valid UTF-8. -/
def readText (t : Tree) (path : String) : Except FileError String :=
  match t.find path with
  | .error e => .error e
  | .ok .directory => .error .isADirectory
  | .ok (.file content) =>
    match String.fromUTF8? content with
    | some text => .ok text
    | none => .error .invalidText

/-- The names of the entries of a directory, in order. -/
def list (t : Tree) (path : String) : Except FileError (List String) :=
  match t.locate path with
  | .error e => .error e
  | .ok place =>
    match t.entry? place with
    | none => .error .notFound
    | some (.file _) => .error .notADirectory
    | some .directory =>
      .ok (t.entries.entries.filterMap fun (p, _) =>
        if p.dropLast = place then p.getLast? else none)

/-! ## Writing -/

/-- Where a file that is written to a path belongs. The directory that it belongs to has to exist,
and no directory may stand in its place; a path that ends in a slash or in dots can only be that of
a directory. -/
def target (t : Tree) (path : String) : Except FileError Location :=
  match refusal? path with
  | some e => .error e
  | none => do
    -- slashes at the end do not count as a name
    let names := (Path.components path).reverse
    let last := (names.dropWhile (· == "")).head?.getD ""
    let above := (names.dropWhile (· == "")).tail.reverse
    let place ← above.foldlM t.step (origin path)
    let slashed := names.head? = some ""
    -- the name in front of a slash is not looked up
    let p ← t.step place (if slashed then "" else last)
    if slashed || last = "." || last = ".." || (t.entry? p).any FileEntry.isDirectory then
      throw .isADirectory
    else pure p

/-- The tree after a file has been written. -/
def write (t : Tree) (path : String) (content : ByteArray) : Except FileError Tree :=
  (t.target path).map fun place => ⟨t.entries.insert place (.file content)⟩

end Tree

end FixedDomain
