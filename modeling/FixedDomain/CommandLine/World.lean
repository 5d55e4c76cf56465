import FixedDomain.Files.Buffer
import FixedDomain.Files.Tree
import FixedDomain.Notice

/-! # The world of a run

A run of a command line is a step on a world of files, so that all it does can be seen from its
result:

* `World` — the files, where the output goes, what has been printed, and the notices.
* `World.send` — output on its way to its destination. A file is written on from where the output
  before has ended, even if somebody else has written the file in the meantime.
* `Run` — steps on a world. `Run.write` leaves its fragments in a buffer, so that the file of the
  output may lag behind until `Run.flush`.
-/

namespace FixedDomain

/-! ## Worlds -/

/-- Where the output of a run goes: to the terminal, or to a place in the tree, in which so many
bytes have been written. -/
inductive Destination where
  | terminal
  | file (place : Location) (written : Nat)

/-- What a run can see and change. Output waits in `buffer` until it is sent off; what has been
sent to the terminal is `printed`. -/
structure World where
  files : Tree
  destination : Destination
  buffer : Buffer
  printed : String
  notices : List Notice

/-- Some bytes with others written over them from a position on. A gap before them is filled up with
zeros. -/
def overwrite (content : ByteArray) (position : Nat) (bytes : ByteArray) : ByteArray :=
  let gap := List.replicate (position - content.size) 0
  content.extract 0 position ++ gap.toByteArray ++ bytes ++
    content.extract (position + bytes.size) content.size

namespace World

/-- The world before a run. -/
def start (files : Tree) : World := ⟨files, .terminal, .empty, "", []⟩

/-- Sends a text to where the output goes. -/
def send (w : World) (text : String) : World :=
  match w.destination with
  | .terminal => { w with printed := w.printed ++ text }
  | .file place written =>
    if text = "" then w
    else
      -- the file may have been replaced in the meantime; the position stays
      let bytes := text.toUTF8
      let content :=
        match w.files.entry? place with
        | some (.file content) => content
        | _ => ByteArray.empty
      { w with
        files := ⟨w.files.entries.insert place (.file (overwrite content written bytes))⟩
        destination := .file place (written + bytes.size) }

/-- Takes some fragments into the buffer. -/
def write (w : World) (fragments : List String) : World :=
  let (sent, buffer) := w.buffer.addAll fragments
  { w with buffer }.send sent

/-- Sends off all that waits. -/
def flush (w : World) : World := { w with buffer := .empty }.send w.buffer.waiting

end World

/-! ## Runs -/

/-- Steps on a world. -/
abbrev Run := StateM World

instance : Reports Run := ⟨fun n => modify fun w => { w with notices := w.notices ++ [n] }⟩

namespace Run

/-- The files as they are. -/
def files : Run Tree := return (← get).files

/-- Adds some fragments to the output. -/
def write (fragments : List String) : Run Unit := modify fun w => w.write fragments

/-- Sends off the output that waits. -/
def flush : Run Unit := modify World.flush

/-- Writes a file. -/
def writeFile (path text : String) : Run (Except FileError Unit) := do
  match (← files).write path text.toUTF8 with
  | .ok t =>
    modify fun w => { w with files := t }
    pure (.ok ())
  | .error e => pure (.error e)

end Run

end FixedDomain
