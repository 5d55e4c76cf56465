import FixedDomain.CommandLine.Reader
import FixedDomain.CommandLine.Run

/-! # The command line

The program as it is started: it copies what a run may look at into a file tree, runs, and carries
out what the run has changed.

* `Snapshot` — copying files of the system into a tree, imports of documents included.
* `main` — the whole program. It fails if an ontology fails.
-/

namespace FixedDomain

namespace Snapshot

/-- The location that a path is about. -/
def location (path : String) : Location :=
  (Path.components path).foldl (fun place name =>
    if name = "" || name = "." then place
    else if name = ".." then Tree.parent place
    else place ++ [name]) (Tree.origin path)

/-- The path of a location. -/
def path : Location → String
  | "/" :: names => "/" ++ "/".intercalate names
  | names => "/".intercalate names

/-- What stands at a path of the system, with the names in it if it is a directory. -/
def entry? (path : String) : IO (Option (FileEntry × List String)) := do
  try
    let children ← (← IO.FS.realPath path).readDir
    pure (some (.directory, children.toList.map (·.fileName)))
  catch _ =>
    try pure (some (.file (← IO.FS.readBinFile path), []))
    catch _ => pure none

/-- Copies the directories above a location. -/
def addAbove (t : Tree) (place : Location) : IO Tree :=
  (Tree.ancestors place).foldlM (fun t above => do
    if (t.entry? above).isSome then pure t
    else
      match ← entry? (path above) with
      | some (entry, _) => pure (t.insert above entry)
      | none => pure t) t

/-- The locators that a document imports. -/
def importsOf (entry : FileEntry) : List String := (importsIn entry).map (·.text)

/-- Copies what stands at some paths, and all that it imports. -/
partial def add (t : Tree) : List String → IO Tree
  | [] => pure t
  | text :: rest => do
    let place := location text
    if (t.entry? place).isSome && !Tree.isFixed place then add t rest
    else
      let t ← addAbove t place
      match ← entry? text with
      | none => add t rest
      | some (entry, _) =>
        let t := if Tree.isFixed place then t else t.insert place entry
        add t ((importsOf entry).map Catalog.pathOf ++ rest)

/-- The documents in the directories among some locators. -/
def scanned (locators : List String) : IO (List String) := do
  let found ← locators.mapM fun locator => do
    let directory := Catalog.pathOf locator
    match ← entry? directory with
    | some (.directory, names) =>
      pure ((names.filter Catalog.isDocumentName).map (Path.child directory))
    | _ => pure []
  pure found.flatten

/-- All that a run with some options may look at. -/
def ofOptions (o : Options) : IO Tree := do
  let locators := o.ontologies ++ o.domain.toList ++ o.entail.toList
  add .empty (o.config.toList ++ o.output.toList ++ o.axiomatize.toList ++
    locators.map Catalog.pathOf ++ (← scanned o.ontologies))

/-- Writes the files that a run has changed. -/
def carryOut (before after : Tree) : IO Unit :=
  after.entries.entries.forM fun (place, entry) => do
    match entry, before.entries.find? place with
    | .file content, some (.file old) =>
      if content.toList ≠ old.toList then IO.FS.writeBinFile (path place) content
    | .file content, _ => IO.FS.writeBinFile (path place) content
    | .directory, _ => pure ()

end Snapshot

/-- Shows why a command line is not run. -/
def refuse (e : UsageError) : IO UInt32 := do
  match e with
  | .helpRequested | .versionRequested =>
    IO.println e.message
    pure 0
  | e =>
    IO.eprintln e.message
    pure 2

/-- Shows a notice. -/
def showNotice (n : Notice) : IO Unit :=
  let level := match n.level with
    | .warning => "WARN"
    | .error => "ERROR"
  IO.eprintln (level ++ " " ++ n.message)

/-- Runs a command line on the files of the system. -/
def execute (o : Options) : IO UInt32 := do
  let before ← Snapshot.ofOptions o
  let (outcome, world) := o.run.run (World.start before)
  world.notices.forM showNotice
  IO.print world.printed
  Snapshot.carryOut before world.files
  match outcome with
  | .ok failures => pure (if failures = 0 then 0 else 1)
  | .error e =>
    IO.eprintln ("Error: " ++ e.message)
    pure 1

end FixedDomain

open FixedDomain in
def main (words : List String) : IO UInt32 :=
  match Options.read words with
  | .error e => refuse e
  | .ok o => execute o
