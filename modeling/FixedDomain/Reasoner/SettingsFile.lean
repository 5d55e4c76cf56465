import FixedDomain.Files.Tree
import FixedDomain.Reasoner.Error
import FixedDomain.Reasoner.Settings
import FixedDomain.Toml.Reader

/-! # Settings from files

How settings are written in TOML:

* `Settings.ofEntries?` — the settings in the table of a document. What it does not mention stays
  as in the standard settings, and keys that mean nothing are passed over.
* `Settings.load` — the settings in a file.
-/

namespace FixedDomain

/-! ## Values -/

namespace Toml

/-- The text of a string. -/
def text? : Toml → Option String
  | string text => some text
  | _ => none

/-- The texts of an array of strings. -/
def texts? : Toml → Option (List String)
  | array items => items.mapM text?
  | _ => none

/-- The value of an integer that is not negative. -/
def count? : Toml → Option Nat
  | integer n => if 0 ≤ n then some n.toNat else none
  | _ => none

/-- Whether there is nothing in an array or a table. -/
def isVacant : Toml → Bool
  | array items => items.isEmpty
  | table _ entries => entries.isEmpty
  | _ => false

/-- A choice by name: a string, or a table with the name as its only key and nothing under it. -/
def choice? : Toml → Option String
  | string text => some text
  | table _ [(name, value)] => if value.isVacant then some name else none
  | _ => none

/-- What a table says under a key, read in some way; a default if the key is missing. -/
def setting {α : Type} (read : Toml → Option α) (standard : α) : Option Toml → Option α
  | none => some standard
  | some value => read value

end Toml

/-! ## Settings -/

/-- The solver settings with the given values. -/
def SolverSettings.ofValues? (backend clingoPath arguments : Option Toml) :
    Option SolverSettings := do
  let standard := Settings.standard.solver
  pure {
    backend := ← Toml.setting (fun v => v.choice?.bind Backend.ofName?) standard.backend backend
    clingoPath := ← Toml.setting Toml.text? standard.clingoPath clingoPath
    arguments := ← Toml.setting Toml.texts? standard.arguments arguments }

/-- The solver settings in a value: a table, or the values of its keys in order. A date is a value
without keys. -/
def SolverSettings.ofToml? : Toml → Option SolverSettings
  | .table _ entries =>
    ofValues? (Toml.lookup entries "backend") (Toml.lookup entries "clingo_path")
      (Toml.lookup entries "args")
  | .array items | .tables items => ofValues? items[0]? items[1]? items[2]?
  | .dateTime => ofValues? none none none
  | _ => none

namespace Settings

/-- The settings in the table of a document. -/
def ofEntries? (entries : Toml.Entries) : Option Settings := do
  let value := Toml.lookup entries
  let number := Toml.setting (fun v => v.count?.map some) none
  pure {
    strategy :=
      ← Toml.setting (fun v => v.choice?.bind Strategy.ofName?) standard.strategy (value "strategy")
    naming :=
      ← Toml.setting (fun v => v.choice?.bind NamingScheme.ofName?) standard.naming (value "mapper")
    timeoutMilliseconds := ← number (value "timeout_ms")
    maxDomainSize := ← number (value "max_domain_size")
    projection := ← Toml.setting Toml.texts? standard.projection (value "projection")
    solver := ← Toml.setting SolverSettings.ofToml? standard.solver (value "solver") }

/-- The settings that a text holds. -/
def read (text : String) : Option Settings := (Toml.read text).bind ofEntries?

/-- The settings in a file. -/
def load (t : Tree) (path : String) : Except ConfigurationFault Settings :=
  match t.readText path with
  | .error _ => .error (.unreadableFile path)
  | .ok text =>
    match read text with
    | some s => .ok s
    | none => .error (.invalidFile path)

end Settings

end FixedDomain
