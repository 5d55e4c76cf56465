/-! # TOML values

* `Toml` — the values of a TOML document. Tables remember how they came about, since that decides
  whether they may be added to.
* `Toml.assign`, `Toml.openTable`, `Toml.openElement` — how the lines of a document extend its
  table. No key gets a value twice, and no table is opened twice.
-/

namespace FixedDomain

/-- How a table came about: by a header, on the way to another table in a header, on the way to a
dotted key, or between braces. -/
inductive TableOrigin where
  | headed
  | implied
  | dotted
  | braced
  deriving DecidableEq, Inhabited

/-- A TOML value. `tables` are the elements of an array of tables. -/
inductive Toml where
  | string (text : String)
  | integer (value : Int)
  | boolean (value : Bool)
  | float
  | dateTime
  | array (items : List Toml)
  | table (origin : TableOrigin) (entries : List (String × Toml))
  | tables (items : List Toml)
  deriving Inhabited

namespace Toml

/-- The entries of a table. -/
abbrev Entries := List (String × Toml)

/-- The value of a key. -/
def lookup (entries : Entries) (key : String) : Option Toml :=
  (entries.find? fun e => e.1 == key).map (·.2)

/-- The entries with another value for a key. A new key comes last. -/
def put (entries : Entries) (key : String) (value : Toml) : Entries :=
  if entries.any fun e => e.1 == key then
    entries.map fun e => if e.1 == key then (key, value) else e
  else entries ++ [(key, value)]

/-- Whether dotted keys may add to a table that came about in this way. -/
def TableOrigin.isExtensible : TableOrigin → Bool
  | .implied | .dotted => true
  | .headed | .braced => false

/-- A change to a table, given how the table came about. -/
abbrev Change := TableOrigin → Entries → Option (TableOrigin × Entries)

/-- Makes a change to a table. -/
def changeTable (change : Change) : Toml → Option Toml
  | table origin entries => (change origin entries).map fun t => table t.1 t.2
  | _ => none

/-- Makes a change to the table under a key: to the one that is there, to the last one of an array
of tables, or to a new one. -/
def descend (key : String) (origin : TableOrigin) (enter : TableOrigin → Bool) (change : Change) :
    Change := fun self entries =>
  match lookup entries key with
  | none =>
    (changeTable change (table origin [])).map fun t => (self, put entries key t)
  | some (table .braced _) => none
  | some t@(table inner _) =>
    if enter inner then (changeTable change t).map fun t => (self, put entries key t) else none
  | some (tables items) => do
    let last ← items.getLast?
    let t ← changeTable change last
    pure (self, put entries key (tables (items.dropLast ++ [t])))
  | some _ => none

/-- Gives a key its only value. A plain key belongs to the table that is open, a dotted one to
tables that came about by dotted keys. -/
def assign (path : List String) (key : String) (value : Toml) : Change :=
  path.foldr (fun part => descend part .dotted TableOrigin.isExtensible) fun origin entries =>
    if (decide (origin = .dotted) == !path.isEmpty) && (lookup entries key).isNone then
      some (origin, put entries key value)
    else none

/-- Makes a change in the table that a header names by its path. -/
def within (path : List String) (change : Change) : Change :=
  path.foldr (fun part => descend part .implied fun _ => true) change

/-- Opens a table: a new one, or one that is only implied so far. -/
def openTable (path : List String) (key : String) : Change :=
  within path fun origin entries =>
    match lookup entries key with
    | none => some (origin, put entries key (table .headed []))
    | some (table .implied inner) => some (origin, put entries key (table .headed inner))
    | some _ => none

/-- Opens a new element of an array of tables. -/
def openElement (path : List String) (key : String) : Change :=
  within path fun origin entries =>
    match lookup entries key with
    | none => some (origin, put entries key (tables [table .headed []]))
    | some (tables items) => some (origin, put entries key (tables (items ++ [table .headed []])))
    | some _ => none

end Toml

end FixedDomain
