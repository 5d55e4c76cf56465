/-! # Encoding strategies

* `Strategy` — how axioms become rules: one generic encoding for each kind (`naive`), structural
  recursion with counts (`direct`), or the generic encoding with every rule tagged by its axiom
  (`debug`).
* `Strategy.render`, `Strategy.ofName?` — the names of the strategies.
-/

namespace FixedDomain

/-- How axioms become rules. -/
inductive Strategy where
  | naive
  | direct
  | debug
  deriving DecidableEq, Inhabited

namespace Strategy

/-- The name of a strategy. -/
def render : Strategy → String
  | naive => "naive"
  | direct => "direct"
  | debug => "debug"

/-- The strategy with a name in lower case; the tagged encoding has two names. -/
def ofName? : String → Option Strategy
  | "naive" => some naive
  | "direct" => some direct
  | "debug" | "naff" => some debug
  | _ => none

theorem ofName?_render (s : Strategy) : ofName? s.render = some s := by
  cases s <;> rfl

end Strategy

/-- A text with its ASCII letters in lower case. -/
def lowerAscii (s : String) : String := String.ofList (s.toList.map Char.toLower)

end FixedDomain
