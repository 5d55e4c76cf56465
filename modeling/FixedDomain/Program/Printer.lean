import FixedDomain.Program.Basic

/-! # Programs as text

How programs are written for a solver: one entry to a line, comments behind a percent sign,
alternatives in a head separated by bars.
-/

namespace FixedDomain

/-- The sign of a comparison. -/
def Comparison.render : Comparison → String
  | lt => "<"
  | le => "<="
  | eq => "="
  | ge => ">="
  | gt => ">"

mutual

/-- The text of a literal. A count without elements is the number zero. -/
def Literal.render : Literal → String
  | .pos a => a.render
  | .not a => "not " ++ a.render
  | .count [] op bound => "0 " ++ op.render ++ " " ++ toString bound
  | .count (e :: es) op bound =>
    "#count\x7b " ++ "; ".intercalate (e.render :: CountElement.renderList es) ++ " \x7d " ++
      op.render ++ " " ++ toString bound

/-- The texts of a list of literals. -/
def Literal.renderList : List Literal → List String
  | [] => []
  | l :: ls => l.render :: Literal.renderList ls

/-- The text of what a count counts. -/
def CountElement.render : CountElement → String
  | ⟨terms, []⟩ => ",".intercalate terms
  | ⟨terms, l :: ls⟩ =>
    ",".intercalate terms ++ " : " ++ ", ".intercalate (l.render :: Literal.renderList ls)

/-- The texts of a list of elements. -/
def CountElement.renderList : List CountElement → List String
  | [] => []
  | e :: es => e.render :: CountElement.renderList es

end

/-- The text of a body. -/
def renderBody (body : List Literal) : String := ", ".intercalate (Literal.renderList body)

namespace Rule

/-- The text of a head. -/
def renderHead (head : List Atom) : String := " | ".intercalate (head.map Atom.render)

/-- The text of a rule. A constraint without body is written with the body that always holds. -/
def render : Rule → String
  | ⟨[], []⟩ => ":- #true."
  | ⟨[], body⟩ => ":- " ++ renderBody body ++ "."
  | ⟨head, []⟩ => renderHead head ++ "."
  | ⟨head, body⟩ => renderHead head ++ " :- " ++ renderBody body ++ "."

end Rule

/-- The line of an entry. -/
def Statement.render : Statement → String
  | comment text => "% " ++ text
  | rule r => r.render

namespace Program

/-- The lines of a program. -/
def lines (p : Program) : List String := p.statements.toList.map Statement.render

/-- The text of a program; each line is ended by a line break. -/
def render (p : Program) : String := String.join (p.lines.map (· ++ "\n"))

end Program

end FixedDomain
