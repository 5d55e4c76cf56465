import FixedDomain.Text.Blank

/-! # Ground atoms

* `Atom` — a predicate applied to constants, possibly under classical negation. Atoms are ordered
  with those that are not negated first, then by predicate, then by arguments.
* `Atom.render` and `Atom.read` — the text of an atom and the way back.
-/

namespace FixedDomain

/-- A ground atom `p(a,b)`, or `-p(a,b)` if it is negated. -/
structure Atom where
  negated : Bool
  predicate : String
  arguments : List String
  deriving DecidableEq, Hashable, Inhabited

namespace Atom

/-! ## Order -/

instance : Ord Atom :=
  ⟨compareLex (compareOn negated) (compareLex (compareOn predicate) (compareOn arguments))⟩

instance : Std.TransOrd Atom :=
  inferInstanceAs (Std.TransCmp
    (compareLex (compareOn negated) (compareLex (compareOn predicate) (compareOn arguments))))

instance : Std.LawfulEqOrd Atom where
  eq_of_compare {a b} h := by
    have h : compareLex (compareOn negated)
        (compareLex (compareOn predicate) (compareOn arguments)) a b = .eq := h
    simp only [compareLex_eq_eq, compareOn, Std.LawfulEqCmp.compare_eq_iff_eq] at h
    obtain ⟨h1, h2, h3⟩ := h
    cases a; cases b; simp_all

/-! ## Construction -/

/-- The atom `p(args)`. -/
def positive (predicate : String) (arguments : List String) : Atom :=
  ⟨false, predicate, arguments⟩

/-- The classically opposite atom. -/
def complement (a : Atom) : Atom := { a with negated := !a.negated }

@[simp] theorem complement_complement (a : Atom) : a.complement.complement = a := by
  simp [complement]

theorem complement_ne (a : Atom) : a.complement ≠ a := by
  intro h
  have hnegated : (!a.negated) = a.negated := congrArg Atom.negated h
  simp at hnegated

/-! ## Text -/

/-- The text of an atom; without arguments there are no parentheses. -/
def render (a : Atom) : String :=
  (if a.negated then "-" else "") ++ a.predicate ++
    if a.arguments.isEmpty then "" else "(" ++ ",".intercalate a.arguments ++ ")"

/-- Where a reader of arguments stands: outside of strings, in a string, or in a string behind a
backslash. -/
inductive Quotation where
  | outside
  | inside
  | escaped
  deriving DecidableEq

/-- Splits arguments at the commas that stand outside of parentheses and strings. `term` holds
the characters of the current argument, last first. A parenthesis that closes nothing counts as
part of the argument, and so does an open string at the end. -/
def splitFrom (quotation : Quotation) (depth : Nat) (term : List Char) :
    List Char → List (List Char)
  | [] => [term.reverse]
  | c :: cs =>
    match quotation with
    | .escaped => splitFrom .inside depth (c :: term) cs
    | .inside =>
      let quotation :=
        if c = '\\' then Quotation.escaped else if c = '"' then .outside else .inside
      splitFrom quotation depth (c :: term) cs
    | .outside =>
      if c = '"' then splitFrom .inside depth (c :: term) cs
      else if c = '(' then splitFrom .outside (depth + 1) (c :: term) cs
      else if c = ')' then splitFrom .outside (depth - 1) (c :: term) cs
      else if c = ',' ∧ depth = 0 then term.reverse :: splitFrom .outside 0 [] cs
      else splitFrom .outside depth (c :: term) cs

/-- The arguments in the text between the parentheses of an atom; an empty text has none. -/
def splitArguments (text : List Char) : List String :=
  if text.isEmpty then [] else (splitFrom .outside 0 [] text).map String.ofList

/-- Why a text is not an atom. -/
inductive Malformed where
  | unbalanced (text : String)
  | missingPredicate (text : String)
  deriving DecidableEq

/-- The wording for a text that is not an atom. -/
def Malformed.message : Malformed → String
  | unbalanced text => "unbalanced atom '" ++ text ++ "'"
  | missingPredicate text => "missing predicate in '" ++ text ++ "'"

/-- The predicate and the arguments of an atom without its sign: what stands before the first
parenthesis, and what stands between it and one at the end. -/
def readUnsigned (text : List Char) : Option (List Char × List String) :=
  match text.dropWhile (· != '(') with
  | [] => some (text, [])
  | _ :: inner =>
    if inner.getLast? = some ')' then
      some (text.takeWhile (· != '('), splitArguments inner.dropLast)
    else none

/-- Reads an atom; white space around it does not count. -/
def read (text : String) : Except Malformed Atom :=
  let trimmed := trimBlanks text.toList
  let (negated, unsigned) :=
    match trimmed with
    | '-' :: rest => (true, rest)
    | rest => (false, rest)
  match readUnsigned unsigned with
  | none => .error (.unbalanced (String.ofList trimmed))
  | some (predicate, arguments) =>
    if predicate.isEmpty then .error (.missingPredicate (String.ofList trimmed))
    else .ok ⟨negated, String.ofList predicate, arguments⟩

end Atom

end FixedDomain
