import FixedDomain.Text.Blank
import FixedDomain.Text.Quoted

/-! # Tokens of the functional syntax

* `Token` — the words of a document, with `display`, the form that messages show.
* `Lexeme` — a token with the characters it covers and those that follow.
* `Lexeme.first` — the longest token at the front of a text, or the characters read before no
  token could be completed.
* `tokenize` — all tokens of a text with their places, blanks and comments left out.
-/

namespace FixedDomain.FunctionalSyntax

/-! ## Tokens -/

/-- A word of a document. -/
inductive Token where
  | leftParen
  | rightParen
  | equals
  | doubleCaret
  | fullIri (iri : String)
  | prefixedName (name : String)
  | keyword (word : String)
  | integer (digits : String)
  | literal (source : String)
  | languageTag (tag : String)
  deriving DecidableEq

/-- The form of a token that messages show: its class, and the text it was read from. -/
def Token.display : Token → String
  | leftParen => "LParen"
  | rightParen => "RParen"
  | equals => "Equals"
  | doubleCaret => "DoubleCaret"
  | fullIri iri => "FullIri(" ++ quoted ("<" ++ iri ++ ">") ++ ")"
  | prefixedName name => "PrefixedName(" ++ quoted name ++ ")"
  | keyword word => "Keyword(" ++ quoted word ++ ")"
  | integer digits => "Integer(" ++ quoted digits ++ ")"
  | literal source => "StringLiteral(" ++ quoted source ++ ")"
  | languageTag tag => "LangTag(" ++ quoted tag ++ ")"

/-! ## Character classes -/

/-- Blanks between tokens. -/
def isBlank (c : Char) : Bool :=
  c == ' ' || c == '\t' || c == '\r' || c == '\n' || c == '\x0c'

/-- An ASCII letter. -/
def isLetter (c : Char) : Bool := c.isAlpha

/-- What may begin a short name or a keyword. -/
def isNameStart (c : Char) : Bool := isLetter c || c == '_'

/-- What may stand in a keyword. -/
def isWordChar (c : Char) : Bool := isLetter c || c.isDigit || c == '_'

/-- What may stand in either half of a short name. -/
def isNameChar (c : Char) : Bool := isWordChar c || c == '.' || c == '-'

/-- What may stand between the angle brackets of a full IRI. -/
def isIriChar (c : Char) : Bool := c != '<' && c != '>' && !isWhiteSpace c

/-- What may stand in a language tag after its first letter. -/
def isTagChar (c : Char) : Bool := isLetter c || c.isDigit || c == '-'

/-- Whether a run of name characters is a keyword. -/
def isKeyword (run : List Char) : Bool :=
  match run with
  | [] => false
  | c :: cs => isLetter c && cs.all isWordChar

/-! ## One token -/

/-- A token, the characters it covers and the characters after it. -/
structure Lexeme where
  token : Token
  source : List Char
  rest : List Char

/-- The rest of a string literal after its opening quote: the characters up to the closing quote
and those after it, or the characters read before the literal could not go on. A backslash
covers the next character, which must not be a line break. -/
def literalTail : List Char → Except (List Char) (List Char × List Char)
  | [] => .error []
  | '"' :: cs => .ok (['"'], cs)
  -- a backslash needs something to cover
  | ['\\'] => .error []
  | '\\' :: c :: cs =>
    if c = '\n' then .error []
    else
      match literalTail cs with
      | .ok (read, rest) => .ok ('\\' :: c :: read, rest)
      | .error read => .error ('\\' :: c :: read)
  | c :: cs =>
    match literalTail cs with
    | .ok (read, rest) => .ok (c :: read, rest)
    | .error read => .error (c :: read)

namespace Lexeme

/-- A token that covers the characters in `source`. -/
def ofSource (token : String → Token) (source rest : List Char) : Lexeme :=
  ⟨token (String.ofList source), source, rest⟩

/-- A short name whose first half has been read up to its colon. -/
def shortName (first cs : List Char) : Lexeme :=
  ofSource .prefixedName (first ++ ':' :: cs.takeWhile isNameChar) (cs.dropWhile isNameChar)

/-- A token that begins with a run of name characters: a short name if a colon follows the run,
else a keyword, if the run is one. -/
def ofRun (run rest : List Char) : Except (List Char) Lexeme :=
  match rest with
  | ':' :: cs => .ok (shortName run cs)
  | _ => if isKeyword run then .ok (ofSource .keyword run rest) else .error run

/-- A full IRI whose opening bracket has been read. -/
def iri (cs : List Char) : Except (List Char) Lexeme :=
  let body := cs.takeWhile isIriChar
  match cs.dropWhile isIriChar with
  | '>' :: rest => .ok ⟨.fullIri (String.ofList body), '<' :: body ++ ['>'], rest⟩
  | _ => .error ('<' :: body)

/-- A token of two carets, the first of which has been read. -/
def caret : List Char → Except (List Char) Lexeme
  | '^' :: rest => .ok ⟨.doubleCaret, ['^', '^'], rest⟩
  | _ => .error ['^']

/-- A string literal whose opening quote has been read. -/
def literal (cs : List Char) : Except (List Char) Lexeme :=
  match literalTail cs with
  | .ok (read, rest) => .ok (ofSource .literal ('"' :: read) rest)
  | .error read => .error ('"' :: read)

/-- A language tag whose sign has been read. -/
def languageTag : List Char → Except (List Char) Lexeme
  | [] => .error ['@']
  | d :: ds =>
    if isLetter d then
      .ok (ofSource .languageTag ('@' :: d :: ds.takeWhile isTagChar) (ds.dropWhile isTagChar))
    else .error ['@']

/-- The tokens of a single character. -/
def punctuation (c : Char) : Option Token :=
  if c = '(' then some .leftParen
  else if c = ')' then some .rightParen
  else if c = '=' then some .equals
  else none

/-- The longest token at the front of a text that begins with `c`; without one, the characters
that were read before the token got stuck. -/
def first (c : Char) (cs : List Char) : Except (List Char) Lexeme :=
  match punctuation c with
  | some token => .ok ⟨token, [c], cs⟩
  | none =>
    if c = '^' then caret cs
    else if c = '<' then iri cs
    else if c = ':' then .ok (shortName [] cs)
    else if isNameStart c then ofRun (c :: cs.takeWhile isNameChar) (cs.dropWhile isNameChar)
    else if c.isDigit then
      .ok (ofSource .integer (c :: cs.takeWhile Char.isDigit) (cs.dropWhile Char.isDigit))
    else if c = '"' then literal cs
    else if c = '@' then languageTag cs
    else .error [c]

/-! ## The pieces of a text -/

theorem literalTail_eq {cs read rest : List Char} (h : literalTail cs = .ok (read, rest)) :
    cs = read ++ rest := by
  fun_induction literalTail cs generalizing read rest with
  | case2 cs =>
    obtain ⟨rfl, rfl⟩ := Prod.mk.inj (Except.ok.inj h)
    rfl
  | case5 c cs hc read' rest' heq ih =>
    obtain ⟨rfl, rfl⟩ := Prod.mk.inj (Except.ok.inj h)
    simp [ih heq]
  | case7 c cs _ _ _ read' rest' heq ih =>
    obtain ⟨rfl, rfl⟩ := Prod.mk.inj (Except.ok.inj h)
    simp [ih heq]
  | _ => cases h

/-- A token of a text begins it and covers at least one character. -/
def Begins (l : Lexeme) (cs : List Char) : Prop :=
  l.source ++ l.rest = cs ∧ l.source ≠ []

theorem shortName_begins (first cs : List Char) :
    (shortName first cs).Begins (first ++ ':' :: cs) := by
  simp [Begins, shortName, ofSource]

theorem ofRun_begins {run rest : List Char} {l : Lexeme} (hr : run ≠ [])
    (h : ofRun run rest = .ok l) : l.Begins (run ++ rest) := by
  unfold ofRun at h
  split at h
  · obtain rfl := Except.ok.inj h
    exact shortName_begins ..
  · split at h
    · obtain rfl := Except.ok.inj h
      exact ⟨rfl, hr⟩
    · cases h

theorem iri_begins {cs : List Char} {l : Lexeme} (h : iri cs = .ok l) :
    l.Begins ('<' :: cs) := by
  unfold iri at h
  split at h
  · next rest heq =>
    obtain rfl := Except.ok.inj h
    have := List.takeWhile_append_dropWhile (p := isIriChar) (l := cs)
    rw [heq] at this
    simp [Begins, this]
  · cases h

theorem caret_begins {cs : List Char} {l : Lexeme} (h : caret cs = .ok l) :
    l.Begins ('^' :: cs) := by
  unfold caret at h
  split at h
  · obtain rfl := Except.ok.inj h
    simp [Begins]
  · cases h

theorem literal_begins {cs : List Char} {l : Lexeme} (h : literal cs = .ok l) :
    l.Begins ('"' :: cs) := by
  unfold literal at h
  split at h
  · next heq =>
    obtain rfl := Except.ok.inj h
    simp [Begins, ofSource, literalTail_eq heq]
  · cases h

theorem languageTag_begins {cs : List Char} {l : Lexeme} (h : languageTag cs = .ok l) :
    l.Begins ('@' :: cs) := by
  unfold languageTag at h
  split at h
  · cases h
  · split at h
    · obtain rfl := Except.ok.inj h
      simp [Begins, ofSource]
    · cases h

/-- A token found at the front of a text begins that text. -/
theorem first_begins {c : Char} {cs : List Char} {l : Lexeme} (h : first c cs = .ok l) :
    l.Begins (c :: cs) := by
  unfold first at h
  split at h
  · obtain rfl := Except.ok.inj h
    simp [Begins]
  by_cases h1 : c = '^'
  · rw [if_pos h1] at h
    exact h1 ▸ caret_begins h
  rw [if_neg h1] at h
  by_cases h2 : c = '<'
  · rw [if_pos h2] at h
    exact h2 ▸ iri_begins h
  rw [if_neg h2] at h
  by_cases h3 : c = ':'
  · rw [if_pos h3] at h
    obtain rfl := Except.ok.inj h
    exact h3 ▸ shortName_begins [] cs
  rw [if_neg h3] at h
  by_cases h4 : isNameStart c = true
  · rw [if_pos h4] at h
    simpa using ofRun_begins (by simp) h
  rw [if_neg h4] at h
  by_cases h5 : c.isDigit = true
  · rw [if_pos h5] at h
    obtain rfl := Except.ok.inj h
    simp [Begins, ofSource]
  rw [if_neg h5] at h
  by_cases h6 : c = '"'
  · rw [if_pos h6] at h
    exact h6 ▸ literal_begins h
  rw [if_neg h6] at h
  by_cases h7 : c = '@'
  · rw [if_pos h7] at h
    exact h7 ▸ languageTag_begins h
  · rw [if_neg h7] at h
    cases h

theorem rest_length_lt {c : Char} {cs : List Char} {l : Lexeme} (h : first c cs = .ok l) :
    l.rest.length < (c :: cs).length := by
  obtain ⟨heq, hne⟩ := first_begins h
  rw [← heq, List.length_append]
  have := List.length_pos_iff.2 hne
  omega

end Lexeme

/-! ## All tokens -/

/-- A place in a text: how many characters stand before it, and its line, counted from 1. -/
structure Place where
  offset : Nat
  line : Nat
  deriving DecidableEq

/-- The place after a piece of text that begins at `p`. -/
def Place.after (p : Place) (read : List Char) : Place :=
  ⟨p.offset + read.length, p.line + read.count '\n'⟩

/-- The first place of a text. -/
def Place.start : Place := ⟨0, 1⟩

/-- A token with the places where it begins and ends. -/
structure Located where
  token : Token
  start : Place
  stop : Place

/-- The blanks and comments at the front of a text, and what follows them. A comment runs from a
hash sign to the end of its line. -/
def splitIgnored : List Char → List Char × List Char
  | [] => ([], [])
  | c :: cs =>
    if isBlank c then
      let (ignored, rest) := splitIgnored cs
      (c :: ignored, rest)
    else if c = '#' then
      let (ignored, rest) := splitIgnored (cs.dropWhile (· != '\n'))
      (c :: cs.takeWhile (· != '\n') ++ ignored, rest)
    else ([], c :: cs)
termination_by cs => cs.length
decreasing_by
  · simp
  · exact Nat.lt_succ_of_le (List.dropWhile_sublist _).length_le

theorem splitIgnored_append (cs : List Char) :
    (splitIgnored cs).1 ++ (splitIgnored cs).2 = cs := by
  fun_induction splitIgnored cs with
  | case1 => rfl
  | case2 c cs hc ignored rest heq ih => simpa [heq] using ih
  | case3 cs ignored rest heq _ ih =>
    rw [heq] at ih
    simp only at ih
    simp [ih]
  | case4 => rfl

theorem splitIgnored_length_le (cs : List Char) : (splitIgnored cs).2.length ≤ cs.length := by
  have := congrArg List.length (splitIgnored_append cs)
  rw [List.length_append] at this
  omega

/-- The tokens of a text that begins at a place. If some characters begin no token, the answer is
those characters and the place where they stand. -/
def tokenizeFrom (place : Place) (cs : List Char) :
    Except (Place × List Char) (List Located) :=
  match _h : (splitIgnored cs).2 with
  | [] => .ok []
  | d :: ds =>
    let start := place.after (splitIgnored cs).1
    match _hl : Lexeme.first d ds with
    | .error stuck => .error (start, stuck)
    | .ok l =>
      let stop := start.after l.source
      match tokenizeFrom stop l.rest with
      | .error e => .error e
      | .ok located => .ok (⟨l.token, start, stop⟩ :: located)
termination_by cs.length
decreasing_by
  have := Lexeme.rest_length_lt _hl
  have := splitIgnored_length_le cs
  rw [_h] at this
  omega

/-- The tokens of a whole text. -/
def tokenize (cs : List Char) : Except (Place × List Char) (List Located) :=
  tokenizeFrom .start cs

end FixedDomain.FunctionalSyntax
