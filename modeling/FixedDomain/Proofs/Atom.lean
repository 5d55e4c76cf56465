import FixedDomain.Proofs.Symbols

/-! # Texts of atoms

* `Atom.Passes` — texts that a reader of arguments passes over as a whole: numerals, identifiers and string
  constants, whatever they quote.
* `Atom.IsPredicate`, `Atom.IsArgument` — what may stand in an atom for its text to tell the parts.
* `Atom.withoutEmptyList` — the one thing that a text loses when it is read and written.
* `Naming.Writes` — the atoms over the symbols of a table and the predicates of the encoding.

What a table writes is read back, and whatever is read is written as it was read (`render_of_read`).
-/

namespace FixedDomain

/-! ## White space at the ends -/

theorem isWhiteSpace_of_isSymbolChar {c : Char} (h : NamingScheme.isSymbolChar c = true) :
    isWhiteSpace c = false := by
  simp only [NamingScheme.isSymbolChar, Char.isAlphanum, Char.isAlpha, Char.isUpper, Char.isLower,
    Char.isDigit, Bool.or_eq_true, Bool.and_eq_true, decide_eq_true_eq, beq_iff_eq, UInt32.le_iff_toNat_le,
    ge_iff_le] at h
  simp only [isWhiteSpace, Char.toNat]
  rcases h with ((h | h) | h) | rfl
  · simp at h ⊢
    omega
  · simp at h ⊢
    omega
  · simp at h ⊢
    omega
  · rfl

theorem dropBlanks_eq_self {cs : List Char} (h : ∀ c ∈ cs.head?, isWhiteSpace c = false) :
    dropBlanks cs = cs := by
  cases cs with
  | nil => rfl
  | cons c cs => simp [dropBlanks, h c rfl]

/-- A text that neither begins nor ends with white space is not trimmed. -/
theorem trimBlanks_eq_self {cs : List Char} (hfirst : ∀ c ∈ cs.head?, isWhiteSpace c = false)
    (hlast : ∀ c ∈ cs.getLast?, isWhiteSpace c = false) : trimBlanks cs = cs := by
  have hrev : dropBlanks cs.reverse = cs.reverse :=
    dropBlanks_eq_self (by simpa [List.head?_reverse] using hlast)
  rw [trimBlanks, dropBlanks_eq_self hfirst, hrev, List.reverse_reverse]

namespace Atom

/-! ## Splitting -/

/-- A text without influence on how what follows it is split, wherever it stands in an argument. -/
def Passes (text : List Char) : Prop :=
  ∀ depth term rest, splitFrom .outside depth term (text ++ rest) =
    splitFrom .outside depth (text.reverse ++ term) rest

theorem passes_nil : Passes [] := fun _ _ _ => rfl

theorem Passes.append {text text' : List Char} (h : Passes text) (h' : Passes text') :
    Passes (text ++ text') := by
  intro depth term rest
  rw [List.append_assoc, h, h', List.reverse_append, List.append_assoc]

theorem passes_singleton {c : Char} (hquote : c ≠ '"') (hopen : c ≠ '(') (hclose : c ≠ ')')
    (hcomma : c ≠ ',') : Passes [c] := by
  intro depth term rest
  simp [splitFrom, hquote, hopen, hclose, hcomma]

/-- Outside of strings only quotes, parentheses and commas count. -/
theorem passes_of_forall {text : List Char}
    (h : ∀ c ∈ text, c ≠ '"' ∧ c ≠ '(' ∧ c ≠ ')' ∧ c ≠ ',') : Passes text := by
  induction text with
  | nil => exact passes_nil
  | cons c text ih =>
    obtain ⟨⟨hquote, hopen, hclose, hcomma⟩, htext⟩ := List.forall_mem_cons.1 h
    exact (passes_singleton hquote hopen hclose hcomma).append (ih htext)

/-- In a string nothing counts, since the quotes in it are escaped. -/
theorem passes_quoted {written text : List Char} (h : NamingScheme.Quotes written text) :
    Passes ('"' :: (written ++ ['"'])) := by
  intro depth term rest
  simp [splitFrom, NamingScheme.splitFrom_inside h]

/-- Passed-over texts between commas are the arguments. -/
theorem splitFrom_intercalate {t : List Char} {ts : List (List Char)}
    (h : ∀ text ∈ t :: ts, Passes text) :
    splitFrom .outside 0 [] ([','].intercalate (t :: ts)) = t :: ts := by
  induction ts generalizing t with
  | nil =>
    have hall := h t List.mem_cons_self 0 [] []
    simpa [List.intercalate, splitFrom] using hall
  | cons t' ts ih =>
    obtain ⟨ht, hts⟩ := List.forall_mem_cons.1 h
    have hrest : [','].intercalate (t :: t' :: ts) = t ++ ',' :: [','].intercalate (t' :: ts) := by
      simp [List.intercalate]
    rw [hrest, ht]
    simp [splitFrom, ih hts]

theorem splitFrom_ne_nil (quotation : Quotation) (depth : Nat) (term text : List Char) :
    splitFrom quotation depth term text ≠ [] := by
  induction text generalizing quotation depth term with
  | nil => simp [splitFrom]
  | cons c text ih =>
    cases quotation with
    | escaped => exact ih _ _ _
    | inside => exact ih _ _ _
    | outside =>
      unfold splitFrom
      dsimp only
      split_ifs <;> first | exact ih _ _ _ | exact List.cons_ne_nil _ _

/-- Splitting takes away the commas between the arguments and nothing else. -/
theorem intercalate_splitFrom (quotation : Quotation) (depth : Nat) (term text : List Char) :
    [','].intercalate (splitFrom quotation depth term text) = term.reverse ++ text := by
  induction text generalizing quotation depth term with
  | nil => simp [splitFrom, List.intercalate]
  | cons c text ih =>
    have hkeep : ∀ quotation depth, [','].intercalate (splitFrom quotation depth (c :: term) text) =
        term.reverse ++ c :: text := fun quotation depth => by
      rw [ih, List.reverse_cons, List.append_assoc, List.singleton_append]
    cases quotation with
    | escaped => exact hkeep ..
    | inside => exact hkeep ..
    | outside =>
      unfold splitFrom
      dsimp only
      split_ifs with _ _ _ hcomma
      · exact hkeep ..
      · exact hkeep ..
      · exact hkeep ..
      · obtain ⟨rfl, -⟩ := hcomma
        obtain ⟨part, parts, hparts⟩ := List.exists_cons_of_ne_nil (splitFrom_ne_nil .outside 0 [] text)
        have hrest := ih .outside 0 []
        rw [hparts] at hrest ⊢
        have hcons : [','].intercalate (term.reverse :: part :: parts) =
            term.reverse ++ ',' :: [','].intercalate (part :: parts) := by
          simp [List.intercalate]
        rw [hcons, hrest, List.reverse_nil, List.nil_append]
      · exact hkeep ..

/-! ## Parts of atoms -/

/-- What may stand as a predicate: letters, digits and underscores, at least one. -/
def IsPredicate (text : String) : Prop :=
  text.toList ≠ [] ∧ ∀ c ∈ text.toList, NamingScheme.isSymbolChar c = true

/-- What may stand as an argument. -/
def IsArgument (text : String) : Prop := text.toList ≠ [] ∧ Passes text.toList

/-- A decimal number. -/
def IsNumeral (text : String) : Prop :=
  ∃ digits, digits ≠ [] ∧ (∀ c ∈ digits, c.isDigit = true) ∧
    (text.toList = digits ∨ text.toList = '-' :: digits)

theorem ne_of_isSymbolChar {c : Char} (h : NamingScheme.isSymbolChar c = true) :
    c ≠ '"' ∧ c ≠ '(' ∧ c ≠ ')' ∧ c ≠ ',' := by
  refine ⟨?_, ?_, ?_, ?_⟩ <;> rintro rfl <;> simp [NamingScheme.isSymbolChar] at h

theorem IsPredicate.isArgument {text : String} (h : IsPredicate text) : IsArgument text :=
  ⟨h.1, passes_of_forall fun c hc => ne_of_isSymbolChar (h.2 c hc)⟩

theorem IsNumeral.isArgument {text : String} (h : IsNumeral text) : IsArgument text := by
  obtain ⟨digits, hne, hdigits, htext⟩ := h
  have hpasses : Passes digits := passes_of_forall fun c hc =>
    ne_of_isSymbolChar (by simp [NamingScheme.isSymbolChar, Char.isAlphanum, hdigits c hc])
  rcases htext with htext | htext
  · exact ⟨htext ▸ hne, htext ▸ hpasses⟩
  · have hminus : Passes ['-'] := passes_singleton (by decide) (by decide) (by decide) (by decide)
    exact ⟨by simp [htext], htext ▸ hminus.append hpasses⟩

theorem isPredicate_of_isIdentifier {text : String} (h : NamingScheme.IsIdentifier text) :
    IsPredicate text := by
  obtain ⟨c, cs, htext, hc, hcs⟩ := h
  rw [IsPredicate, htext]
  exact ⟨List.cons_ne_nil _ _, List.forall_mem_cons.2 ⟨NamingScheme.isSymbolChar_of_isLower hc, hcs⟩⟩

theorem isArgument_of_isStringConstant {text quoted : String}
    (h : NamingScheme.IsStringConstant text quoted) : IsArgument text := by
  obtain ⟨written, htext, hquotes⟩ := h
  rw [IsArgument, htext]
  exact ⟨List.cons_ne_nil _ _, passes_quoted hquotes⟩

theorem isPredicate_numbered {stem : String} (hstem : IsPredicate stem) (k : Nat) :
    IsPredicate (stem ++ toString k) := by
  rw [IsPredicate, String.toList_append]
  refine ⟨List.append_ne_nil_of_left_ne_nil hstem.1 _, List.forall_mem_append.2 ⟨hstem.2, ?_⟩⟩
  exact fun c => NamingScheme.isSymbolChar_of_mem_toString

/-! ## Signs -/

/-- The sign at the beginning of a text, and what stands behind it. -/
def sign : List Char → Bool × List Char
  | '-' :: rest => (true, rest)
  | rest => (false, rest)

theorem sign_signed (negated : Bool) {c : Char} (hc : c ≠ '-') (cs : List Char) :
    sign ((if negated then ['-'] else []) ++ c :: cs) = (negated, c :: cs) := by
  cases negated with
  | false =>
    have hsign : sign (c :: cs) = (false, c :: cs) := by
      unfold sign
      split
      · next heq => exact absurd (List.cons.inj heq).1 hc
      · rfl
    exact hsign
  | true => rfl

theorem signed_sign (text : List Char) : (if (sign text).1 then ['-'] else []) ++ (sign text).2 = text := by
  unfold sign
  split <;> rfl

theorem read_eq (text : String) : read text =
    match readUnsigned (sign (trimBlanks text.toList)).2 with
    | none => .error (.unbalanced (String.ofList (trimBlanks text.toList)))
    | some (predicate, arguments) =>
      if predicate.isEmpty then .error (.missingPredicate (String.ofList (trimBlanks text.toList)))
      else .ok ⟨(sign (trimBlanks text.toList)).1, String.ofList predicate, arguments⟩ := rfl

/-- An atom is read from a text if it is read behind the sign and has a predicate. -/
theorem read_eq_ok_iff {text : String} {a : Atom} : read text = .ok a ↔
    (sign (trimBlanks text.toList)).1 = a.negated ∧ a.predicate.toList ≠ [] ∧
      readUnsigned (sign (trimBlanks text.toList)).2 = some (a.predicate.toList, a.arguments) := by
  rw [read_eq]
  obtain ⟨negated, predicate, arguments⟩ := a
  cases readUnsigned (sign (trimBlanks text.toList)).2 with
  | none => simp
  | some parts =>
    obtain ⟨predicate', arguments'⟩ := parts
    by_cases hempty : predicate' = []
    · refine iff_of_false (by simp [hempty]) ?_
      rintro ⟨-, hne, heq⟩
      apply hne
      rw [← (Prod.mk.inj (Option.some.inj heq)).1, hempty]
    · have htext : predicate' = predicate.toList ↔ String.ofList predicate' = predicate := by
        rw [← String.toList_inj, String.toList_ofList]
      simp only [List.isEmpty_iff, hempty, if_false, Except.ok.injEq, Atom.mk.injEq, Option.some.injEq,
        Prod.mk.injEq, htext]
      constructor
      · rintro ⟨h1, h2, h3⟩
        refine ⟨h1, ?_, h2, h3⟩
        rw [← htext.2 h2]
        exact hempty
      · rintro ⟨h1, -, h2, h3⟩
        exact ⟨h1, h2, h3⟩

/-! ## Reading what is written -/

/-- The characters of an atom behind its sign. -/
def body (a : Atom) : List Char :=
  a.predicate.toList ++
    if a.arguments = [] then []
    else '(' :: ([','].intercalate (a.arguments.map String.toList) ++ [')'])

theorem toList_render (a : Atom) :
    a.render.toList = (if a.negated then ['-'] else []) ++ a.body := by
  unfold render body
  cases a.negated <;> cases h : a.arguments <;> simp [String.toList_intercalate]

theorem splitArguments_intercalate {ts : List String} (hne : ts ≠ []) (h : ∀ t ∈ ts, IsArgument t) :
    splitArguments ([','].intercalate (ts.map String.toList)) = ts := by
  obtain ⟨t, ts, rfl⟩ := List.exists_cons_of_ne_nil hne
  have hpasses : ∀ text ∈ t.toList :: ts.map String.toList, Passes text := by
    simpa using fun s hs => (h s hs).2
  have hsome : [','].intercalate (t.toList :: ts.map String.toList) ≠ [] := by
    have := (h t List.mem_cons_self).1
    cases ts <;> simp [List.intercalate, this]
  rw [List.map_cons, splitArguments, if_neg (by simpa using hsome), splitFrom_intercalate hpasses]
  simp

theorem readUnsigned_predicate {predicate : List Char} (h : '(' ∉ predicate) :
    readUnsigned predicate = some (predicate, []) := by
  have hdrop : predicate.dropWhile (· != '(') = [] := by
    simpa using fun c hc => ne_of_mem_of_not_mem hc h
  rw [readUnsigned, hdrop]

theorem readUnsigned_applied {predicate : List Char} (h : '(' ∉ predicate) (inner : List Char) :
    readUnsigned (predicate ++ '(' :: (inner ++ [')'])) = some (predicate, splitArguments inner) := by
  have hne : ∀ c ∈ predicate, (c != '(') = true := by
    simpa using fun c hc => ne_of_mem_of_not_mem hc h
  simp [readUnsigned, List.dropWhile_append_of_pos hne, List.takeWhile_append_of_pos hne]

theorem readUnsigned_body {a : Atom} (hp : IsPredicate a.predicate)
    (ha : ∀ t ∈ a.arguments, IsArgument t) :
    readUnsigned a.body = some (a.predicate.toList, a.arguments) := by
  have hopen : '(' ∉ a.predicate.toList := fun h => (ne_of_isSymbolChar (hp.2 _ h)).2.1 rfl
  unfold body
  split
  · next hnone => rw [List.append_nil, readUnsigned_predicate hopen, hnone]
  · next hsome => rw [readUnsigned_applied hopen, splitArguments_intercalate hsome ha]

/-- Behind its sign an atom begins as its predicate does, and ends as it does or with a parenthesis. -/
theorem exists_of_body {a : Atom} (hp : IsPredicate a.predicate) :
    (∃ c cs, a.body = c :: cs ∧ NamingScheme.isSymbolChar c = true) ∧
      ∃ cs c, a.body = cs ++ [c] ∧ isWhiteSpace c = false := by
  obtain ⟨hne, hchars⟩ := hp
  refine ⟨?_, ?_⟩
  · obtain ⟨c, cs, hcs⟩ := List.exists_cons_of_ne_nil hne
    exact ⟨c, _, by rw [body, hcs, List.cons_append], hchars c (hcs ▸ List.mem_cons_self)⟩
  · by_cases hnone : a.arguments = []
    · have hlast := isWhiteSpace_of_isSymbolChar (hchars _ (List.getLast_mem hne))
      exact ⟨_, _, by rw [body, if_pos hnone, List.append_nil, List.dropLast_append_getLast hne], hlast⟩
    · rw [body, if_neg hnone, ← List.cons_append, ← List.append_assoc]
      exact ⟨_, _, rfl, rfl⟩

/-- The text of an atom has no white space at its ends. -/
theorem trimBlanks_render {a : Atom} (hp : IsPredicate a.predicate) :
    trimBlanks a.render.toList = a.render.toList := by
  obtain ⟨⟨c, cs, hbegin, hc⟩, cs', c', hend, hc'⟩ := exists_of_body hp
  rw [toList_render]
  refine trimBlanks_eq_self ?_ ?_
  · rw [hbegin]
    cases a.negated
    · simpa using isWhiteSpace_of_isSymbolChar hc
    · simp [isWhiteSpace]
  · rw [hend, ← List.append_assoc, List.getLast?_append]
    simpa using hc'

/-- An atom over what may stand in it is read from its text. -/
theorem read_render {a : Atom} (hp : IsPredicate a.predicate) (ha : ∀ t ∈ a.arguments, IsArgument t) :
    read a.render = .ok a := by
  obtain ⟨⟨c, cs, hbegin, hc⟩, -⟩ := exists_of_body hp
  have hminus : c ≠ '-' := by
    rintro rfl
    exact absurd hc (by decide)
  have hsign : sign (trimBlanks a.render.toList) = (a.negated, a.body) := by
    rw [trimBlanks_render hp, toList_render, hbegin, sign_signed _ hminus]
  rw [read_eq_ok_iff, hsign]
  exact ⟨rfl, hp.1, readUnsigned_body hp ha⟩

/-! ## Writing what is read -/

/-- A text without the parentheses of an atom when there is nothing between them. -/
def withoutEmptyList (text : String) : String :=
  if text.toList.dropWhile (· != '(') = ['(', ')'] then
    String.ofList (text.toList.takeWhile (· != '('))
  else text

/-- What is read without a sign is a predicate, alone or before parentheses. -/
theorem readUnsigned_eq_some {text predicate : List Char} {arguments : List String}
    (h : readUnsigned text = some (predicate, arguments)) : '(' ∉ predicate ∧
      (text = predicate ∧ arguments = [] ∨
        ∃ inner, text = predicate ++ '(' :: (inner ++ [')']) ∧ arguments = splitArguments inner) := by
  have htext := List.takeWhile_append_dropWhile (p := (· != '(')) (l := text)
  have htake : '(' ∉ text.takeWhile (· != '(') := fun hmem => by
    simpa using List.mem_takeWhile_imp hmem
  unfold readUnsigned at h
  split at h
  · next hdrop =>
    cases h
    rw [hdrop, List.append_nil] at htext
    exact ⟨htext ▸ htake, .inl ⟨rfl, rfl⟩⟩
  · next c inner hdrop =>
    split at h
    · next hlast =>
      cases h
      obtain rfl : c = '(' := by
        have := List.head?_dropWhile_not (· != '(') text
        simpa [hdrop] using this
      obtain ⟨init, rfl⟩ := List.getLast?_eq_some_iff.1 hlast
      rw [List.dropLast_concat]
      refine ⟨htake, .inr ⟨init, ?_, rfl⟩⟩
      rw [← hdrop, htext]
    · cases h

theorem splitArguments_eq_nil_iff {text : List Char} : splitArguments text = [] ↔ text = [] := by
  unfold splitArguments
  split
  · next h => simpa using h
  · next h => simpa [splitFrom_ne_nil] using h

theorem intercalate_splitArguments {text : List Char} :
    [','].intercalate ((splitArguments text).map String.toList) = text := by
  unfold splitArguments
  split
  · next h => simp_all [List.intercalate]
  · have hmap : ∀ parts : List (List Char), (parts.map String.ofList).map String.toList = parts :=
      fun parts => by simp [Function.comp_def]
    rw [hmap, intercalate_splitFrom, List.reverse_nil, List.nil_append]

section Front

variable {front : List Char} (h : '(' ∉ front)
include h

theorem withoutEmptyList_front : withoutEmptyList (String.ofList front) = String.ofList front := by
  have hdrop : front.dropWhile (· != '(') = [] := by
    simpa using fun c hc => ne_of_mem_of_not_mem hc h
  rw [withoutEmptyList, String.toList_ofList, hdrop, if_neg (by simp)]

theorem withoutEmptyList_applied (inner : List Char) :
    withoutEmptyList (String.ofList (front ++ '(' :: (inner ++ [')']))) =
      String.ofList (if inner = [] then front else front ++ '(' :: (inner ++ [')'])) := by
  have hne : ∀ c ∈ front, (c != '(') = true := by
    simpa using fun c hc => ne_of_mem_of_not_mem hc h
  rw [withoutEmptyList, String.toList_ofList, List.dropWhile_append_of_pos hne,
    List.takeWhile_append_of_pos hne]
  cases inner <;> simp

end Front

/-- What has been read is written as it was, but for an empty list of arguments. -/
theorem render_of_read {text : String} {a : Atom} (h : read text = .ok a) :
    a.render = withoutEmptyList (trim text) := by
  obtain ⟨hsign, -, hunsigned⟩ := read_eq_ok_iff.1 h
  have hsigned := signed_sign (trimBlanks text.toList)
  obtain ⟨hopen, hparts⟩ := readUnsigned_eq_some hunsigned
  have hfront : '(' ∉ (if a.negated then ['-'] else []) ++ a.predicate.toList := by
    cases a.negated <;> simpa using hopen
  rw [← String.toList_inj, toList_render, body, trim, ← hsigned, hsign]
  rcases hparts with ⟨htext, harguments⟩ | ⟨inner, htext, harguments⟩
  · rw [htext, harguments, withoutEmptyList_front hfront, if_pos rfl, List.append_nil,
      String.toList_ofList]
  · rw [htext, harguments, intercalate_splitArguments, ← List.append_assoc, ← List.append_assoc,
      withoutEmptyList_applied hfront, String.toList_ofList]
    by_cases hinner : inner = [] <;> simp [hinner, splitArguments_eq_nil_iff]

end Atom

/-! ## Atoms over a table -/

namespace Naming

/-- The predicates of a program over the symbols of a table. -/
inductive WritesPredicate (n : Naming) : String → Prop
  | atomicClass {iri : Iri} {symbol : String} (h : n.symbol? (.atomicClass iri) = some symbol) :
    WritesPredicate n symbol
  | objectProperty {iri : Iri} {symbol : String} (h : n.symbol? (.objectProperty iri) = some symbol) :
    WritesPredicate n symbol
  | activation : WritesPredicate n "_ax"
  | definition (k : Nat) : WritesPredicate n (auxName k)
  | query (k : Nat) : WritesPredicate n (queryName k)

/-- The arguments of a program over the symbols of a table. -/
inductive WritesArgument (n : Naming) : String → Prop
  | numeral {text : String} (h : Atom.IsNumeral text) : WritesArgument n text
  | individual {iri : Iri} {symbol : String} (h : n.symbol? (.individual iri) = some symbol) :
    WritesArgument n symbol

/-- An atom over the symbols of a table, with any number of arguments. -/
structure Writes (n : Naming) (a : Atom) : Prop where
  predicate : n.WritesPredicate a.predicate
  arguments : ∀ text ∈ a.arguments, n.WritesArgument text

section Faithful

variable {scheme : NamingScheme} {asked : List Entity} {n : Naming} (hn : n.Faithful scheme asked)
include hn

theorem WritesPredicate.isPredicate {text : String} (h : n.WritesPredicate text) :
    Atom.IsPredicate text := by
  cases h with
  | atomicClass h =>
    have hform := hn.form _ _ h
    cases scheme <;> exact Atom.isPredicate_of_isIdentifier hform.1
  | objectProperty h =>
    have hform := hn.form _ _ h
    cases scheme <;> exact Atom.isPredicate_of_isIdentifier hform.1
  | activation => exact ⟨by simp, by simp [NamingScheme.isSymbolChar]⟩
  | definition k => exact Atom.isPredicate_numbered ⟨by simp, by simp [NamingScheme.isSymbolChar]⟩ k
  | query k => exact Atom.isPredicate_numbered ⟨by simp, by simp [NamingScheme.isSymbolChar]⟩ k

theorem WritesArgument.isArgument {text : String} (h : n.WritesArgument text) :
    Atom.IsArgument text := by
  cases h with
  | numeral h => exact h.isArgument
  | individual h =>
    have hform := hn.form _ _ h
    cases scheme with
    | plain => exact (Atom.isPredicate_of_isIdentifier hform.1).isArgument
    | aspCore => exact Atom.isArgument_of_isStringConstant hform

theorem Writes.read_render {a : Atom} (h : n.Writes a) : Atom.read a.render = .ok a :=
  Atom.read_render (h.predicate.isPredicate hn) fun text ht => (h.arguments text ht).isArgument hn

end Faithful

/-- Atoms and their texts determine each other. Whatever symbols tables have been asked for, what is
written over the symbols of one of them is read back; and whatever text is read is, without the white space
around it and an empty list of arguments, the one that is written. -/
theorem atomText_roundTrip (scheme : NamingScheme) (events : List Event) :
    (∀ (k : Nat) (n : Naming), (tables scheme events)[k]? = some n →
      ∀ a, n.Writes a → Atom.read a.render = .ok a) ∧
    ∀ text a, Atom.read text = .ok a → a.render = Atom.withoutEmptyList (trim text) := by
  refine ⟨fun k n hk a ha => ?_, fun text a h => Atom.render_of_read h⟩
  have htable := forall₂_toList_getElem? (inUse_tables scheme events) k
  rw [hk] at htable
  obtain ⟨_, _, hn, -, -⟩ := List.forall₂_cons_right_iff.1 htable
  exact ha.read_render hn.faithful

/-- An individual whose name has a comma, a parenthesis, a quote and a backslash in it, as an argument. -/
theorem atomText_roundTrip_quoted :
    Atom.read "-_aux0(\"urn:a,(\\\"\\\\\",12)" =
      .ok ⟨true, "_aux0", ["\"urn:a,(\\\"\\\\\"", "12"]⟩ := by
  have htable : (tables .aspCore [.ask 0 (.individual ⟨"urn:a,(\"\\"⟩)])[0]? =
      some ⟨.aspCore, [(.individual ⟨"urn:a,(\"\\"⟩, "\"urn:a,(\\\"\\\\\"")]⟩ := by decide +kernel
  have hnumeral : Atom.IsNumeral "12" := ⟨['1', '2'], by simp, by simp [Char.isDigit], .inl (by simp)⟩
  refine (atomText_roundTrip .aspCore _).1 0 _ htable ⟨true, "_aux0", ["\"urn:a,(\\\"\\\\\"", "12"]⟩
    ⟨.definition 0, List.forall_mem_cons.2 ⟨?_, List.forall_mem_singleton.2 (.numeral hnumeral)⟩⟩
  exact @WritesArgument.individual _ ⟨"urn:a,(\"\\"⟩ _ (by simp [symbol?])

end Naming

end FixedDomain
