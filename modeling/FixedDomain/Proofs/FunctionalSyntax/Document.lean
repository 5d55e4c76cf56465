import FixedDomain.Proofs.FunctionalSyntax.Printed
import FixedDomain.Proofs.Ontology

/-! # Documents are read back

A document is written line by line, and no line prolongs a token of the line before. So a document is
read if each of its statements is (`readOntology_of_states`).

* `States` — a text is read as an axiom, wherever it stands in a document.
* `Ontology.HasWritableHeader` — what is written before the axioms can be read back.
-/

namespace FixedDomain.FunctionalSyntax

/-! ## Lines -/

/-- The characters of some lines, each with its line break. -/
def charactersOf (lines : List String) : List Char := lines.flatMap fun line => line.toList ++ ['\n']

@[simp] theorem charactersOf_nil : charactersOf [] = [] := rfl

@[simp] theorem charactersOf_cons (line : String) (lines : List String) :
    charactersOf (line :: lines) = line.toList ++ '\n' :: charactersOf lines := by
  simp [charactersOf]

theorem charactersOf_append (lines lines' : List String) :
    charactersOf (lines ++ lines') = charactersOf lines ++ charactersOf lines' :=
  List.flatMap_append

/-- The tokens of a text before a line break. -/
theorem Covers.line {p : Place} {text : List Char} {located : List Located} (h : Covers p text located)
    (more : List Char) : tokenizeFrom p (text ++ '\n' :: more) =
      (tokenizeFrom (p.after (text ++ ['\n'])) more).map (located ++ ·) := by
  rw [h.append (endsBefore_cons rfl), tokenizeFrom_blank rfl, ← Place.after_append]

/-- The tokens of some lines are those of each line. -/
theorem exists_tokens_of_lines {lines : List String} {tss : List (List Token)}
    (h : LexesAll lines tss) (p : Place) : ∃ located, located.map (·.token) = tss.flatten ∧
      ∀ more, tokenizeFrom p (charactersOf lines ++ more) =
        (tokenizeFrom (p.after (charactersOf lines)) more).map (located ++ ·) := by
  induction h generalizing p with
  | nil => exact ⟨[], rfl, fun more => by cases h : tokenizeFrom p more <;> simp [h, Except.map]⟩
  | @cons line ts lines tss hline _ ih =>
    obtain ⟨first, hcovers, hfirst⟩ := hline p
    obtain ⟨located, hlocated, hmore⟩ := ih (p.after (line.toList ++ ['\n']))
    refine ⟨first ++ located, by simp [hfirst, hlocated], fun more => ?_⟩
    rw [charactersOf_cons, List.append_assoc, List.cons_append, hcovers.line, hmore,
      ← Place.after_append, List.append_assoc, List.singleton_append]
    cases tokenizeFrom (p.after (line.toList ++ '\n' :: charactersOf lines)) more <;>
      simp [Except.map]

/-! ## Statements -/

/-- A text begins with a keyword, and it is read as an axiom wherever it stands in a document. -/
def States (ns : Namespaces) (text : String) (a : Axiom) : Prop :=
  ∃ kind ts, kind ∉ ["Import", "Annotation"] ∧ Lexes text.toList (.keyword kind :: ts) ∧
    ∀ before after t body rest steps, 3 * ts.length ≤ steps → body.map (·.token) = ts →
      Covers (Place.start.after before) text.toList (t :: body) →
      statement (before ++ text.toList ++ after) ns steps t.start kind (body ++ rest) =
        .ok (some a, rest)

/-- An axiom that is read as a statement is not taken for an unsupported one. -/
theorem ReadsBack.states {ns : Namespaces} {kind text : String} {a : Axiom}
    (h : ReadsBack ns kind text a) (hkind : kind ∉ ["Import", "Annotation"]) : States ns text a := by
  obtain ⟨ts, hlexes, hreads⟩ := h
  refine ⟨kind, ts, hkind, hlexes, fun before after t body rest steps hsteps hbody _ => ?_⟩
  rw [statement, hreads steps hsteps body rest hbody]

/-! ## Parts -/

section Parts

variable {text : List Char} {ns : Namespaces} {steps : Nat} {o : Ontology} {t : Located}
  {left rest : List Located}

theorem get_apply (left : List Located) :
    (get : Reading (List Located)) left = .ok (left, left) := rfl

theorem parts_of_rightParen (h : t.token = .rightParen) :
    parts text ns (steps + 1) o (t :: left) = .ok (o, left) := by
  rw [parts, bind_of_ok (get_apply _)]
  simp only [List.head?_cons, h]
  rfl

theorem parts_of_import {iri : Iri} {located : List Located}
    (h : located.map (·.token) = [.keyword "Import", .leftParen, iriToken iri, .rightParen]) :
    parts text ns (steps + 1) o (located ++ rest) =
      parts text ns steps { o with imports := o.imports ++ [iri] } rest := by
  obtain ⟨t, group, rfl, ht, hgroup⟩ := List.map_eq_cons_iff.1 h
  rw [List.cons_append, parts, bind_of_ok (get_apply _)]
  simp only [List.head?_cons, ht]
  rw [bind_of_ok (skip_cons t _)]
  exact (reads_iriOr .expectedIri iri ns).fills.parens_bind _ hgroup rest

theorem parts_of_statement {kind : String} {a : Axiom} (ht : t.token = .keyword kind)
    (hkind : kind ∉ ["Import", "Annotation"])
    (h : statement text ns steps t.start kind left = .ok (some a, rest)) :
    parts text ns (steps + 1) o (t :: left) = parts text ns steps (o.add a) rest := by
  obtain ⟨himport, hannotation⟩ : kind ≠ "Import" ∧ kind ≠ "Annotation" := by simpa using hkind
  rw [parts, bind_of_ok (get_apply _)]
  simp only [List.head?_cons, ht]
  rw [bind_of_ok (skip_cons t _), bind_of_ok h]

end Parts

/-- A token that begins a part of an ontology, or ends the ontology. -/
def IsPartStart (t : Token) : Prop := t = .rightParen ∨ ∃ kind, t = .keyword kind

/-- The lines of the statements, with that of the closing parenthesis. -/
def statementLines (texts : List String) : List String := texts.map ("    " ++ ·) ++ [")"]

/-- The statements of a document are read one after another, up to the closing parenthesis. -/
theorem exists_parts_of_states {ns : Namespaces} {texts : List String} {axioms : List Axiom}
    (h : List.Forall₂ (States ns) texts axioms) (before : List Char) :
    ∃ left, tokenizeFrom (Place.start.after before) (charactersOf (statementLines texts)) = .ok left ∧
      (∃ t ∈ left.head?, IsPartStart t.token) ∧
      ∀ steps o, 3 * left.length ≤ steps →
        parts (before ++ charactersOf (statementLines texts)) ns steps o left =
          .ok (axioms.foldl Ontology.add o, []) := by
  induction h generalizing before with
  | nil =>
    have hclose : LexesAll [")"] [[.rightParen]] := .cons lexes_rightParen .nil
    obtain ⟨located, hlocated, htokens⟩ := exists_tokens_of_lines hclose (Place.start.after before)
    obtain ⟨t, rfl, ht⟩ := List.map_eq_singleton_iff.1 hlocated
    refine ⟨[t], ?_, ⟨t, rfl, .inl ht⟩, fun steps o hsteps => ?_⟩
    · simpa [statementLines, tokenizeFrom_nil, Except.map] using htokens []
    · obtain ⟨steps, rfl⟩ := Nat.exists_eq_add_one_of_ne_zero
        (show steps ≠ 0 by simp at hsteps; omega)
      exact parts_of_rightParen ht
  | @cons text a texts axioms hstates _ ih =>
    obtain ⟨kind, ts, hkind, hlexes, hstatement⟩ := hstates
    let indented := before ++ "    ".toList
    obtain ⟨located, hcovers, htokens⟩ := hlexes (Place.start.after indented)
    obtain ⟨t, body, rfl, ht, hbody⟩ := List.map_eq_cons_iff.1 htokens
    obtain ⟨left, hleft, -, hparts⟩ := ih (indented ++ (text.toList ++ ['\n']))
    let more := charactersOf (statementLines texts)
    have hline : charactersOf (statementLines (text :: texts)) =
        "    ".toList ++ (text.toList ++ '\n' :: more) := by
      simp [statementLines, more]
    refine ⟨t :: (body ++ left), ?_, ⟨t, rfl, .inr ⟨kind, ht⟩⟩, fun steps o hsteps => ?_⟩
    · rw [hline, tokenizeFrom_blanks (by decide), ← Place.after_append, hcovers.line,
        ← Place.after_append, hleft]
      rfl
    · simp only [List.length_cons, List.length_append] at hsteps
      obtain ⟨steps, rfl⟩ := Nat.exists_eq_add_one_of_ne_zero (show steps ≠ 0 by omega)
      have htext : before ++ charactersOf (statementLines (text :: texts)) =
          indented ++ text.toList ++ '\n' :: more := by
        rw [hline]
        simp [indented]
      have hread := hstatement indented ('\n' :: more) t body left steps
        (by rw [← hbody, List.length_map]; omega) hbody hcovers
      have htext' : indented ++ (text.toList ++ ['\n']) ++ more =
          indented ++ text.toList ++ '\n' :: more := by simp
      rw [htext, parts_of_statement ht hkind hread, ← htext', hparts steps _ (by omega)]
      rfl

/-- The tokens of an import. -/
def importTokens (iri : Iri) : List Token := [.keyword "Import", .leftParen, iriToken iri, .rightParen]

theorem lexes_import {iri : Iri} (h : iri.IsWritable) :
    Lexes ("    " ++ group "Import" [iri.render]).toList (importTokens iri) := by
  have hkeyword : isKeyword "Import".toList = true := by decide
  have hgroup := lexes_group hkeyword (by simp) (.cons (lexes_iri h) .nil)
  rw [String.toList_append]
  exact hgroup.blanks (by decide)

theorem parts_of_imports {text : List Char} {ns : Namespaces} {steps : Nat} {rest : List Located}
    (imports : List Iri) (o : Ontology) {located : List Located}
    (h : located.map (·.token) = imports.flatMap importTokens) :
    parts text ns (steps + imports.length) o (located ++ rest) =
      parts text ns steps { o with imports := o.imports ++ imports } rest := by
  induction imports generalizing o located with
  | nil =>
    obtain rfl := List.map_eq_nil_iff.1 h
    simp
  | cons iri imports ih =>
    obtain ⟨first, located, rfl, hfirst, hlocated⟩ := List.map_eq_append_iff.1 h
    rw [List.length_cons, ← Nat.add_assoc, List.append_assoc, parts_of_import hfirst, ih _ hlocated,
      List.append_assoc, List.singleton_append]

/-! ## Headers -/

theorem lexes_equals : Lexes ['='] [.equals] := .single rfl (by decide) rfl

/-- The tokens of a declaration of a short name. -/
def namespaceTokens (declared : String × String) : List Token :=
  [.keyword "Prefix", .leftParen, .prefixedName (declared.1 ++ ":"), .equals, .fullIri declared.2,
    .rightParen]

theorem lexes_namespace {declared : String × String} (hname : IsPrefixName declared.1)
    (hspace : IsBracketable declared.2) :
    Lexes (renderNamespace declared).toList (namespaceTokens declared) := by
  have hclose := (lexes_fullIri hspace).append lexes_rightParen (endsBefore_cons rfl)
  have hequals := lexes_equals.append hclose (.inr ⟨.equals, rfl, '=', rfl⟩)
  have hfirst : Lexes (declared.1 ++ ":").toList [.prefixedName (declared.1 ++ ":")] := by
    have h := lexes_shortName declared.1 [] hname (by simp)
    have htext : declared.1.toList ++ [':'] = (declared.1 ++ ":").toList := by simp
    rwa [htext, String.ofList_toList] at h
  have hdeclaration := hfirst.append hequals (endsBefore_cons rfl)
  have hopen := lexes_leftParen.append hdeclaration (.inr ⟨.leftParen, rfl, '(', rfl⟩)
  have hkeyword : Lexes "Prefix".toList [.keyword "Prefix"] := lexes_keyword (by decide)
  have hall := hkeyword.append hopen (endsBefore_cons rfl)
  simpa [renderNamespace, namespaceTokens] using hall

theorem reads_namespaceDeclaration {declared : String × String} (h : IsPrefixName declared.1) :
    Reads namespaceDeclaration (namespaceTokens declared).tail declared := by
  intro located rest hts
  obtain ⟨t₁, located, rfl, h₁, hts⟩ := List.map_eq_cons_iff.1 hts
  obtain ⟨t₂, located, rfl, h₂, hts⟩ := List.map_eq_cons_iff.1 hts
  obtain ⟨t₃, located, rfl, h₃, hts⟩ := List.map_eq_cons_iff.1 hts
  obtain ⟨t₄, located, rfl, h₄, hts⟩ := List.map_eq_cons_iff.1 hts
  obtain ⟨t₅, rfl, h₅⟩ := List.map_eq_singleton_iff.1 hts
  have hsplit : splitName (declared.1 ++ ":") = (declared.1, "") := by
    simpa using splitName_of_isPrefixName h ""
  simp only [namespaceDeclaration, bind_apply, expect, next, List.cons_append, h₁, h₂, h₃, h₄, h₅,
    hsplit, if_true]
  rfl

/-- The keyword that ends a header. -/
theorem reads_header_end (steps : Nat) (declared : SortedMap String String) :
    Reads (header (steps + 1) declared) [.keyword "Ontology"] declared := by
  intro located rest hts
  obtain ⟨t, rfl, ht⟩ := List.map_eq_singleton_iff.1 hts
  rw [List.singleton_append, header, bind_of_ok (peek_cons t _), ht]
  rfl

/-- A declaration in front of a header. -/
theorem Reads.header {declared : SortedMap String String} {e : String × String} {steps : Nat}
    {ts : List Token} {m : SortedMap String String} (he : IsPrefixName e.1)
    (h : Reads (header steps (declared.insert e.1 e.2)) ts m) :
    Reads (FunctionalSyntax.header (steps + 1) declared) (namespaceTokens e ++ ts) m := by
  intro located rest hts
  obtain ⟨t, located, rfl, ht, hts⟩ := List.map_eq_cons_iff.1 hts
  rw [List.cons_append, FunctionalSyntax.header, bind_of_ok (peek_cons t _), ht]
  have hboth := (reads_namespaceDeclaration he).bind
    (f := fun e => FunctionalSyntax.header steps (declared.insert e.1 e.2)) h
  exact hboth located rest hts

/-- The short names of a header are declared one after another. -/
theorem reads_header {entries : List (String × String)} (h : ∀ e ∈ entries, IsPrefixName e.1)
    {steps : Nat} (hsteps : entries.length < steps) (declared : SortedMap String String) :
    Reads (header steps declared) (entries.flatMap namespaceTokens ++ [Token.keyword "Ontology"])
      (entries.foldl (fun m e => m.insert e.1 e.2) declared) := by
  obtain ⟨steps, rfl⟩ := Nat.exists_eq_add_one_of_ne_zero (show steps ≠ 0 by omega)
  induction entries generalizing steps declared with
  | nil => exact reads_header_end steps declared
  | cons e entries ih =>
    obtain ⟨he, hentries⟩ := List.forall_mem_cons.1 h
    rw [List.length_cons] at hsteps
    obtain ⟨steps, rfl⟩ := Nat.exists_eq_add_one_of_ne_zero (show steps ≠ 0 by omega)
    rw [List.flatMap_cons, List.append_assoc, List.foldl_cons]
    exact (ih hentries (declared.insert e.1 e.2) steps (by omega)).header he

/-! ## Documents -/

/-- Before a part of an ontology there is no IRI. -/
theorem iri?_of_isPartStart {left : List Located} (h : ∃ t ∈ left.head?, IsPartStart t.token)
    (ns : Namespaces) : iri? ns left = .ok (none, left) := by
  obtain ⟨t, ht, hstart⟩ := h
  obtain ⟨left, rfl⟩ : ∃ rest, left = t :: rest := by
    cases left with
    | nil => cases ht
    | cons t' rest => exact ⟨rest, by rw [Option.some.inj ht]⟩
  rcases hstart with hclose | ⟨kind, hkind⟩
  · rw [iri?, bind_of_ok (peek_cons t _), hclose]
    rfl
  · exact iri?_of_keyword hkind ns left

/-- The tokens of the name of an ontology, if it has one. -/
def nameTokens (name : Option Iri) : List Token := (name.map iriToken).toList

/-- Behind its header and its name a document consists of parts. -/
theorem document_front {text : List Char} {steps : Nat} {entries : List (String × String)}
    {name : Option Iri} {located left : List Located}
    (hentries : ∀ e ∈ entries, IsPrefixName e.1) (hsteps : entries.length < steps)
    (hlocated : located.map (·.token) = entries.flatMap namespaceTokens ++
      Token.keyword "Ontology" :: Token.leftParen :: nameTokens name)
    (hleft : ∃ t ∈ left.head?, IsPartStart t.token) :
    document text steps (located ++ left) = (do
      let o ← parts text ⟨.ofList entries⟩ steps ⟨name, [], .ofList entries, [], .empty⟩
      match ← peek with
      | none => pure o
      | some _ => fault .trailingContent) left := by
  have htokens : entries.flatMap namespaceTokens ++ Token.keyword "Ontology" :: Token.leftParen ::
      nameTokens name = (entries.flatMap namespaceTokens ++ [Token.keyword "Ontology"]) ++
        (Token.leftParen :: nameTokens name) := by simp
  rw [htokens] at hlocated
  obtain ⟨first, second, rfl, hfirst, hsecond⟩ := List.map_eq_append_iff.1 hlocated
  obtain ⟨t, third, rfl, ht, hthird⟩ := List.map_eq_cons_iff.1 hsecond
  have hopen : expect .leftParen (t :: (third ++ left)) = .ok ((), third ++ left) := by
    simp [expect, ht]
  have hheader := reads_header hentries hsteps .empty first (t :: (third ++ left)) hfirst
  change _ = Except.ok (SortedMap.ofList entries, _) at hheader
  rw [document, List.append_assoc, List.cons_append, bind_of_ok hheader]
  dsimp only
  rw [bind_of_ok hopen]
  -- after the name no version follows
  have hversion := iri?_of_isPartStart hleft ⟨.ofList entries⟩
  cases name with
  | none =>
    obtain rfl := List.map_eq_nil_iff.1 hthird
    rw [List.nil_append, bind_of_ok hversion]
    rfl
  | some iri =>
    rw [bind_of_ok (reads_iri? iri _ third left hthird)]
    exact bind_of_ok hversion

/-- A document consists of its header, its name and its parts. -/
theorem document_eq {text : List Char} {steps : Nat} {entries : List (String × String)}
    {name : Option Iri} {o : Ontology} {located left : List Located}
    (hentries : ∀ e ∈ entries, IsPrefixName e.1) (hsteps : entries.length < steps)
    (hlocated : located.map (·.token) = entries.flatMap namespaceTokens ++
      Token.keyword "Ontology" :: Token.leftParen :: nameTokens name)
    (hleft : ∃ t ∈ left.head?, IsPartStart t.token)
    (hparts : parts text ⟨.ofList entries⟩ steps ⟨name, [], .ofList entries, [], .empty⟩ left =
      .ok (o, [])) :
    document text steps (located ++ left) = .ok (o, []) := by
  rw [document_front hentries hsteps hlocated hleft]
  exact bind_of_ok hparts

end FixedDomain.FunctionalSyntax

namespace FixedDomain.Ontology

open FunctionalSyntax

/-- The short names that the document of an ontology declares. -/
def writtenEntries (o : Ontology) : List (String × String) :=
  o.prefixes.entries ++ if o.prefixes.contains "owl" then [] else [("owl", owlNamespace)]

/-- An ontology without its axioms is a header that can be written. -/
structure HasWritableHeader (o : Ontology) : Prop where
  names : ∀ e ∈ o.prefixes.entries, IsPrefixName e.1
  spaces : ∀ e ∈ o.prefixes.entries, IsBracketable e.2
  iri : ∀ iri ∈ o.iri, iri.IsWritable
  imports : ∀ iri ∈ o.imports, iri.IsWritable

/-- The lines of a document before its axioms. -/
def frontLines (o : Ontology) : List String :=
  o.writtenEntries.map renderNamespace ++ ["Ontology(" ++ (o.iri.map Iri.render).getD ""] ++
    o.imports.map fun iri => "    " ++ group "Import" [iri.render]

theorem HasWritableHeader.writtenEntries {o : Ontology} (h : o.HasWritableHeader) :
    ∀ e ∈ o.writtenEntries, IsPrefixName e.1 ∧ IsBracketable e.2 := by
  have howl : IsPrefixName "owl" ∧ IsBracketable owlNamespace := by decide
  intro e he
  rcases List.mem_append.1 he with he | he
  · exact ⟨h.names e he, h.spaces e he⟩
  · split at he
    · cases he
    · exact List.mem_singleton.1 he ▸ howl

theorem toList_render (o : Ontology) :
    o.render.toList = charactersOf o.frontLines ++
      charactersOf (statementLines (o.axioms.map Axiom.render)) := by
  have hheader : o.headerLines = o.writtenEntries.map renderNamespace := by
    rw [headerLines, writtenEntries, List.map_append]
    split <;> rfl
  have hlines : o.lines = o.frontLines ++ statementLines (o.axioms.map Axiom.render) := by
    simp [lines, hheader, frontLines, statementLines, Function.comp_def]
  rw [← charactersOf_append, ← hlines, render, String.toList_join, List.flatMap_map, charactersOf]
  simp

theorem lexes_opening {name : Option Iri} (h : ∀ iri ∈ name, iri.IsWritable) :
    Lexes ("Ontology(" ++ (name.map Iri.render).getD "").toList
      (Token.keyword "Ontology" :: Token.leftParen :: nameTokens name) := by
  have hkeyword : Lexes "Ontology".toList [.keyword "Ontology"] := lexes_keyword (by decide)
  have hopen := hkeyword.append lexes_leftParen (endsBefore_cons rfl)
  cases name with
  | none => exact hopen
  | some iri =>
    have hall := hopen.append (lexes_iri (h iri rfl)) (.inr ⟨.leftParen, rfl, '(', rfl⟩)
    simpa [nameTokens] using hall

theorem lexes_frontLines {o : Ontology} (h : o.HasWritableHeader) :
    ∃ tss, LexesAll o.frontLines tss ∧ tss.flatten = o.writtenEntries.flatMap namespaceTokens ++
      Token.keyword "Ontology" :: Token.leftParen :: nameTokens o.iri ++
      o.imports.flatMap importTokens := by
  have hnamespaces := lexesAll_map fun e he =>
    lexes_namespace (h.writtenEntries e he).1 (h.writtenEntries e he).2
  have himports := lexesAll_map fun iri hiri => lexes_import (h.imports iri hiri)
  refine ⟨_, List.rel_append (List.rel_append hnamespaces (.cons (lexes_opening h.iri) .nil)) himports, ?_⟩
  simp [List.flatMap_def]

/-- The imports of a document are read before its axioms. -/
theorem document_of_parts {text : List Char} {o o' : Ontology} {front imports left : List Located}
    (hheader : o.HasWritableHeader)
    (hfront : front.map (·.token) = o.writtenEntries.flatMap namespaceTokens ++
      Token.keyword "Ontology" :: Token.leftParen :: nameTokens o.iri)
    (himports : imports.map (·.token) = o.imports.flatMap importTokens)
    (hstart : ∃ t ∈ left.head?, IsPartStart t.token)
    (hparts : ∀ steps, 3 * left.length ≤ steps → parts text ⟨.ofList o.writtenEntries⟩ steps
      ⟨o.iri, o.imports, .ofList o.writtenEntries, [], .empty⟩ left = .ok (o', []))
    {steps : Nat} (hsteps : 3 * (front ++ imports ++ left).length ≤ steps) :
    document text steps (front ++ imports ++ left) = .ok (o', []) := by
  have hfrontLength := congrArg List.length hfront
  have himportsLength := congrArg List.length himports
  simp [namespaceTokens, importTokens, List.length_flatMap] at hfrontLength himportsLength
  simp only [List.length_append] at hsteps
  have hpartStart : ∃ t ∈ (imports ++ left).head?, IsPartStart t.token := by
    cases imports with
    | nil => exact hstart
    | cons t imports =>
      cases hcases : o.imports with
      | nil => simp [hcases] at himports
      | cons iri iris =>
        rw [hcases] at himports
        exact ⟨t, rfl, .inr ⟨"Import", (List.cons.inj himports).1⟩⟩
  rw [List.append_assoc]
  refine document_eq (fun e he => (hheader.writtenEntries e he).1) (by omega) hfront hpartStart ?_
  obtain ⟨rest, rfl⟩ := Nat.exists_eq_add_of_le' (show o.imports.length ≤ steps by omega)
  rw [parts_of_imports o.imports _ himports]
  exact hparts rest (by omega)

/-- A document whose header can be written is read if each of its statements is. -/
theorem readOntology_of_states {o : Ontology} (hheader : o.HasWritableHeader) {text : String}
    {texts : List String} {axioms : List Axiom}
    (htext : text.toList = charactersOf o.frontLines ++ charactersOf (statementLines texts))
    (hstates : List.Forall₂ (States ⟨.ofList o.writtenEntries⟩) texts axioms) :
    readOntology text = .ok (axioms.foldl add
      ⟨o.iri, o.imports, .ofList o.writtenEntries, [], .empty⟩) := by
  obtain ⟨tss, hlexes, htss⟩ := lexes_frontLines hheader
  obtain ⟨located, hlocated, htokens⟩ := exists_tokens_of_lines hlexes Place.start
  obtain ⟨left, hleft, hstart, hparts⟩ := exists_parts_of_states hstates (charactersOf o.frontLines)
  rw [htss] at hlocated
  obtain ⟨front, imports, rfl, hfront, himports⟩ := List.map_eq_append_iff.1 hlocated
  have htokenize : tokenize text.toList = .ok (front ++ imports ++ left) := by
    rw [tokenize, htext, htokens, hleft]
    rfl
  have hdocument := document_of_parts hheader hfront himports hstart (hparts · _)
    (Nat.le_add_right _ 4)
  rw [readOntology, htokenize, htext]
  dsimp only
  rw [hdocument]

/-- A document is read back if each of its axioms is. -/
theorem readOntology_render_of_states {o : Ontology} (hheader : o.HasWritableHeader)
    (haxioms : ∀ a ∈ o.axioms, States ⟨.ofList o.writtenEntries⟩ a.render a) :
    readOntology o.render = .ok (o.axioms.foldl add
      ⟨o.iri, o.imports, .ofList o.writtenEntries, [], .empty⟩) := by
  refine readOntology_of_states hheader (toList_render o) ?_
  rw [List.forall₂_map_left_iff]
  exact List.forall₂_same.2 haxioms

end FixedDomain.Ontology
