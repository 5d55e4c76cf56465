import FixedDomain.Proofs.FunctionalSyntax.Kept
import FixedDomain.Proofs.FunctionalSyntax.RoundTrip

/-! # Accepted documents are written and read again

Whatever an accepted document describes, its names and axioms can be written, and what is kept as source
text is read as such again (`isAccepted_of_readOntology`). So the document that is written describes the
same ontology, if two conditions hold (`Ontology.IsRewritable`): the names that begin like those of
anonymous individuals are such names, and the short name of the predefined classes is not given to
another namespace.
-/

namespace FixedDomain

open FunctionalSyntax

theorem eq_ok_of_toOption {ε α : Type} {x : Except ε α} {a : α} (h : x.toOption = some a) :
    x = .ok a := by
  cases x with
  | error e => cases h
  | ok b => exact congrArg _ (Option.some.inj h)

/-! ## What accepted documents describe -/

/-- The names of an ontology can stand between angle brackets, and its axioms have their shape and
last. -/
structure Ontology.IsAccepted (o : Ontology) : Prop where
  built : o.Built
  prefixes : AreWritable o.prefixes.entries
  iri : ∀ iri ∈ o.iri, IsBracketable iri.text
  imports : ∀ iri ∈ o.imports, IsBracketable iri.text
  shaped : ∀ a ∈ o.axioms, a.IsShaped
  axioms : ∀ a ∈ o.axioms, Lasts ⟨o.prefixes⟩ a

namespace Ontology

theorem Built.withImports {o : Ontology} (h : o.Built) (imports : List Iri) :
    Built { o with imports } := by
  induction h with
  | header iri _ prefixes => exact .header iri imports prefixes
  | add _ a ih => exact ih.add a

theorem IsAccepted.add {o : Ontology} (h : o.IsAccepted) {a : Axiom} (hshaped : a.IsShaped)
    (ha : Lasts ⟨o.prefixes⟩ a) : (o.add a).IsAccepted where
  built := h.built.add a
  prefixes := h.prefixes
  iri := h.iri
  imports := h.imports
  shaped b hb := (List.mem_append.1 hb).elim (h.shaped b) fun hb => List.mem_singleton.1 hb ▸ hshaped
  axioms b hb := (List.mem_append.1 hb).elim (h.axioms b) fun hb => List.mem_singleton.1 hb ▸ ha

theorem IsAccepted.import {o : Ontology} (h : o.IsAccepted) {imported : Iri}
    (himported : IsBracketable imported.text) :
    IsAccepted { o with imports := o.imports ++ [imported] } where
  built := h.built.withImports _
  prefixes := h.prefixes
  iri := h.iri
  imports iri hiri := (List.mem_append.1 hiri).elim (h.imports iri) fun hiri =>
    List.mem_singleton.1 hiri ▸ himported
  shaped := h.shaped
  axioms := h.axioms

end Ontology

namespace FunctionalSyntax

/-- A part of a document and those after it, given its first word. -/
def partAt (text : List Char) (ns : Namespaces) (steps : Nat) (o : Ontology) (t : Located) :
    Reading Ontology :=
  match t.token with
  | .rightParen => do
    skip
    pure o
  | .keyword "Import" => do
    skip
    expect .leftParen
    let imported ← iri ns
    expect .rightParen
    parts text ns steps { o with imports := o.imports ++ [imported] }
  | .keyword "Annotation" => do
    skip
    let _ ← skipGroup
    parts text ns steps o
  | .keyword kind => do
    skip
    match ← statement text ns steps t.start kind with
    | some a => parts text ns steps (o.add a)
    | none => parts text ns steps o
  | other => fault (.expectedAxiom other)

theorem parts_cons (text : List Char) (ns : Namespaces) (steps : Nat) (o : Ontology) (t : Located)
    (left : List Located) :
    parts text ns (steps + 1) o (t :: left) = partAt text ns steps o t (t :: left) := by
  rw [parts]
  rfl

/-- The parts of a document are added to what has been accepted. -/
theorem isAccepted_of_parts {text : List Char} {tokens : List Located} (htokens : tokenize text = .ok tokens)
    {o o' : Ontology} (ho : o.IsAccepted) {steps : Nat} {left rest : List Located}
    (hleft : left <:+ tokens) (hsteps : left.length ≤ steps)
    (h : parts text ⟨o.prefixes⟩ steps o left = .ok (o', rest)) : o'.IsAccepted := by
  -- what is left stays an end of the tokens of the text, and so it stays sound
  induction steps generalizing o left with
  | zero => cases h
  | succ steps ih =>
    have hns : (⟨o.prefixes⟩ : Namespaces).IsSound := ho.prefixes.isSound
    cases left with
    | nil =>
      rw [parts] at h
      cases h
    | cons t left =>
      obtain ⟨before, htext⟩ := hleft
      have hmore : left <:+ tokens := (List.suffix_cons t left).trans ⟨before, htext⟩
      have hsound : Sound left := (sound_of_tokenizeFrom htokens).suffix hmore
      rw [List.length_cons] at hsteps
      rw [parts_cons] at h
      generalize hpart : partAt text ⟨o.prefixes⟩ steps o t = part at h
      unfold partAt at hpart
      split at hpart <;> subst hpart
      · obtain ⟨rfl, -⟩ := Prod.mk.inj (Except.ok.inj h)
        exact ho
      · rw [bind_of_ok (skip_cons t left)] at h
        obtain ⟨_, left₁, hopen, h⟩ := exists_of_bind h
        obtain ⟨imported, left₂, hiri, h⟩ := exists_of_bind h
        obtain ⟨_, left₃, hclose, h⟩ := exists_of_bind h
        obtain ⟨-, h₁⟩ := (yields_expect _).ok hsound hopen
        obtain ⟨himported, h₂⟩ := (yields_iri hns).ok (hsound.suffix h₁) hiri
        obtain ⟨-, h₃⟩ := (yields_expect _).ok (hsound.suffix (h₂.trans h₁)) hclose
        have hsuffix := h₃.trans (h₂.trans h₁)
        have := hsuffix.length_le
        exact ih (ho.import himported) (hsuffix.trans hmore) (by omega) h
      · rw [bind_of_ok (skip_cons t left)] at h
        obtain ⟨_, left₁, hgroup, h⟩ := exists_of_bind h
        obtain ⟨-, hsuffix⟩ := yields_skipGroup.ok hsound hgroup
        have := hsuffix.length_le
        exact ih ho (hsuffix.trans hmore) (by omega) h
      · next kind himport hannotation ht =>
        rw [bind_of_ok (skip_cons t left)] at h
        obtain ⟨found, left₁, hstatement, h⟩ := exists_of_bind h
        have hkind : kind ∉ ["Import", "Annotation"] := by
          simpa using ⟨himport, hannotation⟩
        obtain ⟨hsuffix, hfound⟩ := statement_ok hns (htext ▸ htokens) ht hkind (by omega) hstatement
        have := hsuffix.length_le
        cases found with
        | none => exact ih ho (hsuffix.trans hmore) (by omega) h
        | some a =>
          exact ih (ho.add (hfound a rfl).1 (hfound a rfl).2) (hsuffix.trans hmore) (by omega) h
      · cases h

theorem eq_of_end {o o' : Ontology} {left rest : List Located}
    (h : (do match ← peek with | none => pure o | some _ => fault .trailingContent) left =
      Except.ok (o', rest)) : left = [] ∧ o = o' := by
  cases left with
  | nil => exact ⟨rfl, (Prod.mk.inj (Except.ok.inj h)).1⟩
  | cons t left => cases h

/-- What is read from a document is accepted. -/
theorem isAccepted_of_readOntology {text : String} {o : Ontology} (h : readOntology text = .ok o) :
    o.IsAccepted := by
  simp only [readOntology] at h
  split at h
  · cases h
  next tokens htokens =>
  split at h
  case h_2 | h_3 => cases h
  next o' rest hdocument =>
  obtain rfl := Except.ok.inj h
  have hsound : Sound tokens := sound_of_tokenizeFrom htokens
  obtain ⟨declared, left₁, hheader, hbody⟩ := exists_of_bind hdocument
  obtain ⟨_, left₂, hopen, hbody⟩ := exists_of_bind hbody
  obtain ⟨name, left₃, hname, hbody⟩ := exists_of_bind hbody
  obtain ⟨hdeclared, h₁⟩ := (yields_header _ (by simp [AreWritable, SortedMap.empty])).ok hsound hheader
  have hns := hdeclared.isSound
  obtain ⟨-, h₂⟩ := (yields_expect _).ok (hsound.suffix h₁) hopen
  obtain ⟨hiri, h₃⟩ := (yields_iri? hns).ok (hsound.suffix (h₂.trans h₁)) hname
  have hempty : Ontology.IsAccepted { Ontology.empty with iri := name, prefixes := declared } :=
    { built := .header name [] declared
      prefixes := hdeclared
      iri := hiri
      imports := by simp [Ontology.empty]
      shaped := by simp [Ontology.empty]
      axioms := by simp [Ontology.empty] }
  -- the version, which follows the name, is passed over
  obtain ⟨left₄, h₄, hparts⟩ : ∃ left₄, left₄ <:+ left₃ ∧
      parts text.toList ⟨declared⟩ (3 * tokens.length + 4)
        { Ontology.empty with iri := name, prefixes := declared } left₄ = .ok (o', []) := by
    cases name with
    | none =>
      obtain ⟨o₁, mid, hparts, hend⟩ := exists_of_bind hbody
      obtain ⟨rfl, rfl⟩ := eq_of_end hend
      exact ⟨left₃, List.suffix_refl _, hparts⟩
    | some iri =>
      obtain ⟨version, left₄, hversion, hbody⟩ := exists_of_bind hbody
      obtain ⟨-, h₄⟩ := (yields_iri? hns).ok (hsound.suffix (h₃.trans (h₂.trans h₁))) hversion
      obtain ⟨o₁, mid, hparts, hend⟩ := exists_of_bind hbody
      obtain ⟨rfl, rfl⟩ := eq_of_end hend
      exact ⟨left₄, h₄, hparts⟩
  have hsuffix := h₄.trans (h₃.trans (h₂.trans h₁))
  have hlength := hsuffix.length_le
  exact isAccepted_of_parts htokens hempty hsuffix (by omega) hparts

end FunctionalSyntax

namespace Ontology

/-! ## Written and read again -/

/-- Names that begin like those of anonymous individuals are such names, and where a predefined class is
used, its short name is not given to another namespace. -/
structure IsRewritable (o : Ontology) : Prop where
  iri : ∀ iri ∈ o.iri, iri.IsLabel
  imports : ∀ iri ∈ o.imports, iri.IsLabel
  vocabulary : ∀ a ∈ o.axioms, ∀ e ∈ a.vocabulary, e.iri.IsLabel
  predefined : ∀ a ∈ o.axioms, a.UsesPredefined → ∀ space ∈ o.prefixes.find? "owl", space = owlNamespace

/-- The document of an ontology lets short names stand for what they stand for in the ontology. -/
theorem sameNames_writtenEntries (o : Ontology) :
    (⟨o.prefixes⟩ : Namespaces).SameNames ⟨.ofList o.writtenEntries⟩ := by
  intro name
  rw [ofList_writtenEntries, SortedMap.contains_eq]
  cases hfind : o.prefixes.find? "owl" with
  | some space => rfl
  | none =>
    by_cases hname : "owl" = name
    · subst hname
      simp [Namespaces.find?, hfind, Namespaces.predefined]
    · simp [Namespaces.find?, hname]

/-- An accepted document can be rewritten. -/
theorem readOntology_render_of_readOntology {text : String} {o : Ontology}
    (hread : readOntology text = .ok o) (h : o.IsRewritable) :
    readOntology o.render = .ok { o with prefixes := .ofList o.writtenEntries } := by
  have haccepted := isAccepted_of_readOntology hread
  have hsame := sameNames_writtenEntries o
  have hheader : o.HasWritableHeader :=
    { names := fun e he => (haccepted.prefixes e he).1
      spaces := fun e he => (haccepted.prefixes e he).2
      iri := fun iri hiri => ⟨haccepted.iri iri hiri, h.iri iri hiri⟩
      imports := fun iri hiri => ⟨haccepted.imports iri hiri, h.imports iri hiri⟩ }
  have hstates : ∀ a ∈ o.axioms, States ⟨.ofList o.writtenEntries⟩ a.render a := by
    intro a ha
    rcases haccepted.axioms a ha with ⟨hsupported, hshaped, hnames⟩ | hkept
    · have hwritable : ∀ e ∈ a.vocabulary, e.iri.IsWritable := fun e he =>
        ⟨hnames e he, h.vocabulary a ha e he⟩
      refine (readsBack_of_isSupported hsupported hwritable hshaped fun huses => ?_).states
        (kind_not_mem_parts hsupported)
      rw [hsame "owl", Namespaces.find?]
      cases hfind : o.prefixes.find? "owl" with
      | none => rfl
      | some space => exact congrArg some (h.predefined a ha huses space hfind)
    · exact hkept _ hsame
  rw [readOntology_render_of_states hheader hstates, haccepted.built.foldl_add_eq]

/-- A header that declares one short name. -/
def headerWith (name space : String) : Ontology := ⟨none, [], .ofList [(name, space)], [], .empty⟩

theorem hasWritableHeader_headerWith {name space : String} (hname : IsPrefixName name)
    (hspace : IsBracketable space) : (headerWith name space).HasWritableHeader := by
  have hentries : ∀ e ∈ (headerWith name space).prefixes.entries, e = (name, space) := fun e he =>
    List.mem_singleton.1 he
  exact
    { names := fun e he => hentries e he ▸ hname
      spaces := fun e he => hentries e he ▸ hspace
      iri := by simp [headerWith]
      imports := by simp [headerWith] }

/-- What is written under a header that declares one short name is read. -/
theorem readOntology_of_headerWith {name space text : String} (hname : IsPrefixName name)
    (hspace : IsBracketable space) {texts : List String} {axioms : List Axiom}
    (hstates : List.Forall₂ (States ⟨.ofList (headerWith name space).writtenEntries⟩) texts axioms)
    (htext : text.toList = charactersOf (headerWith name space).frontLines ++
      charactersOf (statementLines texts)) :
    readOntology text = .ok
      (axioms.foldl add ⟨none, [], .ofList (headerWith name space).writtenEntries, [], .empty⟩) :=
  readOntology_of_states (hasWritableHeader_headerWith hname hspace) htext hstates

/-- A subclass axiom is read from the texts of its classes. -/
theorem states_subClassOf {ns : Namespaces} {text text' : String} {c d : ClassExpression}
    (hc : Spells (classExpression ns) text c) (hd : Spells (classExpression ns) text' d) :
    States ns (group "SubClassOf" [text, text']) (.subClassOf c d) := by
  have harguments : Arguments 6 (axiomArguments ns · "SubClassOf") [text, text'] (.subClassOf c d) :=
    (Arguments.pair hc (.single hd) Axiom.subClassOf).mono (by decide)
  exact (harguments.readsBack (by simp) (by decide) (by decide)).states (by decide)

/-- A statement about data properties, which are outside the language. -/
theorem states_subDataPropertyOf (ns : Namespaces) :
    States ns (group "SubDataPropertyOf" [":p", ":q"])
      (.unsupported "SubDataPropertyOf" (group "SubDataPropertyOf" [":p", ":q"])) := by
  have hlexes : LexesAll [":p", ":q"] [[.prefixedName ":p"], [.prefixedName ":q"]] :=
    .cons (.single rfl (by decide) rfl) (.cons (.single rfl (by decide) rfl) .nil)
  refine states_of_unknown ns (by decide) (by decide) (fun _ _ => rfl) (by simp) hlexes (by simp) ?_
  intro located hlocated
  obtain ⟨t, located, rfl, ht, hlocated⟩ := List.map_eq_cons_iff.1 hlocated
  obtain ⟨t', rfl, ht'⟩ := List.map_eq_singleton_iff.1 hlocated
  exact (balanced_singleton (by simp [ht]) (by simp [ht])).append
    (balanced_singleton (by simp [ht']) (by simp [ht']))

/-- A document with short names and a statement that is kept as its source text. -/
def mixedDocument : String :=
  "Prefix(:=<urn:e#>)\nPrefix(owl:=<http://www.w3.org/2002/07/owl#>)\nOntology(\n" ++
    "    SubClassOf(:A owl:Thing)\n    SubDataPropertyOf(:p :q)\n)\n"

/-- What it describes. -/
def mixed : Ontology :=
  [.subClassOf (.named ⟨"urn:e#A"⟩) .thing,
    .unsupported "SubDataPropertyOf" "SubDataPropertyOf(:p :q)"].foldl add
      ⟨none, [], .ofList [("", "urn:e#"), ("owl", owlNamespace)], [], .empty⟩

theorem readOntology_render_mixed :
    readOntology mixedDocument = .ok mixed ∧ mixed.IsRewritable ∧
      readOntology mixed.render = .ok { mixed with prefixes := .ofList mixed.writtenEntries } := by
  have hstates : States ⟨.ofList (headerWith "" "urn:e#").writtenEntries⟩
      (group "SubClassOf" ["" ++ ":" ++ "A", "owl" ++ ":" ++ "Thing"])
      (.subClassOf (.ofIri ⟨"urn:e#" ++ "A"⟩) (.ofIri ⟨owlNamespace ++ "Thing"⟩)) :=
    states_subClassOf (spells_shortName (by decide) (by decide) (by decide) "A" (by decide))
      (spells_shortName (by decide) (by decide) (by decide) "Thing" (by decide))
  have hread : readOntology mixedDocument = .ok mixed :=
    readOntology_of_headerWith (by decide) (by decide)
      (.cons hstates (.cons (states_subDataPropertyOf _) .nil)) (by decide +kernel)
  have hrewritable : mixed.IsRewritable :=
    { iri := by decide
      imports := by decide
      vocabulary := by decide
      predefined := by
        have howl : ∀ space ∈ mixed.prefixes.find? "owl", space = owlNamespace := by decide
        exact fun _ _ _ => howl }
  exact ⟨hread, hrewritable, readOntology_render_of_readOntology hread hrewritable⟩

/-! ## Documents that change -/

/-- A document that gives the short name of the predefined classes to another namespace. -/
def reboundDocument : String :=
  "Prefix(owl:=<urn:x#>)\nOntology(\n" ++
    "    SubClassOf(<http://www.w3.org/2002/07/owl#Thing> <urn:a>)\n)\n"

/-- What it describes. -/
def rebound : Ontology := (headerWith "owl" "urn:x#").add (.subClassOf .thing (.named ⟨"urn:a"⟩))

theorem readOntology_reboundDocument : readOntology reboundDocument = .ok rebound := by
  have hstates : States ⟨.ofList (headerWith "owl" "urn:x#").writtenEntries⟩
      (group "SubClassOf" ["<" ++ Iri.thing.text ++ ">", "<" ++ "urn:a" ++ ">"])
      (.subClassOf (.ofIri Iri.thing) (.ofIri ⟨"urn:a"⟩)) :=
    states_subClassOf (spells_fullIri (by decide) _) (spells_fullIri (by decide) _)
  exact readOntology_of_headerWith (by decide) (by decide) (.cons hstates .nil) (by decide +kernel)

/-- The predefined class is written with a short name that stands for another class. -/
theorem readOntology_render_rebound : readOntology rebound.render =
    .ok ((headerWith "owl" "urn:x#").add (.subClassOf (.named ⟨"urn:x#Thing"⟩) (.named ⟨"urn:a"⟩))) := by
  have hstates : States ⟨.ofList (headerWith "owl" "urn:x#").writtenEntries⟩
      (group "SubClassOf" ["owl" ++ ":" ++ "Thing", "<" ++ "urn:a" ++ ">"])
      (.subClassOf (.ofIri ⟨"urn:x#" ++ "Thing"⟩) (.ofIri ⟨"urn:a"⟩)) :=
    states_subClassOf (spells_shortName (by decide) (by decide) (by decide) "Thing" (by decide))
      (spells_fullIri (by decide) _)
  exact readOntology_of_headerWith (by decide) (by decide) (.cons hstates .nil) (by decide +kernel)

/-- A document with a name that begins like that of an anonymous individual, but is none. -/
def slashDocument : String :=
  "Prefix(:=<urn:e#>)\nPrefix(owl:=<http://www.w3.org/2002/07/owl#>)\nOntology(\n" ++
    "    SubClassOf(<_:a/b> :A)\n)\n"

/-- What it describes. -/
def slash : Ontology :=
  add ⟨none, [], .ofList [("", "urn:e#"), ("owl", owlNamespace)], [], .empty⟩
    (.subClassOf (.named ⟨"_:a/b"⟩) (.named ⟨"urn:e#A"⟩))

theorem readOntology_slashDocument : readOntology slashDocument = .ok slash := by
  have hstates : States ⟨.ofList (headerWith "" "urn:e#").writtenEntries⟩
      (group "SubClassOf" ["<" ++ "_:a/b" ++ ">", "" ++ ":" ++ "A"])
      (.subClassOf (.ofIri ⟨"_:a/b"⟩) (.ofIri ⟨"urn:e#" ++ "A"⟩)) :=
    states_subClassOf (spells_fullIri (by decide) _)
      (spells_shortName (by decide) (by decide) (by decide) "A" (by decide))
  exact readOntology_of_headerWith (by decide) (by decide) (.cons hstates .nil) (by decide +kernel)

/-- A text of tokens before characters that begin none is no document. -/
theorem exists_error_of_tail {text : String} {lines : List String} {tss : List (List Token)}
    {inner tail : List Char} {ts : List Token} (hlines : LexesAll lines tss) (hinner : Lexes inner ts)
    (hends : EndsBefore ts tail) (htail : ∀ p, ∃ e, tokenizeFrom p tail = .error e)
    (htext : text.toList = charactersOf lines ++ (inner ++ tail)) : ∃ e, readOntology text = .error e := by
  obtain ⟨front, -, hfront⟩ := exists_tokens_of_lines hlines .start
  obtain ⟨located, hcovers, rfl⟩ := hinner (Place.start.after (charactersOf lines))
  obtain ⟨e, he⟩ := htail ((Place.start.after (charactersOf lines)).after inner)
  have htokens : tokenize text.toList = .error e := by
    rw [tokenize, htext, hfront, hcovers.append hends, he]
    rfl
  simp [readOntology, htokens]

/-- Without brackets around it the name ends before the slash, which begins no token. -/
theorem readOntology_render_slash : ∃ e, readOntology slash.render = .error e := by
  obtain ⟨tss, hlines, -⟩ :=
    lexes_frontLines (hasWritableHeader_headerWith (by decide) (by decide) :
      (headerWith "" "urn:e#").HasWritableHeader)
  have hkeyword : Lexes "SubClassOf".toList [.keyword "SubClassOf"] := lexes_keyword (by decide)
  have hopen := hkeyword.append lexes_leftParen (endsBefore_cons rfl)
  have hindented : Lexes ("    ".toList ++ ("SubClassOf".toList ++ ['(']))
      [.keyword "SubClassOf", .leftParen] := hopen.blanks (by decide)
  have htail : ∀ p rest, ∃ e, tokenizeFrom p ('_' :: ':' :: 'a' :: '/' :: rest) = .error e := by
    intro p rest
    have hname : splitIgnored ('_' :: ':' :: 'a' :: '/' :: rest) =
        ([], '_' :: ':' :: 'a' :: '/' :: rest) := by simp [splitIgnored, isBlank]
    have hslash : splitIgnored ('/' :: rest) = ([], '/' :: rest) := by simp [splitIgnored, isBlank]
    have hfirst : Lexeme.first '_' (':' :: 'a' :: '/' :: rest) =
        .ok ⟨.prefixedName "_:a", ['_', ':', 'a'], '/' :: rest⟩ := rfl
    have hstuck : Lexeme.first '/' rest = .error ['/'] := rfl
    rw [tokenizeFrom_of_splitIgnored_cons hname, hfirst]
    dsimp only
    rw [tokenizeFrom_of_splitIgnored_cons hslash, hstuck]
    exact ⟨_, rfl⟩
  exact exists_error_of_tail hlines hindented (.inr ⟨.leftParen, rfl, '(', rfl⟩)
    (htail · "b <urn:e#A>)\n)\n".toList) (by decide +kernel)

/-- Neither condition on documents that are rewritten can be dropped: one document describes something
else when it is rewritten, and another one is no document any more. -/
theorem readOntology_render_changes :
    (∃ o o', readOntology reboundDocument = .ok o ∧ readOntology o.render = .ok o' ∧ o'.axioms ≠ o.axioms) ∧
      ∃ o e, readOntology slashDocument = .ok o ∧ readOntology o.render = .error e := by
  obtain ⟨e, he⟩ := readOntology_render_slash
  exact ⟨⟨_, _, readOntology_reboundDocument, readOntology_render_rebound, by decide⟩,
    _, e, readOntology_slashDocument, he⟩

end Ontology

end FixedDomain
