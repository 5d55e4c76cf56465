import FixedDomain.Proofs.FunctionalSyntax.Parts

/-! # Documents are joined

Texts that are read under the same header can be put one after another on lines of their own: the
document is read, with the imports and axioms of all of them (`readOntology_join`).

* `IsHeader`, `wrapped` — the document with some text between the parentheses of its ontology.
* `Adds` — a text that adds the same imports and axioms wherever it stands between parts.
-/

namespace FixedDomain

open FunctionalSyntax

namespace FunctionalSyntax

/-! ## Documents under a header -/

/-- A text that declares some short names. With the keyword and the parenthesis that open an ontology
behind it, it has the tokens of the declarations and of this opening, and the parenthesis is its last
character: it stands in no comment. -/
def IsHeader (header : String) (entries : List (String × String)) : Prop :=
  Lexes (header ++ "Ontology(").toList
    (entries.flatMap namespaceTokens ++ [.keyword "Ontology", .leftParen])

/-- The document with a header and some text between the parentheses of its ontology. -/
def wrapped (header text : String) : String := header ++ "Ontology(" ++ text ++ "\n)"

/-- The first token of a text is a keyword. -/
def BeginsWithKeyword (text : String) : Prop :=
  ∃ t rest kind, Leads .start text.toList t rest ∧ t.token = .keyword kind

/-- The ontology that a header alone describes. -/
def headed (entries : List (String × String)) : Ontology := ⟨none, [], .ofList entries, [], .empty⟩

theorem toList_wrapped (header text : String) :
    (wrapped header text).toList = (header ++ "Ontology(").toList ++ (text.toList ++ ['\n', ')']) := by
  simp [wrapped]

/-- What stands before the colon of a name that ends with it. -/
theorem isPrefixName_of_isSound {name : String} (h : (Token.prefixedName (name ++ ":")).IsSound) :
    IsPrefixName name := by
  obtain ⟨first, second, hfirst, hsecond, heq⟩ := h
  have hchars : first.toList ++ ':' :: second.toList = name.toList ++ [':'] := by
    simpa using (congrArg String.toList heq).symm
  have hempty : second.toList = [] := by
    rcases List.eq_nil_or_concat second.toList with hnil | ⟨init, c, hinit⟩
    · exact hnil
    · rw [hinit, List.concat_eq_append, ← List.cons_append, ← List.append_assoc] at hchars
      obtain ⟨-, hc⟩ := List.append_inj' hchars rfl
      obtain rfl : c = ':' := List.singleton_inj.1 hc
      exact absurd (hsecond ':' (by simp [hinit])) (by decide)
  rw [hempty] at hchars
  obtain rfl : first = name := String.toList_injective (List.append_cancel_right hchars)
  exact hfirst

section Header

variable {header : String} {entries : List (String × String)} (hheader : IsHeader header entries)

include hheader

/-- The tokens of a document are those of its header and those of what follows. -/
theorem exists_front : ∃ front, front.map (·.token) =
      entries.flatMap namespaceTokens ++ [Token.keyword "Ontology", .leftParen] ∧ Sound front ∧
    ∀ text, tokenize (wrapped header text).toList =
      (tokenizeFrom (Place.start.after (header ++ "Ontology(").toList) (text.toList ++ ['\n', ')'])).map
        (front ++ ·) := by
  obtain ⟨front, hcovers, hfront⟩ := hheader .start
  refine ⟨front, hfront, sound_of_tokenizeFrom hcovers.tokens, fun text => ?_⟩
  have hends : EndsBefore (front.map (·.token)) (text.toList ++ ['\n', ')']) :=
    .inr ⟨.leftParen, by simp [hfront], '(', rfl⟩
  rw [tokenize, toList_wrapped, hcovers.append hends]

/-- The names in a header can be written. -/
theorem IsHeader.isPrefixName : ∀ e ∈ entries, IsPrefixName e.1 := by
  obtain ⟨front, hfront, hsound, -⟩ := exists_front hheader
  intro e he
  have hmem : Token.prefixedName (e.1 ++ ":") ∈ front.map (·.token) := by
    rw [hfront]
    exact List.mem_append_left _ (List.mem_flatMap.2 ⟨e, he, by simp [namespaceTokens]⟩)
  obtain ⟨t, ht, hword⟩ := List.mem_map.1 hmem
  exact isPrefixName_of_isSound (hword ▸ hsound t ht)

/-- Its short names stand for texts that can be part of a name. -/
theorem IsHeader.isSound : (⟨.ofList entries⟩ : Namespaces).IsSound := by
  obtain ⟨front, hfront, hsound, -⟩ := exists_front hheader
  have hkeyword : entries.flatMap namespaceTokens ++ [Token.keyword "Ontology", .leftParen] =
      (entries.flatMap namespaceTokens ++ [Token.keyword "Ontology"]) ++ [.leftParen] := by simp
  rw [hkeyword] at hfront
  obtain ⟨declarations, opening, rfl, hdeclarations, -⟩ := List.map_eq_append_iff.1 hfront
  have hread :=
    reads_header hheader.isPrefixName (Nat.lt_succ_self _) .empty declarations opening hdeclarations
  exact ((yields_header _ (by simp [AreWritable, SortedMap.empty])).ok hsound hread).1.isSound

/-- Between the parentheses of a document stands a sequence of parts. -/
theorem exists_consists_of_readOntology {text : String} {o : Ontology} (htext : BeginsWithKeyword text)
    (h : readOntology (wrapped header text) = .ok o) :
    ∃ front own close imports axioms,
      tokenize (wrapped header text).toList = .ok (front ++ own ++ [close]) ∧
      tokenizeFrom (Place.start.after (header ++ "Ontology(").toList) text.toList = .ok own ∧
      (∀ t ∈ own.head?, IsPartStart t.token) ∧
      Consists (wrapped header text).toList ⟨.ofList entries⟩ own imports axioms ∧
      o = (headed entries).extend imports axioms := by
  obtain ⟨front, hfront, -, htokens⟩ := exists_front hheader
  simp only [readOntology] at h
  split at h
  · cases h
  next tokens htokenize =>
  obtain ⟨left, hleft, rfl⟩ := exists_of_map ((htokens text).symm.trans htokenize)
  obtain ⟨own, close, rfl, hown, -⟩ := exists_tokens_of_closed hleft
  -- the first word is a keyword, so the ontology has no name
  obtain ⟨t, rest, kind, hleads, ht⟩ := htext
  obtain ⟨first, more, rfl, hfirst⟩ :
      ∃ first more, own = first :: more ∧ IsPartStart first.token := by
    obtain ⟨t', hleads', ht'⟩ := hleads.exists_move (Place.start.after (header ++ "Ontology(").toList)
    rw [tokenizeFrom_eq_of_leads hleads'] at hown
    obtain ⟨more, -, rfl⟩ := exists_of_map hown
    exact ⟨t', more, rfl, .inr ⟨kind, ht'.trans ht⟩⟩
  have hlength := congrArg List.length hfront
  simp [namespaceTokens, List.length_flatMap] at hlength
  have hopening : front.map (·.token) =
      entries.flatMap namespaceTokens ++ Token.keyword "Ontology" :: .leftParen :: nameTokens none := hfront
  rw [document_front hheader.isPrefixName (by simp; omega) hopening ⟨first, rfl, hfirst⟩] at h
  split at h
  case h_2 | h_3 => cases h
  next o' rest' hdocument =>
  obtain rfl := Except.ok.inj h
  obtain ⟨o₁, mid, hparts, hend⟩ := exists_of_bind hdocument
  obtain ⟨rfl, rfl⟩ := eq_of_end hend
  have hsound : Sound (first :: more ++ [close]) := sound_of_tokenizeFrom hleft
  obtain ⟨own', close', imports, axioms, heq, -, hconsists, rfl⟩ :=
    exists_consists hheader.isSound hsound (by simp; omega) hparts
  obtain ⟨rfl, -⟩ := List.append_inj' heq rfl
  exact ⟨front, first :: more, close, imports, axioms, by rw [List.append_assoc]; exact htokenize, hown,
    fun t ht => Option.some.inj ht ▸ hfirst, hconsists, rfl⟩

end Header

/-! ## Texts that add parts -/

/-- A text adds imports and axioms wherever it stands between the parts of a document. -/
def Adds (ns : Namespaces) (text : List Char) (imports : List Iri) (axioms : List Axiom) : Prop :=
  ∀ before after, ∃ own, tokenizeFrom (Place.start.after before) text = .ok own ∧
    (∀ t ∈ own.head?, IsPartStart t.token) ∧
    ∀ rest steps o, 3 * (own ++ rest).length ≤ steps → ∃ steps', 3 * rest.length ≤ steps' ∧
      parts (before ++ text ++ after) ns steps o (own ++ rest) =
        parts (before ++ text ++ after) ns steps' (o.extend imports axioms) rest

namespace Adds

variable {ns : Namespaces} {text text' : List Char} {imports imports' : List Iri}
  {axioms axioms' : List Axiom}

theorem nil : Adds ns [] [] [] := fun _ _ =>
  ⟨[], tokenizeFrom_nil _, by simp, fun _ steps o hsteps =>
    ⟨steps, hsteps, by rw [o.extend_nil]; rfl⟩⟩

/-- Two texts on lines of their own. -/
theorem line (h : Adds ns text imports axioms) (h' : Adds ns text' imports' axioms') :
    Adds ns (text ++ '\n' :: text') (imports ++ imports') (axioms ++ axioms') := by
  intro before after
  obtain ⟨own, hown, hstart, hread⟩ := h before ('\n' :: (text' ++ after))
  obtain ⟨own', hown', hstart', hread'⟩ := h' (before ++ (text ++ ['\n'])) after
  refine ⟨own ++ own', ?_, ?_, fun rest steps o hsteps => ?_⟩
  · rw [tokenizeFrom_line hown, ← Place.after_append, hown']
    rfl
  · cases own with
    | nil => exact hstart'
    | cons => exact hstart
  · rw [List.append_assoc own] at hsteps ⊢
    obtain ⟨steps₁, hsteps₁, hfirst⟩ := hread _ steps o hsteps
    obtain ⟨steps₂, hsteps₂, hsecond⟩ := hread' _ _ (o.extend imports axioms) hsteps₁
    have htext : before ++ (text ++ '\n' :: text') ++ after =
        before ++ text ++ '\n' :: (text' ++ after) := by simp
    have htext' : before ++ (text ++ ['\n']) ++ text' ++ after =
        before ++ text ++ '\n' :: (text' ++ after) := by simp
    rw [htext'] at hsecond
    exact ⟨steps₂, hsteps₂, by rw [htext, hfirst, hsecond, o.extend_extend]⟩

/-- Texts on lines of their own. -/
theorem intercalate {texts : List String} {os : List Ontology}
    (h : List.Forall₂ (fun text o => Adds ns text.toList o.imports o.axioms) texts os) :
    Adds ns ("\n".intercalate texts).toList (os.flatMap (·.imports)) (os.flatMap (·.axioms)) := by
  induction h with
  | nil => exact nil
  | @cons text o texts os htext hrest ih =>
    cases hrest with
    | nil => simpa using htext
    | @cons text' o' texts os htext' hrest =>
      rw [String.intercalate_cons_cons]
      simpa using htext.line ih

/-- A sequence of parts adds the same wherever its text is found. -/
theorem of_consists {before after : List Char} {own : List Located}
    (hown : tokenizeFrom (Place.start.after before) text = .ok own)
    (hstart : ∀ t ∈ own.head?, IsPartStart t.token)
    (h : Consists (before ++ text ++ after) ns own imports axioms) : Adds ns text imports axioms := by
  intro before' after'
  obtain ⟨own', hown', hmoved⟩ := exists_moved hown (Place.start.after before')
  have hsame : SameSource (before ++ text ++ after) (before' ++ text ++ after') own own' :=
    ⟨before, before', text, after, after', rfl, rfl, by simpa [Place.after, Place.start] using hmoved⟩
  refine ⟨own', hown', ?_, fun _ _ o hsteps => h.repeats hsame hsteps o⟩
  cases hmoved with
  | nil => simp
  | cons hfirst _ => simpa [hfirst.token] using hstart

/-- A statement that is read wherever its text is found. -/
theorem of_states {source : String} {a : Axiom} (h : States ns source a) :
    Adds ns source.toList [] [a] := by
  obtain ⟨kind, ts, hkind, hlexes, hstatement⟩ := h
  intro before after
  obtain ⟨own, hcovers, hown⟩ := hlexes (Place.start.after before)
  obtain ⟨t, body, rfl, ht, hbody⟩ := List.map_eq_cons_iff.1 hown
  refine ⟨t :: body, hcovers.tokens, fun t' ht' => Option.some.inj ht' ▸ .inr ⟨kind, ht⟩,
    fun rest steps o hsteps => ?_⟩
  have hlength := congrArg List.length hbody
  simp only [List.length_map, List.length_append, List.length_cons] at hlength hsteps
  obtain ⟨steps, rfl⟩ := Nat.exists_eq_add_one_of_ne_zero (show steps ≠ 0 by omega)
  refine ⟨steps, by omega, ?_⟩
  rw [List.cons_append, o.extend_singleton]
  exact parts_of_statement ht hkind (hstatement before after t body rest steps (by omega) hbody hcovers)

/-- Under a header a text that adds parts is a document. -/
theorem readOntology {header text : String} {entries : List (String × String)}
    (hheader : IsHeader header entries)
    (h : Adds ⟨.ofList entries⟩ text.toList imports axioms) :
    readOntology (wrapped header text) = .ok ((headed entries).extend imports axioms) := by
  obtain ⟨front, hfront, -, htokens⟩ := exists_front hheader
  obtain ⟨own, hown, hstart, hread⟩ := h (header ++ "Ontology(").toList ['\n', ')']
  obtain ⟨closing, hcovers, hclosing⟩ :=
    lexes_rightParen ((Place.start.after (header ++ "Ontology(").toList).after (text.toList ++ ['\n']))
  obtain ⟨close, rfl, hclose⟩ := List.map_eq_singleton_iff.1 hclosing
  have htokenize : tokenize (wrapped header text).toList = .ok (front ++ (own ++ [close])) := by
    rw [htokens, tokenizeFrom_line hown, hcovers.tokens]
    rfl
  have hfirst : ∃ t ∈ (own ++ [close]).head?, IsPartStart t.token := by
    cases own with
    | nil => exact ⟨close, rfl, .inl hclose⟩
    | cons t own => exact ⟨t, rfl, hstart t rfl⟩
  have hlength := congrArg List.length hfront
  simp [namespaceTokens, List.length_flatMap] at hlength
  obtain ⟨steps, hsteps, hparts⟩ := hread [close] (3 * (front ++ (own ++ [close])).length + 4)
    (headed entries) (by simp; omega)
  obtain ⟨steps, rfl⟩ := Nat.exists_eq_add_one_of_ne_zero (show steps ≠ 0 by simp at hsteps; omega)
  rw [parts_of_rightParen hclose, List.append_assoc, ← toList_wrapped] at hparts
  rw [FunctionalSyntax.readOntology, htokenize]
  dsimp only
  rw [document_eq hheader.isPrefixName (by simp; omega) hfront hfirst hparts]

/-- What is read from a text under a header is added by the text. -/
theorem of_readOntology {header text : String} {entries : List (String × String)} {o : Ontology}
    (hheader : IsHeader header entries) (htext : BeginsWithKeyword text)
    (h : FunctionalSyntax.readOntology (wrapped header text) = .ok o) :
    Adds ⟨.ofList entries⟩ text.toList o.imports o.axioms := by
  obtain ⟨front, own, close, imports, axioms, -, hown, hstart, hconsists, rfl⟩ :=
    exists_consists_of_readOntology hheader htext h
  rw [toList_wrapped, ← List.append_assoc] at hconsists
  simpa [headed] using of_consists hown hstart hconsists

end Adds

/-! ## Texts that are joined -/

/-- A text stands in a document from a keyword to the parenthesis that closes the group behind it. -/
def StandsAsGroup (document kind source : String) : Prop :=
  ∃ before keyword opening inner closing after,
    tokenize document.toList = .ok (before ++ keyword :: opening :: (inner ++ closing :: after)) ∧
      keyword.token = .keyword kind ∧ opening.token = .leftParen ∧ Nested (inner.map (·.token)) ∧
      closing.token = .rightParen ∧ source = slice document.toList keyword.start closing.stop

/-- Texts that begin with a keyword do so when they are joined. -/
theorem beginsWithKeyword_intercalate {text : String} (h : BeginsWithKeyword text) (texts : List String) :
    BeginsWithKeyword ("\n".intercalate (text :: texts)) := by
  cases texts with
  | nil => simpa using h
  | cons text' texts =>
    obtain ⟨t, rest, kind, hleads, ht⟩ := h
    rw [String.intercalate_cons_cons]
    have hline := hleads.line ("\n".intercalate (text' :: texts)).toList
    exact ⟨t, _, kind, by simpa using hline, ht⟩

section Joined

variable {header : String} {entries : List (String × String)} (hheader : IsHeader header entries)

include hheader

/-- A statement that is kept is a group of the document. -/
theorem standsAsGroup_of_unsupported {text : String} {o : Ontology} (htext : BeginsWithKeyword text)
    (h : readOntology (wrapped header text) = .ok o) {kind source : String}
    (hmem : .unsupported kind source ∈ o.axioms) : StandsAsGroup (wrapped header text) kind source := by
  obtain ⟨front, own, close, imports, axioms, htokens, -, -, hconsists, rfl⟩ :=
    exists_consists_of_readOntology hheader htext h
  replace hmem : .unsupported kind source ∈ axioms := by simpa [headed] using hmem
  obtain ⟨before, keyword, group, after, rfl, hkeyword, ⟨inner, hnested, hgroup⟩, rfl⟩ :=
    hconsists.exists_kept hmem
  obtain ⟨opening, body, rfl, hopening, hbody⟩ := List.map_eq_cons_iff.1 hgroup
  obtain ⟨inner, last, rfl, rfl, hlast⟩ := List.map_eq_append_iff.1 hbody
  obtain ⟨closing, rfl, hclosing⟩ := List.map_eq_singleton_iff.1 hlast
  refine ⟨front ++ before, keyword, opening, inner, closing, after ++ [close], ?_, hkeyword, hopening,
    hnested, hclosing, ?_⟩
  · simpa using htokens
  · rw [← List.cons_append, lastStop, List.getLast?_concat]
    rfl

/-- A statement that is kept is read again from its source text alone. -/
theorem readOntology_source {text : String} {o : Ontology} (htext : BeginsWithKeyword text)
    (h : readOntology (wrapped header text) = .ok o) {kind source : String}
    (hmem : .unsupported kind source ∈ o.axioms) :
    readOntology (wrapped header source) = .ok ((headed entries).extend [] [.unsupported kind source]) := by
  have haccepted := isAccepted_of_readOntology h
  obtain ⟨-, -, -, imports, axioms, -, -, -, -, rfl⟩ := exists_consists_of_readOntology hheader htext h
  have hnames : ((headed entries).extend imports axioms).prefixes = .ofList entries := by simp [headed]
  rcases haccepted.axioms _ hmem with ⟨hsupported, -⟩ | hstates
  · cases hsupported
  · rw [hnames] at hstates
    exact (Adds.of_states (hstates _ (.refl _))).readOntology hheader

/-- Parsing is compositional. Texts that are documents under the same header, each beginning with a
keyword, are a document when they stand one after another on lines of their own. It has the imports and
the axioms of all of them. An unsupported axiom in it is kept as the text from its keyword to the
parenthesis that closes it, and this text alone is read as the same axiom. -/
theorem readOntology_join {texts : List String} {os : List Ontology}
    (h : List.Forall₂
      (fun text o => BeginsWithKeyword text ∧ readOntology (wrapped header text) = .ok o) texts os) :
    ∃ o, readOntology (wrapped header ("\n".intercalate texts)) = .ok o ∧
      o.axioms = os.flatMap (·.axioms) ∧ o.imports = os.flatMap (·.imports) ∧
      ∀ kind source, .unsupported kind source ∈ o.axioms →
        StandsAsGroup (wrapped header ("\n".intercalate texts)) kind source ∧
        ∃ o', readOntology (wrapped header source) = .ok o' ∧ o'.axioms = [.unsupported kind source] ∧
          o'.imports = [] := by
  have hadds := Adds.intercalate (h.imp fun _ _ hread => Adds.of_readOntology hheader hread.1 hread.2)
  have hread := hadds.readOntology hheader
  refine ⟨_, hread, by simp [headed], by simp [headed], fun kind source hmem => ?_⟩
  cases h with
  | nil => simp [headed] at hmem
  | @cons text o texts os hfirst hrest =>
    have hkeyword := beginsWithKeyword_intercalate hfirst.1 texts
    exact ⟨standsAsGroup_of_unsupported hheader hkeyword hread hmem,
      _, readOntology_source hheader hkeyword hread hmem, by simp [headed], by simp [headed]⟩

end Joined

/-- Declarations of short names that can be written are a header. -/
theorem isHeader_of_areWritable {entries : List (String × String)} (h : AreWritable entries) :
    IsHeader (String.join (entries.map fun e => renderNamespace e ++ "\n")) entries := by
  induction entries with
  | nil =>
    have hopening : Lexes "Ontology".toList [.keyword "Ontology"] := lexes_keyword (by decide)
    exact hopening.append lexes_leftParen (endsBefore_cons rfl)
  | cons e entries ih =>
    obtain ⟨he, hentries⟩ := List.forall_mem_cons.1 h
    have hrest : Lexes (['\n'] ++ _) _ := (ih hentries).blanks (by decide)
    have hall := (lexes_namespace he.1 he.2).append hrest (endsBefore_cons rfl)
    simpa [IsHeader] using hall

/-- A text begins with a keyword if its tokens do. -/
theorem beginsWithKeyword_of_tokenize {text : String} (kind : String)
    (h : ((tokenize text.toList).toOption.bind fun ts => ts.head?.map (·.token)) = some (.keyword kind)) :
    BeginsWithKeyword text := by
  cases htokens : tokenize text.toList with
  | error e => simp [htokens, Except.toOption] at h
  | ok ts =>
    rw [htokens] at h
    obtain ⟨t, ts, rfl, ht⟩ := exists_cons_of_head (h : ts.head?.map (·.token) = _)
    obtain ⟨rest, hleads, -⟩ := exists_leads_of_tokenizeFrom htokens
    exact ⟨t, rest, kind, hleads, ht⟩

/-- A statement outside the language, with a parenthesis in a string and one in a comment. -/
def keptText : String := "SubDataPropertyOf(:p \")\" # )\n  :q)"

/-- An import and a statement, with a parenthesis in a comment behind them. -/
def importText : String := "Import(<urn:i>) SubClassOf(:A :B) # )"

/-- A statement that is kept does not disturb what is joined to it. -/
theorem readOntology_join_kept :
    let header := "Prefix(:=<urn:e#>)\n"
    let entries := [("", "urn:e#")]
    let os := [(headed entries).extend [] [.unsupported "SubDataPropertyOf" keptText],
      (headed entries).extend [⟨"urn:i"⟩] [.subClassOf (.named ⟨"urn:e#A"⟩) (.named ⟨"urn:e#B"⟩)]]
    IsHeader header entries ∧
    List.Forall₂ (fun text o => BeginsWithKeyword text ∧ readOntology (wrapped header text) = .ok o)
      [keptText, importText] os ∧
    ∃ o, readOntology (wrapped header ("\n".intercalate [keptText, importText])) = .ok o ∧
      o.axioms = os.flatMap (·.axioms) ∧ o.imports = os.flatMap (·.imports) ∧
      ∀ kind source, .unsupported kind source ∈ o.axioms →
        StandsAsGroup (wrapped header ("\n".intercalate [keptText, importText])) kind source ∧
        ∃ o', readOntology (wrapped header source) = .ok o' ∧ o'.axioms = [.unsupported kind source] ∧
          o'.imports = [] := by
  intro header entries os
  have hheader : IsHeader header entries := by
    have hall : IsHeader (String.join ([("", "urn:e#")].map fun e => renderNamespace e ++ "\n")) _ :=
      isHeader_of_areWritable (by simp only [AreWritable]; decide)
    simpa [renderNamespace] using hall
  have hreads : List.Forall₂
      (fun text o => BeginsWithKeyword text ∧ readOntology (wrapped header text) = .ok o)
      [keptText, importText] os :=
    .cons ⟨beginsWithKeyword_of_tokenize "SubDataPropertyOf" (by decide +kernel),
        eq_ok_of_toOption (by decide +kernel)⟩
      (.cons ⟨beginsWithKeyword_of_tokenize "Import" (by decide +kernel),
        eq_ok_of_toOption (by decide +kernel)⟩ .nil)
  exact ⟨hheader, hreads, readOntology_join hheader hreads⟩

end FunctionalSyntax

end FixedDomain
