import FixedDomain.Proofs.FunctionalSyntax.Spelling
import FixedDomain.Proofs.FunctionalSyntax.Writable
import FixedDomain.Proofs.Interpretation

/-! # Names, expressions and axioms are read back

* `spells_iri`, `spells_role`, `spells_classExpression` — the text of a writable expression is read as
  the expression.
* `ReadsBack` — the text of an axiom is read as the axiom; supported axioms with names that can be
  written have this property (`readsBack_of_isSupported`).
-/

namespace FixedDomain.FunctionalSyntax

open ClassExpression

variable {α : Type}

/-! ## Tokens of names and numbers -/

theorem lexes_fullIri {text : String} (h : IsBracketable text) :
    Lexes ("<" ++ text ++ ">").toList [.fullIri text] := by
  have hstop : ∀ c ∈ ['>'].head?, isIriChar c = false := fun c hc => Option.some.inj hc ▸ rfl
  obtain ⟨htake, hdrop⟩ := takeWhile_append_of_stops ['>'] h hstop
  have hfirst : Lexeme.first '<' (text.toList ++ ['>']) =
      .ok ⟨.fullIri text, '<' :: (text.toList ++ ['>']), []⟩ := by
    simp [Lexeme.first, Lexeme.punctuation, Lexeme.iri, htake, hdrop]
  simpa using Lexes.single (c := '<') rfl (by decide) hfirst

/-- A short name is one token, whatever its halves are. -/
theorem lexes_shortName (first : String) (second : List Char) (hfirst : IsPrefixName first)
    (hsecond : ∀ c ∈ second, isNameChar c = true) :
    Lexes (first.toList ++ ':' :: second)
      [.prefixedName (String.ofList (first.toList ++ ':' :: second))] := by
  have hname : ∀ run, Lexeme.shortName run second =
      ⟨.prefixedName (String.ofList (run ++ ':' :: second)), run ++ ':' :: second, []⟩ := by
    intro run
    rw [Lexeme.shortName, List.takeWhile_eq_self_iff.2 hsecond, List.dropWhile_eq_nil_iff.2 hsecond]
    rfl
  cases hcs : first.toList with
  | nil => exact .single rfl (by decide) (congrArg Except.ok (hname []))
  | cons c cs =>
    obtain ⟨hc, hall⟩ : isNameStart c = true ∧ ∀ d ∈ cs, isNameChar d = true := by
      simpa [IsPrefixName, hcs] using hfirst
    obtain ⟨hblank, hcomment, hrun⟩ := Lexeme.first_of_isNameStart hc (cs ++ ':' :: second)
    obtain ⟨htake, hdrop⟩ := takeWhile_append_of_stops (p := isNameChar) (':' :: second) hall
      fun d hd => Option.some.inj hd ▸ rfl
    rw [List.cons_append]
    refine .single hblank hcomment ?_
    rw [hrun, htake, hdrop]
    exact congrArg Except.ok (hname (c :: cs))

/-- A digit begins a number and nothing else. -/
theorem first_of_isDigit {c : Char} (hc : c.isDigit = true) (cs : List Char) :
    isBlank c = false ∧ c ≠ '#' ∧ Lexeme.first c cs =
      .ok (Lexeme.ofSource .integer (c :: cs.takeWhile Char.isDigit) (cs.dropWhile Char.isDigit)) := by
  have hne : ∀ d, d.isDigit = false → c ≠ d := by
    rintro d hd rfl
    rw [hc] at hd
    cases hd
  have hletter : isNameStart c = false := by
    have hdigit := bounds_of_isDigit hc
    have hne_letter : isLetter c ≠ true := fun h => by
      have := bounds_of_isLetter h
      omega
    simp [isNameStart, hne_letter, hne '_' rfl]
  have hpunctuation : Lexeme.punctuation c = none := by
    simp [Lexeme.punctuation, hne '(' rfl, hne ')' rfl, hne '=' rfl]
  refine ⟨?_, hne '#' rfl, ?_⟩
  · simp [isBlank, hne ' ' rfl, hne '\t' rfl, hne '\r' rfl, hne '\n' rfl, hne '\x0c' rfl]
  · simp [Lexeme.first, hpunctuation, hne '^' rfl, hne '<' rfl, hne ':' rfl, hletter, hc]

theorem lexes_integer (n : Nat) : Lexes (toString n).toList [.integer (toString n)] := by
  have hdigit : ∀ d ∈ (toString n).toList, d.isDigit = true := fun d hd =>
    Nat.isDigit_of_mem_toDigits (b := 10) (by decide) (by decide)
      (by simpa [Nat.toString_eq_repr] using hd)
  have htext := String.ofList_toList (s := toString n)
  cases hcs : (toString n).toList with
  | nil => simp at hcs
  | cons c cs =>
    rw [hcs] at htext hdigit
    obtain ⟨hc, hall⟩ := List.forall_mem_cons.1 hdigit
    obtain ⟨hblank, hcomment, hfirst⟩ := first_of_isDigit hc cs
    refine .single hblank hcomment ?_
    rw [hfirst, List.takeWhile_eq_self_iff.2 hall, List.dropWhile_eq_nil_iff.2 hall, ← htext]
    rfl

/-! ## Names -/

/-- The token that a name is written as. -/
def iriToken (iri : Iri) : Token :=
  if iri.isAnonymous then .prefixedName iri.text else .fullIri iri.text

theorem lexes_iri {iri : Iri} (h : iri.IsWritable) : Lexes iri.render.toList [iriToken iri] := by
  unfold Iri.render iriToken
  split
  · next hanonymous =>
    obtain ⟨label, hlabel⟩ := Iri.isAnonymous_iff.1 hanonymous
    have hchars : ∀ c ∈ label, isNameChar c = true := by
      simpa [hlabel] using h.label hanonymous
    have hname := lexes_shortName "_" label (by decide) hchars
    have htext : "_".toList ++ ':' :: label = iri.text.toList := hlabel.symm
    rwa [htext, String.ofList_toList] at hname
  · exact lexes_fullIri h.bracketable

/-- Anonymous individuals stay as they are written. -/
theorem expand_anonymous {iri : Iri} (h : iri.isAnonymous = true) (ns : Namespaces) :
    expand ns iri.text = pure iri := by
  obtain ⟨label, hlabel⟩ := Iri.isAnonymous_iff.1 h
  simp [expand, splitName, hlabel]

theorem reads_iri? (iri : Iri) (ns : Namespaces) : Reads (iri? ns) [iriToken iri] (some iri) := by
  intro located rest hts
  obtain ⟨t, rfl, ht⟩ := List.map_eq_singleton_iff.1 hts
  unfold iriToken at ht
  split at ht
  · next hanonymous =>
    simp only [iri?, bind_apply, peek, List.singleton_append, List.head?_cons, Option.map_some, ht,
      expand_anonymous hanonymous]
    rfl
  · simp only [iri?, bind_apply, peek, List.singleton_append, List.head?_cons, Option.map_some, ht]
    rfl

theorem reads_iriOr (missing : SyntaxFault) (iri : Iri) (ns : Namespaces) :
    Reads (iriOr missing ns) [iriToken iri] iri := by
  intro located rest hts
  rw [iriOr, bind_of_ok (reads_iri? iri ns located rest hts)]
  rfl

theorem isItemStart_iriToken (iri : Iri) : IsItemStart (iriToken iri) := by
  unfold iriToken
  split <;> simp [IsItemStart]

theorem spells_iri {iri : Iri} (h : iri.IsWritable) (ns : Namespaces) :
    Spells (fun _ => FunctionalSyntax.iri ns) iri.render iri :=
  ⟨_, lexes_iri h, ⟨_, rfl, isItemStart_iriToken iri⟩, fun _ _ => reads_iriOr _ iri ns⟩

theorem spells_individual {i : Individual} (h : i.iri.IsWritable) (ns : Namespaces) :
    Spells (fun _ => individual ns) i.render i :=
  ⟨_, lexes_iri h, ⟨_, rfl, isItemStart_iriToken i.iri⟩, fun _ _ =>
    (reads_iriOr .expectedIndividual i.iri ns).bind (.pure (Individual.mk i.iri))⟩

/-- A keyword is no IRI. -/
theorem iri?_of_keyword {t : Located} {kind : String} (h : t.token = .keyword kind) (ns : Namespaces)
    (left : List Located) : iri? ns (t :: left) = .ok (none, t :: left) := by
  simp only [iri?, bind_apply, peek, List.head?_cons, Option.map_some, h]
  rfl

/-! ## Roles -/

theorem reads_role_named (iri : Iri) (ns : Namespaces) (steps : Nat) :
    Reads (role ns (steps + 1)) [iriToken iri] (.named iri) := by
  intro located rest hts
  rw [role, bind_apply, reads_iri? iri ns located rest hts]
  rfl

/-- An inverse is read as the inverse of what stands in the parentheses. -/
theorem Fills.inverse {ns : Namespaces} {steps : Nat} {ts : List Token} {r : Role}
    (h : Fills (role ns steps) ts r) :
    Reads (role ns (steps + 1)) (.keyword "ObjectInverseOf" :: (.leftParen :: (ts ++ [.rightParen])))
      r.inverse := by
  intro located rest hts
  obtain ⟨t, group, rfl, ht, hgroup⟩ := List.map_eq_cons_iff.1 hts
  rw [role, List.cons_append, bind_of_ok (iri?_of_keyword ht ns _)]
  dsimp only
  rw [bind_of_ok (peek_cons t _), ht]
  exact h.parens Role.inverse group rest hgroup

theorem spells_role {r : Role} (h : r.property.IsWritable) (ns : Namespaces) :
    Spells (role ns) r.render r := by
  cases r with
  | named property =>
    refine ⟨_, lexes_iri h, ⟨_, rfl, isItemStart_iriToken property⟩, fun steps hsteps => ?_⟩
    obtain ⟨steps, rfl⟩ := Nat.exists_eq_add_one_of_ne_zero (show steps ≠ 0 by omega)
    exact reads_role_named property ns steps
  | inverseOf property =>
    refine ⟨_, lexes_group (by decide) (by simp) (.cons (lexes_iri h) .nil),
      ⟨_, rfl, by simp [IsItemStart]⟩, fun steps hsteps => ?_⟩
    obtain ⟨steps, rfl⟩ := Nat.exists_eq_add_one_of_ne_zero (show steps ≠ 0 by omega)
    obtain ⟨steps, rfl⟩ := Nat.exists_eq_add_one_of_ne_zero (show steps ≠ 0 by simp at hsteps; omega)
    exact (reads_role_named property ns steps).fills.inverse

/-! ## Class expressions -/

/-- A compound expression is what stands in its parentheses. -/
theorem Fills.compound {ns : Namespaces} {kind : String} {steps : Nat} {ts : List Token}
    {c : ClassExpression} (h : Fills (construct ns kind steps) ts c) :
    Reads (classExpression ns (steps + 1))
      (.keyword kind :: (.leftParen :: (ts ++ [.rightParen]))) c := by
  intro located rest hts
  obtain ⟨t, group, rfl, ht, hgroup⟩ := List.map_eq_cons_iff.1 hts
  rw [classExpression, List.cons_append, bind_of_ok (iri?_of_keyword ht ns _)]
  dsimp only
  rw [bind_of_ok (peek_cons t _), ht]
  exact h.parens id group rest hgroup

/-- A compound expression is read back if its arguments are. -/
theorem Arguments.spells {ns : Namespaces} {kind : String} {k : Nat} {m : Nat → Reading ClassExpression}
    {texts : List String} {c : ClassExpression} (h : Arguments k m texts c)
    (hm : ∀ steps, construct ns kind (steps + 1) = m steps)
    (hkind : isKeyword kind.toList = true ∧ kind ≠ "Annotation") (hne : texts ≠ []) (hk : k ≤ 8) :
    Spells (classExpression ns) (group kind texts) c := by
  obtain ⟨tss, hall, -, hfills⟩ := h.succ hm
  refine ⟨_, lexes_group hkind.1 hne hall, ⟨_, rfl, by simp [IsItemStart, hkind.2]⟩,
    fun steps hsteps => ?_⟩
  simp only [List.length_cons, List.length_append, List.length_nil] at hsteps
  obtain ⟨steps, rfl⟩ := Nat.exists_eq_add_one_of_ne_zero (show steps ≠ 0 by omega)
  exact (hfills steps (by omega)).compound

theorem reads_classExpression_named {ns : Namespaces} {ts : List Token} {iri : Iri}
    (h : Reads (iri? ns) ts (some iri)) (steps : Nat) :
    Reads (classExpression ns (steps + 1)) ts (.ofIri iri) := by
  intro located rest hts
  rw [classExpression, bind_of_ok (h located rest hts)]
  rfl

/-- A name is read as a class by its token. -/
theorem spells_of_token {ns : Namespaces} {text : String} {t : Token} {iri : Iri}
    (hlexes : Lexes text.toList [t]) (hstart : IsItemStart t) (hreads : Reads (iri? ns) [t] (some iri)) :
    Spells (classExpression ns) text (.ofIri iri) := by
  refine ⟨[t], hlexes, ⟨t, rfl, hstart⟩, fun steps hsteps => ?_⟩
  obtain ⟨steps, rfl⟩ := Nat.exists_eq_add_one_of_ne_zero (show steps ≠ 0 by omega)
  exact reads_classExpression_named hreads steps

theorem spells_ofIri {iri : Iri} (h : iri.IsWritable) (ns : Namespaces) :
    Spells (classExpression ns) iri.render (.ofIri iri) :=
  spells_of_token (lexes_iri h) (isItemStart_iriToken iri) (reads_iri? iri ns)

/-- A short name is read as what its namespace makes of it. -/
theorem spells_shortName {ns : Namespaces} {first space : String} (hns : ns.find? first = some space)
    (hfirst : IsPrefixName first) (hne : first ≠ "_") (second : String)
    (hsecond : IsLocalName second) :
    Spells (classExpression ns) (first ++ ":" ++ second) (.ofIri ⟨space ++ second⟩) := by
  have hlexes := lexes_shortName first second.toList hfirst hsecond
  have htext : (first ++ ":" ++ second).toList = first.toList ++ ':' :: second.toList := by simp
  rw [← htext, String.ofList_toList] at hlexes
  refine spells_of_token hlexes (by simp [IsItemStart]) fun located rest hts => ?_
  obtain ⟨t, rfl, ht⟩ := List.map_eq_singleton_iff.1 hts
  have hexpand : expand ns (first ++ ":" ++ second) = pure ⟨space ++ second⟩ := by
    simp [expand, splitName_of_isPrefixName hfirst second, hne, hns]
  rw [List.singleton_append, iri?, bind_of_ok (peek_cons t _), ht]
  dsimp only
  rw [hexpand]
  rfl

/-- A full IRI is read as it stands. -/
theorem spells_fullIri {text : String} (h : IsBracketable text) (ns : Namespaces) :
    Spells (classExpression ns) ("<" ++ text ++ ">") (.ofIri ⟨text⟩) := by
  refine spells_of_token (lexes_fullIri h) (by simp [IsItemStart]) fun located rest hts => ?_
  obtain ⟨t, rfl, ht⟩ := List.map_eq_singleton_iff.1 hts
  rw [List.singleton_append, iri?, bind_of_ok (peek_cons t _), ht]
  rfl

/-- The number that is written is read. -/
theorem decimal_toString (n : Nat) : decimal (toString n) = n := by
  have hdigits := Nat.ofDigitChars_toDigits (b := 10) (n := n) (by decide) (by decide)
  rwa [← Nat.toList_repr, ← Nat.toString_eq_repr] at hdigits

theorem spells_cardinality (n : UInt32) : Spells (fun _ => cardinality) (toString n.toNat) n := by
  refine ⟨_, lexes_integer n.toNat, ⟨_, rfl, by simp [IsItemStart]⟩, fun steps _ located rest hts => ?_⟩
  obtain ⟨t, rfl, ht⟩ := List.map_eq_singleton_iff.1 hts
  dsimp only [cardinality]
  rw [List.singleton_append, bind_of_ok (peek_cons t _), ht]
  dsimp only
  rw [decimal_toString, if_pos n.toNat_lt_size, UInt32.ofNat_toNat]
  rfl

theorem arguments_individuals {is : List Individual} (h : ∀ i ∈ is, i.iri.IsWritable) (ns : Namespaces)
    {least : Nat} (hleast : least ≤ is.length) :
    Arguments 1 (individuals ns · least) (is.map Individual.render) is :=
  (Arguments.untilClosed Individual.render fun i hi => spells_individual (h i hi) ns).checkCount hleast _

theorem arguments_classExpressions {ns : Namespaces} {cs : List ClassExpression}
    (h : Arguments 2 (classExpressionsUntilClosed ns) (renderList cs) cs) {least : Nat}
    (hleast : least ≤ cs.length) :
    Arguments 3 (classExpressions ns least) (renderList cs) cs :=
  (h.checkCount hleast .tooFewClassExpressions).succ fun steps => by rw [classExpressions]

theorem map_ne_nil {items : List α} (render : α → String) {least : Nat}
    (h : least + 1 ≤ items.length) : items.map render ≠ [] := by
  cases items <;> simp_all

theorem renderList_ne_nil {cs : List ClassExpression} (h : 2 ≤ cs.length) : renderList cs ≠ [] := by
  cases cs <;> simp_all [renderList]

mutual

/-- An expression with writable names is read back. -/
theorem spells_classExpression {ns : Namespaces} : ∀ c : ClassExpression,
    (∀ e ∈ c.vocabulary, e.iri.IsWritable) → c.IsShaped →
    (c.UsesPredefined → ns.find? "owl" = some owlNamespace) → Spells (classExpression ns) c.render c
  | .named iri, hnames, hshape, _ => by
    have hiri : ClassExpression.ofIri iri = .named iri := by simp [ofIri, hshape.1, hshape.2]
    have hspells : Spells (classExpression ns) iri.render (.ofIri iri) :=
      spells_ofIri (hnames _ List.mem_cons_self) ns
    rwa [hiri] at hspells
  | .thing, _, _, hpredefined =>
    spells_shortName (hpredefined trivial) (by decide) (by decide) "Thing" (by decide)
  | .nothing, _, _, hpredefined =>
    spells_shortName (hpredefined trivial) (by decide) (by decide) "Nothing" (by decide)
  | .intersectionOf cs, hnames, hshape, hpredefined =>
    (arguments_classExpressions (arguments_untilClosed cs hnames hshape.2 hpredefined) hshape.1
      |>.map intersectionOf).spells (fun _ => by rw [construct]) (by decide)
      (renderList_ne_nil hshape.1) (by decide)
  | .unionOf cs, hnames, hshape, hpredefined =>
    (arguments_classExpressions (arguments_untilClosed cs hnames hshape.2 hpredefined) hshape.1
      |>.map unionOf).spells (fun _ => by rw [construct]) (by decide)
      (renderList_ne_nil hshape.1) (by decide)
  | .complementOf c, hnames, hshape, hpredefined =>
    ((Arguments.single (spells_classExpression c hnames hshape hpredefined)).map complementOf).spells
      (fun _ => by rw [construct]) (by decide) (by simp) (by decide)
  | .oneOf members, hnames, hshape, _ => by
    have hmembers : ∀ i ∈ members, i.iri.IsWritable := fun i hi =>
      hnames (.individual i.iri) (List.mem_map_of_mem hi)
    exact ((arguments_individuals hmembers ns hshape).map oneOf).spells (fun _ => by rw [construct])
      (by decide) (map_ne_nil _ hshape) (by decide)
  | .someValuesFrom r c, hnames, hshape, hpredefined => by
    obtain ⟨hr, hc⟩ := List.forall_mem_cons.1 hnames
    have hfiller := Arguments.single (spells_classExpression c hc hshape hpredefined)
    exact (Arguments.pair (spells_role hr ns) hfiller someValuesFrom).spells (fun _ => by rw [construct])
      (by decide) (by simp) (by decide)
  | .allValuesFrom r c, hnames, hshape, hpredefined => by
    obtain ⟨hr, hc⟩ := List.forall_mem_cons.1 hnames
    have hfiller := Arguments.single (spells_classExpression c hc hshape hpredefined)
    exact (Arguments.pair (spells_role hr ns) hfiller allValuesFrom).spells (fun _ => by rw [construct])
      (by decide) (by simp) (by decide)
  | .hasValue r i, hnames, _, _ => by
    obtain ⟨hr, hi⟩ := List.forall_mem_cons.1 hnames
    have hvalue : Arguments 1 (fun _ => individual ns) [i.render] i :=
      .single (spells_individual (hi _ List.mem_cons_self) ns)
    exact (Arguments.pair (spells_role hr ns) hvalue hasValue).spells (fun _ => by rw [construct])
      (by decide) (by simp) (by decide)
  | .hasSelf r, hnames, _, _ =>
    ((Arguments.single (spells_role (hnames _ List.mem_cons_self) ns)).map hasSelf).spells
      (fun _ => by rw [construct]) (by decide) (by simp) (by decide)
  | .minCardinality n r c, hnames, hshape, hpredefined => by
    obtain ⟨hr, hc⟩ := List.forall_mem_cons.1 hnames
    have hfiller := arguments_filler c hc hshape hpredefined
    exact (Arguments.triple (spells_cardinality n) (spells_role hr ns) hfiller minCardinality).spells
      (fun _ => by rw [construct]) (by decide) (by simp) (by decide)
  | .maxCardinality n r c, hnames, hshape, hpredefined => by
    obtain ⟨hr, hc⟩ := List.forall_mem_cons.1 hnames
    have hfiller := arguments_filler c hc hshape hpredefined
    exact (Arguments.triple (spells_cardinality n) (spells_role hr ns) hfiller maxCardinality).spells
      (fun _ => by rw [construct]) (by decide) (by simp) (by decide)
  | .exactCardinality n r c, hnames, hshape, hpredefined => by
    obtain ⟨hr, hc⟩ := List.forall_mem_cons.1 hnames
    have hfiller := arguments_filler c hc hshape hpredefined
    exact (Arguments.triple (spells_cardinality n) (spells_role hr ns) hfiller exactCardinality).spells
      (fun _ => by rw [construct]) (by decide) (by simp) (by decide)

/-- Expressions with writable names are read back up to the closing parenthesis. -/
theorem arguments_untilClosed {ns : Namespaces} : ∀ cs : List ClassExpression,
    (∀ e ∈ vocabularyList cs, e.iri.IsWritable) → IsShapedList cs →
    (UsesPredefinedList cs → ns.find? "owl" = some owlNamespace) →
    Arguments 2 (classExpressionsUntilClosed ns) (renderList cs) cs
  | [], _, _, _ =>
    (Arguments.ifClosed_nil [] _).succ fun _ => by rw [classExpressionsUntilClosed]
  | c :: cs, hnames, hshape, hpredefined => by
    obtain ⟨hc, hcs⟩ := List.forall_mem_append.1 hnames
    have hfirst := spells_classExpression c hc hshape.1 (hpredefined ∘ .inl)
    have hrest := (arguments_untilClosed cs hcs hshape.2 (hpredefined ∘ .inr)).mono (j := 4) (by decide)
    exact (Arguments.ifClosed_cons (k := 0) [] hfirst (hrest.map (c :: ·))).succ fun _ => by
      rw [classExpressionsUntilClosed]

/-- A filler with writable names is read back, if there is one. -/
theorem arguments_filler {ns : Namespaces} : ∀ c : Option ClassExpression,
    (∀ e ∈ vocabularyFiller c, e.iri.IsWritable) → IsShapedFiller c →
    (UsesPredefinedFiller c → ns.find? "owl" = some owlNamespace) →
    Arguments 2 (filler ns) (renderFiller c) c
  | none, _, _, _ => (Arguments.ifClosed_nil none _).succ fun _ => by rw [filler]
  | some c, hnames, hshape, hpredefined =>
    (Arguments.ifClosed_cons (k := 0) none (spells_classExpression c hnames hshape hpredefined)
      (.pure (some c))).succ fun _ => by rw [filler]

end

/-! ## Axioms -/

/-- A text is a keyword and what a statement with this keyword has to consist of to be read as an
axiom. -/
def ReadsBack (ns : Namespaces) (kind text : String) (a : Axiom) : Prop :=
  ∃ ts, Lexes text.toList (.keyword kind :: ts) ∧
    ∀ steps, 3 * ts.length ≤ steps → Reads (statementBody ns steps kind) ts (some a)

theorem skipAnnotations_of_head_ne {left : List Located} (steps : Nat)
    (h : left.head?.map Located.token ≠ some (.keyword "Annotation")) :
    skipAnnotations steps left = .ok ((), left) := by
  cases steps with
  | zero => rfl
  | succ steps =>
    have hpeek : peek left = .ok (left.head?.map Located.token, left) := rfl
    rw [skipAnnotations, bind_of_ok hpeek, if_neg h]
    rfl

/-- Without annotations a statement is read from its first argument on. -/
theorem reads_skipAnnotations {m : Reading α} {t : Token} {ts : List Token} {a : α} (steps : Nat)
    (h : Reads m (t :: ts) a) (ht : t ≠ .keyword "Annotation") :
    Reads (do skipAnnotations steps; m) (t :: ts) a := by
  intro located rest hts
  obtain ⟨t', located, rfl, rfl, -⟩ := List.map_eq_cons_iff.1 hts
  rw [bind_of_ok (skipAnnotations_of_head_ne steps (by simpa using ht))]
  exact h _ rest hts

/-- What follows the keyword of an axiom is read as the axiom. -/
theorem Fills.statementBody {ns : Namespaces} {kind : String} {steps : Nat} {ts : List Token}
    {a : Axiom} (h : Fills (axiomArguments ns steps kind) ts a)
    (hkind : kind ∉ "Declaration" :: annotationAxioms) (hstart : ∀ t ∈ ts.head?, IsItemStart t) :
    Reads (statementBody ns steps kind) (.leftParen :: (ts ++ [.rightParen])) (some a) := by
  have hfirst : ∃ t us, ts ++ [.rightParen] = t :: us ∧ t ≠ .keyword "Annotation" := by
    cases ts with
    | nil => exact ⟨_, [], rfl, by simp⟩
    | cons t ts => exact ⟨t, _, rfl, (hstart t rfl).2⟩
  obtain ⟨t, us, heq, ht⟩ := hfirst
  obtain ⟨hdeclaration, hannotation⟩ := not_or.1 (mt List.mem_cons.2 hkind)
  have hbody : Reads (do let result ← axiomArguments ns steps kind; expect .rightParen; pure (some result))
      (ts ++ [.rightParen]) (some a) := fun located rest hts => by
    obtain ⟨inner, closing, rfl, rfl, hclosing⟩ := List.map_eq_append_iff.1 hts
    obtain ⟨close, rfl, hclose⟩ := List.map_eq_singleton_iff.1 hclosing
    rw [List.append_assoc, List.singleton_append, bind_of_ok (h inner close rest rfl hclose)]
    exact (reads_expect .rightParen).bind (.pure (some a)) [close] rest hclosing
  rw [heq] at hbody ⊢
  have hrest := reads_skipAnnotations steps hbody ht
  rw [FunctionalSyntax.statementBody, if_neg hdeclaration, if_neg hannotation]
  exact (reads_expect .leftParen).bind hrest

/-- A keyword with arguments is read as an axiom if the arguments are. -/
theorem Arguments.readsBack {ns : Namespaces} {kind : String} {texts : List String} {a : Axiom}
    (h : Arguments 6 (axiomArguments ns · kind) texts a) (hne : texts ≠ [])
    (hkeyword : isKeyword kind.toList = true) (hkind : kind ∉ "Declaration" :: annotationAxioms) :
    ReadsBack ns kind (group kind texts) a := by
  obtain ⟨tss, hall, hstart, hfills⟩ := h
  refine ⟨_, lexes_group hkeyword hne hall, fun steps hsteps => ?_⟩
  simp only [List.length_cons, List.length_append, List.length_nil] at hsteps
  exact (hfills steps (by omega)).statementBody hkind hstart

theorem reads_declaration (e : Entity) (ns : Namespaces) :
    Reads (declaration ns)
      [.keyword e.kind, .leftParen, iriToken e.iri, .rightParen, .rightParen]
      (some (.declaration e)) := by
  intro located rest hts
  obtain ⟨t, group, rfl, ht, hgroup⟩ := List.map_eq_cons_iff.1 hts
  have hnext : next (t :: (group ++ rest)) = .ok (t.token, group ++ rest) := rfl
  rw [declaration, List.cons_append, bind_of_ok hnext, ht]
  have hclosed {x : Option Axiom} :
      Reads (do expect .rightParen; expect .rightParen; pure x) [.rightParen, .rightParen] x :=
    (reads_expect .rightParen).bind ((reads_expect .rightParen).bind (.pure x))
  have hread {x : Iri → Option Axiom} :
      Reads (do let iri ← iri ns; expect .rightParen; expect .rightParen; pure (x iri))
        [iriToken e.iri, .rightParen, .rightParen] (x e.iri) :=
    (reads_iriOr .expectedIri e.iri ns).bind hclosed
  cases e <;> exact (reads_expect .leftParen).bind hread group rest hgroup

theorem Axiom.render_eq {a : Axiom} (h : a.IsSupported) : a.render = group a.kind a.arguments := by
  cases a with
  | unsupported kind source => exact h.elim
  | _ => rfl

/-- The predefined classes have names that can be written. -/
theorem isWritable_of_declaredVocabulary {e : Entity}
    (h : ∀ e' ∈ Axiom.declaredVocabulary e, e'.iri.IsWritable) : e.iri.IsWritable := by
  have hpredefined : ∀ iri ∈ [Iri.thing, Iri.nothing], iri.IsWritable := by decide
  cases e with
  | atomicClass iri =>
    simp only [Axiom.declaredVocabulary] at h
    split at h
    · next heq => exact hpredefined iri (by simpa using heq)
    · exact h _ List.mem_cons_self
  | _ => exact h _ List.mem_cons_self

/-- Some texts after another one can be written as one text after it. -/
theorem spaced_cons_spaced (text : String) {texts : List String} (h : texts ≠ []) :
    spaced (text :: texts) = spaced [text, spaced texts] := by
  obtain ⟨first, rest, rfl⟩ := List.exists_cons_of_ne_nil h
  simp [spaced, String.intercalate_cons_cons]

theorem isKeyword_kind {a : Axiom} (h : a.IsSupported) : isKeyword a.kind.toList = true := by
  cases a with
  | unsupported kind source => exact h.elim
  | _ => simp only [Axiom.kind]; decide

theorem kind_not_mem_annotationAxioms {a : Axiom} (h : a.IsSupported) : a.kind ∉ annotationAxioms := by
  cases a with
  | unsupported kind source => exact h.elim
  | _ => simp [Axiom.kind, annotationAxioms]

section Arguments

variable {ns : Namespaces} {rs : List Role} {is : List Individual}

theorem spells_roles (ns : Namespaces) (h : ∀ e ∈ Axiom.rolesVocabulary rs, e.iri.IsWritable) :
    ∀ r ∈ rs, Spells (role ns) r.render r :=
  fun _ hr => spells_role (h _ (List.mem_map_of_mem hr)) ns

theorem spells_individuals (ns : Namespaces) (h : ∀ e ∈ Axiom.individualsVocabulary is, e.iri.IsWritable) :
    ∀ i ∈ is, Spells (fun _ => individual ns) i.render i :=
  fun _ hi => spells_individual (h _ (List.mem_map_of_mem hi)) ns

/-- The arguments of a supported axiom are read back if its names can be written. -/
theorem arguments_of_isSupported {a : Axiom} (hsupported : a.IsSupported)
    (hdeclaration : a.kind ≠ "Declaration") (hnames : ∀ e ∈ a.vocabulary, e.iri.IsWritable) (hshape : a.IsShaped)
    (hpredefined : a.UsesPredefined → ns.find? "owl" = some owlNamespace) :
    ∃ texts, texts ≠ [] ∧ spaced texts = spaced a.arguments ∧
      Arguments 6 (axiomArguments ns · a.kind) texts a := by
  cases a with
  | unsupported kind source => exact hsupported.elim
  | declaration e => exact absurd rfl hdeclaration
  | subClassOf c d =>
    obtain ⟨hc, hd⟩ := List.forall_mem_append.1 hnames
    have hsub := spells_classExpression c hc hshape.1 (hpredefined ∘ .inl)
    have hsup := spells_classExpression d hd hshape.2 (hpredefined ∘ .inr)
    exact ⟨_, List.cons_ne_nil _ _, rfl, (Arguments.pair hsub (.single hsup) _).mono (by decide)⟩
  | equivalentClasses cs | disjointClasses cs =>
    have hclasses := arguments_classExpressions (arguments_untilClosed cs hnames hshape.2 hpredefined)
      hshape.1
    exact ⟨_, renderList_ne_nil hshape.1, rfl, (hclasses.map _).mono (by decide)⟩
  | disjointUnion whole cs =>
    obtain ⟨hwhole, hcs⟩ := List.forall_mem_cons.1 hnames
    have hall := arguments_classExpressions (arguments_untilClosed cs hcs hshape.2 hpredefined)
      hshape.1
    exact ⟨whole.render :: renderList cs, List.cons_ne_nil _ _,
      spaced_cons_spaced _ (renderList_ne_nil hshape.1),
      (Arguments.pair (spells_iri hwhole ns) hall _).mono (by decide)⟩
  | subObjectPropertyOf r s | inverseObjectProperties r s =>
    have hroles := spells_roles ns hnames
    have hfirst := hroles r (by simp)
    have hsecond := hroles s (by simp)
    exact ⟨_, List.cons_ne_nil _ _, rfl, (Arguments.pair hfirst (.single hsecond) _).mono (by decide)⟩
  | equivalentObjectProperties rs | disjointObjectProperties rs =>
    have hroles := (Arguments.untilClosed Role.render (spells_roles ns hnames)).checkCount hshape
      .tooFewPropertyExpressions
    exact ⟨_, map_ne_nil _ hshape, rfl, (hroles.map _).mono (by decide)⟩
  | objectPropertyDomain r c | objectPropertyRange r c =>
    obtain ⟨hr, hc⟩ := List.forall_mem_append.1 hnames
    have hrole := spells_roles ns hr r (by simp)
    have hclass := spells_classExpression c hc hshape hpredefined
    exact ⟨_, List.cons_ne_nil _ _, rfl, (Arguments.pair hrole (.single hclass) _).mono (by decide)⟩
  | functionalObjectProperty r | inverseFunctionalObjectProperty r | reflexiveObjectProperty r
  | irreflexiveObjectProperty r | symmetricObjectProperty r | asymmetricObjectProperty r
  | transitiveObjectProperty r =>
    have hrole := spells_roles ns hnames r (by simp)
    exact ⟨_, List.cons_ne_nil _ _, rfl, ((Arguments.single hrole).map _).mono (by decide)⟩
  | sameIndividual is | differentIndividuals is =>
    have hindividuals := (Arguments.untilClosed Individual.render
      (spells_individuals ns hnames)).checkCount hshape .tooFewIndividuals
    exact ⟨_, map_ne_nil _ hshape, rfl, (hindividuals.map _).mono (by decide)⟩
  | classAssertion c i =>
    obtain ⟨hc, hi⟩ := List.forall_mem_append.1 hnames
    have hclass := spells_classExpression c hc hshape hpredefined
    have hindividual := spells_individuals ns hi i (by simp)
    exact ⟨_, List.cons_ne_nil _ _, rfl, (Arguments.pair hclass (.single hindividual) _).mono (by decide)⟩
  | objectPropertyAssertion r i j | negativeObjectPropertyAssertion r i j =>
    obtain ⟨hr, his⟩ := List.forall_mem_append.1 hnames
    have hrole := spells_roles ns hr r (by simp)
    have hindividuals := spells_individuals ns his
    have hsubject := hindividuals i (by simp)
    have hobject := hindividuals j (by simp)
    exact ⟨_, List.cons_ne_nil _ _, rfl,
      (Arguments.triple hrole hsubject (.single hobject) _).mono (by decide)⟩

/-- A supported axiom can be written if its names can. -/
theorem readsBack_of_isSupported {a : Axiom} (hsupported : a.IsSupported)
    (hnames : ∀ e ∈ a.vocabulary, e.iri.IsWritable) (hshape : a.IsShaped)
    (hpredefined : a.UsesPredefined → ns.find? "owl" = some owlNamespace) :
    ReadsBack ns a.kind a.render a := by
  rw [Axiom.render_eq hsupported]
  by_cases hdeclaration : a.kind = "Declaration"
  · cases a with
    | declaration e =>
      have hkind : isKeyword e.kind.toList = true := by
        cases e <;> simp only [Entity.kind] <;> decide
      have hentity := lexes_group hkind (by simp)
        (.cons (lexes_iri (isWritable_of_declaredVocabulary hnames)) .nil)
      have hlexes := lexes_group (isKeyword_kind hsupported) (List.cons_ne_nil _ _) (.cons hentity .nil)
      refine ⟨_, hlexes, fun steps hsteps => ?_⟩
      rw [hdeclaration, FunctionalSyntax.statementBody, if_pos rfl]
      refine (reads_expect .leftParen).bind (reads_skipAnnotations steps (reads_declaration e ns) ?_)
      cases e <;> simp [Entity.kind]
    | unsupported kind source => exact hsupported.elim
    | _ => simp [Axiom.kind] at hdeclaration
  · obtain ⟨texts, hne, hspaced, harguments⟩ :=
      arguments_of_isSupported hsupported hdeclaration hnames hshape hpredefined
    have htext : group a.kind texts = group a.kind a.arguments := by rw [group, hspaced, group]
    refine htext ▸ harguments.readsBack hne (isKeyword_kind hsupported) fun hmem => ?_
    exact (List.mem_cons.1 hmem).elim hdeclaration (kind_not_mem_annotationAxioms hsupported)

end Arguments

end FixedDomain.FunctionalSyntax
