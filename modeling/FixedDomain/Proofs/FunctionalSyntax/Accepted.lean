import FixedDomain.Proofs.FunctionalSyntax.Grammar

/-! # What the steps of a document yield

* `sound_of_tokenizeFrom` — the words of a document are as they are read from a text.
* `Yields` — a step passes over some words and has a result of a kind.
* `yields_declaration`, `yields_header` — what is declared has a name that can be written.
-/

namespace FixedDomain.FunctionalSyntax

variable {α β : Type}

/-! ## Words -/

namespace Lexeme

theorem shortName_isSound {first : List Char} (cs : List Char) (h : IsPrefixName (String.ofList first)) :
    (shortName first cs).token.IsSound := by
  refine ⟨String.ofList first, String.ofList (cs.takeWhile isNameChar), h, ?_, ?_⟩
  · rw [IsLocalName, String.toList_ofList]
    exact fun c => List.mem_takeWhile_imp
  · apply String.toList_injective
    simp

/-- A word is as it is read from a text. -/
theorem first_isSound {c : Char} {cs : List Char} {l : Lexeme} (h : first c cs = .ok l) :
    l.token.IsSound := by
  unfold first at h
  split at h
  · next t ht =>
    obtain rfl := Except.ok.inj h
    rcases punctuation_cases ht with ⟨-, rfl⟩ | ⟨-, rfl⟩ | ⟨-, rfl⟩ <;> trivial
  · split_ifs at h with h₁ h₂ h₃ h₄ h₅ h₆ h₇
    · unfold caret at h
      split at h
      · obtain rfl := Except.ok.inj h
        trivial
      · cases h
    · unfold iri at h
      split at h
      · obtain rfl := Except.ok.inj h
        intro d hd
        exact List.mem_takeWhile_imp (by simpa using hd)
      · cases h
    · obtain rfl := Except.ok.inj h
      exact shortName_isSound cs (by decide)
    · unfold ofRun at h
      split at h
      · obtain rfl := Except.ok.inj h
        refine shortName_isSound _ ⟨by simpa using h₄, ?_⟩
        rw [String.toList_ofList]
        exact fun d => List.mem_takeWhile_imp
      · split at h
        · obtain rfl := Except.ok.inj h
          trivial
        · cases h
    · obtain rfl := Except.ok.inj h
      trivial
    · unfold literal at h
      split at h
      · obtain rfl := Except.ok.inj h
        trivial
      · cases h
    · unfold languageTag at h
      split at h
      · cases h
      · split at h
        · obtain rfl := Except.ok.inj h
          trivial
        · cases h

end Lexeme

theorem sound_of_tokenizeFrom {p : Place} {cs : List Char} {ts : List Located}
    (h : tokenizeFrom p cs = .ok ts) : Sound ts := by
  induction ts generalizing p cs with
  | nil => simp [Sound]
  | cons t ts ih =>
    obtain ⟨rest, hleads, htail⟩ := exists_leads_of_tokenizeFrom h
    have ht : t.token.IsSound := by
      obtain ⟨-, hfirst⟩ := hleads
      exact Lexeme.first_isSound hfirst
    exact List.forall_mem_cons.2 ⟨ht, ih htail⟩

/-! ## Steps -/

theorem Sound.suffix {left rest : List Located} (h : Sound left) (hsuffix : rest <:+ left) : Sound rest :=
  fun t ht => h t (hsuffix.subset ht)

theorem exists_of_bind {m : Reading α} {f : α → Reading β} {left rest : List Located} {b : β}
    (h : (m >>= f) left = .ok (b, rest)) :
    ∃ a mid, m left = .ok (a, mid) ∧ f a mid = .ok (b, rest) := by
  rw [bind_apply] at h
  split at h
  · next a mid hm => exact ⟨a, mid, hm, h⟩
  · cases h

theorem unsupported_of_bind {m : Reading α} {f : α → Reading β} {left : List Located} {construct : String}
    (h : (m >>= f) left = .error (.unsupported construct)) :
    m left = .error (.unsupported construct) ∨
      ∃ a mid, m left = .ok (a, mid) ∧ f a mid = .error (.unsupported construct) := by
  rw [bind_apply] at h
  split at h
  · next a mid hm => exact .inr ⟨a, mid, hm, h⟩
  · next e hm => exact .inl (Except.error.inj h ▸ hm)

/-- A step passes over some words and has a result of a kind. It stops at no unsupported construct. -/
structure Yields (m : Reading α) (P : α → Prop) : Prop where
  ok : ∀ {left rest a}, Sound left → m left = .ok (a, rest) → P a ∧ rest <:+ left
  supported : ∀ {left construct}, Sound left → m left ≠ .error (.unsupported construct)

namespace Yields

variable {m : Reading α} {f : α → Reading β} {P : α → Prop} {Q : β → Prop}

theorem pure {a : α} (h : P a) : Yields (pure a) P where
  ok _ hm := by
    obtain ⟨rfl, rfl⟩ := Prod.mk.inj (Except.ok.inj hm)
    exact ⟨h, List.suffix_refl _⟩
  supported _ hm := by cases hm

theorem fault (f : SyntaxFault) : Yields (fault f) P where
  ok _ hm := by cases hm
  supported _ hm := by cases hm

theorem bind (h : Yields m P) (hf : ∀ a, P a → Yields (f a) Q) : Yields (m >>= f) Q where
  ok hsound hm := by
    obtain ⟨a, mid, hfirst, hsecond⟩ := exists_of_bind hm
    obtain ⟨ha, hsuffix⟩ := h.ok hsound hfirst
    obtain ⟨hb, hsuffix'⟩ := (hf a ha).ok (hsound.suffix hsuffix) hsecond
    exact ⟨hb, hsuffix'.trans hsuffix⟩
  supported hsound hm := by
    rcases unsupported_of_bind hm with hfirst | ⟨a, mid, hfirst, hsecond⟩
    · exact h.supported hsound hfirst
    · obtain ⟨ha, hsuffix⟩ := h.ok hsound hfirst
      exact (hf a ha).supported (hsound.suffix hsuffix) hsecond

end Yields

theorem yields_peek : Yields peek (fun next => ∀ word ∈ next, word.IsSound) where
  ok {left rest next} hsound hm := by
    obtain ⟨rfl, rfl⟩ := Prod.mk.inj (Except.ok.inj hm)
    refine ⟨fun word hword => ?_, List.suffix_refl _⟩
    obtain ⟨t, ht, rfl⟩ := Option.map_eq_some_iff.1 hword
    exact hsound t (List.mem_of_mem_head? ht)
  supported _ hm := by cases hm

theorem yields_skip : Yields skip (fun _ => True) where
  ok _ hm := by
    obtain ⟨-, rfl⟩ := Prod.mk.inj (Except.ok.inj hm)
    exact ⟨trivial, List.tail_suffix _⟩
  supported _ hm := by cases hm

theorem yields_next : Yields next (fun word => word.IsSound) where
  ok {left rest word} hsound hm := by
    cases left with
    | nil => cases hm
    | cons t left =>
      obtain ⟨rfl, rfl⟩ := Prod.mk.inj (Except.ok.inj hm)
      exact ⟨hsound t List.mem_cons_self, List.suffix_cons t _⟩
  supported {left _} _ hm := by cases left <;> cases hm

theorem yields_expect (word : Token) : Yields (expect word) (fun _ => True) where
  ok {left rest _} _ hm := by
    rcases expect_cases word left with ⟨t, rest', rfl, -, hok⟩ | ⟨f, hfault⟩
    · rw [hok] at hm
      obtain ⟨-, rfl⟩ := Prod.mk.inj (Except.ok.inj hm)
      exact ⟨trivial, List.suffix_cons t _⟩
    · rw [hfault] at hm
      cases hm
  supported {left _} _ hm := by
    rcases expect_cases word left with ⟨t, rest', rfl, -, hok⟩ | ⟨f, hfault⟩
    · rw [hok] at hm
      cases hm
    · rw [hfault] at hm
      cases hm

theorem yields_skipRest (depth : Nat) (stop : Place) : Yields (skipRest depth stop) (fun _ => True) where
  ok {left rest stop'} hsound hm := by
    refine ⟨trivial, ?_⟩
    fun_induction skipRest depth stop left with
    | case1 stop left =>
      obtain ⟨-, rfl⟩ := Prod.mk.inj (Except.ok.inj hm)
      exact List.suffix_refl _
    | case2 => cases hm
    | case3 depth stop t left _ ih | case4 depth stop t left _ ih | case5 depth stop t left _ _ ih =>
      exact (ih hsound.tail hm).trans (List.suffix_cons t left)
  supported {left construct} hsound hm := by
    fun_induction skipRest depth stop left with
    | case1 | case2 => cases hm
    | case3 depth stop t left _ ih | case4 depth stop t left _ ih | case5 depth stop t left _ _ ih =>
      exact ih hsound.tail hm

theorem yields_skipGroup : Yields skipGroup (fun _ => True) :=
  (yields_expect _).bind fun _ _ => yields_skipRest 1 .start

theorem yields_skipAnnotations (steps : Nat) : Yields (skipAnnotations steps) (fun _ => True) := by
  induction steps with
  | zero => exact .pure trivial
  | succ steps ih =>
    rw [skipAnnotations]
    refine yields_peek.bind fun next _ => ?_
    split
    · exact yields_skip.bind fun _ _ => yields_skipGroup.bind fun _ _ => ih
    · exact .pure trivial

section Names

variable {ns : Namespaces} (hns : ns.IsSound)

include hns

theorem yields_iri? : Yields (iri? ns) (fun found => ∀ iri ∈ found, IsBracketable iri.text) where
  ok {left rest found} hsound hm := by
    rcases iri?_cases hns hsound with ⟨t, rest', iri, rfl, hiri, -, hread⟩ | hnone | ⟨f, hfault⟩
    · rw [hread ns t rest' (fun _ => rfl) rfl] at hm
      obtain ⟨rfl, rfl⟩ := Prod.mk.inj (Except.ok.inj hm)
      exact ⟨fun iri' h => Option.some.inj h ▸ hiri, List.suffix_cons t _⟩
    · rw [hnone ns left rfl] at hm
      obtain ⟨rfl, rfl⟩ := Prod.mk.inj (Except.ok.inj hm)
      exact ⟨by simp, List.suffix_refl _⟩
    · rw [hfault] at hm
      cases hm
  supported {left construct} hsound hm := by
    rcases iri?_cases hns hsound with ⟨t, rest', iri, rfl, -, -, hread⟩ | hnone | ⟨f, hfault⟩
    · rw [hread ns t rest' (fun _ => rfl) rfl] at hm
      cases hm
    · rw [hnone ns left rfl] at hm
      cases hm
    · rw [hfault] at hm
      cases hm

theorem yields_iri : Yields (iri ns) (fun iri => IsBracketable iri.text) := by
  refine (yields_iri? hns).bind fun found hfound => ?_
  cases found with
  | none => exact .fault _
  | some iri => exact .pure (hfound iri rfl)

/-- What is declared has a name that can be written. -/
theorem yields_declaration : Yields (declaration ns)
    (fun found => ∀ a ∈ found, a.IsSupported ∧ IsFit a.IsShaped a.vocabulary) := by
  have hnames : ∀ e : Entity, IsBracketable e.iri.text →
      ∀ e' ∈ Axiom.declaredVocabulary e, IsBracketable e'.iri.text := by
    intro e he e' he'
    cases e with
    | atomicClass iri =>
      simp only [Axiom.declaredVocabulary] at he'
      split at he'
      · cases he'
      · exact List.mem_singleton.1 he' ▸ he
    | _ => exact List.mem_singleton.1 he' ▸ he
  have hentity : ∀ e : Entity, IsBracketable e.iri.text →
      ∀ a ∈ some (Axiom.declaration e), a.IsSupported ∧ IsFit a.IsShaped a.vocabulary :=
    fun e he a ha => Option.some.inj ha ▸ ⟨trivial, trivial, hnames e he⟩
  unfold declaration
  refine yields_next.bind fun word _ => ?_
  split
  · refine (yields_expect _).bind fun _ _ => (yields_iri hns).bind fun iri hiri => ?_
    refine (yields_expect _).bind fun _ _ => (yields_expect _).bind fun _ _ => ?_
    split
    · exact .pure (hentity (.atomicClass iri) hiri)
    · exact .pure (hentity (.objectProperty iri) hiri)
    · exact .pure (hentity (.individual iri) hiri)
    · exact .pure (by simp)
    · exact .pure (by simp)
    · exact .pure (by simp)
    · exact .fault _
  · exact .fault _

end Names

/-! ## Headers -/

/-- The entries of a header can be written. -/
def AreWritable (entries : List (String × String)) : Prop :=
  ∀ e ∈ entries, IsPrefixName e.1 ∧ IsBracketable e.2

theorem yields_namespaceDeclaration :
    Yields namespaceDeclaration (fun e => IsPrefixName e.1 ∧ IsBracketable e.2) := by
  unfold namespaceDeclaration
  refine (yields_expect _).bind fun _ _ => yields_next.bind fun word hword => ?_
  split
  · next name =>
    obtain ⟨first, second, hfirst, -, rfl⟩ := hword
    rw [splitName_of_isPrefixName hfirst second]
    dsimp only
    split
    · refine (yields_expect _).bind fun _ _ => yields_next.bind fun space hspace => ?_
      split
      · exact (yields_expect _).bind fun _ _ => .pure ⟨hfirst, hspace⟩
      · exact .fault _
    · exact .fault _
  · exact .fault _

theorem yields_header (steps : Nat) {declared : SortedMap String String}
    (h : AreWritable declared.entries) :
    Yields (header steps declared) (fun declared => AreWritable declared.entries) := by
  induction steps generalizing declared with
  | zero => exact .fault _
  | succ steps ih =>
    rw [header]
    refine yields_peek.bind fun next _ => ?_
    split
    · refine yields_skip.bind fun _ _ => yields_namespaceDeclaration.bind fun e he => ih fun e' he' => ?_
      rcases SortedMap.fst_mem_of_mem_insertEntry he' with rfl | hold
      · exact he
      · exact h e' hold
    · exact yields_skip.bind fun _ _ => .pure h
    · exact .fault _
    · exact .fault _

/-- Short names stand for texts that can be part of a name, if what is declared does. -/
theorem AreWritable.isSound {declared : SortedMap String String} (h : AreWritable declared.entries) :
    (⟨declared⟩ : Namespaces).IsSound := by
  intro name space hfind
  have hpredefined : ∀ e ∈ Namespaces.predefined, IsBracketable e.2 := by decide
  rcases Option.or_eq_some_iff.1 hfind with hdeclared | ⟨-, hlookup⟩
  · exact (h (name, space) (SortedMap.mem_entries_iff.2 hdeclared)).2
  · obtain ⟨before, after, heq, -⟩ := List.lookup_eq_some_iff.1 hlookup
    exact hpredefined (name, space) (heq ▸ List.mem_append_right before List.mem_cons_self)

end FixedDomain.FunctionalSyntax
