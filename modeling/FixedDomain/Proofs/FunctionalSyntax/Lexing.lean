import Mathlib.Data.List.TakeWhile
import FixedDomain.FunctionalSyntax.Token

/-! # Tokens of texts that are put together

A text that ends with a token keeps its tokens wherever it stands, if what follows cannot prolong the
last one (`Covers.append`); and a text that is cut off after a token has the tokens up to there
(`Covers.cut`), so that tokens which follow each other are those of a part of the text
(`exists_source`).

* `Delimited` — a text that begins with a character that ends every token.
* `Leads` — the first token of a text, with what follows it.
* `Covers` — the tokens of a text that ends with one.
* `Lexes` — the same without the places of the tokens.
-/

namespace FixedDomain.FunctionalSyntax

/-! ## Runs of characters -/

/-- A run of characters ends where the next one does not belong to it. -/
theorem takeWhile_append_of_stops {p : Char → Bool} {run : List Char} (rest : List Char)
    (hrun : ∀ c ∈ run, p c) (hrest : ∀ c ∈ rest.head?, p c = false) :
    (run ++ rest).takeWhile p = run ∧ (run ++ rest).dropWhile p = rest := by
  have htake : rest.takeWhile p = [] ∧ rest.dropWhile p = rest := by
    cases rest with
    | nil => simp
    | cons c cs => simp [hrest c rfl]
  rw [List.takeWhile_append_of_pos hrun, List.dropWhile_append_of_pos hrun, htake.1, htake.2]
  simp

/-- The first character behind a run does not belong to it. -/
theorem stops_dropWhile (p : Char → Bool) (cs : List Char) :
    ∀ c ∈ (cs.dropWhile p).head?, p c = false := by
  intro c hc
  have := List.head?_dropWhile_not p cs
  rw [Option.mem_def.1 hc] at this
  simpa using this

/-- A run can be followed by anything that does not begin with what belongs to it. -/
theorem takeWhile_takeWhile_append {p : Char → Bool} (cs rest : List Char)
    (hrest : ∀ c ∈ rest.head?, p c = false) :
    (cs.takeWhile p ++ rest).takeWhile p = cs.takeWhile p ∧
      (cs.takeWhile p ++ rest).dropWhile p = rest :=
  takeWhile_append_of_stops rest (fun _ => List.mem_takeWhile_imp) hrest

/-! ## Delimiters -/

/-- A character that ends every token before it: a blank, a parenthesis or an equals sign. -/
def isDelimiter (c : Char) : Bool := isBlank c || c == '(' || c == ')' || c == '='

/-- A text that does not prolong a token before it. -/
def Delimited (cs : List Char) : Prop := ∀ c ∈ cs.head?, isDelimiter c = true

@[simp] theorem delimited_nil : Delimited [] := by simp [Delimited]

@[simp] theorem delimited_cons {c : Char} {cs : List Char} :
    Delimited (c :: cs) ↔ isDelimiter c = true := by simp [Delimited]

/-! ## One token -/

namespace Lexeme

theorem punctuation_cases {c : Char} {t : Token} (h : punctuation c = some t) :
    c = '(' ∧ t = .leftParen ∨ c = ')' ∧ t = .rightParen ∨ c = '=' ∧ t = .equals := by
  unfold punctuation at h
  split at h
  · next hc => exact .inl ⟨hc, (Option.some.inj h).symm⟩
  split at h
  · next hc => exact .inr (.inl ⟨hc, (Option.some.inj h).symm⟩)
  split at h
  · next hc => exact .inr (.inr ⟨hc, (Option.some.inj h).symm⟩)
  · cases h

/-- What may stand behind a token without prolonging it, given what does so somewhere. -/
def Follows (token : Token) (rest rest' : List Char) : Prop :=
  rest'.head? = rest.head? ∨ Delimited rest' ∨ ∃ c, punctuation c = some token

/-- Behind a token of several characters only what does not belong to it is possible. -/
theorem Follows.stops {token : Token} {rest rest' : List Char} (h : Follows token rest rest')
    (htoken : ∀ t ∈ [Token.leftParen, .rightParen, .equals], token ≠ t) {p : Char → Bool}
    (hp : [' ', '\t', '\r', '\n', '\x0c', '(', ')', '='].all (! p ·) = true)
    (hrest : ∀ c ∈ rest.head?, p c = false) : ∀ c ∈ rest'.head?, p c = false := by
  rcases h with hhead | hdelimited | ⟨c, hc⟩
  · rwa [hhead]
  · intro c hc
    have hmem := hdelimited c hc
    simp only [isDelimiter, isBlank, Bool.or_eq_true, beq_iff_eq] at hmem
    simpa using List.all_eq_true.1 hp c (by simpa [or_assoc] using hmem)
  · rcases punctuation_cases hc with ⟨-, ht⟩ | ⟨-, ht⟩ | ⟨-, ht⟩ <;>
      exact absurd ht (htoken _ (by simp))

variable {token : Token} {read rest rest' : List Char}

theorem shortName_congr {first cs : List Char} (h : shortName first cs = ⟨token, read, rest⟩)
    (hfollows : Follows token rest rest') :
    shortName first (cs.takeWhile isNameChar ++ rest') = ⟨token, read, rest'⟩ := by
  simp only [shortName, ofSource, mk.injEq] at h ⊢
  obtain ⟨rfl, rfl, rfl⟩ := h
  obtain ⟨htake, hdrop⟩ := takeWhile_takeWhile_append cs rest'
    (hfollows.stops (by simp) (p := isNameChar) (by decide) (stops_dropWhile _ cs))
  simp [htake, hdrop]

/-- A character that begins a short name or a keyword begins nothing else. -/
theorem first_of_isNameStart {c : Char} (hc : isNameStart c = true) (cs : List Char) :
    isBlank c = false ∧ c ≠ '#' ∧
      first c cs = ofRun (c :: cs.takeWhile isNameChar) (cs.dropWhile isNameChar) := by
  have hne : ∀ d, isNameStart d = false → c ≠ d := by
    rintro d hd rfl
    rw [hc] at hd
    cases hd
  have hpunctuation : punctuation c = none := by
    simp [punctuation, hne '(' rfl, hne ')' rfl, hne '=' rfl]
  refine ⟨?_, hne '#' rfl, ?_⟩
  · simp [isBlank, hne ' ' rfl, hne '\t' rfl, hne '\r' rfl, hne '\n' rfl, hne '\x0c' rfl]
  · simp [first, hpunctuation, hne '^' rfl, hne '<' rfl, hne ':' rfl, hc]

theorem ofRun_of_head_ne {run rest : List Char} (h : rest.head? ≠ some ':') :
    ofRun run rest = if isKeyword run then .ok (ofSource .keyword run rest) else .error run := by
  unfold ofRun
  split
  · simp at h
  · rfl

theorem ofRun_congr {c : Char} {cs : List Char}
    (h : ofRun (c :: cs.takeWhile isNameChar) (cs.dropWhile isNameChar) = .ok ⟨token, c :: read, rest⟩)
    (hfollows : Follows token rest rest') :
    ofRun (c :: (read ++ rest').takeWhile isNameChar) ((read ++ rest').dropWhile isNameChar) =
      .ok ⟨token, c :: read, rest'⟩ := by
  have hall : ∀ d ∈ cs.takeWhile isNameChar, isNameChar d = true := fun _ => List.mem_takeWhile_imp
  have hstops := stops_dropWhile isNameChar cs
  generalize cs.takeWhile isNameChar = run at h hall
  generalize cs.dropWhile isNameChar = behind at h hstops
  by_cases hcolon : ∃ ds, behind = ':' :: ds
  · obtain ⟨ds, rfl⟩ := hcolon
    have hshort := Except.ok.inj h
    have hread : read = run ++ ':' :: ds.takeWhile isNameChar := by
      simpa [shortName, ofSource, eq_comm] using congrArg source hshort
    obtain ⟨htake, hdrop⟩ := takeWhile_append_of_stops (p := isNameChar)
      (':' :: (ds.takeWhile isNameChar ++ rest')) hall
      fun d hd => Option.some.inj hd ▸ rfl
    have htext : read ++ rest' = run ++ ':' :: (ds.takeWhile isNameChar ++ rest') := by simp [hread]
    rw [htext, htake, hdrop]
    exact congrArg Except.ok (shortName_congr hshort hfollows)
  · have hhead : behind.head? ≠ some ':' := by
      cases behind with
      | nil => simp
      | cons d ds => exact fun hd => hcolon ⟨ds, by rw [Option.some.inj hd]⟩
    rw [ofRun_of_head_ne hhead] at h
    split at h
    · next hkeyword =>
      simp only [ofSource, Except.ok.injEq, mk.injEq, List.cons.injEq, true_and] at h
      obtain ⟨rfl, rfl, rfl⟩ := h
      -- neither a name character nor a colon follows
      have hname := hfollows.stops (by simp) (p := isNameChar) (by decide) hstops
      have hnext := hfollows.stops (by simp) (p := (· == ':')) (by decide) fun d hd => by
        rw [beq_eq_false_iff_ne]
        rintro rfl
        exact hhead hd
      obtain ⟨htake, hdrop⟩ := takeWhile_append_of_stops rest' hall hname
      rw [htake, hdrop, ofRun_of_head_ne fun hhead' => by simpa using hnext ':' hhead', if_pos hkeyword]
      rfl
    · cases h

theorem iri_congr {cs : List Char} (h : iri cs = .ok ⟨token, '<' :: read, rest⟩) :
    iri (read ++ rest') = .ok ⟨token, '<' :: read, rest'⟩ := by
  unfold iri at h
  split at h
  · next behind heq =>
    simp only [Except.ok.injEq, mk.injEq, List.cons_append, List.cons.injEq, true_and] at h
    obtain ⟨rfl, rfl, rfl⟩ := h
    obtain ⟨htake, hdrop⟩ := takeWhile_takeWhile_append (p := isIriChar) cs ('>' :: rest')
      fun d hd => Option.some.inj hd ▸ rfl
    rw [List.append_assoc, List.singleton_append, iri]
    simp only [htake, hdrop]
    simp
  · cases h

theorem caret_congr {cs : List Char} (h : caret cs = .ok ⟨token, '^' :: read, rest⟩) :
    caret (read ++ rest') = .ok ⟨token, '^' :: read, rest'⟩ := by
  unfold caret at h
  split at h
  · simp only [Except.ok.injEq, mk.injEq, List.cons.injEq, true_and] at h
    obtain ⟨rfl, rfl, rfl⟩ := h
    rfl
  · cases h

/-- A string literal ends with its closing quote, whatever follows. -/
theorem literalTail_congr {cs : List Char} (h : literalTail cs = .ok (read, rest)) :
    literalTail (read ++ rest') = .ok (read, rest') := by
  fun_induction literalTail cs generalizing read rest with
  | case2 cs =>
    obtain ⟨rfl, rfl⟩ := Prod.mk.inj (Except.ok.inj h)
    simp [literalTail]
  | case5 c cs hc read₁ rest₁ heq ih =>
    obtain ⟨rfl, rfl⟩ := Prod.mk.inj (Except.ok.inj h)
    simp [literalTail, hc, ih heq]
  | case7 c cs hquote hlast hescape read₁ rest₁ heq ih =>
    obtain ⟨rfl, rfl⟩ := Prod.mk.inj (Except.ok.inj h)
    have hbackslash : c ≠ '\\' := by
      rintro rfl
      cases cs with
      | nil => exact hlast rfl rfl
      | cons d ds => exact hescape d ds rfl rfl
    rw [List.cons_append, literalTail]
    · rw [ih heq]
    · exact hquote
    · exact fun h => absurd h hbackslash
    · exact fun _ _ h => absurd h hbackslash
  | _ => cases h

theorem literal_congr {cs : List Char} (h : literal cs = .ok ⟨token, '"' :: read, rest⟩) :
    literal (read ++ rest') = .ok ⟨token, '"' :: read, rest'⟩ := by
  unfold literal at h
  split at h
  · next heq =>
    simp only [ofSource, Except.ok.injEq, mk.injEq, List.cons.injEq, true_and] at h
    obtain ⟨rfl, rfl, rfl⟩ := h
    simp [literal, literalTail_congr heq, ofSource]
  · cases h

theorem languageTag_congr {cs : List Char} (h : languageTag cs = .ok ⟨token, '@' :: read, rest⟩)
    (hfollows : Follows token rest rest') :
    languageTag (read ++ rest') = .ok ⟨token, '@' :: read, rest'⟩ := by
  unfold languageTag at h
  split at h
  · cases h
  · next d ds =>
    split at h
    · next hd =>
      simp only [ofSource, Except.ok.injEq, mk.injEq, List.cons.injEq, true_and] at h
      obtain ⟨rfl, rfl, rfl⟩ := h
      obtain ⟨htake, hdrop⟩ := takeWhile_takeWhile_append ds rest'
        (hfollows.stops (by simp) (p := isTagChar) (by decide) (stops_dropWhile _ ds))
      simp [languageTag, hd, ofSource, htake, hdrop]
    · cases h

theorem integer_congr {c : Char} {cs : List Char}
    (h : ofSource .integer (c :: cs.takeWhile Char.isDigit) (cs.dropWhile Char.isDigit) =
      ⟨token, c :: read, rest⟩) (hfollows : Follows token rest rest') :
    ofSource .integer (c :: (read ++ rest').takeWhile Char.isDigit)
      ((read ++ rest').dropWhile Char.isDigit) = ⟨token, c :: read, rest'⟩ := by
  simp only [ofSource, mk.injEq, List.cons.injEq, true_and] at h ⊢
  obtain ⟨rfl, rfl, rfl⟩ := h
  obtain ⟨htake, hdrop⟩ := takeWhile_takeWhile_append cs rest'
    (hfollows.stops (by simp) (p := Char.isDigit) (by decide) (stops_dropWhile _ cs))
  simp [htake, hdrop]

/-- A token is found wherever its source stands, if what follows does not prolong it. -/
theorem first_congr {c : Char} {cs : List Char} (h : first c cs = .ok ⟨token, c :: read, rest⟩)
    (hfollows : Follows token rest rest') :
    first c (read ++ rest') = .ok ⟨token, c :: read, rest'⟩ := by
  unfold first at h ⊢
  split at h
  · next t ht =>
    simp only [Except.ok.injEq, mk.injEq, List.cons.injEq, true_and] at h
    obtain ⟨rfl, rfl, rfl⟩ := h
    simp
  · next hpunctuation =>
    split_ifs at h ⊢ with h₁ h₂ h₃ h₄ h₅ h₆ h₇
    · exact h₁ ▸ caret_congr (h₁ ▸ h)
    · exact h₂ ▸ iri_congr (h₂ ▸ h)
    · have hshort := Except.ok.inj h
      have hread : read = cs.takeWhile isNameChar := by
        simpa [shortName, ofSource, eq_comm] using congrArg (List.tail ∘ source) hshort
      subst hread
      exact congrArg Except.ok (shortName_congr hshort hfollows)
    · exact ofRun_congr h hfollows
    · exact congrArg Except.ok (integer_congr (Except.ok.inj h) hfollows)
    · exact h₆ ▸ literal_congr (h₆ ▸ h)
    · exact h₇ ▸ languageTag_congr (h₇ ▸ h) hfollows

end Lexeme

/-! ## Blanks and comments -/

/-- Blanks and comments before a token are passed over whatever follows its first character. -/
theorem splitIgnored_congr {cs ignored ds : List Char} {d : Char}
    (h : splitIgnored cs = (ignored, d :: ds)) (ds' : List Char) :
    splitIgnored (ignored ++ d :: ds') = (ignored, d :: ds') := by
  fun_induction splitIgnored cs generalizing ignored with
  | case1 => cases h
  | case2 c cs hc ignored₁ rest heq ih =>
    simp only [Prod.mk.injEq] at h
    obtain ⟨rfl, rfl⟩ := h
    simp [splitIgnored, hc, ih heq]
  | case3 cs ignored₁ rest heq hblank ih =>
    simp only [Prod.mk.injEq] at h
    obtain ⟨rfl, rfl⟩ := h
    -- the comment ends at the same line break
    have hcs := splitIgnored_append (cs.dropWhile (· != '\n'))
    rw [heq] at hcs
    have hhead : (ignored₁ ++ d :: ds').head? = (cs.dropWhile (· != '\n')).head? := by
      rw [← hcs]
      cases ignored₁ <;> rfl
    obtain ⟨htake, hdrop⟩ := takeWhile_takeWhile_append (p := (· != '\n')) cs
      (ignored₁ ++ d :: ds') (by rw [hhead]; exact stops_dropWhile _ cs)
    simp [splitIgnored, hblank, htake, hdrop, ih heq]
  | case4 c cs hblank hcomment =>
    simp only [Prod.mk.injEq, List.cons.injEq] at h
    obtain ⟨rfl, rfl, rfl⟩ := h
    simp [splitIgnored, hblank, hcomment]

/-! ## The first token of a text -/

@[simp] theorem Place.after_nil (p : Place) : p.after [] = p := rfl

theorem Place.after_append (p : Place) (xs ys : List Char) :
    p.after (xs ++ ys) = (p.after xs).after ys := by
  simp [Place.after, Nat.add_assoc]

theorem Place.offset_after (p : Place) (xs : List Char) :
    (p.after xs).offset = p.offset + xs.length := rfl

/-- The first token of a text that begins at a place, and what follows it. -/
inductive Leads (p : Place) : List Char → Located → List Char → Prop
  | intro {ignored read rest : List Char} {c : Char} {token : Token}
      (hsplit : splitIgnored (ignored ++ c :: (read ++ rest)) = (ignored, c :: (read ++ rest)))
      (hfirst : Lexeme.first c (read ++ rest) = .ok ⟨token, c :: read, rest⟩) :
      Leads p (ignored ++ c :: (read ++ rest))
        ⟨token, p.after ignored, p.after (ignored ++ c :: read)⟩ rest

/-- A text of blanks and comments has no tokens. -/
theorem tokenizeFrom_of_splitIgnored_nil {cs : List Char} (h : (splitIgnored cs).2 = []) (p : Place) :
    tokenizeFrom p cs = .ok [] := by
  rw [tokenizeFrom]
  split
  · rfl
  · next h' => simp [h] at h'

/-- Behind blanks and comments stands a token, or characters that begin none. -/
theorem tokenizeFrom_of_splitIgnored_cons {cs ignored ds : List Char} {d : Char}
    (h : splitIgnored cs = (ignored, d :: ds)) (p : Place) :
    tokenizeFrom p cs = match Lexeme.first d ds with
      | .error stuck => .error (p.after ignored, stuck)
      | .ok l => (tokenizeFrom (p.after (ignored ++ l.source)) l.rest).map
          (⟨l.token, p.after ignored, p.after (ignored ++ l.source)⟩ :: ·) := by
  rw [tokenizeFrom]
  split
  · next hnil => simp [h] at hnil
  · next d' ds' hcons =>
    rw [h] at hcons
    obtain ⟨rfl, rfl⟩ := List.cons.inj hcons
    dsimp only
    split
    · next hfirst => simp [hfirst, h]
    · next l hfirst =>
      simp only [hfirst, h, Place.after_append]
      cases tokenizeFrom ((p.after ignored).after l.source) l.rest <;> rfl

theorem tokenizeFrom_nil (p : Place) : tokenizeFrom p [] = .ok [] :=
  tokenizeFrom_of_splitIgnored_nil (by simp [splitIgnored]) p

/-- A blank at the front of a text is passed over. -/
theorem tokenizeFrom_blank {c : Char} (hc : isBlank c = true) (p : Place) (cs : List Char) :
    tokenizeFrom p (c :: cs) = tokenizeFrom (p.after [c]) cs := by
  have hsplit : splitIgnored (c :: cs) = (c :: (splitIgnored cs).1, (splitIgnored cs).2) := by
    simp [splitIgnored, hc]
  cases hcs : splitIgnored cs with
  | mk ignored rest =>
    rw [hcs] at hsplit
    cases rest with
    | nil =>
      rw [tokenizeFrom_of_splitIgnored_nil (by rw [hsplit]),
        tokenizeFrom_of_splitIgnored_nil (by rw [hcs])]
    | cons d ds =>
      rw [tokenizeFrom_of_splitIgnored_cons hsplit, tokenizeFrom_of_splitIgnored_cons hcs]
      simp only [← Place.after_append, List.cons_append, List.nil_append]

theorem tokenizeFrom_blanks {blanks : List Char} (h : blanks.all isBlank = true) (p : Place)
    (cs : List Char) : tokenizeFrom p (blanks ++ cs) = tokenizeFrom (p.after blanks) cs := by
  induction blanks generalizing p with
  | nil => rfl
  | cons c blanks ih =>
    rw [List.all_cons, Bool.and_eq_true] at h
    obtain ⟨hc, hblanks⟩ := h
    rw [List.cons_append, tokenizeFrom_blank hc, ih hblanks, ← Place.after_append]
    rfl

/-- The tokens of a text are the first and those of what follows it. -/
theorem tokenizeFrom_eq_of_leads {p : Place} {cs rest : List Char} {t : Located}
    (h : Leads p cs t rest) : tokenizeFrom p cs = (tokenizeFrom t.stop rest).map (t :: ·) := by
  obtain ⟨hsplit, hfirst⟩ := h
  rw [tokenizeFrom_of_splitIgnored_cons hsplit, hfirst]

theorem exists_leads_of_tokenizeFrom {p : Place} {cs : List Char} {t : Located} {ts : List Located}
    (h : tokenizeFrom p cs = .ok (t :: ts)) :
    ∃ rest, Leads p cs t rest ∧ tokenizeFrom t.stop rest = .ok ts := by
  have htext := splitIgnored_append cs
  cases hcs : splitIgnored cs with
  | mk ignored behind =>
    cases behind with
    | nil => rw [tokenizeFrom_of_splitIgnored_nil (by rw [hcs])] at h; cases h
    | cons d ds =>
      rw [tokenizeFrom_of_splitIgnored_cons hcs] at h
      rw [hcs] at htext
      split at h
      · cases h
      · next l hl =>
        obtain ⟨token, source, rest⟩ := l
        obtain ⟨hbegins, hne⟩ := Lexeme.first_begins hl
        obtain ⟨c, read, rfl⟩ := List.exists_cons_of_ne_nil hne
        obtain ⟨rfl, rfl⟩ := List.cons.inj hbegins
        cases htail : tokenizeFrom (p.after (ignored ++ c :: read)) rest with
        | error e => rw [htail] at h; cases h
        | ok located =>
          rw [htail] at h
          obtain ⟨rfl, rfl⟩ := List.cons.inj (Except.ok.inj h)
          subst htext
          exact ⟨rest, .intro hcs hl, htail⟩

namespace Leads

variable {p : Place} {cs rest : List Char} {t : Located}

/-- What a first token covers, with the blanks and comments before it. -/
theorem exists_covered (h : Leads p cs t rest) :
    ∃ covered, covered ≠ [] ∧ cs = covered ++ rest ∧ t.stop = p.after covered ∧
      ∀ rest', Lexeme.Follows t.token rest rest' → Leads p (covered ++ rest') t rest' := by
  obtain ⟨hsplit, hfirst⟩ := h
  rename_i ignored read c token
  refine ⟨ignored ++ c :: read, by simp, by simp, rfl, fun rest' hfollows => ?_⟩
  have hleads : Leads p (ignored ++ c :: (read ++ rest')) _ rest' :=
    .intro (splitIgnored_congr hsplit _) (Lexeme.first_congr hfirst hfollows)
  simpa using hleads

/-- The same token is first elsewhere, at another place. -/
theorem exists_move (h : Leads p cs t rest) (q : Place) :
    ∃ t', Leads q cs t' rest ∧ t'.token = t.token := by
  obtain ⟨hsplit, hfirst⟩ := h
  exact ⟨_, .intro hsplit hfirst, rfl⟩

end Leads

theorem Leads.offset_lt {p : Place} {cs rest : List Char} {t : Located} (h : Leads p cs t rest) :
    p.offset < t.stop.offset := by
  obtain ⟨covered, hne, -, hstop, -⟩ := h.exists_covered
  have := List.length_pos_iff.2 hne
  rw [hstop, Place.offset_after]
  omega

theorem offset_lt_of_mem_tokenizeFrom {p : Place} {cs : List Char} {ts : List Located}
    (h : tokenizeFrom p cs = .ok ts) : ∀ t ∈ ts, p.offset < t.stop.offset := by
  induction ts generalizing p cs with
  | nil => simp
  | cons t ts ih =>
    obtain ⟨rest, hleads, htail⟩ := exists_leads_of_tokenizeFrom h
    rw [List.forall_mem_cons]
    exact ⟨hleads.offset_lt, fun t' ht' => hleads.offset_lt.trans (ih htail t' ht')⟩

/-! ## Texts that end with a token -/

/-- The tokens of a text that ends with one. -/
structure Covers (p : Place) (text : List Char) (ts : List Located) : Prop where
  tokens : tokenizeFrom p text = .ok ts
  stop : ts.getLast?.map Located.stop = some (p.after text)

/-- What can stand behind some tokens without prolonging the last one. -/
def EndsBefore (ts : List Token) (tail : List Char) : Prop :=
  Delimited tail ∨ ∃ t ∈ ts.getLast?, ∃ c, Lexeme.punctuation c = some t

theorem endsBefore_cons {ts : List Token} {c : Char} {cs : List Char} (h : isDelimiter c = true) :
    EndsBefore ts (c :: cs) := .inl (delimited_cons.2 h)

namespace Covers

variable {p : Place} {text tail : List Char} {t : Located} {ts more : List Located}

theorem cons_iff : Covers p text (t :: ts) ↔ ∃ rest, Leads p text t rest ∧
    ((ts = [] ∧ rest = []) ∨ Covers t.stop rest ts) := by
  constructor
  · rintro ⟨htokens, hstop⟩
    obtain ⟨rest, hleads, htail⟩ := exists_leads_of_tokenizeFrom htokens
    obtain ⟨covered, -, rfl, hcovered, -⟩ := hleads.exists_covered
    refine ⟨rest, hleads, ?_⟩
    cases ts with
    | nil =>
      have hoffset : t.stop = p.after (covered ++ rest) := by simpa using hstop
      rw [hcovered] at hoffset
      have hlength := congrArg Place.offset hoffset
      simp only [Place.offset_after, List.length_append] at hlength
      exact .inl ⟨rfl, List.length_eq_zero_iff.1 (by omega)⟩
    | cons t' ts =>
      refine .inr ⟨htail, ?_⟩
      rw [List.getLast?_cons_cons] at hstop
      rw [hstop, Place.after_append, hcovered]
  · rintro ⟨rest, hleads, hrest⟩
    obtain ⟨covered, -, rfl, hcovered, -⟩ := hleads.exists_covered
    rcases hrest with ⟨rfl, rfl⟩ | ⟨htokens, hstop⟩
    · refine ⟨by rw [tokenizeFrom_eq_of_leads hleads, tokenizeFrom_nil]; rfl, ?_⟩
      simpa using hcovered
    · refine ⟨by rw [tokenizeFrom_eq_of_leads hleads, htokens]; rfl, ?_⟩
      cases ts with
      | nil => cases hstop
      | cons t' ts => rw [List.getLast?_cons_cons, hstop, Place.after_append, hcovered]

theorem ne_nil (h : Covers p text ts) : ts ≠ [] := by
  rintro rfl
  cases h.stop

/-- The tokens of a text stay the same before what does not prolong the last one. -/
theorem append (h : Covers p text ts) (hends : EndsBefore (ts.map (·.token)) tail) :
    tokenizeFrom p (text ++ tail) = (tokenizeFrom (p.after text) tail).map (ts ++ ·) := by
  induction ts generalizing p text with
  | nil => exact absurd rfl h.ne_nil
  | cons t ts ih =>
    obtain ⟨rest, hleads, hrest⟩ := cons_iff.1 h
    obtain ⟨covered, -, rfl, hcovered, hcongr⟩ := hleads.exists_covered
    rw [List.append_assoc]
    rcases hrest with ⟨rfl, rfl⟩ | hcovers
    · have hfollows : Lexeme.Follows t.token [] tail := by
        rcases hends with hdelimited | ⟨t', ht', hc⟩
        · exact .inr (.inl hdelimited)
        · obtain rfl : t.token = t' := by simpa using ht'
          exact .inr (.inr hc)
      rw [List.nil_append, tokenizeFrom_eq_of_leads (hcongr tail hfollows), hcovered, List.append_nil]
      rfl
    · have hends' : EndsBefore (ts.map (·.token)) tail := by
        refine hends.imp_right ?_
        cases ts with
        | nil => exact absurd rfl hcovers.ne_nil
        | cons t' ts => simp only [List.map_cons, List.getLast?_cons_cons, imp_self]
      have hne : rest ≠ [] := by
        rintro rfl
        have := hcovers.tokens
        rw [tokenizeFrom_nil] at this
        exact hcovers.ne_nil (Except.ok.inj this).symm
      have hhead : (rest ++ tail).head? = rest.head? := by
        obtain ⟨c, cs, rfl⟩ := List.exists_cons_of_ne_nil hne
        rfl
      rw [tokenizeFrom_eq_of_leads (hcongr _ (.inl hhead)),
        ih hcovers hends', Place.after_append, ← hcovered]
      cases tokenizeFrom _ tail <;> rfl

/-- A text is cut off after one of its tokens. -/
theorem cut (h : tokenizeFrom p (text ++ tail) = .ok (ts ++ more))
    (hstop : ts.getLast?.map Located.stop = some (p.after text)) :
    Covers p text ts ∧ tokenizeFrom (p.after text) tail = .ok more := by
  induction ts generalizing p text with
  | nil => cases hstop
  | cons t ts ih =>
    obtain ⟨behind, hleads, htail⟩ := exists_leads_of_tokenizeFrom h
    obtain ⟨covered, -, htext, hcovered, hcongr⟩ := hleads.exists_covered
    -- the first token ends before the cut, since the last one does
    have hle : t.stop.offset ≤ (p.after text).offset := by
      cases ts with
      | nil => exact (congrArg Place.offset (by simpa using hstop : t.stop = _)).le
      | cons t' ts =>
        obtain ⟨last, hlast, hstop'⟩ := Option.map_eq_some_iff.1 hstop
        rw [List.getLast?_cons_cons] at hlast
        rw [← hstop']
        exact (offset_lt_of_mem_tokenizeFrom htail last
          (List.mem_append_left _ (List.mem_of_getLast? hlast))).le
    rw [hcovered, Place.offset_after, Place.offset_after] at hle
    have hprefix : covered <+: text ++ tail := htext ▸ List.prefix_append covered behind
    obtain ⟨rest, rfl⟩ :=
      List.prefix_of_prefix_length_le hprefix (List.prefix_append text tail) (by omega)
    rw [List.append_assoc] at htext
    obtain rfl := List.append_cancel_left htext
    have hleads' : Leads p (covered ++ rest) t rest := by
      refine hcongr rest ?_
      cases rest with
      | nil => exact .inr (.inl delimited_nil)
      | cons c cs => exact .inl rfl
    cases ts with
    | nil =>
      have hoffset := congrArg Place.offset (by simpa using hstop : t.stop = _)
      rw [hcovered] at hoffset
      simp only [Place.offset_after, List.length_append] at hoffset
      obtain rfl : rest = [] := List.length_eq_zero_iff.1 (by omega)
      refine ⟨cons_iff.2 ⟨[], hleads', .inl ⟨rfl, rfl⟩⟩, ?_⟩
      rw [List.append_nil, ← hcovered]
      exact htail
    | cons t' ts =>
      rw [List.getLast?_cons_cons, Place.after_append, ← hcovered] at hstop
      obtain ⟨hcovers, hmore⟩ := ih htail hstop
      refine ⟨cons_iff.2 ⟨rest, hleads', .inr hcovers⟩, ?_⟩
      rwa [Place.after_append, ← hcovered]

/-- The tokens of a text do not depend on where it stands. -/
theorem exists_move (h : Covers p text ts) (q : Place) :
    ∃ ts', Covers q text ts' ∧ ts'.map (·.token) = ts.map (·.token) := by
  induction ts generalizing p q text with
  | nil => exact absurd rfl h.ne_nil
  | cons t ts ih =>
    obtain ⟨rest, hleads, hrest⟩ := cons_iff.1 h
    obtain ⟨t', hleads', htoken⟩ := hleads.exists_move q
    rcases hrest with ⟨rfl, rfl⟩ | hcovers
    · exact ⟨[t'], cons_iff.2 ⟨[], hleads', .inl ⟨rfl, rfl⟩⟩, by simp [htoken]⟩
    · obtain ⟨ts', hcovers', htokens⟩ := ih hcovers t'.stop
      exact ⟨t' :: ts', cons_iff.2 ⟨rest, hleads', .inr hcovers'⟩, by simp [htoken, htokens]⟩

end Covers

/-! ## Parts of a text -/

/-- Behind blanks and comments there are no more of them. -/
theorem splitIgnored_rest {cs ignored rest : List Char} (h : splitIgnored cs = (ignored, rest)) :
    splitIgnored rest = ([], rest) := by
  fun_induction splitIgnored cs generalizing ignored with
  | case1 =>
    obtain ⟨rfl, rfl⟩ := Prod.mk.inj h
    simp [splitIgnored]
  | case2 c cs hc ignored₁ rest₁ heq ih | case3 cs ignored₁ rest₁ heq hblank ih =>
    obtain ⟨rfl, rfl⟩ := Prod.mk.inj h
    exact ih heq
  | case4 c cs hblank hcomment =>
    obtain ⟨rfl, rfl⟩ := Prod.mk.inj h
    simp [splitIgnored, hblank, hcomment]

namespace Leads

variable {p : Place} {cs rest : List Char} {t : Located}

theorem start_eq (h : Leads p cs t rest) : t.start = p.after (splitIgnored cs).1 := by
  obtain ⟨hsplit, -⟩ := h
  rw [hsplit]

/-- Without the blanks and comments before it, a first token stays the first. -/
theorem exists_ignored (h : Leads p cs t rest) :
    ∃ ignored behind, cs = ignored ++ behind ∧ t.start = p.after ignored ∧
      Leads t.start behind t rest := by
  obtain ⟨hsplit, hfirst⟩ := h
  rename_i ignored read c token
  refine ⟨ignored, c :: (read ++ rest), rfl, rfl, ?_⟩
  have hleads : Leads (p.after ignored) ([] ++ c :: (read ++ rest)) _ rest :=
    .intro (splitIgnored_rest hsplit) hfirst
  simpa [← Place.after_append] using hleads

end Leads

/-- Where some of its first tokens end, a text can be cut. -/
theorem exists_cut {p : Place} {cs : List Char} {ts more : List Located}
    (h : tokenizeFrom p cs = .ok (ts ++ more)) :
    ∃ text tail, cs = text ++ tail ∧ tokenizeFrom (p.after text) tail = .ok more ∧
      (ts ≠ [] → Covers p text ts) := by
  have hstop : ts ≠ [] → ∃ text tail, cs = text ++ tail ∧
      ts.getLast?.map Located.stop = some (p.after text) := by
    induction ts generalizing p cs with
    | nil => exact fun hne => absurd rfl hne
    | cons t ts ih =>
      intro _
      obtain ⟨rest, hleads, htail⟩ := exists_leads_of_tokenizeFrom h
      obtain ⟨covered, -, rfl, hcovered, -⟩ := hleads.exists_covered
      cases ts with
      | nil => exact ⟨covered, rest, rfl, by simp [hcovered]⟩
      | cons t' ts =>
        obtain ⟨text, tail, rfl, hlast⟩ := ih htail (by simp)
        refine ⟨covered ++ text, tail, by simp, ?_⟩
        rw [List.getLast?_cons_cons, hlast, hcovered, Place.after_append]
  cases ts with
  | nil => exact ⟨[], cs, rfl, h, fun hne => absurd rfl hne⟩
  | cons t ts =>
    obtain ⟨text, tail, rfl, hlast⟩ := hstop (by simp)
    obtain ⟨hcovers, hmore⟩ := Covers.cut h hlast
    exact ⟨text, tail, rfl, hmore, fun _ => hcovers⟩

/-- Some tokens that follow each other in a text are those of a part of it. -/
theorem exists_source {p : Place} {cs : List Char} {before body more : List Located} {t : Located}
    (h : tokenizeFrom p cs = .ok (before ++ t :: (body ++ more))) :
    ∃ pre source post, cs = pre ++ source ++ post ∧ t.start = p.after pre ∧
      Covers t.start source (t :: body) := by
  obtain ⟨text, tail, rfl, htail, -⟩ := exists_cut h
  obtain ⟨rest, hleads, hbody⟩ := exists_leads_of_tokenizeFrom htail
  obtain ⟨ignored, behind, rfl, hstart, hleads⟩ := hleads.exists_ignored
  have htokens : tokenizeFrom t.start behind = .ok (t :: body ++ more) := by
    rw [tokenizeFrom_eq_of_leads hleads, hbody]
    rfl
  obtain ⟨source, post, rfl, -, hcovers⟩ := exists_cut htokens
  exact ⟨text ++ ignored, source, post, by simp, by rw [hstart, Place.after_append], hcovers (by simp)⟩

/-- A text that begins with a token does so wherever it stands. -/
theorem Covers.start_eq {p q : Place} {text : List Char} {t t' : Located} {ts ts' : List Located}
    (h : Covers p text (t :: ts)) (hstart : t.start = p) (h' : Covers q text (t' :: ts')) :
    t'.start = q := by
  obtain ⟨rest, hleads, -⟩ := Covers.cons_iff.1 h
  obtain ⟨rest', hleads', -⟩ := Covers.cons_iff.1 h'
  have hnothing : (splitIgnored text).1 = [] := by
    have hoffset := congrArg Place.offset (hleads.start_eq.symm.trans hstart)
    rw [Place.offset_after] at hoffset
    exact List.length_eq_zero_iff.1 (by omega)
  rw [hleads'.start_eq, hnothing, Place.after_nil]

/-! ## Tokens without their places -/

/-- A text that ends with a token, wherever it stands, has these tokens. -/
def Lexes (text : List Char) (ts : List Token) : Prop :=
  ∀ p, ∃ located, Covers p text located ∧ located.map (·.token) = ts

theorem Covers.lexes {p : Place} {text : List Char} {ts : List Located} (h : Covers p text ts) :
    Lexes text (ts.map (·.token)) :=
  h.exists_move

namespace Lexes

variable {text text' : List Char} {ts ts' : List Token}

theorem append (h : Lexes text ts) (h' : Lexes text' ts') (hends : EndsBefore ts text') :
    Lexes (text ++ text') (ts ++ ts') := by
  intro p
  obtain ⟨located, hcovers, rfl⟩ := h p
  obtain ⟨located', hcovers', rfl⟩ := h' (p.after text)
  refine ⟨located ++ located', ⟨?_, ?_⟩, List.map_append⟩
  · rw [hcovers.append hends, hcovers'.tokens]
    rfl
  · rw [List.getLast?_append, Option.map_or, hcovers'.stop, Place.after_append]
    rfl

/-- Blanks before a text. -/
theorem blanks {blanks : List Char} (hblanks : blanks.all isBlank = true) (h : Lexes text ts) :
    Lexes (blanks ++ text) ts := by
  intro p
  obtain ⟨located, hcovers, rfl⟩ := h (p.after blanks)
  refine ⟨located, ⟨?_, ?_⟩, rfl⟩
  · rw [tokenizeFrom_blanks hblanks, hcovers.tokens]
  · rw [hcovers.stop, ← Place.after_append]

/-- A single token. -/
theorem single {c : Char} {read : List Char} {token : Token} (hblank : isBlank c = false)
    (hcomment : c ≠ '#') (h : Lexeme.first c read = .ok ⟨token, c :: read, []⟩) :
    Lexes (c :: read) [token] := by
  intro p
  have hsplit : splitIgnored ([] ++ c :: (read ++ [])) = ([], c :: (read ++ [])) := by
    simp [splitIgnored, hblank, hcomment]
  have hleads : Leads p ([] ++ c :: (read ++ [])) _ [] :=
    .intro hsplit (by simpa using h)
  exact ⟨[_], Covers.cons_iff.2 ⟨[], by simpa using hleads, .inl ⟨rfl, rfl⟩⟩, rfl⟩

end Lexes

end FixedDomain.FunctionalSyntax
