import FixedDomain.Proofs.FunctionalSyntax.Kept

/-! # Stretches of a document

A text that stands on lines of its own has the same tokens in every document: a line break ends its last
token, or the comment that it ends with (`tokenizeFrom_line`). The tokens are found at the same distances
from where the text begins (`exists_moved`), so the source between two of them is the same (`SameSource`).

* `Moved` — a token at the same distance from another place.
* `SameSource` — a stretch of one document that is found again in another.
* `Nested`, `IsGroup` — words in which every parenthesis has its partner.
-/

namespace FixedDomain.FunctionalSyntax

/-! ## Lines of their own -/

/-- A comment at the front of a text is passed over up to the end of its line. -/
theorem tokenizeFrom_comment (p : Place) (cs : List Char) :
    tokenizeFrom p ('#' :: cs) =
      tokenizeFrom (p.after ('#' :: cs.takeWhile (· != '\n'))) (cs.dropWhile (· != '\n')) := by
  have hblank : isBlank '#' = false := by decide
  cases hcs : splitIgnored (cs.dropWhile (· != '\n')) with
  | mk ignored rest =>
    have hsplit : splitIgnored ('#' :: cs) = ('#' :: cs.takeWhile (· != '\n') ++ ignored, rest) := by
      simp [splitIgnored, hblank, hcs]
    cases rest with
    | nil =>
      rw [tokenizeFrom_of_splitIgnored_nil (by rw [hsplit]), tokenizeFrom_of_splitIgnored_nil (by rw [hcs])]
    | cons d ds =>
      rw [tokenizeFrom_of_splitIgnored_cons hsplit, tokenizeFrom_of_splitIgnored_cons hcs]
      simp only [← Place.after_append, List.append_assoc]

/-- A text of blanks and comments is passed over up to the end of its last line. -/
theorem tokenizeFrom_ignored_line {cs : List Char} (h : (splitIgnored cs).2 = []) (p : Place)
    (more : List Char) :
    tokenizeFrom p (cs ++ '\n' :: more) = tokenizeFrom (p.after (cs ++ ['\n'])) more := by
  fun_induction splitIgnored cs generalizing p with
  | case1 => exact tokenizeFrom_blank rfl p more
  | case2 c cs hc ignored rest heq ih =>
    rw [heq] at ih
    rw [List.cons_append, tokenizeFrom_blank hc, ih h, ← Place.after_append]
    rfl
  | case3 cs ignored rest heq _ ih =>
    rw [heq] at ih
    -- the comment ends at the same line break, or at the one behind the text
    have hstops : ∀ c ∈ (cs.dropWhile (· != '\n') ++ '\n' :: more).head?, (c != '\n') = false := by
      intro c hc
      cases hdrop : cs.dropWhile (· != '\n') with
      | nil =>
        rw [hdrop] at hc
        obtain rfl := Option.some.inj hc
        rfl
      | cons d ds => exact stops_dropWhile (· != '\n') cs c (by rw [hdrop] at hc ⊢; exact hc)
    obtain ⟨htake, hdrop⟩ :=
      takeWhile_takeWhile_append cs (cs.dropWhile (· != '\n') ++ '\n' :: more) hstops
    rw [← List.append_assoc, List.takeWhile_append_dropWhile] at htake hdrop
    rw [List.cons_append, tokenizeFrom_comment, htake, hdrop, ih h, ← Place.after_append,
      ← List.append_assoc, List.cons_append, List.takeWhile_append_dropWhile, List.cons_append]
  | case4 => cases h

/-- A text without tokens consists of blanks and comments. -/
theorem splitIgnored_of_tokenizeFrom_nil {p : Place} {cs : List Char} (h : tokenizeFrom p cs = .ok []) :
    (splitIgnored cs).2 = [] := by
  cases hcs : splitIgnored cs with
  | mk ignored behind =>
    cases behind with
    | nil => rfl
    | cons d ds =>
      rw [tokenizeFrom_of_splitIgnored_cons hcs] at h
      split at h
      · cases h
      · next l _ =>
        cases htail : tokenizeFrom (p.after (ignored ++ l.source)) l.rest <;>
          simp [htail, Except.map] at h

theorem Except.map_cons_append {ε α : Type} (x : Except ε (List α)) (a : α) (as : List α) :
    (x.map (as ++ ·)).map (a :: ·) = x.map (a :: as ++ ·) := by
  cases x <;> rfl

/-- The first token of a text does not depend on what follows the text on the next line. -/
theorem Leads.line {p : Place} {cs rest : List Char} {t : Located} (h : Leads p cs t rest)
    (more : List Char) : Leads p (cs ++ '\n' :: more) t (rest ++ '\n' :: more) := by
  obtain ⟨covered, -, rfl, -, hcongr⟩ := h.exists_covered
  rw [List.append_assoc]
  refine hcongr _ ?_
  cases rest with
  | nil => exact .inr (.inl (delimited_cons.2 rfl))
  | cons c cs => exact .inl rfl

/-- The tokens of a text that ends with a line break do not depend on what follows. -/
theorem tokenizeFrom_line {p : Place} {cs : List Char} {ts : List Located}
    (h : tokenizeFrom p cs = .ok ts) (more : List Char) :
    tokenizeFrom p (cs ++ '\n' :: more) =
      (tokenizeFrom (p.after (cs ++ ['\n'])) more).map (ts ++ ·) := by
  induction ts generalizing p cs with
  | nil =>
    rw [tokenizeFrom_ignored_line (splitIgnored_of_tokenizeFrom_nil h)]
    cases tokenizeFrom (p.after (cs ++ ['\n'])) more <;> rfl
  | cons t ts ih =>
    obtain ⟨rest, hleads, htail⟩ := exists_leads_of_tokenizeFrom h
    obtain ⟨covered, -, rfl, hcovered, -⟩ := hleads.exists_covered
    rw [tokenizeFrom_eq_of_leads (hleads.line more), ih htail, List.append_assoc, hcovered,
      ← Place.after_append, Except.map_cons_append]

/-! ## The closing line -/

/-- A string literal ends with its closing quote. -/
theorem Lexeme.literalTail_getLast {cs read rest : List Char} (h : literalTail cs = .ok (read, rest)) :
    read.getLast? = some '"' := by
  fun_induction literalTail cs generalizing read rest with
  | case2 cs =>
    obtain ⟨rfl, -⟩ := Prod.mk.inj (Except.ok.inj h)
    rfl
  | case5 c cs hc read' rest' heq ih | case7 c cs hquote hlast hescape read' rest' heq ih =>
    obtain ⟨rfl, -⟩ := Prod.mk.inj (Except.ok.inj h)
    have hread := ih heq
    cases read' with
    | nil => cases hread
    | cons d ds => simpa [List.getLast?_cons_cons] using hread
  | _ => cases h

theorem notMem_takeWhile {α : Type} {p : α → Bool} {a : α} (ha : p a = false) (as : List α) :
    a ∉ as.takeWhile p :=
  fun h => by simpa [ha] using List.mem_takeWhile_imp h

theorem Lexeme.shortName_on_line {run : List Char} (hrun : '\n' ∉ run) (cs : List Char) :
    '\n' ∉ (shortName run cs).source := by
  simp [shortName, ofSource, hrun, notMem_takeWhile (p := isNameChar) (a := '\n') (by decide)]

theorem Lexeme.ofRun_on_line {run rest : List Char} {l : Lexeme} (hrun : '\n' ∉ run)
    (h : ofRun run rest = .ok l) : '\n' ∉ l.source := by
  unfold ofRun at h
  split at h
  · obtain rfl := Except.ok.inj h
    exact shortName_on_line hrun _
  · split at h
    · obtain rfl := Except.ok.inj h
      exact hrun
    · cases h

theorem Lexeme.iri_on_line {cs : List Char} {l : Lexeme} (h : iri cs = .ok l) :
    '\n' ∉ l.source := by
  unfold iri at h
  split at h
  · obtain rfl := Except.ok.inj h
    simp [notMem_takeWhile (p := isIriChar) (a := '\n') (by decide)]
  · cases h

theorem Lexeme.caret_on_line {cs : List Char} {l : Lexeme} (h : caret cs = .ok l) :
    '\n' ∉ l.source := by
  unfold caret at h
  split at h
  · obtain rfl := Except.ok.inj h
    simp
  · cases h

theorem Lexeme.languageTag_on_line {cs : List Char} {l : Lexeme} (h : languageTag cs = .ok l) :
    '\n' ∉ l.source := by
  unfold languageTag at h
  split at h
  · cases h
  · next d ds =>
    split at h
    · next hd =>
      obtain rfl := Except.ok.inj h
      have hne : '\n' ≠ d := by
        rintro rfl
        cases hd
      simp [ofSource, hne, notMem_takeWhile (p := isTagChar) (a := '\n') (by decide)]
    · cases h

theorem Lexeme.literal_getLast {cs : List Char} {l : Lexeme} (h : literal cs = .ok l) :
    l.source.getLast? = some '"' := by
  unfold literal at h
  split at h
  · next read rest hread =>
    obtain rfl := Except.ok.inj h
    have hlast := literalTail_getLast hread
    cases read with
    | nil => cases hlast
    | cons d ds => simpa [ofSource, List.getLast?_cons_cons] using hlast
  · cases h

/-- No token but a string literal goes beyond its line. -/
theorem Lexeme.first_on_line {c : Char} {cs : List Char} {l : Lexeme} (h : first c cs = .ok l) :
    '\n' ∉ l.source ∨ l.source.getLast? = some '"' := by
  unfold first at h
  split at h
  · next t ht =>
    obtain rfl := Except.ok.inj h
    rcases punctuation_cases ht with ⟨rfl, -⟩ | ⟨rfl, -⟩ | ⟨rfl, -⟩ <;> exact .inl (by simp)
  split_ifs at h with h₁ h₂ h₃ hstart hdigit h₆ h₇
  · exact .inl (caret_on_line h)
  · exact .inl (iri_on_line h)
  · obtain rfl := Except.ok.inj h
    exact .inl (shortName_on_line (by simp) cs)
  · have hne : '\n' ≠ c := by
      rintro rfl
      cases hstart
    exact .inl (ofRun_on_line (by simp [hne, notMem_takeWhile (p := isNameChar) (a := '\n') (by decide)]) h)
  · obtain rfl := Except.ok.inj h
    have hne : '\n' ≠ c := by
      rintro rfl
      cases hdigit
    exact .inl (by simp [ofSource, hne, notMem_takeWhile (p := Char.isDigit) (a := '\n') (by decide)])
  · exact .inr (literal_getLast h)
  · exact .inl (languageTag_on_line h)

/-- A token that begins on the last line before a closing parenthesis ends there. -/
theorem Lexeme.first_closed {c : Char} {cs : List Char} {l : Lexeme}
    (h : first c (cs ++ ['\n', ')']) = .ok l) :
    ∃ rest, l.rest = rest ++ ['\n', ')'] ∧ first c cs = .ok { l with rest } ∧
      rest.length < (c :: cs).length := by
  obtain ⟨token, source, behind⟩ := l
  obtain ⟨htext, hne⟩ := first_begins h
  obtain ⟨d, read, rfl⟩ := List.exists_cons_of_ne_nil hne
  obtain ⟨rfl, hread⟩ := List.cons.inj (htext : d :: (read ++ behind) = c :: (cs ++ ['\n', ')']))
  obtain ⟨rest, rfl, rfl⟩ : ∃ rest, cs = read ++ rest ∧ behind = rest ++ ['\n', ')'] := by
    rcases List.append_eq_append_iff.1 hread with hprefix | ⟨more, rfl, hmore⟩
    · exact hprefix
    · cases more with
      | nil => exact ⟨[], by simp, hmore.symm⟩
      | cons x more =>
        -- the token goes beyond the line, but it does not end with a quote
        obtain ⟨rfl, hmore⟩ := List.cons.inj hmore
        have hlast : ∃ y, (d :: (cs ++ '\n' :: more)).getLast? = some y ∧ y ≠ '"' := by
          cases more with
          | nil => exact ⟨'\n', by rw [← List.cons_append, List.getLast?_concat], by decide⟩
          | cons y more =>
            obtain ⟨rfl, hmore⟩ := List.cons.inj hmore
            obtain rfl := (List.append_eq_nil_iff.1 hmore.symm).1
            exact ⟨')', by simp [List.getLast?_cons, List.getLast?_append], by decide⟩
        obtain ⟨y, hy, hquote⟩ := hlast
        rcases first_on_line h with hline | hend
        · simp at hline
        · exact absurd (Option.some.inj (hy.symm.trans hend)) hquote
  have hfollows : Follows token (rest ++ ['\n', ')']) rest := by
    cases rest with
    | nil => exact .inr (.inl delimited_nil)
    | cons => exact .inl rfl
  rw [List.append_assoc] at h
  exact ⟨rest, rfl, first_congr h hfollows, by simp⟩

theorem exists_of_map {ε α β : Type} {x : Except ε α} {f : α → β} {b : β} (h : x.map f = .ok b) :
    ∃ a, x = .ok a ∧ f a = b := by
  cases x with
  | error e => cases h
  | ok a => exact ⟨a, rfl, Except.ok.inj h⟩

/-- The tokens of a text that is closed on the next line are its own and the parenthesis. -/
theorem exists_tokens_of_closed {p : Place} {cs : List Char} {ts : List Located}
    (h : tokenizeFrom p (cs ++ ['\n', ')']) = .ok ts) :
    ∃ own close, ts = own ++ [close] ∧ tokenizeFrom p cs = .ok own ∧ close.token = .rightParen := by
  induction hn : cs.length using Nat.strong_induction_on generalizing p cs ts with
  | _ n ih =>
  subst hn
  cases hcs : splitIgnored cs with
  | mk ignored behind =>
    cases behind with
    | nil =>
      have hnothing : (splitIgnored cs).2 = [] := by rw [hcs]
      obtain ⟨located, hcovers, hlocated⟩ := lexes_rightParen (p.after (cs ++ ['\n']))
      obtain ⟨close, rfl, hclose⟩ := List.map_eq_singleton_iff.1 hlocated
      rw [tokenizeFrom_ignored_line hnothing] at h
      obtain rfl := Except.ok.inj (hcovers.tokens.symm.trans h)
      exact ⟨[], close, rfl, tokenizeFrom_of_splitIgnored_nil hnothing p, hclose⟩
    | cons d ds =>
      have htext := splitIgnored_append cs
      rw [hcs] at htext
      subst htext
      rw [List.append_assoc, List.cons_append,
        tokenizeFrom_of_splitIgnored_cons (splitIgnored_congr hcs _)] at h
      split at h
      · cases h
      next l hfirst =>
      obtain ⟨rest, hrest, hfirst, hlength⟩ := Lexeme.first_closed hfirst
      rw [hrest] at h
      obtain ⟨more, htail, rfl⟩ := exists_of_map h
      obtain ⟨own, close, rfl, hown, hclose⟩ := ih _ (by simp at hlength ⊢; omega) htail rfl
      refine ⟨_ :: own, close, rfl, ?_, hclose⟩
      rw [tokenizeFrom_of_splitIgnored_cons hcs, hfirst]
      dsimp only
      rw [hown]
      rfl

/-! ## The same source elsewhere -/

/-- A token of a text of so many characters, and the same token where the text stands elsewhere. -/
structure Moved (p q n : Nat) (t t' : Located) : Prop where
  token : t'.token = t.token
  start : ∃ i ≤ n, t.start.offset = p + i ∧ t'.start.offset = q + i
  stop : ∃ j ≤ n, t.stop.offset = p + j ∧ t'.stop.offset = q + j

theorem Moved.shift {p q n k m : Nat} {t t' : Located} (h : Moved (p + k) (q + k) n t t')
    (hm : k + n ≤ m) : Moved p q m t t' := by
  obtain ⟨htoken, ⟨i, hi, hstart, hstart'⟩, ⟨j, hj, hstop, hstop'⟩⟩ := h
  exact ⟨htoken, ⟨k + i, by omega, by omega, by omega⟩, ⟨k + j, by omega, by omega, by omega⟩⟩

/-- A text has the same tokens wherever it stands, at the same distances from where it begins. -/
theorem exists_moved {p : Place} {cs : List Char} {ts : List Located} (h : tokenizeFrom p cs = .ok ts)
    (q : Place) : ∃ ts', tokenizeFrom q cs = .ok ts' ∧
      List.Forall₂ (Moved p.offset q.offset cs.length) ts ts' := by
  induction ts generalizing p q cs with
  | nil => exact ⟨[], tokenizeFrom_of_splitIgnored_nil (splitIgnored_of_tokenizeFrom_nil h) q, .nil⟩
  | cons t ts ih =>
    obtain ⟨rest, ⟨hsplit, hfirst⟩, htail⟩ := exists_leads_of_tokenizeFrom h
    rename_i ignored read c token
    obtain ⟨ts', htail', hmoved⟩ := ih htail (q.after (ignored ++ c :: read))
    refine ⟨⟨token, q.after ignored, q.after (ignored ++ c :: read)⟩ :: ts', ?_, .cons ?_ ?_⟩
    · rw [tokenizeFrom_eq_of_leads (.intro hsplit hfirst), htail']
      rfl
    · exact ⟨rfl, ⟨ignored.length, by simp, rfl, rfl⟩,
        ⟨(ignored ++ c :: read).length, by simp, rfl, rfl⟩⟩
    · exact hmoved.imp fun _ _ hmoved => hmoved.shift (by simp; omega)

/-- The words of a stretch of one document are found again in another, where the same text stands. -/
def SameSource (text text' : List Char) (ts ts' : List Located) : Prop :=
  ∃ pre pre' g post post', text = pre ++ g ++ post ∧ text' = pre' ++ g ++ post' ∧
    List.Forall₂ (Moved pre.length pre'.length g.length) ts ts'

namespace SameSource

variable {text text' : List Char} {t t' : Located} {ts ts' us : List Located}

theorem tokens (h : SameSource text text' ts ts') : ts'.map (·.token) = ts.map (·.token) := by
  obtain ⟨_, _, _, _, _, -, -, hmoved⟩ := h
  induction hmoved with
  | nil => rfl
  | cons h _ ih => simp [h.token, ih]

theorem split (h : SameSource text text' (ts ++ us) ts') : ∃ first second, ts' = first ++ second ∧
    SameSource text text' ts first ∧ SameSource text text' us second := by
  obtain ⟨pre, pre', g, post, post', htext, htext', hmoved⟩ := h
  have hfirst := List.forall₂_take ts.length hmoved
  have hsecond := List.forall₂_drop ts.length hmoved
  rw [List.take_left] at hfirst
  rw [List.drop_left] at hsecond
  exact ⟨_, _, (List.take_append_drop ts.length ts').symm,
    ⟨pre, pre', g, post, post', htext, htext', hfirst⟩,
    ⟨pre, pre', g, post, post', htext, htext', hsecond⟩⟩

/-- The source between two places in a part of a text. -/
theorem slice_inside {pre g post : List Char} {i j : Nat} {start stop : Place} (hj : j ≤ g.length)
    (hstart : start.offset = pre.length + i) (hstop : stop.offset = pre.length + j) :
    slice (pre ++ g ++ post) start stop = String.ofList ((g.drop i).take (j - i)) := by
  have hdrop : (pre ++ (g ++ post)).drop (pre.length + i) = (g ++ post).drop i := by
    rw [List.drop_append, Nat.add_sub_cancel_left, List.drop_eq_nil_of_le (Nat.le_add_right _ i),
      List.nil_append]
  rw [slice, hstart, hstop, Nat.add_sub_add_left, List.append_assoc, hdrop, List.drop_append,
    List.take_append_of_le_length (by rw [List.length_drop]; omega)]

theorem exists_lastStop {p q n : Nat} {stop stop' : Place} (h : List.Forall₂ (Moved p q n) ts ts')
    (hstop : ∃ j ≤ n, stop.offset = p + j ∧ stop'.offset = q + j) :
    ∃ j ≤ n, (lastStop ts stop).offset = p + j ∧ (lastStop ts' stop').offset = q + j := by
  induction h generalizing stop stop' with
  | nil => exact hstop
  | cons hmoved _ ih =>
    rw [lastStop_cons, lastStop_cons]
    exact ih hmoved.stop

/-- The source from the beginning of one word to the end of a later one is the same. -/
theorem slice_eq (h : SameSource text text' (t :: ts) (t' :: ts')) (hne : ts ≠ []) :
    slice text' t'.start (lastStop ts' .start) = slice text t.start (lastStop ts .start) := by
  obtain ⟨pre, pre', g, post, post', rfl, rfl, hmoved⟩ := h
  obtain ⟨hfirst, hmoved⟩ := List.forall₂_cons.1 hmoved
  have hne' : ts' ≠ [] := by
    rintro rfl
    exact hne (List.forall₂_nil_right_iff.1 hmoved)
  obtain ⟨i, -, hstart, hstart'⟩ := hfirst.start
  obtain ⟨j, hj, hstop, hstop'⟩ := exists_lastStop hmoved hfirst.stop
  rw [lastStop_congr hne .start t.stop, lastStop_congr hne' .start t'.stop,
    slice_inside hj hstart hstop, slice_inside hj hstart' hstop']

end SameSource

/-! ## Groups -/

/-- Words in which every parenthesis has its partner. -/
inductive Nested : List Token → Prop
  | nil : Nested []
  | word {t : Token} {ts : List Token} : t ≠ .leftParen → t ≠ .rightParen → Nested ts → Nested (t :: ts)
  | group {inner ts : List Token} : Nested inner → Nested ts →
      Nested (.leftParen :: (inner ++ .rightParen :: ts))

/-- The words from a parenthesis to its partner. -/
def IsGroup (ts : List Token) : Prop := ∃ inner, Nested inner ∧ ts = .leftParen :: (inner ++ [.rightParen])

/-- Words that close some groups, and the groups that stand before. -/
inductive Closes : Nat → List Token → Prop
  | nil : Closes 0 []
  | close {depth : Nat} {inner ts : List Token} : Nested inner → Closes depth ts →
      Closes (depth + 1) (inner ++ .rightParen :: ts)

theorem Closes.word {depth : Nat} {t : Token} {ts : List Token} (h : Closes (depth + 1) ts)
    (hleft : t ≠ .leftParen) (hright : t ≠ .rightParen) : Closes (depth + 1) (t :: ts) := by
  obtain _ | ⟨hinner, hrest⟩ := h
  exact .close (.word hleft hright hinner) hrest

theorem Closes.group {depth : Nat} {ts : List Token} (h : Closes (depth + 2) ts) :
    Closes (depth + 1) (.leftParen :: ts) := by
  obtain _ | ⟨hinner, _ | ⟨hsecond, hrest⟩⟩ := h
  rename_i inner second rest
  have := Closes.close (.group hinner hsecond) hrest
  simpa using this

/-- The words that are passed over close the groups that were open. -/
theorem exists_closes_of_skipRest {depth : Nat} {stop stop' : Place} {left rest : List Located}
    (h : skipRest depth stop left = .ok (stop', rest)) :
    ∃ used, left = used ++ rest ∧ stop' = lastStop used stop ∧ Closes depth (used.map (·.token)) := by
  fun_induction skipRest depth stop left with
  | case1 stop left =>
    obtain ⟨rfl, rfl⟩ := Prod.mk.inj (Except.ok.inj h)
    exact ⟨[], rfl, rfl, .nil⟩
  | case2 => cases h
  | case3 depth stop t left ht ih =>
    obtain ⟨used, rfl, rfl, hcloses⟩ := ih h
    exact ⟨t :: used, rfl, by simp, by simpa [ht] using hcloses.group⟩
  | case4 depth stop t left ht ih =>
    obtain ⟨used, rfl, rfl, hcloses⟩ := ih h
    exact ⟨t :: used, rfl, by simp, by simpa [ht] using Closes.close .nil hcloses⟩
  | case5 depth stop t left hleft hright ih =>
    obtain ⟨used, rfl, rfl, hcloses⟩ := ih h
    exact ⟨t :: used, rfl, by simp, hcloses.word hleft hright⟩

/-- What is passed over as a group goes from a parenthesis to its partner. -/
theorem isGroup_of_skipGroup {stop : Place} {left rest : List Located}
    (h : skipGroup left = .ok (stop, rest)) : ∃ used, left = used ++ rest ∧ used ≠ [] ∧
      stop = lastStop used .start ∧ IsGroup (used.map (·.token)) := by
  rw [skipGroup] at h
  rcases expect_cases .leftParen left with ⟨t, inner, rfl, ht, hopen⟩ | ⟨f, hfault⟩
  case inr => rw [bind_apply, hfault] at h; cases h
  rw [bind_of_ok hopen] at h
  obtain ⟨used, rfl, rfl, hcloses⟩ := exists_closes_of_skipRest h
  generalize hwords : used.map (·.token) = words at hcloses
  obtain _ | ⟨hnested, _ | _⟩ := hcloses
  have hne : used ≠ [] := by
    rintro rfl
    simp at hwords
  refine ⟨t :: used, rfl, by simp, ?_, _, hnested, by rw [List.map_cons, ht, hwords]⟩
  rw [lastStop_cons, lastStop_congr hne]

end FixedDomain.FunctionalSyntax
