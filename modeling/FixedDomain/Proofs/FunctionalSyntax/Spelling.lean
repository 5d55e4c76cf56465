import Mathlib.Data.List.Forall2
import FixedDomain.FunctionalSyntax.Reader
import FixedDomain.Proofs.FunctionalSyntax.Lexing

/-! # Texts that are read back

What it means that a step of the grammar reads a text back, and how texts that are read back are put
together:

* `Reads` — a step takes exactly some tokens and has a result, whatever follows.
* `Fills` — a step does so up to a closing parenthesis.
* `Spells` — a text has tokens that a step reads, if it is given enough steps.
* `Arguments` — the same of the texts in a group.
-/

namespace FixedDomain.FunctionalSyntax

variable {α β γ δ : Type}

/-! ## Steps -/

theorem bind_apply (m : Reading α) (f : α → Reading β) (left : List Located) :
    (m >>= f) left = match m left with
      | .ok (a, left) => f a left
      | .error e => .error e := by
  change (m left >>= fun p => f p.1 p.2) = _
  cases m left <;> rfl

theorem bind_of_ok {m : Reading α} {f : α → Reading β} {left left' : List Located} {a : α}
    (h : m left = .ok (a, left')) : (m >>= f) left = f a left' := by
  rw [bind_apply, h]

theorem peek_cons (t : Located) (left : List Located) :
    peek (t :: left) = .ok (some t.token, t :: left) := rfl

theorem skip_cons (t : Located) (left : List Located) : skip (t :: left) = .ok ((), left) := rfl

/-- A step takes exactly some tokens and has a result, whatever follows. -/
def Reads (m : Reading α) (ts : List Token) (a : α) : Prop :=
  ∀ located rest, located.map (·.token) = ts → m (located ++ rest) = .ok (a, rest)

/-- A step takes exactly the tokens before a closing parenthesis and has a result. -/
def Fills (m : Reading α) (ts : List Token) (a : α) : Prop :=
  ∀ located close rest, located.map (·.token) = ts → close.token = .rightParen →
    m (located ++ close :: rest) = .ok (a, close :: rest)

theorem Reads.fills {m : Reading α} {ts : List Token} {a : α} (h : Reads m ts a) : Fills m ts a :=
  fun located close rest hts _ => h located (close :: rest) hts

theorem Reads.pure (a : α) : Reads (pure a) [] a := by
  intro located rest hts
  obtain rfl := List.map_eq_nil_iff.1 hts
  rfl

section Bind

variable {m : Reading α} {f : α → Reading β} {ts us : List Token} {a : α} {b : β}

theorem Reads.bind (h : Reads m ts a) (hf : Reads (f a) us b) : Reads (m >>= f) (ts ++ us) b := by
  intro located rest hts
  obtain ⟨first, second, rfl, rfl, rfl⟩ := List.map_eq_append_iff.1 hts
  rw [bind_apply, List.append_assoc, h first _ rfl]
  exact hf second rest rfl

theorem Reads.bind_fills (h : Reads m ts a) (hf : Fills (f a) us b) :
    Fills (m >>= f) (ts ++ us) b := by
  intro located close rest hts hclose
  obtain ⟨first, second, rfl, rfl, rfl⟩ := List.map_eq_append_iff.1 hts
  rw [bind_apply, List.append_assoc, h first _ rfl]
  exact hf second close rest rfl hclose

theorem Fills.bind_pure (h : Fills m ts a) (g : α → β) :
    Fills (m >>= fun a => Pure.pure (g a)) ts (g a) := by
  intro located close rest hts hclose
  rw [bind_apply, h located close rest hts hclose]
  rfl

theorem Fills.bind_checkCount {xs : List α} {m : Reading (List α)} (h : Fills m ts xs) {least : Nat}
    (hleast : least ≤ xs.length) (tooFew : Nat → SyntaxFault) :
    Fills (m >>= checkCount least tooFew) ts xs := by
  intro located close rest hts hclose
  rw [bind_apply, h located close rest hts hclose]
  simp only [checkCount, Nat.not_lt.2 hleast, if_false]
  rfl

end Bind

theorem reads_expect (t : Token) : Reads (expect t) [t] () := by
  intro located rest hts
  obtain ⟨first, rfl, ht⟩ := List.map_eq_singleton_iff.1 hts
  simp [expect, ht]

/-- What is read between parentheses, before more. -/
theorem Fills.parens_bind {m : Reading α} {ts : List Token} {a : α} (h : Fills m ts a)
    (f : α → Reading β) {located : List Located}
    (hts : located.map (·.token) = .leftParen :: (ts ++ [.rightParen])) (rest : List Located) :
    (do expect .leftParen; let x ← m; expect .rightParen; f x) (located ++ rest) = f a rest := by
  obtain ⟨opening, behind, rfl, hopening, hbehind⟩ := List.map_eq_cons_iff.1 hts
  obtain ⟨inner, closing, rfl, rfl, hclosing⟩ := List.map_eq_append_iff.1 hbehind
  obtain ⟨close, rfl, hclose⟩ := List.map_eq_singleton_iff.1 hclosing
  have hopen : expect .leftParen (opening :: (inner ++ close :: rest)) =
      .ok ((), inner ++ close :: rest) := by simp [expect, hopening]
  have hclosed : expect .rightParen (close :: rest) = .ok ((), rest) := by simp [expect, hclose]
  rw [List.cons_append, List.append_assoc, List.singleton_append, bind_of_ok hopen,
    bind_of_ok (h inner close rest rfl hclose), bind_of_ok hclosed]

/-- What is read between parentheses. -/
theorem Fills.parens {m : Reading α} {ts : List Token} {a : α} (h : Fills m ts a) (g : α → β) :
    Reads (do expect .leftParen; let x ← m; expect .rightParen; Pure.pure (g x))
      (.leftParen :: (ts ++ [.rightParen])) (g a) :=
  fun _ rest hts => h.parens_bind (fun x => Pure.pure (g x)) hts rest

/-! ## Items up to the closing parenthesis -/

/-- Whether a token can begin an item of a list: it neither closes the list nor begins an annotation. -/
def IsItemStart (t : Token) : Prop := t ≠ .rightParen ∧ t ≠ .keyword "Annotation"

/-- At the closing parenthesis nothing more is read. -/
theorem fills_ifClosed (a : α) (m : Reading α) :
    Fills (do if (← peek) = some .rightParen then pure a else m) [] a := by
  intro located close rest hts hclose
  obtain rfl := List.map_eq_nil_iff.1 hts
  simp only [bind_apply, peek, List.nil_append, List.head?_cons, Option.map_some, hclose, if_true]
  rfl

/-- Before an item the closing parenthesis has not been reached. -/
theorem Fills.ifClosed {m : Reading α} {ts : List Token} {a : α} (h : Fills m ts a) (b : α)
    (hstart : ∃ t ∈ ts.head?, IsItemStart t) :
    Fills (do if (← peek) = some .rightParen then pure b else m) ts a := by
  intro located close rest hts hclose
  have hnext : (located ++ close :: rest).head?.map Located.token ≠ some .rightParen := by
    obtain ⟨t, ht, hne, -⟩ := hstart
    cases located with
    | nil => simp [← hts] at ht
    | cons t' located =>
      obtain rfl : t'.token = t := by simpa [← hts] using ht
      simpa using hne
  simp only [bind_apply, peek, hnext, if_false]
  exact h located close rest hts hclose

/-! ## Texts -/

/-- A text has tokens that a step reads, if it is given enough steps. -/
def Spells (m : Nat → Reading α) (text : String) (a : α) : Prop :=
  ∃ ts, Lexes text.toList ts ∧ (∃ t ∈ ts.head?, IsItemStart t) ∧
    ∀ steps, 3 * ts.length < steps → Reads (m steps) ts a

/-- The texts of some arguments have these tokens. -/
abbrev LexesAll (texts : List String) (tss : List (List Token)) : Prop :=
  List.Forall₂ (fun (text : String) ts => Lexes text.toList ts) texts tss

theorem lexesAll_map {items : List α} {render : α → String} {tokens : α → List Token}
    (h : ∀ x ∈ items, Lexes (render x).toList (tokens x)) :
    LexesAll (items.map render) (items.map tokens) := by
  rw [LexesAll, List.forall₂_map_left_iff, List.forall₂_map_right_iff]
  exact List.forall₂_same.2 h

/-- Some texts have tokens that a step reads before a closing parenthesis, if it is given enough
steps. -/
def Arguments (k : Nat) (m : Nat → Reading α) (texts : List String) (a : α) : Prop :=
  ∃ tss, LexesAll texts tss ∧ (∀ t ∈ tss.flatten.head?, IsItemStart t) ∧
    ∀ steps, 3 * tss.flatten.length + k ≤ steps → Fills (m steps) tss.flatten a

theorem Lexes.ne_nil {text : List Char} {ts : List Token} (h : Lexes text ts) : ts ≠ [] := by
  obtain ⟨located, hcovers, rfl⟩ := h .start
  simpa using hcovers.ne_nil

/-- The first token of some texts is that of the first text. -/
theorem isItemStart_flatten {ts : List Token} (tss : List (List Token))
    (h : ∃ t ∈ ts.head?, IsItemStart t) : ∃ t ∈ (ts :: tss).flatten.head?, IsItemStart t := by
  obtain ⟨t, ht, hstart⟩ := h
  obtain ⟨t', ts, rfl⟩ := List.exists_cons_of_ne_nil (l := ts) (by rintro rfl; cases ht)
  exact ⟨t, ht, hstart⟩

theorem forall_of_exists_head {ts : List Token} (h : ∃ t ∈ ts.head?, IsItemStart t) :
    ∀ t ∈ ts.head?, IsItemStart t := by
  obtain ⟨t, ht, hstart⟩ := h
  exact fun t' ht' => Option.mem_unique ht ht' ▸ hstart

namespace Arguments

variable {k j : Nat} {texts : List String} {a : α} {b : β}

theorem pure (a : α) : Arguments k (fun _ => pure a) [] a :=
  ⟨[], .nil, by simp, fun _ _ => (Reads.pure a).fills⟩

/-- An argument before others. -/
theorem cons {m : Nat → Reading α} {f : Nat → α → Reading β} {text : String} (h : Spells m text a)
    (hf : Arguments k (f · a) texts b) : Arguments (k + 1) (fun n => m n >>= f n) (text :: texts) b := by
  obtain ⟨ts, hlexes, hstart, hreads⟩ := h
  obtain ⟨tss, hall, -, hfills⟩ := hf
  refine ⟨ts :: tss, .cons hlexes hall, forall_of_exists_head (isItemStart_flatten tss hstart),
    fun steps hsteps => ?_⟩
  rw [List.flatten_cons, List.length_append] at hsteps
  exact (hreads steps (by omega)).bind_fills (hfills steps (by omega))

theorem mono {m : Nat → Reading α} (h : Arguments k m texts a) (hle : k ≤ j) :
    Arguments j m texts a := by
  obtain ⟨tss, hall, hstart, hfills⟩ := h
  exact ⟨tss, hall, hstart, fun steps hsteps => hfills steps (by omega)⟩

theorem map {m : Nat → Reading α} (h : Arguments k m texts a) (g : α → β) :
    Arguments k (fun n => m n >>= fun a => Pure.pure (g a)) texts (g a) := by
  obtain ⟨tss, hall, hstart, hfills⟩ := h
  exact ⟨tss, hall, hstart, fun steps hsteps => (hfills steps hsteps).bind_pure g⟩

theorem checkCount {m : Nat → Reading (List α)} {xs : List α} (h : Arguments k m texts xs)
    {least : Nat} (hleast : least ≤ xs.length) (tooFew : Nat → SyntaxFault) :
    Arguments k (fun n => m n >>= FunctionalSyntax.checkCount least tooFew) texts xs := by
  obtain ⟨tss, hall, hstart, hfills⟩ := h
  exact ⟨tss, hall, hstart, fun steps hsteps => (hfills steps hsteps).bind_checkCount hleast tooFew⟩

/-- An argument before others that do not depend on it. -/
theorem pair {m : Nat → Reading α} {m' : Nat → Reading β} {text : String} (h : Spells m text a)
    (h' : Arguments k m' texts b) (g : α → β → γ) :
    Arguments (k + 1) (fun n => do let a ← m n; let b ← m' n; Pure.pure (g a b)) (text :: texts)
      (g a b) :=
  cons (f := fun n a => m' n >>= fun b => Pure.pure (g a b)) h (h'.map (g a))

/-- Two arguments before others that do not depend on them. -/
theorem triple {m : Nat → Reading α} {m' : Nat → Reading β} {m'' : Nat → Reading γ}
    {text text' : String} {c : γ} (h : Spells m text a) (h' : Spells m' text' b)
    (h'' : Arguments k m'' texts c) (g : α → β → γ → δ) :
    Arguments (k + 1 + 1)
      (fun n => do let a ← m n; let b ← m' n; let c ← m'' n; Pure.pure (g a b c))
      (text :: text' :: texts) (g a b c) :=
  cons (f := fun n a => do let b ← m' n; let c ← m'' n; Pure.pure (g a b c)) h (pair h' h'' (g a))

/-- A step that takes one more. -/
theorem succ {m m' : Nat → Reading α} (hm : ∀ steps, m (steps + 1) = m' steps)
    (h : Arguments k m' texts a) : Arguments (k + 1) m texts a := by
  obtain ⟨tss, hall, hstart, hfills⟩ := h
  refine ⟨tss, hall, hstart, fun steps hsteps => ?_⟩
  obtain ⟨steps, rfl⟩ := Nat.exists_eq_add_one_of_ne_zero (show steps ≠ 0 by omega)
  exact hm steps ▸ hfills steps (by omega)

/-- A step that depends on whether the closing parenthesis has been reached, before it. -/
theorem ifClosed_nil (a : α) (m : Nat → Reading α) :
    Arguments k (fun n => do if (← peek) = some .rightParen then Pure.pure a else m n) [] a :=
  ⟨[], .nil, by simp, fun _ _ => fills_ifClosed a _⟩

/-- A step that depends on whether the closing parenthesis has been reached, before an argument. The
argument takes steps of its own, so that more of them are left for what follows. -/
theorem ifClosed_cons {m : Nat → Reading α} {f : Nat → α → Reading β} {text : String} (c : β)
    (h : Spells m text a) (hf : Arguments (k + 4) (f · a) texts b) :
    Arguments (k + 1)
      (fun n => do if (← peek) = some .rightParen then Pure.pure c else m n >>= f n)
      (text :: texts) b := by
  obtain ⟨ts, hlexes, hstart, hreads⟩ := h
  obtain ⟨tss, hall, -, hfills⟩ := hf
  have hpos := List.length_pos_iff.2 hlexes.ne_nil
  have hopen := isItemStart_flatten tss hstart
  refine ⟨ts :: tss, .cons hlexes hall, forall_of_exists_head hopen, fun steps hsteps => ?_⟩
  rw [List.flatten_cons, List.length_append] at hsteps
  exact ((hreads steps (by omega)).bind_fills (hfills steps (by omega))).ifClosed c hopen

/-- The last argument. -/
theorem single {m : Nat → Reading α} {text : String} (h : Spells m text a) :
    Arguments 1 m [text] a := by
  obtain ⟨ts, hlexes, hstart, hreads⟩ := h
  refine ⟨[ts], .cons hlexes .nil, forall_of_exists_head (isItemStart_flatten [] hstart),
    fun steps hsteps => ?_⟩
  simp only [List.flatten_cons, List.flatten_nil, List.append_nil] at hsteps ⊢
  exact (hreads steps (by omega)).fills

/-- A list of items, each of which is read back. -/
theorem untilClosed {item : Nat → Reading α} {items : List α} (render : α → String)
    (h : ∀ x ∈ items, Spells item (render x) x) :
    Arguments 1 (fun n => FunctionalSyntax.untilClosed (item n) n) (items.map render) items := by
  -- the items are read with all steps, whereas one step is used up for each
  have hall : ∃ tss, LexesAll (items.map render) tss ∧ (∀ t ∈ tss.flatten.head?, IsItemStart t) ∧
      ∀ steps n, 3 * tss.flatten.length + 1 ≤ steps → 3 * tss.flatten.length + 1 ≤ n →
        Fills (FunctionalSyntax.untilClosed (item n) steps) tss.flatten items := by
    induction items with
    | nil =>
      refine ⟨[], .nil, by simp, fun steps n hsteps _ => ?_⟩
      obtain ⟨steps, rfl⟩ := Nat.exists_eq_add_one_of_ne_zero (show steps ≠ 0 by omega)
      exact fills_ifClosed _ _
    | cons x items ih =>
      obtain ⟨ts, hlexes, hstart, hreads⟩ := h x List.mem_cons_self
      obtain ⟨tss, htss, -, hfills⟩ := ih fun y hy => h y (List.mem_cons_of_mem x hy)
      have hpos := List.length_pos_iff.2 hlexes.ne_nil
      have hopen := isItemStart_flatten tss hstart
      refine ⟨ts :: tss, .cons hlexes htss, forall_of_exists_head hopen, fun steps n hsteps hn => ?_⟩
      rw [List.flatten_cons, List.length_append] at hsteps hn
      obtain ⟨steps, rfl⟩ := Nat.exists_eq_add_one_of_ne_zero (show steps ≠ 0 by omega)
      exact ((hreads n (by omega)).bind_fills
        ((hfills steps n (by omega) (by omega)).bind_pure (x :: ·))).ifClosed [] hopen
  obtain ⟨tss, htss, hstart, hfills⟩ := hall
  exact ⟨tss, htss, hstart, fun steps hsteps => hfills steps steps hsteps hsteps⟩

end Arguments

/-! ## Groups -/

theorem lexes_leftParen : Lexes ['('] [.leftParen] := .single rfl (by decide) rfl

theorem lexes_rightParen : Lexes [')'] [.rightParen] := .single rfl (by decide) rfl

theorem lexes_keyword {kind : String} (h : isKeyword kind.toList = true) :
    Lexes kind.toList [.keyword kind] := by
  have hkind := String.ofList_toList (s := kind)
  cases hcs : kind.toList with
  | nil => simp [hcs, isKeyword] at h
  | cons c cs =>
    rw [hcs] at h hkind
    obtain ⟨hletter, hword⟩ := Bool.and_eq_true_iff.1 h
    obtain ⟨hblank, hcomment, hfirst⟩ :=
      Lexeme.first_of_isNameStart (c := c) (by simp [isNameStart, hletter]) cs
    have hall : ∀ d ∈ cs, isNameChar d = true := fun d hd => by
      simp [isNameChar, List.all_eq_true.1 hword d hd]
    have hdrop : cs.dropWhile isNameChar = [] := List.dropWhile_eq_nil_iff.2 hall
    refine .single hblank hcomment ?_
    rw [hfirst, List.takeWhile_eq_self_iff.2 hall, hdrop, Lexeme.ofRun_of_head_ne (by simp), if_pos h,
      ← hkind]
    rfl

/-- Texts with spaces between them have the tokens of all. -/
theorem lexes_spaced {texts : List String} {tss : List (List Token)} (hne : texts ≠ [])
    (h : LexesAll texts tss) :
    Lexes (spaced texts).toList tss.flatten := by
  induction h with
  | nil => exact absurd rfl hne
  | @cons text ts texts tss hlexes hall ih =>
    cases hall with
    | nil => simpa [spaced] using hlexes
    | cons hnext hmore =>
      have hrest := ih (by simp)
      rw [spaced, String.intercalate_cons_cons, String.toList_append, String.toList_append,
        List.append_assoc]
      have hspace : [' '].all isBlank = true := by decide
      exact hlexes.append (hrest.blanks hspace) (endsBefore_cons rfl)

theorem lexes_group {kind : String} {texts : List String} {tss : List (List Token)}
    (hkind : isKeyword kind.toList = true) (hne : texts ≠ [])
    (h : LexesAll texts tss) :
    Lexes (group kind texts).toList (.keyword kind :: .leftParen :: (tss.flatten ++ [.rightParen])) := by
  have hinner := (lexes_spaced hne h).append lexes_rightParen (endsBefore_cons rfl)
  have hopen := lexes_leftParen.append hinner (.inr ⟨.leftParen, rfl, '(', rfl⟩)
  have hall := (lexes_keyword hkind).append hopen (endsBefore_cons rfl)
  simpa [group] using hall

end FixedDomain.FunctionalSyntax
