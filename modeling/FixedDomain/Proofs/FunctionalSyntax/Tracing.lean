import FixedDomain.Proofs.FunctionalSyntax.Spelling
import FixedDomain.Proofs.FunctionalSyntax.Writable

/-! # Steps that read the same words alike

What a step makes of a document depends on the words that it passes over and on the next one, but not on
what follows, nor on the places of the words. It passes over whole groups, so it does not look beyond the
group that it stands in.

* `Balanced`, `StaysOpen` — stretches that close no group which was open before.
* `Traces` — a step has results of a kind, and another step does the same wherever it meets the same
  words.
-/

namespace FixedDomain.FunctionalSyntax

variable {α β γ δ : Type}

/-! ## The same words elsewhere -/

/-- Some words that are passed over and the word after them are found again elsewhere. -/
structure SameAhead (used rest used' rest' : List Located) : Prop where
  used : used'.map (·.token) = used.map (·.token)
  next : rest'.head?.map (·.token) = rest.head?.map (·.token)

namespace SameAhead

variable {used rest used' rest' : List Located}

theorem head (h : SameAhead used rest used' rest') :
    (used' ++ rest').head?.map (·.token) = (used ++ rest).head?.map (·.token) := by
  cases used with
  | nil =>
    obtain rfl := List.map_eq_nil_iff.1 h.used
    exact h.next
  | cons t used =>
    obtain ⟨t', used', rfl, ht, -⟩ := List.map_eq_cons_iff.1 h.used
    simp [ht]

theorem split {first second : List Located} (h : SameAhead (first ++ second) rest used' rest') :
    ∃ first' second', used' = first' ++ second' ∧
      SameAhead first (second ++ rest) first' (second' ++ rest') ∧
      SameAhead second rest second' rest' := by
  have hused := h.used
  rw [List.map_append] at hused
  obtain ⟨first', second', rfl, hfirst, hsecond⟩ := List.map_eq_append_iff.1 hused
  have hrest : SameAhead second rest second' rest' := ⟨hsecond, h.next⟩
  exact ⟨first', second', rfl, ⟨hfirst, hrest.head⟩, hrest⟩

theorem cons {t : Located} (h : SameAhead (t :: used) rest used' rest') :
    ∃ t' tail, used' = t' :: tail ∧ t'.token = t.token ∧ SameAhead used rest tail rest' := by
  obtain ⟨t', tail, rfl, ht, htail⟩ := List.map_eq_cons_iff.1 h.used
  exact ⟨t', tail, rfl, ht, htail, h.next⟩

end SameAhead

/-! ## Groups -/

/-- Passing over these words leaves the same groups open. -/
def Balanced (used : List Located) : Prop :=
  ∀ depth stop rest, ∃ stop',
    skipRest (depth + 1) stop (used ++ rest) = skipRest (depth + 1) stop' rest

/-- Passing over these words closes no group that was open before. -/
def StaysOpen (used : List Located) : Prop :=
  ∀ depth stop rest, ∃ depth' stop',
    skipRest (depth + 1) stop (used ++ rest) = skipRest (depth' + 1) stop' rest

theorem balanced_nil : Balanced [] := fun _ stop _ => ⟨stop, rfl⟩

theorem Balanced.staysOpen {used : List Located} (h : Balanced used) : StaysOpen used :=
  fun depth stop rest => ⟨depth, h depth stop rest⟩

theorem Balanced.append_staysOpen {first second : List Located} (h : Balanced first)
    (h' : StaysOpen second) : StaysOpen (first ++ second) := by
  intro depth stop rest
  obtain ⟨stop', hfirst⟩ := h depth stop (second ++ rest)
  rw [List.append_assoc, hfirst]
  exact h' depth stop' rest

theorem Balanced.append {first second : List Located} (h : Balanced first) (h' : Balanced second) :
    Balanced (first ++ second) := by
  intro depth stop rest
  obtain ⟨stop', hfirst⟩ := h depth stop (second ++ rest)
  rw [List.append_assoc, hfirst]
  exact h' depth stop' rest

/-- A word that is no parenthesis. -/
theorem balanced_singleton {t : Located} (hleft : t.token ≠ .leftParen)
    (hright : t.token ≠ .rightParen) : Balanced [t] := by
  intro depth stop rest
  refine ⟨t.stop, ?_⟩
  rw [List.singleton_append, skipRest]
  split
  · next h => exact absurd h hleft
  · next h => exact absurd h hright
  · rfl

/-- A group that has not been closed yet. -/
theorem StaysOpen.leftParen {t : Located} {used : List Located} (h : StaysOpen used)
    (ht : t.token = .leftParen) : StaysOpen (t :: used) := by
  intro depth stop rest
  rw [List.cons_append, skipRest, ht]
  exact h (depth + 1) t.stop rest

/-- A whole group. -/
theorem Balanced.group {t close : Located} {used : List Located} (h : Balanced used)
    (ht : t.token = .leftParen) (hclose : close.token = .rightParen) :
    Balanced (t :: (used ++ [close])) := by
  intro depth stop rest
  obtain ⟨stop', hused⟩ := h (depth + 1) t.stop (close :: rest)
  refine ⟨close.stop, ?_⟩
  rw [List.cons_append, skipRest, ht, List.append_assoc, List.singleton_append]
  dsimp only
  rw [hused, skipRest, hclose]

/-! ## Steps -/

/-- The words of a document are as they are read from a text. -/
def Sound (left : List Located) : Prop := ∀ t ∈ left, t.token.IsSound

theorem Sound.of_append {used rest : List Located} (h : Sound (used ++ rest)) : Sound rest :=
  fun t ht => h t (List.mem_append_right used ht)

theorem Sound.tail {t : Located} {left : List Located} (h : Sound (t :: left)) : Sound left :=
  fun t' ht' => h t' (List.mem_cons_of_mem t ht')

theorem peek_apply (left : List Located) : peek left = .ok (left.head?.map (·.token), left) := rfl

theorem exists_cons_of_head {left : List Located} {word : Token}
    (h : left.head?.map (·.token) = some word) : ∃ t rest, left = t :: rest ∧ t.token = word := by
  cases left with
  | nil => cases h
  | cons t rest => exact ⟨t, rest, rfl, Option.some.inj h⟩

/-- The results of a step are of a kind. The step passes over whole groups, of at least `w` words, and
another step that is given enough steps does the same on the same words; likewise for a step that meets
an unsupported construct. -/
structure Traces (k w : Nat) (m : Reading α) (m' : Nat → Reading α) (P : α → Prop) : Prop where
  ok : ∀ {left rest a}, Sound left → m left = .ok (a, rest) →
    P a ∧ ∃ used, left = used ++ rest ∧ w ≤ used.length ∧ Balanced used ∧
      ∀ used' rest' steps, SameAhead used rest used' rest' → 3 * used.length + k ≤ steps →
        m' steps (used' ++ rest') = .ok (a, rest')
  unsupported : ∀ {left construct}, Sound left → m left = .error (.unsupported construct) →
    ∃ used rest, left = used ++ rest ∧ StaysOpen used ∧
      ∀ used' rest' steps, SameAhead used rest used' rest' → 3 * used.length + k ≤ steps →
        m' steps (used' ++ rest') = .error (.unsupported construct)

namespace Traces

variable {k j w v : Nat} {m : Reading α} {m' : Nat → Reading α} {P : α → Prop}

theorem pure {a : α} (h : P a) : Traces k 0 (pure a) (fun _ => pure a) P where
  ok {left rest b} _ hm := by
    obtain ⟨rfl, rfl⟩ := Prod.mk.inj (Except.ok.inj hm)
    refine ⟨h, [], rfl, Nat.le_refl 0, balanced_nil, fun used' rest' steps hsame _ => ?_⟩
    obtain rfl := List.map_eq_nil_iff.1 hsame.used
    rfl
  unsupported _ hm := by cases hm

theorem fault (f : SyntaxFault) : Traces k w (fault f) m' P where
  ok _ hm := by cases hm
  unsupported _ hm := by cases hm

theorem unsupported' (construct : String) :
    Traces k w (FunctionalSyntax.unsupported construct) (fun _ => FunctionalSyntax.unsupported construct)
      P where
  ok _ hm := by cases hm
  unsupported {left _} _ hm := by
    obtain rfl := Failure.unsupported.inj (Except.error.inj hm)
    exact ⟨[], left, rfl, balanced_nil.staysOpen, fun _ _ _ _ _ => rfl⟩

theorem mono (h : Traces k w m m' P) (hk : k ≤ j) (hw : v ≤ w) : Traces j v m m' P where
  ok hsound hm := by
    obtain ⟨ha, used, hused, hlength, hbalanced, hsame⟩ := h.ok hsound hm
    exact ⟨ha, used, hused, hw.trans hlength, hbalanced, fun used' rest' steps h hsteps =>
      hsame used' rest' steps h (by omega)⟩
  unsupported hsound hm := by
    obtain ⟨used, rest, hused, hopen, hsame⟩ := h.unsupported hsound hm
    exact ⟨used, rest, hused, hopen, fun used' rest' steps h hsteps =>
      hsame used' rest' steps h (by omega)⟩

/-- A step after another one. The words of the first leave more steps for the second. -/
theorem bind {f : α → Reading β} {g : Nat → α → Reading β} {Q : β → Prop} (h : Traces k w m m' P)
    (hf : ∀ a, P a → Traces (k + 3 * w) v (f a) (g · a) Q) :
    Traces k (w + v) (m >>= f) (fun n => m' n >>= g n) Q where
  ok {left rest b} hsound hm := by
    rw [bind_apply] at hm
    split at hm
    · next a mid hfirst =>
      obtain ⟨ha, first, rfl, hw, hbalanced, hsame⟩ := h.ok hsound hfirst
      obtain ⟨hb, second, rfl, hv, hbalanced', hsame'⟩ := (hf a ha).ok hsound.of_append hm
      refine ⟨hb, first ++ second, by rw [List.append_assoc], by rw [List.length_append]; omega,
        hbalanced.append hbalanced', fun used' rest' steps hahead hsteps => ?_⟩
      rw [List.length_append] at hsteps
      obtain ⟨first', second', rfl, hfirst', hsecond'⟩ := hahead.split
      rw [List.append_assoc, bind_of_ok (hsame first' _ steps hfirst' (by omega))]
      exact hsame' second' rest' steps hsecond' (by omega)
    · cases hm
  unsupported {left construct} hsound hm := by
    rw [bind_apply] at hm
    split at hm
    · next a mid hfirst =>
      obtain ⟨ha, first, rfl, hw, hbalanced, hsame⟩ := h.ok hsound hfirst
      obtain ⟨second, rest, rfl, hopen, hsame'⟩ := (hf a ha).unsupported hsound.of_append hm
      refine ⟨first ++ second, rest, by rw [List.append_assoc], hbalanced.append_staysOpen hopen,
        fun used' rest' steps hahead hsteps => ?_⟩
      rw [List.length_append] at hsteps
      obtain ⟨first', second', rfl, hfirst', hsecond'⟩ := hahead.split
      rw [List.append_assoc, bind_of_ok (hsame first' _ steps hfirst' (by omega))]
      exact hsame' second' rest' steps hsecond' (by omega)
    · next e hfirst =>
      obtain rfl := Except.error.inj hm
      obtain ⟨used, rest, hused, hopen, hsame⟩ := h.unsupported hsound hfirst
      refine ⟨used, rest, hused, hopen, fun used' rest' steps hahead hsteps => ?_⟩
      rw [bind_apply, hsame used' rest' steps hahead hsteps]

variable {m₂ : Reading β} {m₂' : Nat → Reading β} {m₃ : Reading γ} {m₃' : Nat → Reading γ}
  {Q : β → Prop} {R : γ → Prop} {S : δ → Prop}

theorem map (h : Traces k w m m' P) (g : α → β) (hg : ∀ a, P a → Q (g a)) :
    Traces k w (do let a ← m; Pure.pure (g a)) (fun n => do let a ← m' n; Pure.pure (g a)) Q :=
  bind (v := 0) (g := fun _ a => Pure.pure (g a)) h fun a ha => pure (hg a ha)

/-- Two steps that do not depend on each other. -/
theorem pair (h : Traces k w m m' P) (h₂ : Traces k v m₂ m₂' Q) (g : α → β → γ)
    (hg : ∀ a b, P a → Q b → R (g a b)) :
    Traces k (w + v) (do let a ← m; let b ← m₂; Pure.pure (g a b))
      (fun n => do let a ← m' n; let b ← m₂' n; Pure.pure (g a b)) R :=
  bind (g := fun n a => do let b ← m₂' n; Pure.pure (g a b)) h fun a ha =>
    (h₂.mono (Nat.le_add_right k _) (Nat.le_refl v)).map (g a) (hg a · ha)

/-- Three steps that do not depend on each other. -/
theorem triple {u : Nat} (h : Traces k w m m' P) (h₂ : Traces k v m₂ m₂' Q) (h₃ : Traces k u m₃ m₃' R)
    (g : α → β → γ → δ) (hg : ∀ a b c, P a → Q b → R c → S (g a b c)) :
    Traces k (w + (v + u)) (do let a ← m; let b ← m₂; let c ← m₃; Pure.pure (g a b c))
      (fun n => do let a ← m' n; let b ← m₂' n; let c ← m₃' n; Pure.pure (g a b c)) S :=
  bind (g := fun n a => do let b ← m₂' n; let c ← m₃' n; Pure.pure (g a b c)) h fun a ha =>
    (h₂.mono (Nat.le_add_right k _) (Nat.le_refl v)).pair (h₃.mono (Nat.le_add_right k _) (Nat.le_refl u))
      (g a) (hg a · · ha)

/-- A list has its least length, or it is rejected. -/
theorem checkCount {m : Reading (List α)} {m' : Nat → Reading (List α)} {P : List α → Prop}
    (h : Traces k w m m' P) (least : Nat) (tooFew : Nat → SyntaxFault) :
    Traces k w (m >>= FunctionalSyntax.checkCount least tooFew)
      (fun n => m' n >>= FunctionalSyntax.checkCount least tooFew)
      (fun xs => least ≤ xs.length ∧ P xs) := by
  refine bind (v := 0) (g := fun _ => FunctionalSyntax.checkCount least tooFew) h fun xs hxs => ?_
  unfold FunctionalSyntax.checkCount
  split
  · exact fault _
  · next hlength => exact pure ⟨Nat.le_of_not_lt hlength, hxs⟩

/-- A step that takes one more. -/
theorem succ (h : Traces k w m m' P) {m'' : Nat → Reading α} (hm : ∀ n, m'' (n + 1) = m' n) :
    Traces (k + 1) w m m'' P where
  ok hsound hrun := by
    obtain ⟨ha, used, hused, hlength, hbalanced, hsame⟩ := h.ok hsound hrun
    refine ⟨ha, used, hused, hlength, hbalanced, fun used' rest' steps hahead hsteps => ?_⟩
    obtain ⟨steps, rfl⟩ := Nat.exists_eq_add_one_of_ne_zero (show steps ≠ 0 by omega)
    exact hm steps ▸ hsame used' rest' steps hahead (by omega)
  unsupported hsound hrun := by
    obtain ⟨used, rest, hused, hopen, hsame⟩ := h.unsupported hsound hrun
    refine ⟨used, rest, hused, hopen, fun used' rest' steps hahead hsteps => ?_⟩
    obtain ⟨steps, rfl⟩ := Nat.exists_eq_add_one_of_ne_zero (show steps ≠ 0 by omega)
    exact hm steps ▸ hsame used' rest' steps hahead (by omega)

end Traces

/-- What a step does that knows the next word: it leaves the word where it is, or it passes over it. -/
inductive TracesAt (k : Nat) (P : α → Prop) : Nat → Option Token → Reading α → (Nat → Reading α) → Prop
  | stay {w : Nat} {t : Option Token} {m : Reading α} {m' : Nat → Reading α} (h : Traces k w m m' P) :
    TracesAt k P w t m m'
  | take {w : Nat} {word : Token} {m : Reading α} {m' : Nat → Reading α} (hleft : word ≠ .leftParen)
    (hright : word ≠ .rightParen) (h : Traces (k + 3) w m m' P) :
    TracesAt k P (w + 1) (some word) (do skip; m) (fun n => do skip; m' n)

theorem expect_cons {word : Token} {t : Located} (h : t.token = word) (left : List Located) :
    expect word (t :: left) = .ok ((), left) := by
  simp [expect, h]

theorem expect_cases (word : Token) (left : List Located) :
    (∃ t rest, left = t :: rest ∧ t.token = word ∧ expect word left = .ok ((), rest)) ∨
      ∃ f, expect word left = .error (.malformed left f) := by
  cases left with
  | nil => exact .inr ⟨_, rfl⟩
  | cons t rest =>
    by_cases h : t.token = word
    · exact .inl ⟨t, rest, rfl, h, expect_cons h rest⟩
    · exact .inr ⟨_, by rw [expect, if_neg h]⟩

namespace TracesAt

variable {k w : Nat} {P : α → Prop} {next : Option Token} {m : Reading α} {m' : Nat → Reading α}
  {left : List Located}

theorem ok {rest : List Located} {a : α} (h : TracesAt k P w next m m') (hsound : Sound left)
    (hnext : left.head?.map (·.token) = next) (hm : m left = .ok (a, rest)) :
    P a ∧ ∃ used, left = used ++ rest ∧ w ≤ used.length ∧ Balanced used ∧
      ∀ used' rest' steps, SameAhead used rest used' rest' → 3 * used.length + k ≤ steps →
        m' steps (used' ++ rest') = .ok (a, rest') := by
  cases h with
  | stay h => exact h.ok hsound hm
  | take hleft hright h =>
    obtain ⟨t, left, rfl, rfl⟩ := exists_cons_of_head hnext
    obtain ⟨ha, used, rfl, hw, hbalanced, hsame⟩ := h.ok hsound.tail hm
    refine ⟨ha, t :: used, rfl, Nat.succ_le_succ hw, (balanced_singleton hleft hright).append hbalanced,
      fun used' rest' steps hahead hsteps => ?_⟩
    rw [List.length_cons] at hsteps
    obtain ⟨t', tail, rfl, -, hahead⟩ := hahead.cons
    exact (bind_of_ok (skip_cons t' _)).trans (hsame tail rest' steps hahead (by omega))

theorem unsupported {construct : String} (h : TracesAt k P w next m m') (hsound : Sound left)
    (hnext : left.head?.map (·.token) = next) (hm : m left = .error (.unsupported construct)) :
    ∃ used rest, left = used ++ rest ∧ StaysOpen used ∧
      ∀ used' rest' steps, SameAhead used rest used' rest' → 3 * used.length + k ≤ steps →
        m' steps (used' ++ rest') = .error (.unsupported construct) := by
  cases h with
  | stay h => exact h.unsupported hsound hm
  | take hleft hright h =>
    obtain ⟨t, left, rfl, rfl⟩ := exists_cons_of_head hnext
    obtain ⟨used, rest, rfl, hopen, hsame⟩ := h.unsupported hsound.tail hm
    refine ⟨t :: used, rest, rfl, (balanced_singleton hleft hright).append_staysOpen hopen,
      fun used' rest' steps hahead hsteps => ?_⟩
    rw [List.length_cons] at hsteps
    obtain ⟨t', tail, rfl, -, hahead⟩ := hahead.cons
    exact (bind_of_ok (skip_cons t' _)).trans (hsame tail rest' steps hahead (by omega))

end TracesAt

namespace Traces

variable {k w : Nat} {P : α → Prop}

/-- A step that depends on the next word. -/
theorem peek {f : Option Token → Reading α} {g : Nat → Option Token → Reading α}
    (h : ∀ next, TracesAt k P w next (f next) (g · next)) :
    Traces k w (FunctionalSyntax.peek >>= f) (fun n => FunctionalSyntax.peek >>= g n) P where
  ok {left rest a} hsound hm := by
    rw [bind_of_ok (peek_apply left)] at hm
    obtain ⟨ha, used, rfl, hw, hbalanced, hsame⟩ := (h _).ok hsound rfl hm
    refine ⟨ha, used, rfl, hw, hbalanced, fun used' rest' steps hahead hsteps => ?_⟩
    rw [bind_of_ok (peek_apply _), hahead.head]
    exact hsame used' rest' steps hahead hsteps
  unsupported {left construct} hsound hm := by
    rw [bind_of_ok (peek_apply left)] at hm
    obtain ⟨used, rest, rfl, hopen, hsame⟩ := (h _).unsupported hsound rfl hm
    refine ⟨used, rest, rfl, hopen, fun used' rest' steps hahead hsteps => ?_⟩
    rw [bind_of_ok (peek_apply _), hahead.head]
    exact hsame used' rest' steps hahead hsteps

/-- A step that stops at a closing parenthesis. -/
theorem ifClosed {m : Reading α} {m' : Nat → Reading α} {a : α} (ha : P a) (h : Traces k 0 m m' P) :
    Traces k 0 (do if (← FunctionalSyntax.peek) = some .rightParen then Pure.pure a else m)
      (fun n => do if (← FunctionalSyntax.peek) = some .rightParen then Pure.pure a else m' n) P := by
  refine peek (f := fun next => if next = some .rightParen then Pure.pure a else m)
    (g := fun n next => if next = some .rightParen then Pure.pure a else m' n) fun next => .stay ?_
  split
  · exact pure ha
  · exact h

/-- What is read in a group. -/
theorem parens {m : Reading α} {m' : Nat → Reading α} {Q : β → Prop} (h : Traces (k + 3) w m m' P)
    (g : α → β) (hg : ∀ a, P a → Q (g a)) :
    Traces k (w + 2) (do expect .leftParen; let a ← m; expect .rightParen; Pure.pure (g a))
      (fun n => do expect .leftParen; let a ← m' n; expect .rightParen; Pure.pure (g a)) Q where
  ok {left rest b} hsound hm := by
    rcases expect_cases .leftParen left with ⟨t, inner, rfl, ht, hopen⟩ | ⟨f, hfault⟩
    case inr => rw [bind_apply, hfault] at hm; cases hm
    rw [bind_of_ok hopen, bind_apply] at hm
    split at hm
    case h_2 => cases hm
    next a mid hinner =>
    obtain ⟨ha, used, rfl, hw, hbalanced, hsame⟩ := h.ok hsound.tail hinner
    rcases expect_cases .rightParen mid with ⟨close, mid, rfl, hclose, hclosed⟩ | ⟨f, hfault⟩
    case inr => rw [bind_apply, hfault] at hm; cases hm
    rw [bind_of_ok hclosed] at hm
    obtain ⟨rfl, rfl⟩ := Prod.mk.inj (Except.ok.inj hm)
    refine ⟨hg a ha, t :: (used ++ [close]), by simp, by simp; omega, hbalanced.group ht hclose,
      fun used' rest' steps hahead hsteps => ?_⟩
    simp only [List.length_cons, List.length_append, List.length_nil] at hsteps
    obtain ⟨t', tail, rfl, ht', hahead⟩ := hahead.cons
    obtain ⟨inner', closing, rfl, hinner', hclosing⟩ := hahead.split
    obtain ⟨close', nothing, rfl, hclose', hnothing⟩ := hclosing.cons
    obtain rfl := List.map_eq_nil_iff.1 hnothing.used
    have hread := hsame inner' _ steps hinner' (by omega)
    rw [List.cons_append, List.append_assoc, bind_of_ok (expect_cons (ht'.trans ht) _), bind_of_ok hread]
    exact bind_of_ok (expect_cons (hclose'.trans hclose) rest')
  unsupported {left construct} hsound hm := by
    rcases expect_cases .leftParen left with ⟨t, inner, rfl, ht, hopen⟩ | ⟨f, hfault⟩
    case inr => rw [bind_apply, hfault] at hm; cases hm
    rw [bind_of_ok hopen, bind_apply] at hm
    split at hm
    · next a mid hinner =>
      -- after the group has been read nothing is unsupported any more
      rcases expect_cases .rightParen mid with ⟨close, rest, rfl, -, hclosed⟩ | ⟨f, hfault⟩
      · rw [bind_of_ok hclosed] at hm
        cases hm
      · rw [bind_apply, hfault] at hm
        cases hm
    · next e hinner =>
      obtain rfl := Except.error.inj hm
      obtain ⟨used, rest, rfl, hopen', hsame⟩ := h.unsupported hsound.tail hinner
      refine ⟨t :: used, rest, rfl, hopen'.leftParen ht, fun used' rest' steps hahead hsteps => ?_⟩
      rw [List.length_cons] at hsteps
      obtain ⟨t', tail, rfl, ht', hahead⟩ := hahead.cons
      rw [List.cons_append, bind_of_ok (expect_cons (ht'.trans ht) _), bind_apply,
        hsame tail rest' steps hahead (by omega)]

/-- Steps to spare do no harm. -/
theorem shift {m : Reading α} {m' : Nat → Reading α} (h : Traces k w m m' P) (spare : Nat) :
    Traces k w m (fun n => m' (n + spare)) P where
  ok hsound hm := by
    obtain ⟨ha, used, hused, hw, hbalanced, hsame⟩ := h.ok hsound hm
    exact ⟨ha, used, hused, hw, hbalanced, fun used' rest' steps hahead hsteps =>
      hsame used' rest' (steps + spare) hahead (by omega)⟩
  unsupported hsound hm := by
    obtain ⟨used, rest, hused, hopen, hsame⟩ := h.unsupported hsound hm
    exact ⟨used, rest, hused, hopen, fun used' rest' steps hahead hsteps =>
      hsame used' rest' (steps + spare) hahead (by omega)⟩

/-- Items up to the closing parenthesis. -/
theorem untilClosed {item : Reading α} {item' : Nat → Reading α} (h : Traces k 1 item item' P)
    (steps : Nat) :
    Traces (k + 1) 0 (FunctionalSyntax.untilClosed item steps)
      (fun n => FunctionalSyntax.untilClosed (item' n) n) (fun xs => ∀ x ∈ xs, P x) := by
  -- one step is used up for each item, whereas the items are read with all of them
  suffices hspare : ∀ spare, Traces (k + 1) 0 (FunctionalSyntax.untilClosed item steps)
      (fun n => FunctionalSyntax.untilClosed (item' (n + spare)) n) (fun xs => ∀ x ∈ xs, P x) from
    hspare 0
  induction steps with
  | zero => exact fun _ => fault _
  | succ steps ih =>
    intro spare
    have hrest := ih (spare + 1)
    have hitems := bind (v := 0)
      (g := fun n x => do
        let xs ← FunctionalSyntax.untilClosed (item' (n + (spare + 1))) n
        Pure.pure (x :: xs))
      (h.shift (spare + 1)) fun x hx =>
        (hrest.mono (j := k + 3) (by omega) (Nat.le_refl 0)).map (Q := fun xs => ∀ x ∈ xs, P x) (x :: ·)
          fun xs hxs => List.forall_mem_cons.2 ⟨hx, hxs⟩
    refine (ifClosed (a := []) (by simp) (hitems.mono (Nat.le_refl k) (Nat.zero_le _))).succ fun n => ?_
    rw [FunctionalSyntax.untilClosed, Nat.add_right_comm, Nat.add_assoc]

end Traces

end FixedDomain.FunctionalSyntax
