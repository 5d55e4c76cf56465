import Mathlib
import FixedDomain.Grounding.Context
import FixedDomain.Program.Atom
import FixedDomain.Proofs.Grounding.Program

/-! # Symbols in programs

* `NamingScheme.IsSymbolFor` — the form of the symbols of a scheme: identifiers, and in the manner of
  ASP-Core a string constant for each individual.
* `Naming.Faithful` — a table has symbols for the entities that it was asked for, one for each, and reads
  exactly these back.
* `Naming.Event` — tables are asked and copied, in any order.

However tables are used, they are faithful, and a symbol that has been given is kept by its table and by
the copies of it (`tables_faithful`).
-/

namespace FixedDomain

/-! ## The form of symbols -/

namespace NamingScheme

/-- A lower-case letter followed by letters, digits and underscores. -/
def IsIdentifier (symbol : String) : Prop :=
  ∃ c cs, symbol.toList = c :: cs ∧ c.isLower = true ∧ ∀ d ∈ cs, isSymbolChar d = true

/-- How a text is written between quotes: each backslash and each quote stands behind a backslash, and
there are no other backslashes. -/
inductive Quotes : List Char → List Char → Prop
  | nil : Quotes [] []
  | plain {c : Char} {written text : List Char} (hbackslash : c ≠ '\\') (hquote : c ≠ '"')
    (h : Quotes written text) : Quotes (c :: written) (c :: text)
  | covered {c : Char} {written text : List Char} (hc : c = '\\' ∨ c = '"')
    (h : Quotes written text) : Quotes ('\\' :: c :: written) (c :: text)

/-- A text between quotes. -/
def IsStringConstant (symbol text : String) : Prop :=
  ∃ written, symbol.toList = '"' :: (written ++ ['"']) ∧ Quotes written text.toList

/-- The form of the symbol for an entity. In the manner of ASP-Core, individuals have their names as string
constants, and identifiers show whether they are those of classes or of object properties. -/
def IsSymbolFor : NamingScheme → Entity → String → Prop
  | plain, _, symbol => IsIdentifier symbol ∧ symbol ≠ "not"
  | aspCore, .individual iri, symbol => IsStringConstant symbol iri.text
  | aspCore, .atomicClass _, symbol => IsIdentifier symbol ∧ ['c', '_'] <+: symbol.toList
  | aspCore, .objectProperty _, symbol => IsIdentifier symbol ∧ ['r', '_'] <+: symbol.toList

/-! ### Identifiers -/

theorem isSymbolChar_of_mem_sanitize {name : String} {c : Char} (h : c ∈ sanitize name) :
    isSymbolChar c = true := by
  obtain ⟨d, -, rfl⟩ := List.mem_map.1 h
  split
  · assumption
  · rfl

theorem isSymbolChar_of_mem_toString {n : Nat} {c : Char} (h : c ∈ (toString n).toList) :
    isSymbolChar c = true := by
  rw [Nat.toString_eq_repr, Nat.toList_repr] at h
  have hdigit := Nat.isDigit_of_mem_toDigits (by decide) (by decide) h
  simp [isSymbolChar, Char.isAlphanum, hdigit]

theorem isSymbolChar_of_isLower {c : Char} (h : c.isLower = true) : isSymbolChar c = true := by
  simp [isSymbolChar, Char.isAlphanum, Char.isAlpha, h]

theorem isIdentifier_marked (e : Entity) {name : List Char}
    (h : ∀ c ∈ name, isSymbolChar c = true) : IsIdentifier (marked e name) := by
  refine ⟨kindLetter e, '_' :: name, String.toList_ofList, ?_, ?_⟩
  · cases e <;> rfl
  · exact List.forall_mem_cons.2 ⟨rfl, h⟩

theorem marked_ne_not (e : Entity) (name : List Char) : marked e name ≠ "not" := by
  intro h
  have hlist : kindLetter e :: '_' :: name = ['n', 'o', 't'] :=
    String.toList_ofList.symm.trans (congrArg String.toList h)
  simp at hlist

theorem IsIdentifier.append {symbol : String} (h : IsIdentifier symbol) {suffix : String}
    (hs : ∀ c ∈ suffix.toList, isSymbolChar c = true) : IsIdentifier (symbol ++ suffix) := by
  obtain ⟨c, cs, hsymbol, hc, hcs⟩ := h
  refine ⟨c, cs ++ suffix.toList, by simp [hsymbol], hc, ?_⟩
  exact List.forall_mem_append.2 ⟨hcs, hs⟩

theorem isIdentifier_plainSymbol (e : Entity) : IsIdentifier (plainSymbol e) := by
  have hname : ∀ c ∈ (sanitize e.iri.localName).dropWhile (· == '_'), isSymbolChar c = true :=
    fun c hc => isSymbolChar_of_mem_sanitize ((List.dropWhile_sublist _).subset hc)
  unfold plainSymbol
  dsimp only
  split
  · exact isIdentifier_marked e (by simp)
  · next c cs heq =>
    rw [heq] at hname
    obtain ⟨-, hcs⟩ := List.forall_mem_cons.1 hname
    split
    · next hc =>
      have hlower := (Char.isLower_toLower_eq_isAlpha c).trans hc
      split
      · exact isIdentifier_marked e (List.forall_mem_cons.2 ⟨isSymbolChar_of_isLower hlower, hcs⟩)
      · exact ⟨c.toLower, cs, String.toList_ofList, hlower, hcs⟩
    · exact isIdentifier_marked e (heq ▸ hname)

theorem plainSymbol_ne_not (e : Entity) : plainSymbol e ≠ "not" := by
  unfold plainSymbol
  dsimp only
  split
  · exact marked_ne_not e _
  · split
    · split
      · exact marked_ne_not e _
      · next hnot => exact fun h => hnot (by rw [← String.toList_ofList (l := _ :: _), h]; rfl)
    · exact marked_ne_not e _

/-! ### String constants -/

/-- What is written is read in one way. -/
theorem Quotes.text_unique {written text text' : List Char} (h : Quotes written text)
    (h' : Quotes written text') : text = text' := by
  induction h generalizing text' with
  | nil => cases h'; rfl
  | plain hbackslash _ _ ih =>
    cases h' with
    | plain _ _ h' => rw [ih h']
    | covered _ _ => exact absurd rfl hbackslash
  | covered _ _ ih =>
    cases h' with
    | plain hbackslash _ _ => exact absurd rfl hbackslash
    | covered _ h' => rw [ih h']

theorem quotes_flatMap (text : List Char) :
    Quotes (text.flatMap fun c =>
      if c = '\\' then ['\\', '\\'] else if c = '"' then ['\\', '"'] else [c]) text := by
  induction text with
  | nil => exact .nil
  | cons c text ih =>
    rw [List.flatMap_cons]
    split
    · next hc =>
      subst hc
      exact .covered (.inl rfl) ih
    · next hbackslash =>
      split
      · next hc =>
        subst hc
        exact .covered (.inr rfl) ih
      · next hquote => exact .plain hbackslash hquote ih

theorem isStringConstant_stringConstant (text : String) :
    IsStringConstant (stringConstant text) text :=
  ⟨_, String.toList_ofList, quotes_flatMap text.toList⟩

theorem IsStringConstant.text_unique {symbol text text' : String} (h : IsStringConstant symbol text)
    (h' : IsStringConstant symbol text') : text = text' := by
  obtain ⟨written, hsymbol, hquotes⟩ := h
  obtain ⟨written', hsymbol', hquotes'⟩ := h'
  have hwritten : written = written' := by
    have := hsymbol.symm.trans hsymbol'
    simpa using this
  subst hwritten
  exact String.toList_inj.1 (hquotes.text_unique hquotes')

/-! ### Symbols of schemes -/

theorem isSymbolFor_symbol (scheme : NamingScheme) (e : Entity) :
    scheme.IsSymbolFor e (scheme.symbol e) := by
  cases scheme with
  | plain => exact ⟨isIdentifier_plainSymbol e, plainSymbol_ne_not e⟩
  | aspCore =>
    cases e with
    | individual iri => exact isStringConstant_stringConstant iri.text
    | _ =>
      refine ⟨isIdentifier_marked _ fun c => isSymbolChar_of_mem_sanitize, ?_⟩
      simp [symbol, aspCoreSymbol, marked, kindLetter]

/-! ### Symbols as arguments -/

theorem splitFrom_outside {cs : List Char} (h : ∀ c ∈ cs, isSymbolChar c = true) (term : List Char) :
    Atom.splitFrom .outside 0 term cs = [term.reverse ++ cs] := by
  induction cs generalizing term with
  | nil => simp [Atom.splitFrom]
  | cons c cs ih =>
    obtain ⟨hc, hcs⟩ := List.forall_mem_cons.1 h
    have hne : ∀ d : Char, isSymbolChar d = false → c ≠ d := by
      rintro d hd rfl
      simp [hd] at hc
    simp [Atom.splitFrom, hne '"' rfl, hne '(' rfl, hne ')' rfl, hne ',' rfl, ih hcs]

theorem splitFrom_inside {written text : List Char} (h : Quotes written text) (depth : Nat)
    (term rest : List Char) : Atom.splitFrom .inside depth term (written ++ rest) =
      Atom.splitFrom .inside depth (written.reverse ++ term) rest := by
  induction h generalizing term with
  | nil => rfl
  | plain hbackslash hquote _ ih => simp [Atom.splitFrom, hbackslash, hquote, ih]
  | covered _ _ ih => simp [Atom.splitFrom, ih]

theorem IsStringConstant.splitArguments {symbol text : String} (h : IsStringConstant symbol text) :
    Atom.splitArguments symbol.toList = [symbol] := by
  obtain ⟨written, hsymbol, hquotes⟩ := h
  have hsplit : Atom.splitFrom .outside 0 [] ('"' :: (written ++ ['"'])) =
      ['"' :: (written ++ ['"'])] := by
    simp [Atom.splitFrom, splitFrom_inside hquotes]
  rw [Atom.splitArguments, hsymbol, if_neg (by simp), hsplit, List.map_singleton, ← hsymbol,
    String.ofList_toList]

theorem IsIdentifier.splitArguments {symbol : String} (h : IsIdentifier symbol) :
    Atom.splitArguments symbol.toList = [symbol] := by
  obtain ⟨c, cs, hsymbol, hc, hcs⟩ := h
  have hchars : ∀ d ∈ c :: cs, isSymbolChar d = true :=
    List.forall_mem_cons.2 ⟨isSymbolChar_of_isLower hc, hcs⟩
  rw [Atom.splitArguments, hsymbol, if_neg (by simp), splitFrom_outside hchars, List.map_singleton,
    List.reverse_nil, List.nil_append, ← hsymbol, String.ofList_toList]

/-- A symbol among the arguments of an atom is one argument. -/
theorem IsSymbolFor.splitArguments {scheme : NamingScheme} {e : Entity} {symbol : String}
    (h : scheme.IsSymbolFor e symbol) : Atom.splitArguments symbol.toList = [symbol] := by
  cases scheme with
  | plain => exact h.1.splitArguments
  | aspCore =>
    cases e with
    | individual iri => exact IsStringConstant.splitArguments h
    | _ => exact h.1.splitArguments

end NamingScheme

namespace Naming

open NamingScheme

/-! ## Tables -/

/-- All symbols have the form that the scheme asks for. -/
def Formed (n : Naming) : Prop := ∀ entry ∈ n.entries, n.scheme.IsSymbolFor entry.1 entry.2

theorem isSymbolChar_of_mem_suffix {k : Nat} {c : Char} (h : c ∈ ("_" ++ toString k).toList) :
    isSymbolChar c = true := by
  rw [String.toList_append] at h
  rcases List.mem_append.1 h with h | h
  · rw [List.mem_singleton.1 h]
    rfl
  · exact isSymbolChar_of_mem_toString h

theorem numbered_eq (base : String) (k : Nat) : numbered base k = base ++ ("_" ++ toString (k + 2)) :=
  String.append_assoc ..

theorem numbered_ne_not (base : String) (k : Nat) : numbered base k ≠ "not" := by
  intro h
  have hmem : '_' ∈ "not".toList := by
    rw [← h]
    simp [numbered]
  exact absurd hmem (by decide)

/-- Where individuals have string constants, these are free until they are given to them. -/
theorem freshSymbol_stringConstant {n : Naming} (hn : n.Proper) (hformed : n.Formed)
    (hscheme : n.scheme = .aspCore) {iri : Iri} (hnew : n.symbol? (.individual iri) = none) :
    n.freshSymbol (stringConstant iri.text) = stringConstant iri.text := by
  have hfree : n.entity? (stringConstant iri.text) = none := by
    cases hs : n.entity? (stringConstant iri.text) with
    | none => rfl
    | some e =>
      have hmem := (entity?_eq_some_iff hn).1 hs
      have hform := hformed _ hmem
      rw [hscheme] at hform
      cases e with
      | individual iri' =>
        obtain rfl : iri' = iri := by
          have := hform.text_unique (isStringConstant_stringConstant iri.text)
          cases iri'; cases iri; simpa using this
        rw [(symbol?_eq_some_iff hn).2 hmem] at hnew
        cases hnew
      | _ =>
        -- no marked name begins with a quote
        simpa [stringConstant] using hform.2
  simp [freshSymbol, hfree]

theorem isSymbolFor_freshSymbol {n : Naming} (hn : n.Proper) (hformed : n.Formed) {e : Entity}
    (hnew : n.symbol? e = none) : n.scheme.IsSymbolFor e (n.freshSymbol (n.scheme.symbol e)) := by
  have hform := isSymbolFor_symbol n.scheme e
  have hcandidate := (freshSymbol_spec n (n.scheme.symbol e)).2
  rcases List.mem_cons.1 hcandidate with heq | hnumbered
  · rwa [heq]
  obtain ⟨k, -, hk⟩ := List.mem_map.1 hnumbered
  cases hscheme : n.scheme with
  | plain =>
    rw [hscheme] at hform hk
    rw [← hk]
    refine ⟨?_, numbered_ne_not _ k⟩
    rw [numbered_eq]
    exact hform.1.append fun c => isSymbolChar_of_mem_suffix
  | aspCore =>
    cases e with
    | individual iri =>
      rw [show NamingScheme.aspCore.symbol (.individual iri) = stringConstant iri.text from rfl,
        freshSymbol_stringConstant hn hformed hscheme hnew]
      exact isStringConstant_stringConstant iri.text
    | _ =>
      rw [hscheme] at hform hk
      rw [← hk, numbered_eq]
      refine ⟨hform.1.append fun c => isSymbolChar_of_mem_suffix, ?_⟩
      rw [String.toList_append]
      exact hform.2.trans (List.prefix_append ..)

theorem formed_symbol {n : Naming} (hn : n.Proper) (h : n.Formed) (e : Entity) :
    (n.symbol e).2.Formed := by
  unfold Naming.symbol
  cases hs : n.symbol? e with
  | some symbol => exact h
  | none =>
    refine List.forall_mem_append.2 ⟨h, ?_⟩
    simpa using isSymbolFor_freshSymbol hn h hs

theorem scheme_symbol (n : Naming) (e : Entity) : (n.symbol e).2.scheme = n.scheme := by
  unfold Naming.symbol
  cases n.symbol? e <;> rfl

theorem symbol_of_symbol? {n : Naming} {e : Entity} {s : String} (h : n.symbol? e = some s) :
    n.symbol e = (s, n) := by
  rw [Naming.symbol, h]

theorem symbol?_of_symbol? {n : Naming} {e : Entity} {s : String} (h : n.symbol? e = some s)
    (e' : Entity) : (n.symbol e').2.symbol? e = some s := by
  by_cases he : e = e'
  · rw [← he, symbol_of_symbol? h, h]
  · rw [symbol?_symbol, if_neg he, h]

/-- A table has symbols for some entities, which are different from each other and from the predicates of
the encoding, have the form that the scheme asks for, and are all that is read back. Asking for a symbol
gives one, which is the same ever after. -/
structure Faithful (scheme : NamingScheme) (asked : List Entity) (n : Naming) : Prop where
  registered : ∀ e, e ∈ asked ↔ ∃ s, n.symbol? e = some s
  readBack : ∀ e s, n.entity? s = some e ↔ n.symbol? e = some s
  distinct : ∀ e e' s, n.symbol? e = some s → n.symbol? e' = some s → e = e'
  form : ∀ e s, n.symbol? e = some s → scheme.IsSymbolFor e s
  single : ∀ e s, n.symbol? e = some s → Atom.splitArguments s.toList = [s]
  reserved : ∀ e s, n.symbol? e = some s →
    ∀ k, s ≠ (activationAtom k).predicate ∧ s ≠ auxName k ∧ s ≠ queryName k
  given : ∀ e, (n.symbol e).2.symbol? e = some (n.symbol e).1
  again : ∀ e s, n.symbol? e = some s → n.symbol e = (s, n)

/-- What is known of tables in use. -/
structure InUse (scheme : NamingScheme) (asked : List Entity) (n : Naming) : Prop where
  proper : n.Proper
  formed : n.Formed
  scheme : n.scheme = scheme
  registered : ∀ e, e ∈ asked ↔ ∃ s, n.symbol? e = some s

theorem InUse.faithful {scheme : NamingScheme} {asked : List Entity} {n : Naming}
    (h : n.InUse scheme asked) : n.Faithful scheme asked where
  registered := h.registered
  readBack e s := (entity?_eq_some_iff h.proper).trans (symbol?_eq_some_iff h.proper).symm
  distinct e e' s hs hs' := by
    have he := (entity?_eq_some_iff h.proper).2 ((symbol?_eq_some_iff h.proper).1 hs)
    have he' := (entity?_eq_some_iff h.proper).2 ((symbol?_eq_some_iff h.proper).1 hs')
    exact Option.some.inj (he.symm.trans he')
  form e s hs := h.scheme ▸ h.formed _ ((symbol?_eq_some_iff h.proper).1 hs)
  single e s hs := (h.formed _ ((symbol?_eq_some_iff h.proper).1 hs)).splitArguments
  reserved e s hs k := by
    have hbegins := h.proper.begins _ ((symbol?_eq_some_iff h.proper).1 hs)
    exact ⟨fun heq => (IsSwitch.activation k).not_begins (heq ▸ hbegins),
      fun heq => not_begins_auxName k (heq ▸ hbegins),
      fun heq => (IsSwitch.query k).not_begins (heq ▸ hbegins)⟩
  given e := by rw [symbol?_symbol, if_pos rfl]
  again _ _ := symbol_of_symbol?

theorem inUse_empty (scheme : NamingScheme) : (empty scheme).InUse scheme [] :=
  ⟨proper_empty scheme, nofun, rfl, fun e => by simp [symbol?, empty]⟩

theorem InUse.ask {scheme : NamingScheme} {asked : List Entity} {n : Naming}
    (h : n.InUse scheme asked) (e : Entity) : (n.symbol e).2.InUse scheme (e :: asked) where
  proper := (symbol_spec h.proper e).1
  formed := formed_symbol h.proper h.formed e
  scheme := (scheme_symbol n e).trans h.scheme
  registered e' := by
    rw [List.mem_cons, symbol?_symbol, h.registered e']
    by_cases he : e' = e <;> simp [he]

/-! ## Use of tables -/

/-- The table in which an entity has its symbol. -/
def answer (e : Entity) (n : Naming) : Naming := (n.symbol e).2

/-- What is done with some tables: one of them is asked for the symbol of an entity, or is copied. -/
inductive Event where
  | ask (k : Nat) (e : Entity)
  | copy (k : Nat)

/-- What an event makes of values that stand for the tables, by what a question makes of one. -/
def Event.apply {α : Type} (ask : Entity → α → α) (values : List α) : Event → List α
  | .ask k e => values.modify k (ask e)
  | .copy k => values ++ values[k]?.toList

/-- The tables that one without symbols has become. -/
def tables (scheme : NamingScheme) (events : List Event) : List Naming :=
  events.foldl (Event.apply answer) [empty scheme]

/-- The entities that each table has been asked for, also before it was copied. -/
def asked (events : List Event) : List (List Entity) :=
  events.foldl (Event.apply List.cons) [[]]

section Events

variable {α β : Type}

theorem forall₂_modify {R : α → β → Prop} {f : α → α} {g : β → β}
    (hR : ∀ a b, R a b → R (f a) (g b)) {as : List α} {bs : List β} (h : List.Forall₂ R as bs) (k : Nat) :
    List.Forall₂ R (as.modify k f) (bs.modify k g) := by
  induction h generalizing k with
  | nil => simp
  | cons hab htail ih =>
    cases k with
    | zero => exact .cons (hR _ _ hab) htail
    | succ k => exact .cons hab (ih k)

theorem forall₂_toList_getElem? {R : α → β → Prop} {as : List α} {bs : List β}
    (h : List.Forall₂ R as bs) (k : Nat) : List.Forall₂ R as[k]?.toList bs[k]?.toList := by
  induction h generalizing k with
  | nil => exact .nil
  | cons hab _ ih =>
    cases k with
    | zero => exact .cons hab .nil
    | succ k => simpa using ih k

/-- What stands for tables in two ways goes on doing so. -/
theorem forall₂_apply {R : α → β → Prop} {f : Entity → α → α} {g : Entity → β → β}
    (hR : ∀ e a b, R a b → R (f e a) (g e b)) {as : List α} {bs : List β} (h : List.Forall₂ R as bs)
    (event : Event) : List.Forall₂ R (event.apply f as) (event.apply g bs) := by
  cases event with
  | ask k e => exact forall₂_modify (hR e) h k
  | copy k => exact List.rel_append h (forall₂_toList_getElem? h k)

theorem getElem?_apply {f : Entity → α → α} {values : List α} {k : Nat} {a : α}
    (h : values[k]? = some a) (event : Event) :
    (event.apply f values)[k]? = some a ∨
      ∃ e, event = .ask k e ∧ (event.apply f values)[k]? = some (f e a) := by
  cases event with
  | ask j e =>
    rw [Event.apply, List.getElem?_modify, h]
    by_cases hj : j = k
    · exact .inr ⟨e, hj ▸ rfl, by simp [hj]⟩
    · exact .inl (by simp [hj])
  | copy j => exact .inl ((List.getElem?_append_left (List.getElem?_eq_some_iff.1 h).1).trans h)

/-- What is kept by every question is kept by every run. Without a question nothing changes. -/
theorem exists_getElem?_foldl {f : Entity → α → α} {P : α → Prop} (hP : ∀ e a, P a → P (f e a))
    {values : List α} {k : Nat} {a : α} (h : values[k]? = some a) (ha : P a) (events : List Event) :
    ∃ a', (events.foldl (Event.apply f) values)[k]? = some a' ∧ P a' ∧
      ((∀ e, .ask k e ∉ events) → a' = a) := by
  induction events generalizing values a with
  | nil => exact ⟨a, h, ha, fun _ => rfl⟩
  | cons event events ih =>
    rcases getElem?_apply h event with hsame | ⟨e, rfl, hasked⟩
    · obtain ⟨a', ha', hP', hunasked⟩ := ih hsame ha
      exact ⟨a', ha', hP', fun hnone => hunasked fun e he => hnone e (List.mem_cons_of_mem _ he)⟩
    · obtain ⟨a', ha', hP', -⟩ := ih hasked (hP e a ha)
      exact ⟨a', ha', hP', fun hnone => absurd List.mem_cons_self (hnone e)⟩

end Events

/-- After some events a place holds a table with all symbols of an earlier one, or this table itself
unless it has been asked. -/
def Keeps (n : Naming) (k : Nat) (more : List Event) (after : List Naming) : Prop :=
  ∃ n', after[k]? = some n' ∧ (∀ e s, n.symbol? e = some s → n'.symbol? e = some s) ∧
    ((∀ e, .ask k e ∉ more) → n' = n)

theorem keeps_foldl {values : List Naming} {k : Nat} {n : Naming} (h : values[k]? = some n)
    (more : List Event) : n.Keeps k more (more.foldl (Event.apply answer) values) := by
  have hkept : ∀ e n', (∀ e' s, n.symbol? e' = some s → n'.symbol? e' = some s) →
      ∀ e' s, n.symbol? e' = some s → (answer e n').symbol? e' = some s :=
    fun e n' hn' e' s hs => symbol?_of_symbol? (hn' e' s hs) e
  exact exists_getElem?_foldl hkept h (fun _ _ hs => hs) more

theorem tables_append (scheme : NamingScheme) (events more : List Event) :
    tables scheme (events ++ more) = more.foldl (Event.apply answer) (tables scheme events) :=
  List.foldl_append

theorem inUse_tables (scheme : NamingScheme) (events : List Event) :
    List.Forall₂ (InUse scheme) (asked events) (tables scheme events) := by
  unfold asked tables
  have hfirst : List.Forall₂ (InUse scheme) [[]] [empty scheme] := .cons (inUse_empty scheme) .nil
  revert hfirst
  generalize ([[]] : List (List Entity)) = as, [empty scheme] = ns
  intro h
  induction events generalizing as ns with
  | nil => exact h
  | cons event events ih => exact ih _ _ (forall₂_apply (fun e _ _ h => h.ask e) h event)

/-- However tables are asked and copied, each has symbols for exactly the entities that it was asked for,
and reads exactly these back. Its symbols are kept, by itself and by every copy, and what happens to other
tables does not change it. -/
theorem tables_faithful (scheme : NamingScheme) (events : List Event) :
    List.Forall₂ (Faithful scheme) (asked events) (tables scheme events) ∧
    ∀ k (n : Naming), (tables scheme events)[k]? = some n → ∀ more,
      n.Keeps k more (tables scheme (events ++ more)) ∧
      n.Keeps (tables scheme events).length more (tables scheme (events ++ .copy k :: more)) := by
  refine ⟨(inUse_tables scheme events).imp fun _ _ h => h.faithful, fun k n hn more => ⟨?_, ?_⟩⟩
  · rw [tables_append]
    exact keeps_foldl hn more
  · rw [tables_append, List.foldl_cons]
    exact keeps_foldl (by simp [Event.apply, hn]) more

end Naming

end FixedDomain
