import Mathlib.Data.List.Nodup
import Mathlib.Tactic.Common
import Std.Data.String.ToNat
import FixedDomain.Naming

/-! # Symbols and entities

In a proper table no entity has two symbols, no symbol stands for two entities, and no symbol begins
with an underscore, which keeps such names free for predicates of the encoding. Every table is
proper, since a symbol that is given is always fresh (`entity?_freshSymbol`); so what a symbol was
given to can be read back, and goes on being read back as the table grows.
-/

namespace FixedDomain

/-! ## Characters of symbols -/

namespace NamingScheme

/-- A text that is not empty and does not begin with an underscore. -/
def Begins (symbol : String) : Prop := ∃ c cs, symbol.toList = c :: cs ∧ c ≠ '_'

theorem begins_marked (e : Entity) (name : List Char) : Begins (marked e name) := by
  refine ⟨kindLetter e, '_' :: name, by simp [marked], ?_⟩
  cases e <;> simp [kindLetter]

theorem toLower_ne_underscore {c : Char} (h : c.isAlpha = true) : c.toLower ≠ '_' := by
  intro hc
  unfold Char.toLower at hc
  split at hc
  · next hupper =>
    have hval := congrArg (fun c => c.val.toNat) hc
    simp only [ge_iff_le, UInt32.le_iff_toNat_le, Char.reduceVal, UInt32.toNat_add,
      UInt32.reduceToNat, UInt32.reduceSub] at hupper hval
    omega
  · subst hc
    exact absurd h (by decide)

theorem begins_plainSymbol (e : Entity) : Begins (plainSymbol e) := by
  unfold plainSymbol
  dsimp only
  split
  · exact begins_marked e _
  · next c cs _ =>
    split
    · next hc =>
      split
      · exact begins_marked e _
      · exact ⟨c.toLower, cs, by simp, toLower_ne_underscore hc⟩
    · exact begins_marked e _

theorem begins_symbol (s : NamingScheme) (e : Entity) : Begins (s.symbol e) := by
  cases s with
  | plain => exact begins_plainSymbol e
  | aspCore =>
    cases e with
    | atomicClass iri => exact begins_marked _ _
    | objectProperty iri => exact begins_marked _ _
    | individual iri => exact ⟨'"', _, String.toList_ofList, by decide⟩

end NamingScheme

namespace Naming

/-! ## Fresh symbols -/

theorem numbered_injective (base : String) : Function.Injective (numbered base) := by
  intro j k h
  have hlist := congrArg String.toList h
  simp only [numbered, String.toList_append, List.append_assoc] at hlist
  have hdigits := String.toList_inj.1 (List.append_cancel_left (List.append_cancel_left hlist))
  have := Nat.repr_injective hdigits
  omega

theorem numbered_ne (base : String) (k : Nat) : numbered base k ≠ base := by
  intro h
  have hlength := congrArg String.length h
  simp [numbered] at hlength
  have : "_".length = 1 := rfl
  omega

/-- The symbols that are tried are different from each other. -/
theorem nodup_candidates (base : String) (k : Nat) :
    (base :: (List.range k).map (numbered base)).Nodup := by
  refine List.nodup_cons.2 ⟨fun h => ?_, List.nodup_range.map (numbered_injective base)⟩
  obtain ⟨j, -, hj⟩ := List.mem_map.1 h
  exact numbered_ne base j hj

theorem entity?_eq_none_iff {n : Naming} {symbol : String} :
    n.entity? symbol = none ↔ symbol ∉ n.entries.map (·.2) := by
  simp [entity?]
  grind

/-- One of the symbols that are tried is free. -/
theorem exists_candidate (n : Naming) (base : String) :
    ∃ symbol ∈ base :: (List.range n.entries.length).map (numbered base),
      n.entity? symbol = none := by
  by_contra h
  have hsub : base :: (List.range n.entries.length).map (numbered base) ⊆ n.entries.map (·.2) := by
    intro symbol hs
    by_contra hfree
    exact h ⟨symbol, hs, entity?_eq_none_iff.2 hfree⟩
  -- there are more candidates than symbols given away
  have := (nodup_candidates base _).length_le_of_subset hsub
  simp only [List.length_cons, List.length_map, List.length_range] at this
  omega

theorem freshSymbol_spec (n : Naming) (base : String) :
    n.entity? (n.freshSymbol base) = none ∧
      n.freshSymbol base ∈ base :: (List.range n.entries.length).map (numbered base) := by
  obtain ⟨symbol, hs, hfree⟩ := exists_candidate n base
  unfold freshSymbol
  dsimp only
  cases hf : (base :: (List.range n.entries.length).map (numbered base)).find?
      fun symbol => (n.entity? symbol).isNone with
  | none =>
    have := List.find?_eq_none.1 hf symbol hs
    simp [hfree] at this
  | some found =>
    have := List.find?_some hf
    exact ⟨by simpa using this, by simpa using List.mem_of_find?_eq_some hf⟩

/-- A fresh symbol has not been given away. -/
theorem entity?_freshSymbol (n : Naming) (base : String) :
    n.entity? (n.freshSymbol base) = none := (freshSymbol_spec n base).1

theorem begins_freshSymbol (n : Naming) {base : String} (h : NamingScheme.Begins base) :
    NamingScheme.Begins (n.freshSymbol base) := by
  rcases List.mem_cons.1 (freshSymbol_spec n base).2 with hf | hf
  · rwa [hf]
  · obtain ⟨k, -, hk⟩ := List.mem_map.1 hf
    obtain ⟨c, cs, hbase, hc⟩ := h
    exact ⟨c, cs ++ ("_" ++ toString (k + 2)).toList,
      by simp [← hk, numbered, hbase], hc⟩

/-! ## Proper tables -/

/-- Entities and symbols belong to each other one to one, and no symbol begins with an
underscore. -/
structure Proper (n : Naming) : Prop where
  entities : (n.entries.map (·.1)).Nodup
  symbols : (n.entries.map (·.2)).Nodup
  begins : ∀ entry ∈ n.entries, NamingScheme.Begins entry.2

theorem proper_empty (scheme : NamingScheme) : (empty scheme).Proper :=
  ⟨.nil, .nil, fun _ h => nomatch h⟩

theorem symbol?_eq_some_iff {n : Naming} (h : n.Proper) {e : Entity} {symbol : String} :
    n.symbol? e = some symbol ↔ (e, symbol) ∈ n.entries := by
  have hnodup := h.entities
  unfold symbol?
  generalize n.entries = entries at hnodup ⊢
  induction entries with
  | nil => simp
  | cons first rest ih =>
    obtain ⟨e', symbol'⟩ := first
    rw [List.map_cons, List.nodup_cons] at hnodup
    by_cases he : e = e'
    · subst he
      have hnot : (e, symbol) ∉ rest := fun hm => hnodup.1 (List.mem_map.2 ⟨_, hm, rfl⟩)
      simp [List.lookup_cons_self, hnot, eq_comm]
    · have he' : (e == e') = false := by simpa using he
      simp only [List.lookup_cons, he', List.mem_cons, Prod.mk.injEq, he, false_and, false_or]
      exact ih hnodup.2

theorem entity?_eq_some_iff {n : Naming} (h : n.Proper) {e : Entity} {symbol : String} :
    n.entity? symbol = some e ↔ (e, symbol) ∈ n.entries := by
  have hnodup := h.symbols
  unfold entity?
  generalize n.entries = entries at hnodup ⊢
  induction entries with
  | nil => simp
  | cons first rest ih =>
    obtain ⟨e', symbol'⟩ := first
    rw [List.map_cons, List.nodup_cons] at hnodup
    by_cases hs : symbol' = symbol
    · subst hs
      have hnot : (e, symbol') ∉ rest := fun hm => hnodup.1 (List.mem_map.2 ⟨_, hm, rfl⟩)
      simp [hnot, eq_comm]
    · have hs' : (symbol' == symbol) = false := by simpa using hs
      simp only [List.find?_cons, hs', List.mem_cons, Prod.mk.injEq, Ne.symm hs, and_false,
        false_or]
      exact ih hnodup.2

theorem begins_of_entity? {n : Naming} (h : n.Proper) {e : Entity} {symbol : String}
    (hs : n.entity? symbol = some e) : NamingScheme.Begins symbol :=
  h.begins _ ((entity?_eq_some_iff h).1 hs)

/-- Giving an entity a symbol keeps the table proper; the entity is read back, and so is every
entity that had a symbol before. -/
theorem symbol_spec {n : Naming} (h : n.Proper) (e : Entity) :
    (n.symbol e).2.Proper ∧ (n.symbol e).2.entity? (n.symbol e).1 = some e ∧
      ∀ e' symbol, n.entity? symbol = some e' → (n.symbol e).2.entity? symbol = some e' := by
  unfold Naming.symbol
  cases hs : n.symbol? e with
  | some symbol =>
    exact ⟨h, (entity?_eq_some_iff h).2 ((symbol?_eq_some_iff h).1 hs), fun _ _ hold => hold⟩
  | none =>
    dsimp only
    have hfree := entity?_freshSymbol n (n.scheme.symbol e)
    have hnew : e ∉ n.entries.map (·.1) := by
      intro hmem
      obtain ⟨⟨e', symbol⟩, hm, rfl⟩ := List.mem_map.1 hmem
      rw [(symbol?_eq_some_iff h).2 hm] at hs
      cases hs
    have hproper : Proper { n with entries :=
        n.entries ++ [(e, n.freshSymbol (n.scheme.symbol e))] } := by
      refine ⟨?_, ?_, fun entry hentry => ?_⟩
      · simpa [List.nodup_append] using ⟨h.entities, fun a b hm ha => hnew (ha ▸ List.mem_map_of_mem hm)⟩
      · have := entity?_eq_none_iff.1 hfree
        simpa [List.nodup_append] using
          ⟨h.symbols, fun a b hm ha => this (ha ▸ List.mem_map_of_mem hm)⟩
      · rcases List.mem_append.1 hentry with hentry | hentry
        · exact h.begins entry hentry
        · obtain rfl := List.mem_singleton.1 hentry
          exact begins_freshSymbol n (NamingScheme.begins_symbol _ _)
    refine ⟨hproper, (entity?_eq_some_iff hproper).2 (by simp), fun e' symbol hold => ?_⟩
    exact (entity?_eq_some_iff hproper).2
      (List.mem_append_left _ ((entity?_eq_some_iff h).1 hold))

theorem symbol?_symbol (n : Naming) (e e' : Entity) :
    (n.symbol e).2.symbol? e' = if e' = e then some (n.symbol e).1 else n.symbol? e' := by
  unfold Naming.symbol
  cases hs : n.symbol? e with
  | some symbol =>
    dsimp only
    split
    · next he => rw [he, hs]
    · rfl
  | none =>
    unfold symbol? at hs ⊢
    dsimp only
    rw [List.lookup_append]
    split
    · next he => simp [he, hs]
    · next he =>
      have hne : (e' == e) = false := by simpa using he
      simp [List.lookup_cons, hne]

/-- What a symbol is read back as after an entity has been given one. -/
theorem entity?_symbol {n : Naming} (h : n.Proper) {e e' : Entity} {s : String}
    (hs : (n.symbol e).2.entity? s = some e') :
    n.entity? s = some e' ∨ e' = e ∧ s = (n.symbol e).1 := by
  have hproper := (symbol_spec h e).1
  rw [entity?_eq_some_iff hproper, ← symbol?_eq_some_iff hproper, symbol?_symbol] at hs
  split at hs
  · next he => exact .inr ⟨he, (Option.some.inj hs).symm⟩
  · exact .inl ((entity?_eq_some_iff h).2 ((symbol?_eq_some_iff h).1 hs))

end Naming

end FixedDomain
