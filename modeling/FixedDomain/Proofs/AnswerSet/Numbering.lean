import Mathlib.Data.Set.Card
import FixedDomain.Proofs.AnswerSet.Semantics
import FixedDomain.Proofs.AnswerSet.Stability

/-! # Normal programs and the rules they come from

A numbering gives each atom its own number (`Numbering.proper_ofList`), so what is derived over
numbers can be read as a set of atoms and back. Read that way, literals keep their meaning
(`holdsInReduct_numberLiteral`), the normal rules of a rule are the rules it is shifted to
(`normalRules_eq`), which derive the atoms that the rule supports (`Rule.exists_derivation_iff`), and
the normal program of some rules is numbered (`numbered_ofRules`).
-/

namespace FixedDomain

/-! ## Occurrences -/

theorem Literal.mem_atomsList {a : Atom} {ls : List Literal} :
    a ∈ Literal.atomsList ls ↔ ∃ l ∈ ls, a ∈ l.atoms := by
  induction ls with
  | nil => simp [Literal.atomsList]
  | cons l ls ih => simp [Literal.atomsList, ih]

theorem CountElement.atoms_eq (e : CountElement) : e.atoms = Literal.atomsList e.condition := by
  cases e
  simp [CountElement.atoms]

theorem CountElement.mem_atomsList {a : Atom} {es : List CountElement} :
    a ∈ CountElement.atomsList es ↔ ∃ e ∈ es, a ∈ Literal.atomsList e.condition := by
  induction es with
  | nil => simp [CountElement.atomsList]
  | cons e es ih => simp [CountElement.atomsList, CountElement.atoms_eq, ih]

theorem Literal.mem_atoms_count {a : Atom} {es : List CountElement} {op : Comparison}
    {bound : Nat} {e : CountElement} {l : Literal} (he : e ∈ es) (hl : l ∈ e.condition)
    (ha : a ∈ l.atoms) : a ∈ (Literal.count es op bound).atoms := by
  rw [Literal.atoms]
  exact CountElement.mem_atomsList.2 ⟨e, he, Literal.mem_atomsList.2 ⟨l, hl, ha⟩⟩

/-! ## Shifted rules -/

/-- An element with all the others is a rearrangement of the list. -/
theorem AnswerSet.perm_of_mem_eachWithOthers {α : Type} {xs : List α} {x : α} {others : List α}
    (h : (x, others) ∈ AnswerSet.eachWithOthers xs) : (x :: others).Perm xs := by
  induction xs generalizing x others with
  | nil => cases h
  | cons first rest ih =>
    simp only [AnswerSet.eachWithOthers, List.mem_cons, Prod.mk.injEq, List.mem_map, Prod.exists] at h
    rcases h with ⟨rfl, rfl⟩ | ⟨y, ys, hy, rfl, rfl⟩
    · exact .refl _
    · exact (List.Perm.swap first y ys).trans ((ih hy).cons first)

theorem AnswerSet.exists_mem_eachWithOthers {α : Type} {xs : List α} {x : α} (h : x ∈ xs) :
    ∃ others, (x, others) ∈ AnswerSet.eachWithOthers xs := by
  induction xs with
  | nil => cases h
  | cons first rest ih =>
    rcases List.mem_cons.1 h with rfl | h
    · exact ⟨rest, List.mem_cons_self⟩
    · obtain ⟨others, hothers⟩ := ih h
      exact ⟨first :: others, List.mem_cons_of_mem _ (List.mem_map.2 ⟨_, hothers, rfl⟩)⟩

theorem AnswerSet.mem_of_mem_eachWithOthers {α : Type} {xs : List α} {x : α} {others : List α}
    (h : (x, others) ∈ AnswerSet.eachWithOthers xs) : x ∈ xs ∧ ∀ y ∈ others, y ∈ xs := by
  have hperm := perm_of_mem_eachWithOthers h
  exact ⟨hperm.mem_iff.1 List.mem_cons_self, fun y hy => hperm.mem_iff.1 (List.mem_cons_of_mem x hy)⟩

/-- The single-headed rules that a rule is shifted to, before atoms are numbered: each head atom with
the body that derives it, where the other head atoms are denied. -/
def Rule.derivations (r : Rule) : List (Atom × List Literal) :=
  (AnswerSet.eachWithOthers r.head).map fun (a, others) => (a, r.body ++ others.map .not)

/-- What a rule is shifted to derives the atoms that the rule supports. -/
theorem Rule.exists_derivation_iff {r : Rule} {S D : Set Atom} {a : Atom} :
    (∃ body, (a, body) ∈ r.derivations ∧ BodyHolds S D body) ↔ r.Supports S D a := by
  have hdenied : ∀ others : List Atom, BodyHolds S D (others.map .not) ↔ ∀ b ∈ others, b ∉ S := by
    simp [BodyHolds, Literal.InReduct]
  constructor
  · rintro ⟨body, hder, hbody⟩
    obtain ⟨⟨b, others⟩, hmem, heq⟩ := List.mem_map.1 hder
    cases heq
    obtain ⟨hhead, hothers⟩ :=
      List.cons_perm_iff_perm_erase.1 (AnswerSet.perm_of_mem_eachWithOthers hmem)
    obtain ⟨hbody, hnot⟩ := bodyHolds_append.1 hbody
    exact ⟨hhead, hbody, fun b hb => (hdenied others).1 hnot b (hothers.mem_iff.2 hb)⟩
  · rintro ⟨hhead, hbody, hnot⟩
    obtain ⟨others, hmem⟩ := AnswerSet.exists_mem_eachWithOthers hhead
    obtain ⟨-, hothers⟩ :=
      List.cons_perm_iff_perm_erase.1 (AnswerSet.perm_of_mem_eachWithOthers hmem)
    refine ⟨r.body ++ others.map .not, List.mem_map.2 ⟨_, hmem, rfl⟩, bodyHolds_append.2 ⟨hbody, ?_⟩⟩
    exact (hdenied others).2 fun b hb => hnot b (hothers.mem_iff.1 hb)

namespace AnswerSet

/-! ## Numberings -/

namespace Numbering

/-- Each atom stands at its number, and every atom that stands somewhere has that number. -/
def Proper (n : Numbering) : Prop := ∀ a i, n.number? a = some i ↔ n.atoms[i]? = some a

theorem proper_empty : empty.Proper := by
  intro a i
  simp [empty, number?]

theorem number?_insert (n : Numbering) (a b : Atom) :
    (n.insert a).number? b =
      if n.number? a = none ∧ b = a then some n.atoms.size else n.number? b := by
  unfold Numbering.insert
  have hc : n.numbers.contains a = (n.number? a).isSome :=
    Std.HashMap.contains_eq_isSome_getElem?
  split
  · next h =>
    rw [if_neg]
    rintro ⟨hnone, -⟩
    simp [hc, hnone] at h
  · next h =>
    have hnone : n.number? a = none := by simpa [hc] using h
    have hget : (n.numbers.insert a n.atoms.size)[b]? =
        if a = b then some n.atoms.size else n.number? b := by
      simp [Std.HashMap.getElem?_insert, number?]
    rw [hnone, number?, hget]
    simp [eq_comm]

theorem atoms_insert (n : Numbering) (a : Atom) :
    (n.insert a).atoms = if n.number? a = none then n.atoms.push a else n.atoms := by
  have hc : n.numbers.contains a = (n.number? a).isSome :=
    Std.HashMap.contains_eq_isSome_getElem?
  unfold Numbering.insert
  cases h : n.number? a <;> simp [hc, h]

theorem Proper.insert {n : Numbering} (h : n.Proper) (a : Atom) : (n.insert a).Proper := by
  intro b i
  rw [number?_insert, atoms_insert]
  by_cases ha : n.number? a = none
  · -- the new atom stands at the end, and nowhere before
    have hnew : ∀ j : Nat, n.atoms[j]? ≠ some a := by
      intro j hj
      rw [(h a j).2 hj] at ha
      cases ha
    by_cases hb : b = a
    · subst hb
      simp only [ha, true_and, if_true, Array.getElem?_push, Option.some.injEq]
      grind
    · have hold := h b i
      simp only [ha, true_and, hb, if_false, if_true, hold, Array.getElem?_push]
      split
      · next hi =>
        subst hi
        simp [Ne.symm hb]
      · rfl
  · simpa [ha] using h b i

theorem proper_ofList (atoms : List Atom) : (ofList atoms).Proper := by
  suffices hfold : ∀ n : Numbering, n.Proper → (atoms.foldl Numbering.insert n).Proper from
    hfold _ proper_empty
  induction atoms with
  | nil => exact fun n hn => hn
  | cons a as ih => exact fun n hn => ih _ (hn.insert a)

/-- Exactly the listed atoms are numbered. -/
theorem number?_ofList_ne_none_iff {atoms : List Atom} {a : Atom} :
    (ofList atoms).number? a ≠ none ↔ a ∈ atoms := by
  suffices hfold : ∀ n : Numbering,
      (atoms.foldl Numbering.insert n).number? a ≠ none ↔ n.number? a ≠ none ∨ a ∈ atoms by
    have := hfold empty
    simpa [empty, number?, ofList] using this
  induction atoms with
  | nil => simp
  | cons b bs ih =>
    intro n
    rw [List.foldl_cons, ih, number?_insert, List.mem_cons]
    by_cases hb : n.number? b = none ∧ a = b
    · simp [hb]
    · rw [if_neg hb]
      by_cases hab : a = b
      · subst hab
        have : n.number? a ≠ none := fun hn => hb ⟨hn, rfl⟩
        simp [this]
      · simp [hab]

theorem number?_of_mem {atoms : List Atom} {a : Atom} (h : a ∈ atoms) :
    (ofList atoms).number? a = some ((ofList atoms).number a) := by
  obtain ⟨i, hi⟩ := Option.ne_none_iff_exists'.1 (number?_ofList_ne_none_iff.2 h)
  simp [number, hi]

/-- A listed atom stands at its number. -/
theorem getElem?_number {atoms : List Atom} {a : Atom} (h : a ∈ atoms) :
    (ofList atoms).atoms[(ofList atoms).number a]? = some a :=
  (proper_ofList atoms a _).1 (number?_of_mem h)

theorem number_lt {atoms : List Atom} {a : Atom} (h : a ∈ atoms) :
    (ofList atoms).number a < (ofList atoms).atoms.size :=
  (Array.getElem?_eq_some_iff.1 (getElem?_number h)).1

/-- What stands at a number is listed, and has that number. -/
theorem mem_and_number_of_getElem? {atoms : List Atom} {a : Atom} {i : Nat}
    (h : (ofList atoms).atoms[i]? = some a) : a ∈ atoms ∧ (ofList atoms).number a = i := by
  have hi := (proper_ofList atoms a i).2 h
  exact ⟨number?_ofList_ne_none_iff.1 (by simp [hi]), by simp [number, hi]⟩

end Numbering

/-! ## Groups of conditions -/

theorem mem_addCondition {terms ts : List String} {condition : Condition}
    {groups : List (List String × List Condition)} (hnodup : (groups.map (·.1)).Nodup)
    {c : Condition} :
    (∃ group, (ts, group) ∈ addCondition terms condition groups ∧ c ∈ group) ↔
      (ts = terms ∧ c = condition) ∨ ∃ group, (ts, group) ∈ groups ∧ c ∈ group := by
  induction groups with
  | nil => simp [addCondition]
  | cons first rest ih =>
    obtain ⟨key, group⟩ := first
    rw [List.map_cons, List.nodup_cons] at hnodup
    simp only [addCondition]
    split
    · next hk =>
      subst hk
      simp only [List.mem_cons, Prod.mk.injEq]
      grind
    · have := ih hnodup.2
      simp only [List.mem_cons, Prod.mk.injEq]
      grind

theorem keys_addCondition (terms : List String) (condition : Condition)
    (groups : List (List String × List Condition)) :
    (addCondition terms condition groups).map (·.1) =
      if terms ∈ groups.map (·.1) then groups.map (·.1) else groups.map (·.1) ++ [terms] := by
  induction groups with
  | nil => simp [addCondition]
  | cons first rest ih =>
    obtain ⟨key, group⟩ := first
    simp only [addCondition]
    split
    · next hk => simp [hk]
    · next hk =>
      have hk' : ¬ terms = key := fun h => hk h.symm
      simp only [List.map_cons, ih, List.mem_cons, hk', false_or]
      split <;> simp

theorem nodup_keys_addCondition {terms : List String} {condition : Condition}
    {groups : List (List String × List Condition)} (h : (groups.map (·.1)).Nodup) :
    ((addCondition terms condition groups).map (·.1)).Nodup := by
  rw [keys_addCondition]
  split
  · exact h
  · next hk =>
    refine List.nodup_append.2 ⟨h, List.nodup_singleton _, fun ts hts ts' hts' => ?_⟩
    rintro rfl
    exact hk (List.mem_singleton.1 hts' ▸ hts)

/-- Each tuple of terms has one group, with the conditions of the elements that have these
terms. -/
theorem exists_groups_eq (n : Numbering) (es : List CountElement) :
    ∃ groups : List (List String × List Condition),
      groupElements n es = groups.map (·.2) ∧ (groups.map (·.1)).Nodup ∧
      ∀ ts c, (∃ group, (ts, group) ∈ groups ∧ c ∈ group) ↔
        ∃ e ∈ es, ts = e.terms ∧ c = numberCondition n e.condition := by
  refine ⟨_, rfl, ?_⟩
  suffices hfold : ∀ start : List (List String × List Condition), (start.map (·.1)).Nodup →
      ((es.foldl (fun groups e =>
        addCondition e.terms (numberCondition n e.condition) groups) start).map (·.1)).Nodup ∧
      ∀ ts c, (∃ group, (ts, group) ∈ es.foldl (fun groups e =>
          addCondition e.terms (numberCondition n e.condition) groups) start ∧ c ∈ group) ↔
        (∃ group, (ts, group) ∈ start ∧ c ∈ group) ∨
        ∃ e ∈ es, ts = e.terms ∧ c = numberCondition n e.condition by
    simpa using hfold [] .nil
  induction es with
  | nil => simp
  | cons e es ih =>
    intro start hstart
    obtain ⟨hnodup, hmem⟩ := ih _ (nodup_keys_addCondition hstart)
    refine ⟨hnodup, fun ts c => ?_⟩
    rw [List.foldl_cons, hmem, mem_addCondition hstart, List.exists_mem_cons_iff]
    exact or_assoc.trans or_left_comm

/-- How many groups hold is how many tuples of terms have an element whose condition holds. -/
theorem countP_groupElements (n : Numbering) (es : List CountElement) (holds : Condition → Bool) :
    (groupElements n es).countP (fun group => group.any holds) =
      {ts | ∃ e ∈ es, e.terms = ts ∧ holds (numberCondition n e.condition) = true}.ncard := by
  obtain ⟨groups, hgroups, hnodup, hmem⟩ := exists_groups_eq n es
  let held := (groups.filter fun g => g.2.any holds).map (·.1)
  have hheld : held.Nodup := hnodup.sublist (List.filter_sublist.map _)
  have hset : {ts | ∃ e ∈ es, e.terms = ts ∧ holds (numberCondition n e.condition) = true} =
      held.toFinset := by
    ext ts
    simp only [Set.mem_ofPred_eq, List.coe_toFinset, held, List.mem_map, List.mem_filter,
      List.any_eq_true]
    constructor
    · rintro ⟨e, he, rfl, hh⟩
      obtain ⟨group, hg, hc⟩ := (hmem e.terms _).2 ⟨e, he, rfl, rfl⟩
      exact ⟨_, ⟨hg, _, hc, hh⟩, rfl⟩
    · rintro ⟨⟨ts, group⟩, ⟨hg, c, hc, hh⟩, rfl⟩
      obtain ⟨e, he, hts, rfl⟩ := (hmem ts c).1 ⟨group, hg, hc⟩
      exact ⟨e, he, hts.symm, hh⟩
  rw [hset, Set.ncard_coe_finset, List.toFinset_card_of_nodup hheld, hgroups, List.countP_map,
    List.countP_eq_length_filter, List.length_map]
  rfl

/-! ## Literals over numbers -/

section Literals

variable {n : Numbering} {b : Assignment} {d : Derived} {S D : Set Atom}

theorem conditionInReduct_numberCondition {gains : Bool} {condition : List Literal}
    (hcount : ∀ l ∈ condition, l.isCount = false)
    (hS : ∀ l ∈ condition, ∀ a ∈ l.atoms, b.get (n.number a) = .holds ↔ a ∈ S)
    (hD : ∀ l ∈ condition, ∀ a ∈ l.atoms, d.contains (n.number a) = true ↔ a ∈ D) :
    conditionInReduct b d gains (numberCondition n condition) = true ↔
      ∀ l ∈ condition, l.InCondition gains S D := by
  induction condition with
  | nil => simp [conditionInReduct, numberCondition]
  | cons l ls ih =>
    rw [List.forall_mem_cons] at hcount hS hD
    rw [List.forall_mem_cons, ← ih hcount.2 hS.2 hD.2]
    cases l with
    | pos a =>
      have hSa := hS.1 a (by simp [Literal.atoms])
      have hDa := hD.1 a (by simp [Literal.atoms])
      cases gains <;>
        simp [conditionInReduct, numberCondition, Literal.InCondition, hSa, hDa]
    | not a =>
      have hSa := hS.1 a (by simp [Literal.atoms])
      simp [conditionInReduct, numberCondition, Literal.InCondition, ← hSa]
    | count es op bound => simp [Literal.isCount] at hcount

/-- A literal over numbers holds if the literal does, when the atoms that hold and those derived
are read as sets. -/
theorem holdsInReduct_numberLiteral {l : Literal} (hnested : l.isNested = false)
    (hS : ∀ a ∈ l.atoms, b.get (n.number a) = .holds ↔ a ∈ S)
    (hD : ∀ a ∈ l.atoms, d.contains (n.number a) = true ↔ a ∈ D) :
    holdsInReduct b d (numberLiteral n l) = true ↔ l.InReduct S D := by
  cases l with
  | pos a => exact hD a (by simp [Literal.atoms])
  | not a =>
    have := hS a (by simp [Literal.atoms])
    simp [holdsInReduct, numberLiteral, Literal.InReduct, ← this]
  | count es op bound =>
    have hset : {ts | ∃ e ∈ es, e.terms = ts ∧
        conditionInReduct b d op.isMonotone (numberCondition n e.condition) = true} =
        counted (Literal.InCondition op.isMonotone S D) es := by
      ext ts
      refine exists_congr fun e => and_congr_right fun he => and_congr_right fun _ => ?_
      refine conditionInReduct_numberCondition (fun l hl => ?_)
        (fun l hl a ha => hS a (Literal.mem_atoms_count he hl ha))
        (fun l hl a ha => hD a (Literal.mem_atoms_count he hl ha))
      simp only [Literal.isNested, List.any_eq_false, List.any_eq_true, not_exists, not_and,
        Bool.not_eq_true] at hnested
      exact hnested e he l hl
    simp only [holdsInReduct, numberLiteral, Literal.InReduct]
    rw [countP_groupElements, hset]

end Literals

/-! ## Normal rules -/

theorem eachWithOthers_map {α β : Type} (f : α → β) (xs : List α) :
    eachWithOthers (xs.map f) =
      (eachWithOthers xs).map fun (x, others) => (f x, others.map f) := by
  induction xs with
  | nil => rfl
  | cons x xs ih => simp [eachWithOthers, ih, Function.comp_def]

/-- The normal rules of a rule are the rules it is shifted to; a constraint has one of its own. -/
theorem normalRules_eq (n : Numbering) (r : Rule) :
    normalRules n r = if r.head = [] then [⟨none, r.body.map (numberLiteral n)⟩] else
      r.derivations.map fun (a, body) => ⟨some (n.number a), body.map (numberLiteral n)⟩ := by
  unfold normalRules shift
  cases hh : r.head with
  | nil => rfl
  | cons a as =>
    rw [if_neg (List.cons_ne_nil a as), List.map_cons, ← List.map_cons, eachWithOthers_map]
    simp [Rule.derivations, hh, Function.comp_def, numberLiteral]

/-- The atoms of a derived rule are atoms of the rule. -/
theorem atoms_of_mem_derivations {r : Rule} {a : Atom} {body : List Literal}
    (h : (a, body) ∈ r.derivations) :
    a ∈ r.atoms ∧ ∀ l ∈ body, ∀ b ∈ l.atoms, b ∈ r.atoms := by
  obtain ⟨⟨a', others⟩, hmem, heq⟩ := List.mem_map.1 h
  cases heq
  obtain ⟨ha, hothers⟩ := mem_of_mem_eachWithOthers hmem
  refine ⟨List.mem_append_right _ ha, fun l hl b hb => ?_⟩
  rcases List.mem_append.1 hl with hl | hl
  · exact List.mem_append_left _ (Literal.mem_atomsList.2 ⟨l, hl, hb⟩)
  · obtain ⟨c, hc, rfl⟩ := List.mem_map.1 hl
    have hb : b = c := by simpa [Literal.atoms] using hb
    exact List.mem_append_right _ (hb ▸ hothers c hc)

theorem isNested_of_mem_derivations {r : Rule} (hr : ∀ l ∈ r.body, l.isNested = false) {a : Atom}
    {body : List Literal} (h : (a, body) ∈ r.derivations) : ∀ l ∈ body, l.isNested = false := by
  obtain ⟨⟨a', others⟩, -, heq⟩ := List.mem_map.1 h
  cases heq
  intro l hl
  rcases List.mem_append.1 hl with hl | hl
  · exact hr l hl
  · obtain ⟨c, -, rfl⟩ := List.mem_map.1 hl
    rfl

/-! ## Normal programs are numbered -/

theorem within_numberLiteral {atoms : List Atom} {l : Literal} (h : ∀ a ∈ l.atoms, a ∈ atoms) :
    (numberLiteral (.ofList atoms) l).Within (Numbering.ofList atoms).atoms.size := by
  cases l with
  | pos a => exact Numbering.number_lt (h a (by simp [Literal.atoms]))
  | not a => exact Numbering.number_lt (h a (by simp [Literal.atoms]))
  | count es op bound =>
    intro group hg condition hc q hq
    obtain ⟨groups, hgroups, -, hmem⟩ := exists_groups_eq (.ofList atoms) es
    rw [hgroups] at hg
    obtain ⟨⟨ts, group'⟩, hg', rfl⟩ := List.mem_map.1 hg
    obtain ⟨e, he, -, rfl⟩ := (hmem ts condition).1 ⟨_, hg', hc⟩
    obtain ⟨l, hl, hlq⟩ := List.mem_filterMap.1 hq
    have hatoms : ∀ a ∈ l.atoms, a ∈ atoms := fun a ha => h a (Literal.mem_atoms_count he hl ha)
    cases l with
    | pos a => cases hlq; exact Numbering.number_lt (hatoms a (by simp [Literal.atoms]))
    | not a => cases hlq; exact Numbering.number_lt (hatoms a (by simp [Literal.atoms]))
    | count es op bound => cases hlq

/-- The atoms of some rules, in the order of their occurrences. -/
abbrev occurrences (rules : List Rule) : List Atom := rules.flatMap Rule.atoms

theorem mem_occurrences {rules : List Rule} {r : Rule} (hr : r ∈ rules) {a : Atom}
    (ha : a ∈ r.atoms) : a ∈ occurrences rules :=
  List.mem_flatMap.2 ⟨r, hr, ha⟩

theorem mem_oppositeConstraints {n : Numbering} (hn : n.Proper) {r : NormalRule} :
    r ∈ oppositeConstraints n ↔ ∃ a i j, n.number? a = some i ∧ n.number? a.complement = some j ∧
      a.negated = false ∧ r = ⟨none, [.pos i, .pos j]⟩ := by
  simp only [oppositeConstraints, List.mem_filterMap, Array.mem_toList_iff]
  constructor
  · rintro ⟨a, ha, hr⟩
    split at hr
    · cases hr
    · next hneg =>
      obtain ⟨j, hj, rfl⟩ := Option.map_eq_some_iff.1 hr
      obtain ⟨i, hi, hai⟩ := Array.mem_iff_getElem.1 ha
      have hnum : n.number? a = some i := (hn a i).2 (by simp [hi, hai])
      exact ⟨a, i, j, hnum, hj, by simpa using hneg, by simp [Numbering.number, hnum]⟩
  · rintro ⟨a, i, j, hi, hj, hneg, rfl⟩
    refine ⟨a, Array.mem_of_getElem? ((hn a i).1 hi), ?_⟩
    simp [hneg, hj, Numbering.number, hi]

/-- The numbering of the atoms of some rules. -/
abbrev numberingOf (rules : List Rule) : Numbering := .ofList (occurrences rules)

/-- A normal program has the constraints of the rules, what the other rules are shifted to, and the
constraints on opposite atoms. -/
theorem mem_rules_ofRules {rules : List Rule} {r : NormalRule} :
    r ∈ (NormalProgram.ofRules rules).rules ↔
      (∃ r₀ ∈ rules, r₀.head = [] ∧
        r = ⟨none, r₀.body.map (numberLiteral (numberingOf rules))⟩) ∨
      (∃ r₀ ∈ rules, ∃ a body, (a, body) ∈ r₀.derivations ∧
        r = ⟨some ((numberingOf rules).number a), body.map (numberLiteral (numberingOf rules))⟩) ∨
      r ∈ oppositeConstraints (numberingOf rules) := by
  have hrules : (NormalProgram.ofRules rules).rules =
      rules.flatMap (normalRules (numberingOf rules)) ++ oppositeConstraints (numberingOf rules) :=
    rfl
  rw [hrules, List.mem_append, List.mem_flatMap, ← or_assoc]
  apply or_congr_left
  constructor
  · rintro ⟨r₀, hr₀, hr⟩
    rw [normalRules_eq] at hr
    split at hr
    · next hh => exact .inl ⟨r₀, hr₀, hh, List.mem_singleton.1 hr⟩
    · obtain ⟨⟨a, body⟩, hd, rfl⟩ := List.mem_map.1 hr
      exact .inr ⟨r₀, hr₀, a, body, hd, rfl⟩
  · rintro (⟨r₀, hr₀, hh, rfl⟩ | ⟨r₀, hr₀, a, body, hd, rfl⟩)
    · refine ⟨r₀, hr₀, ?_⟩
      rw [normalRules_eq, if_pos hh]
      exact List.mem_singleton.2 rfl
    · refine ⟨r₀, hr₀, ?_⟩
      have hh : r₀.head ≠ [] := fun hh => by simp [Rule.derivations, hh, eachWithOthers] at hd
      rw [normalRules_eq, if_neg hh]
      exact List.mem_map.2 ⟨_, hd, rfl⟩

/-- Every atom of a normal program is numbered, and has the bodies of the rules that derive it. -/
theorem numbered_ofRules (rules : List Rule) : (NormalProgram.ofRules rules).Numbered := by
  refine ⟨fun r hr => ?_, fun i hi => getElem?_collectSupports _ hi⟩
  have hsize : (NormalProgram.ofRules rules).atoms.size = (numberingOf rules).atoms.size := rfl
  have hbody : ∀ body : List Literal, (∀ l ∈ body, ∀ a ∈ l.atoms, a ∈ occurrences rules) →
      ∀ l ∈ body.map (numberLiteral (numberingOf rules)),
        l.Within (numberingOf rules).atoms.size := by
    intro body h l hl
    obtain ⟨l₀, hl₀, rfl⟩ := List.mem_map.1 hl
    exact within_numberLiteral (h l₀ hl₀)
  rw [hsize]
  rcases mem_rules_ofRules.1 hr with ⟨r₀, hr₀, -, rfl⟩ | ⟨r₀, hr₀, a, body, hd, rfl⟩ | hr
  · refine ⟨fun h hh => (nomatch hh), hbody _ fun l hl a ha => mem_occurrences hr₀ ?_⟩
    exact List.mem_append_left _ (Literal.mem_atomsList.2 ⟨l, hl, ha⟩)
  · obtain ⟨ha, hatoms⟩ := atoms_of_mem_derivations hd
    refine ⟨fun h hh => ?_, hbody _ fun l hl b hb => mem_occurrences hr₀ (hatoms l hl b hb)⟩
    cases hh
    exact Numbering.number_lt (mem_occurrences hr₀ ha)
  · have hproper := Numbering.proper_ofList (occurrences rules)
    obtain ⟨a, i, j, hi, hj, -, rfl⟩ := (mem_oppositeConstraints hproper).1 hr
    have hlt : ∀ {c k}, (numberingOf rules).number? c = some k →
        k < (numberingOf rules).atoms.size := fun h =>
      (Array.getElem?_eq_some_iff.1 ((hproper _ _).1 h)).1
    refine ⟨fun h hh => (nomatch hh), fun l hl => ?_⟩
    rcases List.mem_cons.1 hl with rfl | hl
    · exact hlt hi
    · obtain rfl := List.mem_singleton.1 hl
      exact hlt hj

end AnswerSet

end FixedDomain
