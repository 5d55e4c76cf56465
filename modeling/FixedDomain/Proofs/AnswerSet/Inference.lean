import Mathlib.Logic.Relation
import FixedDomain.Proofs.AnswerSet.Numbering
import FixedDomain.Proofs.AnswerSet.Search

/-! # Inferences

Propagation overwrites one assignment over and over, so that each inference starts from what the
ones before it have left, in the same pass or in an earlier one.

* `Infers`, `Contradicts` — one inference, and an assignment from which one cannot be made.
* `Passes` — passes over a program until one of them fails or changes nothing.
* `Accepted` — every rule is satisfied, and every atom that holds is the head of a rule whose body
  holds.
* `propagate_inferences` — propagation ends, only makes inferences, which change nothing that is
  settled and lose no answer, and lets exactly the accepted total assignments through.
-/

namespace FixedDomain.AnswerSet

open Relation (ReflTransGen)

/-! ## Inferences -/

/-- One inference: what a rule, or what the bodies that derive an atom say about an assignment. -/
inductive Infers (p : NormalProgram) : Assignment → Assignment → Prop
  | rule {a b : Assignment} {r : NormalRule} (hr : r ∈ p.rules) (h : ruleStep a r = some b) :
    Infers p a b
  | support {a b : Assignment} {i : Nat} (hi : i < p.atoms.size) (h : supportStep p a i = some b) :
    Infers p a b

/-- A rule, or the bodies that derive an atom, are at odds with an assignment. -/
inductive Contradicts (p : NormalProgram) (a : Assignment) : Prop
  | rule {r : NormalRule} (hr : r ∈ p.rules) (h : ruleStep a r = none)
  | support {i : Nat} (hi : i < p.atoms.size) (h : supportStep p a i = none)

/-- Passes over a program, so many until one fails, or until one leaves the assignment as it is. -/
inductive Passes (p : NormalProgram) : Assignment → Nat → Option Assignment → Prop
  | failed {a : Assignment} (h : pass p a = none) : Passes p a 1 none
  | settled {a : Assignment} (h : pass p a = some a) : Passes p a 1 (some a)
  | again {a b : Assignment} {n : Nat} {result : Option Assignment} (h : pass p a = some b)
    (hb : b ≠ a) (rest : Passes p b n result) : Passes p a (n + 1) result

/-- Every rule is satisfied, and every atom that holds is the head of a rule whose body holds. -/
structure Accepted (p : NormalProgram) (a : Assignment) : Prop where
  satisfied : ∀ r ∈ p.rules, bodyValue a r.body = .holds →
    ∃ i, r.head = some i ∧ a.get i = .holds
  supported : ∀ i, a.get i = .holds →
    ∃ r ∈ p.rules, r.head = some i ∧ bodyValue a r.body = .holds

variable {p : NormalProgram} {a b v : Assignment}

/-! ## One inference -/

theorem Infers.le (h : Infers p a b) : a ≤ b := by
  cases h with
  | rule hr h => exact le_of_ruleStep h
  | support hi h => exact le_of_supportStep h

/-- What refines an assignment and is a supported model refines what is inferred, too. -/
theorem Infers.le_supportedModel (h : Infers p a b) (hv : SupportedModel p v) (ha : a ≤ v) :
    b ≤ v := by
  cases h with
  | rule hr h =>
    obtain ⟨c, hc, hcv⟩ := exists_ruleStep_le hv ha hr
    obtain rfl : c = b := Option.some.inj (hc.symm.trans h)
    exact hcv
  | support hi h =>
    obtain ⟨c, hc, hcv⟩ := exists_supportStep_le hv ha _
    obtain rfl : c = b := Option.some.inj (hc.symm.trans h)
    exact hcv

/-- No supported model refines an assignment that is contradicted. -/
theorem Contradicts.not_le_supportedModel (h : Contradicts p a) (hv : SupportedModel p v) :
    ¬ a ≤ v := by
  intro ha
  cases h with
  | rule hr h =>
    obtain ⟨c, hc, -⟩ := exists_ruleStep_le hv ha hr
    exact nomatch hc.symm.trans h
  | support hi h =>
    obtain ⟨c, hc, -⟩ := exists_supportStep_le hv ha _
    exact nomatch hc.symm.trans h

/-! ## Chains of inferences -/

/-- Inferences one after another change nothing that is settled. -/
theorem le_of_infers (h : ReflTransGen (Infers p) a b) : a ≤ b := by
  induction h with
  | refl => exact a.le_refl
  | tail _ hlast ih => exact Assignment.le_trans ih hlast.le

/-- Inferences one after another lead away from no supported model. -/
theorem infers_le_supportedModel (h : ReflTransGen (Infers p) a b) (hv : SupportedModel p v)
    (ha : a ≤ v) : b ≤ v := by
  induction h with
  | refl => exact ha
  | tail _ hlast ih => exact hlast.le_supportedModel hv ih

section RunSteps

variable {α : Type} {step : Assignment → α → Option Assignment}

theorem infers_of_runSteps {xs : List α}
    (hstep : ∀ x ∈ xs, ∀ a b, step a x = some b → Infers p a b) (h : runSteps step xs a = some b) :
    ReflTransGen (Infers p) a b := by
  induction xs generalizing a with
  | nil => cases h; exact .refl
  | cons x xs ih =>
    obtain ⟨hx, hxs⟩ := List.forall_mem_cons.1 hstep
    unfold runSteps at h
    split at h
    · cases h
    · next c hc => exact .head (hx a c hc) (ih hxs h)

/-- Where a step cannot be made, those before it have been made. -/
theorem exists_of_runSteps_eq_none {xs : List α}
    (hstep : ∀ x ∈ xs, ∀ a b, step a x = some b → Infers p a b) (h : runSteps step xs a = none) :
    ∃ b, ReflTransGen (Infers p) a b ∧ ∃ x ∈ xs, step b x = none := by
  induction xs generalizing a with
  | nil => cases h
  | cons x xs ih =>
    obtain ⟨hx, hxs⟩ := List.forall_mem_cons.1 hstep
    unfold runSteps at h
    split at h
    · next hc => exact ⟨a, .refl, x, List.mem_cons_self, hc⟩
    · next c hc =>
      obtain ⟨b, hb, y, hy, hn⟩ := ih hxs h
      exact ⟨b, .head (hx a c hc) hb, y, List.mem_cons_of_mem _ hy, hn⟩

end RunSteps

theorem infers_of_mem_rules : ∀ r ∈ p.rules, ∀ a b, ruleStep a r = some b → Infers p a b :=
  fun _ hr _ _ h => .rule hr h

theorem infers_of_mem_range :
    ∀ i ∈ List.range p.atoms.size, ∀ a b, supportStep p a i = some b → Infers p a b :=
  fun _ hi _ _ h => .support (List.mem_range.1 hi) h

theorem infers_of_pass (h : pass p a = some b) : ReflTransGen (Infers p) a b := by
  unfold pass at h
  split at h
  · cases h
  · next c hc =>
    exact (infers_of_runSteps infers_of_mem_rules hc).trans
      (infers_of_runSteps infers_of_mem_range h)

/-- A pass fails where it contradicts what it has inferred so far. -/
theorem exists_contradicts_of_pass (h : pass p a = none) :
    ∃ b, ReflTransGen (Infers p) a b ∧ Contradicts p b := by
  unfold pass at h
  split at h
  · next hc =>
    obtain ⟨b, hb, r, hr, hn⟩ := exists_of_runSteps_eq_none infers_of_mem_rules hc
    exact ⟨b, hb, .rule hr hn⟩
  · next c hc =>
    obtain ⟨b, hb, i, hi, hn⟩ := exists_of_runSteps_eq_none infers_of_mem_range h
    exact ⟨b, (infers_of_runSteps infers_of_mem_rules hc).trans hb,
      .support (List.mem_range.1 hi) hn⟩

/-! ## Passes -/

/-- Every pass but the last settles an atom, so there is at most one more than open atoms. -/
theorem exists_passes (p : NormalProgram) (a : Assignment) :
    ∃ n ≤ a.undecided + 1, Passes p a n (propagate p a) := by
  fun_induction propagate p a with
  | case1 a hpass => exact ⟨1, by omega, .failed hpass⟩
  | case2 a b hpass hlt ih =>
    obtain ⟨n, hn, hrest⟩ := ih
    refine ⟨n + 1, by omega, .again hpass ?_ hrest⟩
    rintro rfl
    exact Nat.lt_irrefl _ hlt
  | case3 a b hpass hlt =>
    obtain rfl : a = b := Assignment.eq_of_le_of_undecided_le (le_of_pass hpass) (Nat.not_lt.1 hlt)
    exact ⟨1, by omega, .settled hpass⟩

theorem Passes.infers {n : Nat} (h : Passes p a n (some b)) : ReflTransGen (Infers p) a b := by
  generalize hresult : some b = result at h
  induction h with
  | failed h => cases hresult
  | settled h => cases hresult; exact .refl
  | again h _ _ ih => exact (infers_of_pass h).trans (ih hresult)

theorem Passes.exists_contradicts {n : Nat} (h : Passes p a n none) :
    ∃ b, ReflTransGen (Infers p) a b ∧ Contradicts p b := by
  generalize hresult : none = result at h
  induction h with
  | failed h => exact exists_contradicts_of_pass h
  | settled h => cases hresult
  | again h _ _ ih =>
    obtain ⟨b, hb, hc⟩ := ih hresult
    exact ⟨b, (infers_of_pass h).trans hb, hc⟩

/-! ## Counts under a total extension -/

theorem atomValue_eq_holds_iff {i : Nat} {positive : Bool} :
    atomValue a i positive = .holds ↔ a.get i = Truth.ofBool positive := by
  cases positive <;> cases h : a.get i <;> simp [atomValue, h, Truth.ofBool, Truth.negate]

theorem groupValue_eq_holds_iff {group : List Condition} :
    groupValue a group = .holds ↔
      ∃ condition ∈ group, ∀ q ∈ condition, a.get q.1 = Truth.ofBool q.2 := by
  simp only [groupValue, conditionValue, disjunction_eq_holds_iff, conjunction_eq_holds_iff,
    atomValue_eq_holds_iff]

/-- How many groups have a condition all of whose atoms hold, or fail, as it wants. -/
def trueGroups (a : Assignment) (groups : List (List Condition)) : Nat :=
  groups.countP fun group => group.any fun condition =>
    condition.all fun q => a.get q.1 = Truth.ofBool q.2

/-- Under a total assignment a count compares the number of groups with a true condition. -/
theorem BodyLiteral.value_count_of_isTotal (ht : a.IsTotal) {groups : List (List Condition)}
    {op : Comparison} {bound : Nat}
    (hw : (BodyLiteral.count groups op bound).Within a.values.size) :
    (BodyLiteral.count groups op bound).value a =
      Truth.ofBool (op.holds (trueGroups a groups) bound) := by
  have hcount : groups.countP (groupValue a · == .holds) = trueGroups a groups := by
    apply List.countP_congr
    intro group _
    simp [groupValue_eq_holds_iff]
  rw [BodyLiteral.value_count, countP_ne_fails ht hw, compareCounts_self, hcount]

/-- A value that is known stays the same under every extension. -/
theorem BodyLiteral.value_eq_of_le {l : BodyLiteral} (h : a ≤ v) (hl : l.value a ≠ .unknown) :
    l.value v = l.value a :=
  Truth.eq_of_le (l.value_mono h) hl

/-! ## Total assignments -/

theorem SupportedModel.accepted (hp : p.Numbered) (h : SupportedModel p a) : Accepted p a where
  satisfied := h.satisfied
  supported i hi := by
    have hlt : i < p.atoms.size := by
      by_contra hge
      rw [Assignment.get_of_size_le (by have := h.size; omega)] at hi
      cases hi
    obtain ⟨body, hb, hbv⟩ := h.supported i hi
    rw [hp.supports i hlt] at hb
    exact ⟨_, mem_bodiesOf.1 hb, rfl, hbv⟩

theorem Accepted.supportedModel (hp : p.Numbered) (hsize : a.values.size = p.atoms.size)
    (ht : a.IsTotal) (h : Accepted p a) : SupportedModel p a where
  size := hsize
  total := ht
  satisfied := h.satisfied
  supported i hi := by
    obtain ⟨⟨head, body⟩, hr, rfl, hbv⟩ := h.supported i hi
    have hlt : i < p.atoms.size := (hp.rules _ hr).head i rfl
    rw [hp.supports i hlt]
    exact ⟨body, mem_bodiesOf.2 hr, hbv⟩

/-- A total assignment is let through just if it is accepted. -/
theorem isSome_propagate_iff_accepted (hp : p.Numbered) (hsize : a.values.size = p.atoms.size)
    (ht : a.IsTotal) : (propagate p a).isSome = true ↔ Accepted p a := by
  constructor
  · intro h
    obtain ⟨b, hb⟩ := Option.isSome_iff_exists.1 h
    obtain rfl : a = b := Assignment.eq_of_le_of_isTotal ht (le_of_propagate hb)
    exact (supportedModel_of_propagate hp hsize ht hb).accepted hp
  · intro h
    obtain ⟨b, hb, -⟩ := exists_propagate_le (h.supportedModel hp hsize ht) a.le_refl
    exact Option.isSome_iff_exists.2 ⟨b, hb⟩

/-! ## Propagation -/

/-- Propagation over a grounded program comes to an end. It makes inferences only, up to the
assignment that it returns or to one that is contradicted; none of them changes what is settled
or loses an answer, for a literal whose value is known has that value in every total extension.
A total assignment is let through just if it is accepted. -/
theorem propagate_inferences (rules : List Rule) (a : Assignment)
    (hsize : a.values.size = (NormalProgram.ofRules rules).atoms.size) :
    let p := NormalProgram.ofRules rules
    (∃ n ≤ a.undecided + 1, Passes p a n (propagate p a)) ∧
    (∀ b, propagate p a = some b → ReflTransGen (Infers p) a b) ∧
    (propagate p a = none → ∃ b, ReflTransGen (Infers p) a b ∧ Contradicts p b) ∧
    (∀ b, ReflTransGen (Infers p) a b → a ≤ b ∧ ∀ v, IsAnswer p v → a ≤ v → b ≤ v) ∧
    (propagate p a = none → ∀ v, IsAnswer p v → ¬ a ≤ v) ∧
    (∀ l : BodyLiteral, l.value a ≠ .unknown → ∀ v, a ≤ v → v.IsTotal → l.value v = l.value a) ∧
    (∀ groups op bound, (BodyLiteral.count groups op bound).Within p.atoms.size →
      ∀ v, a ≤ v → v.IsTotal → (BodyLiteral.count groups op bound).value v =
        Truth.ofBool (op.holds (trueGroups v groups) bound)) ∧
    (a.IsTotal → ((propagate p a).isSome = true ↔ Accepted p a)) := by
  intro p
  have hp : p.Numbered := numbered_ofRules rules
  obtain ⟨n, hn, hpasses⟩ := exists_passes p a
  have hlost : propagate p a = none → ∃ b, ReflTransGen (Infers p) a b ∧ Contradicts p b :=
    fun h => (h ▸ hpasses).exists_contradicts
  refine ⟨⟨n, hn, hpasses⟩, fun b hb => (hb ▸ hpasses).infers, hlost, ?kept, ?refuted, ?known,
    ?counted, isSome_propagate_iff_accepted hp hsize⟩
  case kept =>
    exact fun b hb =>
      ⟨le_of_infers hb, fun v hv => infers_le_supportedModel hb (hv.supportedModel hp)⟩
  case refuted =>
    intro h v hv ha
    -- an answer that refines `a` would refine the contradicted assignment as well
    obtain ⟨b, hb, hc⟩ := hlost h
    have hv := hv.supportedModel hp
    exact hc.not_le_supportedModel hv (infers_le_supportedModel hb hv ha)
  case known => exact fun l hl v ha _ => BodyLiteral.value_eq_of_le ha hl
  case counted =>
    intro groups op bound hw v ha hv
    exact BodyLiteral.value_count_of_isTotal hv (ha.size.trans hsize ▸ hw)

/-- Two atoms that may be chosen, and a third that is derived if exactly one of them holds. -/
def eitherOfTwo : List Rule :=
  let a := Atom.positive "a" []
  let b := Atom.positive "b" []
  [.choice a, .choice b,
    .derive (.positive "c" []) [.count [⟨["1"], [.pos a]⟩, ⟨["2"], [.pos b]⟩] .eq 1]]

theorem size_eitherOfTwo : (NormalProgram.ofRules eitherOfTwo).atoms.size = 5 := by
  have hempty : ∀ a, Numbering.empty.number? a = none := by
    simp [Numbering.empty, Numbering.number?]
  have hatoms : Numbering.empty.atoms = #[] := rfl
  simp [NormalProgram.ofRules, eitherOfTwo, Rule.atoms, Rule.choice, Rule.derive,
    Literal.atomsList, Literal.atoms, CountElement.atomsList, CountElement.atoms, Atom.positive,
    Atom.complement, Numbering.ofList, Numbering.atoms_insert, Numbering.number?_insert, hempty,
    hatoms]

/-- Once both atoms hold, the count fails in every total extension. -/
theorem propagate_inferences_eitherOfTwo :
    let a : Assignment := ⟨#[.holds, .fails, .holds, .fails, .unknown]⟩
    let l := BodyLiteral.count [[[(0, true)]], [[(2, true)]]] .eq 1
    a.values.size = (NormalProgram.ofRules eitherOfTwo).atoms.size ∧
    l.value a = .fails ∧ ∀ v, a ≤ v → v.IsTotal → l.value v = .fails := by
  intro a l
  have hsize : a.values.size = (NormalProgram.ofRules eitherOfTwo).atoms.size :=
    size_eitherOfTwo.symm
  have hl : l.value a = .fails := by decide
  obtain ⟨-, -, -, -, -, hknown, -⟩ := propagate_inferences eitherOfTwo a hsize
  exact ⟨hsize, hl, fun v hv ht => (hknown l (by simp [hl]) v hv ht).trans hl⟩

end FixedDomain.AnswerSet
