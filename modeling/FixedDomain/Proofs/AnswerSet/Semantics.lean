import Mathlib.Data.Set.Card
import Mathlib.Data.Set.Finite.List
import Mathlib.Order.CompletePartialOrder
import Mathlib.Order.FixedPoints
import FixedDomain.AnswerSet.Basic
import FixedDomain.Program.Basic

/-! # Answer sets of programs with counts

What an answer set of a program is, said over sets of atoms and of the rules as they are written,
apart from the shift and the search of the solver:

* `Literal.InReduct` — whether a literal holds of the atoms derived so far, when denied atoms and
  counts that can lose are read in a candidate.
* `Rule.Supports` — whether a rule derives an atom of its head.
* `consequences` — one step of derivation, as a monotone operator on sets of atoms.
* `IsStable`, `Program.IsAnswerSet` — no constraint is violated, no atom holds with its opposite,
  and the candidate is the least fixed point of the derivation.

`IsStable.mem_iff` says that an answer set holds exactly the atoms it supports, and
`isStable_of_forall_closed` is the way back, for a candidate that every closed set contains. Rules
that ask for what nothing derives do not matter (`isStable_iff_of_dormant`).
-/

namespace FixedDomain

/-! ## Literals in a reduct -/

/-- Whether a literal holds in the condition of a count, where `gains` says that the count can
only gain. Counts do not occur in conditions. -/
def Literal.InCondition (gains : Bool) (S D : Set Atom) : Literal → Prop
  | .pos a => if gains then a ∈ D else a ∈ S
  | .not a => a ∉ S
  | .count _ _ _ => False

/-- The tuples of terms that a count counts. Each counts once, however many of its conditions
hold. -/
def counted (holds : Literal → Prop) (es : List CountElement) : Set (List String) :=
  {terms | ∃ e ∈ es, e.terms = terms ∧ ∀ l ∈ e.condition, holds l}

/-- Whether a literal holds of the derived atoms `D`, for a candidate `S`. A count looks at what is
derived if it can only gain by it (`Comparison.isMonotone_iff`), else it is read in the candidate. -/
def Literal.InReduct (S D : Set Atom) : Literal → Prop
  | .pos a => a ∈ D
  | .not a => a ∉ S
  | .count es op bound =>
    op.holds (counted (Literal.InCondition op.isMonotone S D) es).ncard bound = true

/-- Whether a body holds of the derived atoms `D`, for a candidate `S`. -/
def BodyHolds (S D : Set Atom) (body : List Literal) : Prop := ∀ l ∈ body, l.InReduct S D

theorem counted_finite (holds : Literal → Prop) (es : List CountElement) :
    (counted holds es).Finite := by
  apply (List.finite_toSet (es.map (·.terms))).subset
  rintro terms ⟨e, he, rfl, -⟩
  exact List.mem_map_of_mem he

theorem ncard_counted_mono {holds holds' : Literal → Prop} {es : List CountElement}
    (h : ∀ e ∈ es, ∀ l ∈ e.condition, holds l → holds' l) :
    (counted holds es).ncard ≤ (counted holds' es).ncard := by
  refine Set.ncard_le_ncard ?_ (counted_finite _ _)
  rintro terms ⟨e, he, ht, hc⟩
  exact ⟨e, he, ht, fun l hl => h e he l hl (hc l hl)⟩

theorem Literal.InCondition.mono {gains : Bool} {S D E : Set Atom} (h : D ⊆ E) {l : Literal}
    (hl : l.InCondition gains S D) : l.InCondition gains S E := by
  cases l with
  | pos a =>
    cases gains with
    | true => exact h hl
    | false => exact hl
  | not a => exact hl
  | count es op bound => exact hl

/-- A literal that holds goes on holding when more atoms are derived. -/
theorem Literal.InReduct.mono {S D E : Set Atom} (h : D ⊆ E) {l : Literal}
    (hl : l.InReduct S D) : l.InReduct S E := by
  cases l with
  | pos a => exact h hl
  | not a => exact hl
  | count es op bound =>
    simp only [Literal.InReduct] at hl ⊢
    by_cases hop : op.isMonotone = true
    · exact Comparison.isMonotone_iff.1 hop
        (ncard_counted_mono fun _ _ _ _ => Literal.InCondition.mono h) hl
    · -- a count that can lose does not look at what is derived
      have hcond : Literal.InCondition op.isMonotone S E = Literal.InCondition op.isMonotone S D := by
        funext l
        cases l <;> simp [Literal.InCondition, hop]
      rw [hcond]
      exact hl

theorem BodyHolds.mono {S D E : Set Atom} (h : D ⊆ E) {body : List Literal}
    (hb : BodyHolds S D body) : BodyHolds S E body :=
  fun l hl => (hb l hl).mono h

@[simp] theorem bodyHolds_nil (S D : Set Atom) : BodyHolds S D [] := fun _ h => nomatch h

@[simp] theorem bodyHolds_cons {S D : Set Atom} {l : Literal} {body : List Literal} :
    BodyHolds S D (l :: body) ↔ l.InReduct S D ∧ BodyHolds S D body := by
  simp [BodyHolds]

@[simp] theorem bodyHolds_append {S D : Set Atom} {left right : List Literal} :
    BodyHolds S D (left ++ right) ↔ BodyHolds S D left ∧ BodyHolds S D right := by
  simp [BodyHolds, or_imp, forall_and]

@[simp] theorem inReduct_pos {S D : Set Atom} {a : Atom} : (Literal.pos a).InReduct S D ↔ a ∈ D :=
  Iff.rfl

@[simp] theorem inReduct_not {S D : Set Atom} {a : Atom} : (Literal.not a).InReduct S D ↔ a ∉ S :=
  Iff.rfl

/-! ## Support -/

/-- Whether a rule derives an atom from the derived atoms `D`, for a candidate `S`: the atom is in
its head, its body holds, and none of the other atoms of its head is in the candidate. Further
occurrences of the atom itself are among the others. -/
@[mk_iff]
structure Rule.Supports (r : Rule) (S D : Set Atom) (a : Atom) : Prop where
  head : a ∈ r.head
  body : BodyHolds S D r.body
  others : ∀ b ∈ r.head.erase a, b ∉ S

theorem Rule.Supports.mono {r : Rule} {S D E : Set Atom} (h : D ⊆ E) {a : Atom}
    (hsupports : r.Supports S D a) : r.Supports S E a :=
  ⟨hsupports.head, hsupports.body.mono h, hsupports.others⟩

/-- Of the head of a rule that derives an atom, no other atom is in the candidate. -/
theorem Rule.Supports.eq_of_mem {r : Rule} {S D : Set Atom} {a b : Atom} (h : r.Supports S D a)
    (hb : b ∈ r.head) (hbS : b ∈ S) : b = a := by
  by_contra hba
  exact h.others b ((List.mem_erase_of_ne hba).2 hb) hbS

theorem Rule.supports_of_head_eq {r : Rule} {b : Atom} (h : r.head = [b]) {S D : Set Atom}
    {a : Atom} : r.Supports S D a ↔ a = b ∧ BodyHolds S D r.body := by
  rw [Rule.supports_iff, h]
  constructor
  · rintro ⟨hhead, hbody, -⟩
    exact ⟨List.mem_singleton.1 hhead, hbody⟩
  · rintro ⟨rfl, hbody⟩
    exact ⟨List.mem_singleton_self a, hbody, by simp⟩

@[simp] theorem Rule.supports_derive {S D : Set Atom} {a b : Atom} {body : List Literal} :
    (Rule.derive b body).Supports S D a ↔ a = b ∧ BodyHolds S D body :=
  Rule.supports_of_head_eq rfl

@[simp] theorem Rule.not_supports_constraint {S D : Set Atom} {a : Atom} {body : List Literal} :
    ¬ (Rule.constraint body).Supports S D a :=
  fun h => nomatch h.head

/-- A choice derives either atom if the other one is not in the candidate. -/
@[simp] theorem Rule.supports_choice {S D : Set Atom} {a b : Atom} :
    (Rule.choice a).Supports S D b ↔
      b = a ∧ a.complement ∉ S ∨ b = a.complement ∧ a ∉ S := by
  have hne : a.complement ≠ a := a.complement_ne
  rw [Rule.supports_iff, Rule.choice]
  constructor
  · rintro ⟨hhead, -, hothers⟩
    rcases (by simpa using hhead : b = a ∨ b = a.complement) with rfl | rfl
    · exact .inl ⟨rfl, hothers _ (by simp)⟩
    · exact .inr ⟨rfl, hothers a (by simp [hne.symm])⟩
  · rintro (⟨rfl, hnot⟩ | ⟨rfl, hnot⟩)
    · simpa using hnot
    · simpa [List.erase_cons, hne.symm] using hnot

/-! ## Answer sets -/

/-- The atoms derived in one step from `D`, for a candidate `S`. -/
def consequences (rules : List Rule) (S : Set Atom) : Set Atom →o Set Atom where
  toFun D := {a | ∃ r ∈ rules, r.Supports S D a}
  monotone' := fun _ _ h _ ⟨r, hr, hsupports⟩ => ⟨r, hr, hsupports.mono h⟩

/-- A candidate that violates no constraint, holds no atom together with its opposite, and holds
exactly what can be derived. -/
structure IsStable (rules : List Rule) (S : Set Atom) : Prop where
  constraints : ∀ r ∈ rules, r.head = [] → ¬ BodyHolds S S r.body
  consistent : ∀ a ∈ S, a.complement ∉ S
  founded : (consequences rules S).lfp = S

/-- The answer sets of a program. -/
def Program.IsAnswerSet (p : Program) (S : Set Atom) : Prop := IsStable p.rules S

/-- The atoms of an answer set as a set. -/
def AnswerSet.toSet (A : AnswerSet) : Set Atom := {a | a ∈ A}

@[simp] theorem AnswerSet.mem_toSet {A : AnswerSet} {a : Atom} : a ∈ A.toSet ↔ a ∈ A := Iff.rfl

theorem AnswerSet.toSet_injective : Function.Injective AnswerSet.toSet := by
  intro A B h
  cases A
  cases B
  congr
  exact SortedSet.ext fun a => Set.ext_iff.1 h a

theorem mem_consequences {rules : List Rule} {S D : Set Atom} {a : Atom} :
    a ∈ consequences rules S D ↔ ∃ r ∈ rules, r.Supports S D a := Iff.rfl

/-- An answer set derives itself. -/
theorem IsStable.consequences_self {rules : List Rule} {S : Set Atom} (h : IsStable rules S) :
    consequences rules S S = S := by
  have := (consequences rules S).map_lfp
  rwa [h.founded] at this

/-- What a part of an answer set derives is in the answer set. -/
theorem IsStable.consequences_subset {rules : List Rule} {S D : Set Atom} (h : IsStable rules S)
    (hD : D ⊆ S) : consequences rules S D ⊆ S :=
  ((consequences rules S).monotone hD).trans h.consequences_self.subset

/-- An answer set holds exactly the atoms that some rule supports. -/
theorem IsStable.mem_iff {rules : List Rule} {S : Set Atom} (h : IsStable rules S) {a : Atom} :
    a ∈ S ↔ ∃ r ∈ rules, r.Supports S S a := by
  rw [← mem_consequences, h.consequences_self]

/-- If the body of a rule holds, one of its head atoms does. -/
def Rule.SatisfiedBy (S : Set Atom) (r : Rule) : Prop :=
  BodyHolds S S r.body → ∃ a ∈ r.head, a ∈ S

/-- Every rule is satisfied by an answer set. -/
theorem IsStable.satisfiedBy {rules : List Rule} {S : Set Atom} (h : IsStable rules S) {r : Rule}
    (hr : r ∈ rules) : r.SatisfiedBy S := by
  intro hbody
  cases hhead : r.head with
  | nil => exact absurd hbody (h.constraints r hr hhead)
  | cons a others =>
    have hin : a ∈ r.head := hhead ▸ List.mem_cons_self
    rw [← hhead]
    -- if no other head atom holds, the rule derives this one
    by_contra hnone
    have hothers : ∀ b ∈ r.head.erase a, b ∉ S :=
      fun b hb hbS => hnone ⟨b, List.mem_of_mem_erase hb, hbS⟩
    exact hnone ⟨a, hin, h.mem_iff.2 ⟨r, hr, hin, hbody, hothers⟩⟩

/-- A candidate is an answer set if it violates nothing, is closed under the rules, and lies in
every set that is. -/
theorem isStable_of_forall_closed {rules : List Rule} {S : Set Atom}
    (constraints : ∀ r ∈ rules, r.head = [] → ¬ BodyHolds S S r.body)
    (consistent : ∀ a ∈ S, a.complement ∉ S)
    (closed : consequences rules S S ⊆ S)
    (least : ∀ D : Set Atom, consequences rules S D ⊆ D → S ⊆ D) : IsStable rules S :=
  ⟨constraints, consistent, Set.Subset.antisymm (OrderHom.lfp_le _ closed) (OrderHom.le_lfp _ least)⟩

/-! ## Rules that never apply -/

/-- Rules that ask for an atom which no rule derives can be left out. -/
theorem isStable_iff_of_dormant {rules live : List Rule} (hlive : ∀ r ∈ live, r ∈ rules)
    (hdormant : ∀ r ∈ rules, r ∈ live ∨ ∃ f, .pos f ∈ r.body ∧ ∀ r' ∈ live, f ∉ r'.head)
    {S : Set Atom} : IsStable rules S ↔ IsStable live S := by
  -- all that is derived by the live rules is the head of one
  have hhead : ∀ f ∈ (consequences live S).lfp, ∃ r ∈ live, f ∈ r.head := by
    intro f hf
    rw [← OrderHom.map_lfp] at hf
    obtain ⟨r, hr, hsupports⟩ := hf
    exact ⟨r, hr, hsupports.head⟩
  have hlfp : (consequences rules S).lfp = (consequences live S).lfp := by
    apply le_antisymm
    · apply OrderHom.lfp_le
      rintro a ⟨r, hr, hsupports⟩
      rcases hdormant r hr with hr | ⟨f, hf, hnone⟩
      · rw [← OrderHom.map_lfp]
        exact ⟨r, hr, hsupports⟩
      · obtain ⟨r', hr', hmem⟩ := hhead f (hsupports.body _ hf)
        exact absurd hmem (hnone r' hr')
    · apply OrderHom.lfp_le
      rintro a ⟨r, hr, hsupports⟩
      rw [← OrderHom.map_lfp]
      exact ⟨r, hlive r hr, hsupports⟩
  constructor
  · intro h
    exact ⟨fun r hr => h.constraints r (hlive r hr), h.consistent, hlfp ▸ h.founded⟩
  · intro h
    refine ⟨fun r hr hnil hbody => ?_, h.consistent, hlfp ▸ h.founded⟩
    rcases hdormant r hr with hr | ⟨f, hf, hnone⟩
    · exact h.constraints r hr hnil hbody
    · have hmem : f ∈ S := hbody _ hf
      rw [← h.founded] at hmem
      obtain ⟨r', hr', hmem⟩ := hhead f hmem
      exact hnone r' hr' hmem

end FixedDomain
