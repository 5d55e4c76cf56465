import FixedDomain.AnswerSet.Ground
import FixedDomain.Proofs.AnswerSet.Semantics

/-! # Minimal models of reducts

What an answer set of a disjunctive program is without any shifting of heads:

* `Literal.InSubmodel` — whether a literal holds in a part `D` of a candidate `S`: denied atoms are read
  in `S`, those in conditions of counts included, all other atoms and the counts in `D`.
* `ModelsReduct` — a part satisfies the rules whose bodies hold in the candidate. The others are not in
  the reduct; a count that can lose could make their bodies true in a part.
* `IsMinimalModel`, `Program.IsMinimalAnswerSet` — the candidate holds no atom with its opposite, is a
  model, and no other part of it is one.

The shifted rules with their frozen counts have other answer sets in general. Where every rule with
more than one head atom is a choice, a minimal model is founded (`IsMinimalModel.isStable`). The way
back asks for more: in every part that is a model the bodies that found the candidate have to hold, also
if their counts can lose (`IsStable.isMinimalModel`).
-/

namespace FixedDomain

/-! ## Literals in a part of a candidate -/

/-- Whether a literal holds in a part `D` of a candidate `S`. Only denied atoms are read in `S`. -/
def Literal.InSubmodel (S D : Set Atom) : Literal → Prop
  | .pos a => a ∈ D
  | .not a => a ∉ S
  | .count es op bound =>
    op.holds (counted (Literal.InCondition true S D) es).ncard bound = true

/-- A literal that is no count is read in a part as among derived atoms. -/
theorem Literal.inSubmodel_iff_of_not_isCount {S D : Set Atom} {l : Literal}
    (h : l.isCount = false) : l.InSubmodel S D ↔ l.InReduct S D := by
  cases l with
  | count es op bound => simp [isCount] at h
  | _ => rfl

/-- In the candidate as a whole it does not matter how a count is read. -/
theorem Literal.inSubmodel_self_iff {S : Set Atom} {l : Literal} :
    l.InSubmodel S S ↔ l.InReduct S S := by
  cases l with
  | count es op bound =>
    have hcond : Literal.InCondition true S S = Literal.InCondition op.isMonotone S S := by
      funext l
      cases l <;> simp [Literal.InCondition]
    simp [InSubmodel, InReduct, hcond]
  | _ => rfl

/-- What holds in the candidate and in a part of it holds of the part as of derived atoms. -/
theorem Literal.InSubmodel.inReduct {S D : Set Atom} {l : Literal} (h : l.InSubmodel S D)
    (hself : l.InReduct S S) : l.InReduct S D := by
  cases l with
  | count es op bound =>
    simp only [InReduct, InSubmodel] at h hself ⊢
    cases hop : op.isMonotone with
    | true => exact h
    | false =>
      -- a count that can lose is read in the candidate, where it holds
      have hcond : Literal.InCondition false S D = Literal.InCondition false S S := by
        funext l
        cases l <;> simp [Literal.InCondition]
      rw [hcond, ← hop]
      exact hself
  | _ => exact h

/-! ## Models of a reduct -/

/-- A part of a candidate satisfies the rules whose bodies hold in the candidate. -/
def ModelsReduct (rules : List Rule) (S D : Set Atom) : Prop :=
  ∀ r ∈ rules, BodyHolds S S r.body → (∀ l ∈ r.body, l.InSubmodel S D) → ∃ a ∈ r.head, a ∈ D

/-- A candidate that holds no atom together with its opposite and is a minimal model of its reduct. -/
structure IsMinimalModel (rules : List Rule) (S : Set Atom) : Prop where
  consistent : ∀ a ∈ S, a.complement ∉ S
  model : ModelsReduct rules S S
  minimal : ∀ D ⊆ S, ModelsReduct rules S D → D = S

/-- The answer sets of a program as a disjunctive one. -/
def Program.IsMinimalAnswerSet (p : Program) (S : Set Atom) : Prop := IsMinimalModel p.rules S

variable {rules live : List Rule} {S D : Set Atom}

/-- A candidate is a model of its reduct if it satisfies all rules. -/
theorem modelsReduct_self_iff : ModelsReduct rules S S ↔ ∀ r ∈ rules, r.SatisfiedBy S := by
  refine forall₃_congr fun r _ hbody => ?_
  simp only [Literal.inSubmodel_self_iff]
  exact ⟨fun h => h hbody, fun h _ => h⟩

/-- Rules whose bodies do not hold in the candidate are not in the reduct. -/
theorem modelsReduct_congr (hlive : ∀ r ∈ live, r ∈ rules)
    (hothers : ∀ r ∈ rules, r ∈ live ∨ ¬ BodyHolds S S r.body) :
    ModelsReduct rules S D ↔ ModelsReduct live S D := by
  refine ⟨fun h r hr => h r (hlive r hr), fun h r hr hbody => ?_⟩
  rcases hothers r hr with hr | hnot
  · exact h r hr hbody
  · exact absurd hbody hnot

/-- Rules that do not apply in a candidate can be left out. -/
theorem isMinimalModel_congr (hlive : ∀ r ∈ live, r ∈ rules)
    (hothers : ∀ r ∈ rules, r ∈ live ∨ ¬ BodyHolds S S r.body) :
    IsMinimalModel rules S ↔ IsMinimalModel live S := by
  have hmodels : ∀ D, ModelsReduct rules S D ↔ ModelsReduct live S D :=
    fun D => modelsReduct_congr hlive hothers
  constructor
  · exact fun h => ⟨h.consistent, (hmodels S).1 h.model,
      fun D hD hmodel => h.minimal D hD ((hmodels D).2 hmodel)⟩
  · exact fun h => ⟨h.consistent, (hmodels S).2 h.model,
      fun D hD hmodel => h.minimal D hD ((hmodels D).1 hmodel)⟩

/-- A constraint only excludes minimal models. -/
theorem isMinimalModel_append_constraint_iff {body : List Literal} :
    IsMinimalModel (rules ++ [.constraint body]) S ↔
      IsMinimalModel rules S ∧ ¬ BodyHolds S S body := by
  have hcongr : ¬ BodyHolds S S body →
      (IsMinimalModel (rules ++ [.constraint body]) S ↔ IsMinimalModel rules S) := by
    refine fun hbody => isMinimalModel_congr (fun r hr => List.mem_append_left _ hr) fun r hr => ?_
    rcases List.mem_append.1 hr with hr | hr
    · exact .inl hr
    · obtain rfl := List.mem_singleton.1 hr
      exact .inr hbody
  constructor
  · intro h
    have hbody : ¬ BodyHolds S S body := by
      intro hbody
      have hconstraint := modelsReduct_self_iff.1 h.model (.constraint body)
        (List.mem_append_right _ (List.mem_singleton_self _)) hbody
      simp [Rule.constraint] at hconstraint
    exact ⟨(hcongr hbody).1 h, hbody⟩
  · exact fun ⟨h, hbody⟩ => (hcongr hbody).2 h

/-- Rules that ask for an atom which no other rule derives can be left out. -/
theorem isMinimalModel_iff_of_dormant (hlive : ∀ r ∈ live, r ∈ rules)
    (hdormant : ∀ r ∈ rules, r ∈ live ∨ ∃ f, .pos f ∈ r.body ∧ ∀ r' ∈ live, f ∉ r'.head) :
    IsMinimalModel rules S ↔ IsMinimalModel live S := by
  -- the heads of the live rules are enough for a model
  have hhead : ∀ others : List Rule,
      (∀ r ∈ others, r ∈ live ∨ ∃ f, .pos f ∈ r.body ∧ ∀ r' ∈ live, f ∉ r'.head) →
      IsMinimalModel others S → ∀ a ∈ S, ∃ r ∈ live, a ∈ r.head := by
    intro others hothers h
    have hpart := h.minimal {a ∈ S | ∃ r ∈ live, a ∈ r.head} (Set.sep_subset _ _)
      fun r hr hbody hpart => ?_
    · intro a ha
      rw [← hpart] at ha
      exact ha.2
    · rcases hothers r hr with hlive | ⟨f, hf, hnone⟩
      · obtain ⟨a, ha, haS⟩ := modelsReduct_self_iff.1 h.model r hr hbody
        exact ⟨a, ha, haS, r, hlive, ha⟩
      · obtain ⟨-, r', hr', hmem⟩ := hpart _ hf
        exact absurd hmem (hnone r' hr')
  have hcongr : (∀ a ∈ S, ∃ r ∈ live, a ∈ r.head) →
      (IsMinimalModel rules S ↔ IsMinimalModel live S) := by
    refine fun hall => isMinimalModel_congr hlive fun r hr => (hdormant r hr).imp_right ?_
    rintro ⟨f, hf, hnone⟩ hbody
    obtain ⟨r', hr', hmem⟩ := hall f (hbody _ hf)
    exact hnone r' hr' hmem
  exact ⟨fun h => (hcongr (hhead rules hdormant h)).1 h,
    fun h => (hcongr (hhead live (fun _ => .inl) h)).2 h⟩

/-! ## Shifted rules -/

/-- Every rule with more than one head atom chooses between an atom and its opposite. -/
def IsHeadSimple (rules : List Rule) : Prop :=
  ∀ r ∈ rules, r.head = [] ∨ (∃ a, r.head = [a]) ∨ ∃ a, r = .choice a

/-- Minimal models are founded on the shifted rules. -/
theorem IsMinimalModel.isStable (h : IsMinimalModel rules S) (hsimple : IsHeadSimple rules) :
    IsStable rules S := by
  have hmodel := modelsReduct_self_iff.1 h.model
  have hsubset : (consequences rules S).lfp ⊆ S := by
    apply OrderHom.lfp_le
    rintro a ⟨r, hr, hsupports⟩
    obtain ⟨b, hb, hbS⟩ := hmodel r hr hsupports.body
    exact hsupports.eq_of_mem hb hbS ▸ hbS
  refine ⟨fun r hr hnil hbody => ?_, h.consistent, h.minimal _ hsubset fun r hr hbody hpart => ?_⟩
  · obtain ⟨a, ha, -⟩ := hmodel r hr hbody
    simp [hnil] at ha
  -- the founded atoms are a model of the reduct, since a rule has its true head atom derived
  · obtain ⟨a, ha, haS⟩ := hmodel r hr hbody
    refine ⟨a, ha, ?_⟩
    rw [← OrderHom.map_lfp]
    rcases hsimple r hr with hnil | ⟨b, hhead⟩ | ⟨b, rfl⟩
    · simp [hnil] at ha
    · obtain rfl : a = b := by simpa [hhead] using ha
      refine ⟨r, hr, (Rule.supports_of_head_eq hhead).2 ⟨rfl, fun l hl => ?_⟩⟩
      exact (hpart l hl).inReduct (hbody l hl)
    · have hnot := h.consistent a haS
      simp only [Rule.choice, List.mem_cons, List.not_mem_nil, or_false] at ha
      rcases ha with rfl | rfl
      · exact ⟨_, hr, Rule.supports_choice.2 (.inl ⟨rfl, hnot⟩)⟩
      · exact ⟨_, hr, Rule.supports_choice.2 (.inr ⟨rfl, by simpa using hnot⟩)⟩

/-- A stable candidate is a minimal model if it lies in every part of it that is a model. -/
theorem IsStable.isMinimalModel (h : IsStable rules S)
    (least : ∀ D ⊆ S, ModelsReduct rules S D → S ⊆ D) : IsMinimalModel rules S where
  consistent := h.consistent
  model := modelsReduct_self_iff.2 fun _ hr => h.satisfiedBy hr
  minimal D hD hmodel := Set.Subset.antisymm hD (least D hD hmodel)

end FixedDomain
