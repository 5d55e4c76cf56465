import FixedDomain.Proofs.Grounding.Expression

/-! # Asserted membership

The rules that make an element belong to an expression whenever a body is true are satisfied exactly
when what the body expresses implies membership (`assertMember_meets`). The generic encoding excludes
the opposite; the encoding with counts follows the structure of the expression.
-/

namespace FixedDomain.Grounding

variable {V : Set Entity} {c : Context} {φ ψ : Sentence} {body : Body}

/-! ## Exclusion -/

/-- Excluding a body together with a violation makes what the body expresses imply that there is no
violation. -/
theorem enforces_exclude (hb : c.Expresses φ [body]) {violation : Option Body}
    (hv : c.Decides (fun I => ¬ ψ I) violation) :
    c.Enforces (fun I => φ I → ψ I) (exclude body violation) := by
  cases violation with
  | none =>
    apply Context.Enforces.nil.congr
    intro I S hS
    have := not_not.1 (hv.not_of_none hS)
    simp [this]
  | some v =>
    apply (Context.Enforces.constraint (hb.and hv.expresses)).congr
    intro I S _
    simp only [not_and, not_not]

/-- The conjunction of bodies for each of some expressions. -/
theorem conjoin_holdsNot_meets {cs : List ClassExpression} (h : ∀ d ∈ cs, Readable V d)
    {x : Element} (hc : c.Ready) (hx : x ∈ c.elements) :
    Meets V (conjoin (fun d => holdsNot d x) cs) c
      fun c' body => c'.Decides (fun I => ¬ I.MemberSome cs x.individual) body := by
  induction cs generalizing c with
  | nil =>
    rw [conjoin]
    exact .pure hc (Context.Decides.always.congr fun I S _ => by simp)
  | cons d ds ih =>
    obtain ⟨hd, hds⟩ := List.forall_mem_cons.1 h
    rw [conjoin]
    apply (hd.holdsNot hc hx).bind
    intro first c₁ h₁ hfirst
    cases first with
    | none =>
      refine .pure h₁.ready (Context.Decides.never.congr fun I S hS => ?_)
      simp [not_not.1 (hfirst.not_of_none hS)]
    | some first =>
      apply (ih hds h₁.ready (h₁.le.elements ▸ hx)).bind
      intro rest c₂ h₂ hrest
      cases rest with
      | none =>
        refine .pure h₂.ready (Context.Decides.never.congr fun I S hS => ?_)
        simp [not_not.1 (hrest.not_of_none hS)]
      | some rest =>
        exact .pure h₂.ready (((hfirst.mono h₂.le).and hrest).congr fun I S _ => by
          rw [Evaluation.memberSome_cons, not_or])

/-! ## Rules for membership -/

/-- The rules for membership in an expression are satisfied exactly when what the body expresses
implies membership. -/
def Assertable (V : Set Entity) (d : ClassExpression) : Prop :=
  ∀ c x φ body, c.Ready → x ∈ c.elements → c.Expresses φ [body] →
    Meets V (assertMember d x body) c
      fun c' rules => c'.Enforces (fun I => φ I → I.Member d x.individual) rules

theorem assertAll_meets {cs : List ClassExpression} (h : ∀ d ∈ cs, Assertable V d) {x : Element}
    (hc : c.Ready) (hx : x ∈ c.elements) (hb : c.Expresses φ [body]) :
    Meets V (assertAll cs x body) c
      fun c' rules => c'.Enforces (fun I => φ I → I.MemberAll cs x.individual) rules := by
  induction cs generalizing c with
  | nil =>
    rw [assertAll]
    exact .pure hc (Context.Enforces.nil.congr fun I S _ => by simp)
  | cons d ds ih =>
    obtain ⟨hd, hds⟩ := List.forall_mem_cons.1 h
    rw [assertAll]
    apply (hd c x φ body hc hx hb).bind
    intro first c₁ h₁ hfirst
    apply (ih hds h₁.ready (h₁.le.elements ▸ hx) (hb.mono h₁.le)).map
    intro rest c₂ h₂ hrest
    apply ((hfirst.mono h₂.le).append hrest).congr
    intro I S _
    rw [Evaluation.memberAll_cons, ← imp_and]

/-! ### Nominals and restrictions -/

section Restrictions

variable {r : Role} {x : Element} {d : ClassExpression}

/-- Outside of a nominal, what the body expresses is excluded. -/
theorem assertStructure_oneOf_meets {is : List Individual}
    (hV : ∀ v ∈ (ClassExpression.oneOf is).vocabulary, v ∈ V) (hc : c.Ready) (hx : x ∈ c.elements)
    (hb : c.Expresses φ [body]) :
    Meets V (assertStructure (.oneOf is) x body) c
      fun c' rules => c'.Enforces (fun I => φ I → I.Member (.oneOf is) x.individual) rules := by
  rw [assertStructure]
  rw [ClassExpression.vocabulary] at hV
  apply (members_meets hc fun i hi => hV _ (List.mem_map_of_mem hi)).map
  intro members c' hgrows hm
  have hmember := expresses_memberBodies hgrows.ready hm (hgrows.le.elements ▸ hx)
  unfold memberBodies at hmember
  split
  · next hmem =>
    rw [if_pos hmem] at hmember
    apply Context.Enforces.nil.congr
    intro I S hS
    simp [← hmember.iff I S S hS hS]
  · next hmem =>
    rw [if_neg hmem] at hmember
    apply (Context.Enforces.constraint (hb.mono hgrows.le)).congr
    intro I S hS
    simp [← hmember.iff I S S hS hS]

/-- The rules for the filler at each element, where the body says that the role leads there. -/
theorem assertStructure_allValuesFrom_meets (hd : Assertable V d) (hc : c.Ready)
    (hr : .objectProperty r.property ∈ V) (hx : x ∈ c.elements) (hb : c.Expresses φ [body]) :
    Meets V (assertStructure (.allValuesFrom r d) x body) c fun c' rules =>
      c'.Enforces (fun I => φ I → I.Member (.allValuesFrom r d) x.individual) rules := by
  rw [assertStructure]
  refine .get ?_
  -- at each element the body is extended by the atom that the role leads there
  refine (Meets.collect_enforces (χ := fun y I => φ I ∧ I.Leads r x.individual y.individual →
    I.Member d y.individual) hc fun y hy c₁ h₁ => ?_).imp
    fun rules c' hgrows hr => hr.congr fun I S hS => ?_
  · apply (roleAtom_meets h₁.ready hr (h₁.le.elements ▸ hx) (h₁.le.elements ▸ hy)).bind
    intro a c₂ h₂ ha
    have hle := Context.le_trans h₁.le h₂.le
    exact hd c₂ y _ _ h₂.ready (hle.elements ▸ hy) ((hb.mono hle).and (.pos ha))
  · rw [Evaluation.member_allValuesFrom, hS.forall_domain, hgrows.le.elements]
    exact ⟨fun hall hφ y hy hr => hall y hy ⟨hφ, hr⟩, fun hall y hy hr => hall hr.1 y hy hr.2⟩

/-- Having no successor in the filler is excluded. -/
theorem assertStructure_someValuesFrom_meets (hd : Readable V d) (hc : c.Ready)
    (hr : .objectProperty r.property ∈ V) (hx : x ∈ c.elements) (hb : c.Expresses φ [body]) :
    Meets V (assertStructure (.someValuesFrom r d) x body) c fun c' rules =>
      c'.Enforces (fun I => φ I → I.Member (.someValuesFrom r d) x.individual) rules := by
  rw [assertStructure]
  apply (related_holds_meets hd hc hr hx).map
  intro successors c' hgrows hs
  apply (Context.enforces_excludeCount hgrows.ready hs (hb.mono hgrows.le) .lt 1).congr
  intro I S hS
  rw [member_someValuesFrom_iff hS, ← Set.ncard_pos Context.reached_finite]
  simp [Comparison.holds, Nat.pos_iff_ne_zero]

section Cardinalities

variable {n : UInt32} {filler : Option ClassExpression}
  (hfiller : Readable V (ClassExpression.fillerOrThing filler))

include hfiller

/-- Having fewer successors is excluded. -/
theorem assertStructure_minCardinality_meets (hc : c.Ready) (hr : .objectProperty r.property ∈ V)
    (hx : x ∈ c.elements) (hb : c.Expresses φ [body]) :
    Meets V (assertStructure (.minCardinality n r filler) x body) c fun c' rules =>
      c'.Enforces (fun I => φ I → I.Member (.minCardinality n r filler) x.individual) rules := by
  rw [assertStructure]
  split
  · next hn =>
    refine .pure hc (Context.Enforces.nil.congr fun I S hS => ?_)
    simp [member_minCardinality_iff hc hS, hn]
  · apply (related_holds_meets hfiller hc hr hx).map
    intro successors c' hgrows hs
    apply (Context.enforces_excludeCount hgrows.ready hs (hb.mono hgrows.le) .lt _).congr
    intro I S hS
    simp [member_minCardinality_iff hgrows.ready hS, Comparison.holds]

/-- Having more successors is excluded. -/
theorem assertStructure_maxCardinality_meets (hdirect : c.isDirect = true) (hc : c.Ready)
    (hr : .objectProperty r.property ∈ V) (hx : x ∈ c.elements) (hb : c.Expresses φ [body]) :
    Meets V (assertStructure (.maxCardinality n r filler) x body) c fun c' rules =>
      c'.Enforces (fun I => φ I → I.Member (.maxCardinality n r filler) x.individual) rules := by
  rw [assertStructure]
  apply (related_holds_meets hfiller hc hr hx).map
  intro successors c' hgrows hs
  apply (Context.enforces_excludeCount hgrows.ready hs (hb.mono hgrows.le) .gt _).congr
  intro I S hS
  have hcounts := (hS.anti hgrows.le).counts.trans hdirect
  simp [member_maxCardinality_iff hcounts hgrows.ready hS, Comparison.holds]

theorem assertStructure_exactCardinality_meets (hdirect : c.isDirect = true) (hc : c.Ready)
    (hr : .objectProperty r.property ∈ V) (hx : x ∈ c.elements) (hb : c.Expresses φ [body]) :
    Meets V (assertStructure (.exactCardinality n r filler) x body) c fun c' rules =>
      c'.Enforces (fun I => φ I → I.Member (.exactCardinality n r filler) x.individual) rules := by
  rw [assertStructure]
  -- the successors are listed twice, for too few and for too many
  apply (related_holds_meets hfiller hc hr hx).bind
  intro fewer c₁ h₁ hfewer
  apply (related_holds_meets hfiller h₁.ready hr (h₁.le.elements ▸ hx)).map
  intro more c₂ h₂ hmore
  have hle := Context.le_trans h₁.le h₂.le
  have hb := hb.mono hle
  apply ((Context.enforces_excludeCount h₂.ready (hfewer.mono h₂.le) hb .lt _).append
    (Context.enforces_excludeCount h₂.ready hmore hb .gt _)).congr
  intro I S hS
  have hcounts := (hS.anti hle).counts.trans hdirect
  rw [member_exactCardinality_iff hcounts h₂.ready hS, ← imp_and]
  apply imp_congr_right
  intro _
  simp only [Comparison.holds, decide_eq_false_iff_not]
  omega

end Cardinalities

end Restrictions

section Structure

variable {d : ClassExpression} (hV : ∀ e ∈ d.vocabulary, e ∈ V)
  (h : ∀ e : ClassExpression, e.weight < d.weight → (∀ v ∈ e.vocabulary, v ∈ V) → Assertable V e)

include hV

theorem exclude_holdsNot_meets {x : Element} (hc : c.Ready) (hx : x ∈ c.elements)
    (hb : c.Expresses φ [body]) :
    Meets V (do return exclude body (← holdsNot d x)) c
      fun c' rules => c'.Enforces (fun I => φ I → I.Member d x.individual) rules :=
  ((readable_of_vocabulary d hV).holdsNot hc hx).map fun _ _ hgrows hv =>
    enforces_exclude (hb.mono hgrows.le) hv

include h

theorem assertStructure_meets {x : Element} (hdirect : c.isDirect = true) (hc : c.Ready)
    (hx : x ∈ c.elements) (hb : c.Expresses φ [body]) :
    Meets V (assertStructure d x body) c
      fun c' rules => c'.Enforces (fun I => φ I → I.Member d x.individual) rules := by
  cases d with
  | intersectionOf cs =>
    rw [assertStructure]
    rw [ClassExpression.vocabulary] at hV
    have hparts : ∀ e ∈ cs, Assertable V e := fun e he => by
      refine h e ?_ fun v hv => hV v (ClassExpression.mem_vocabularyList.2 ⟨e, he, hv⟩)
      have := ClassExpression.weight_lt_of_mem he
      rw [ClassExpression.weight]
      omega
    refine (assertAll_meets hparts hc hx hb).imp fun rules c' _ hr => hr.congr fun I S _ => ?_
    rw [Evaluation.member_intersectionOf]
  | unionOf cs =>
    rw [assertStructure]
    rw [ClassExpression.vocabulary] at hV
    have hparts : ∀ e ∈ cs, Readable V e := fun e he =>
      readable_of_vocabulary e fun v hv => hV v (ClassExpression.mem_vocabularyList.2 ⟨e, he, hv⟩)
    apply (conjoin_holdsNot_meets hparts hc hx).map
    intro violation c' hgrows hv
    apply (enforces_exclude (hb.mono hgrows.le) hv).congr
    intro I S _
    rw [Evaluation.member_unionOf]
  | oneOf is => exact assertStructure_oneOf_meets hV hc hx hb
  | someValuesFrom r e =>
    rw [ClassExpression.vocabulary, List.forall_mem_cons] at hV
    exact assertStructure_someValuesFrom_meets (readable_of_vocabulary e hV.2) hc hV.1 hx hb
  | allValuesFrom r e =>
    rw [ClassExpression.vocabulary, List.forall_mem_cons] at hV
    exact assertStructure_allValuesFrom_meets (h e (by rw [ClassExpression.weight]; omega) hV.2) hc
      hV.1 hx hb
  | hasValue r i =>
    rw [assertStructure]
    rw [ClassExpression.vocabulary, List.forall_mem_cons, List.forall_mem_singleton] at hV
    apply (element_meets hc hV.2).bind
    intro y c₁ h₁ hy
    apply (roleAtom_meets h₁.ready hV.1 (h₁.le.elements ▸ hx) hy.1).map
    intro a c₂ h₂ ha
    refine (Context.Enforces.derive (hb.mono (Context.le_trans h₁.le h₂.le)) ha).congr
      fun I S hS => ?_
    rw [Evaluation.member_hasValue, hS.denote, hy.2, id]
  | hasSelf r =>
    rw [assertStructure]
    rw [ClassExpression.vocabulary, List.forall_mem_singleton] at hV
    apply (roleAtom_meets hc hV hx hx).map
    intro a c' hgrows ha
    apply (Context.Enforces.derive (hb.mono hgrows.le) ha).congr
    intro I S _
    rw [Evaluation.member_hasSelf]
  | minCardinality n r filler =>
    rw [ClassExpression.vocabulary, List.forall_mem_cons] at hV
    exact assertStructure_minCardinality_meets (readable_of_vocabulary _ (by simpa using hV.2)) hc
      hV.1 hx hb
  | maxCardinality n r filler =>
    rw [ClassExpression.vocabulary, List.forall_mem_cons] at hV
    exact assertStructure_maxCardinality_meets (readable_of_vocabulary _ (by simpa using hV.2))
      hdirect hc hV.1 hx hb
  | exactCardinality n r filler =>
    rw [ClassExpression.vocabulary, List.forall_mem_cons] at hV
    exact assertStructure_exactCardinality_meets (readable_of_vocabulary _ (by simpa using hV.2))
      hdirect hc hV.1 hx hb
  | _ =>
    simp only [assertStructure]
    exact exclude_holdsNot_meets hV hc hx hb

theorem assertable_of_lighter : Assertable V d := by
  intro c x φ body hc hx hb
  -- all but literals and the two constants go by the strategy
  have hdefault : Meets V (do
      if (← get).isDirect then assertStructure d x body
      else return exclude body (← holdsNot d x)) c
      fun c' rules => c'.Enforces (fun I => φ I → I.Member d x.individual) rules := by
    refine .get ?_
    split
    · next hdirect => exact assertStructure_meets hV h hdirect hc hx hb
    · exact exclude_holdsNot_meets hV hc hx hb
  cases d with
  | named iri =>
    rw [assertMember]
    refine (classAtom_meets hc (hV _ (by simp [ClassExpression.vocabulary])) hx).map
      fun a c' hgrows ha => ?_
    exact (Context.Enforces.derive (hb.mono hgrows.le) ha).congr fun I S _ => by
      rw [Evaluation.member_named]
  | thing =>
    rw [assertMember]
    exact .pure hc (Context.Enforces.nil.congr fun I S _ => by simp)
  | nothing =>
    rw [assertMember]
    refine .pure hc ((Context.Enforces.constraint hb).congr fun I S _ => ?_)
    simp
  | complementOf e =>
    cases e with
    | named iri =>
      rw [assertMember]
      refine (classAtom_meets hc (hV _ (by simp [ClassExpression.vocabulary])) hx).map
        fun a c' hgrows ha => ?_
      exact (Context.Enforces.derive_complement (hb.mono hgrows.le) ha).congr fun I S _ => by
        rw [Evaluation.member_complementOf, Evaluation.member_named]
    | _ =>
      simp only [assertMember]
      exact hdefault
  | _ =>
    simp only [assertMember]
    exact hdefault

end Structure

theorem assertable_of_vocabulary (d : ClassExpression) (hV : ∀ e ∈ d.vocabulary, e ∈ V) :
    Assertable V d := by
  induction hn : d.weight using Nat.strongRecOn generalizing d with
  | ind n ih =>
  subst hn
  exact assertable_of_lighter hV fun e he hVe => ih _ he e hVe rfl

/-- The rules that make an element belong to an expression whenever a body is true. -/
theorem assertMember_meets {d : ClassExpression} (hV : ∀ e ∈ d.vocabulary, e ∈ V) {x : Element}
    (hc : c.Ready) (hx : x ∈ c.elements) (hb : c.Expresses φ [body]) :
    Meets V (assertMember d x body) c
      fun c' rules => c'.Enforces (fun I => φ I → I.Member d x.individual) rules :=
  assertable_of_vocabulary d hV c x φ body hc hx hb

end FixedDomain.Grounding
