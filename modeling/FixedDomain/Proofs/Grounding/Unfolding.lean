import FixedDomain.Proofs.Grounding.Needs

/-! # How many rules an axiom gets

The generic encoding has one rule for each element where an inclusion can be violated. The counting
encoding unfolds both sides:

* `ClassExpression.alternatives` — how many bodies the left-hand side has at an element.
* `ClassExpression.obligations` — how many rules the right-hand side has for each of them.
* `Axiom.repetition` — how many rules this makes more than one for each place.
* `Axiom.EncodedIn` — some expressions have all that the generic encoding of an axiom needs.

No other rules of an axiom can be more in the counting encoding (`axiomRules_comparable`).
-/

namespace FixedDomain

namespace ClassExpression

mutual

/-- The number of bodies that an expression is unfolded to on the left of an inclusion. -/
def alternatives : ClassExpression → Nat
  | nothing => 0
  | unionOf cs => alternativesUnion cs
  | intersectionOf cs => alternativesProduct cs
  | c => if c.canHold then 1 else 0

/-- The number of bodies of some disjuncts. -/
def alternativesUnion : List ClassExpression → Nat
  | [] => 0
  | c :: cs => c.alternatives + alternativesUnion cs

/-- The number of combinations of bodies of some conjuncts. -/
def alternativesProduct : List ClassExpression → Nat
  | [] => 1
  | c :: cs => c.alternatives * alternativesProduct cs

end

mutual

/-- The number of rules that an expression is unfolded to on the right of an inclusion, over a domain
of some size. -/
def obligations (size : Nat) : ClassExpression → Nat
  | intersectionOf cs => obligationsAll size cs
  | allValuesFrom _ c => size * c.obligations size
  | minCardinality n _ _ => if n = 0 then 0 else 1
  | exactCardinality _ _ _ => 2
  | c => if c.canFail then 1 else 0

/-- The number of rules of some conjuncts. -/
def obligationsAll (size : Nat) : List ClassExpression → Nat
  | [] => 0
  | c :: cs => c.obligations size + obligationsAll size cs

end

theorem canHold_of_alternatives_pos {c : ClassExpression} (h : 0 < c.alternatives) : c.canHold := by
  cases c with
  | nothing => simp [alternatives] at h
  | complementOf d =>
    by_contra hcan
    simp [alternatives, hcan] at h
  | _ => rfl

theorem canFail_of_obligations_pos {size : Nat} {c : ClassExpression}
    (h : 0 < c.obligations size) : c.canFail := by
  cases c with
  | thing => simp [obligations, canFail] at h
  | complementOf d =>
    by_contra hcan
    simp [obligations, hcan] at h
  | _ => rfl

/-! ## Axioms -/

/-- The number of elements where an inclusion can be violated. -/
def inclusionPlaces (size : Nat) (c d : ClassExpression) : Nat :=
  size * if c.canHold && d.canFail then 1 else 0

/-- The number of elements that can belong to two expressions. -/
def disjointnessPlaces (size : Nat) (c d : ClassExpression) : Nat :=
  size * if c.canHold && d.canHold then 1 else 0

/-- The rules of an inclusion, beyond one for each element. -/
def inclusionRepetition (size : Nat) (c d : ClassExpression) : Nat :=
  size * (c.alternatives * d.obligations size - 1)

/-- The rules that two expressions have nothing in common, beyond one for each element. -/
def disjointnessRepetition (size : Nat) (c d : ClassExpression) : Nat :=
  size * (c.alternatives * d.alternatives - 1)

/-- The rules that a first expression equals each of the others, beyond two for each element. -/
def equivalenceRepetition (size : Nat) : List ClassExpression → Nat
  | [] => 0
  | c :: cs => (cs.map fun d => inclusionRepetition size c d + inclusionRepetition size d c).sum

/-- The rules that some expressions are pairwise disjoint, beyond one for each pair and element. -/
def pairwiseRepetition (size : Nat) (cs : List ClassExpression) : Nat :=
  ((laterPairs cs).map fun (c, d) => disjointnessRepetition size c d).sum

variable {T : List ClassExpression}

/-- What the generic encoding of an inclusion needs is among some expressions. -/
def IncludedIn (T : List ClassExpression) (c d : ClassExpression) : Prop :=
  c.HoldsIn T ∧ (c.canHold → d.FailsIn T)

/-- What the generic encoding of an equivalence needs is among some expressions. -/
def EqualIn (T : List ClassExpression) : List ClassExpression → Prop
  | [] => True
  | c :: cs => ∀ d ∈ cs, IncludedIn T c d ∧ IncludedIn T d c

/-- What the generic encoding of disjointness needs is among some expressions. -/
def DisjointIn (T : List ClassExpression) (cs : List ClassExpression) : Prop :=
  ∀ p ∈ laterPairs cs, p.1.HoldsIn T ∧ p.2.HoldsIn T

end ClassExpression

namespace Axiom

open ClassExpression

/-- How many rules more than one for each place where it can be violated the unfolding of an axiom has,
over a domain of some size. That a role leads to at most one element is not unfolded, but it takes a rule
even over a domain where it cannot be violated. -/
def repetition (size : Nat) : Axiom → Nat
  | subClassOf c d => inclusionRepetition size c d
  | equivalentClasses cs => equivalenceRepetition size cs
  | disjointClasses cs => pairwiseRepetition size cs
  | disjointUnion whole parts =>
    equivalenceRepetition size [.named whole, .unionOf parts] + pairwiseRepetition size parts
  | objectPropertyDomain _ c | objectPropertyRange _ c => size * size * (c.obligations size - 1)
  | functionalObjectProperty _ | inverseFunctionalObjectProperty _ => if size = 1 then 1 else 0
  | classAssertion c _ => c.obligations size - 1
  | _ => 0

/-- What the generic encoding of an axiom needs is among some expressions. -/
def EncodedIn (T : List ClassExpression) : Axiom → Prop
  | subClassOf c d => IncludedIn T c d
  | equivalentClasses cs => EqualIn T cs
  | disjointClasses cs => DisjointIn T cs
  | disjointUnion whole parts => EqualIn T [.named whole, .unionOf parts] ∧ DisjointIn T parts
  | objectPropertyDomain _ c | objectPropertyRange _ c | classAssertion c _ => c.FailsIn T
  | _ => True

end Axiom

namespace Grounding

open ClassExpression

variable {E : List Element} {s : Strategy} {T : List ClassExpression}

/-! ## Left-hand sides -/

mutual

theorem unfoldedBodies_gives (x : Element) : ∀ c : ClassExpression,
    Gives E s T (unfoldedBodies c x) (fun bodies => bodies.length ≤ c.alternatives) True
  | .nothing | .thing => by
    rw [unfoldedBodies]
    exact .pure (by simp [alternatives, canHold]) trivial
  | .oneOf is => by
    rw [unfoldedBodies]
    refine .map (members_gives is) fun xs _ => ?_
    rw [length_memberBodies]
    split <;> simp [alternatives, canHold]
  | .unionOf cs => by
    rw [unfoldedBodies, alternatives]
    exact unfoldedUnion_gives x cs
  | .intersectionOf cs => by
    rw [unfoldedBodies, alternatives]
    simpa using unfoldedProduct_gives x [[]] cs
  | .named _ | .complementOf _ | .someValuesFrom _ _ | .allValuesFrom _ _ | .hasValue _ _ | .hasSelf _
  | .minCardinality _ _ _ | .maxCardinality _ _ _ | .exactCardinality _ _ _ => by
    simp only [unfoldedBodies, alternatives]
    exact .needs (.map (holds_gives _ x) fun body hbody => by rw [length_toList, hbody])
      fun _ => trivial

theorem unfoldedUnion_gives (x : Element) : ∀ cs : List ClassExpression,
    Gives E s T (unfoldedUnion cs x) (fun bodies => bodies.length ≤ alternativesUnion cs) True
  | [] => by
    rw [unfoldedUnion]
    exact .pure (Nat.le_refl _) trivial
  | c :: cs => by
    rw [unfoldedUnion, alternativesUnion]
    refine .bind_left (unfoldedBodies_gives x c) fun first hfirst =>
      .map (unfoldedUnion_gives x cs) fun rest hrest => ?_
    rw [List.length_append]
    omega

theorem unfoldedProduct_gives (x : Element) (product : List Body) : ∀ cs : List ClassExpression,
    Gives E s T (unfoldedProduct product cs x)
      (fun bodies => bodies.length ≤ product.length * alternativesProduct cs) True
  | [] => by
    rw [unfoldedProduct, alternativesProduct]
    exact .pure (by simp) trivial
  | c :: cs => by
    rw [unfoldedProduct, alternativesProduct]
    refine .bind_left (unfoldedBodies_gives x c) fun alternatives hcount => ?_
    dsimp only
    split
    · exact .pure (Nat.zero_le _) trivial
    · refine .imp (unfoldedProduct_gives x _ cs) fun bodies hbodies => hbodies.trans ?_
      rw [← Nat.mul_assoc]
      refine Nat.mul_le_mul_right _ ?_
      simpa [List.length_flatMap] using Nat.mul_le_mul_left product.length hcount

end

/-- There are bodies only for an expression that can hold. -/
theorem lhsBodies_gives (c : ClassExpression) (x : Element) :
    Gives E s T (lhsBodies c x) (fun bodies => bodies ≠ [] → c.canHold) True := by
  refine .get fun κ _ _ => ?_
  split
  · exact .imp (unfoldedBodies_gives x c) fun bodies hbodies hne =>
      canHold_of_alternatives_pos (Nat.lt_of_lt_of_le (List.length_pos_iff.2 hne) hbodies)
  · refine .needs (.map (holds_gives c x) fun body hbody hne => ?_) fun _ => trivial
    cases body with
    | none => exact absurd rfl hne
    | some body => exact hbody.symm

theorem lhsBodies_direct (c : ClassExpression) (x : Element) :
    Gives E .direct T (lhsBodies c x) (fun bodies => bodies.length ≤ c.alternatives) True :=
  .of_direct (unfoldedBodies_gives x c)

theorem lhsBodies_naive (c : ClassExpression) (x : Element) :
    Gives E .naive T (lhsBodies c x) (fun bodies => bodies.length = if c.canHold then 1 else 0)
      (c.HoldsIn T) :=
  .of_naive (.map (holds_gives c x) fun body hbody => by rw [length_toList, hbody])

/-! ## Right-hand sides -/

theorem length_exclude (body : Body) (violation : Option Body) :
    (exclude body violation).length = if violation.isSome then 1 else 0 := by
  cases violation <;> rfl

theorem exclude_holdsNot_gives (c : ClassExpression) (x : Element) (body : Body) :
    Gives E s T (do return exclude body (← holdsNot c x))
      (fun rules => rules.length = if c.canFail then 1 else 0) (c.FailsIn T) :=
  .map (holdsNot_gives c x) fun violation h => by rw [length_exclude, h]

theorem assertMember_naive (c : ClassExpression) (x : Element) (body : Body) :
    Gives E .naive T (assertMember c x body)
      (fun rules => rules.length = if c.canFail then 1 else 0) (c.FailsIn T) := by
  cases c with
  | named iri =>
    rw [assertMember]
    exact .needs (.map (classAtom_gives iri x) fun _ _ => rfl) fun _ =>
      failsIn_of_deniedBy_isNone rfl
  | thing | nothing =>
    rw [assertMember]
    exact .pure rfl (failsIn_of_deniedBy_isNone rfl)
  | complementOf d =>
    cases d with
    | named iri =>
      rw [assertMember]
      exact .needs (.map (classAtom_gives iri x) fun _ _ => rfl) fun _ =>
        failsIn_of_deniedBy_isNone rfl
    | _ =>
      simp only [assertMember]
      exact .of_naive (exclude_holdsNot_gives _ x body)
  | _ =>
    simp only [assertMember]
    exact .of_naive (exclude_holdsNot_gives _ x body)

theorem length_excludeCount_le (ss : List (Element × Body)) (body : Body) (op : Comparison)
    (bound : Nat) : (excludeCount ss body op bound).length ≤ 1 := by
  unfold excludeCount
  split
  · split <;> simp
  · simp

theorem fillerSuccessors_gives (r : Role) (c : ClassExpression) (x : Element) :
    Gives E s T (fillerSuccessors r c x) (fun _ => True) True :=
  .of_repeatable (fillerSuccessors_repeatable (P := fun _ => True) (fun _ => trivial) r c x)

theorem assertAll_direct {cs : List ClassExpression} (x : Element) (body : Body)
    (h : ∀ c ∈ cs, Gives E .direct T (assertMember c x body)
      (fun rules => rules.length ≤ c.obligations E.length) True) :
    Gives E .direct T (assertAll cs x body)
      (fun rules => rules.length ≤ obligationsAll E.length cs) True := by
  induction cs with
  | nil =>
    rw [assertAll]
    exact .pure (Nat.zero_le _) trivial
  | cons c cs ih =>
    obtain ⟨hc, hcs⟩ := List.forall_mem_cons.1 h
    rw [assertAll, obligationsAll]
    refine .bind_left hc fun first hfirst => .map (ih hcs) fun rest hrest => ?_
    rw [List.length_append]
    omega

theorem assertStructure_direct {c : ClassExpression} (x : Element) (body : Body)
    (h : ∀ e : ClassExpression, e.weight < c.weight → ∀ x body, Gives E .direct T
      (assertMember e x body) (fun rules => rules.length ≤ e.obligations E.length) True) :
    Gives E .direct T (assertStructure c x body)
      (fun rules => rules.length ≤ c.obligations E.length) True := by
  cases c with
  | intersectionOf cs =>
    rw [assertStructure, obligations]
    refine assertAll_direct x body fun e he => h e ?_ x body
    have := weight_lt_of_mem he
    rw [weight]
    omega
  | unionOf cs =>
    rw [assertStructure]
    refine .map (.of_repeatable (conjoin_repeatable (P := fun _ => True) fun c _ =>
      (repeats_of_forall (fun _ => trivial) c).holdsNot x)) fun violation _ => ?_
    rw [length_exclude]
    split <;> simp [obligations, canFail]
  | oneOf is =>
    rw [assertStructure]
    refine .map (members_gives is) fun xs _ => ?_
    split <;> simp [obligations, canFail]
  | someValuesFrom r e =>
    rw [assertStructure]
    exact .map (fillerSuccessors_gives r e x) fun ss _ =>
      (length_excludeCount_le ss body _ _).trans (by simp [obligations, canFail])
  | allValuesFrom r e =>
    rw [assertStructure, obligations]
    refine .get fun κ hE _ => ?_
    rw [hE]
    exact .collect_le_mul fun y _ => .bind_left (roleAtom_gives r x y) fun role _ =>
      h e (by rw [weight]; omega) y _
  | hasValue r i =>
    rw [assertStructure]
    exact .bind_left (element_gives i) fun y _ => .map (roleAtom_gives r x y) fun a _ => by
      simp [obligations, canFail]
  | hasSelf r =>
    rw [assertStructure]
    exact .map (roleAtom_gives r x x) fun a _ => by simp [obligations, canFail]
  | minCardinality n r filler =>
    rw [assertStructure, obligations]
    split
    · exact .pure (Nat.le_refl _) trivial
    · exact .map (fillerSuccessors_gives r _ x) fun ss _ => length_excludeCount_le ss body _ _
  | maxCardinality n r filler =>
    rw [assertStructure]
    exact .map (fillerSuccessors_gives r _ x) fun ss _ =>
      (length_excludeCount_le ss body _ _).trans (by simp [obligations, canFail])
  | exactCardinality n r filler =>
    rw [assertStructure, obligations]
    refine .bind_left (fillerSuccessors_gives r _ x) fun fewer _ =>
      .map (fillerSuccessors_gives r _ x) fun more _ => ?_
    have hfewer := length_excludeCount_le fewer body .lt n.toNat
    have hmore := length_excludeCount_le more body .gt n.toNat
    rw [List.length_append]
    omega
  | _ =>
    simp only [assertStructure]
    exact .needs (.imp (exclude_holdsNot_gives _ x body) fun rules h => by
      simp only [h, obligations, Nat.le_refl]) fun _ => trivial

theorem assertMember_direct (c : ClassExpression) (x : Element) (body : Body) :
    Gives E .direct T (assertMember c x body)
      (fun rules => rules.length ≤ c.obligations E.length) True := by
  induction hn : c.weight using Nat.strongRecOn generalizing c x body with
  | ind n ih =>
  subst hn
  have hstructure := assertStructure_direct (T := T) x body fun e he x body => ih _ he e x body rfl
  cases c with
  | named iri =>
    rw [assertMember]
    exact .map (classAtom_gives iri x) fun _ _ => by simp [obligations, canFail]
  | thing | nothing =>
    rw [assertMember]
    exact .pure (by simp [obligations, canFail]) trivial
  | complementOf e =>
    cases e with
    | named iri =>
      rw [assertMember]
      exact .map (classAtom_gives iri x) fun _ _ => by simp [obligations, canFail, canHold]
    | _ =>
      simp only [assertMember]
      exact .of_direct hstructure
  | _ =>
    simp only [assertMember]
    exact .of_direct hstructure

/-! ## Inclusion and disjointness -/

/-- What is unfolded at some places is a rule for each, if there have to be rules, and repetition. -/
theorem mul_le_places_add {size n : Nat} {can : Bool} (h : 0 < n → can) :
    size * n ≤ (size * if can then 1 else 0) + size * (n - 1) := by
  rw [← Nat.mul_add]
  refine Nat.mul_le_mul_left size ?_
  rcases Nat.eq_zero_or_pos n with hzero | hpos
  · omega
  · rw [if_pos (h hpos)]
    omega

/-- Under the generic strategy a step returns at least as many rules as there are places. Under the
counting one it returns at most as many, but for repetition. The generic one needs `N`. -/
structure Comparable (E : List Element) (m : Grounding (List Rule)) (places repetition : Nat)
    (N : List ClassExpression → Prop) : Prop where
  naive : ∀ T, Gives E .naive T m (fun rules => places ≤ rules.length) (N T)
  direct : ∀ T, Gives E .direct T m (fun rules => rules.length ≤ places + repetition) True

namespace Comparable

variable {m m' : Grounding (List Rule)} {p p' r r' : Nat} {N N' : List ClassExpression → Prop}

/-- The strategy may not matter. -/
theorem of_eq {n : Nat} (h : ∀ s T, Gives E s T m (fun rules => rules.length = n) True) :
    Comparable E m n 0 fun _ => True :=
  ⟨fun T => .imp (h _ T) fun _ heq => heq.ge, fun T => .imp (h _ T) fun _ heq => heq.le⟩

theorem needs (h : Comparable E m p r N) (hN : ∀ T, N T → N' T) : Comparable E m p r N' :=
  ⟨fun T => .needs (h.naive T) (hN T), h.direct⟩

theorem get {f : Context → Grounding (List Rule)}
    (h : ∀ c : Context, c.elements = E → Comparable E (f c) p r N) :
    Comparable E (MonadState.get >>= f) p r N :=
  ⟨fun T => .get fun c hE _ => (h c hE).naive T, fun T => .get fun c hE _ => (h c hE).direct T⟩

/-- A rule for each item of a list. -/
theorem mapM {α : Type} {items : List α} {f : α → Grounding Rule}
    (hf : ∀ x s T, Gives E s T (f x) (fun _ => True) True) :
    Comparable E (items.mapM f) items.length 0 fun _ => True :=
  .of_eq fun s T => .length_mapM fun x => hf x s T

theorem append (h : Comparable E m p r N) (h' : Comparable E m' p' r' N') :
    Comparable E (do return (← m) ++ (← m')) (p + p') (r + r') fun T => N T ∧ N' T where
  naive T := .bind (h.naive T) fun _ _ => .map (h'.naive T) fun _ _ => by
    rw [List.length_append]
    omega
  direct T := .bind_left (h.direct T) fun _ _ => .map (h'.direct T) fun _ _ => by
    rw [List.length_append]
    omega

theorem collect {α : Type} {items : List α} {step : α → Grounding (List Rule)} {p r : α → Nat}
    {N : α → List ClassExpression → Prop} (h : ∀ x ∈ items, Comparable E (step x) (p x) (r x) (N x)) :
    Comparable E (collect items step) (items.map p).sum (items.map r).sum
      fun T => ∀ x ∈ items, N x T where
  naive T := .collect_ge fun x hx => (h x hx).naive T
  direct T := .imp (.collect_le fun x hx => (h x hx).direct T) fun _ hrules =>
    hrules.trans List.sum_map_add.le

end Comparable

theorem inclusion_comparable (hE : E ≠ []) (c d : ClassExpression) :
    Comparable E (inclusion c d) (inclusionPlaces E.length c d) (inclusionRepetition E.length c d)
      fun T => IncludedIn T c d := by
  refine .get fun κ hκ => ?_
  rw [hκ]
  refine ⟨fun T => ?_, fun T => ?_⟩
  · refine .needs (.collect_ge_mul fun x _ => ?_) fun h => h hE
    refine .bind (lhsBodies_naive c x) fun bodies hbodies => .needs (.imp (.collect_ge_mul
      fun body _ => .imp (assertMember_naive d x body) fun rules h => h.ge) fun rules hrules => ?_)
      fun h hcan => ?_
    · refine le_trans ?_ hrules
      rw [hbodies]
      cases c.canHold <;> cases d.canFail <;> simp
    · exact h (List.length_pos_iff.1 (by simp [hbodies, hcan]))
  · refine .imp (.collect_le_mul fun x _ => .bind_left (lhsBodies_direct c x) fun bodies hbodies =>
      .imp (.collect_le_mul fun body _ => assertMember_direct d x body) fun rules hrules =>
        hrules.trans (Nat.mul_le_mul_right _ hbodies)) fun rules hrules => hrules.trans ?_
    exact mul_le_places_add fun hpos => by
      simp [canHold_of_alternatives_pos (Nat.pos_of_mul_pos_right hpos),
        canFail_of_obligations_pos (Nat.pos_of_mul_pos_left hpos)]

theorem disjointness_comparable (hE : E ≠ []) (c d : ClassExpression) :
    Comparable E (disjointness c d) (disjointnessPlaces E.length c d)
      (disjointnessRepetition E.length c d) fun T => c.HoldsIn T ∧ d.HoldsIn T := by
  refine .get fun κ hκ => ?_
  rw [hκ]
  refine ⟨fun T => ?_, fun T => ?_⟩
  · refine .needs (.collect_ge_mul fun x _ => .bind (lhsBodies_naive c x) fun left hleft =>
      .map (lhsBodies_naive d x) fun right hright => ?_) fun h => h hE
    simp only [List.length_flatMap, List.length_map, List.map_const', List.sum_replicate_nat, hleft,
      hright]
    cases c.canHold <;> cases d.canHold <;> simp
  · refine .imp (.collect_le_mul (n := c.alternatives * d.alternatives) fun x _ =>
      .bind_left (lhsBodies_direct c x) fun left hleft =>
        .map (lhsBodies_direct d x) fun right hright => ?_) fun rules hrules => hrules.trans ?_
    · simpa [List.length_flatMap] using Nat.mul_le_mul hleft hright
    · exact mul_le_places_add fun hpos => by
        simp [canHold_of_alternatives_pos (Nat.pos_of_mul_pos_right hpos),
          canHold_of_alternatives_pos (Nat.pos_of_mul_pos_left hpos)]

/-- The number of places where a first expression can differ from the others. -/
def equivalencePlaces (size : Nat) : List ClassExpression → Nat
  | [] => 0
  | c :: cs => (cs.map fun d => inclusionPlaces size c d + inclusionPlaces size d c).sum

theorem equivalence_comparable (hE : E ≠ []) (cs : List ClassExpression) :
    Comparable E (equivalence cs) (equivalencePlaces E.length cs) (equivalenceRepetition E.length cs)
      fun T => EqualIn T cs := by
  cases cs with
  | nil => exact .of_eq fun s T => .pure rfl trivial
  | cons c cs =>
    exact .collect fun d _ => (inclusion_comparable hE c d).append (inclusion_comparable hE d c)

theorem pairwiseDisjointness_comparable (hE : E ≠ []) (cs : List ClassExpression) :
    Comparable E (pairwiseDisjointness cs)
      ((laterPairs cs).map fun (c, d) => disjointnessPlaces E.length c d).sum
      (pairwiseRepetition E.length cs) fun T => DisjointIn T cs :=
  .collect fun (c, d) _ => disjointness_comparable hE c d

/-! ## Roles -/

/-- A step that returns as many rules under both strategies, and needs nothing. -/
def Alike (E : List Element) (m : Grounding (List Rule)) : Prop :=
  ∃ p, Comparable E m p 0 fun _ => True

namespace Alike

/-- A step may depend on the elements. -/
theorem get {f : Context → Grounding (List Rule)} (hf : ∀ c, Alike E (f c))
    (hstable : ∀ c c' : Context, c'.elements = c.elements → f c' = f c) :
    Alike E (MonadState.get >>= f) := by
  let c₀ : Context := { (default : Context) with elements := E }
  obtain ⟨p, hp⟩ := hf c₀
  exact ⟨p, .get fun c hc => hstable c₀ c hc ▸ hp⟩

theorem mapM {α : Type} {items : List α} {f : α → Grounding Rule}
    (hf : ∀ x s T, Gives E s T (f x) (fun _ => True) True) : Alike E (items.mapM f) :=
  ⟨_, .mapM hf⟩

theorem append {m m' : Grounding (List Rule)} (h : Alike E m) (h' : Alike E m') :
    Alike E (do return (← m) ++ (← m')) := by
  obtain ⟨p, hp⟩ := h
  obtain ⟨p', hp'⟩ := h'
  exact ⟨_, (hp.append hp').needs fun _ _ => trivial⟩

theorem collect {α : Type} {items : List α} {step : α → Grounding (List Rule)}
    (h : ∀ x, Alike E (step x)) : Alike E (collect items step) := by
  choose p hp using h
  have hcollect := Comparable.collect fun x (_ : x ∈ items) => hp x
  have hzero : (items.map fun _ => 0).sum = 0 := by simp
  exact ⟨_, .needs (hzero ▸ hcollect) fun _ _ => trivial⟩

end Alike

theorem pairs_congr {c c' : Context} (h : c'.elements = c.elements) : c'.pairs = c.pairs := by
  rw [Context.pairs, Context.pairs, h]

theorem roleInclusion_alike (r t : Role) : Alike E (roleInclusion r t) :=
  .get (fun κ => .mapM fun p s T => .bind_left (roleAtom_gives r _ _) fun body _ =>
    .map (roleAtom_gives t _ _) fun _ _ => trivial) fun _ _ h => by rw [pairs_congr h]

theorem roleEquivalence_alike (rs : List Role) : Alike E (roleEquivalence rs) := by
  cases rs with
  | nil => exact ⟨0, .of_eq fun s T => .pure rfl trivial⟩
  | cons r rs =>
    exact .collect fun t => (roleInclusion_alike r t).append (roleInclusion_alike t r)

theorem transitivity_alike (r : Role) : Alike E (transitivity r) := by
  refine .get (fun κ => .collect fun p => .get (fun κ => .mapM fun z s T => ?_) fun _ _ h => by
    rw [h]) fun _ _ h => by rw [pairs_congr h]
  exact .bind_left (roleAtom_gives r p.1 p.2) fun _ _ => .bind_left (roleAtom_gives r p.2 z)
    fun _ _ => .map (roleAtom_gives r p.1 z) fun _ _ => trivial

theorem asymmetry_alike (r : Role) : Alike E (asymmetry r) := by
  refine .get (fun κ => .mapM fun p s T => .bind_left (roleAtom_gives r p.1 p.2) fun there _ => ?_)
    fun _ _ h => by rw [h]
  split
  · exact .pure trivial trivial
  · exact .map (roleAtom_gives r p.2 p.1) fun _ _ => trivial

/-- Two elements make a pair. -/
theorem length_le_mul_laterPairs (E : List Element) :
    E.length ≤ E.length * (laterPairs E).length + if E.length = 1 then 1 else 0 := by
  match E with
  | [] => simp
  | [x] => simp
  | x :: y :: zs =>
    have hpairs : 0 < (laterPairs (x :: y :: zs)).length := by simp [laterPairs]
    have := Nat.le_mul_of_pos_right (x :: y :: zs).length hpairs
    omega

theorem functionality_comparable (r : Role) : Comparable E (functionality r)
    (E.length * (laterPairs E).length) (if E.length = 1 then 1 else 0) fun _ => True := by
  refine .get fun κ hκ => ?_
  rw [hκ]
  refine ⟨fun T => .needs (.collect_ge_mul (N := True) fun x _ => .of_naive (.get fun κ hκ _ => ?_))
    fun _ => trivial, fun T => .imp (.collect_le_mul (n := 1) fun x _ => .of_direct (.get
      fun κ _ _ => ?_)) fun rules hrules => ?_⟩
  · rw [hκ]
    exact .imp (.length_mapM fun p => .bind_left (roleAtom_gives r x _) fun first _ =>
      .map (roleAtom_gives r x _) fun _ _ => trivial) fun rules h => h.ge
  · exact .map (.length_mapM fun y => .map (roleAtom_gives r x y) fun _ _ => trivial)
      fun _ _ => Nat.le_refl 1
  · rw [Nat.mul_one] at hrules
    exact hrules.trans (length_le_mul_laterPairs E)

theorem length_pairs (c : Context) : c.pairs.length = c.elements.length * c.elements.length := by
  simp [Context.pairs, List.length_flatMap]

theorem typing_comparable (hE : E ≠ []) (r : Role) (c : ClassExpression)
    (typed : Element × Element → Element) :
    Comparable E (typing r c typed) (E.length * E.length * if c.canFail then 1 else 0)
      (E.length * E.length * (c.obligations E.length - 1)) fun T => c.FailsIn T := by
  refine .get fun κ hκ => ?_
  have hpairs : κ.pairs ≠ [] := by
    rw [← List.length_pos_iff, length_pairs, hκ]
    exact Nat.mul_pos (List.length_pos_iff.2 hE) (List.length_pos_iff.2 hE)
  refine ⟨fun T => .imp (.needs (.collect_ge_mul fun p _ => .needs (.bind (roleAtom_gives r _ _)
    fun role _ => .imp (assertMember_naive c _ _) fun rules h => h.ge) And.right) fun h => h hpairs)
    fun rules hrules => ?_, fun T => .imp (.collect_le_mul fun p _ => .bind_left
      (roleAtom_gives r _ _) fun role _ => assertMember_direct c _ _) fun rules hrules => ?_⟩
  · rwa [length_pairs, hκ] at hrules
  · rw [length_pairs, hκ] at hrules
    exact hrules.trans (mul_le_places_add canFail_of_obligations_pos)

/-! ## All axioms -/

theorem sameIndividual_alike (is : List Individual) : Alike E (axiomRules (.sameIndividual is)) := by
  let xs := is.filterMap fun i => E.find? (·.individual = i)
  refine ⟨if differ xs then 1 else 0, .of_eq fun s T => .map (members_gives is) fun ys hys => ?_⟩
  have hsame : ys = xs := calc
    ys = (ys.map some).filterMap id := by simp
    _ = xs := by rw [hys, List.filterMap_map]; rfl
  rw [hsame]
  split <;> rfl

/-- Every axiom has as many rules in the counting encoding as in the generic one, but for repetition. -/
theorem axiomRules_comparable (hE : E ≠ []) (a : Axiom) :
    ∃ p, Comparable E (axiomRules a) p (a.repetition E.length) fun T => a.EncodedIn T := by
  cases a with
  | declaration e => exact ⟨0, .of_eq fun s T => .pure rfl trivial⟩
  | subClassOf c d => exact ⟨_, inclusion_comparable hE c d⟩
  | equivalentClasses cs => exact ⟨_, equivalence_comparable hE cs⟩
  | disjointClasses cs => exact ⟨_, pairwiseDisjointness_comparable hE cs⟩
  | disjointUnion whole parts =>
    exact ⟨_, (equivalence_comparable hE _).append (pairwiseDisjointness_comparable hE parts)⟩
  | subObjectPropertyOf r t => exact roleInclusion_alike r t
  | equivalentObjectProperties rs => exact roleEquivalence_alike rs
  | disjointObjectProperties rs =>
    refine Alike.collect fun p => .get (fun κ => .mapM fun q s T => ?_) fun _ _ h => by
      rw [pairs_congr h]
    exact .bind_left (roleAtom_gives p.1 q.1 q.2) fun _ _ =>
      .map (roleAtom_gives p.2 q.1 q.2) fun _ _ => trivial
  | inverseObjectProperties r t => exact roleEquivalence_alike [r, t.inverse]
  | objectPropertyDomain r c | objectPropertyRange r c => exact ⟨_, typing_comparable hE r c _⟩
  | functionalObjectProperty r | inverseFunctionalObjectProperty r =>
    exact ⟨_, functionality_comparable _⟩
  | reflexiveObjectProperty r | irreflexiveObjectProperty r =>
    exact Alike.get (fun κ => .mapM fun x s T => .map (roleAtom_gives r x x) fun _ _ => trivial)
      fun _ _ h => by rw [h]
  | symmetricObjectProperty r =>
    refine Alike.get (fun κ => .mapM fun p s T => ?_) fun _ _ h => by rw [pairs_congr h]
    exact .bind_left (roleAtom_gives r p.1 p.2) fun _ _ =>
      .map (roleAtom_gives r p.2 p.1) fun _ _ => trivial
  | asymmetricObjectProperty r => exact asymmetry_alike r
  | transitiveObjectProperty r => exact transitivity_alike r
  | sameIndividual is => exact sameIndividual_alike is
  | differentIndividuals is =>
    exact ⟨0, .of_eq fun s T => .bind_left (members_gives is) fun _ _ => .pure rfl trivial⟩
  | classAssertion c i =>
    refine ⟨1 * if c.canFail then 1 else 0, fun T => .needs (.bind (element_gives i) fun x _ =>
      .imp (assertMember_naive c x []) fun rules h => by rw [h, Nat.one_mul]) And.right, fun T =>
        .bind_left (element_gives i) fun x _ => .imp (assertMember_direct c x []) fun rules h => ?_⟩
    rw [← Nat.one_mul rules.length, Axiom.repetition, ← Nat.one_mul (_ - 1)]
    exact (Nat.mul_le_mul_left 1 h).trans (mul_le_places_add canFail_of_obligations_pos)
  | objectPropertyAssertion r i j | negativeObjectPropertyAssertion r i j =>
    exact ⟨1, .of_eq fun s T => .bind_left (element_gives i) fun x _ =>
      .bind_left (element_gives j) fun y _ => .map (roleAtom_gives r x y) fun _ _ => rfl⟩
  | unsupported keyword source => exact ⟨0, .of_eq fun s T => .fail _⟩

end Grounding

end FixedDomain
