import Mathlib.Algebra.Order.BigOperators.Group.List
import FixedDomain.Proofs.Grounding.Additions
import FixedDomain.Proofs.Grounding.Successors

/-! # What expressions need, and how many bodies they get

* `ClassExpression.canHold`, `ClassExpression.canFail` — whether there is a body that an element belongs,
  or does not belong, to an expression.
* `ClassExpression.HoldsIn`, `ClassExpression.FailsIn` — some expressions have among them the one whose
  auxiliary predicate such a body needs; `ClassExpression.DefinedIn` — they have all that the definition of
  an expression needs.
* `Grounding.Gives` — what a step returns meets a condition, provided that all definitions of the context
  that it leaves are among some expressions.

A body exists or not whatever the strategy, so that it can be told from the expression how many bodies
define it: `ClassExpression.bodyCount` is exceeded neither by the counting encoding (`define_direct`) nor,
but for lower bounds that no element can meet, does it exceed the generic one (`define_naive`).
-/

namespace FixedDomain

namespace ClassExpression

/-! ## Single bodies -/

/-- Whether there is a body that an element belongs to an expression. -/
def canHold : ClassExpression → Bool
  | nothing | complementOf thing => false
  | _ => true

/-- Whether there is a body that an element does not belong to an expression. -/
def canFail : ClassExpression → Bool
  | thing => false
  | complementOf c => c.canHold
  | _ => true

/-- The expression whose auxiliary predicate the body for membership needs. -/
def heldBy : ClassExpression → Option ClassExpression
  | named _ | thing | nothing => none
  | complementOf c => if c.isLiteral then none else some (complementOf c)
  | c => some c

/-- The expression whose auxiliary predicate the body against membership needs. -/
def deniedBy : ClassExpression → Option ClassExpression
  | named _ | thing | nothing => none
  | complementOf c => c.heldBy
  | c => some c

variable {T : List ClassExpression}

/-- What the body for membership needs is among some expressions. -/
def HoldsIn (T : List ClassExpression) (c : ClassExpression) : Prop := ∀ d ∈ c.heldBy, d ∈ T

/-- What the body against membership needs is among some expressions. -/
def FailsIn (T : List ClassExpression) (c : ClassExpression) : Prop := ∀ d ∈ c.deniedBy, d ∈ T

theorem holdsIn_of_heldBy_isNone {c : ClassExpression} (h : c.heldBy.isNone) : c.HoldsIn T := by
  intro d hd
  rw [Option.isNone_iff_eq_none.1 h] at hd
  cases hd

theorem failsIn_of_deniedBy_isNone {c : ClassExpression} (h : c.deniedBy.isNone) : c.FailsIn T := by
  intro d hd
  rw [Option.isNone_iff_eq_none.1 h] at hd
  cases hd

/-- What the conjunction of the bodies for membership needs is among some expressions. Nothing is needed
behind an expression that cannot hold. -/
def AllHoldIn (T : List ClassExpression) : List ClassExpression → Prop
  | [] => True
  | c :: cs => c.HoldsIn T ∧ (c.canHold → AllHoldIn T cs)

/-- What the generic definition of an expression needs is among some expressions. -/
def DefinedIn (T : List ClassExpression) : ClassExpression → Prop
  | intersectionOf cs => AllHoldIn T cs
  | unionOf cs => ∀ c ∈ cs, c.HoldsIn T
  | complementOf c => c.FailsIn T
  | someValuesFrom _ c => c.HoldsIn T
  | allValuesFrom r c => someValuesFrom r c.negation ∈ T
  | minCardinality n _ filler => n ≠ 0 → (fillerOrThing filler).HoldsIn T
  | maxCardinality n r filler => minCardinality (nextCardinality n) r filler ∈ T
  | exactCardinality n r filler =>
    minCardinality n r filler ∈ T ∧ minCardinality (nextCardinality n) r filler ∈ T
  | _ => True

theorem isLiteral_iff {c : ClassExpression} : c.isLiteral ↔
    (∃ iri, c = named iri) ∨ c = thing ∨ c = nothing ∨ ∃ iri, c = complementOf (named iri) := by
  cases c with
  | complementOf d => cases d <;> simp [isLiteral]
  | _ => simp [isLiteral]

/-- Bodies against literals need no auxiliary predicate, and exist where those for their complements
do. -/
theorem of_isLiteral {c : ClassExpression} (h : c.isLiteral) :
    c.deniedBy = none ∧ (complementOf c).canHold = c.canFail := by
  obtain ⟨iri, rfl⟩ | rfl | rfl | ⟨iri, rfl⟩ := isLiteral_iff.1 h <;> exact ⟨rfl, rfl⟩

theorem canHold_complementOf {c : ClassExpression} (h : ¬ c.isLiteral) :
    (complementOf c).canHold := by
  cases c with
  | thing => simp [isLiteral] at h
  | _ => rfl

/-! ## Definitions -/

/-- How many bodies define an expression at an element, if there is an element that roles can lead to. An
existential restriction, and a bound that an element can meet, count once. -/
def bodyCount (elements : List Element) (x : Element) : ClassExpression → Nat
  | nothing => 0
  | intersectionOf cs => if cs.all canHold then 1 else 0
  | unionOf cs => cs.countP canHold
  | complementOf c => if c.canFail then 1 else 0
  | oneOf is => if some x ∈ is.map (fun i => elements.find? (·.individual = i)) then 1 else 0
  | someValuesFrom _ c => if c.canHold then 1 else 0
  | minCardinality n _ filler => if n = 0 ∨ (fillerOrThing filler).canHold then 1 else 0
  | _ => 1

/-- Restrictions of a role by a filler. -/
def isRestriction : ClassExpression → Bool
  | someValuesFrom _ _ | allValuesFrom _ _ | minCardinality _ _ _ | maxCardinality _ _ _
  | exactCardinality _ _ _ => true
  | _ => false

/-- A lower bound above the number of elements. -/
def exceeds (size : Nat) : ClassExpression → Bool
  | minCardinality n _ _ => size < n.toNat
  | _ => false

end ClassExpression

namespace Grounding

open ClassExpression

variable {α β : Type} {E : List Element} {s : Strategy} {T : List ClassExpression}

theorem sum_map_le_of_forall₂ {f : α → Nat} {g : β → Nat} {xs : List α} {ys : List β}
    (h : List.Forall₂ (fun x y => f x ≤ g y) xs ys) : (xs.map f).sum ≤ (ys.map g).sum :=
  (List.forall₂_map_left_iff.2 (List.forall₂_map_right_iff.2 h)).sum_le_sum

/-! ## Steps -/

/-- In contexts over some elements and under a strategy, what a step returns meets a condition. It has
needs `N`: they are met if all definitions of the context that it leaves are among some expressions. -/
structure Gives (E : List Element) (s : Strategy) (T : List ClassExpression) (m : Grounding α)
    (Q : α → Prop) (N : Prop) : Prop where
  le : ∀ {c : Context}, c.elements = E → c.strategy = s → c ≤ (m.exec c).2
  ok : ∀ {c a c'}, c.elements = E → c.strategy = s → m.exec c = (.ok a, c') →
    Q a ∧ ((∀ d ∈ c'.definitions, d ∈ T) → N)

namespace Gives

variable {m : Grounding α} {f : α → Grounding β} {P : α → Prop} {Q : β → Prop} {M N : Prop}

theorem of_repeatable {R : ClassExpression → Prop} (hm : Repeatable R m) :
    Gives E s T m (fun _ => True) True :=
  ⟨fun {c} _ _ => (hm.additions c).le, fun _ _ _ => ⟨trivial, fun _ => trivial⟩⟩

theorem pure {a : α} (h : P a) (hN : N) : Gives E s T (pure a) P N := by
  refine ⟨fun {c} _ _ => c.le_refl, fun _ _ hrun => ?_⟩
  cases hrun
  exact ⟨h, fun _ => hN⟩

theorem fail (e : ReasonerError) : Gives E s T (fail e) P N :=
  ⟨fun {c} _ _ => c.le_refl, fun _ _ hrun => nomatch hrun⟩

/-- What is known of a result may be said in another way. -/
theorem imp {P' : α → Prop} (hm : Gives E s T m P N) (h : ∀ a, P a → P' a) : Gives E s T m P' N :=
  ⟨hm.le, fun hE hs hrun => (hm.ok hE hs hrun).imp_left (h _)⟩

/-- So may what is needed. -/
theorem needs (hm : Gives E s T m P M) (h : M → N) : Gives E s T m P N :=
  ⟨hm.le, fun hE hs hrun => (hm.ok hE hs hrun).imp_right fun hM hT => h (hM hT)⟩

theorem bind (hm : Gives E s T m P M) (hf : ∀ a, P a → Gives E s T (f a) Q N) :
    Gives E s T (m >>= f) Q (M ∧ N) := by
  refine ⟨fun {c} hE hs => ?_, fun {c b c'} hE hs hrun => ?_⟩
  · have hgrown := hm.le hE hs
    rcases exec_bind_cases m f c with ⟨a, c', hfirst, hexec⟩ | ⟨e, c', hfirst, hexec⟩
    · rw [hfirst] at hgrown
      rw [hexec]
      exact Context.le_trans hgrown ((hf a (hm.ok hE hs hfirst).1).le (hgrown.elements.trans hE)
        (hgrown.strategy.trans hs))
    · rw [hfirst] at hgrown
      rwa [hexec]
  · have hgrown := hm.le hE hs
    rcases exec_bind_cases m f c with ⟨a, c₁, hfirst, hexec⟩ | ⟨e, c₁, hfirst, hexec⟩
    · rw [hfirst] at hgrown
      rw [hexec] at hrun
      obtain ⟨ha, hM⟩ := hm.ok hE hs hfirst
      have hE₁ := hgrown.elements.trans hE
      have hs₁ := hgrown.strategy.trans hs
      have hrest := (hf a ha).le hE₁ hs₁
      rw [hrun] at hrest
      obtain ⟨hb, hN⟩ := (hf a ha).ok hE₁ hs₁ hrun
      -- nothing is undefined again
      refine ⟨hb, fun hT => ⟨hM fun d hd => ?_, hN hT⟩⟩
      obtain ⟨k, hk⟩ := List.mem_iff_getElem?.1 hd
      exact hT d (List.mem_of_getElem? (hrest.definitions k d hk))
    · rw [hexec] at hrun
      cases hrun

/-- A second step that needs nothing. -/
theorem bind_left (hm : Gives E s T m P N) (hf : ∀ a, P a → Gives E s T (f a) Q True) :
    Gives E s T (m >>= f) Q N := (hm.bind hf).needs And.left

/-- What is returned is changed by a function. -/
theorem map {g : α → β} (hm : Gives E s T m P N) (hg : ∀ a, P a → Q (g a)) :
    Gives E s T (m >>= fun a => Pure.pure (g a)) Q N :=
  hm.bind_left fun a ha => .pure (hg a ha) trivial

theorem get {f : Context → Grounding β}
    (hf : ∀ c : Context, c.elements = E → c.strategy = s → Gives E s T (f c) Q N) :
    Gives E s T (MonadState.get >>= f) Q N := by
  have hexec : ∀ c, (MonadState.get >>= f : Grounding β).exec c = (f c).exec c := fun c => rfl
  refine ⟨fun {c} hE hs => ?_, fun {c b c'} hE hs hrun => ?_⟩
  · rw [hexec]
    exact (hf c hE hs).le hE hs
  · rw [hexec] at hrun
    exact (hf c hE hs).ok hE hs hrun

/-- Under the counting strategy a step takes the first branch. -/
theorem of_direct {m m' : Grounding β} (hm : Gives E .direct T m Q N) :
    Gives E .direct T (do if (← MonadState.get).isDirect then m else m') Q N :=
  .get fun c _ hs => by simpa [Context.isDirect, hs] using hm

/-- Under the generic strategy a step takes the second branch. -/
theorem of_naive {m m' : Grounding β} (hm : Gives E .naive T m' Q N) :
    Gives E .naive T (do if (← MonadState.get).isDirect then m else m') Q N :=
  .get fun c _ hs => by simpa [Context.isDirect, hs] using hm

theorem mapM {f : α → Grounding β} {items : List α} {Q : α → β → Prop} {N : α → Prop}
    (hf : ∀ x ∈ items, Gives E s T (f x) (Q x) (N x)) :
    Gives E s T (items.mapM f) (List.Forall₂ Q items) (∀ x ∈ items, N x) := by
  induction items with
  | nil => exact pure .nil (List.forall_mem_nil _)
  | cons x xs ih =>
    obtain ⟨hx, hxs⟩ := List.forall_mem_cons.1 hf
    rw [List.mapM_cons]
    exact .needs (.bind hx fun y hy => .map (ih hxs) fun ys hys => .cons hy hys)
      List.forall_mem_cons.2

theorem length_mapM {f : α → Grounding β} {items : List α}
    (hf : ∀ x, Gives E s T (f x) (fun _ => True) True) :
    Gives E s T (items.mapM f) (fun ys => ys.length = items.length) True :=
  .needs (.imp (mapM fun x _ => hf x) fun _ h => h.length_eq.symm) fun _ => trivial

/-- The results for the items of a list are at most as many as there may be for each. -/
theorem collect_le {items : List α} {step : α → Grounding (List β)} {bound : α → Nat}
    (hstep : ∀ x ∈ items, Gives E s T (step x) (fun ys => ys.length ≤ bound x) True) :
    Gives E s T (collect items step) (fun ys => ys.length ≤ (items.map bound).sum) True :=
  .map (.needs (mapM hstep) fun _ => trivial) fun lists hlists => by
    rw [List.length_flatten]
    exact sum_map_le_of_forall₂ hlists.flip

/-- The results for the items of a list are at least as many as there have to be for each. -/
theorem collect_ge {items : List α} {step : α → Grounding (List β)} {bound : α → Nat} {N : α → Prop}
    (hstep : ∀ x ∈ items, Gives E s T (step x) (fun ys => bound x ≤ ys.length) (N x)) :
    Gives E s T (collect items step) (fun ys => (items.map bound).sum ≤ ys.length)
      (∀ x ∈ items, N x) :=
  (mapM hstep).map fun lists hlists => by
    rw [List.length_flatten]
    exact sum_map_le_of_forall₂ hlists

/-- At most so many results for each item of a list. -/
theorem collect_le_mul {items : List α} {step : α → Grounding (List β)} {n : Nat}
    (hstep : ∀ x ∈ items, Gives E s T (step x) (fun ys => ys.length ≤ n) True) :
    Gives E s T (collect items step) (fun ys => ys.length ≤ items.length * n) True :=
  .imp (collect_le hstep) fun ys hys => by simpa using hys

/-- At least so many results for each item of a list. -/
theorem collect_ge_mul {items : List α} {step : α → Grounding (List β)} {n : Nat} {N : Prop}
    (hstep : ∀ x ∈ items, Gives E s T (step x) (fun ys => n ≤ ys.length) N) :
    Gives E s T (collect items step) (fun ys => items.length * n ≤ ys.length) (items ≠ [] → N) := by
  refine .needs (.imp (collect_ge hstep) fun ys hys => ?_) fun h hne => ?_
  · simpa using hys
  · obtain ⟨x, hx⟩ := List.exists_mem_of_ne_nil items hne
    exact h x hx

end Gives

/-! ## Symbols and elements -/

theorem roleAtom_gives (r : Role) (x y : Element) :
    Gives E s T (roleAtom r x y) (fun _ => True) True :=
  .of_repeatable (roleAtom_repeatable (P := fun _ => True) r x y)

theorem element_gives (i : Individual) : Gives E s T (element i)
    (fun x => E.find? (·.individual = i) = some x) True := by
  refine .get fun c hE _ => ?_
  rw [hE]
  split
  · next x hx => exact .pure hx trivial
  · exact .fail _

theorem members_gives (is : List Individual) : Gives E s T (members is)
    (fun xs => xs.map some = is.map fun i => E.find? (·.individual = i)) True := by
  refine .needs (.imp (.mapM fun i _ => element_gives i) fun xs hxs => ?_) fun _ => trivial
  induction hxs with
  | nil => rfl
  | cons hx _ ih => rw [List.map_cons, List.map_cons, hx, ih]

/-! ## Bodies -/

/-- An expression with an auxiliary predicate is defined. -/
theorem auxFor_gives (d : ClassExpression) : Gives E s T (auxFor d) (fun _ => True) (d ∈ T) := by
  have hlighter : ∀ {Q : ClassExpression → Prop}, (∀ e : ClassExpression, e.weight < d.weight → Q e) →
      ∀ e : ClassExpression, e.weight < d.weight → Repeats Q e := fun hQ e he =>
    repeats_of_weight fun e' he' => hQ e' (Nat.lt_of_le_of_lt he' he)
  have hrepeats := Gives.of_repeatable (E := E) (s := s) (T := T) (auxFor_repeatable
    (P := fun _ => True) trivial (definitionBodies_repeatable (hlighter fun _ _ => trivial))
    (hlighter fun _ he => he))
  refine ⟨hrepeats.le, fun {c k c'} hE hs hrun => ⟨trivial, fun hT => hT d ?_⟩⟩
  rcases auxFor_cases hrun with ⟨j, hj, -, rfl⟩ | ⟨-, bodies, c₁, -, -, rfl⟩
  · by_contra hnot
    simp [List.idxOf?_eq_none_iff.2 hnot] at hj
  · simp [Context.withDefinition]

theorem classAtom_gives (iri : Iri) (x : Element) :
    Gives E s T (classAtom iri x) (fun _ => True) True :=
  .of_repeatable (classAtom_repeatable (P := fun _ => True) iri x)

theorem holdsNot_gives_of_isLiteral {d : ClassExpression} (hd : d.isLiteral) (x : Element) :
    Gives E s T (holdsNot d x) (fun b => b.isSome = d.canFail) True := by
  obtain ⟨iri, rfl⟩ | rfl | rfl | ⟨iri, rfl⟩ := isLiteral_iff.1 hd
  · rw [holdsNot]
    exact (classAtom_gives iri x).map fun _ _ => rfl
  · rw [holdsNot]
    exact .pure rfl trivial
  · rw [holdsNot]
    exact .pure rfl trivial
  · rw [holdsNot, holds]
    exact (classAtom_gives iri x).map fun _ _ => rfl

theorem holds_gives (d : ClassExpression) (x : Element) :
    Gives E s T (holds d x) (fun b => b.isSome = d.canHold) (d.HoldsIn T) := by
  cases d with
  | named iri =>
    rw [holds]
    exact .needs (.map (classAtom_gives iri x) fun _ _ => rfl) fun _ =>
      holdsIn_of_heldBy_isNone rfl
  | thing | nothing =>
    rw [holds]
    exact .pure rfl (holdsIn_of_heldBy_isNone rfl)
  | complementOf e =>
    rw [holds]
    split
    · next hliteral =>
      obtain ⟨-, hcan⟩ := of_isLiteral hliteral
      refine .needs (.imp (holdsNot_gives_of_isLiteral hliteral x) fun b hb => hb.trans hcan.symm)
        fun _ => ?_
      simp [HoldsIn, heldBy, hliteral]
    · next hliteral =>
      refine .needs (.map (auxFor_gives _) fun _ _ => ?_) fun hmem => ?_
      · exact (canHold_complementOf hliteral).symm
      · simpa [HoldsIn, heldBy, hliteral] using hmem
  | _ =>
    simp only [holds]
    exact .needs (.map (auxFor_gives _) fun _ _ => rfl) fun hmem => by
      simpa [HoldsIn, heldBy] using hmem

theorem holdsNot_gives (d : ClassExpression) (x : Element) :
    Gives E s T (holdsNot d x) (fun b => b.isSome = d.canFail) (d.FailsIn T) := by
  cases d with
  | named iri =>
    rw [holdsNot]
    exact .needs (.map (classAtom_gives iri x) fun _ _ => rfl) fun _ =>
      failsIn_of_deniedBy_isNone rfl
  | thing | nothing =>
    rw [holdsNot]
    exact .pure rfl (failsIn_of_deniedBy_isNone rfl)
  | complementOf e =>
    rw [holdsNot]
    exact holds_gives e x
  | _ =>
    simp only [holdsNot]
    exact .needs (.map (auxFor_gives _) fun _ _ => rfl) fun hmem => by
      simpa [FailsIn, deniedBy] using hmem

theorem holdsAll_gives (cs : List ClassExpression) (x : Element) :
    Gives E s T (holdsAll cs x) (fun b => b.isSome = cs.all canHold) (AllHoldIn T cs) := by
  induction cs with
  | nil =>
    rw [holdsAll]
    exact .pure rfl trivial
  | cons c cs ih =>
    rw [holdsAll]
    refine (holds_gives c x).bind fun first hfirst => ?_
    cases first with
    | none =>
      have hcan : c.canHold = false := hfirst.symm
      exact .pure (by simp [hcan]) (by simp [hcan])
    | some first =>
      have hcan : c.canHold = true := hfirst.symm
      refine .needs (.bind_left ih fun rest hrest => ?_) fun h _ => h
      cases rest with
      | none => exact .pure (by simpa [hcan] using hrest) trivial
      | some rest => exact .pure (by simpa [hcan] using hrest) trivial

theorem holdsSome_gives (cs : List ClassExpression) (x : Element) :
    Gives E s T (holdsSome cs x) (fun bs => bs.length = cs.countP canHold)
      (∀ c ∈ cs, c.HoldsIn T) := by
  induction cs with
  | nil =>
    rw [holdsSome]
    exact .pure rfl (List.forall_mem_nil _)
  | cons c cs ih =>
    rw [holdsSome]
    refine .needs (.bind (holds_gives c x) fun first hfirst => .map ih fun rest hrest => ?_)
      List.forall_mem_cons.2
    rw [List.length_append, hrest, List.countP_cons, ← hfirst]
    cases first <;> simp [Nat.add_comm]

/-- There are as many successors as elements, or there are none. -/
theorem related_gives (r : Role) (x : Element) {fillerBody : Element → Grounding (Option Body)}
    {can : Bool} {N : Prop} (h : ∀ y, Gives E s T (fillerBody y) (fun b => b.isSome = can) N) :
    Gives E s T (related r x fillerBody) (fun ss => ss.length = if can then E.length else 0)
      (E ≠ [] → N) := by
  refine .get fun c hE _ => ?_
  rw [hE]
  refine .needs (.map (.mapM (Q := fun _ found => found.isSome = can) (N := fun _ => N)
    fun y _ => ?_) fun found hfound => ?_) fun hN hne => ?_
  · refine .bind_left (h y) fun body hbody => ?_
    cases body with
    | none => exact .pure hbody trivial
    | some body => exact (roleAtom_gives r x y).map fun _ _ => hbody
  · clear hE h
    induction hfound with
    | nil => simp
    | @cons y first ys found hy _ ih =>
      cases first with
      | none =>
        obtain rfl : can = false := hy.symm
        simpa using ih
      | some first =>
        obtain rfl : can = true := hy.symm
        simpa using ih
  · obtain ⟨y, hy⟩ := List.exists_mem_of_ne_nil E hne
    exact hN y hy

/-! ## Definitions -/

theorem length_toList (b : Option Body) : b.toList.length = if b.isSome then 1 else 0 := by
  cases b <;> rfl

theorem length_memberBodies (xs : List Element) (x : Element) :
    (memberBodies xs x).length = if x ∈ xs then 1 else 0 := by
  unfold memberBodies
  split <;> rfl

theorem length_countBodies_le (ss : List (Element × Body)) (op : Comparison) (bound : Nat) :
    (countBodies ss op bound).length ≤ 1 := by
  unfold countBodies
  split
  · split <;> simp
  · simp

theorem length_countBodies_of_not_holds {ss : List (Element × Body)} {op : Comparison} {bound : Nat}
    (h : op.holds 0 bound = false) :
    (countBodies ss op bound).length ≤ if ss.length = 0 then 0 else 1 := by
  cases ss with
  | nil => simp [countBodies, h]
  | cons s ss => exact length_countBodies_le _ _ _

theorem choose_ne_nil {α : Type} {n : Nat} {xs : List α} (h : n ≤ xs.length) : choose n xs ≠ [] :=
  List.ne_nil_of_mem (mem_choose.2 ⟨List.take_sublist n xs, List.length_take_of_le h⟩)

/-- The strategy matters only for restrictions. -/
theorem define_gives {d : ClassExpression} (hd : d.isRestriction = false) (x : Element) :
    Gives E s T (define d x) (fun bodies => bodies.length = d.bodyCount E x) (d.DefinedIn T) := by
  cases d with
  | named iri =>
    rw [define]
    exact .needs (.map (classAtom_gives iri x) fun _ _ => rfl) id
  | thing | nothing =>
    rw [define]
    exact .pure rfl trivial
  | intersectionOf cs =>
    rw [define]
    exact .map (holdsAll_gives cs x) fun b hb => by rw [length_toList, hb, bodyCount]
  | unionOf cs =>
    rw [define]
    exact holdsSome_gives cs x
  | complementOf e =>
    rw [define]
    exact .map (holdsNot_gives e x) fun b hb => by rw [length_toList, hb, bodyCount]
  | oneOf is =>
    rw [define]
    exact .map (members_gives is) fun xs hxs => by
      simp only [length_memberBodies, bodyCount, ← hxs,
        List.mem_map_of_injective (Option.some_injective _)]
  | hasValue r i =>
    rw [define]
    exact .needs (.bind (element_gives i) fun y _ => .map (roleAtom_gives r x y) fun _ _ => rfl)
      fun _ => trivial
  | hasSelf r =>
    rw [define]
    exact .map (roleAtom_gives r x x) fun _ _ => rfl
  | _ => cases hd

/-- The counting encoding defines an expression by few bodies. -/
theorem define_direct (d : ClassExpression) (x : Element) :
    Gives E .direct T (define d x) (fun bodies => bodies.length ≤ d.bodyCount E x) True := by
  have hsuccessors : ∀ (r : Role) (e : ClassExpression), Gives E .direct T
      (related r x fun y => holds e y) (fun ss => ss.length = if e.canHold then E.length else 0) True :=
    fun r e => .needs (related_gives r x (holds_gives e)) fun _ => trivial
  cases d with
  | someValuesFrom r e =>
    rw [define]
    refine .bind_left (hsuccessors r e) fun ss hss => .of_direct (.pure ?_ trivial)
    refine (length_countBodies_of_not_holds rfl).trans ?_
    rw [bodyCount, hss]
    split <;> split <;> simp_all
  | allValuesFrom r e =>
    rw [define]
    exact .of_direct (.map (.needs (related_gives r x (holdsNot_gives e)) fun _ => trivial)
      fun ss _ => length_countBodies_le ss _ _)
  | minCardinality n r filler =>
    rw [define]
    split
    · next hn => exact .pure (by simp [bodyCount, hn]) trivial
    · next hn =>
      refine .bind_left (hsuccessors r _) fun ss hss => .of_direct (.pure ?_ trivial)
      have hzero : n.toNat ≠ 0 := fun h => hn (UInt32.toNat_inj.1 h)
      refine (length_countBodies_of_not_holds (by simp [Comparison.holds, hzero])).trans ?_
      simp only [bodyCount, hss, hn, false_or]
      split <;> split <;> simp_all
  | maxCardinality n r filler | exactCardinality n r filler =>
    rw [define]
    exact .of_direct (.map (hsuccessors r _) fun ss _ => length_countBodies_le ss _ _)
  | _ => exact .needs (.imp (define_gives rfl x) fun bodies h => h.le) fun _ => trivial

/-- The generic encoding defines an expression by as many bodies, unless too many successors are
asked for. -/
theorem define_naive (hE : E ≠ []) (d : ClassExpression) (x : Element) :
    Gives E .naive T (define d x)
      (fun bodies => d.bodyCount E x ≤ bodies.length + if d.exceeds E.length then 1 else 0)
      (d.DefinedIn T) := by
  have hpos : 1 ≤ E.length := List.length_pos_iff.2 hE
  cases d with
  | someValuesFrom r e =>
    rw [define]
    refine .needs (.bind_left (related_gives r x (holds_gives e)) fun ss hss =>
      .of_naive (.pure ?_ trivial)) fun h => h hE
    rw [List.length_map, hss, bodyCount]
    split <;> omega
  | allValuesFrom r e =>
    rw [define]
    refine .of_naive (.needs (.map (holdsNot_gives _ x) fun b hb => ?_) fun h => h _ rfl)
    simp [length_toList, hb, bodyCount, canFail]
  | minCardinality n r filler =>
    rw [define]
    split
    · next hn => exact .pure (by simp [bodyCount, hn]) fun h => absurd hn h
    · next hn =>
      refine .needs (.bind_left (related_gives r x (holds_gives _)) fun ss hss =>
        .of_naive (.pure ?_ trivial)) fun h _ => h hE
      simp only [List.length_map, bodyCount, exceeds, hn, false_or, decide_eq_true_eq]
      split <;> split
      · omega
      -- there are enough elements to choose from
      · next hcan hle =>
        have hne : choose n.toNat (ss.map (·.2)) ≠ [] := choose_ne_nil (by simp [hss, hcan]; omega)
        have := List.length_pos_iff.2 hne
        omega
      · omega
      · omega
  | maxCardinality n r filler =>
    rw [define]
    refine .of_naive (.needs (.map (holdsNot_gives _ x) fun b hb => ?_) fun h => h _ rfl)
    simp [length_toList, hb, bodyCount, canFail]
  | exactCardinality n r filler =>
    rw [define]
    refine .of_naive (.needs (.bind (holds_gives _ x) fun atLeast hleast =>
      .bind_left (holdsNot_gives _ x) fun noMore hmore => ?_) fun h => ⟨h.1 _ rfl, h.2 _ rfl⟩)
    obtain ⟨a, rfl⟩ := Option.isSome_iff_exists.1 hleast
    obtain ⟨b, rfl⟩ := Option.isSome_iff_exists.1 hmore
    exact .pure (by simp [bodyCount]) trivial
  | _ => exact .imp (define_gives rfl x) fun bodies h => by omega

/-- How many bodies define an expression at all elements. -/
def definitionCount (E : List Element) (d : ClassExpression) : Nat :=
  (E.map fun x => d.bodyCount E x).sum

theorem definitionBodies_direct (d : ClassExpression) : Gives E .direct T (definitionBodies d)
    (fun bodies => (bodies.map (·.2.length)).sum ≤ definitionCount E d) True := by
  refine .get fun κ hκ _ => ?_
  rw [hκ]
  refine .needs (.imp (.mapM (Q := fun x entry => entry.2.length ≤ d.bodyCount E x) fun x _ =>
    .map (define_direct d x) fun bodies h => h) fun bodies hbodies => ?_) fun _ => trivial
  exact sum_map_le_of_forall₂ hbodies.flip

theorem definitionBodies_naive (hE : E ≠ []) (d : ClassExpression) :
    Gives E .naive T (definitionBodies d) (fun bodies => definitionCount E d ≤
      (bodies.map (·.2.length)).sum + if d.exceeds E.length then E.length else 0) (d.DefinedIn T) := by
  refine .get fun κ hκ _ => ?_
  rw [hκ]
  refine .needs (.imp (.mapM (Q := fun x entry => d.bodyCount E x ≤ entry.2.length +
    if d.exceeds E.length then 1 else 0) fun x _ => .map (define_naive hE d x) fun bodies h => h)
    fun bodies hbodies => ?_) fun h => ?_
  · have hsum := sum_map_le_of_forall₂ hbodies
    rw [List.sum_map_add, List.map_const', List.sum_replicate_nat, ← hbodies.length_eq] at hsum
    refine hsum.trans_eq ?_
    split <;> simp
  · obtain ⟨x, hx⟩ := List.exists_mem_of_ne_nil E hE
    exact h x hx

end Grounding

end FixedDomain
