import FixedDomain.Proofs.Grounding.Emission
import FixedDomain.Proofs.Grounding.Unfolding

/-! # What the counting encoding defines

Some expressions are closed if they have among them what the generic definitions of their members need
(`ClassExpression.Closed`). If they also have what the generic encoding of an axiom needs, then no encoding
of it defines any other expression (`axiomRules_within`).

What is asserted has to be plain (`ClassExpression.isPlain`): no conjunct that takes an auxiliary predicate
stands behind one that is impossible, since the generic encoding does not look at what follows such a one,
and neither a conjunct nor a disjunct is the complement of the complement of anything but a literal, since
the generic encoding defines such an expression, and the counting one the complement under it.
-/

namespace FixedDomain

namespace ClassExpression

/-- The complement of the complement of anything but a literal. -/
def isDoubleComplement : ClassExpression → Bool
  | complementOf (complementOf c) => !c.isLiteral
  | _ => false

mutual

/-- Whether the counting encoding asserts an expression through no other expressions than the generic
one. -/
def isPlain : ClassExpression → Bool
  | intersectionOf cs => arePlain cs
  | unionOf cs => cs.all fun c => !c.isDoubleComplement
  | allValuesFrom _ c => c.isPlain
  | _ => true

/-- Whether some conjuncts are plain and those behind an impossible one take no auxiliary predicates. -/
def arePlain : List ClassExpression → Bool
  | [] => true
  | c :: cs => (c.canHold || cs.all (·.heldBy.isNone)) && !c.isDoubleComplement && c.isPlain && arePlain cs

end

variable {T : List ClassExpression}

theorem of_mem {c : ClassExpression} (h : c ∈ T) : ∀ d ∈ some c, d ∈ T :=
  fun _ hd => Option.mem_some_iff.1 hd ▸ h

/-- Some expressions have among them what the generic definitions of their members need. -/
def Closed (T : List ClassExpression) : Prop := ∀ c ∈ T, c.DefinedIn T

theorem allHoldIn_of_forall {cs : List ClassExpression} (h : ∀ c ∈ cs, c.HoldsIn T) :
    AllHoldIn T cs := by
  induction cs with
  | nil => trivial
  | cons c cs ih =>
    obtain ⟨hc, hcs⟩ := List.forall_mem_cons.1 h
    exact ⟨hc, fun _ => ih hcs⟩

theorem AllHoldIn.holdsIn_of_arePlain {cs : List ClassExpression} (h : AllHoldIn T cs)
    (hplain : arePlain cs) : ∀ c ∈ cs, c.HoldsIn T ∧ c.isDoubleComplement = false ∧ c.isPlain := by
  induction cs with
  | nil => exact List.forall_mem_nil _
  | cons c cs ih =>
    simp only [arePlain, Bool.and_eq_true, Bool.or_eq_true, Bool.not_eq_true', List.all_eq_true] at hplain
    obtain ⟨⟨⟨hcan, hdouble⟩, hc⟩, hcs⟩ := hplain
    have hrest : AllHoldIn T cs := hcan.elim h.2 fun hnone =>
      allHoldIn_of_forall fun d hd => holdsIn_of_heldBy_isNone (hnone d hd)
    exact List.forall_mem_cons.2 ⟨⟨h.1, hdouble, hc⟩, ih hrest hcs⟩

namespace Closed

variable (hT : Closed T)

include hT

theorem failsIn_of_complementOf {c : ClassExpression} (h : (complementOf c).HoldsIn T) :
    c.FailsIn T := by
  by_cases hliteral : c.isLiteral
  · exact failsIn_of_deniedBy_isNone (by rw [(of_isLiteral hliteral).1]; rfl)
  · have hmem : complementOf c ∈ T := h _ (by simp [heldBy, hliteral])
    exact hT _ hmem

theorem failsIn_of_negation {c : ClassExpression} (h : c.negation.HoldsIn T) : c.FailsIn T := by
  cases c with
  | complementOf d => exact h
  | _ => exact hT.failsIn_of_complementOf h

theorem failsIn_of_holdsIn {c : ClassExpression} (hdouble : c.isDoubleComplement = false)
    (h : c.HoldsIn T) : c.FailsIn T := by
  cases c with
  | complementOf d =>
    have hd := hT.failsIn_of_complementOf h
    cases d with
    | complementOf e =>
      have hliteral : e.isLiteral := by simpa [isDoubleComplement] using hdouble
      have hneeds : (complementOf e).HoldsIn T := holdsIn_of_heldBy_isNone (by simp [heldBy, hliteral])
      exact hneeds
    | _ => exact hd
  | _ => exact h

theorem holdsIn_of_nextCardinality {n : UInt32} {r : Role} {filler : Option ClassExpression}
    (h : minCardinality (nextCardinality n) r filler ∈ T) : (fillerOrThing filler).HoldsIn T :=
  hT _ h fun hzero => (nextCardinality_le_iff (n := n) (k := 0) (by decide)).1
    (by simp [hzero]) (Nat.zero_le _)

end Closed

end ClassExpression

/-- Whether what an axiom asserts is plain. -/
def Axiom.isPlain : Axiom → Bool
  | subClassOf _ c | objectPropertyDomain _ c | objectPropertyRange _ c | classAssertion c _ => c.isPlain
  | equivalentClasses cs => cs.all ClassExpression.isPlain
  | disjointUnion _ parts => (ClassExpression.unionOf parts).isPlain
  | _ => true

namespace Grounding

open ClassExpression

variable {α β : Type} {P : ClassExpression → Prop} {T : List ClassExpression}

/-- A step goes on with what the first one gives. -/
theorem Repeatable.bind_gives {m : Grounding α} {f : α → Grounding β} {Q : α → Prop} {N : Prop}
    (hm : Repeatable P m) (hgives : ∀ E s, Gives E s [] m Q N) (hf : ∀ a, Q a → Repeatable P (f a)) :
    Repeatable P (m >>= f) :=
  hm.bind_of (fun hrun => ((hgives _ _).ok rfl rfl hrun).1) hf

/-! ## Expressions -/

/-- If what the bodies for an expression need is among some expressions, they define no others. -/
structure Within (T : List ClassExpression) (d : ClassExpression) : Prop where
  holds : d.HoldsIn T → ∀ x, Repeatable (· ∈ T) (holds d x)
  holdsNot : d.FailsIn T → ∀ x, Repeatable (· ∈ T) (holdsNot d x)

theorem within_of_auxFor {d : ClassExpression}
    (h : ∀ e : ClassExpression, e.weight < d.weight → Within T e)
    (haux : d ∈ T → Repeatable (· ∈ T) (auxFor d)) : Within T d := by
  refine ⟨fun hd x => ?_, fun hd x => ?_⟩
  · cases d with
    | named iri =>
      rw [holds]
      exact (classAtom_repeatable iri x).bind fun a => .pure _
    | thing | nothing =>
      rw [holds]
      exact .pure _
    | complementOf e =>
      rw [holds]
      split
      · next hliteral =>
        have hfails : e.FailsIn T := by
          intro e' he'
          rw [(of_isLiteral hliteral).1] at he'
          cases he'
        exact (h e (by rw [weight]; omega)).holdsNot hfails x
      · next hliteral =>
        have hmem : complementOf e ∈ T := hd _ (by simp [heldBy, hliteral])
        exact (haux hmem).bind fun k => .pure _
    | _ =>
      simp only [holds]
      exact (haux (hd _ rfl)).bind fun k => .pure _
  · cases d with
    | named iri =>
      rw [holdsNot]
      exact (classAtom_repeatable iri x).bind fun a => .pure _
    | thing | nothing =>
      rw [holdsNot]
      exact .pure _
    | complementOf e =>
      rw [holdsNot]
      exact (h e (by rw [weight]; omega)).holds hd x
    | _ =>
      simp only [holdsNot]
      exact (haux (hd _ rfl)).bind fun k => .pure _

theorem holdsAll_within {cs : List ClassExpression} (h : ∀ c ∈ cs, Within T c)
    (hcs : AllHoldIn T cs) (x : Element) : Repeatable (· ∈ T) (holdsAll cs x) := by
  induction cs with
  | nil =>
    rw [holdsAll]
    exact .pure _
  | cons c cs ih =>
    obtain ⟨hc, hrest⟩ := List.forall_mem_cons.1 h
    rw [holdsAll]
    refine (hc.holds hcs.1 x).bind_gives (fun E s => holds_gives c x) fun first hfirst => ?_
    cases first with
    | none => exact .pure none
    | some first =>
      refine (ih hrest (hcs.2 hfirst.symm)).bind fun rest => ?_
      cases rest <;> exact .pure _

theorem holdsSome_within {cs : List ClassExpression} (h : ∀ c ∈ cs, Within T c)
    (hcs : ∀ c ∈ cs, c.HoldsIn T) (x : Element) : Repeatable (· ∈ T) (holdsSome cs x) := by
  induction cs with
  | nil =>
    rw [holdsSome]
    exact .pure _
  | cons c cs ih =>
    obtain ⟨hc, hrest⟩ := List.forall_mem_cons.1 h
    obtain ⟨hholds, hcs⟩ := List.forall_mem_cons.1 hcs
    rw [holdsSome]
    exact (hc.holds hholds x).bind fun first => (ih hrest hcs).bind fun rest => .pure _

section Closed

variable (hT : Closed T)

include hT

theorem define_within {d : ClassExpression} (hd : d ∈ T)
    (h : ∀ e : ClassExpression, e.weight < d.weight → Within T e) (x : Element) :
    Repeatable (· ∈ T) (define d x) := by
  have hneeds := hT d hd
  have hfiller : ∀ {filler : Option ClassExpression}, weightFiller filler < d.weight →
      Within T (fillerOrThing filler) := fun hlt => h _ (by rwa [weight_fillerOrThing])
  have hparts : ∀ {cs : List ClassExpression}, weightList cs < d.weight → ∀ e ∈ cs, Within T e :=
    fun hlt e he => h e (Nat.lt_trans (weight_lt_of_mem he) hlt)
  cases d with
  | named iri =>
    rw [define]
    exact (classAtom_repeatable iri x).bind fun a => .pure _
  | thing | nothing =>
    rw [define]
    exact .pure _
  | intersectionOf cs =>
    rw [define]
    exact (holdsAll_within (hparts (by rw [weight]; omega)) hneeds x).bind fun body => .pure _
  | unionOf cs =>
    rw [define]
    exact holdsSome_within (hparts (by rw [weight]; omega)) hneeds x
  | complementOf e =>
    rw [define]
    exact ((h e (by rw [weight]; omega)).holdsNot hneeds x).bind fun body => .pure _
  | oneOf is =>
    rw [define]
    exact (members_repeatable is).bind fun xs => .pure _
  | someValuesFrom r e =>
    rw [define]
    exact (related_repeatable r x ((h e (by rw [weight]; omega)).holds hneeds)).bind
      fun successors => .ite_isDirect (.pure _) (.pure _)
  | allValuesFrom r e =>
    rw [define]
    have hweight := e.weight_negation_le
    refine .ite_isDirect ?_ ?_
    · have hfails : e.FailsIn T := hT.failsIn_of_negation (hT _ hneeds)
      exact (related_repeatable r x ((h e (by rw [weight]; omega)).holdsNot hfails)).bind
        fun successors => .pure _
    · have hlighter := h (someValuesFrom r e.negation) (by simp only [weight]; omega)
      exact (hlighter.holdsNot (of_mem hneeds) x).bind fun body => .pure _
  | hasValue r i =>
    rw [define]
    exact (element_repeatable i).bind fun y => (roleAtom_repeatable r x y).bind fun a => .pure _
  | hasSelf r =>
    rw [define]
    exact (roleAtom_repeatable r x x).bind fun a => .pure _
  | minCardinality n r filler =>
    rw [define]
    split
    · exact .pure _
    · next hn =>
      exact (related_repeatable r x ((hfiller (by rw [weight]; omega)).holds (hneeds hn))).bind
        fun successors => .ite_isDirect (.pure _) (.pure _)
  | maxCardinality n r filler =>
    rw [define]
    refine .ite_isDirect ?_ ?_
    · have hholds := hT.holdsIn_of_nextCardinality hneeds
      exact (related_repeatable r x ((hfiller (by rw [weight]; omega)).holds hholds)).bind
        fun successors => .pure _
    · have hlighter := h (minCardinality (nextCardinality n) r filler) (by simp only [weight]; omega)
      exact (hlighter.holdsNot (of_mem hneeds) x).bind fun body => .pure _
  | exactCardinality n r filler =>
    rw [define]
    obtain ⟨hleast, hmore⟩ := hneeds
    refine .ite_isDirect ?_ ?_
    · have hholds := hT.holdsIn_of_nextCardinality hmore
      exact (related_repeatable r x ((hfiller (by rw [weight]; omega)).holds hholds)).bind
        fun successors => .pure _
    · have hlighter : ∀ m, Within T (minCardinality m r filler) := fun m =>
        h _ (by simp only [weight]; omega)
      refine ((hlighter n).holds (of_mem hleast) x).bind fun atLeast =>
        ((hlighter (nextCardinality n)).holdsNot (of_mem hmore) x).bind fun noMore => ?_
      split <;> exact .pure _

theorem within_of_weight (d : ClassExpression) : Within T d := by
  induction hn : d.weight using Nat.strongRecOn generalizing d with
  | ind n ih =>
  subst hn
  have hlighter : ∀ e : ClassExpression, e.weight < d.weight → Within T e := fun e he => ih _ he e rfl
  refine within_of_auxFor hlighter fun hd => auxFor_repeatable hd ?_ fun e he =>
    repeats_of_weight fun e' he' => Nat.lt_of_le_of_lt he' he
  exact .mapM_get (fun _ _ hle => hle.elements) fun x =>
    (define_within hT hd hlighter x).bind fun _ => .pure _

end Closed

/-! ## Left-hand sides -/

mutual

theorem unfoldedBodies_within (hT : Closed T) (x : Element) : ∀ c : ClassExpression, c.HoldsIn T →
    Repeatable (· ∈ T) (unfoldedBodies c x)
  | .nothing, _ | .thing, _ => by
    rw [unfoldedBodies]
    exact .pure _
  | .oneOf is, _ => by
    rw [unfoldedBodies]
    exact (members_repeatable is).bind fun xs => .pure _
  | .unionOf cs, h => by
    rw [unfoldedBodies]
    exact unfoldedUnion_within hT x cs (hT (.unionOf cs) (h _ rfl))
  | .intersectionOf cs, h => by
    rw [unfoldedBodies]
    exact unfoldedProduct_within hT x [[]] cs (hT (.intersectionOf cs) (h _ rfl))
  | .named _, h | .complementOf _, h | .someValuesFrom _ _, h | .allValuesFrom _ _, h
  | .hasValue _ _, h | .hasSelf _, h | .minCardinality _ _ _, h | .maxCardinality _ _ _, h
  | .exactCardinality _ _ _, h => by
    simp only [unfoldedBodies]
    exact ((within_of_weight hT _).holds h x).bind fun body => .pure _

theorem unfoldedUnion_within (hT : Closed T) (x : Element) : ∀ cs : List ClassExpression,
    (∀ c ∈ cs, c.HoldsIn T) → Repeatable (· ∈ T) (unfoldedUnion cs x)
  | [], _ => by
    rw [unfoldedUnion]
    exact .pure _
  | c :: cs, h => by
    obtain ⟨hc, hcs⟩ := List.forall_mem_cons.1 h
    rw [unfoldedUnion]
    exact (unfoldedBodies_within hT x c hc).bind fun first =>
      (unfoldedUnion_within hT x cs hcs).bind fun rest => .pure _

theorem unfoldedProduct_within (hT : Closed T) (x : Element) (product : List Body) :
    ∀ cs : List ClassExpression, AllHoldIn T cs → Repeatable (· ∈ T) (unfoldedProduct product cs x)
  | [], _ => by
    rw [unfoldedProduct]
    exact .pure _
  | c :: cs, h => by
    rw [unfoldedProduct]
    refine (unfoldedBodies_within hT x c h.1).bind_gives (fun E s => unfoldedBodies_gives x c)
      fun bodies hbodies => ?_
    dsimp only
    split
    · exact .pure _
    · next hne =>
      -- a combination is left only if there are bodies
      have hcan : c.canHold := by
        refine canHold_of_alternatives_pos (Nat.lt_of_lt_of_le (List.length_pos_iff.2 ?_) hbodies)
        rintro rfl
        simp at hne
      exact unfoldedProduct_within hT x _ cs (h.2 hcan)

end

section Closed

variable (hT : Closed T)

include hT

theorem lhsBodies_within {c : ClassExpression} (hc : c.HoldsIn T) (x : Element) :
    Repeatable (· ∈ T) (lhsBodies c x) :=
  .ite_isDirect (unfoldedBodies_within hT x c hc)
    (((within_of_weight hT c).holds hc x).bind fun _ => .pure _)

/-! ## Right-hand sides -/

theorem exclude_holdsNot_within {c : ClassExpression} (hc : c.FailsIn T) (x : Element) (body : Body) :
    Repeatable (· ∈ T) (do return exclude body (← holdsNot c x)) :=
  ((within_of_weight hT c).holdsNot hc x).bind fun _ => .pure _

theorem fillerSuccessors_within (r : Role) {c : ClassExpression} (hc : c.HoldsIn T) (x : Element) :
    Repeatable (· ∈ T) (fillerSuccessors r c x) :=
  related_repeatable r x ((within_of_weight hT c).holds hc)

theorem assertStructure_within {c : ClassExpression} (hc : c.FailsIn T) (hplain : c.isPlain)
    (x : Element) (body : Body) (h : ∀ e : ClassExpression, e.weight < c.weight → e.FailsIn T →
      e.isPlain → ∀ x body, Repeatable (· ∈ T) (assertMember e x body)) :
    Repeatable (· ∈ T) (assertStructure c x body) := by
  cases c with
  | intersectionOf cs =>
    rw [assertStructure]
    have hparts := AllHoldIn.holdsIn_of_arePlain (hT _ (hc _ rfl)) hplain
    refine assertAll_repeatable x body fun e he => ?_
    obtain ⟨hholds, hdouble, he'⟩ := hparts e he
    refine h e ?_ (hT.failsIn_of_holdsIn hdouble hholds) he' x body
    have := weight_lt_of_mem he
    rw [weight]
    omega
  | unionOf cs =>
    rw [assertStructure]
    have hparts : ∀ e ∈ cs, e.HoldsIn T := hT _ (hc _ rfl)
    have hdouble : ∀ e ∈ cs, e.isDoubleComplement = false := by simpa [isPlain] using hplain
    refine (conjoin_repeatable fun e he => ?_).bind fun violation => .pure _
    exact (within_of_weight hT e).holdsNot (hT.failsIn_of_holdsIn (hdouble e he) (hparts e he)) x
  | oneOf is =>
    rw [assertStructure]
    exact (members_repeatable is).bind fun xs => .pure _
  | someValuesFrom r e =>
    rw [assertStructure]
    exact (fillerSuccessors_within hT r (hT _ (hc _ rfl)) x).bind fun successors => .pure _
  | allValuesFrom r e =>
    rw [assertStructure]
    have hsome : someValuesFrom r e.negation ∈ T := hT _ (hc _ rfl)
    refine .collect_get (fun _ _ h => h.elements) fun y => ?_
    exact (roleAtom_repeatable r x y).bind fun role =>
      h e (by rw [weight]; omega) (hT.failsIn_of_negation (hT _ hsome)) hplain y _
  | hasValue r i =>
    rw [assertStructure]
    exact (element_repeatable i).bind fun y => (roleAtom_repeatable r x y).bind fun a => .pure _
  | hasSelf r =>
    rw [assertStructure]
    exact (roleAtom_repeatable r x x).bind fun a => .pure _
  | minCardinality n r filler =>
    rw [assertStructure]
    split
    · exact .pure _
    · next hn =>
      exact (fillerSuccessors_within hT r (hT _ (hc _ rfl) hn) x).bind fun successors => .pure _
  | maxCardinality n r filler =>
    rw [assertStructure]
    have hholds := hT.holdsIn_of_nextCardinality (hT (maxCardinality n r filler) (hc _ rfl))
    exact (fillerSuccessors_within hT r hholds x).bind fun successors => .pure _
  | exactCardinality n r filler =>
    rw [assertStructure]
    have hholds := hT.holdsIn_of_nextCardinality (hT (exactCardinality n r filler) (hc _ rfl)).2
    exact (fillerSuccessors_within hT r hholds x).bind fun fewer =>
      (fillerSuccessors_within hT r hholds x).bind fun more => .pure _
  | _ =>
    simp only [assertStructure]
    exact exclude_holdsNot_within hT hc x body

theorem assertMember_within {c : ClassExpression} (hc : c.FailsIn T) (hplain : c.isPlain)
    (x : Element) (body : Body) : Repeatable (· ∈ T) (assertMember c x body) := by
  induction hn : c.weight using Nat.strongRecOn generalizing c x body with
  | ind n ih =>
  subst hn
  have hdefault : Repeatable (· ∈ T) (do
      if (← get).isDirect then assertStructure c x body
      else return exclude body (← holdsNot c x)) :=
    .ite_isDirect (assertStructure_within hT hc hplain x body fun e he hfails hplain x body =>
      ih _ he hfails hplain x body rfl) (exclude_holdsNot_within hT hc x body)
  cases c with
  | named iri =>
    rw [assertMember]
    exact (classAtom_repeatable iri x).bind fun a => .pure _
  | thing | nothing =>
    rw [assertMember]
    exact .pure _
  | complementOf e =>
    cases e with
    | named iri =>
      rw [assertMember]
      exact (classAtom_repeatable iri x).bind fun a => .pure _
    | _ =>
      simp only [assertMember]
      exact hdefault
  | _ =>
    simp only [assertMember]
    exact hdefault

/-! ## Axioms -/

theorem inclusion_within {c d : ClassExpression} (h : IncludedIn T c d) (hd : d.isPlain) :
    Repeatable (· ∈ T) (inclusion c d) := by
  refine .collect_get (fun _ _ h => h.elements) fun x => ?_
  refine (lhsBodies_within hT h.1 x).bind_gives (fun E s => lhsBodies_gives c x) fun bodies hbodies => ?_
  cases bodies with
  | nil => exact .pure []
  | cons body rest =>
    have hcan : c.canHold := hbodies (List.cons_ne_nil _ _)
    exact .collect (fun body => assertMember_within hT (h.2 hcan) hd x body) _

theorem disjointness_within {c d : ClassExpression} (hc : c.HoldsIn T) (hd : d.HoldsIn T) :
    Repeatable (· ∈ T) (disjointness c d) := by
  refine .collect_get (fun _ _ h => h.elements) fun x => ?_
  exact (lhsBodies_within hT hc x).bind fun left => (lhsBodies_within hT hd x).bind fun right => .pure _

theorem equivalence_within {cs : List ClassExpression} (h : EqualIn T cs)
    (hplain : ∀ c ∈ cs, c.isPlain) : Repeatable (· ∈ T) (equivalence cs) := by
  cases cs with
  | nil => exact .pure _
  | cons c cs =>
    obtain ⟨hc, hcs⟩ := List.forall_mem_cons.1 hplain
    refine .collect_mem fun d hd => ?_
    exact (inclusion_within hT (h d hd).1 (hcs d hd)).bind fun there =>
      (inclusion_within hT (h d hd).2 hc).bind fun back => .pure _

theorem pairwiseDisjointness_within {cs : List ClassExpression} (h : DisjointIn T cs) :
    Repeatable (· ∈ T) (pairwiseDisjointness cs) :=
  .collect_mem fun p hp => disjointness_within hT (h p hp).1 (h p hp).2

theorem typing_within (r : Role) {c : ClassExpression} (hc : c.FailsIn T) (hplain : c.isPlain)
    (typed : Element × Element → Element) : Repeatable (· ∈ T) (typing r c typed) := by
  refine .collect_get (fun _ _ h => Context.pairs_eq h) fun p => ?_
  exact (roleAtom_repeatable r p.1 p.2).bind fun role => assertMember_within hT hc hplain _ _

/-- An axiom defines no expressions but those that its generic encoding needs, if what it asserts is
plain. -/
theorem axiomRules_within {a : Axiom} (ha : a.EncodedIn T) (hplain : a.isPlain) :
    Repeatable (· ∈ T) (axiomRules a) := by
  cases a with
  | subClassOf c d => exact inclusion_within hT ha hplain
  | equivalentClasses cs => exact equivalence_within hT ha (List.all_eq_true.1 hplain)
  | disjointClasses cs => exact pairwiseDisjointness_within hT ha
  | disjointUnion whole parts =>
    refine (equivalence_within hT ha.1 ?_).bind fun equal =>
      (pairwiseDisjointness_within hT ha.2).bind fun disjoint => .pure _
    simpa [Axiom.isPlain, ClassExpression.isPlain] using hplain
  | objectPropertyDomain r c | objectPropertyRange r c => exact typing_within hT r ha hplain _
  | classAssertion c i =>
    exact (element_repeatable i).bind fun x => assertMember_within hT ha hplain x []
  | _ => exact axiomRules_repeatable_of_roles rfl

theorem groundAxioms_within {axioms : List Axiom} (ha : ∀ a ∈ axioms, a.EncodedIn T ∧ a.isPlain)
    {e e' : Encoding} {k : Nat} {c κ : Context} (h : (groundAxioms e k axioms).exec c = (.ok e', κ))
    (hc : ∀ d ∈ c.definitions, d ∈ T) : ∀ d ∈ κ.definitions, d ∈ T := by
  induction axioms generalizing e k c with
  | nil =>
    cases h
    exact hc
  | cons a rest ih =>
    obtain ⟨⟨hneeds, hplain⟩, hrest⟩ := List.forall_mem_cons.1 ha
    have hadditions := (axiomRules_within hT hneeds hplain).additions c
    rw [groundAxioms] at h
    rcases hrun : (axiomRules a).exec c with ⟨error | rules, c₁⟩
    · rw [exec_bind, exec_groundAxiom_of_error hrun e k] at h
      cases h
    · obtain ⟨e₁, hexec, -⟩ := exec_groundAxiom_of_ok hrun e k
      rw [exec_bind, hexec] at h
      rw [hrun] at hadditions
      exact ih hrest h fun d hd => (hadditions.mem_definitions hd).elim (hc d) id

/-- The encoding of an ontology defines nothing but what the generic encoding of its axioms needs, if what
they assert is plain. -/
theorem groundOntology_within {o : Ontology} (ha : ∀ a ∈ o.axioms, a.EncodedIn T ∧ a.isPlain)
    {d : Domain} {scheme : NamingScheme} {strategy : Strategy} {e : Encoding} {κ : Context}
    (h : (groundOntology o).exec (.new d scheme strategy) = (.ok e, κ)) :
    ∀ d ∈ κ.definitions, d ∈ T := by
  obtain ⟨program, c, hadditions, hexec, -⟩ :=
    exec_enterSignature o.signature (.new d scheme strategy)
  rw [groundOntology_eq, exec_bind, hexec] at h
  exact groundAxioms_within hT ha h fun e he =>
    ((hadditions (· ∈ T)).mem_definitions he).elim (fun hnone => nomatch hnone) id

end Closed

end Grounding

end FixedDomain
