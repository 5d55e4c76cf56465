import FixedDomain.Grounding.Expression
import FixedDomain.Proofs.Grounding.Expression

/-! # The depth of the recursion

The bodies of an expression, the number of its auxiliary predicate and its definition refer to each
other, and not only for its parts: a universal or an upper restriction is rewritten on the way.

* `Answers` — what the four functions answer, or may be supposed to answer.
* `Answers.unfold` — one unfolding of their definitions, in which other calls are answered as given.

Unfolding changes nothing in the answers of the functions (`unfold_grounding`), and whatever is
given in their place, unfolding it often enough yields them (`iterate_unfold`). How often is a matter
of the weight of an expression, so no call goes deeper than that.
-/

namespace FixedDomain.Grounding

/-! ## Answers -/

/-- What the functions on expressions answer. -/
@[ext] structure Answers where
  holds : ClassExpression → Element → Grounding (Option Body)
  holdsNot : ClassExpression → Element → Grounding (Option Body)
  auxFor : ClassExpression → Grounding Nat
  define : ClassExpression → Element → Grounding (List Body)

/-- The bodies for those of some expressions for which there is one. -/
def disjoin (body : ClassExpression → Grounding (Option Body)) :
    List ClassExpression → Grounding (List Body)
  | [] => pure []
  | c :: cs => do
    let first ← body c
    let rest ← disjoin body cs
    pure (first.toList ++ rest)

namespace Answers

/-- The answers of the functions themselves. -/
def grounding : Answers := ⟨Grounding.holds, Grounding.holdsNot, Grounding.auxFor, Grounding.define⟩

/-- The answers of the functions if every call that they make is answered as given. -/
def unfold (rest : Answers) : Answers where
  holds c x :=
    match c with
    | .named iri => return some [.pos (← classAtom iri x)]
    | .thing => pure (some [])
    | .nothing => pure none
    | .complementOf d => do
      if d.isLiteral then rest.holdsNot d x
      else return some [.pos (auxAtom (← rest.auxFor (.complementOf d)) x)]
    | c => return some [.pos (auxAtom (← rest.auxFor c) x)]
  holdsNot c x :=
    match c with
    | .named iri => return some [.pos (← classAtom iri x).complement]
    | .thing => pure none
    | .nothing => pure (some [])
    | .complementOf d => rest.holds d x
    | c => return some [.not (auxAtom (← rest.auxFor c) x)]
  auxFor c := do
    match (← get).definitions.idxOf? c with
    | some k => pure (k + 1)
    | none =>
      let bodies ← (← get).elements.mapM fun x => return (x, ← rest.define c x)
      defineAux c bodies
  define c x :=
    match c with
    | .named iri => return [[.pos (← classAtom iri x)]]
    | .thing => pure [[]]
    | .nothing => pure []
    | .intersectionOf cs => return (← conjoin (fun d => rest.holds d x) cs).toList
    | .unionOf cs => disjoin (fun d => rest.holds d x) cs
    | .complementOf d => return (← rest.holdsNot d x).toList
    | .oneOf is => return memberBodies (← members is) x
    | .someValuesFrom r d => do
      let successors ← related r x fun y => rest.holds d y
      if (← get).isDirect then pure (countBodies successors .ge 1)
      else pure (successors.map (·.2))
    | .allValuesFrom r d => do
      if (← get).isDirect then
        return countBodies (← related r x fun y => rest.holdsNot d y) .le 0
      else return (← rest.holdsNot (.someValuesFrom r d.negation) x).toList
    | .hasValue r i => do
      let y ← element i
      return [[.pos (← roleAtom r x y)]]
    | .hasSelf r => return [[.pos (← roleAtom r x x)]]
    | .minCardinality n r d => do
      if n = 0 then pure [[]]
      else
        let successors ← related r x fun y => rest.holds (ClassExpression.fillerOrThing d) y
        if (← get).isDirect then pure (countBodies successors .ge n.toNat)
        else pure ((choose n.toNat (successors.map (·.2))).map List.flatten)
    | .maxCardinality n r d => do
      if (← get).isDirect then
        let successors ← related r x fun y => rest.holds (ClassExpression.fillerOrThing d) y
        pure (countBodies successors .le n.toNat)
      else return (← rest.holdsNot (.minCardinality (nextCardinality n) r d) x).toList
    | .exactCardinality n r d => do
      if (← get).isDirect then
        let successors ← related r x fun y => rest.holds (ClassExpression.fillerOrThing d) y
        pure (countBodies successors .eq n.toNat)
      else
        let atLeast ← rest.holds (.minCardinality n r d) x
        let noMore ← rest.holdsNot (.minCardinality (nextCardinality n) r d) x
        match atLeast, noMore with
        | some a, some b => pure [a ++ b]
        | _, _ => pure []

end Answers

/-! ## A fixed point -/

theorem conjoin_holds (cs : List ClassExpression) (x : Element) :
    conjoin (fun d => holds d x) cs = holdsAll cs x := by
  induction cs with
  | nil => rw [conjoin, holdsAll]
  | cons c cs ih => rw [conjoin, holdsAll, ih]

theorem disjoin_holds (cs : List ClassExpression) (x : Element) :
    disjoin (fun d => holds d x) cs = holdsSome cs x := by
  induction cs with
  | nil => rw [disjoin, holdsSome]
  | cons c cs ih => rw [disjoin, holdsSome, ih]

namespace Answers

/-- The functions are defined by what one unfolding makes of them. -/
theorem unfold_grounding : grounding.unfold = grounding := by
  have hholds : grounding.unfold.holds = Grounding.holds := by
    funext c x
    cases c <;> simp only [Grounding.holds] <;> rfl
  have hholdsNot : grounding.unfold.holdsNot = Grounding.holdsNot := by
    funext c x
    cases c <;> simp only [Grounding.holdsNot] <;> rfl
  have hauxFor : grounding.unfold.auxFor = Grounding.auxFor := by
    funext c
    rw [Grounding.auxFor]
    rfl
  have hdefine : grounding.unfold.define = Grounding.define := by
    funext c x
    cases c <;> simp only [Grounding.define, ← conjoin_holds, ← disjoin_holds] <;> rfl
  exact Answers.ext hholds hholdsNot hauxFor hdefine

/-! ## Depth -/

/-- Two answers are the same for all calls that are less deep. -/
structure AgreeBelow (n : Nat) (p q : Answers) : Prop where
  holds : ∀ c x, 4 * c.weight + 3 < n → p.holds c x = q.holds c x
  holdsNot : ∀ c x, 4 * c.weight + 3 < n → p.holdsNot c x = q.holdsNot c x
  auxFor : ∀ c, 4 * c.weight + 2 < n → p.auxFor c = q.auxFor c
  define : ∀ c x, 4 * c.weight + 1 < n → p.define c x = q.define c x

variable {n : Nat} {p q : Answers}

theorem conjoin_congr {f g : ClassExpression → Grounding (Option Body)} {cs : List ClassExpression}
    (h : ∀ c ∈ cs, f c = g c) : conjoin f cs = conjoin g cs := by
  induction cs with
  | nil => rw [conjoin, conjoin]
  | cons c cs ih =>
    obtain ⟨hc, hcs⟩ := List.forall_mem_cons.1 h
    rw [conjoin, conjoin, hc, ih hcs]

theorem disjoin_congr {f g : ClassExpression → Grounding (Option Body)} {cs : List ClassExpression}
    (h : ∀ c ∈ cs, f c = g c) : disjoin f cs = disjoin g cs := by
  induction cs with
  | nil => rw [disjoin, disjoin]
  | cons c cs ih =>
    obtain ⟨hc, hcs⟩ := List.forall_mem_cons.1 h
    rw [disjoin, disjoin, hc, ih hcs]

theorem AgreeBelow.unfold_holds (h : AgreeBelow n p q) {c : ClassExpression}
    (hc : 4 * c.weight + 3 < n + 1) (x : Element) : p.unfold.holds c x = q.unfold.holds c x := by
  -- an auxiliary predicate is asked for with the same weight, but it is one step less deep
  have haux : p.auxFor c = q.auxFor c := h.auxFor c (by omega)
  cases c with
  | complementOf d =>
    have hd := h.holdsNot d x (by simp only [ClassExpression.weight] at hc; omega)
    simp only [Answers.unfold, hd, haux]
  | _ => simp only [Answers.unfold, haux]

theorem AgreeBelow.unfold_holdsNot (h : AgreeBelow n p q) {c : ClassExpression}
    (hc : 4 * c.weight + 3 < n + 1) (x : Element) :
    p.unfold.holdsNot c x = q.unfold.holdsNot c x := by
  have haux : p.auxFor c = q.auxFor c := h.auxFor c (by omega)
  cases c with
  | complementOf d =>
    have hd := h.holds d x (by simp only [ClassExpression.weight] at hc; omega)
    simp only [Answers.unfold, hd]
  | _ => simp only [Answers.unfold, haux]

theorem AgreeBelow.unfold_auxFor (h : AgreeBelow n p q) {c : ClassExpression}
    (hc : 4 * c.weight + 2 < n + 1) : p.unfold.auxFor c = q.unfold.auxFor c := by
  have hdefine : p.define c = q.define c := funext fun x => h.define c x (by omega)
  simp only [Answers.unfold, hdefine]

theorem AgreeBelow.unfold_define (h : AgreeBelow n p q) {c : ClassExpression}
    (hc : 4 * c.weight + 1 < n + 1) (x : Element) : p.unfold.define c x = q.unfold.define c x := by
  -- all calls are about lighter expressions
  have hholds : ∀ d : ClassExpression, d.weight < c.weight → p.holds d = q.holds d :=
    fun d hd => funext fun y => h.holds d y (by omega)
  have hholdsNot : ∀ d : ClassExpression, d.weight < c.weight → p.holdsNot d = q.holdsNot d :=
    fun d hd => funext fun y => h.holdsNot d y (by omega)
  have hparts : ∀ cs : List ClassExpression, ClassExpression.weightList cs < c.weight →
      ∀ d ∈ cs, p.holds d x = q.holds d x := fun cs hcs d hd => by
    rw [hholds d (Nat.lt_trans (ClassExpression.weight_lt_of_mem hd) hcs)]
  have hfiller : ∀ filler : Option ClassExpression,
      ClassExpression.weightFiller filler < c.weight →
        p.holds (ClassExpression.fillerOrThing filler) =
          q.holds (ClassExpression.fillerOrThing filler) := fun filler hf =>
    hholds _ (by rwa [ClassExpression.weight_fillerOrThing])
  cases c with
  | named | thing | nothing | oneOf | hasValue | hasSelf => rfl
  | intersectionOf cs =>
    have hcs := hparts cs (by simp only [ClassExpression.weight]; omega)
    simp only [Answers.unfold, conjoin_congr hcs]
  | unionOf cs =>
    have hcs := hparts cs (by simp only [ClassExpression.weight]; omega)
    simp only [Answers.unfold, disjoin_congr hcs]
  | complementOf d =>
    simp only [Answers.unfold, hholdsNot d (by simp only [ClassExpression.weight]; omega)]
  | someValuesFrom r d =>
    simp only [Answers.unfold, hholds d (by simp only [ClassExpression.weight]; omega)]
  | allValuesFrom r d =>
    have hweight := d.weight_negation_le
    simp only [Answers.unfold, hholdsNot d (by simp only [ClassExpression.weight]; omega),
      hholdsNot (.someValuesFrom r d.negation) (by simp only [ClassExpression.weight]; omega)]
  | minCardinality m r filler =>
    simp only [Answers.unfold, hfiller filler (by simp only [ClassExpression.weight]; omega)]
  | maxCardinality m r filler =>
    simp only [Answers.unfold, hfiller filler (by simp only [ClassExpression.weight]; omega),
      hholdsNot (.minCardinality (nextCardinality m) r filler)
        (by simp only [ClassExpression.weight]; omega)]
  | exactCardinality m r filler =>
    simp only [Answers.unfold, hfiller filler (by simp only [ClassExpression.weight]; omega),
      hholds (.minCardinality m r filler) (by simp only [ClassExpression.weight]; omega),
      hholdsNot (.minCardinality (nextCardinality m) r filler)
        (by simp only [ClassExpression.weight]; omega)]

/-- Every call is deeper than those that it makes. -/
theorem AgreeBelow.unfold (h : AgreeBelow n p q) : AgreeBelow (n + 1) p.unfold q.unfold where
  holds _ x hc := h.unfold_holds hc x
  holdsNot _ x hc := h.unfold_holdsNot hc x
  auxFor _ hc := h.unfold_auxFor hc
  define _ x hc := h.unfold_define hc x

theorem agreeBelow_iterate (rest : Answers) (n : Nat) :
    AgreeBelow n (Answers.unfold^[n] rest) grounding := by
  induction n with
  | zero => exact ⟨by simp, by simp, by simp, by simp⟩
  | succ n ih =>
    rw [Function.iterate_succ_apply', ← unfold_grounding]
    exact ih.unfold

/-- Calls about an expression are answered within a depth that its weight bounds: what is given for
deeper ones does not matter. -/
theorem iterate_unfold (rest : Answers) {c : ClassExpression} {n : Nat}
    (hn : 4 * c.weight + 3 < n) :
    (∀ x, (Answers.unfold^[n] rest).holds c x = Grounding.holds c x) ∧
    (∀ x, (Answers.unfold^[n] rest).holdsNot c x = Grounding.holdsNot c x) ∧
    (Answers.unfold^[n] rest).auxFor c = Grounding.auxFor c ∧
    (∀ x, (Answers.unfold^[n] rest).define c x = Grounding.define c x) := by
  have h := agreeBelow_iterate rest n
  exact ⟨fun x => h.holds c x hn, fun x => h.holdsNot c x hn, h.auxFor c (by omega),
    fun x => h.define c x (by omega)⟩

end Answers

end FixedDomain.Grounding
