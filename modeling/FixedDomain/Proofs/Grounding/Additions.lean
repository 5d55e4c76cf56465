import Mathlib.Logic.Relation
import FixedDomain.Grounding.Ontology
import FixedDomain.Grounding.Query
import FixedDomain.Proofs.Grounding.Expression

/-! # What steps add to a context

* `Context.Addition` — the three things that can happen to a context: a class or an object property gets
  a symbol and is made total, or an expression gets an auxiliary predicate.
* `Grounding.Repeatable` — nothing else happens to the context of a step, and once the step has succeeded
  it returns the same in every larger context, which it leaves as it is.

The rules of an auxiliary predicate are those that its expression would get in any later context
(`Addition.definition`). An expression is defined by way of lighter ones, so it is still undefined
when its own auxiliary predicate is entered (`auxFor_repeatable`).
-/

namespace FixedDomain

/-- Whether class expressions stand in an axiom. -/
def Axiom.isAboutClasses : Axiom → Bool
  | subClassOf _ _ | equivalentClasses _ | disjointClasses _ | disjointUnion _ _
  | objectPropertyDomain _ _ | objectPropertyRange _ _ | classAssertion _ _ => true
  | _ => false

/-! ## Additions -/

namespace Grounding

/-- The alternative bodies of an expression at each element. -/
def definitionBodies (d : ClassExpression) : Grounding (List (Element × List Body)) := do
  (← get).elements.mapM fun x => return (x, ← define d x)

end Grounding

namespace Context

/-- Something that was not there before is added to a context. Expressions that get a predicate satisfy
`P`. -/
inductive Addition (P : ClassExpression → Prop) (c : Context) : Context → Prop
  | enterClass {iri : Iri} (h : c.classes.find? iri = none) : Addition P c (c.withClass iri)
  | enterProperty {iri : Iri} (h : c.properties.find? iri = none) :
    Addition P c (c.withProperty iri)
  | definition {d : ClassExpression} {bodies : List (Element × List Body)} (hP : P d)
    (hnew : d ∉ c.definitions) (hbodies : (Grounding.definitionBodies d).exec c = (.ok bodies, c)) :
    Addition P c (c.withDefinition d bodies)

/-- Things are added to a context one after another. -/
abbrev Additions (P : ClassExpression → Prop) : Context → Context → Prop :=
  Relation.ReflTransGen (Addition P)

variable {P Q : ClassExpression → Prop} {c c' : Context}

theorem Addition.le (h : Addition P c c') : c ≤ c' := by
  cases h with
  | enterClass h => exact le_withClass h
  | enterProperty h => exact le_withProperty h
  | definition => exact le_withDefinition

theorem Additions.le (h : Additions P c c') : c ≤ c' := by
  induction h with
  | refl => exact c.le_refl
  | tail _ hadd ih => exact le_trans ih hadd.le

theorem Additions.mono (h : Additions P c c') (hPQ : ∀ d, P d → Q d) : Additions Q c c' := by
  induction h with
  | refl => exact .refl
  | tail _ hadd ih =>
    refine ih.tail ?_
    cases hadd with
    | enterClass h => exact .enterClass h
    | enterProperty h => exact .enterProperty h
    | definition hP hnew hbodies => exact .definition (hPQ _ hP) hnew hbodies

theorem Additions.mem_definitions (h : Additions P c c') {d : ClassExpression}
    (hd : d ∈ c'.definitions) : d ∈ c.definitions ∨ P d := by
  induction h with
  | refl => exact .inl hd
  | tail _ hadd ih =>
    cases hadd with
    | enterClass | enterProperty => exact ih hd
    | definition hP =>
      rcases List.mem_append.1 hd with hd | hd
      · exact ih hd
      · exact .inr (List.mem_singleton.1 hd ▸ hP)

theorem Addition.ready (h : Addition P c c') (hc : c.Ready) : c'.Ready := by
  cases h with
  | enterClass => exact hc.withClass _
  | enterProperty => exact hc.withProperty _
  | definition => exact hc.withDefinition

theorem Additions.ready (h : Additions P c c') (hc : c.Ready) : c'.Ready := by
  induction h with
  | refl => exact hc
  | tail _ hadd ih => exact hadd.ready ih

theorem pairs_eq (h : c ≤ c') : c'.pairs = c.pairs := by
  rw [pairs, pairs, h.elements]

/-- Expressions that have a predicate keep it. -/
theorem idxOf?_definitions (h : c ≤ c') {d : ClassExpression} {k : Nat}
    (hk : c.definitions.idxOf? d = some k) : c'.definitions.idxOf? d = some k := by
  obtain ⟨hlt, heq, hbefore⟩ := List.findIdx?_eq_some_iff_getElem.1 hk
  have hget : ∀ (j : Nat) (hj : j < c.definitions.length),
      c'.definitions[j]? = some c.definitions[j] := fun j hj =>
    h.definitions j _ (List.getElem?_eq_getElem hj)
  obtain ⟨hlt', heq'⟩ := List.getElem?_eq_some_iff.1 (hget k hlt)
  refine List.findIdx?_eq_some_iff_getElem.2 ⟨hlt', heq' ▸ heq, fun j hj => ?_⟩
  obtain ⟨hjlt, hjeq⟩ := List.getElem?_eq_some_iff.1 (hget j (by omega))
  exact hjeq ▸ hbefore j hj

end Context

namespace Grounding

open Context (Additions)

variable {α β : Type} {P Q : ClassExpression → Prop}

/-! ## Repeatable steps -/

/-- A step that only adds to its context, and expressions with `P` only. Once it has succeeded, it
returns the same in every larger context, and adds nothing to it. -/
structure Repeatable (P : ClassExpression → Prop) (m : Grounding α) : Prop where
  additions : ∀ c, Additions P c (m.exec c).2
  again : ∀ {c a c₁ c₂}, m.exec c = (.ok a, c₁) → c₁ ≤ c₂ → m.exec c₂ = (.ok a, c₂)

namespace Repeatable

variable {m : Grounding α} {f : α → Grounding β}

theorem pure (a : α) : Repeatable P (pure a) := by
  refine ⟨fun _ => .refl, fun h _ => ?_⟩
  cases h
  rfl

theorem fail (e : ReasonerError) : Repeatable P (fail (α := α) e) :=
  ⟨fun _ => .refl, fun h => nomatch h⟩

/-- A step goes on with what the first one may return. -/
theorem bind_of {Q : α → Prop} (hm : Repeatable P m) (hQ : ∀ {c a c'}, m.exec c = (.ok a, c') → Q a)
    (hf : ∀ a, Q a → Repeatable P (f a)) : Repeatable P (m >>= f) := by
  refine ⟨fun c => ?_, fun {c b c₁ c₂} h hle => ?_⟩
  · have hadditions := hm.additions c
    rcases exec_bind_cases m f c with ⟨a, c', hrun, hexec⟩ | ⟨e, c', hrun, hexec⟩
    · rw [hrun] at hadditions
      rw [hexec]
      exact hadditions.trans ((hf a (hQ hrun)).additions c')
    · rw [hrun] at hadditions
      rw [hexec]
      exact hadditions
  · rcases exec_bind_cases m f c with ⟨a, c', hrun, hexec⟩ | ⟨e, c', hrun, hexec⟩
    · rw [hexec] at h
      have hgrown := ((hf a (hQ hrun)).additions c').le
      rw [h] at hgrown
      rw [exec_bind, hm.again hrun (Context.le_trans hgrown hle)]
      exact (hf a (hQ hrun)).again h hle
    · rw [hexec] at h
      cases h

theorem bind (hm : Repeatable P m) (hf : ∀ a, Repeatable P (f a)) : Repeatable P (m >>= f) :=
  hm.bind_of (Q := fun _ => True) (fun _ => trivial) fun a _ => hf a

/-- A step may depend on what does not change as the context grows. -/
theorem get {f : Context → Grounding β} (hf : ∀ c, Repeatable P (f c))
    (hstable : ∀ c c', c ≤ c' → f c' = f c) : Repeatable P (MonadState.get >>= f) := by
  have hexec : ∀ c, (MonadState.get >>= f : Grounding β).exec c = (f c).exec c := fun c => rfl
  refine ⟨fun c => hexec c ▸ (hf c).additions c, fun {c b c₁ c₂} h hle => ?_⟩
  rw [hexec] at h
  have hgrown := ((hf c).additions c).le
  rw [h] at hgrown
  rw [hexec, hstable c c₂ (Context.le_trans hgrown hle)]
  exact (hf c).again h hle

theorem ite_isDirect {m m' : Grounding β} (hm : Repeatable P m) (hm' : Repeatable P m') :
    Repeatable P (do if (← MonadState.get).isDirect then m else m') := by
  refine .get (fun c => ?_) fun _ _ h => by simp only [Context.isDirect_eq h]
  split
  · exact hm
  · exact hm'

theorem mapM_mem {f : α → Grounding β} {items : List α} (hf : ∀ a ∈ items, Repeatable P (f a)) :
    Repeatable P (items.mapM f) := by
  induction items with
  | nil => exact pure []
  | cons x xs ih =>
    obtain ⟨hx, hxs⟩ := List.forall_mem_cons.1 hf
    rw [List.mapM_cons]
    exact hx.bind fun y => (ih hxs).bind fun ys => pure (y :: ys)

theorem mapM {f : α → Grounding β} (hf : ∀ a, Repeatable P (f a)) (items : List α) :
    Repeatable P (items.mapM f) := mapM_mem fun a _ => hf a

theorem collect_mem {step : α → Grounding (List β)} {items : List α}
    (hstep : ∀ a ∈ items, Repeatable P (step a)) : Repeatable P (collect items step) :=
  (mapM_mem hstep).bind fun lists => pure lists.flatten

theorem collect {step : α → Grounding (List β)} (hstep : ∀ a, Repeatable P (step a))
    (items : List α) : Repeatable P (collect items step) := collect_mem fun a _ => hstep a

section Items

variable {items : Context → List α} (hitems : ∀ c c', c ≤ c' → items c' = items c)

include hitems

/-- A step may go through what does not change as the context grows. -/
theorem mapM_get {f : α → Grounding β} (hf : ∀ a, Repeatable P (f a)) :
    Repeatable P (MonadState.get >>= fun c => (items c).mapM f) :=
  .get (fun c => mapM hf (items c)) fun c c' h => by rw [hitems c c' h]

theorem collect_get {step : α → Grounding (List β)} (hstep : ∀ a, Repeatable P (step a)) :
    Repeatable P (MonadState.get >>= fun c => Grounding.collect (items c) step) :=
  .get (fun c => collect hstep (items c)) fun c c' h => by rw [hitems c c' h]

end Items

end Repeatable

/-! ## Symbols and elements -/

theorem classSymbol_repeatable (iri : Iri) : Repeatable P (classSymbol iri) := by
  refine ⟨fun c => ?_, fun {c s c₁ c₂} h hle => ?_⟩
  · cases hf : c.classes.find? iri with
    | some s => exact exec_classSymbol_of_eq_some hf ▸ .refl
    | none => exact exec_classSymbol_of_eq_none hf ▸ .single (.enterClass hf)
  · exact exec_classSymbol_of_eq_some (hle.classes iri s (find?_of_exec_classSymbol h))

theorem propertySymbol_repeatable (iri : Iri) : Repeatable P (propertySymbol iri) := by
  refine ⟨fun c => ?_, fun {c s c₁ c₂} h hle => ?_⟩
  · cases hf : c.properties.find? iri with
    | some s => exact exec_propertySymbol_of_eq_some hf ▸ .refl
    | none => exact exec_propertySymbol_of_eq_none hf ▸ .single (.enterProperty hf)
  · exact exec_propertySymbol_of_eq_some (hle.properties iri s (find?_of_exec_propertySymbol h))

theorem classAtom_repeatable (iri : Iri) (x : Element) : Repeatable P (classAtom iri x) :=
  (classSymbol_repeatable iri).bind fun _ => .pure _

theorem roleAtom_repeatable (r : Role) (x y : Element) : Repeatable P (roleAtom r x y) := by
  refine (propertySymbol_repeatable r.property).bind fun s => ?_
  cases r <;> exact .pure _

theorem element_repeatable (i : Individual) : Repeatable P (element i) := by
  refine .get (fun c => ?_) fun _ _ h => by simp only [h.elements]
  split
  · exact .pure _
  · exact .fail _

theorem members_repeatable (is : List Individual) : Repeatable P (members is) :=
  .mapM element_repeatable is

/-! ## Expressions -/

theorem related_repeatable (r : Role) (x : Element) {fillerBody : Element → Grounding (Option Body)}
    (h : ∀ y, Repeatable P (fillerBody y)) : Repeatable P (related r x fillerBody) := by
  refine .get (fun c => ?_) fun _ _ h => by simp only [h.elements]
  refine (Repeatable.mapM (fun y => (h y).bind fun body => ?_) c.elements).bind fun found => .pure _
  cases body with
  | none => exact .pure none
  | some body => exact (roleAtom_repeatable r x y).bind fun a => .pure _

/-- The bodies for an expression are made by repeatable steps. -/
structure Repeats (P : ClassExpression → Prop) (d : ClassExpression) : Prop where
  holds : ∀ x, Repeatable P (holds d x)
  holdsNot : ∀ x, Repeatable P (holdsNot d x)

section Lighter

variable {d : ClassExpression} (h : ∀ e : ClassExpression, e.weight < d.weight → Repeats P e)

include h

theorem repeats_of_auxFor (haux : Repeatable P (auxFor d)) : Repeats P d := by
  refine ⟨fun x => ?_, fun x => ?_⟩
  · cases d with
    | named iri =>
      rw [holds]
      exact (classAtom_repeatable iri x).bind fun a => .pure _
    | thing | nothing =>
      rw [holds]
      exact .pure _
    | complementOf e =>
      rw [holds]
      split
      · exact (h e (by rw [ClassExpression.weight]; omega)).holdsNot x
      · exact haux.bind fun k => .pure _
    | _ =>
      simp only [holds]
      exact haux.bind fun k => .pure _
  · cases d with
    | named iri =>
      rw [holdsNot]
      exact (classAtom_repeatable iri x).bind fun a => .pure _
    | thing | nothing =>
      rw [holdsNot]
      exact .pure _
    | complementOf e =>
      rw [holdsNot]
      exact (h e (by rw [ClassExpression.weight]; omega)).holds x
    | _ =>
      simp only [holdsNot]
      exact haux.bind fun k => .pure _

end Lighter

theorem holdsAll_repeatable {cs : List ClassExpression} (h : ∀ d ∈ cs, Repeats P d) (x : Element) :
    Repeatable P (holdsAll cs x) := by
  induction cs with
  | nil =>
    rw [holdsAll]
    exact .pure _
  | cons d ds ih =>
    obtain ⟨hd, hds⟩ := List.forall_mem_cons.1 h
    rw [holdsAll]
    refine (hd.holds x).bind fun first => ?_
    cases first with
    | none => exact .pure none
    | some first =>
      refine (ih hds).bind fun rest => ?_
      cases rest <;> exact .pure _

theorem holdsSome_repeatable {cs : List ClassExpression} (h : ∀ d ∈ cs, Repeats P d) (x : Element) :
    Repeatable P (holdsSome cs x) := by
  induction cs with
  | nil =>
    rw [holdsSome]
    exact .pure _
  | cons d ds ih =>
    obtain ⟨hd, hds⟩ := List.forall_mem_cons.1 h
    rw [holdsSome]
    exact (hd.holds x).bind fun first => (ih hds).bind fun rest => .pure _

/-- The bodies that define an expression are made by repeatable steps if those of lighter expressions
are. -/
theorem define_repeatable {d : ClassExpression}
    (h : ∀ e : ClassExpression, e.weight < d.weight → Repeats P e) (x : Element) :
    Repeatable P (define d x) := by
  have hfiller : ∀ {filler : Option ClassExpression}, ClassExpression.weightFiller filler < d.weight →
      Repeats P (ClassExpression.fillerOrThing filler) := fun hlt =>
    h _ (by rwa [ClassExpression.weight_fillerOrThing])
  have hparts : ∀ {cs : List ClassExpression}, ClassExpression.weightList cs < d.weight →
      ∀ e ∈ cs, Repeats P e := fun hlt e he =>
    h e (Nat.lt_trans (ClassExpression.weight_lt_of_mem he) hlt)
  cases d with
  | named iri =>
    rw [define]
    exact (classAtom_repeatable iri x).bind fun a => .pure _
  | thing | nothing =>
    rw [define]
    exact .pure _
  | intersectionOf cs =>
    rw [define]
    exact (holdsAll_repeatable (hparts (by rw [ClassExpression.weight]; omega)) x).bind
      fun body => .pure _
  | unionOf cs =>
    rw [define]
    exact holdsSome_repeatable (hparts (by rw [ClassExpression.weight]; omega)) x
  | complementOf e =>
    rw [define]
    exact ((h e (by rw [ClassExpression.weight]; omega)).holdsNot x).bind fun body => .pure _
  | oneOf is =>
    rw [define]
    exact (members_repeatable is).bind fun xs => .pure _
  | someValuesFrom r e =>
    rw [define]
    exact (related_repeatable r x (h e (by rw [ClassExpression.weight]; omega)).holds).bind
      fun successors => .ite_isDirect (.pure _) (.pure _)
  | allValuesFrom r e =>
    rw [define]
    have hweight := e.weight_negation_le
    refine .ite_isDirect ?_ ?_
    · exact (related_repeatable r x (h e (by rw [ClassExpression.weight]; omega)).holdsNot).bind
        fun successors => .pure _
    · exact ((h _ (by simp only [ClassExpression.weight]; omega)).holdsNot x).bind
        fun body => .pure _
  | hasValue r i =>
    rw [define]
    exact (element_repeatable i).bind fun y => (roleAtom_repeatable r x y).bind fun a => .pure _
  | hasSelf r =>
    rw [define]
    exact (roleAtom_repeatable r x x).bind fun a => .pure _
  | minCardinality n r filler =>
    rw [define]
    split
    · exact .pure _
    · exact (related_repeatable r x (hfiller (by rw [ClassExpression.weight]; omega)).holds).bind
        fun successors => .ite_isDirect (.pure _) (.pure _)
  | maxCardinality n r filler =>
    rw [define]
    refine .ite_isDirect ?_ ?_
    · exact (related_repeatable r x (hfiller (by rw [ClassExpression.weight]; omega)).holds).bind
        fun successors => .pure _
    · exact ((h _ (by simp only [ClassExpression.weight]; omega)).holdsNot x).bind
        fun body => .pure _
  | exactCardinality n r filler =>
    rw [define]
    refine .ite_isDirect ?_ ?_
    · exact (related_repeatable r x (hfiller (by rw [ClassExpression.weight]; omega)).holds).bind
        fun successors => .pure _
    · refine ((h _ (by simp only [ClassExpression.weight]; omega)).holds x).bind fun atLeast =>
        ((h _ (by simp only [ClassExpression.weight]; omega)).holdsNot x).bind fun noMore => ?_
      split <;> exact .pure _

theorem definitionBodies_repeatable {d : ClassExpression}
    (h : ∀ e : ClassExpression, e.weight < d.weight → Repeats P e) :
    Repeatable P (definitionBodies d) :=
  .mapM_get (fun _ _ hle => hle.elements) fun x => (define_repeatable h x).bind fun _ => .pure _

theorem exec_auxFor_of_eq_some {c : Context} {d : ClassExpression} {k : Nat}
    (hk : c.definitions.idxOf? d = some k) : (auxFor d).exec c = (.ok (k + 1), c) := by
  simp only [auxFor, exec_bind, exec_get, hk]
  rfl

theorem exec_auxFor_of_eq_none {c : Context} {d : ClassExpression}
    (hk : c.definitions.idxOf? d = none) :
    (auxFor d).exec c = (definitionBodies d >>= defineAux d).exec c := by
  simp only [auxFor, exec_bind, exec_get, hk, definitionBodies]

/-- An expression with a number has its predicate already, or has been given the next one. -/
theorem auxFor_cases {c c' : Context} {d : ClassExpression} {k : Nat}
    (h : (auxFor d).exec c = (.ok k, c')) :
    (∃ j, c.definitions.idxOf? d = some j ∧ k = j + 1 ∧ c' = c) ∨
      c.definitions.idxOf? d = none ∧ ∃ bodies c₁, (definitionBodies d).exec c = (.ok bodies, c₁) ∧
        k = c₁.auxCount + 1 ∧ c' = c₁.withDefinition d bodies := by
  cases hk : c.definitions.idxOf? d with
  | some j =>
    rw [exec_auxFor_of_eq_some hk] at h
    cases h
    exact .inl ⟨j, rfl, rfl, rfl⟩
  | none =>
    rw [exec_auxFor_of_eq_none hk] at h
    rcases exec_bind_cases (definitionBodies d) (defineAux d) c with
      ⟨bodies, c₁, hdefine, hexec⟩ | ⟨e, c₁, -, hexec⟩
    · rw [hexec, exec_defineAux] at h
      cases h
      exact .inr ⟨rfl, bodies, c₁, hdefine, rfl, rfl⟩
    · rw [hexec] at h
      cases h

/-- An expression gets its predicate behind those of lighter ones, and only once. -/
theorem auxFor_repeatable {d : ClassExpression} (hd : P d) (hrepeats : Repeatable P (definitionBodies d))
    (h : ∀ e : ClassExpression, e.weight < d.weight → Repeats (fun e => e.weight < d.weight) e) :
    Repeatable P (auxFor d) := by
  have hbodies := definitionBodies_repeatable h
  have hnew : ∀ c, c.definitions.idxOf? d = none →
      d ∉ ((definitionBodies d).exec c).2.definitions := by
    intro c hk hmem
    exact ((hbodies.additions c).mem_definitions hmem).elim (List.idxOf?_eq_none_iff.1 hk)
      (Nat.lt_irrefl _)
  refine ⟨fun c => ?_, fun {c k c₁ c₂} hrun hle => ?_⟩
  · cases hk : c.definitions.idxOf? d with
    | some k => exact exec_auxFor_of_eq_some hk ▸ .refl
    | none =>
      have hadditions := hrepeats.additions c
      have hnew := hnew c hk
      rw [exec_auxFor_of_eq_none hk]
      rcases exec_bind_cases (definitionBodies d) (defineAux d) c with
        ⟨bodies, c', hdefine, hexec⟩ | ⟨e, c', hdefine, hexec⟩
      · rw [hdefine] at hadditions hnew
        rw [hexec, exec_defineAux]
        exact hadditions.tail (.definition hd hnew (hbodies.again hdefine c'.le_refl))
      · rw [hdefine] at hadditions
        rwa [hexec]
  -- the predicate is found again
  · suffices hmade : ∃ j, k = j + 1 ∧ c₁.definitions.idxOf? d = some j by
      obtain ⟨j, rfl, hj⟩ := hmade
      exact exec_auxFor_of_eq_some (Context.idxOf?_definitions hle hj)
    rcases auxFor_cases hrun with ⟨j, hj, rfl, rfl⟩ | ⟨hk, bodies, c', hdefine, rfl, rfl⟩
    · exact ⟨j, rfl, hj⟩
    · have hnew := hnew c hk
      rw [hdefine] at hnew
      refine ⟨c'.definitions.length, rfl, ?_⟩
      have hnone : c'.definitions.idxOf? d = none := List.idxOf?_eq_none_iff.2 hnew
      rw [List.idxOf?] at hnone
      simp [Context.withDefinition, List.idxOf?, List.findIdx?_append, hnone]

/-- The bodies for an expression define nothing that is heavier. -/
theorem repeats_of_weight {d : ClassExpression} (hP : ∀ e : ClassExpression, e.weight ≤ d.weight → P e) :
    Repeats P d := by
  induction hn : d.weight using Nat.strongRecOn generalizing d P with
  | ind n ih =>
  subst hn
  have hlighter : ∀ {Q : ClassExpression → Prop}, (∀ e : ClassExpression, e.weight < d.weight → Q e) →
      ∀ e : ClassExpression, e.weight < d.weight → Repeats Q e := fun hQ e he =>
    ih _ he (fun e' he' => hQ e' (Nat.lt_of_le_of_lt he' he)) rfl
  have hP' : ∀ e : ClassExpression, e.weight < d.weight → P e := fun e he => hP e (Nat.le_of_lt he)
  exact repeats_of_auxFor (hlighter hP')
    (auxFor_repeatable (hP d (Nat.le_refl _)) (definitionBodies_repeatable (hlighter hP'))
      (hlighter fun _ he => he))

/-! ## Axioms -/

theorem repeats_of_forall (hP : ∀ d, P d) (d : ClassExpression) : Repeats P d :=
  repeats_of_weight fun e _ => hP e

-- The bodies are unfolded through lists by functions of their own, and so is the proof.
mutual

theorem unfoldedBodies_repeatable (hP : ∀ d, P d) (x : Element) :
    ∀ c : ClassExpression, Repeatable P (unfoldedBodies c x)
  | .nothing | .thing => by
    rw [unfoldedBodies]
    exact .pure _
  | .oneOf is => by
    rw [unfoldedBodies]
    exact (members_repeatable is).bind fun xs => .pure _
  | .unionOf cs => by
    rw [unfoldedBodies]
    exact unfoldedUnion_repeatable hP x cs
  | .intersectionOf cs => by
    rw [unfoldedBodies]
    exact unfoldedProduct_repeatable hP x [[]] cs
  | .named _ | .complementOf _ | .someValuesFrom _ _ | .allValuesFrom _ _ | .hasValue _ _ | .hasSelf _
  | .minCardinality _ _ _ | .maxCardinality _ _ _ | .exactCardinality _ _ _ => by
    simp only [unfoldedBodies]
    exact ((repeats_of_forall hP _).holds x).bind fun body => .pure _

theorem unfoldedUnion_repeatable (hP : ∀ d, P d) (x : Element) :
    ∀ cs : List ClassExpression, Repeatable P (unfoldedUnion cs x)
  | [] => by
    rw [unfoldedUnion]
    exact .pure _
  | c :: cs => by
    rw [unfoldedUnion]
    exact (unfoldedBodies_repeatable hP x c).bind fun first =>
      (unfoldedUnion_repeatable hP x cs).bind fun rest => .pure _

theorem unfoldedProduct_repeatable (hP : ∀ d, P d) (x : Element) (product : List Body) :
    ∀ cs : List ClassExpression, Repeatable P (unfoldedProduct product cs x)
  | [] => by
    rw [unfoldedProduct]
    exact .pure _
  | c :: cs => by
    rw [unfoldedProduct]
    refine (unfoldedBodies_repeatable hP x c).bind fun alternatives => ?_
    dsimp only
    split
    · exact .pure _
    · exact unfoldedProduct_repeatable hP x _ cs

end

/-! ### Membership -/

theorem conjoin_repeatable {f : ClassExpression → Grounding (Option Body)} {cs : List ClassExpression}
    (hf : ∀ c ∈ cs, Repeatable P (f c)) : Repeatable P (conjoin f cs) := by
  induction cs with
  | nil => exact .pure _
  | cons c cs ih =>
    obtain ⟨hc, hcs⟩ := List.forall_mem_cons.1 hf
    rw [conjoin]
    refine hc.bind fun first => ?_
    cases first with
    | none => exact .pure none
    | some first =>
      refine (ih hcs).bind fun rest => ?_
      cases rest <;> exact .pure _

theorem assertAll_repeatable {cs : List ClassExpression} (x : Element) (body : Body)
    (h : ∀ c ∈ cs, Repeatable P (assertMember c x body)) : Repeatable P (assertAll cs x body) := by
  induction cs with
  | nil =>
    rw [assertAll]
    exact .pure _
  | cons c cs ih =>
    obtain ⟨hc, hcs⟩ := List.forall_mem_cons.1 h
    rw [assertAll]
    exact hc.bind fun first => (ih hcs).bind fun rest => .pure _

section Axioms

variable (hP : ∀ d, P d)

include hP

theorem lhsBodies_repeatable (c : ClassExpression) (x : Element) : Repeatable P (lhsBodies c x) :=
  .ite_isDirect (unfoldedBodies_repeatable hP x c)
    (((repeats_of_forall hP c).holds x).bind fun _ => .pure _)

theorem fillerSuccessors_repeatable (r : Role) (c : ClassExpression) (x : Element) :
    Repeatable P (fillerSuccessors r c x) := related_repeatable r x (repeats_of_forall hP c).holds

theorem exclude_holdsNot_repeatable (c : ClassExpression) (x : Element) (body : Body) :
    Repeatable P (do return exclude body (← holdsNot c x)) :=
  ((repeats_of_forall hP c).holdsNot x).bind fun _ => .pure _

theorem assertStructure_repeatable {c : ClassExpression} (x : Element) (body : Body)
    (h : ∀ e : ClassExpression, e.weight < c.weight → ∀ x body, Repeatable P (assertMember e x body)) :
    Repeatable P (assertStructure c x body) := by
  cases c with
  | intersectionOf cs =>
    rw [assertStructure]
    refine assertAll_repeatable x body fun e he => h e ?_ x body
    have := ClassExpression.weight_lt_of_mem he
    rw [ClassExpression.weight]
    omega
  | unionOf cs =>
    rw [assertStructure]
    exact (conjoin_repeatable fun c _ => (repeats_of_forall hP c).holdsNot x).bind
      fun violation => .pure _
  | oneOf is =>
    rw [assertStructure]
    exact (members_repeatable is).bind fun xs => .pure _
  | someValuesFrom r e =>
    rw [assertStructure]
    exact (fillerSuccessors_repeatable hP r e x).bind fun successors => .pure _
  | allValuesFrom r e =>
    rw [assertStructure]
    refine .collect_get (fun _ _ h => h.elements) fun y => ?_
    exact (roleAtom_repeatable r x y).bind fun role =>
      h e (by rw [ClassExpression.weight]; omega) y _
  | hasValue r i =>
    rw [assertStructure]
    exact (element_repeatable i).bind fun y => (roleAtom_repeatable r x y).bind fun a => .pure _
  | hasSelf r =>
    rw [assertStructure]
    exact (roleAtom_repeatable r x x).bind fun a => .pure _
  | minCardinality n r filler =>
    rw [assertStructure]
    split
    · exact .pure _
    · exact (fillerSuccessors_repeatable hP r _ x).bind fun successors => .pure _
  | maxCardinality n r filler =>
    rw [assertStructure]
    exact (fillerSuccessors_repeatable hP r _ x).bind fun successors => .pure _
  | exactCardinality n r filler =>
    rw [assertStructure]
    exact (fillerSuccessors_repeatable hP r _ x).bind fun fewer =>
      (fillerSuccessors_repeatable hP r _ x).bind fun more => .pure _
  | _ =>
    simp only [assertStructure]
    exact exclude_holdsNot_repeatable hP _ x body

theorem assertMember_repeatable (c : ClassExpression) (x : Element) (body : Body) :
    Repeatable P (assertMember c x body) := by
  induction hn : c.weight using Nat.strongRecOn generalizing c x body with
  | ind n ih =>
  subst hn
  have hdefault : Repeatable P (do
      if (← get).isDirect then assertStructure c x body
      else return exclude body (← holdsNot c x)) :=
    .ite_isDirect (assertStructure_repeatable hP x body fun e he x body => ih _ he e x body rfl)
      (exclude_holdsNot_repeatable hP c x body)
  cases c with
  | named iri =>
    rw [assertMember]
    exact (classAtom_repeatable iri x).bind fun a => .pure _
  | thing | nothing =>
    rw [assertMember]
    exact .pure _
  | complementOf e =>
    cases e with
    | named iri =>
      rw [assertMember]
      exact (classAtom_repeatable iri x).bind fun a => .pure _
    | _ =>
      simp only [assertMember]
      exact hdefault
  | _ =>
    simp only [assertMember]
    exact hdefault

/-! ### Rules -/

theorem inclusion_repeatable (c d : ClassExpression) : Repeatable P (inclusion c d) := by
  refine .collect_get (fun _ _ h => h.elements) fun x => ?_
  exact (lhsBodies_repeatable hP c x).bind fun bodies =>
    .collect (fun body => assertMember_repeatable hP d x body) bodies

theorem disjointness_repeatable (c d : ClassExpression) : Repeatable P (disjointness c d) := by
  refine .collect_get (fun _ _ h => h.elements) fun x => ?_
  exact (lhsBodies_repeatable hP c x).bind fun left =>
    (lhsBodies_repeatable hP d x).bind fun right => .pure _

theorem pairwiseDisjointness_repeatable (cs : List ClassExpression) :
    Repeatable P (pairwiseDisjointness cs) :=
  .collect (fun (c, d) => disjointness_repeatable hP c d) _

theorem equivalence_repeatable (cs : List ClassExpression) : Repeatable P (equivalence cs) := by
  cases cs with
  | nil => exact .pure _
  | cons c cs =>
    exact .collect (fun d => (inclusion_repeatable hP c d).bind fun there =>
      (inclusion_repeatable hP d c).bind fun back => .pure _) cs

theorem typing_repeatable (r : Role) (c : ClassExpression) (typed : Element × Element → Element) :
    Repeatable P (typing r c typed) := by
  refine .collect_get (fun _ _ h => Context.pairs_eq h) fun p => ?_
  exact (roleAtom_repeatable r p.1 p.2).bind fun role => assertMember_repeatable hP c _ _

end Axioms

theorem roleInclusion_repeatable (r s : Role) : Repeatable P (roleInclusion r s) := by
  refine .mapM_get (fun _ _ h => Context.pairs_eq h) fun p => ?_
  exact (roleAtom_repeatable r p.1 p.2).bind fun body =>
    (roleAtom_repeatable s p.1 p.2).bind fun head => .pure _

theorem roleEquivalence_repeatable (rs : List Role) : Repeatable P (roleEquivalence rs) := by
  cases rs with
  | nil => exact .pure _
  | cons r rs =>
    exact .collect (fun s => (roleInclusion_repeatable r s).bind fun there =>
      (roleInclusion_repeatable s r).bind fun back => .pure _) rs

theorem functionality_repeatable (r : Role) : Repeatable P (functionality r) := by
  refine .collect_get (fun _ _ h => h.elements) fun x => .ite_isDirect ?_ ?_
  · refine .get (fun κ => ?_) fun _ _ h => by simp only [h.elements]
    exact (Repeatable.mapM (fun y => (roleAtom_repeatable r x y).bind fun a => .pure _)
      κ.elements).bind fun elements => .pure _
  · refine .mapM_get (fun _ _ h => by rw [h.elements]) fun p => ?_
    exact (roleAtom_repeatable r x p.1).bind fun first =>
      (roleAtom_repeatable r x p.2).bind fun second => .pure _

theorem transitivity_repeatable (r : Role) : Repeatable P (transitivity r) := by
  refine .collect_get (fun _ _ h => by rw [Context.pairs_eq h]) fun p => ?_
  refine .mapM_get (fun _ _ h => by rw [h.elements]) fun z => ?_
  exact (roleAtom_repeatable r p.1 p.2).bind fun first =>
    (roleAtom_repeatable r p.2 z).bind fun second =>
      (roleAtom_repeatable r p.1 z).bind fun both => .pure _

theorem asymmetry_repeatable (r : Role) : Repeatable P (asymmetry r) := by
  refine .mapM_get (fun _ _ h => by rw [h.elements]) fun p => ?_
  refine (roleAtom_repeatable r p.1 p.2).bind fun there => ?_
  split
  · exact .pure _
  · exact (roleAtom_repeatable r p.2 p.1).bind fun back => .pure _

/-- What is made of an axiom without class expressions is made by a repeatable step that defines
nothing. -/
theorem axiomRules_repeatable_of_roles {a : Axiom} (ha : a.isAboutClasses = false) :
    Repeatable P (axiomRules a) := by
  cases a with
  | declaration e => exact .pure _
  | subObjectPropertyOf r s => exact roleInclusion_repeatable r s
  | equivalentObjectProperties rs => exact roleEquivalence_repeatable rs
  | disjointObjectProperties rs =>
    refine .collect (fun p => .mapM_get (fun _ _ h => Context.pairs_eq h) fun q => ?_) _
    exact (roleAtom_repeatable p.1 q.1 q.2).bind fun first =>
      (roleAtom_repeatable p.2 q.1 q.2).bind fun second => .pure _
  | inverseObjectProperties r s => exact roleEquivalence_repeatable [r, s.inverse]
  | functionalObjectProperty r | inverseFunctionalObjectProperty r =>
    exact functionality_repeatable _
  | reflexiveObjectProperty r | irreflexiveObjectProperty r =>
    exact .mapM_get (fun _ _ h => h.elements) fun x =>
      (roleAtom_repeatable r x x).bind fun a => .pure _
  | symmetricObjectProperty r =>
    refine .mapM_get (fun _ _ h => by rw [Context.pairs_eq h]) fun p => ?_
    exact (roleAtom_repeatable r p.1 p.2).bind fun there =>
      (roleAtom_repeatable r p.2 p.1).bind fun back => .pure _
  | asymmetricObjectProperty r => exact asymmetry_repeatable r
  | transitiveObjectProperty r => exact transitivity_repeatable r
  | sameIndividual is | differentIndividuals is =>
    exact (members_repeatable is).bind fun xs => .pure _
  | objectPropertyAssertion r i j | negativeObjectPropertyAssertion r i j =>
    exact (element_repeatable i).bind fun x => (element_repeatable j).bind fun y =>
      (roleAtom_repeatable r x y).bind fun a => .pure _
  | unsupported keyword source => exact .fail _
  | _ => cases ha

/-- What is made of an axiom is made by a repeatable step. -/
theorem axiomRules_repeatable (hP : ∀ d, P d) (a : Axiom) : Repeatable P (axiomRules a) := by
  cases a with
  | subClassOf c d => exact inclusion_repeatable hP c d
  | equivalentClasses cs => exact equivalence_repeatable hP cs
  | disjointClasses cs => exact pairwiseDisjointness_repeatable hP cs
  | disjointUnion whole parts =>
    exact (equivalence_repeatable hP _).bind fun equal =>
      (pairwiseDisjointness_repeatable hP parts).bind fun disjoint => .pure _
  | objectPropertyDomain r c | objectPropertyRange r c => exact typing_repeatable hP r c _
  | classAssertion c i =>
    exact (element_repeatable i).bind fun x => assertMember_repeatable hP c x []
  | _ => exact axiomRules_repeatable_of_roles rfl

/-! ## Queries -/

section Queries

variable (hP : ∀ d, P d)

include hP

theorem inclusionWitnesses_repeatable (c d : ClassExpression) :
    Repeatable P (inclusionWitnesses c d) := by
  refine .collect_get (fun _ _ h => h.elements) fun x => ?_
  exact ((repeats_of_forall hP c).holds x).bind fun inside =>
    ((repeats_of_forall hP d).holdsNot x).bind fun outside => .pure _

theorem equivalenceWitnesses_repeatable (cs : List ClassExpression) :
    Repeatable P (equivalenceWitnesses cs) := by
  cases cs with
  | nil => exact .pure _
  | cons c cs =>
    exact .collect (fun d => (inclusionWitnesses_repeatable hP c d).bind fun there =>
      (inclusionWitnesses_repeatable hP d c).bind fun back => .pure _) cs

theorem disjointnessWitnesses_repeatable (cs : List ClassExpression) :
    Repeatable P (disjointnessWitnesses cs) := by
  refine .collect (fun (c, d) => .collect_get (fun _ _ h => h.elements) fun x => ?_) _
  exact ((repeats_of_forall hP c).holds x).bind fun first =>
    ((repeats_of_forall hP d).holds x).bind fun second => .pure _

theorem typingWitnesses_repeatable (r : Role) (c : ClassExpression)
    (typed : Element × Element → Element) : Repeatable P (typingWitnesses r c typed) := by
  refine .collect_get (fun _ _ h => Context.pairs_eq h) fun p => ?_
  refine ((repeats_of_forall hP c).holdsNot (typed (p.1, p.2))).bind fun outside => ?_
  cases outside with
  | none => exact .pure []
  | some outside => exact (roleAtom_repeatable r p.1 p.2).bind fun a => .pure _

end Queries

theorem roleInclusionWitnesses_repeatable (r s : Role) :
    Repeatable P (roleInclusionWitnesses r s) := by
  refine .mapM_get (fun _ _ h => Context.pairs_eq h) fun p => ?_
  exact (roleAtom_repeatable r p.1 p.2).bind fun inside =>
    (roleAtom_repeatable s p.1 p.2).bind fun outside => .pure _

theorem roleEquivalenceWitnesses_repeatable (rs : List Role) :
    Repeatable P (roleEquivalenceWitnesses rs) := by
  cases rs with
  | nil => exact .pure _
  | cons r rs =>
    exact .collect (fun s => (roleInclusionWitnesses_repeatable r s).bind fun there =>
      (roleInclusionWitnesses_repeatable s r).bind fun back => .pure _) rs

theorem functionalityWitnesses_repeatable (r : Role) :
    Repeatable P (functionalityWitnesses r) := by
  refine .collect_get (fun _ _ h => h.elements) fun x =>
    .mapM_get (fun _ _ h => by rw [h.elements]) fun p => ?_
  exact (roleAtom_repeatable r x p.1).bind fun first =>
    (roleAtom_repeatable r x p.2).bind fun second => .pure _

/-- The ways of violating an axiom are found by a repeatable step. -/
theorem witnesses_repeatable (hP : ∀ d, P d) (a : Axiom) : Repeatable P (witnesses a) := by
  cases a with
  | declaration e => exact .pure _
  | subClassOf c d => exact inclusionWitnesses_repeatable hP c d
  | equivalentClasses cs => exact equivalenceWitnesses_repeatable hP cs
  | disjointClasses cs => exact disjointnessWitnesses_repeatable hP cs
  | disjointUnion whole parts =>
    exact (equivalenceWitnesses_repeatable hP _).bind fun differing =>
      (disjointnessWitnesses_repeatable hP parts).bind fun overlapping => .pure _
  | subObjectPropertyOf r s => exact roleInclusionWitnesses_repeatable r s
  | equivalentObjectProperties rs => exact roleEquivalenceWitnesses_repeatable rs
  | disjointObjectProperties rs =>
    refine .collect (fun p => .mapM_get (fun _ _ h => Context.pairs_eq h) fun q => ?_) _
    exact (roleAtom_repeatable p.1 q.1 q.2).bind fun first =>
      (roleAtom_repeatable p.2 q.1 q.2).bind fun second => .pure _
  | inverseObjectProperties r s => exact roleEquivalenceWitnesses_repeatable [r, s.inverse]
  | objectPropertyDomain r c | objectPropertyRange r c => exact typingWitnesses_repeatable hP r c _
  | functionalObjectProperty r | inverseFunctionalObjectProperty r =>
    exact functionalityWitnesses_repeatable _
  | reflexiveObjectProperty r | irreflexiveObjectProperty r =>
    exact .mapM_get (fun _ _ h => h.elements) fun x =>
      (roleAtom_repeatable r x x).bind fun a => .pure _
  | symmetricObjectProperty r =>
    refine .mapM_get (fun _ _ h => by rw [Context.pairs_eq h]) fun p => ?_
    exact (roleAtom_repeatable r p.1 p.2).bind fun there =>
      (roleAtom_repeatable r p.2 p.1).bind fun back => .pure _
  | asymmetricObjectProperty r =>
    refine .mapM_get (fun _ _ h => by rw [h.elements]) fun p => ?_
    refine (roleAtom_repeatable r p.1 p.2).bind fun there => ?_
    split
    · exact .pure _
    · exact (roleAtom_repeatable r p.2 p.1).bind fun back => .pure _
  | transitiveObjectProperty r =>
    refine .collect_get (fun _ _ h => by rw [Context.pairs_eq h]) fun p => ?_
    refine .mapM_get (fun _ _ h => by rw [h.elements]) fun z => ?_
    exact (roleAtom_repeatable r p.1 p.2).bind fun first =>
      (roleAtom_repeatable r p.2 z).bind fun second =>
        (roleAtom_repeatable r p.1 z).bind fun both => .pure _
  | sameIndividual is | differentIndividuals is =>
    exact (members_repeatable is).bind fun xs => .pure _
  | classAssertion c i =>
    exact (element_repeatable i).bind fun x =>
      ((repeats_of_forall hP c).holdsNot x).bind fun outside => .pure _
  | objectPropertyAssertion r i j | negativeObjectPropertyAssertion r i j =>
    exact (element_repeatable i).bind fun x => (element_repeatable j).bind fun y =>
      (roleAtom_repeatable r x y).bind fun a => .pure _
  | unsupported keyword source => exact .fail _

end Grounding

end FixedDomain
