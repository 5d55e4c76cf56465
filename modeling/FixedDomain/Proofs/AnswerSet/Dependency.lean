import Mathlib.Data.Set.Finite.Lattice
import Mathlib.Logic.Relation
import Mathlib.Order.Preorder.Finite
import FixedDomain.Proofs.AnswerSet.Semantics

/-! # Dependencies between atoms

An atom depends on what the bodies of its rules ask for (`DependsOn`). Without counts this is the
positive dependency graph of the rules.

Arguments about loops of this graph start from a finite set of atoms and take from it a part that
depends on no other atoms of the set, and in which all atoms depend on each other (`exists_component`).
-/

namespace FixedDomain

open Relation (ReflTransGen)

/-! ## The graph -/

/-- Whether a literal is an atom that is not denied. -/
def Literal.isPositive : Literal → Bool
  | .pos _ => true
  | _ => false

/-- Whether a literal may need an atom in order to hold. A count that cannot gain needs none. -/
def Literal.AsksFor : Literal → Atom → Prop
  | .pos a, b => a = b
  | .not _, _ => False
  | .count es op _, b => op ≠ .lt ∧ op ≠ .le ∧ ∃ e ∈ es, .pos b ∈ e.condition

/-- An atom depends on the atoms that the rules which derive it ask for. -/
def DependsOn (rules : List Rule) (a b : Atom) : Prop :=
  ∃ r ∈ rules, a ∈ r.head ∧ ∃ l ∈ r.body, l.AsksFor b

/-- The atoms that rules derive. -/
def heads (rules : List Rule) : Set Atom := {a | ∃ r ∈ rules, a ∈ r.head}

theorem heads_finite (rules : List Rule) : (heads rules).Finite := by
  apply (List.finite_toSet (rules.flatMap Rule.head)).subset
  rintro a ⟨r, hr, ha⟩
  exact List.mem_flatMap.2 ⟨r, hr, ha⟩

theorem IsStable.subset_heads {rules : List Rule} {S : Set Atom} (h : IsStable rules S) :
    S ⊆ heads rules := by
  intro a ha
  obtain ⟨r, hr, hsupports⟩ := h.mem_iff.1 ha
  exact ⟨r, hr, hsupports.head⟩

/-! ## Components -/

/-- What is reached from an element by steps, of the elements of a set. -/
def reachedIn {α : Type} (R : α → α → Prop) (U : Set α) (x : α) : Set α :=
  {y ∈ U | ReflTransGen R x y}

/-- A finite set has a part that no step leaves within the set, and in which every element reaches
every other. -/
theorem exists_component {α : Type} (R : α → α → Prop) {U : Set α} (hfinite : U.Finite)
    (hne : U.Nonempty) :
    ∃ X ⊆ U, X.Nonempty ∧ (∀ x ∈ X, ∀ y ∈ U, R x y → y ∈ X) ∧
      ∀ x ∈ X, ∀ y ∈ X, ReflTransGen R x y := by
  -- what is reached from an element from which no less could be reached
  obtain ⟨m, hm, hmin⟩ := hfinite.exists_minimalFor (reachedIn R U) U hne
  refine ⟨reachedIn R U m, Set.sep_subset _ _, ⟨m, hm, .refl⟩, ?_, ?_⟩
  · rintro x ⟨-, hmx⟩ y hy hxy
    exact ⟨hy, hmx.tail hxy⟩
  · rintro x ⟨hx, hmx⟩ y ⟨hy, hmy⟩
    have hle : reachedIn R U x ⊆ reachedIn R U m := fun z ⟨hz, hxz⟩ => ⟨hz, hmx.trans hxz⟩
    exact (hmin hx hle ⟨hy, hmy⟩).2

end FixedDomain
