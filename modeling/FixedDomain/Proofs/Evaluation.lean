import FixedDomain.Grounding.Expression
import FixedDomain.Proofs.Interpretation

/-! # Evaluations

Where numbers are not compared as such, an upper bound on a number of successors is read as the
opposite of the next larger lower bound. Since there is a largest bound, with no next one, this is
another reading of upper bounds on a domain with so many elements.

* `ClassExpression.restated`, `Axiom.restated` — what is read instead of an expression or an axiom.
* `Evaluation` — an interpretation together with the reading of upper bounds.
* `Evaluation.member_iff`, `Evaluation.satisfies_iff` — on a smaller domain both readings are the same.
-/

namespace FixedDomain

/-! ## Restatements -/

namespace ClassExpression

mutual

/-- What is read instead of an expression. -/
def restated (counts : Bool) : ClassExpression → ClassExpression
  | .named iri => .named iri
  | .thing => .thing
  | .nothing => .nothing
  | .intersectionOf cs => .intersectionOf (restatedList counts cs)
  | .unionOf cs => .unionOf (restatedList counts cs)
  | .complementOf c => .complementOf (restated counts c)
  | .oneOf is => .oneOf is
  | .someValuesFrom r c => .someValuesFrom r (restated counts c)
  | .allValuesFrom r c => .allValuesFrom r (restated counts c)
  | .hasValue r i => .hasValue r i
  | .hasSelf r => .hasSelf r
  | .minCardinality n r c => .minCardinality n r (restatedFiller counts c)
  | .maxCardinality n r c =>
    if counts then .maxCardinality n r (restatedFiller counts c)
    else .complementOf (.minCardinality (nextCardinality n) r (restatedFiller counts c))
  | .exactCardinality n r c =>
    if counts then .exactCardinality n r (restatedFiller counts c)
    else .intersectionOf [.minCardinality n r (restatedFiller counts c),
      .complementOf (.minCardinality (nextCardinality n) r (restatedFiller counts c))]

def restatedList (counts : Bool) : List ClassExpression → List ClassExpression
  | [] => []
  | c :: cs => restated counts c :: restatedList counts cs

def restatedFiller (counts : Bool) : Option ClassExpression → Option ClassExpression
  | none => none
  | some c => some (restated counts c)

end

theorem restatedList_eq_map (counts : Bool) (cs : List ClassExpression) :
    restatedList counts cs = cs.map (restated counts) := by
  induction cs with
  | nil => simp [restatedList]
  | cons c cs ih => simp [restatedList, ih]

theorem fillerOrThing_restatedFiller (counts : Bool) (c : Option ClassExpression) :
    fillerOrThing (restatedFiller counts c) = (fillerOrThing c).restated counts := by
  cases c <;> simp [fillerOrThing, restatedFiller, restated]

end ClassExpression

/-- What is read instead of an axiom. -/
def Axiom.restated (counts : Bool) : Axiom → Axiom
  | .subClassOf c d => .subClassOf (c.restated counts) (d.restated counts)
  | .equivalentClasses cs => .equivalentClasses (cs.map (·.restated counts))
  | .disjointClasses cs => .disjointClasses (cs.map (·.restated counts))
  | .disjointUnion whole parts => .disjointUnion whole (parts.map (·.restated counts))
  | .objectPropertyDomain r c => .objectPropertyDomain r (c.restated counts)
  | .objectPropertyRange r c => .objectPropertyRange r (c.restated counts)
  | .classAssertion c i => .classAssertion (c.restated counts) i
  | a => a

/-! ## Evaluations -/

/-- An interpretation, and whether numbers of successors are compared as such. -/
structure Evaluation (Δ : Type) extends Interpretation Δ where
  counts : Bool

namespace Evaluation

variable {Δ : Type} (I : Evaluation Δ)

def Member (c : ClassExpression) (x : Δ) : Prop := I.toInterpretation.Member (c.restated I.counts) x

def MemberAll (cs : List ClassExpression) (x : Δ) : Prop :=
  I.toInterpretation.MemberAll (ClassExpression.restatedList I.counts cs) x

def MemberSome (cs : List ClassExpression) (x : Δ) : Prop :=
  I.toInterpretation.MemberSome (ClassExpression.restatedList I.counts cs) x

/-- The successors of an object along a role that belong to an expression. -/
def successors (r : Role) (c : ClassExpression) (x : Δ) : Set Δ :=
  I.toInterpretation.successors r (c.restated I.counts) x

def Included (c d : ClassExpression) : Prop :=
  I.toInterpretation.Included (c.restated I.counts) (d.restated I.counts)

def Disjoint (c d : ClassExpression) : Prop :=
  I.toInterpretation.Disjoint (c.restated I.counts) (d.restated I.counts)

def Satisfies (a : Axiom) : Prop := I.toInterpretation.Satisfies (a.restated I.counts)

def Respects (a : Axiom) : Prop := I.toInterpretation.Respects (a.restated I.counts)

/-! ### Members -/

section Members

open ClassExpression

variable {I} {x : Δ} {c : ClassExpression} {cs : List ClassExpression} {r : Role} {n : UInt32}
  {filler : Option ClassExpression}

@[simp] theorem member_named {iri : Iri} : I.Member (.named iri) x ↔ x ∈ I.classes iri := by
  simp [Member, restated, Interpretation.Member]

@[simp] theorem member_thing : I.Member .thing x ↔ True := by
  simp [Member, restated, Interpretation.Member]

@[simp] theorem member_nothing : I.Member .nothing x ↔ False := by
  simp [Member, restated, Interpretation.Member]

@[simp] theorem memberAll_nil : I.MemberAll [] x ↔ True := by
  simp [MemberAll, restatedList, Interpretation.MemberAll]

@[simp] theorem memberAll_cons : I.MemberAll (c :: cs) x ↔ I.Member c x ∧ I.MemberAll cs x := by
  simp [MemberAll, Member, restatedList, Interpretation.MemberAll]

@[simp] theorem memberSome_nil : I.MemberSome [] x ↔ False := by
  simp [MemberSome, restatedList, Interpretation.MemberSome]

@[simp] theorem memberSome_cons :
    I.MemberSome (c :: cs) x ↔ I.Member c x ∨ I.MemberSome cs x := by
  simp [MemberSome, Member, restatedList, Interpretation.MemberSome]

@[simp] theorem member_intersectionOf : I.Member (.intersectionOf cs) x ↔ I.MemberAll cs x := by
  simp [Member, MemberAll, restated, Interpretation.Member]

@[simp] theorem member_unionOf : I.Member (.unionOf cs) x ↔ I.MemberSome cs x := by
  simp [Member, MemberSome, restated, Interpretation.Member]

@[simp] theorem member_complementOf : I.Member (.complementOf c) x ↔ ¬ I.Member c x := by
  simp [Member, restated, Interpretation.Member]

@[simp] theorem member_oneOf {is : List Individual} :
    I.Member (.oneOf is) x ↔ ∃ i ∈ is, I.denote i = x := by
  simp [Member, restated, Interpretation.Member]

@[simp] theorem member_someValuesFrom :
    I.Member (.someValuesFrom r c) x ↔ ∃ y ∈ I.domain, I.Leads r x y ∧ I.Member c y := by
  simp [Member, restated, Interpretation.Member]

@[simp] theorem member_allValuesFrom :
    I.Member (.allValuesFrom r c) x ↔ ∀ y ∈ I.domain, I.Leads r x y → I.Member c y := by
  simp [Member, restated, Interpretation.Member]

@[simp] theorem member_hasValue {i : Individual} :
    I.Member (.hasValue r i) x ↔ I.Leads r x (I.denote i) := by
  simp [Member, restated, Interpretation.Member]

@[simp] theorem member_hasSelf : I.Member (.hasSelf r) x ↔ I.Leads r x x := by
  simp [Member, restated, Interpretation.Member]

@[simp] theorem member_negation : I.Member c.negation x ↔ ¬ I.Member c x := by
  unfold ClassExpression.negation
  split <;> simp

theorem member_minCardinality :
    I.Member (.minCardinality n r filler) x ↔
      n.toNat ≤ (I.successors r (fillerOrThing filler) x).encard := by
  rw [Member, restated, Interpretation.member_minCardinality, fillerOrThing_restatedFiller,
    successors]

section Counted

variable (hI : I.counts = true)

include hI

theorem member_maxCardinality :
    I.Member (.maxCardinality n r filler) x ↔
      (I.successors r (fillerOrThing filler) x).encard ≤ n.toNat := by
  rw [Member, restated, if_pos hI, Interpretation.member_maxCardinality,
    fillerOrThing_restatedFiller, successors]

theorem member_exactCardinality :
    I.Member (.exactCardinality n r filler) x ↔
      (I.successors r (fillerOrThing filler) x).encard = n.toNat := by
  rw [Member, restated, if_pos hI, Interpretation.member_exactCardinality,
    fillerOrThing_restatedFiller, successors]

end Counted

section Uncounted

variable (hI : I.counts = false)

include hI

theorem member_maxCardinality_iff_not :
    I.Member (.maxCardinality n r filler) x ↔
      ¬ I.Member (.minCardinality (nextCardinality n) r filler) x := by
  simp [Member, restated, hI, Interpretation.Member]

theorem member_exactCardinality_iff_and :
    I.Member (.exactCardinality n r filler) x ↔ I.Member (.minCardinality n r filler) x ∧
      ¬ I.Member (.minCardinality (nextCardinality n) r filler) x := by
  simp [Member, restated, hI, Interpretation.Member, Interpretation.MemberAll]

end Uncounted

end Members

/-! ### Axioms -/

theorem included_iff {c d : ClassExpression} :
    I.Included c d ↔ ∀ x ∈ I.domain, I.Member c x → I.Member d x := Iff.rfl

theorem disjoint_iff {c d : ClassExpression} :
    I.Disjoint c d ↔ ∀ x ∈ I.domain, ¬ (I.Member c x ∧ I.Member d x) := Iff.rfl

theorem satisfies_equivalentClasses_iff {cs : List ClassExpression} :
    I.Satisfies (.equivalentClasses cs) ↔ ∀ c ∈ cs, ∀ d ∈ cs, I.Included c d := by
  simp only [Satisfies, Axiom.restated, Interpretation.Satisfies, List.forall_mem_map]
  rfl

/-- Some expressions are equivalent if the inclusions between the first and each other hold. -/
theorem forall_included_iff {c : ClassExpression} {cs : List ClassExpression} :
    (∀ d ∈ cs, I.Included c d ∧ I.Included d c) ↔ I.Satisfies (.equivalentClasses (c :: cs)) := by
  rw [satisfies_equivalentClasses_iff]
  exact Interpretation.forall_first_iff (fun _ _ _ h => h) fun _ _ _ h h' x hx hm =>
    h' x hx (h x hx hm)

theorem satisfies_disjointClasses_iff {cs : List ClassExpression} :
    I.Satisfies (.disjointClasses cs) ↔ cs.Pairwise I.Disjoint := by
  simp only [Satisfies, Axiom.restated, Interpretation.Satisfies, List.pairwise_map]
  rfl

theorem satisfies_disjointUnion_iff {whole : Iri} {parts : List ClassExpression} :
    I.Satisfies (.disjointUnion whole parts) ↔
      I.Satisfies (.equivalentClasses [.named whole, .unionOf parts]) ∧
        I.Satisfies (.disjointClasses parts) := by
  simp only [Satisfies, Axiom.restated, Interpretation.satisfies_disjointUnion_iff, List.map_cons,
    List.map_nil, ClassExpression.restated, ClassExpression.restatedList_eq_map]

theorem satisfies_objectPropertyDomain_iff {r : Role} {c : ClassExpression} :
    I.Satisfies (.objectPropertyDomain r c) ↔
      ∀ x ∈ I.domain, ∀ y ∈ I.domain, I.Leads r x y → I.Member c x := Iff.rfl

theorem satisfies_objectPropertyRange_iff {r : Role} {c : ClassExpression} :
    I.Satisfies (.objectPropertyRange r c) ↔
      ∀ x ∈ I.domain, ∀ y ∈ I.domain, I.Leads r x y → I.Member c y := Iff.rfl

theorem satisfies_classAssertion_iff {c : ClassExpression} {i : Individual} :
    I.Satisfies (.classAssertion c i) ↔ I.Member c (I.denote i) := Iff.rfl

theorem satisfies_inverseObjectProperties_iff {r s : Role} :
    I.Satisfies (.inverseObjectProperties r s) ↔
      I.Satisfies (.equivalentObjectProperties [r, s.inverse]) :=
  I.toInterpretation.satisfies_inverseObjectProperties_iff

/-- Without individuals that are said to be different, an axiom is respected exactly when it is
true. -/
theorem respects_eq_satisfies {a : Axiom} (ha : ∀ is, a ≠ .differentIndividuals is) :
    I.Respects a = I.Satisfies a := by
  cases a with
  | differentIndividuals is => exact absurd rfl (ha is)
  | _ => rfl

end Evaluation

/-! ## Small domains -/

theorem toNat_nextCardinality {n : UInt32} (h : n ≠ UInt32.ofNat (UInt32.size - 1)) :
    (nextCardinality n).toNat = n.toNat + 1 := by
  have hne : n.toNat ≠ UInt32.size - 1 := fun heq => h (by rw [← heq]; simp)
  have hlt := n.toNat_lt_size
  rw [nextCardinality, if_neg h, UInt32.toNat_add]
  -- only the largest cardinality would wrap around
  exact Nat.mod_eq_of_lt (by simp only [UInt32.size] at *; simp; omega)

/-- With fewer successors than the largest cardinality, a lower bound that is one larger is the
opposite of an upper bound. -/
theorem nextCardinality_le_iff {n : UInt32} {k : Nat} (h : k < UInt32.size - 1) :
    (nextCardinality n).toNat ≤ k ↔ ¬ k ≤ n.toNat := by
  by_cases hn : n = UInt32.ofNat (UInt32.size - 1)
  · have hnat : n.toNat = UInt32.size - 1 := by rw [hn]; rfl
    rw [nextCardinality, if_pos hn]
    omega
  · rw [toNat_nextCardinality hn]
    omega

/-- There are fewer objects than the largest cardinality. -/
def Interpretation.IsSmall {Δ : Type} (I : Interpretation Δ) : Prop :=
  I.domain.encard < (UInt32.size - 1 : Nat)

theorem Interpretation.OverDomain.isSmall {I : Interpretation Individual} {d : Domain}
    (hI : I.OverDomain d) (hd : d.size < UInt32.size - 1) : I.IsSmall := by
  have hdomain : I.domain = d.elements.toList.toFinset := by
    rw [hI.domain]
    ext i
    simp [SortedSet.mem_def]
  rw [IsSmall, hdomain, Set.encard_coe_eq_coe_finsetCard, Nat.cast_lt]
  exact (List.toFinset_card_le _).trans_lt hd

namespace Evaluation

variable {Δ : Type} {I : Evaluation Δ} (hI : I.IsSmall)

include hI

/-- The number of some objects of a small domain. -/
theorem exists_encard_eq {s : Set Δ} (hs : s ⊆ I.domain) :
    ∃ k : Nat, s.encard = k ∧ k < UInt32.size - 1 := by
  have hlt := (Set.encard_le_encard hs).trans_lt hI
  have hfinite : s.encard ≠ ⊤ := hlt.ne_top
  refine ⟨s.encard.toNat, (ENat.natCast_toNat hfinite).symm, ?_⟩
  rwa [← Nat.cast_lt (α := ℕ∞), ENat.natCast_toNat hfinite]

theorem not_nextCardinality_le_iff {n : UInt32} {s : Set Δ} (hs : s ⊆ I.domain) :
    ¬ ((nextCardinality n).toNat : ℕ∞) ≤ s.encard ↔ s.encard ≤ n.toNat := by
  obtain ⟨k, hk, hlt⟩ := exists_encard_eq hI hs
  rw [hk, Nat.cast_le, Nat.cast_le, nextCardinality_le_iff hlt, not_not]

theorem le_and_not_nextCardinality_le_iff {n : UInt32} {s : Set Δ} (hs : s ⊆ I.domain) :
    (n.toNat : ℕ∞) ≤ s.encard ∧ ¬ ((nextCardinality n).toNat : ℕ∞) ≤ s.encard ↔
      s.encard = n.toNat := by
  rw [not_nextCardinality_le_iff hI hs]
  exact ⟨fun h => le_antisymm h.2 h.1, fun h => ⟨h.ge, h.le⟩⟩

omit hI

mutual

theorem member_iff (hI : I.IsSmall) :
    ∀ (c : ClassExpression) (x : Δ), I.Member c x ↔ I.toInterpretation.Member c x
  | .named _, x => by simp [Interpretation.Member]
  | .thing, x => by simp [Interpretation.Member]
  | .nothing, x => by simp [Interpretation.Member]
  | .intersectionOf cs, x => by simp [Interpretation.Member, memberAll_iff hI cs]
  | .unionOf cs, x => by simp [Interpretation.Member, memberSome_iff hI cs]
  | .complementOf c, x => by simp [Interpretation.Member, member_iff hI c]
  | .oneOf _, x => by simp [Interpretation.Member]
  | .someValuesFrom _ c, x => by simp [Interpretation.Member, member_iff hI c]
  | .allValuesFrom _ c, x => by simp [Interpretation.Member, member_iff hI c]
  | .hasValue _ _, x => by simp [Interpretation.Member]
  | .hasSelf _, x => by simp [Interpretation.Member]
  | .minCardinality n r c, x => by
    simp [Member, ClassExpression.restated, Interpretation.Member, memberFiller_iff hI c]
  | .maxCardinality n r c, x => by
    unfold Member ClassExpression.restated
    split
    · simp [Interpretation.Member, memberFiller_iff hI c]
    · simp only [Interpretation.Member, memberFiller_iff hI c]
      exact not_nextCardinality_le_iff hI fun _ hy => hy.1
  | .exactCardinality n r c, x => by
    unfold Member ClassExpression.restated
    split
    · simp [Interpretation.Member, memberFiller_iff hI c]
    · simp only [Interpretation.Member, Interpretation.MemberAll, memberFiller_iff hI c, and_true]
      exact le_and_not_nextCardinality_le_iff hI fun _ hy => hy.1

theorem memberAll_iff (hI : I.IsSmall) : ∀ (cs : List ClassExpression) (x : Δ),
    I.MemberAll cs x ↔ I.toInterpretation.MemberAll cs x
  | [], x => by simp [Interpretation.MemberAll]
  | c :: cs, x => by simp [Interpretation.MemberAll, member_iff hI c, memberAll_iff hI cs]

theorem memberSome_iff (hI : I.IsSmall) : ∀ (cs : List ClassExpression) (x : Δ),
    I.MemberSome cs x ↔ I.toInterpretation.MemberSome cs x
  | [], x => by simp [Interpretation.MemberSome]
  | c :: cs, x => by simp [Interpretation.MemberSome, member_iff hI c, memberSome_iff hI cs]

theorem memberFiller_iff (hI : I.IsSmall) : ∀ (c : Option ClassExpression) (x : Δ),
    I.toInterpretation.MemberFiller (ClassExpression.restatedFiller I.counts c) x ↔
      I.toInterpretation.MemberFiller c x
  | none, x => by simp [ClassExpression.restatedFiller]
  | some c, x => by
    simp only [ClassExpression.restatedFiller, Interpretation.MemberFiller]
    exact member_iff hI c x

end

include hI

theorem satisfies_iff (a : Axiom) : I.Satisfies a ↔ I.toInterpretation.Satisfies a := by
  have hmember : ∀ c x, I.toInterpretation.Member (c.restated I.counts) x ↔
      I.toInterpretation.Member c x := member_iff hI
  have hdisjoint : ∀ c d, I.toInterpretation.Disjoint (c.restated I.counts) (d.restated I.counts) ↔
      I.toInterpretation.Disjoint c d := fun c d => by simp [Interpretation.Disjoint, hmember]
  cases a with
  | disjointClasses cs =>
    simp only [Satisfies, Axiom.restated, Interpretation.Satisfies, List.pairwise_map, hdisjoint]
  | disjointUnion whole parts =>
    simp [Satisfies, Axiom.restated, Interpretation.Satisfies, List.pairwise_map, hmember, hdisjoint]
  | _ => simp [Satisfies, Axiom.restated, Interpretation.Satisfies, Interpretation.Included, hmember]

theorem respects_iff (a : Axiom) : I.Respects a ↔ I.toInterpretation.Respects a := by
  by_cases ha : ∃ is, a = .differentIndividuals is
  · obtain ⟨is, rfl⟩ := ha
    rfl
  · rw [respects_eq_satisfies I (not_exists.1 ha), satisfies_iff hI]
    cases a with
    | differentIndividuals is => exact absurd ⟨is, rfl⟩ ha
    | _ => rfl

end Evaluation

end FixedDomain
