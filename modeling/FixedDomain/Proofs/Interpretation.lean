import Mathlib.Data.Set.Card
import FixedDomain.Domain

/-! # Interpretations

The direct semantics of the ontology language, apart from any program:

* `Interpretation` — a domain, what individuals denote in it, and what classes and object properties
  stand for.
* `Interpretation.Member` — whether an object belongs to a class expression. Cardinalities count
  the successors in the domain.
* `Interpretation.Satisfies` — whether an axiom is true.
* `Interpretation.OverDomain` — the interpretations over a fixed domain, in which individuals
  denote themselves.
-/

namespace FixedDomain

/-- What the names of an ontology stand for. -/
structure Interpretation (Δ : Type) where
  domain : Set Δ
  denote : Individual → Δ
  classes : Iri → Set Δ
  properties : Iri → Δ → Δ → Prop

namespace Interpretation

variable {Δ : Type} (I : Interpretation Δ)

/-! ## Roles -/

/-- Whether a role leads from one object to another. -/
def Leads : Role → Δ → Δ → Prop
  | .named p, x, y => I.properties p x y
  | .inverseOf p, x, y => I.properties p y x

@[simp] theorem leads_inverse (r : Role) (x y : Δ) : I.Leads r.inverse x y ↔ I.Leads r y x := by
  cases r <;> rfl

/-! ## Class expressions -/

mutual

/-- Whether an object belongs to a class expression. -/
def Member : ClassExpression → Δ → Prop
  | .named iri, x => x ∈ I.classes iri
  | .thing, _ => True
  | .nothing, _ => False
  | .intersectionOf cs, x => MemberAll cs x
  | .unionOf cs, x => MemberSome cs x
  | .complementOf c, x => ¬ Member c x
  | .oneOf is, x => ∃ i ∈ is, I.denote i = x
  | .someValuesFrom r c, x => ∃ y ∈ I.domain, I.Leads r x y ∧ Member c y
  | .allValuesFrom r c, x => ∀ y ∈ I.domain, I.Leads r x y → Member c y
  | .hasValue r i, x => I.Leads r x (I.denote i)
  | .hasSelf r, x => I.Leads r x x
  | .minCardinality n r c, x =>
    n.toNat ≤ {y | y ∈ I.domain ∧ I.Leads r x y ∧ MemberFiller c y}.encard
  | .maxCardinality n r c, x =>
    {y | y ∈ I.domain ∧ I.Leads r x y ∧ MemberFiller c y}.encard ≤ n.toNat
  | .exactCardinality n r c, x =>
    {y | y ∈ I.domain ∧ I.Leads r x y ∧ MemberFiller c y}.encard = n.toNat

/-- Whether an object belongs to all of some expressions. -/
def MemberAll : List ClassExpression → Δ → Prop
  | [], _ => True
  | c :: cs, x => Member c x ∧ MemberAll cs x

/-- Whether an object belongs to one of some expressions. -/
def MemberSome : List ClassExpression → Δ → Prop
  | [], _ => False
  | c :: cs, x => Member c x ∨ MemberSome cs x

/-- Whether an object belongs to a filler; every object belongs to one that is not given. -/
def MemberFiller : Option ClassExpression → Δ → Prop
  | none, _ => True
  | some c, x => Member c x

end

theorem memberSome_iff {cs : List ClassExpression} {x : Δ} :
    I.MemberSome cs x ↔ ∃ c ∈ cs, I.Member c x := by
  induction cs with
  | nil => simp [MemberSome]
  | cons c cs ih => simp [MemberSome, ih]

theorem memberFiller_iff {c : Option ClassExpression} {x : Δ} :
    I.MemberFiller c x ↔ I.Member (ClassExpression.fillerOrThing c) x := by
  cases c <;> simp [MemberFiller, ClassExpression.fillerOrThing, Member]

/-- The successors of an object along a role that belong to an expression. -/
def successors (r : Role) (c : ClassExpression) (x : Δ) : Set Δ :=
  {y | y ∈ I.domain ∧ I.Leads r x y ∧ I.Member c y}

theorem member_minCardinality {n : UInt32} {r : Role} {c : Option ClassExpression} {x : Δ} :
    I.Member (.minCardinality n r c) x ↔
      n.toNat ≤ (I.successors r (ClassExpression.fillerOrThing c) x).encard := by
  simp only [Member, memberFiller_iff, successors]

theorem member_maxCardinality {n : UInt32} {r : Role} {c : Option ClassExpression} {x : Δ} :
    I.Member (.maxCardinality n r c) x ↔
      (I.successors r (ClassExpression.fillerOrThing c) x).encard ≤ n.toNat := by
  simp only [Member, memberFiller_iff, successors]

theorem member_exactCardinality {n : UInt32} {r : Role} {c : Option ClassExpression} {x : Δ} :
    I.Member (.exactCardinality n r c) x ↔
      (I.successors r (ClassExpression.fillerOrThing c) x).encard = n.toNat := by
  simp only [Member, memberFiller_iff, successors]

/-! ## Axioms -/

/-- All pairs are related by a preorder if the first item is related to each other one in both
directions. -/
theorem forall_first_iff {α : Type} {R : α → α → Prop} {xs : List α} (hrefl : ∀ x, R x x)
    (htrans : ∀ x y z, R x y → R y z → R x z) {x : α} :
    (∀ y ∈ xs, R x y ∧ R y x) ↔ ∀ y ∈ x :: xs, ∀ z ∈ x :: xs, R y z := by
  constructor
  · intro h
    have hboth : ∀ y ∈ x :: xs, R x y ∧ R y x :=
      List.forall_mem_cons.2 ⟨⟨hrefl x, hrefl x⟩, h⟩
    exact fun y hy z hz => htrans y x z (hboth y hy).2 (hboth z hz).1
  · intro h y hy
    have hy' : y ∈ x :: xs := List.mem_cons_of_mem _ hy
    exact ⟨h x List.mem_cons_self y hy', h y hy' x List.mem_cons_self⟩

/-- Every object of the domain that belongs to one expression belongs to another. -/
def Included (c d : ClassExpression) : Prop := ∀ x ∈ I.domain, I.Member c x → I.Member d x

/-- No object of the domain belongs to both of two expressions. -/
def Disjoint (c d : ClassExpression) : Prop := ∀ x ∈ I.domain, ¬ (I.Member c x ∧ I.Member d x)

/-- Wherever one role leads in the domain, another leads. -/
def RoleIncluded (r s : Role) : Prop :=
  ∀ x ∈ I.domain, ∀ y ∈ I.domain, I.Leads r x y → I.Leads s x y

theorem forall_roleIncluded_iff {r : Role} {rs : List Role} :
    (∀ s ∈ rs, I.RoleIncluded r s ∧ I.RoleIncluded s r) ↔
      ∀ s ∈ r :: rs, ∀ t ∈ r :: rs, I.RoleIncluded s t :=
  forall_first_iff (fun _ _ _ _ _ h => h)
    fun _ _ _ h h' x hx y hy hm => h' x hx y hy (h x hx y hy hm)

/-- A role leads from no object of the domain to two. -/
def Functional (r : Role) : Prop :=
  ∀ x ∈ I.domain, ∀ y ∈ I.domain, ∀ z ∈ I.domain, I.Leads r x y → I.Leads r x z → y = z

/-- Whether an axiom is true. Nothing is known of an axiom outside the supported language. -/
def Satisfies : Axiom → Prop
  | .declaration _ => True
  | .subClassOf c d => I.Included c d
  | .equivalentClasses cs => ∀ c ∈ cs, ∀ d ∈ cs, I.Included c d
  | .disjointClasses cs => cs.Pairwise I.Disjoint
  | .disjointUnion whole parts =>
    (∀ x ∈ I.domain, x ∈ I.classes whole ↔ ∃ c ∈ parts, I.Member c x) ∧ parts.Pairwise I.Disjoint
  | .subObjectPropertyOf r s => I.RoleIncluded r s
  | .equivalentObjectProperties rs => ∀ r ∈ rs, ∀ s ∈ rs, I.RoleIncluded r s
  | .disjointObjectProperties rs =>
    rs.Pairwise fun r s => ∀ x ∈ I.domain, ∀ y ∈ I.domain, ¬ (I.Leads r x y ∧ I.Leads s x y)
  | .inverseObjectProperties r s =>
    ∀ x ∈ I.domain, ∀ y ∈ I.domain, I.Leads r x y ↔ I.Leads s y x
  | .objectPropertyDomain r c => ∀ x ∈ I.domain, ∀ y ∈ I.domain, I.Leads r x y → I.Member c x
  | .objectPropertyRange r c => ∀ x ∈ I.domain, ∀ y ∈ I.domain, I.Leads r x y → I.Member c y
  | .functionalObjectProperty r => I.Functional r
  | .inverseFunctionalObjectProperty r => I.Functional r.inverse
  | .reflexiveObjectProperty r => ∀ x ∈ I.domain, I.Leads r x x
  | .irreflexiveObjectProperty r => ∀ x ∈ I.domain, ¬ I.Leads r x x
  | .symmetricObjectProperty r => ∀ x ∈ I.domain, ∀ y ∈ I.domain, I.Leads r x y → I.Leads r y x
  | .asymmetricObjectProperty r => ∀ x ∈ I.domain, ∀ y ∈ I.domain, I.Leads r x y → ¬ I.Leads r y x
  | .transitiveObjectProperty r =>
    ∀ x ∈ I.domain, ∀ y ∈ I.domain, ∀ z ∈ I.domain, I.Leads r x y → I.Leads r y z → I.Leads r x z
  | .sameIndividual is => ∀ i ∈ is, ∀ j ∈ is, I.denote i = I.denote j
  | .differentIndividuals is => is.Pairwise fun i j => I.denote i ≠ I.denote j
  | .classAssertion c i => I.Member c (I.denote i)
  | .objectPropertyAssertion r i j => I.Leads r (I.denote i) (I.denote j)
  | .negativeObjectPropertyAssertion r i j => ¬ I.Leads r (I.denote i) (I.denote j)
  | .unsupported _ _ => True

/-- A class is the disjoint union of its parts if it equals their union and they are disjoint. -/
theorem satisfies_disjointUnion_iff {whole : Iri} {parts : List ClassExpression} :
    I.Satisfies (.disjointUnion whole parts) ↔
      I.Satisfies (.equivalentClasses [.named whole, .unionOf parts]) ∧
        I.Satisfies (.disjointClasses parts) := by
  simp only [Satisfies, Included, List.mem_cons, List.not_mem_nil, or_false, forall_eq_or_imp,
    forall_eq, Member, memberSome_iff]
  refine and_congr_left' ⟨fun h => ⟨⟨?_, ?_⟩, ?_, ?_⟩, fun h x hx => ⟨h.1.2 x hx, h.2.1 x hx⟩⟩
  · exact fun _ _ => id
  · exact fun x hx => (h x hx).1
  · exact fun x hx => (h x hx).2
  · exact fun _ _ => id

/-- Roles are inverse to each other if one equals the other backwards. -/
theorem satisfies_inverseObjectProperties_iff {r s : Role} :
    I.Satisfies (.inverseObjectProperties r s) ↔
      I.Satisfies (.equivalentObjectProperties [r, s.inverse]) := by
  simp only [Satisfies, RoleIncluded, List.mem_cons, List.not_mem_nil, or_false, forall_eq_or_imp,
    forall_eq, leads_inverse]
  refine ⟨fun h => ⟨⟨?_, ?_⟩, ?_, ?_⟩, fun h x hx y hy => ⟨h.1.2 x hx y hy, h.2.1 x hx y hy⟩⟩
  · exact fun _ _ _ _ => id
  · exact fun x hx y hy => (h x hx y hy).1
  · exact fun x hx y hy => (h x hx y hy).2
  · exact fun _ _ _ _ => id

/-- What the rules of an axiom ask of an interpretation in which distinct names denote distinct
objects: nothing of individuals that are said to be different. -/
def Respects : Axiom → Prop
  | .differentIndividuals _ => True
  | a => I.Satisfies a

end Interpretation

/-- Whether an axiom belongs to the supported language. -/
def Axiom.IsSupported : Axiom → Prop
  | .unsupported _ _ => False
  | _ => True

/-! ## Fixed domains -/

/-- An interpretation over a fixed domain: every individual denotes itself. -/
structure Interpretation.OverDomain (I : Interpretation Individual) (d : Domain) : Prop where
  domain : I.domain = {i | i ∈ d.elements}
  denote : I.denote = id

theorem Interpretation.OverDomain.congr {I : Interpretation Individual} {d d' : Domain}
    (h : I.OverDomain d) (hd : d'.elements = d.elements) : I.OverDomain d' :=
  ⟨by rw [h.domain, hd], h.denote⟩

/-- An interpretation of a signature over a fixed domain: a set of elements for each of its classes
and a relation between elements for each of its properties, and nothing for any other name. -/
structure Interpretation.OfSignature (I : Interpretation Individual) (d : Domain) (s : Signature) :
    Prop extends I.OverDomain d where
  classes : ∀ iri, ∀ i ∈ I.classes iri, iri ∈ s.classes ∧ i ∈ d.elements
  properties : ∀ iri i j, I.properties iri i j →
    iri ∈ s.objectProperties ∧ i ∈ d.elements ∧ j ∈ d.elements

end FixedDomain
