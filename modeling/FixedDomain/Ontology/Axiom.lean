import FixedDomain.Ontology.ClassExpression

/-! # Axioms

* `Axiom` — the statements of an ontology. A statement outside the supported language is kept
  as `unsupported`, with its source text.
* `kind`, `isAssertion` — its keyword, and whether it is a statement about individuals.
* `vocabulary` — every entity that occurs in it.
-/

namespace FixedDomain

/-- One statement of an ontology. -/
inductive Axiom where
  | declaration (entity : Entity)
  | subClassOf (sub sup : ClassExpression)
  | equivalentClasses (classes : List ClassExpression)
  | disjointClasses (classes : List ClassExpression)
  | disjointUnion (whole : Iri) (parts : List ClassExpression)
  | subObjectPropertyOf (sub sup : Role)
  | equivalentObjectProperties (roles : List Role)
  | disjointObjectProperties (roles : List Role)
  | inverseObjectProperties (first second : Role)
  | objectPropertyDomain (role : Role) (type : ClassExpression)
  | objectPropertyRange (role : Role) (type : ClassExpression)
  | functionalObjectProperty (role : Role)
  | inverseFunctionalObjectProperty (role : Role)
  | reflexiveObjectProperty (role : Role)
  | irreflexiveObjectProperty (role : Role)
  | symmetricObjectProperty (role : Role)
  | asymmetricObjectProperty (role : Role)
  | transitiveObjectProperty (role : Role)
  | sameIndividual (individuals : List Individual)
  | differentIndividuals (individuals : List Individual)
  | classAssertion (type : ClassExpression) (individual : Individual)
  | objectPropertyAssertion (role : Role) (subject object : Individual)
  | negativeObjectPropertyAssertion (role : Role) (subject object : Individual)
  | unsupported (keyword source : String)
  deriving DecidableEq

namespace Axiom

/-- The keyword that introduces the axiom. -/
def kind : Axiom → String
  | declaration _ => "Declaration"
  | subClassOf _ _ => "SubClassOf"
  | equivalentClasses _ => "EquivalentClasses"
  | disjointClasses _ => "DisjointClasses"
  | disjointUnion _ _ => "DisjointUnion"
  | subObjectPropertyOf _ _ => "SubObjectPropertyOf"
  | equivalentObjectProperties _ => "EquivalentObjectProperties"
  | disjointObjectProperties _ => "DisjointObjectProperties"
  | inverseObjectProperties _ _ => "InverseObjectProperties"
  | objectPropertyDomain _ _ => "ObjectPropertyDomain"
  | objectPropertyRange _ _ => "ObjectPropertyRange"
  | functionalObjectProperty _ => "FunctionalObjectProperty"
  | inverseFunctionalObjectProperty _ => "InverseFunctionalObjectProperty"
  | reflexiveObjectProperty _ => "ReflexiveObjectProperty"
  | irreflexiveObjectProperty _ => "IrreflexiveObjectProperty"
  | symmetricObjectProperty _ => "SymmetricObjectProperty"
  | asymmetricObjectProperty _ => "AsymmetricObjectProperty"
  | transitiveObjectProperty _ => "TransitiveObjectProperty"
  | sameIndividual _ => "SameIndividual"
  | differentIndividuals _ => "DifferentIndividuals"
  | classAssertion _ _ => "ClassAssertion"
  | objectPropertyAssertion _ _ _ => "ObjectPropertyAssertion"
  | negativeObjectPropertyAssertion _ _ _ => "NegativeObjectPropertyAssertion"
  | unsupported keyword _ => keyword

/-- Whether the axiom states something about named individuals. -/
def isAssertion : Axiom → Bool
  | sameIndividual _ | differentIndividuals _ | classAssertion _ _ => true
  | objectPropertyAssertion _ _ _ | negativeObjectPropertyAssertion _ _ _ => true
  | _ => false

/-- The entities of a list of roles. -/
def rolesVocabulary (roles : List Role) : List Entity :=
  roles.map fun r => .objectProperty r.property

/-- The entities of a list of individuals. -/
def individualsVocabulary (individuals : List Individual) : List Entity :=
  individuals.map fun i => .individual i.iri

/-- What a declaration adds to the vocabulary: the predefined classes belong to every ontology
and are not counted. -/
def declaredVocabulary : Entity → List Entity
  | .atomicClass iri => if iri = Iri.thing ∨ iri = Iri.nothing then [] else [.atomicClass iri]
  | e => [e]

/-- Every entity that occurs in the axiom, from left to right. -/
def vocabulary : Axiom → List Entity
  | declaration e => declaredVocabulary e
  | subClassOf c d => c.vocabulary ++ d.vocabulary
  | equivalentClasses cs | disjointClasses cs => ClassExpression.vocabularyList cs
  | disjointUnion whole parts => .atomicClass whole :: ClassExpression.vocabularyList parts
  | subObjectPropertyOf r s | inverseObjectProperties r s => rolesVocabulary [r, s]
  | equivalentObjectProperties rs | disjointObjectProperties rs => rolesVocabulary rs
  | objectPropertyDomain r c | objectPropertyRange r c => rolesVocabulary [r] ++ c.vocabulary
  | functionalObjectProperty r | inverseFunctionalObjectProperty r | reflexiveObjectProperty r
  | irreflexiveObjectProperty r | symmetricObjectProperty r | asymmetricObjectProperty r
  | transitiveObjectProperty r => rolesVocabulary [r]
  | sameIndividual is | differentIndividuals is => individualsVocabulary is
  | classAssertion c i => c.vocabulary ++ individualsVocabulary [i]
  | objectPropertyAssertion r i j | negativeObjectPropertyAssertion r i j =>
    rolesVocabulary [r] ++ individualsVocabulary [i, j]
  | unsupported _ _ => []

/-- The individuals that the axiom says something about. A declaration says nothing about the
individual that it declares. -/
def individualsAsserted : Axiom → List Individual
  | declaration _ => []
  | a => a.vocabulary.filterMap fun
    | .individual iri => some ⟨iri⟩
    | _ => none

end Axiom

end FixedDomain
