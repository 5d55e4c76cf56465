import FixedDomain.Collections.SortedMap
import FixedDomain.Collections.SortedSet
import FixedDomain.Ontology.Axiom

/-! # Ontologies

* `Signature` — the classes, object properties and individuals of an ontology, each kind sorted.
* `Ontology` — axioms in document order, with the signature they are written in.
* `add`, `merge` — the two ways an ontology grows; both keep the signature in step.
* `assertedIndividuals` — the individuals that some axiom says something about.
-/

namespace FixedDomain

/-! ## Signatures -/

/-- The vocabulary of an ontology, by kind. -/
structure Signature where
  classes : SortedSet Iri
  objectProperties : SortedSet Iri
  individuals : SortedSet Individual
  deriving DecidableEq

namespace Signature

/-- The signature without entities. -/
def empty : Signature := ⟨.empty, .empty, .empty⟩

/-- The signature with one more entity. -/
def insert (s : Signature) : Entity → Signature
  | .atomicClass iri => { s with classes := s.classes.insert iri }
  | .objectProperty iri => { s with objectProperties := s.objectProperties.insert iri }
  | .individual iri => { s with individuals := s.individuals.insert ⟨iri⟩ }

/-- Every entity: individuals first, then classes, then object properties. -/
def entities (s : Signature) : List Entity :=
  s.individuals.toList.map (fun i => .individual i.iri) ++
    s.classes.toList.map .atomicClass ++ s.objectProperties.toList.map .objectProperty

end Signature

/-! ## Ontologies -/

/-- An ontology document: its header, its axioms in order and the signature. -/
structure Ontology where
  iri : Option Iri
  imports : List Iri
  prefixes : SortedMap String String
  axioms : List Axiom
  signature : Signature
  deriving DecidableEq

namespace Ontology

/-- The ontology that says nothing. -/
def empty : Ontology := ⟨none, [], .empty, [], .empty⟩

instance : Inhabited Ontology := ⟨empty⟩

/-- Appends an axiom and enters its vocabulary into the signature. -/
def add (o : Ontology) (a : Axiom) : Ontology :=
  { o with
    axioms := o.axioms ++ [a]
    signature := a.vocabulary.foldl Signature.insert o.signature }

/-- Appends an axiom unless the ontology has it already. -/
def addNew (o : Ontology) (a : Axiom) : Ontology :=
  if a ∈ o.axioms then o else o.add a

/-- Takes over the axioms of another ontology that are not there yet; the header stays. -/
def merge (o other : Ontology) : Ontology :=
  other.axioms.foldl addNew o

/-- The ontology with the given axioms and no header. -/
def ofAxioms (axioms : List Axiom) : Ontology :=
  axioms.foldl add empty

/-- The individuals that some axiom says something about, nominals included. -/
def assertedIndividuals (o : Ontology) : SortedSet Individual :=
  .ofList (o.axioms.flatMap Axiom.individualsAsserted)

end Ontology

end FixedDomain
