import FixedDomain.Reasoner.Error

/-! # Fixed domains

* `Domain` — the finite set of individuals that every model is built from; it is never empty.
* `Domain.ofIndividuals` — the domain of some individuals, or of one made-up individual.
* `Domain.resolve` — the domain of an ontology, taken from a document that lists it or else from
  the individuals that the ontology says something about.
* `closureAxioms`, `axiomatize` — the domain stated as axioms.
-/

namespace FixedDomain

/-- A finite, non-empty set of individuals. It is synthesized if its only element was made up. -/
structure Domain where
  elements : SortedSet Individual
  synthesized : Bool
  nonempty : elements.toList ≠ []

namespace Domain

/-- The individual that is made up for an ontology that names none. -/
def anonymous : Individual := ⟨⟨"urn:kitsune:anonymous#a0"⟩⟩

/-- The domain of one made-up individual. -/
def synthetic : Domain := ⟨.ofList [anonymous], true, by
  simp [SortedSet.ofList, SortedSet.insertAll, SortedSet.insert, SortedSet.insertSorted,
    SortedSet.empty]⟩

instance : Inhabited Domain := ⟨synthetic⟩

/-- The domain of some individuals; if there is none, one is made up. -/
def ofSet (individuals : SortedSet Individual) : Domain :=
  if h : individuals.toList = [] then synthetic else ⟨individuals, false, h⟩

/-- The domain of the listed individuals. -/
def ofIndividuals (individuals : List Individual) : Domain := ofSet (.ofList individuals)

/-- How many elements there are. -/
def size (d : Domain) : Nat := d.elements.size

/-- The place of an individual in the domain. -/
def indexOf? (d : Domain) (i : Individual) : Option Nat := d.elements.toList.idxOf? i

/-- The domain of an ontology. A document that lists the domain has to name an individual, and
every individual of the ontology has to be among those it names. -/
def resolve (o : Ontology) (listed : Option Ontology) : Except ReasonerError Domain :=
  match listed with
  | none => .ok (ofSet o.assertedIndividuals)
  | some document =>
    let elements := document.signature.individuals
    if elements.isEmpty then .error (.configuration .emptyDomain)
    else
      let missing := o.signature.individuals.filter fun i => !decide (i ∈ elements)
      if missing.isEmpty then .ok (ofSet elements)
      else .error (.configuration (.outsideDomain missing.toList))

/-! ## The domain as axioms -/

/-- The axioms that the elements exist, that they are different from each other, and that there is
nothing else. -/
def closureAxioms (d : Domain) : List Axiom :=
  let elements := d.elements.toList
  elements.map (fun i => .declaration (.individual i.iri)) ++
    (if 1 < elements.length then [.differentIndividuals elements] else []) ++
    [.subClassOf .thing (.oneOf elements)]

/-- The ontology with its domain stated by axioms. Each axiom is taken once; the imports are
dropped, since their axioms are part of the ontology already. -/
def axiomatize (o : Ontology) (d : Domain) : Ontology :=
  (o.axioms ++ d.closureAxioms).foldl Ontology.addNew
    { Ontology.empty with iri := o.iri, prefixes := o.prefixes }

end Domain

end FixedDomain
