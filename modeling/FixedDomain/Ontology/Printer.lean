import FixedDomain.Ontology.Basic

/-! # Functional syntax of ontologies

How names, expressions, axioms and ontologies are written. IRIs are written in full, except that
the two predefined classes keep their short names and anonymous individuals stay bare.

* `render` on each type — its text.
* `Ontology.render` — a whole document, one line for each part, ending in a line break.
-/

namespace FixedDomain

/-- The texts in order, with single spaces between them. -/
def spaced (texts : List String) : String := " ".intercalate texts

/-- A keyword with its arguments in parentheses. -/
def group (keyword : String) (arguments : List String) : String :=
  keyword ++ "(" ++ spaced arguments ++ ")"

/-! ## Names -/

/-- The reference to a name: between angle brackets, unless it is anonymous. -/
def Iri.render (iri : Iri) : String :=
  if iri.isAnonymous then iri.text else "<" ++ iri.text ++ ">"

/-- An individual is written as its name. -/
def Individual.render (i : Individual) : String := i.iri.render

/-- An entity is written with its kind. -/
def Entity.render (e : Entity) : String := group e.kind [e.iri.render]

/-- A role is written as its property, marked if it is read backwards. -/
def Role.render : Role → String
  | .named property => property.render
  | .inverseOf property => group "ObjectInverseOf" [property.render]

/-! ## Class expressions -/

namespace ClassExpression

mutual

/-- The text of an expression. -/
def render : ClassExpression → String
  | named iri => iri.render
  | thing => "owl:Thing"
  | nothing => "owl:Nothing"
  | intersectionOf cs => group "ObjectIntersectionOf" (renderList cs)
  | unionOf cs => group "ObjectUnionOf" (renderList cs)
  | complementOf c => group "ObjectComplementOf" [render c]
  | oneOf members => group "ObjectOneOf" (members.map Individual.render)
  | someValuesFrom r c => group "ObjectSomeValuesFrom" [r.render, render c]
  | allValuesFrom r c => group "ObjectAllValuesFrom" [r.render, render c]
  | hasValue r i => group "ObjectHasValue" [r.render, i.render]
  | hasSelf r => group "ObjectHasSelf" [r.render]
  | minCardinality n r c =>
    group "ObjectMinCardinality" (toString n.toNat :: r.render :: renderFiller c)
  | maxCardinality n r c =>
    group "ObjectMaxCardinality" (toString n.toNat :: r.render :: renderFiller c)
  | exactCardinality n r c =>
    group "ObjectExactCardinality" (toString n.toNat :: r.render :: renderFiller c)

/-- The texts of a list of expressions. -/
def renderList : List ClassExpression → List String
  | [] => []
  | c :: cs => render c :: renderList cs

/-- The text of a filler, if there is one. -/
def renderFiller : Option ClassExpression → List String
  | none => []
  | some c => [render c]

end

end ClassExpression

/-! ## Axioms -/

namespace Axiom

/-- The arguments of an axiom, each as it is written. -/
def arguments : Axiom → List String
  | declaration e => [e.render]
  | subClassOf c d => [c.render, d.render]
  | equivalentClasses cs | disjointClasses cs => ClassExpression.renderList cs
  | disjointUnion whole parts => [whole.render, spaced (ClassExpression.renderList parts)]
  | subObjectPropertyOf r s | inverseObjectProperties r s => [r.render, s.render]
  | equivalentObjectProperties rs | disjointObjectProperties rs => rs.map Role.render
  | objectPropertyDomain r c | objectPropertyRange r c => [r.render, c.render]
  | functionalObjectProperty r | inverseFunctionalObjectProperty r | reflexiveObjectProperty r
  | irreflexiveObjectProperty r | symmetricObjectProperty r | asymmetricObjectProperty r
  | transitiveObjectProperty r => [r.render]
  | sameIndividual is | differentIndividuals is => is.map Individual.render
  | classAssertion c i => [c.render, i.render]
  | objectPropertyAssertion r i j | negativeObjectPropertyAssertion r i j =>
    [r.render, i.render, j.render]
  | unsupported _ source => [source]

/-- The text of an axiom; an unsupported one is written as it was read. -/
def render : Axiom → String
  | unsupported _ source => source
  | a => group a.kind a.arguments

end Axiom

/-! ## Documents -/

/-- The namespace that the short names of the predefined classes belong to. -/
def owlNamespace : String := "http://www.w3.org/2002/07/owl#"

/-- A declaration of a short name for a namespace. -/
def renderNamespace (declared : String × String) : String :=
  "Prefix(" ++ declared.1 ++ ":=<" ++ declared.2 ++ ">)"

namespace Ontology

/-- The declarations that the document opens with: its own, and one for the predefined classes
unless it declares that name itself. -/
def headerLines (o : Ontology) : List String :=
  o.prefixes.entries.map renderNamespace ++
    if o.prefixes.contains "owl" then [] else [renderNamespace ("owl", owlNamespace)]

/-- The lines of the document. -/
def lines (o : Ontology) : List String :=
  o.headerLines ++
    ["Ontology(" ++ (o.iri.map Iri.render).getD ""] ++
    o.imports.map (fun iri => "    " ++ group "Import" [iri.render]) ++
    o.axioms.map (fun a => "    " ++ a.render) ++
    [")"]

/-- The text of the document. -/
def render (o : Ontology) : String :=
  String.join (o.lines.map (· ++ "\n"))

end Ontology

end FixedDomain
