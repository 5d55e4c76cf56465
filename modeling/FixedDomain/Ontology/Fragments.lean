import FixedDomain.Ontology.Printer

/-! # Fragments of axioms

The fragments in which an axiom is written, from left to right. An output buffer is sent off between
two of them, and so they decide where a file ends of which more is to come.

* `fragments` on each type — its fragments.
* `join_fragments` on each type — together they are the text.
-/

namespace FixedDomain

/-- The fragments of several parts, with single spaces between the parts. -/
def spacedFragments (parts : List (List String)) : List String := [" "].intercalate parts

/-- The fragments of an opening, of the arguments after it, and of the closing parenthesis. -/
def groupFragments (opening : List String) (arguments : List (List String)) : List String :=
  opening ++ spacedFragments arguments ++ [")"]

@[simp] theorem join_spacedFragments (parts : List (List String)) :
    String.join (spacedFragments parts) = spaced (parts.map String.join) := by
  unfold spacedFragments spaced
  induction parts with
  | nil => rfl
  | cons part parts ih =>
    cases parts with
    | nil => simp
    | cons next parts =>
      rw [List.intercalate_cons_cons, List.map_cons, List.map_cons, String.intercalate_cons_cons,
        String.join_append, String.join_append, ih]
      simp

@[simp] theorem join_groupFragments (opening : List String) (arguments : List (List String)) :
    String.join (groupFragments opening arguments) =
      String.join opening ++ spaced (arguments.map String.join) ++ ")" := by
  simp [groupFragments, String.append_assoc]

/-! ## Names -/

/-- The fragments of the reference to a name. -/
def Iri.fragments (iri : Iri) : List String :=
  if iri.isAnonymous then [iri.text] else ["<", iri.text, ">"]

@[simp] theorem Iri.join_fragments (iri : Iri) : String.join iri.fragments = iri.render := by
  unfold fragments render
  split <;> simp [String.append_assoc]

/-- The fragments of an individual are those of its name. -/
def Individual.fragments (i : Individual) : List String := i.iri.fragments

@[simp] theorem Individual.join_fragments (i : Individual) :
    String.join i.fragments = i.render := by
  simp [fragments, render]

/-- The fragments of an entity. -/
def Entity.fragments (e : Entity) : List String := groupFragments [e.kind, "("] [e.iri.fragments]

@[simp] theorem Entity.join_fragments (e : Entity) : String.join e.fragments = e.render := by
  simp [fragments, render, group]

/-- The fragments of a role. -/
def Role.fragments : Role → List String
  | .named property => property.fragments
  | .inverseOf property => groupFragments ["ObjectInverseOf("] [property.fragments]

@[simp] theorem Role.join_fragments (r : Role) : String.join r.fragments = r.render := by
  cases r <;> simp [fragments, render, group]

/-! ## Class expressions -/

namespace ClassExpression

mutual

/-- The fragments of an expression. The keyword of a cardinality is a fragment of its own. -/
def fragments : ClassExpression → List String
  | named iri => iri.fragments
  | thing => ["owl:Thing"]
  | nothing => ["owl:Nothing"]
  | intersectionOf cs => groupFragments ["ObjectIntersectionOf("] (fragmentsList cs)
  | unionOf cs => groupFragments ["ObjectUnionOf("] (fragmentsList cs)
  | complementOf c => groupFragments ["ObjectComplementOf("] [fragments c]
  | oneOf members => groupFragments ["ObjectOneOf("] (members.map Individual.fragments)
  | someValuesFrom r c => groupFragments ["ObjectSomeValuesFrom("] [r.fragments, fragments c]
  | allValuesFrom r c => groupFragments ["ObjectAllValuesFrom("] [r.fragments, fragments c]
  | hasValue r i => groupFragments ["ObjectHasValue("] [r.fragments, i.fragments]
  | hasSelf r => groupFragments ["ObjectHasSelf("] [r.fragments]
  | minCardinality n r c =>
    groupFragments ["ObjectMinCardinality", "("]
      ([toString n.toNat] :: r.fragments :: fragmentsFiller c)
  | maxCardinality n r c =>
    groupFragments ["ObjectMaxCardinality", "("]
      ([toString n.toNat] :: r.fragments :: fragmentsFiller c)
  | exactCardinality n r c =>
    groupFragments ["ObjectExactCardinality", "("]
      ([toString n.toNat] :: r.fragments :: fragmentsFiller c)

/-- The fragments of each expression of a list. -/
def fragmentsList : List ClassExpression → List (List String)
  | [] => []
  | c :: cs => fragments c :: fragmentsList cs

/-- The fragments of a filler, if there is one. -/
def fragmentsFiller : Option ClassExpression → List (List String)
  | none => []
  | some c => [fragments c]

end

mutual

theorem join_fragments : ∀ c : ClassExpression, String.join c.fragments = c.render
  | named iri => by simp [fragments, render]
  | thing | nothing => by simp [fragments, render]
  | intersectionOf cs | unionOf cs => by simp [fragments, render, group, map_join_fragmentsList cs]
  | complementOf c => by simp [fragments, render, group, join_fragments c]
  | oneOf members => by
    simp [fragments, render, group, Function.comp_def]
  | someValuesFrom r c | allValuesFrom r c => by
    simp [fragments, render, group, join_fragments c]
  | hasValue r i => by simp [fragments, render, group]
  | hasSelf r => by simp [fragments, render, group]
  | minCardinality n r c | maxCardinality n r c | exactCardinality n r c => by
    simp [fragments, render, group, map_join_fragmentsFiller c]

theorem map_join_fragmentsList :
    ∀ cs : List ClassExpression, (fragmentsList cs).map String.join = renderList cs
  | [] => rfl
  | c :: cs => by simp [fragmentsList, renderList, join_fragments c, map_join_fragmentsList cs]

theorem map_join_fragmentsFiller :
    ∀ c : Option ClassExpression, (fragmentsFiller c).map String.join = renderFiller c
  | none => rfl
  | some c => by simp [fragmentsFiller, renderFiller, join_fragments c]

end

end ClassExpression

/-! ## Axioms -/

namespace Axiom

/-- The fragments that an axiom opens with: its keyword, and the parenthesis after it. -/
def opening : Axiom → List String
  | a@(declaration _) | a@(subClassOf _ _) | a@(disjointUnion _ _) | a@(classAssertion _ _) =>
    [a.kind ++ "("]
  | a => [a.kind, "("]

/-- The fragments of each argument of an axiom. -/
def argumentFragments : Axiom → List (List String)
  | declaration e => [e.fragments]
  | subClassOf c d => [c.fragments, d.fragments]
  | equivalentClasses cs | disjointClasses cs => ClassExpression.fragmentsList cs
  | disjointUnion whole parts =>
    [whole.fragments, spacedFragments (ClassExpression.fragmentsList parts)]
  | subObjectPropertyOf r s | inverseObjectProperties r s => [r.fragments, s.fragments]
  | equivalentObjectProperties rs | disjointObjectProperties rs => rs.map Role.fragments
  | objectPropertyDomain r c | objectPropertyRange r c => [r.fragments, c.fragments]
  | functionalObjectProperty r | inverseFunctionalObjectProperty r | reflexiveObjectProperty r
  | irreflexiveObjectProperty r | symmetricObjectProperty r | asymmetricObjectProperty r
  | transitiveObjectProperty r => [r.fragments]
  | sameIndividual is | differentIndividuals is => is.map Individual.fragments
  | classAssertion c i => [c.fragments, i.fragments]
  | objectPropertyAssertion r i j | negativeObjectPropertyAssertion r i j =>
    [r.fragments, i.fragments, j.fragments]
  | unsupported _ source => [[source]]

/-- The fragments of an axiom. The source of an unsupported one is a single fragment. -/
def fragments : Axiom → List String
  | unsupported _ source => [source]
  | a => groupFragments a.opening a.argumentFragments

theorem join_opening (a : Axiom) : String.join a.opening = a.kind ++ "(" := by
  cases a <;> simp [opening]

theorem map_join_argumentFragments (a : Axiom) :
    a.argumentFragments.map String.join = a.arguments := by
  cases a <;> simp [argumentFragments, arguments, ClassExpression.join_fragments,
    ClassExpression.map_join_fragmentsList, Function.comp_def]

/-- The fragments of an axiom are its text. -/
theorem join_fragments (a : Axiom) : String.join a.fragments = a.render := by
  cases a <;>
    simp [fragments, render, group, join_opening, map_join_argumentFragments]

end Axiom

end FixedDomain
