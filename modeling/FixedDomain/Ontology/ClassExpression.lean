import FixedDomain.Ontology.Name

/-! # Class expressions

* `ClassExpression` — the concept language: named classes, Boolean operators, nominals,
  restrictions on a role and counting restrictions.
* Decidable equality, written out over expressions and lists of expressions.
* `vocabulary` — every entity that occurs in an expression.
* `negation` — the complement, without stacking complements.
-/

namespace FixedDomain

/-- A description of a set of individuals. A counting restriction without a filler counts all
successors. -/
inductive ClassExpression where
  | named (iri : Iri)
  | thing
  | nothing
  | intersectionOf (conjuncts : List ClassExpression)
  | unionOf (disjuncts : List ClassExpression)
  | complementOf (operand : ClassExpression)
  | oneOf (members : List Individual)
  | someValuesFrom (role : Role) (filler : ClassExpression)
  | allValuesFrom (role : Role) (filler : ClassExpression)
  | hasValue (role : Role) (value : Individual)
  | hasSelf (role : Role)
  | minCardinality (count : UInt32) (role : Role) (filler : Option ClassExpression)
  | maxCardinality (count : UInt32) (role : Role) (filler : Option ClassExpression)
  | exactCardinality (count : UInt32) (role : Role) (filler : Option ClassExpression)
  deriving Hashable, Inhabited

namespace ClassExpression

/-! ## Equality -/

mutual

/-- Whether two expressions are the same. -/
def same : ClassExpression → ClassExpression → Bool
  | named a, named b => a = b
  | thing, thing => true
  | nothing, nothing => true
  | intersectionOf cs, intersectionOf ds => sameList cs ds
  | unionOf cs, unionOf ds => sameList cs ds
  | complementOf c, complementOf d => same c d
  | oneOf is, oneOf js => is = js
  | someValuesFrom r c, someValuesFrom s d => r = s && same c d
  | allValuesFrom r c, allValuesFrom s d => r = s && same c d
  | hasValue r i, hasValue s j => r = s && i = j
  | hasSelf r, hasSelf s => r = s
  | minCardinality m r c, minCardinality n s d => m = n && r = s && sameFiller c d
  | maxCardinality m r c, maxCardinality n s d => m = n && r = s && sameFiller c d
  | exactCardinality m r c, exactCardinality n s d => m = n && r = s && sameFiller c d
  | _, _ => false

/-- Whether two lists of expressions are the same. -/
def sameList : List ClassExpression → List ClassExpression → Bool
  | [], [] => true
  | c :: cs, d :: ds => same c d && sameList cs ds
  | _, _ => false

/-- Whether two fillers are the same. -/
def sameFiller : Option ClassExpression → Option ClassExpression → Bool
  | none, none => true
  | some c, some d => same c d
  | _, _ => false

end

mutual

theorem same_iff : ∀ c d : ClassExpression, same c d = true ↔ c = d
  | named _, d => by cases d <;> simp [same]
  | thing, d => by cases d <;> simp [same]
  | nothing, d => by cases d <;> simp [same]
  | intersectionOf cs, d => by cases d <;> simp [same, sameList_iff cs]
  | unionOf cs, d => by cases d <;> simp [same, sameList_iff cs]
  | complementOf c, d => by cases d <;> simp [same, same_iff c]
  | oneOf _, d => by cases d <;> simp [same]
  | someValuesFrom _ c, d => by cases d <;> simp [same, same_iff c]
  | allValuesFrom _ c, d => by cases d <;> simp [same, same_iff c]
  | hasValue _ _, d => by cases d <;> simp [same]
  | hasSelf _, d => by cases d <;> simp [same]
  | minCardinality _ _ c, d => by cases d <;> simp [same, sameFiller_iff c, and_assoc]
  | maxCardinality _ _ c, d => by cases d <;> simp [same, sameFiller_iff c, and_assoc]
  | exactCardinality _ _ c, d => by cases d <;> simp [same, sameFiller_iff c, and_assoc]

theorem sameList_iff : ∀ cs ds : List ClassExpression, sameList cs ds = true ↔ cs = ds
  | [], ds => by cases ds <;> simp [sameList]
  | c :: cs, ds => by cases ds <;> simp [sameList, same_iff c, sameList_iff cs]

theorem sameFiller_iff : ∀ c d : Option ClassExpression, sameFiller c d = true ↔ c = d
  | none, d => by cases d <;> simp [sameFiller]
  | some c, d => by cases d <;> simp [sameFiller, same_iff c]

end

instance : DecidableEq ClassExpression := fun c d => decidable_of_iff _ (same_iff c d)

/-! ## Building blocks -/

/-- The expression that an IRI stands for: the two predefined classes or a named class. -/
def ofIri (iri : Iri) : ClassExpression :=
  if iri = Iri.thing then thing else if iri = Iri.nothing then nothing else named iri

/-- Named classes, the two predefined classes, and complements of named classes. -/
def isLiteral : ClassExpression → Bool
  | named _ | thing | nothing => true
  | complementOf (named _) => true
  | _ => false

/-- The complement; the complement of a complement is the operand. -/
def negation : ClassExpression → ClassExpression
  | complementOf operand => operand
  | c => complementOf c

/-- The filler of a counting restriction; everything, if none is given. -/
def fillerOrThing (filler : Option ClassExpression) : ClassExpression := filler.getD thing

/-! ## Vocabulary -/

mutual

/-- Every entity that occurs in an expression, from left to right. -/
def vocabulary : ClassExpression → List Entity
  | named iri => [.atomicClass iri]
  | thing | nothing => []
  | intersectionOf cs | unionOf cs => vocabularyList cs
  | complementOf c => vocabulary c
  | oneOf members => members.map fun i => .individual i.iri
  | someValuesFrom r c | allValuesFrom r c => .objectProperty r.property :: vocabulary c
  | hasValue r i => [.objectProperty r.property, .individual i.iri]
  | hasSelf r => [.objectProperty r.property]
  | minCardinality _ r c | maxCardinality _ r c | exactCardinality _ r c =>
    .objectProperty r.property :: vocabularyFiller c

/-- Every entity that occurs in a list of expressions. -/
def vocabularyList : List ClassExpression → List Entity
  | [] => []
  | c :: cs => vocabulary c ++ vocabularyList cs

/-- Every entity that occurs in a filler. -/
def vocabularyFiller : Option ClassExpression → List Entity
  | none => []
  | some c => vocabulary c

end

end ClassExpression

end FixedDomain
