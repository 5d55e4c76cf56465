import FixedDomain.Ontology.ClassExpression

/-! # Weights of class expressions

Some restrictions are grounded by way of other expressions that are not parts of them: a universal
one as a denied existential one, an upper bound as a denied lower bound. The weight of an
expression is a measure that decreases along these steps.
-/

namespace FixedDomain.ClassExpression

mutual

/-- The weight of an expression. -/
def weight : ClassExpression → Nat
  | named _ | thing | nothing | oneOf _ | hasValue _ _ | hasSelf _ => 1
  | intersectionOf cs | unionOf cs => 1 + weightList cs
  | complementOf c => 1 + weight c
  | someValuesFrom _ c => 1 + weight c
  | allValuesFrom _ c => 3 + weight c
  | minCardinality _ _ c => 1 + weightFiller c
  | maxCardinality _ _ c | exactCardinality _ _ c => 2 + weightFiller c

/-- The weight of a list of expressions, which exceeds that of each. -/
def weightList : List ClassExpression → Nat
  | [] => 0
  | c :: cs => 1 + weight c + weightList cs

/-- The weight of a filler. -/
def weightFiller : Option ClassExpression → Nat
  | none => 1
  | some c => weight c

end

theorem weight_negation_le (c : ClassExpression) : c.negation.weight ≤ 1 + c.weight := by
  unfold negation
  split
  · simp only [weight]; omega
  · simp only [weight]; omega

@[simp] theorem weight_fillerOrThing (filler : Option ClassExpression) :
    (fillerOrThing filler).weight = weightFiller filler := by
  cases filler <;> simp [fillerOrThing, weight, weightFiller]

end FixedDomain.ClassExpression
