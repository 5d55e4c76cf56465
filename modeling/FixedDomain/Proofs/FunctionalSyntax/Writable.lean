import FixedDomain.FunctionalSyntax.Reader
import FixedDomain.Proofs.FunctionalSyntax.Lexing

/-! # What can be written and read back

* `Iri.IsWritable` — a name that can stand between angle brackets, and without them if it is anonymous.
* `ClassExpression.IsShaped`, `Axiom.IsShaped` — expressions and axioms with lists of the least lengths,
  in which no predefined class appears as a named one.
* `ClassExpression.UsesPredefined`, `Axiom.UsesPredefined` — whether one of the predefined classes, which
  are written with a short name, occurs.
-/

namespace FixedDomain

open FunctionalSyntax

/-! ## Names -/

/-- A text that can stand between angle brackets. -/
def IsBracketable (text : String) : Prop := ∀ c ∈ text.toList, isIriChar c = true

instance (text : String) : Decidable (IsBracketable text) :=
  List.decidableBAll _ text.toList

/-- A text that is the first half of a short name. -/
def IsPrefixName (name : String) : Prop :=
  (∀ c ∈ name.toList.head?, isNameStart c = true) ∧ ∀ c ∈ name.toList.tail, isNameChar c = true

instance (name : String) : Decidable (IsPrefixName name) :=
  have := Option.decidableForallMem (p := fun c => isNameStart c = true) name.toList.head?
  have := List.decidableBAll (fun c => isNameChar c = true) name.toList.tail
  instDecidableAnd

/-- A text that is the second half of a short name. -/
def IsLocalName (name : String) : Prop := ∀ c ∈ name.toList, isNameChar c = true

instance (name : String) : Decidable (IsLocalName name) :=
  List.decidableBAll _ name.toList

/-- If the name is anonymous, it can stand without angle brackets. -/
def Iri.IsLabel (iri : Iri) : Prop :=
  iri.isAnonymous = true → ∀ c ∈ iri.text.toList.drop 2, isNameChar c = true

instance (iri : Iri) : Decidable iri.IsLabel :=
  have := List.decidableBAll (fun c => isNameChar c = true) (iri.text.toList.drop 2)
  inferInstanceAs (Decidable (_ → _))

/-- A name that can be written. -/
structure Iri.IsWritable (iri : Iri) : Prop where
  bracketable : IsBracketable iri.text
  label : iri.IsLabel

instance (iri : Iri) : Decidable iri.IsWritable :=
  decidable_of_iff (IsBracketable iri.text ∧ iri.IsLabel)
    ⟨fun ⟨bracketable, label⟩ => ⟨bracketable, label⟩, fun h => ⟨h.bracketable, h.label⟩⟩

theorem Iri.isAnonymous_iff {iri : Iri} :
    iri.isAnonymous = true ↔ ∃ label, iri.text.toList = '_' :: ':' :: label := by
  unfold isAnonymous
  split
  · next label h => exact iff_of_true rfl ⟨label, h⟩
  · next h => exact iff_of_false (by simp) fun ⟨label, hlabel⟩ => h label hlabel

theorem bounds_of_isLetter {c : Char} (h : isLetter c = true) :
    (65 ≤ c.toNat ∧ c.toNat ≤ 90) ∨ (97 ≤ c.toNat ∧ c.toNat ≤ 122) := by
  rcases Bool.or_eq_true_iff.1 h with h | h
  · exact .inl (of_decide_eq_true h)
  · exact .inr ((Bool.and_eq_true_iff.1 h).imp of_decide_eq_true of_decide_eq_true)

theorem bounds_of_isDigit {c : Char} (h : c.isDigit = true) : 48 ≤ c.toNat ∧ c.toNat ≤ 57 :=
  (Bool.and_eq_true_iff.1 h).imp of_decide_eq_true of_decide_eq_true

/-- A name character can stand between angle brackets. -/
theorem isIriChar_of_isNameChar {c : Char} (h : isNameChar c = true) : isIriChar c = true := by
  have hchar : (isLetter c = true ∨ c.isDigit = true) ∨ c = '_' ∨ c = '.' ∨ c = '-' := by
    simpa [isNameChar, isWordChar, or_assoc] using h
  have hbracket : c ≠ '<' ∧ c ≠ '>' := by
    constructor <;> rintro rfl <;> exact absurd h (by decide)
  have hblank : isWhiteSpace c = false := by
    rcases hchar with hcode | rfl | rfl | rfl
    · -- letters and digits lie between the blanks of ASCII and the others
      have hbounds := hcode.imp bounds_of_isLetter bounds_of_isDigit
      simp [isWhiteSpace]
      omega
    all_goals decide
  simp [isIriChar, hbracket, hblank]

theorem IsBracketable.append {text text' : String} (h : IsBracketable text) (h' : IsBracketable text') :
    IsBracketable (text ++ text') := by
  simpa [IsBracketable, or_imp, forall_and] using And.intro h h'

/-- The first half of a short name does not contain the colon. -/
theorem splitName_of_isPrefixName {first : String} (h : IsPrefixName first) (second : String) :
    splitName (first ++ ":" ++ second) = (first, second) := by
  have hne : ∀ c ∈ first.toList, (c != ':') = true := by
    intro c hc
    have hchar : isNameStart c = true ∨ isNameChar c = true := by
      cases hcs : first.toList with
      | nil => simp [hcs] at hc
      | cons d ds =>
        rcases List.mem_cons.1 (hcs ▸ hc) with rfl | hc
        · exact .inl (h.1 c (by simp [hcs]))
        · exact .inr (h.2 c (by simpa [hcs] using hc))
    rw [bne_iff_ne]
    rintro rfl
    exact absurd hchar (by decide)
  obtain ⟨htake, hdrop⟩ := takeWhile_append_of_stops (':' :: second.toList) hne
    fun c hc => Option.some.inj hc ▸ rfl
  simp [splitName, htake, hdrop]

/-- A word of a document is as it is read from a text. -/
def FunctionalSyntax.Token.IsSound : Token → Prop
  | .fullIri text => IsBracketable text
  | .prefixedName name => ∃ first second, IsPrefixName first ∧ IsLocalName second ∧
      name = first ++ ":" ++ second
  | _ => True

/-! ## Expressions -/

namespace ClassExpression

mutual

/-- Lists are as long as they have to be, and named classes are not the predefined ones. -/
def IsShaped : ClassExpression → Prop
  | named iri => iri ≠ Iri.thing ∧ iri ≠ Iri.nothing
  | intersectionOf cs | unionOf cs => 2 ≤ cs.length ∧ IsShapedList cs
  | complementOf c | someValuesFrom _ c | allValuesFrom _ c => IsShaped c
  | oneOf members => 1 ≤ members.length
  | minCardinality _ _ c | maxCardinality _ _ c | exactCardinality _ _ c => IsShapedFiller c
  | _ => True

/-- All expressions of a list have their shape. -/
def IsShapedList : List ClassExpression → Prop
  | [] => True
  | c :: cs => IsShaped c ∧ IsShapedList cs

/-- A filler has its shape, if there is one. -/
def IsShapedFiller : Option ClassExpression → Prop
  | none => True
  | some c => IsShaped c

end

mutual

/-- One of the predefined classes occurs. -/
def UsesPredefined : ClassExpression → Prop
  | thing | nothing => True
  | intersectionOf cs | unionOf cs => UsesPredefinedList cs
  | complementOf c | someValuesFrom _ c | allValuesFrom _ c => UsesPredefined c
  | minCardinality _ _ c | maxCardinality _ _ c | exactCardinality _ _ c => UsesPredefinedFiller c
  | _ => False

/-- One of the predefined classes occurs in a list of expressions. -/
def UsesPredefinedList : List ClassExpression → Prop
  | [] => False
  | c :: cs => UsesPredefined c ∨ UsesPredefinedList cs

/-- One of the predefined classes occurs in a filler. -/
def UsesPredefinedFiller : Option ClassExpression → Prop
  | none => False
  | some c => UsesPredefined c

end

end ClassExpression

/-! ## Axioms -/

namespace Axiom

open ClassExpression

/-- Lists are as long as they have to be, and named classes are not the predefined ones. -/
def IsShaped : Axiom → Prop
  | subClassOf c d => c.IsShaped ∧ d.IsShaped
  | equivalentClasses cs | disjointClasses cs | disjointUnion _ cs => 2 ≤ cs.length ∧ IsShapedList cs
  | equivalentObjectProperties rs | disjointObjectProperties rs => 2 ≤ rs.length
  | objectPropertyDomain _ c | objectPropertyRange _ c | classAssertion c _ => c.IsShaped
  | sameIndividual is | differentIndividuals is => 2 ≤ is.length
  | _ => True

/-- One of the predefined classes occurs as an expression. -/
def UsesPredefined : Axiom → Prop
  | subClassOf c d => c.UsesPredefined ∨ d.UsesPredefined
  | equivalentClasses cs | disjointClasses cs | disjointUnion _ cs => UsesPredefinedList cs
  | objectPropertyDomain _ c | objectPropertyRange _ c | classAssertion c _ => c.UsesPredefined
  | _ => False

end Axiom

end FixedDomain
