/-! # Names and the vocabulary

What an ontology's statements are made of:

* `Iri` — the name of a thing, with its `localName`.
* `Individual` — a named individual.
* `Entity` — an entry of the vocabulary: a class, an object property or an individual.
* `Role` — an object property, read forwards or backwards.
-/

namespace FixedDomain

/-! ## IRIs -/

/-- A name; a name that begins with `_:` denotes an anonymous individual. -/
structure Iri where
  text : String
  deriving DecidableEq, Hashable

namespace Iri

/-- IRIs are ordered as their texts are, character by character. -/
instance : Ord Iri := ⟨compareOn Iri.text⟩

instance : Std.TransOrd Iri := inferInstanceAs (Std.TransCmp (compareOn Iri.text))

instance : Std.LawfulEqOrd Iri where
  eq_of_compare {a b} h := by
    have h : compare a.text b.text = .eq := h
    have : a.text = b.text := Std.LawfulEqCmp.eq_of_compare h
    cases a; cases b; simp_all

instance : Inhabited Iri := ⟨⟨""⟩⟩

/-- The class of everything. -/
def thing : Iri := ⟨"http://www.w3.org/2002/07/owl#Thing"⟩

/-- The class of nothing. -/
def nothing : Iri := ⟨"http://www.w3.org/2002/07/owl#Nothing"⟩

/-- The characters that separate a local name from what stands before it. -/
def isSeparator (c : Char) : Bool := c = '#' || c = '/' || c = ':'

/-- The part after the last separator, or the whole name if nothing follows a separator. -/
def localName (iri : Iri) : String :=
  let tail := (iri.text.toList.reverse.takeWhile fun c => !isSeparator c).reverse
  if tail.isEmpty then iri.text else String.ofList tail

/-- Whether the name is that of an anonymous individual. -/
def isAnonymous (iri : Iri) : Bool :=
  match iri.text.toList with
  | '_' :: ':' :: _ => true
  | _ => false

end Iri

/-! ## Individuals -/

/-- A named individual. -/
structure Individual where
  iri : Iri
  deriving DecidableEq, Hashable

namespace Individual

instance : Ord Individual := ⟨compareOn Individual.iri⟩

instance : Std.TransOrd Individual := inferInstanceAs (Std.TransCmp (compareOn Individual.iri))

instance : Std.LawfulEqOrd Individual where
  eq_of_compare {a b} h := by
    have h : compare a.iri b.iri = .eq := h
    have : a.iri = b.iri := Std.LawfulEqCmp.eq_of_compare h
    cases a; cases b; simp_all

instance : Inhabited Individual := ⟨⟨default⟩⟩

end Individual

/-! ## Vocabulary -/

/-- An entry of the vocabulary. One IRI may name entities of several kinds. -/
inductive Entity where
  | atomicClass (iri : Iri)
  | objectProperty (iri : Iri)
  | individual (iri : Iri)
  deriving DecidableEq, Hashable

namespace Entity

/-- The name of the entity. -/
def iri : Entity → Iri
  | atomicClass iri | objectProperty iri | individual iri => iri

/-- The keyword that declares entities of this kind. -/
def kind : Entity → String
  | atomicClass _ => "Class"
  | objectProperty _ => "ObjectProperty"
  | individual _ => "NamedIndividual"

end Entity

/-! ## Roles -/

/-- An object property in one of its two directions. -/
inductive Role where
  | named (property : Iri)
  | inverseOf (property : Iri)
  deriving DecidableEq, Hashable

namespace Role

/-- The object property, whichever way it is read. -/
def property : Role → Iri
  | named property | inverseOf property => property

/-- The same property read the other way. -/
def inverse : Role → Role
  | named property => inverseOf property
  | inverseOf property => named property

@[simp] theorem inverse_inverse (r : Role) : r.inverse.inverse = r := by
  cases r <;> rfl

@[simp] theorem property_inverse (r : Role) : r.inverse.property = r.property := by
  cases r <;> rfl

end Role

end FixedDomain
