import FixedDomain.Collections.SortedSet
import FixedDomain.Program.Atom

/-! # Answer sets

The atoms that hold in one answer set of a program, in the order of atoms.
-/

namespace FixedDomain

/-- An answer set, given by the atoms that hold in it. -/
structure AnswerSet where
  atoms : SortedSet Atom
  deriving DecidableEq, Inhabited

namespace AnswerSet

/-- The answer set in which the listed atoms hold. -/
def ofList (atoms : List Atom) : AnswerSet := ⟨.ofList atoms⟩

instance : Membership Atom AnswerSet := ⟨fun s a => a ∈ s.atoms⟩

instance (s : AnswerSet) (a : Atom) : Decidable (a ∈ s) :=
  inferInstanceAs (Decidable (a ∈ s.atoms))

@[simp] theorem mem_ofList {atoms : List Atom} {a : Atom} : a ∈ ofList atoms ↔ a ∈ atoms :=
  SortedSet.mem_ofList

end AnswerSet

end FixedDomain
