/-! # Separated text

* `splitAt` — the parts of a text between the places where a separator stands.
* `intercalate_splitAt` — the parts with the separator between them are the text.
-/

namespace FixedDomain

/-- The parts between separators, from left to right. Two separators in a row have an empty part
between them, and so has a separator at either end. -/
def splitAt (separator : Char) : List Char → List (List Char)
  | [] => [[]]
  | c :: cs =>
    if c = separator then [] :: splitAt separator cs
    else
      match splitAt separator cs with
      | [] => [[c]]
      | part :: parts => (c :: part) :: parts

theorem splitAt_ne_nil (separator : Char) (cs : List Char) : splitAt separator cs ≠ [] := by
  cases cs with
  | nil => simp [splitAt]
  | cons c cs =>
    unfold splitAt
    split
    · simp
    · split <;> simp

/-- Nothing is lost between the parts but the separators. -/
theorem intercalate_splitAt (separator : Char) (cs : List Char) :
    [separator].intercalate (splitAt separator cs) = cs := by
  induction cs with
  | nil => rfl
  | cons c cs ih =>
    unfold splitAt
    split
    · next h =>
      -- the first part is empty, and the separator follows it
      cases hs : splitAt separator cs with
      | nil => exact absurd hs (splitAt_ne_nil separator cs)
      | cons part parts =>
        rw [hs] at ih
        simp [List.intercalate, List.intersperse, ← ih, h]
    · split
      · next hs => exact absurd hs (splitAt_ne_nil separator cs)
      · next part parts hs =>
        rw [hs] at ih
        cases parts <;> simp_all [List.intercalate, List.intersperse]

end FixedDomain
