/-! # Buffered output

Output comes in fragments, and waits until enough of it has come together:

* `Buffer` — the text that waits.
* `Buffer.add`, `Buffer.addAll` — taking fragments in, and what is sent off meanwhile.
* `Buffer.add_eq`, `Buffer.size_add_le` — nothing is lost or moved, and the buffer never overflows.

A fragment is sent off as a whole, so that what has been sent off always ends where a fragment does.
-/

namespace FixedDomain

/-- Text that waits to be sent off. -/
structure Buffer where
  waiting : String
  deriving DecidableEq, Inhabited

namespace Buffer

/-- The buffer in which nothing waits. -/
def empty : Buffer := ⟨""⟩

/-- How many bytes have room in a buffer. -/
def capacity : Nat := 8192

/-- Takes in a fragment; answers what is sent off, and the buffer afterwards. A fragment that no
longer has room drives out what waits. One that would fill the buffer alone does not wait at all. -/
def add (b : Buffer) (fragment : String) : String × Buffer :=
  if capacity ≤ fragment.utf8ByteSize then (b.waiting ++ fragment, empty)
  else if capacity < b.waiting.utf8ByteSize + fragment.utf8ByteSize then (b.waiting, ⟨fragment⟩)
  else ("", ⟨b.waiting ++ fragment⟩)

/-- Takes in some fragments, one after the other. -/
def addAll (b : Buffer) : List String → String × Buffer
  | [] => ("", b)
  | fragment :: fragments =>
    let (sent, b) := b.add fragment
    let (later, b) := b.addAll fragments
    (sent ++ later, b)

/-- What is sent off and what waits is what has come in, in the same order. -/
theorem add_eq (b : Buffer) (fragment : String) :
    (b.add fragment).1 ++ (b.add fragment).2.waiting = b.waiting ++ fragment := by
  unfold add
  split
  · simp [empty]
  · split <;> simp

/-- As for one fragment, so for many. -/
theorem addAll_eq (b : Buffer) (fragments : List String) :
    (b.addAll fragments).1 ++ (b.addAll fragments).2.waiting =
      b.waiting ++ String.join fragments := by
  induction fragments generalizing b with
  | nil => simp [addAll]
  | cons fragment fragments ih =>
    simp only [addAll]
    rw [String.append_assoc, ih, ← String.append_assoc, add_eq, String.join_cons,
      String.append_assoc]

/-- No more waits than has room. -/
theorem size_add_le (b : Buffer) (fragment : String) :
    (b.add fragment).2.waiting.utf8ByteSize ≤ capacity := by
  unfold add
  split
  · simp [empty]
  · split
    · simp only
      omega
    · simp only [String.utf8ByteSize_append]
      omega

/-- Nor after many fragments. -/
theorem size_addAll_le (b : Buffer) (fragments : List String)
    (h : b.waiting.utf8ByteSize ≤ capacity) :
    (b.addAll fragments).2.waiting.utf8ByteSize ≤ capacity := by
  induction fragments generalizing b with
  | nil => exact h
  | cons fragment fragments ih => exact ih _ (size_add_le b fragment)

end Buffer

end FixedDomain
