import FixedDomain.AnswerSet.Basic
import FixedDomain.AnswerSet.Propagation
import FixedDomain.AnswerSet.Stability

/-! # Search

All answer sets of a normal program, by case distinction on the first open atom after propagation,
the case that it fails first:

* `Interruption`, `Watch` — the reasons to stop early, and when they are first noticed.
* `explore` — the search below a partial assignment.
* `search` — the search from the assignment that knows nothing.
-/

namespace FixedDomain.AnswerSet

/-! ## Interruptions -/

/-- Why a search stops early. -/
inductive Interruption where
  | cancelled
  | timedOut
  deriving DecidableEq

/-- What is noticed at the n-th look at the outside: the first look comes before the search, and
one more before each case. -/
abbrev Watch := Nat → Option Interruption

/-- The watch that notices nothing. -/
def Watch.quiet : Watch := fun _ => none

/-- The watch that notices an interruption at every look. -/
def Watch.always (i : Interruption) : Watch := fun _ => some i

/-! ## Progress -/

/-- The answer sets found so far, and the number of looks at the outside. -/
structure Progress where
  found : Array AnswerSet
  looks : Nat

namespace Progress

/-- The beginning of a search, after the first look. -/
def start : Progress := ⟨#[], 1⟩

/-- One more look. -/
def look (s : Progress) : Progress := { s with looks := s.looks + 1 }

/-- One more answer set. -/
def add (s : Progress) (answer : AnswerSet) : Progress := { s with found := s.found.push answer }

/-- Whether enough answer sets are found; a limit of zero is never reached. -/
def isFull (s : Progress) (limit : Nat) : Bool := 0 < limit && limit ≤ s.found.size

end Progress

/-! ## Exploration -/

/-- The atoms that hold. -/
def answerOf (p : NormalProgram) (a : Assignment) : AnswerSet :=
  .ofList ((p.atoms.toList.zip a.values.toList).filterMap fun (atom, value) =>
    if value = .holds then some atom else none)

/-- Records a total assignment if it is stable. -/
def record (p : NormalProgram) (a : Assignment) (s : Progress) : Progress :=
  if isStable p a then s.add (answerOf p a) else s

/-- Visits every case below an assignment until enough answer sets are found. -/
def explore (p : NormalProgram) (watch : Watch) (limit : Nat) (a : Assignment) (s : Progress) :
    Except Interruption Progress :=
  match watch s.looks with
  | some i => .error i
  | none =>
    match _hp : propagate p a with
    -- nothing below `a` is an answer set
    | none => .ok s.look
    | some b =>
      match _hx : b.firstUndecided? with
      -- nothing is open but whether `b` is stable
      | none => .ok (record p b s.look)
      | some x =>
        -- the case that `x` fails comes first
        match explore p watch limit (b.decide x false) s.look with
        | .error i => .error i
        | .ok t =>
          if t.isFull limit then .ok t
          else explore p watch limit (b.decide x true) t
termination_by a.undecided
decreasing_by
  all_goals
    exact Nat.lt_of_lt_of_le (Assignment.undecided_decide_lt _hx _) (propagate_undecided_le _hp)

/-- The answer sets of a normal program in the order in which the search meets them. -/
def search (p : NormalProgram) (watch : Watch) (limit : Nat) :
    Except Interruption (List AnswerSet) :=
  (explore p watch limit (.unknown p.atoms.size) .start).map (·.found.toList)

end FixedDomain.AnswerSet
