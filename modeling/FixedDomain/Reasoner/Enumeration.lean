import FixedDomain.AnswerSet.Solver
import FixedDomain.Model

/-! # Enumerating models

* `Enumeration` — a sequence of distinct models that is drawn one at a time. Each draw asks the
  solver for one answer set, and then excludes all answer sets that stand for the same model.
* `Enumeration.next` — one draw; `Enumeration.drain` — all of them, up to the first error.
-/

namespace FixedDomain

/-- The state of an enumeration. A limit of zero asks for every model. -/
structure Enumeration where
  context : Context
  program : Program
  observable : List Atom
  projection : Option (SortedSet Iri)
  options : SolveOptions
  limit : Nat
  found : Nat
  done : Bool

namespace Enumeration

/-- An enumeration from which nothing has been drawn. -/
def start (context : Context) (program : Program) (projection : Option (SortedSet Iri))
    (options : SolveOptions) (limit : Nat) : Enumeration where
  context
  program
  observable := context.observableAtoms projection
  projection
  options := { options with maxModels := 1 }
  limit
  found := 0
  done := false

/-- Whether nothing more is to be drawn. -/
def isOver (e : Enumeration) : Bool := e.done || (0 < e.limit && e.limit ≤ e.found)

/-- The constraint that excludes the answer sets in which the observable atoms are as in one. -/
def blocking (observable : List Atom) (answer : AnswerSet) : Rule :=
  .constraint (observable.map fun a => if a ∈ answer then .pos a else .not a)

/-- The enumeration after an answer set: its model is excluded, unless nothing tells models
apart. -/
def advance (e : Enumeration) (answer : AnswerSet) : Enumeration :=
  if e.observable.isEmpty then { e with found := e.found + 1, done := true }
  else { e with
    found := e.found + 1
    program := e.program.push (blocking e.observable answer) }

/-- The next model, or the reason why there is none. -/
def next {m : Type → Type} [Monad m] (solver : Solver m) (e : Enumeration) :
    m (Option (Except SolverError Model) × Enumeration) := do
  if e.isOver then pure (none, e)
  else
    match ← solver.solve e.program e.options with
    | .error error => pure (some (.error error), { e with done := true })
    | .ok [] => pure (none, { e with done := true })
    -- whatever else the solver brings is not looked at
    | .ok (answer :: _) =>
      pure (some (.ok (e.context.decode answer e.projection)), e.advance answer)

/-- The models of at most so many draws, and the error that ended them, if one did. -/
def drainWithin {m : Type → Type} [Monad m] (solver : Solver m) :
    Nat → Enumeration → m (List Model × Option SolverError)
  | 0, _ => pure ([], none)
  | draws + 1, e => do
    match ← e.next solver with
    | (none, _) => pure ([], none)
    | (some (.error error), _) => pure ([], some error)
    | (some (.ok model), e) =>
      let (models, ending) ← drainWithin solver draws e
      pure (model :: models, ending)

/-- A number of draws that no enumeration exceeds: models differ in an observable atom, unless
the solver strays, and one draw finds that there is nothing left. -/
def drawBound {m : Type → Type} (solver : Solver m) (e : Enumeration) : Nat :=
  Nat.pow 2 e.observable.length + solver.strays + 1

/-- All models that are left, and the error that ended the sequence, if one did. -/
def drain {m : Type → Type} [Monad m] (solver : Solver m) (e : Enumeration) :
    m (List Model × Option SolverError) :=
  drainWithin solver (e.drawBound solver) e

end Enumeration

end FixedDomain
