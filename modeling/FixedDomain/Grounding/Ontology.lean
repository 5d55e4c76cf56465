import FixedDomain.Grounding.Axiom

/-! # Ontologies as programs

* `Encoding` — the program of an ontology. Under the debug strategy each rule of an axiom
  carries an activation atom, and the program is completed by saying which axioms are active.
* `groundOntology` — the encoding of an ontology: first the totality of its signature, then its
  axioms in order, each behind a comment with its text.
-/

namespace FixedDomain

/-! ## Encodings -/

/-- The program of an ontology, and the axioms whose rules are tagged, with their positions. -/
structure Encoding where
  program : Program
  activations : List (Nat × Axiom)
  deriving Inhabited

namespace Encoding

/-- The positions of the axioms whose rules are tagged. -/
def positions (e : Encoding) : List Nat := e.activations.map (·.1)

/-- The program in which only the given axioms are active. -/
def withActive (e : Encoding) (active : List Nat) : Program :=
  if active.isEmpty then e.program
  else (e.program.comment "activation").pushAll (active.map fun k => .fact (activationAtom k))

/-- The program in which every axiom is active. -/
def complete (e : Encoding) : Program := e.withActive e.positions

end Encoding

namespace Grounding

/-- A rule that applies only if an axiom is active. -/
def tag (k : Nat) (r : Rule) : Rule := { r with body := r.body ++ [.pos (activationAtom k)] }

/-- The rules of an axiom as the strategy wants them. -/
def tagged (strategy : Strategy) (k : Nat) (rules : List Rule) : List Rule :=
  if strategy = .debug then rules.map (tag k) else rules

/-- Adds the rules of an axiom at a position, after what became pending on the way. An axiom that
brings neither leaves no trace. -/
def groundAxiom (e : Encoding) (k : Nat) (a : Axiom) : Grounding Encoding := do
  let rules ← axiomRules a
  let c ← get
  if rules.isEmpty && c.pending.isBlank then pure e
  else
    -- definitions stay untagged: only axioms can be switched off
    let program := e.program.comment a.render ++ (← takePending)
    pure {
      program := program.pushAll (tagged c.strategy k rules)
      activations :=
        if c.strategy = .debug && !rules.isEmpty then e.activations ++ [(k, a)] else e.activations }

/-- Adds the rules of some axioms, the first of which stands at a position. -/
def groundAxioms (e : Encoding) : Nat → List Axiom → Grounding Encoding
  | _, [] => pure e
  | k, a :: rest => do
    let e ← groundAxiom e k a
    groundAxioms e (k + 1) rest

/-- The encoding of an ontology. -/
def groundOntology (o : Ontology) : Grounding Encoding := do
  let _ ← o.signature.classes.toList.mapM classSymbol
  let _ ← o.signature.objectProperties.toList.mapM propertySymbol
  let program := Program.empty.comment "totality" ++ (← takePending)
  groundAxioms ⟨program, []⟩ 0 o.axioms

end Grounding

end FixedDomain
