import FixedDomain.Proofs.Grounding.Axiom
import FixedDomain.Proofs.Grounding.Program

/-! # Encodings of ontologies

The program of an ontology is made of the background rules of the context that the encoding leaves
and of the rules of each axiom, which enforce that it is respected (`Context.Encodes`,
`groundOntology_yields`). The encoding fails only if an individual is no element or an axiom is not
supported. All symbols are given before the first axiom is looked at, in a way that depends on the
signature only (`sameSymbols_of_signature_eq`).

With all axioms active the program realizes that all of them are respected (`Encodes.realizes`).
-/

namespace FixedDomain

namespace Context

/-! ## The first context -/

theorem nameElements_spec {n : Naming} (h : n.Proper) (is : List Individual) :
    (nameElements n is).2.Proper ∧ (nameElements n is).1.map (·.individual) = is ∧
      (∀ x ∈ (nameElements n is).1,
        (nameElements n is).2.entity? x.constant = some (.individual x.individual.iri)) ∧
      ∀ e symbol, n.entity? symbol = some e → (nameElements n is).2.entity? symbol = some e := by
  induction is generalizing n with
  | nil => exact ⟨h, rfl, by simp [nameElements], fun _ _ => id⟩
  | cons i is ih =>
    obtain ⟨hproper, hnew, hold⟩ := Naming.symbol_spec h (.individual i.iri)
    obtain ⟨hproper', hindividuals, hconstants, hold'⟩ := ih hproper
    refine ⟨hproper', ?_, ?_, fun e symbol hs => hold' e symbol (hold e symbol hs)⟩
    · exact congrArg (i :: ·) hindividuals
    · exact List.forall_mem_cons.2 ⟨hold' _ _ hnew, hconstants⟩

variable {c c' : Context} {d : Domain}

theorem ready_new (d : Domain) (scheme : NamingScheme) (strategy : Strategy) :
    (new d scheme strategy).Ready := by
  obtain ⟨hproper, hindividuals, hconstants, -⟩ :=
    nameElements_spec (Naming.proper_empty scheme) d.elements.toList
  refine ⟨hproper, hindividuals, hconstants, fun iri s hs => ?_, fun iri s hs => ?_⟩
  · have hnone : (new d scheme strategy).classes.find? iri = none := SortedMap.find?_empty iri
    simp [hnone] at hs
  · have hnone : (new d scheme strategy).properties.find? iri = none := SortedMap.find?_empty iri
    simp [hnone] at hs

/-- The first context has no background rules. -/
theorem background_new (d : Domain) (scheme : NamingScheme) (strategy : Strategy) :
    (new d scheme strategy).Background (new d scheme strategy).pending.rules where
  total a φ ha := by
    cases ha with
    | @member iri s x hs hx =>
      have hnone : (new d scheme strategy).classes.find? iri = none := SortedMap.find?_empty iri
      simp [hnone] at hs
    | @leads iri s x y hs hx hy =>
      have hnone : (new d scheme strategy).properties.find? iri = none := SortedMap.find?_empty iri
      simp [hnone] at hs
  defined k hk := absurd hk (Nat.not_lt_zero k)
  only r hr := absurd hr List.not_mem_nil

/-- Two contexts with the same symbols and definitions have the same background rules. -/
theorem Background.of_le {rules : List Rule} (hle : c ≤ c') (hge : c' ≤ c)
    (h : c.Background rules) : c'.Background rules where
  total a φ ha := h.total a φ (ha.mono hge)
  defined k hk x hx := by
    have hk' : k < c.definitions.length := by
      have hd := hge.definitions k _ (List.getElem?_eq_getElem hk)
      exact (List.getElem?_eq_some_iff.1 hd).1
    obtain ⟨bodies, hd, hb⟩ := h.defined k hk' x (hle.elements ▸ hx)
    exact ⟨bodies, hd.mono hle, hb⟩
  only r hr := (h.only r hr).mono hle

/-- The context in which nothing is pending. -/
def settle (c : Context) : Context := { c with pending := .empty }

theorem le_settle (c : Context) : c ≤ c.settle :=
  ⟨rfl, rfl, fun _ _ h => h, fun _ _ h => h, fun _ _ h => h⟩

theorem settle_le (c : Context) : c.settle ≤ c :=
  ⟨rfl, rfl, fun _ _ h => h, fun _ _ h => h, fun _ _ h => h⟩

/-- A query may be counted when what is pending is taken out. -/
theorem le_settle_counted (c : Context) (n : Nat) : c ≤ { c.settle with queryCount := n } :=
  ⟨rfl, rfl, fun _ _ h => h, fun _ _ h => h, fun _ _ h => h⟩

theorem settle_counted_le (c : Context) (n : Nat) : { c.settle with queryCount := n } ≤ c :=
  ⟨rfl, rfl, fun _ _ h => h, fun _ _ h => h, fun _ _ h => h⟩

theorem follows_settle {V : Set Entity} (hc : c.Ready) : c.Follows V c.settle where
  le := c.le_settle
  ready := ⟨hc.naming, hc.elements, hc.constants, hc.classes, hc.properties⟩
  domain := rfl
  within e he := .inl <| by
    cases e with
    | atomicClass iri => exact he
    | objectProperty iri => exact he
    | individual iri => trivial
  settled _ := ⟨rfl, rfl, rfl⟩

theorem settle_eq (h : c.pending.isBlank = true) : c.settle = c := by
  have hblank : c.pending = .empty := by
    cases hp : c.pending
    simp only [hp, Program.isBlank, Array.isEmpty_iff] at h
    rw [h]
    rfl
  rw [settle, ← hblank]

/-! ## Encodings in a context -/

/-- The atoms that activate some axioms. -/
def activations (ks : List Nat) : Set Atom := {f | ∃ k ∈ ks, f = activationAtom k}

end Context

/-- An axiom at its position in an ontology, with the rules that it brings. -/
structure EncodedAxiom where
  position : Nat
  content : Axiom
  rules : List Rule

namespace Context

/-- The rules of some axioms as a strategy wants them. -/
def rulesOf (strategy : Strategy) (items : List EncodedAxiom) : List Rule :=
  items.flatMap fun i => Grounding.tagged strategy i.position i.rules

/-- An encoding is made of the background rules of a context and of the rules of some axioms, which
enforce that these are respected. Declarations bring no rules. The axioms with tagged rules are
listed. -/
structure Encodes (c : Context) (e : Encoding) (items : List EncodedAxiom) : Prop where
  program : ∃ background, c.Background background ∧
    ∀ r, r ∈ e.program.rules ↔ r ∈ background ∨ r ∈ rulesOf c.strategy items
  enforces : ∀ i ∈ items, c.Enforces (fun I => I.Respects i.content) i.rules
  undeclared : ∀ i ∈ items, ∀ v, i.content = .declaration v → i.rules = []
  listed : e.activations = if c.strategy = .debug then
    (items.filter fun i => !i.rules.isEmpty).map fun i => (i.position, i.content) else []

/-- Background rules alone encode no axioms. -/
theorem Background.encodes {c : Context} {program : Program} (hb : c.Background program.rules) :
    c.Encodes ⟨program, []⟩ [] where
  program := ⟨program.rules, hb, fun r => by simp [rulesOf]⟩
  enforces := by simp
  undeclared := by simp
  listed := by simp

/-- A program is made of the background rules of a context and of rules that arrange switches and
enforce a sentence. -/
def Realizes (c : Context) (p : Program) (F : Set Atom) (φ : Sentence) : Prop :=
  ∃ background arranged, c.Background background ∧ c.Arranges F φ arranged ∧
    ∀ r, r ∈ p.rules ↔ r ∈ background ∨ r ∈ arranged

/-- Rules that the strategy may have tagged enforce the same where the axiom is active. -/
theorem Enforces.on_tagged {c : Context} {rules : List Rule} {φ : Sentence} (h : c.Enforces φ rules)
    (strategy : Strategy) {k : Nat} {F : Set Atom}
    (hk : strategy = .debug → rules ≠ [] → activationAtom k ∈ F) :
    c.EnforcesOn F φ (Grounding.tagged strategy k rules) := by
  unfold Grounding.tagged
  split
  · next hdebug =>
    by_cases hrules : rules = []
    · subst hrules
      exact h.on F
    · exact h.tagged (hk hdebug hrules)
  · exact h.on F

/-- The rules of some axioms enforce them where those with tagged rules are active. -/
theorem enforcesOn_rulesOf {c : Context} {items : List EncodedAxiom} {F : Set Atom}
    (h : ∀ i ∈ items, c.Enforces (fun I => I.Respects i.content) i.rules) (strategy : Strategy)
    (hF : strategy = .debug → ∀ i ∈ items, i.rules ≠ [] → activationAtom i.position ∈ F) :
    c.EnforcesOn F (fun I => ∀ i ∈ items, I.Respects i.content) (rulesOf strategy items) := by
  induction items with
  | nil => simpa [rulesOf] using Enforces.nil.on F
  | cons i items ih =>
    obtain ⟨hi, hitems⟩ := List.forall_mem_cons.1 h
    have hrest := ih hitems fun hdebug j hj => hF hdebug j (List.mem_cons_of_mem i hj)
    have hfirst := hi.on_tagged strategy fun hdebug => hF hdebug i List.mem_cons_self
    simpa only [List.forall_mem_cons, rulesOf, List.flatMap_cons] using hfirst.append hrest

theorem rules_withActive (e : Encoding) (active : List Nat) :
    (e.withActive active).rules =
      e.program.rules ++ active.map fun k => .fact (activationAtom k) := by
  unfold Encoding.withActive
  split
  · next hempty => rw [List.isEmpty_iff.1 hempty, List.map_nil, List.append_nil]
  · rw [Program.rules_pushAll, Program.rules_comment]

/-- The completed program of an encoding. -/
theorem Encodes.realizes {c : Context} (hc : c.Ready) {e : Encoding} {items : List EncodedAxiom}
    (h : c.Encodes e items) :
    c.Realizes e.complete (activations e.positions) fun I => ∀ i ∈ items, I.Respects i.content := by
  obtain ⟨⟨background, hb, hprogram⟩, henforces, hundeclared, hlisted⟩ := h
  have hrules := enforcesOn_rulesOf (F := activations e.positions) henforces c.strategy
    fun hdebug i hi hne => by
      refine ⟨i.position, ?_, rfl⟩
      rw [Encoding.positions, hlisted, if_pos hdebug, List.map_map]
      exact List.mem_map_of_mem (f := fun i : EncodedAxiom => i.position)
        (List.mem_filter.2 ⟨hi, by simpa using hne⟩)
  refine ⟨background, _, hb, hrules.arranges hc (fun _ => Iff.rfl), fun r => ?_⟩
  rw [Encoding.complete, rules_withActive, List.mem_append, hprogram, List.mem_append, or_assoc]

end Context

namespace Grounding

variable {V : Set Entity} {c : Context} {α β : Type}

/-- A step over a vocabulary `V` carries its context on, and what it returns meets a condition. It
fails only if an individual of the vocabulary is no element. -/
structure Yields (V : Set Entity) (m : Grounding α) (c : Context) (Q : Context → α → Prop) :
    Prop where
  follows : c.Follows V (m.exec c).2
  ok : ∀ a, (m.exec c).1 = .ok a → Q (m.exec c).2 a
  error : ∀ e, (m.exec c).1 = .error e →
    ∃ i : Individual, .individual i.iri ∈ V ∧ i ∉ c.domain.elements

theorem Yields.bind {m : Grounding α} {f : α → Grounding β} {P : Context → α → Prop}
    {Q : Context → β → Prop} (hm : Yields V m c P)
    (hf : ∀ a c', c.Follows V c' → P c' a → Yields V (f a) c' Q) : Yields V (m >>= f) c Q := by
  have hfollows := hm.follows
  rcases exec_bind_cases m f c with ⟨a, c', hrun, hexec⟩ | ⟨e, c', hrun, hexec⟩
  · rw [hrun] at hfollows
    have hfa := hf a c' hfollows (by simpa [hrun] using hm.ok a (by rw [hrun]))
    refine ⟨?_, ?_, fun e he => ?_⟩
    · rw [hexec]
      exact hfollows.trans hfa.follows
    · rw [hexec]
      exact hfa.ok
    · rw [hexec] at he
      rw [← hfollows.domain]
      exact hfa.error e he
  · rw [hrun] at hfollows
    refine ⟨?_, fun b hb => ?_, fun _ _ => hm.error e (by rw [hrun])⟩
    · rw [hexec]
      exact hfollows
    · rw [hexec] at hb
      cases hb

theorem Meets.yields {m : Grounding α} {Q : Context → α → Prop} (h : Meets V m c Q) :
    Yields V m c fun c' a => c.Grows V c' ∧ Q c' a :=
  ⟨h.grows.toFollows, fun a ha => ⟨h.grows, h.ok a ha⟩, h.error⟩

theorem Yields.pure {a : α} {Q : Context → α → Prop} (hc : c.Ready) (h : Q c a) :
    Yields V (pure a) c Q :=
  ⟨.refl hc, fun _ heq => by cases heq; exact h, fun _ heq => by cases heq⟩

theorem Yields.get {f : Context → Grounding α} {Q : Context → α → Prop} (h : Yields V (f c) c Q) :
    Yields V (MonadState.get >>= f) c Q := by
  have hexec : (MonadState.get >>= f : Grounding α).exec c = (f c).exec c := rfl
  exact ⟨hexec ▸ h.follows, hexec ▸ h.ok, hexec ▸ h.error⟩

/-- What is pending is put into a result. -/
theorem Yields.takePending {g : Program → α} {Q : Context → α → Prop} (hc : c.Ready)
    (h : Q c.settle (g c.pending)) : Yields V (do return g (← takePending)) c Q :=
  ⟨Context.follows_settle hc, fun _ heq => by cases heq; exact h, fun _ heq => by cases heq⟩

/-! ## Axioms in turn -/

theorem axiomRules_declaration_eq_nil {v : Entity} {rules : List Rule}
    (h : ((axiomRules (.declaration v)).exec c).1 = .ok rules) : rules = [] := by
  cases h
  rfl

/-- The encoding with the rules of one more axiom. -/
theorem groundAxiom_yields {e : Encoding} {items : List EncodedAxiom} {a : Axiom} (k : Nat)
    (ha : a.IsSupported) (hV : ∀ v ∈ entities a, v ∈ V) (hc : c.Ready)
    (hpending : c.pending.rules = []) (h : c.Encodes e items) :
    Yields V (groundAxiom e k a) c fun c' e' =>
      c'.pending.rules = [] ∧ ∃ rules, c'.Encodes e' (items ++ [⟨k, a, rules⟩]) := by
  obtain ⟨⟨background, hb, hprogram⟩, henforces, hundeclared, hlisted⟩ := h
  have hmeets : Meets V (axiomRules a) c fun c' rules =>
      c'.Enforces (fun I => I.Respects a) rules ∧ ∀ v, a = .declaration v → rules = [] := by
    obtain ⟨hgrows, hok, herror⟩ := axiomRules_meets ha hV hc
    exact ⟨hgrows, fun rules h => ⟨hok rules h, fun v hv => axiomRules_declaration_eq_nil (hv ▸ h)⟩,
      herror⟩
  refine hmeets.yields.bind fun rules c₁ hfollows ⟨hgrows, hrules, hdeclaration⟩ => .get ?_
  have hb₁ := hgrows.background background (by rwa [hpending, List.append_nil])
  have hstrategy := hgrows.le.strategy
  have hall : ∀ i ∈ items ++ [⟨k, a, rules⟩],
      c₁.Enforces (fun I => I.Respects i.content) i.rules := by
    refine List.forall_mem_append.2 ⟨fun i hi => (henforces i hi).mono hgrows.le, ?_⟩
    simpa using hrules
  have hnone : ∀ i ∈ items ++ [⟨k, a, rules⟩], ∀ v, i.content = .declaration v → i.rules = [] := by
    refine List.forall_mem_append.2 ⟨hundeclared, ?_⟩
    simpa using hdeclaration
  have hwritten : ∀ r, r ∈ Context.rulesOf c.strategy (items ++ [⟨k, a, rules⟩]) ↔
      r ∈ Context.rulesOf c.strategy items ∨ r ∈ tagged c.strategy k rules := by
    simp [Context.rulesOf]
  -- an axiom for which there is nothing to write leaves no trace
  split
  · next hblank =>
    obtain ⟨hempty, hblank⟩ := Bool.and_eq_true_iff.1 hblank
    have hsettled : c₁.pending.rules = [] := by
      rw [← Context.settle_eq hblank]
      rfl
    rw [hsettled, List.append_nil] at hb₁
    obtain rfl := List.isEmpty_iff.1 hempty
    refine .pure hgrows.ready ⟨hsettled, [], ⟨background, hb₁, fun r => ?_⟩, hall, hnone, ?_⟩
    · rw [hprogram, hstrategy, hwritten]
      simp [tagged]
    · simp [hlisted, hstrategy]
  · refine .takePending hgrows.ready ⟨rfl, rules, ⟨background ++ c₁.pending.rules,
      hb₁.of_le c₁.le_settle c₁.settle_le, fun r => ?_⟩,
      fun i hi => (hall i hi).mono c₁.le_settle, hnone, ?_⟩
    · have hsettle : c₁.settle.strategy = c.strategy := hstrategy
      rw [hsettle, hwritten]
      simp only [Program.rules_pushAll, Program.rules_append, Program.rules_comment,
        List.mem_append, hprogram, hstrategy]
      tauto
    · have hsettle : c₁.settle.strategy = c.strategy := hstrategy
      rw [hsettle, hlisted, hstrategy]
      by_cases hdebug : c.strategy = .debug <;> cases rules <;> simp [hdebug]

/-- The encoding with the rules of some more axioms. -/
theorem groundAxioms_yields {axioms : List Axiom} (ha : ∀ a ∈ axioms, a.IsSupported)
    (hV : ∀ a ∈ axioms, ∀ v ∈ entities a, v ∈ V) {e : Encoding} {items : List EncodedAxiom} {k : Nat}
    (hc : c.Ready) (hpending : c.pending.rules = []) (h : c.Encodes e items) :
    Yields V (groundAxioms e k axioms) c fun c' e' => c'.pending.rules = [] ∧
      ∃ more : List EncodedAxiom, more.map (fun i => (i.content, i.position)) = axioms.zipIdx k ∧
        c'.Encodes e' (items ++ more) := by
  induction axioms generalizing c e items k with
  | nil => exact .pure hc ⟨hpending, [], rfl, by simpa using h⟩
  | cons a rest ih =>
    obtain ⟨ha, hrest⟩ := List.forall_mem_cons.1 ha
    obtain ⟨hV, hVrest⟩ := List.forall_mem_cons.1 hV
    refine (groundAxiom_yields k ha hV hc hpending h).bind fun e₁ c₁ h₁ ⟨hpending₁, rules, he₁⟩ => ?_
    have hyields := ih hrest hVrest h₁.ready hpending₁ he₁ (k := k + 1)
    refine ⟨hyields.follows, fun e' he' => ?_, hyields.error⟩
    obtain ⟨hpending', more, hmore, hencodes⟩ := hyields.ok e' he'
    refine ⟨hpending', ⟨k, a, rules⟩ :: more, ?_, by simpa using hencodes⟩
    rw [List.map_cons, hmore, List.zipIdx_cons]

/-! ## Signatures -/

/-- Whether a signature has a class or an object property. Of individuals nothing is asked. -/
def HasName (s : Signature) : Entity → Prop
  | .atomicClass iri => iri ∈ s.classes
  | .objectProperty iri => iri ∈ s.objectProperties
  | .individual _ => True

/-- Gives every name of a signature a symbol; the answer is what this made pending. -/
def enterSignature (s : Signature) : Grounding Program := do
  let _ ← s.classes.toList.mapM classSymbol
  let _ ← s.objectProperties.toList.mapM propertySymbol
  return Program.empty.comment "totality" ++ (← takePending)

theorem groundOntology_eq (o : Ontology) :
    groundOntology o =
      enterSignature o.signature >>= fun program => groundAxioms ⟨program, []⟩ 0 o.axioms := by
  simp [groundOntology, enterSignature, bind_assoc]

section Signatures

variable {s : Signature} (hclasses : ∀ iri ∈ s.classes, .atomicClass iri ∈ V)
  (hproperties : ∀ iri ∈ s.objectProperties, .objectProperty iri ∈ V)

include hclasses hproperties

/-- Every name of the signature gets a symbol, and is made total. -/
theorem enterSignature_yields (hc : c.Ready) (hb : c.Background c.pending.rules) :
    Yields V (enterSignature s) c fun c' program =>
      c'.pending.rules = [] ∧ c'.Background program.rules ∧ ∀ v, HasName s v → c'.Knows v := by
  have hclassSymbols : Meets V (s.classes.toList.mapM classSymbol) c fun c' symbols =>
      List.Forall₂ (fun iri s => c'.classes.find? iri = some s) s.classes.toList symbols :=
    .mapM (χ := fun iri c s => c.classes.find? iri = some s) hc
      (fun iri s _ _ hgrows => hgrows.le.classes iri s)
      fun iri hiri c' hgrows => classSymbol_meets hgrows.ready (hclasses iri hiri)
  refine hclassSymbols.yields.bind fun _ c₁ _ ⟨h₁, hs₁⟩ => ?_
  have hpropertySymbols : Meets V (s.objectProperties.toList.mapM propertySymbol) c₁
      fun c' symbols => List.Forall₂ (fun iri s => c'.properties.find? iri = some s)
        s.objectProperties.toList symbols :=
    .mapM (χ := fun iri c s => c.properties.find? iri = some s) h₁.ready
      (fun iri s _ _ hgrows => hgrows.le.properties iri s)
      fun iri hiri c' hgrows => propertySymbol_meets hgrows.ready (hproperties iri hiri)
  refine hpropertySymbols.yields.bind fun _ c₂ _ ⟨h₂, hs₂⟩ => ?_
  refine .takePending h₂.ready ⟨rfl, ?_, fun v hv => ?_⟩
  · have hb₂ := h₂.background [] (h₁.background [] hb)
    rw [Program.rules_append, Program.rules_comment, Program.rules_empty]
    exact hb₂.of_le c₂.le_settle c₂.settle_le
  · apply Context.Knows.mono c₂.le_settle
    cases v with
    | atomicClass iri =>
      obtain ⟨symbol, -, hsymbol⟩ := exists_right_of_forall₂ hs₁ hv
      exact Option.ne_none_iff_exists'.2 ⟨symbol, h₂.le.classes iri symbol hsymbol⟩
    | objectProperty iri =>
      obtain ⟨symbol, -, hsymbol⟩ := exists_right_of_forall₂ hs₂ hv
      exact Option.ne_none_iff_exists'.2 ⟨symbol, hsymbol⟩
    | individual iri => trivial

end Signatures

/-! ## Strategies -/

/-- A step that looks neither at the domain, whose elements have constants, nor at the strategy. -/
def Ignores (m : Grounding α) : Prop :=
  ∀ (c : Context) (d : Domain) (t : Strategy),
    m.exec { c with domain := d, strategy := t } =
      ((m.exec c).1, { (m.exec c).2 with domain := d, strategy := t })

namespace Ignores

theorem pure (a : α) : Ignores (Pure.pure a) := fun _ _ _ => rfl

theorem bind {m : Grounding α} {f : α → Grounding β} (hm : Ignores m) (hf : ∀ a, Ignores (f a)) :
    Ignores (m >>= f) := by
  intro c d t
  rw [exec_bind, exec_bind, hm c d t]
  rcases m.exec c with ⟨_ | a, c'⟩
  · rfl
  · exact hf a c' d t

theorem mapM {f : α → Grounding β} (hf : ∀ a, Ignores (f a)) (items : List α) :
    Ignores (items.mapM f) := by
  induction items with
  | nil => exact pure []
  | cons x xs ih =>
    rw [List.mapM_cons]
    exact (hf x).bind fun y => ih.bind fun ys => pure (y :: ys)

theorem classSymbol (iri : Iri) : Ignores (classSymbol iri) := by
  intro c d t
  unfold Grounding.classSymbol
  rw [exec_bind, exec_bind]
  simp only [exec_get]
  cases c.classes.find? iri <;> rfl

theorem propertySymbol (iri : Iri) : Ignores (propertySymbol iri) := by
  intro c d t
  unfold Grounding.propertySymbol
  rw [exec_bind, exec_bind]
  simp only [exec_get]
  cases c.properties.find? iri <;> rfl

theorem enterSignature (s : Signature) : Ignores (enterSignature s) :=
  (mapM classSymbol _).bind fun _ => (mapM propertySymbol _).bind fun _ =>
    bind (m := takePending) (fun _ _ _ => rfl) fun _ => pure _

end Ignores

/-! ## Ontologies -/

/-- The encoding of an ontology with supported axioms. -/
theorem groundOntology_yields {o : Ontology} (ho : ∀ a ∈ o.axioms, a.IsSupported)
    (hclasses : ∀ iri ∈ o.signature.classes, .atomicClass iri ∈ V)
    (hproperties : ∀ iri ∈ o.signature.objectProperties, .objectProperty iri ∈ V)
    (hV : ∀ a ∈ o.axioms, ∀ v ∈ entities a, v ∈ V) (d : Domain)
    (scheme : NamingScheme) (strategy : Strategy) :
    Yields V (groundOntology o) (.new d scheme strategy) fun c' e =>
      c'.pending.rules = [] ∧ (∃ items : List EncodedAxiom,
        items.map (fun i => (i.content, i.position)) = o.axioms.zipIdx ∧ c'.Encodes e items) ∧
        ∀ v, HasName o.signature v → c'.Knows v := by
  rw [groundOntology_eq]
  have hready := Context.ready_new d scheme strategy
  refine (enterSignature_yields hclasses hproperties hready (Context.background_new d scheme
    strategy)).bind fun program c₁ h₁ ⟨hpending, hb, hknows⟩ => ?_
  have hyields := groundAxioms_yields ho hV h₁.ready hpending hb.encodes (k := 0)
  refine ⟨hyields.follows, fun e he => ?_, hyields.error⟩
  obtain ⟨hpending', items, hitems, hencodes⟩ := hyields.ok e he
  exact ⟨hpending', ⟨items, hitems, hencodes⟩, fun v hv => (hknows v hv).mono hyields.follows.le⟩

/-- Two contexts over the same elements with the same symbols, whatever their definitions. -/
structure SameSymbols (c c' : Context) : Prop where
  domain : c'.domain.elements = c.domain.elements
  elements : c'.elements = c.elements
  naming : c'.naming = c.naming
  classes : c'.classes = c.classes
  properties : c'.properties = c.properties

namespace SameSymbols

theorem symm {c c' : Context} (h : SameSymbols c c') : SameSymbols c' c :=
  ⟨h.domain.symm, h.elements.symm, h.naming.symm, h.classes.symm, h.properties.symm⟩

theorem trans {c c' c'' : Context} (h : SameSymbols c c') (h' : SameSymbols c' c'') :
    SameSymbols c c'' :=
  ⟨h'.domain.trans h.domain, h'.elements.trans h.elements, h'.naming.trans h.naming,
    h'.classes.trans h.classes, h'.properties.trans h.properties⟩

theorem states {c c' : Context} (h : SameSymbols c c') {a : Atom} {φ : Sentence}
    (ha : c.States a φ) : c'.States a φ := by
  cases ha with
  | member hs hx => exact .member (h.classes ▸ hs) (h.elements ▸ hx)
  | leads hs hx hy => exact .leads (h.properties ▸ hs) (h.elements ▸ hx) (h.elements ▸ hy)

theorem states_iff {c c' : Context} (h : SameSymbols c c') {a : Atom} {φ : Sentence} :
    c.States a φ ↔ c'.States a φ := ⟨h.states, h.symm.states⟩

end SameSymbols

/-- If the signature has all classes and properties of the axioms, the axioms add no symbol. -/
theorem sameSymbols_groundOntology {o : Ontology} (ho : ∀ a ∈ o.axioms, a.IsSupported)
    (hV : ∀ a ∈ o.axioms, ∀ v ∈ entities a, HasName o.signature v) (d : Domain)
    (scheme : NamingScheme) (strategy : Strategy) :
    SameSymbols ((enterSignature o.signature).exec (.new d scheme strategy)).2
      ((groundOntology o).exec (.new d scheme strategy)).2 := by
  have henter := enterSignature_yields (V := {v | HasName o.signature v})
    (fun iri hiri => hiri) (fun iri hiri => hiri) (Context.ready_new d scheme strategy)
    (Context.background_new d scheme strategy)
  rw [groundOntology_eq]
  rcases exec_bind_cases (enterSignature o.signature) (fun program =>
    groundAxioms ⟨program, []⟩ 0 o.axioms) (.new d scheme strategy) with
    ⟨program, c₁, hrun, hexec⟩ | ⟨e, c₁, hrun, hexec⟩
  · have hfollows := henter.follows
    have hok := henter.ok program (by rw [hrun])
    rw [hrun] at hfollows hok
    obtain ⟨hpending, hb, hknows⟩ := hok
    have hyields := groundAxioms_yields ho hV hfollows.ready hpending hb.encodes (k := 0)
    -- the axioms meet no name that has not been entered
    obtain ⟨hn, hc, hp⟩ := hyields.follows.settled hknows
    rw [hexec, hrun]
    exact ⟨congrArg _ hyields.follows.domain, hyields.follows.le.elements, hn, hc, hp⟩
  · rw [hexec, hrun]
    exact ⟨rfl, rfl, rfl, rfl, rfl⟩

/-- The contexts that two strategies leave for ontologies with the same classes and properties, over
domains with the same elements, differ in their definitions only. -/
theorem sameSymbols_of_signature_eq {o o' : Ontology} (ho : ∀ a ∈ o.axioms, a.IsSupported)
    (ho' : ∀ a ∈ o'.axioms, a.IsSupported)
    (hV : ∀ a ∈ o.axioms, ∀ v ∈ entities a, HasName o.signature v)
    (hV' : ∀ a ∈ o'.axioms, ∀ v ∈ entities a, HasName o'.signature v)
    (hclasses : o'.signature.classes = o.signature.classes)
    (hproperties : o'.signature.objectProperties = o.signature.objectProperties) {d d' : Domain}
    (hdomain : d'.elements = d.elements) (scheme : NamingScheme) (s t : Strategy) :
    SameSymbols ((groundOntology o).exec (.new d scheme s)).2
      ((groundOntology o').exec (.new d' scheme t)).2 := by
  have hs := sameSymbols_groundOntology ho hV d scheme s
  have ht := sameSymbols_groundOntology ho' hV' d' scheme t
  have hnew : Context.new d' scheme t = { Context.new d scheme s with domain := d', strategy := t } := by
    simp [Context.new, hdomain]
  have hsignature : enterSignature o'.signature = enterSignature o.signature := by
    simp [enterSignature, hclasses, hproperties]
  have henter : (enterSignature o.signature).exec (.new d' scheme t) = _ :=
    hnew ▸ Ignores.enterSignature o.signature (.new d scheme s) d' t
  have hstart : ((enterSignature o.signature).exec (.new d scheme s)).2.domain = d :=
    (enterSignature_yields (V := Set.univ) (fun _ _ => trivial) (fun _ _ => trivial)
      (Context.ready_new d scheme s) (Context.background_new d scheme s)).follows.domain
  rw [hsignature, henter] at ht
  exact hs.symm.trans ⟨by rw [ht.domain, hstart, hdomain], ht.elements, ht.naming, ht.classes,
    ht.properties⟩

/-- The contexts that two strategies leave differ in their definitions only. -/
theorem sameSymbols_strategies {o : Ontology} (ho : ∀ a ∈ o.axioms, a.IsSupported)
    (hV : ∀ a ∈ o.axioms, ∀ v ∈ entities a, HasName o.signature v) (d : Domain)
    (scheme : NamingScheme) (s t : Strategy) :
    SameSymbols ((groundOntology o).exec (.new d scheme s)).2
      ((groundOntology o).exec (.new d scheme t)).2 :=
  sameSymbols_of_signature_eq ho ho hV hV rfl rfl rfl scheme s t

/-- Axioms that are encoded in turn are supported. -/
theorem supported_of_groundAxioms {axioms : List Axiom} {e e' : Encoding} {k : Nat}
    (h : ((groundAxioms e k axioms).exec c).1 = .ok e') : ∀ a ∈ axioms, a.IsSupported := by
  induction axioms generalizing e k c with
  | nil => simp
  | cons a rest ih =>
    have hfirst : ∀ e c e₁ c₁, (groundAxiom e k a).exec c = (.ok e₁, c₁) → a.IsSupported := by
      intro e c e₁ c₁ hrun
      cases a with
      | unsupported keyword source => cases hrun
      | _ => trivial
    rcases exec_bind_cases (groundAxiom e k a) (fun e => groundAxioms e (k + 1) rest) c with
      ⟨e₁, c₁, hrun, hexec⟩ | ⟨err, c₁, hrun, hexec⟩
    · rw [groundAxioms, hexec] at h
      exact List.forall_mem_cons.2 ⟨hfirst e c e₁ c₁ hrun, ih h⟩
    · rw [groundAxioms, hexec] at h
      cases h

/-- Only ontologies with supported axioms are encoded. -/
theorem supported_of_groundOntology {o : Ontology} {e : Encoding}
    (h : ((groundOntology o).exec c).1 = .ok e) : ∀ a ∈ o.axioms, a.IsSupported := by
  rw [groundOntology_eq] at h
  rcases exec_bind_cases (enterSignature o.signature)
    (fun program => groundAxioms ⟨program, []⟩ 0 o.axioms) c with
    ⟨program, c₁, -, hexec⟩ | ⟨err, c₁, -, hexec⟩
  · rw [hexec] at h
    exact supported_of_groundAxioms h
  · rw [hexec] at h
    cases h

end Grounding

end FixedDomain
