import FixedDomain.Proofs.Grounding.Additions
import FixedDomain.Proofs.Grounding.Ontology
import FixedDomain.Proofs.Grounding.Query

/-! # Rules that are emitted once

Of the rules by which symbols are made total and auxiliary predicates are defined each is needed once.

* `Context.EmitsOnce` — some rules have all of these for a context, each of them once.
* `Context.Emitting` — the invariant of encoding: what a context has emitted so far and what it keeps
  pending have all of these rules once.

Whatever is added to a context becomes pending (`Emitting.additions`); what is pending is taken out of it
when rules are written, which the encodings of axioms (`groundAxioms_emitting`), of ontologies
(`groundOntology_emitting`) and of queries (`negatedQuery_emitting`) do only after their last addition.
-/

namespace FixedDomain

/-- Whether a rule derives an atom with a predicate. -/
def Rule.derives (r : Rule) (predicate : String) : Bool := r.head.any (·.predicate = predicate)

namespace Context

/-! ## Rules for a context -/

/-- Among some rules each one that makes a symbol total occurs once, and the rules that derive an
auxiliary predicate are those that its expression would get now. No expression has two predicates. -/
structure EmitsOnce (c : Context) (rules : List Rule) : Prop where
  distinct : c.definitions.Nodup
  classes : ∀ iri s, c.classes.find? iri = some s → ∀ x ∈ c.elements,
    rules.filter (·.head = (Rule.choice (unaryAtom s x)).head) = [.choice (unaryAtom s x)]
  properties : ∀ iri s, c.properties.find? iri = some s → ∀ x ∈ c.elements, ∀ y ∈ c.elements,
    rules.filter (·.head = (Rule.choice (binaryAtom s x y)).head) = [.choice (binaryAtom s x y)]
  definitions : ∀ (k : Nat) d, c.definitions[k]? = some d →
    ∃ bodies, (Grounding.definitionBodies d).exec c = (.ok bodies, c) ∧
      rules.filter (·.derives (auxName (k + 1))) = Grounding.definitionRules (k + 1) bodies

/-- The atoms that rules over the symbols and definitions of a context derive. -/
inductive Derivable (c : Context) : Atom → Prop
  | stated {a : Atom} {φ : Sentence} (h : c.States a φ) : Derivable c a
  | denied {a : Atom} {φ : Sentence} (h : c.States a φ) : Derivable c a.complement
  | aux {k : Nat} (hk : k < c.definitions.length) (x : Element) :
    Derivable c (Grounding.auxAtom (k + 1) x)
  | query (k : Nat) : Derivable c (.positive (queryName k) [])

/-- A rule of an axiom or of a query: it derives at most one atom of the context, and no auxiliary
one. -/
def IsForeground (c : Context) (r : Rule) : Prop :=
  r.head = [] ∨ ∃ a, r.head = [a] ∧ c.Derivable a ∧ ∀ k, a.predicate ≠ auxName k

/-- Some rules have all rules for the symbols and definitions of a context, each of them once, and
derive only atoms of the context. -/
structure Emitted (c : Context) (rules : List Rule) : Prop where
  distinct : c.definitions.Nodup
  total : ∀ a φ, c.States a φ → rules.filter (·.head = (Rule.choice a).head) = [.choice a]
  defined : ∀ (k : Nat) d, c.definitions[k]? = some d →
    ∃ bodies, (Grounding.definitionBodies d).exec c = (.ok bodies, c) ∧
      rules.filter (·.derives (auxName (k + 1))) = Grounding.definitionRules (k + 1) bodies
  derivable : ∀ r ∈ rules, ∀ a ∈ r.head, c.Derivable a

variable {c c' : Context} {rules others : List Rule} {a : Atom} {φ : Sentence}

theorem Emitted.emitsOnce (h : c.Emitted rules) : c.EmitsOnce rules where
  distinct := h.distinct
  classes _ _ hs _ hx := h.total _ _ (.member hs hx)
  properties _ _ hs _ hx _ hy := h.total _ _ (.leads hs hx hy)
  definitions := h.defined

theorem queryName_ne_auxName (j k : Nat) : queryName j ≠ auxName k := by
  intro h
  have hlist := congrArg String.toList h
  simp [queryName, auxName] at hlist

theorem Derivable.mono (h : c.Derivable a) (hle : c ≤ c') : c'.Derivable a := by
  cases h with
  | stated h => exact .stated (h.mono hle)
  | denied h => exact .denied (h.mono hle)
  | aux hk x =>
    have hget := hle.definitions _ _ (List.getElem?_eq_getElem hk)
    exact .aux (List.getElem?_eq_some_iff.1 hget).1 x
  | query k => exact .query k

/-- Positive atoms over symbols are derivable only if they state something. -/
theorem Derivable.states (h : c.Derivable a) (hbegins : NamingScheme.Begins a.predicate)
    (hpositive : a.negated = false) : ∃ φ, c.States a φ := by
  cases h with
  | stated h => exact ⟨_, h⟩
  | denied h => simp [Atom.complement, h.negated] at hpositive
  | aux hk x => exact absurd hbegins (not_begins_auxName _)
  | query k => exact absurd hbegins (IsSwitch.query k).not_begins

/-- Only those auxiliary predicates are derivable that are there. -/
theorem Derivable.lt_of_predicate_eq (h : c.Derivable a) (hc : c.Ready) {k : Nat}
    (hk : a.predicate = auxName (k + 1)) : k < c.definitions.length := by
  cases h with
  | stated h => exact absurd (hk ▸ h.begins hc) (not_begins_auxName _)
  | denied h => exact absurd (hk ▸ h.begins hc) (not_begins_auxName _)
  | aux hlt x =>
    have heq := auxName_injective hk
    omega
  | query j => exact absurd hk (queryName_ne_auxName j _)

theorem definitionBodies_again {d : ClassExpression} {bodies : List (Element × List Body)}
    (h : (Grounding.definitionBodies d).exec c = (.ok bodies, c)) (hle : c ≤ c') :
    (Grounding.definitionBodies d).exec c' = (.ok bodies, c') :=
  (Grounding.definitionBodies_repeatable fun e _ =>
    Grounding.repeats_of_forall (P := fun _ => True) (fun _ => trivial) e).again h hle

theorem definitions_eq (hle : c ≤ c') (hge : c' ≤ c) : c'.definitions = c.definitions := by
  refine List.ext_getElem? fun k => Option.ext fun d => ?_
  exact ⟨hge.definitions k d, hle.definitions k d⟩

/-- Only symbols and definitions matter. -/
theorem Emitted.of_le (h : c.Emitted rules) (hle : c ≤ c') (hge : c' ≤ c) : c'.Emitted rules where
  distinct := definitions_eq hle hge ▸ h.distinct
  total a φ ha := h.total a φ (ha.mono hge)
  defined k d hd := by
    obtain ⟨bodies, hbodies, hrules⟩ := h.defined k d (hge.definitions k d hd)
    exact ⟨bodies, definitionBodies_again hbodies hle, hrules⟩
  derivable r hr a ha := (h.derivable r hr a ha).mono hle

/-! ## What is added -/

theorem filter_choices {atoms : List Atom} (hnodup : atoms.Nodup) (ha : a ∈ atoms) :
    (atoms.map Rule.choice).filter (·.head = (Rule.choice a).head) = [.choice a] := by
  have hheads : ∀ b, (Rule.choice b).head = (Rule.choice a).head ↔ b = a := by
    intro b
    simp +contextual [Rule.choice]
  have hfilter : atoms.filter (fun b => decide (b = a)) = [a] := by
    rw [List.filter_eq a, List.count_eq_one_of_mem hnodup ha, List.replicate_one]
  simp only [List.filter_map, Function.comp_def, hheads, hfilter, List.map_cons, List.map_nil]

theorem Emitted.append (h : c.Emitted rules) (hothers : ∀ r ∈ others, c.IsForeground r) :
    c.Emitted (rules ++ others) where
  distinct := h.distinct
  total a φ ha := by
    have hnone : others.filter (·.head = (Rule.choice a).head) = [] := by
      refine List.filter_eq_nil_iff.2 fun r hr => ?_
      rcases hothers r hr with hhead | ⟨b, hhead, -⟩ <;> simp [hhead, Rule.choice]
    rw [List.filter_append, h.total a φ ha, hnone, List.append_nil]
  defined k d hd := by
    obtain ⟨bodies, hbodies, hrules⟩ := h.defined k d hd
    have hnone : others.filter (·.derives (auxName (k + 1))) = [] := by
      refine List.filter_eq_nil_iff.2 fun r hr => ?_
      rcases hothers r hr with hhead | ⟨b, hhead, -, hb⟩
      · simp [Rule.derives, hhead]
      · simp [Rule.derives, hhead, hb (k + 1)]
    exact ⟨bodies, hbodies, by rw [List.filter_append, hrules, hnone, List.append_nil]⟩
  derivable r hr a ha := by
    rcases List.mem_append.1 hr with hr | hr
    · exact h.derivable r hr a ha
    · rcases hothers r hr with hhead | ⟨b, hhead, hb, -⟩
      · simp [hhead] at ha
      · rw [hhead, List.mem_singleton] at ha
        exact ha ▸ hb

/-- What the symbol of an atom stands for. -/
theorem States.exists_entity (ha : c.States a φ) (hc : c.Ready) :
    ∃ e, c.naming.entity? a.predicate = some e ∧ c.Knows e := by
  cases ha with
  | member hs hx => exact ⟨_, hc.classes _ _ hs, by simp [Knows, hs]⟩
  | leads hs hx hy => exact ⟨_, hc.properties _ _ hs, by simp [Knows, hs]⟩

/-- An entity without a symbol has got one, and the atoms over it have been made total. -/
theorem Emitted.enter (h : c.Emitted rules) (hc : c.Ready) (hc' : c'.Ready) (hle : c ≤ c')
    (hdefinitions : c'.definitions = c.definitions) {e : Entity} (hunknown : ¬ c.Knows e)
    (hkept : ∀ s e, c.naming.entity? s = some e → c'.naming.entity? s = some e) {atoms : List Atom}
    (hnodup : atoms.Nodup) (hsymbol : ∀ a ∈ atoms, c'.naming.entity? a.predicate = some e)
    (hstates : ∀ a φ, c'.States a φ → c.States a φ ∨ a ∈ atoms)
    (hatoms : ∀ a ∈ atoms, ∃ φ, c'.States a φ) : c'.Emitted (rules ++ atoms.map .choice) := by
  have hnew : ∀ a φ, c.States a φ → a ∉ atoms := by
    intro a φ ha hmem
    obtain ⟨e', he', hknown⟩ := ha.exists_entity hc
    have heq := hkept _ _ he'
    rw [hsymbol a hmem] at heq
    exact hunknown (Option.some.inj heq ▸ hknown)
  refine ⟨hdefinitions ▸ h.distinct, fun a φ ha => ?_, fun k d hd => ?_, fun r hr a ha => ?_⟩
  · rw [List.filter_append]
    rcases hstates a φ ha with hold | hmem
    · have hnone : (atoms.map Rule.choice).filter (·.head = (Rule.choice a).head) = [] := by
        refine List.filter_eq_nil_iff.2 fun r hr => ?_
        obtain ⟨b, hb, rfl⟩ := List.mem_map.1 hr
        have hne : b ≠ a := fun heq => hnew a φ hold (heq ▸ hb)
        simp [Rule.choice, hne]
      rw [h.total a φ hold, hnone, List.append_nil]
    -- no rule has been about the new symbol
    · have hnone : rules.filter (·.head = (Rule.choice a).head) = [] := by
        refine List.filter_eq_nil_iff.2 fun r hr hhead => ?_
        have hmemhead : a ∈ r.head := by
          rw [of_decide_eq_true hhead]
          exact List.mem_cons_self
        obtain ⟨ψ, hψ⟩ := (h.derivable r hr a hmemhead).states (ha.begins hc') ha.negated
        exact hnew a ψ hψ hmem
      rw [hnone, filter_choices hnodup hmem, List.nil_append]
  · obtain ⟨bodies, hbodies, hrules⟩ := h.defined k d (hdefinitions ▸ hd)
    have hnone : (atoms.map Rule.choice).filter (·.derives (auxName (k + 1))) = [] := by
      refine List.filter_eq_nil_iff.2 fun r hr => ?_
      obtain ⟨b, hb, rfl⟩ := List.mem_map.1 hr
      obtain ⟨ψ, hψ⟩ := hatoms b hb
      have hne : b.predicate ≠ auxName (k + 1) := fun heq =>
        not_begins_auxName _ (heq ▸ hψ.begins hc')
      simp [Rule.derives, Rule.choice, Atom.complement, hne]
    exact ⟨bodies, definitionBodies_again hbodies hle, by
      rw [List.filter_append, hrules, hnone, List.append_nil]⟩
  · rcases List.mem_append.1 hr with hr | hr
    · exact (h.derivable r hr a ha).mono hle
    · obtain ⟨b, hb, rfl⟩ := List.mem_map.1 hr
      obtain ⟨ψ, hψ⟩ := hatoms b hb
      rcases List.mem_pair.1 ha with rfl | rfl
      · exact .stated hψ
      · exact .denied hψ

theorem nodup_unaryAtoms (hc : c.Ready) (s : String) : (c.elements.map (unaryAtom s)).Nodup := by
  refine (List.nodup_map_iff_inj_on hc.nodup_elements).2 fun x hx y hy heq => ?_
  exact hc.eq_of_constant_eq hx hy (List.singleton_injective (congrArg Atom.arguments heq))

theorem nodup_binaryAtoms (hc : c.Ready) (s : String) :
    (c.elements.flatMap fun x => c.elements.map fun y => binaryAtom s x y).Nodup := by
  have hinj : ∀ x ∈ c.elements, ∀ y ∈ c.elements, ∀ x' ∈ c.elements, ∀ y' ∈ c.elements,
      binaryAtom s x y = binaryAtom s x' y' → x = x' ∧ y = y' := by
    intro x hx y hy x' hx' y' hy' heq
    obtain ⟨hxx, hyy⟩ := List.cons.inj (congrArg Atom.arguments heq)
    exact ⟨hc.eq_of_constant_eq hx hx' hxx,
      hc.eq_of_constant_eq hy hy' (List.singleton_injective hyy)⟩
  refine List.nodup_flatMap.2 ⟨fun x hx => ?_, hc.nodup_elements.pairwise_of_forall_ne ?_⟩
  · refine (List.nodup_map_iff_inj_on hc.nodup_elements).2 fun y hy y' hy' heq => ?_
    exact (hinj x hx y hy x hx y' hy' heq).2
  · intro x hx x' hx' hne a ha ha'
    obtain ⟨y, hy, rfl⟩ := List.mem_map.1 ha
    obtain ⟨y', hy', heq⟩ := List.mem_map.1 ha'
    exact hne (hinj x' hx' y' hy' x hx y hy heq).1.symm

theorem exists_head_of_mem_definitionRules {k : Nat} {bodies : List (Element × List Body)} {r : Rule}
    (hr : r ∈ Grounding.definitionRules k bodies) : ∃ x, r.head = [Grounding.auxAtom k x] := by
  obtain ⟨⟨x, alternatives⟩, -, hr⟩ := List.mem_flatMap.1 hr
  obtain ⟨b, -, rfl⟩ := List.mem_map.1 hr
  exact ⟨x, rfl⟩

theorem filter_definitionRules (j k : Nat) (bodies : List (Element × List Body)) :
    (Grounding.definitionRules j bodies).filter (·.derives (auxName k)) =
      if j = k then Grounding.definitionRules j bodies else [] := by
  have hderives : ∀ r ∈ Grounding.definitionRules j bodies, r.derives (auxName k) = decide (j = k) := by
    intro r hr
    obtain ⟨x, hhead⟩ := exists_head_of_mem_definitionRules hr
    simp [Rule.derives, hhead, Grounding.auxAtom, unaryAtom, Atom.positive, auxName_injective.eq_iff]
  rw [List.filter_congr hderives]
  split
  · next heq => simp [heq]
  · next hne => simp [hne]

theorem Emitted.withClass (h : c.Emitted rules) (hc : c.Ready) {iri : Iri}
    (hnone : c.classes.find? iri = none) : (c.withClass iri).Emitted
      (rules ++ classTotality c.elements (c.naming.symbol (.atomicClass iri)).1) := by
  have hadd : Addition (fun _ => True) c (c.withClass iri) := .enterClass hnone
  have hfind : (c.withClass iri).classes.find? iri =
      some (c.naming.symbol (.atomicClass iri)).1 := by simp
  have hatoms : classTotality c.elements (c.naming.symbol (.atomicClass iri)).1 =
      (c.elements.map (unaryAtom (c.naming.symbol (.atomicClass iri)).1)).map .choice := by
    rw [List.map_map]
    rfl
  rw [hatoms]
  refine h.enter hc (hadd.ready hc) hadd.le rfl (e := .atomicClass iri) (by simp [Knows, hnone])
    (fun s e => (Naming.symbol_spec hc.naming _).2.2 e s) (nodup_unaryAtoms hc _)
    (List.forall_mem_map.2 fun x _ => (hadd.ready hc).classes iri _ hfind) (fun a φ ha => ?_)
    (List.forall_mem_map.2 fun x hx => ⟨_, .member hfind hx⟩)
  rcases ha.of_withClass with hold | ⟨x, hx, rfl⟩
  · exact .inl hold
  · exact .inr (List.mem_map_of_mem hx)

theorem Emitted.withProperty (h : c.Emitted rules) (hc : c.Ready) {iri : Iri}
    (hnone : c.properties.find? iri = none) : (c.withProperty iri).Emitted
      (rules ++ propertyTotality c.elements (c.naming.symbol (.objectProperty iri)).1) := by
  have hadd : Addition (fun _ => True) c (c.withProperty iri) := .enterProperty hnone
  have hfind : (c.withProperty iri).properties.find? iri =
      some (c.naming.symbol (.objectProperty iri)).1 := by simp
  have hatoms : propertyTotality c.elements (c.naming.symbol (.objectProperty iri)).1 =
      (c.elements.flatMap fun x => c.elements.map fun y =>
        binaryAtom (c.naming.symbol (.objectProperty iri)).1 x y).map .choice := by
    rw [List.map_flatMap]
    simp only [List.map_map]
    rfl
  have hmem : ∀ a, a ∈ (c.elements.flatMap fun x => c.elements.map fun y =>
      binaryAtom (c.naming.symbol (.objectProperty iri)).1 x y) ↔ ∃ x ∈ c.elements,
        ∃ y ∈ c.elements, binaryAtom (c.naming.symbol (.objectProperty iri)).1 x y = a := by
    simp
  rw [hatoms]
  refine h.enter hc (hadd.ready hc) hadd.le rfl (e := .objectProperty iri) (by simp [Knows, hnone])
    (fun s e => (Naming.symbol_spec hc.naming _).2.2 e s) (nodup_binaryAtoms hc _)
    (fun a ha => ?_) (fun a φ ha => ?_) fun a ha => ?_
  · obtain ⟨x, hx, y, hy, rfl⟩ := (hmem a).1 ha
    exact (hadd.ready hc).properties iri _ hfind
  · rcases ha.of_withProperty with hold | ⟨x, hx, y, hy, rfl⟩
    · exact .inl hold
    · exact .inr ((hmem _).2 ⟨x, hx, y, hy, rfl⟩)
  · obtain ⟨x, hx, y, hy, rfl⟩ := (hmem a).1 ha
    exact ⟨_, .leads hfind hx hy⟩

theorem Emitted.withDefinition (h : c.Emitted rules) (hc : c.Ready) {d : ClassExpression}
    {bodies : List (Element × List Body)} (hnew : d ∉ c.definitions)
    (hbodies : (Grounding.definitionBodies d).exec c = (.ok bodies, c)) :
    (c.withDefinition d bodies).Emitted
      (rules ++ Grounding.definitionRules (c.auxCount + 1) bodies) := by
  have hadd : Addition (fun _ => True) c (c.withDefinition d bodies) :=
    .definition trivial hnew hbodies
  refine ⟨?_, fun a φ ha => ?_, fun k e hk => ?_, fun r hr a ha => ?_⟩
  · exact h.distinct.append (List.nodup_singleton d) (List.disjoint_singleton.2 hnew)
  · have hnone : (Grounding.definitionRules (c.auxCount + 1) bodies).filter
        (·.head = (Rule.choice a).head) = [] := by
      refine List.filter_eq_nil_iff.2 fun r hr => ?_
      obtain ⟨x, hhead⟩ := exists_head_of_mem_definitionRules hr
      simp [hhead, Rule.choice]
    rw [List.filter_append, h.total a φ ha.of_withDefinition, hnone, List.append_nil]
  · rw [List.filter_append, filter_definitionRules]
    rcases Nat.lt_succ_iff_lt_or_eq.1 (by simpa [Context.withDefinition] using
      (List.getElem?_eq_some_iff.1 hk).1) with hlt | rfl
    · have hold : c.definitions[k]? = some e := (List.getElem?_append_left hlt).symm.trans hk
      obtain ⟨bodies', hbodies', hrules⟩ := h.defined k e hold
      have hne : c.auxCount + 1 ≠ k + 1 := by
        rw [auxCount]
        omega
      rw [if_neg hne, List.append_nil]
      exact ⟨bodies', definitionBodies_again hbodies' hadd.le, hrules⟩
    -- the new predicate has not been derived before
    · obtain rfl : d = e := by simpa [Context.withDefinition] using hk
      have hnone : rules.filter (·.derives (auxName (c.definitions.length + 1))) = [] := by
        refine List.filter_eq_nil_iff.2 fun r hr hderives => ?_
        obtain ⟨a, ha, hpredicate⟩ := List.any_eq_true.1 hderives
        exact Nat.lt_irrefl _
          ((h.derivable r hr a ha).lt_of_predicate_eq hc (of_decide_eq_true hpredicate))
      rw [hnone, List.nil_append, auxCount, if_pos rfl]
      exact ⟨bodies, definitionBodies_again hbodies hadd.le, rfl⟩
  · rcases List.mem_append.1 hr with hr | hr
    · exact (h.derivable r hr a ha).mono hadd.le
    · obtain ⟨x, hhead⟩ := exists_head_of_mem_definitionRules hr
      rw [hhead, List.mem_singleton] at ha
      subst ha
      exact .aux (by simp [Context.withDefinition, auxCount]) x

/-! ## Emitting contexts -/

/-- A context over a domain has emitted some rules. With those that are pending they have all rules for
its symbols and definitions once. -/
structure Emitting (d : Domain) (emitted : List Rule) (c : Context) : Prop where
  ready : c.Ready
  domain : c.domain = d
  emitted : c.Emitted (emitted ++ c.pending.rules)

variable {d : Domain} {emitted : List Rule}

theorem Emitting.addition {P : ClassExpression → Prop} (h : c.Emitting d emitted)
    (hadd : Addition P c c') : c'.Emitting d emitted := by
  refine ⟨hadd.ready h.ready, ?_, ?_⟩
  · cases hadd <;> exact h.domain
  · cases hadd with
    | @enterClass iri hnone =>
      rw [rules_withClass, ← List.append_assoc]
      exact h.emitted.withClass h.ready hnone
    | @enterProperty iri hnone =>
      rw [rules_withProperty, ← List.append_assoc]
      exact h.emitted.withProperty h.ready hnone
    | @definition d bodies hP hnew hbodies =>
      rw [rules_withDefinition, ← List.append_assoc]
      exact h.emitted.withDefinition h.ready hnew hbodies

/-- What is added to a context becomes pending. -/
theorem Emitting.additions {P : ClassExpression → Prop} (h : c.Emitting d emitted)
    (hadd : Additions P c c') : c'.Emitting d emitted := by
  induction hadd with
  | refl => exact h
  | tail _ hadd ih => exact ih.addition hadd

/-- What is pending is taken out of the context, and written in front of other rules. -/
theorem Emitting.settle (h : c.Emitting d emitted) {others : List Rule}
    (hothers : ∀ r ∈ others, c.IsForeground r) :
    c.settle.Emitting d (emitted ++ c.pending.rules ++ others) := by
  refine ⟨(follows_settle (V := Set.univ) h.ready).ready, h.domain, ?_⟩
  have hnone : c.settle.pending.rules = [] := rfl
  rw [hnone, List.append_nil]
  exact (h.emitted.append hothers).of_le c.le_settle c.settle_le

theorem emitting_new (d : Domain) (scheme : NamingScheme) (strategy : Strategy) :
    (new d scheme strategy).Emitting d [] where
  ready := ready_new d scheme strategy
  domain := rfl
  emitted :=
    { distinct := .nil
      total := fun a φ ha =>
        absurd ((background_new d scheme strategy).total a φ ha) List.not_mem_nil
      defined := fun _ _ hd => nomatch hd
      derivable := fun _ hr => absurd hr List.not_mem_nil }

end Context

namespace Grounding

variable {c c' : Context} {d : Domain} {emitted : List Rule}

/-! ## Axioms in turn -/

theorem isForeground_axiomRules (hc : c.Ready) {a : Axiom} {rules : List Rule}
    (h : (axiomRules a).exec c = (.ok rules, c')) : ∀ r ∈ rules, c'.IsForeground r := by
  have ha : a.IsSupported := by
    cases a with
    | unsupported keyword source => cases h
    | _ => trivial
  have hmeets := axiomRules_meets (V := Set.univ) ha (fun _ _ => trivial) hc
  have hready := hmeets.grows.ready
  have henforces := hmeets.ok rules (by rw [h])
  rw [h] at hready henforces
  intro r hr
  refine (henforces.heads r hr).imp_right ?_
  rintro ⟨b, φ, hb, hhead⟩
  have hne : ∀ k, b.predicate ≠ auxName k := fun k heq =>
    not_begins_auxName k (heq ▸ hb.begins hready)
  rcases hhead with hhead | hhead
  · exact ⟨b, hhead, .stated hb, hne⟩
  · exact ⟨b.complement, hhead, .denied hb, hne⟩

theorem isForeground_tagged {rules : List Rule} (h : ∀ r ∈ rules, c.IsForeground r)
    (strategy : Strategy) (k : Nat) : ∀ r ∈ tagged strategy k rules, c.IsForeground r := by
  unfold tagged
  split
  · exact List.forall_mem_map.2 h
  · exact h

/-- The rules of an axiom are written behind what has become pending. -/
theorem exec_groundAxiom_of_ok {a : Axiom} {rules : List Rule}
    (h : (axiomRules a).exec c = (.ok rules, c')) (e : Encoding) (k : Nat) :
    ∃ e', (groundAxiom e k a).exec c = (.ok e', c'.settle) ∧
      e'.program.rules = e.program.rules ++ c'.pending.rules ++ tagged c'.strategy k rules := by
  rw [groundAxiom, exec_bind, h]
  simp only [exec_bind, exec_get]
  split
  · next hblank =>
    obtain ⟨hempty, hblank⟩ := Bool.and_eq_true_iff.1 hblank
    obtain rfl := List.isEmpty_iff.1 hempty
    have hsettled := Context.settle_eq hblank
    have hnone : c'.pending.rules = [] := by
      rw [← hsettled]
      rfl
    refine ⟨e, ?_, by simp [hnone, tagged]⟩
    rw [hsettled]
    rfl
  · refine ⟨_, rfl, ?_⟩
    simp only [Program.rules_pushAll, Program.rules_append, Program.rules_comment]

theorem exec_groundAxiom_of_error {a : Axiom} {error : ReasonerError}
    (h : (axiomRules a).exec c = (.error error, c')) (e : Encoding) (k : Nat) :
    (groundAxiom e k a).exec c = (.error error, c') := by
  rw [groundAxiom, exec_bind, h]

/-- What has been written when the encoding of some axioms ends, be it with a failure. -/
def writtenFrom (e : Encoding) (k : Nat) (axioms : List Axiom) (c : Context) : Program :=
  match axioms with
  | [] => e.program
  | a :: rest =>
    match (groundAxiom e k a).exec c with
    | (.ok e', c') => writtenFrom e' (k + 1) rest c'
    | (.error _, _) => e.program

theorem groundAxioms_emitting {axioms : List Axiom} {e : Encoding} {k : Nat}
    (h : c.Emitting d (emitted ++ e.program.rules)) :
    ((groundAxioms e k axioms).exec c).2.Emitting d
      (emitted ++ (writtenFrom e k axioms c).rules) := by
  induction axioms generalizing c e k with
  | nil => exact h
  | cons a rest ih =>
    have hadded := h.additions ((axiomRules_repeatable (fun _ => trivial) a).additions c)
    rcases hrun : (axiomRules a).exec c with ⟨error | rules, c'⟩
    · rw [hrun] at hadded
      have hexec := exec_groundAxiom_of_error hrun e k
      rw [groundAxioms, exec_bind, hexec, writtenFrom, hexec]
      exact hadded
    · rw [hrun] at hadded
      obtain ⟨e', hexec, hrules⟩ := exec_groundAxiom_of_ok hrun e k
      rw [groundAxioms, exec_bind, hexec, writtenFrom, hexec]
      have hforeground := isForeground_tagged (isForeground_axiomRules h.ready hrun) c'.strategy k
      apply ih
      simpa only [hrules, List.append_assoc] using hadded.settle hforeground

theorem writtenFrom_of_ok {axioms : List Axiom} {e e' : Encoding} {k : Nat}
    (h : (groundAxioms e k axioms).exec c = (.ok e', c')) :
    writtenFrom e k axioms c = e'.program := by
  induction axioms generalizing c e k with
  | nil =>
    cases h
    rfl
  | cons a rest ih =>
    rcases exec_bind_cases (groundAxiom e k a) (fun e => groundAxioms e (k + 1) rest) c with
      ⟨e₁, c₁, hrun, hexec⟩ | ⟨error, c₁, hrun, hexec⟩
    · rw [groundAxioms, hexec] at h
      rw [writtenFrom, hrun]
      exact ih h
    · rw [groundAxioms, hexec] at h
      cases h

theorem writtenFrom_of_error {axioms : List Axiom} {e : Encoding} {k : Nat} {error : ReasonerError}
    (h : (groundAxioms e k axioms).exec c = (.error error, c')) :
    ∃ before a after e' c₁, axioms = before ++ a :: after ∧
      (groundAxioms e k before).exec c = (.ok e', c₁) ∧ writtenFrom e k axioms c = e'.program := by
  induction axioms generalizing c e k with
  | nil => cases h
  | cons a rest ih =>
    rcases exec_bind_cases (groundAxiom e k a) (fun e => groundAxioms e (k + 1) rest) c with
      ⟨e₁, c₁, hrun, hexec⟩ | ⟨error₁, c₁, hrun, hexec⟩
    · rw [groundAxioms, hexec] at h
      obtain ⟨before, b, after, e', c₂, rfl, hbefore, hwritten⟩ := ih h
      refine ⟨a :: before, b, after, e', c₂, rfl, ?_, ?_⟩
      · rw [groundAxioms, exec_bind, hrun]
        exact hbefore
      · rw [writtenFrom, hrun]
        exact hwritten
    · refine ⟨[], a, rest, e, c, rfl, rfl, ?_⟩
      rw [writtenFrom, hrun]

/-! ## Ontologies -/

theorem exists_exec_mapM {α β : Type} {f : α → Grounding β}
    (hf : ∀ x c, ∃ y c', (f x).exec c = (.ok y, c')) (items : List α) (c : Context) :
    ∃ ys c', (items.mapM f).exec c = (.ok ys, c') := by
  induction items generalizing c with
  | nil => exact ⟨[], c, rfl⟩
  | cons x xs ih =>
    obtain ⟨y, c₁, hrun⟩ := hf x c
    obtain ⟨ys, c₂, hrest⟩ := ih c₁
    refine ⟨y :: ys, c₂, ?_⟩
    simp only [List.mapM_cons, exec_bind, hrun, hrest]
    rfl

/-- Entering a signature never fails; all that it adds is written. -/
theorem exec_enterSignature (s : Signature) (c : Context) :
    ∃ program c', (∀ P, Context.Additions P c c') ∧
      (enterSignature s).exec c = (.ok program, c'.settle) ∧ program.rules = c'.pending.rules := by
  have hclass : ∀ iri c, ∃ symbol c', (classSymbol iri).exec c = (.ok symbol, c') := by
    intro iri c
    cases hf : c.classes.find? iri with
    | some symbol => exact ⟨_, _, exec_classSymbol_of_eq_some hf⟩
    | none => exact ⟨_, _, exec_classSymbol_of_eq_none hf⟩
  have hproperty : ∀ iri c, ∃ symbol c', (propertySymbol iri).exec c = (.ok symbol, c') := by
    intro iri c
    cases hf : c.properties.find? iri with
    | some symbol => exact ⟨_, _, exec_propertySymbol_of_eq_some hf⟩
    | none => exact ⟨_, _, exec_propertySymbol_of_eq_none hf⟩
  obtain ⟨classes, c₁, hrun₁⟩ := exists_exec_mapM hclass s.classes.toList c
  obtain ⟨properties, c₂, hrun₂⟩ := exists_exec_mapM hproperty s.objectProperties.toList c₁
  have hadd : ∀ P, Context.Additions P c c₂ := by
    intro P
    have hadd₁ := (Repeatable.mapM (P := P) classSymbol_repeatable s.classes.toList).additions c
    have hadd₂ := (Repeatable.mapM (P := P) propertySymbol_repeatable
      s.objectProperties.toList).additions c₁
    rw [hrun₁] at hadd₁
    rw [hrun₂] at hadd₂
    exact hadd₁.trans hadd₂
  refine ⟨Program.empty.comment "totality" ++ c₂.pending, c₂, hadd, ?_, ?_⟩
  · simp only [enterSignature, exec_bind, hrun₁, hrun₂]
    rfl
  · rw [Program.rules_append, Program.rules_comment, Program.rules_empty, List.nil_append]

/-- What has been written when the encoding of an ontology ends, be it with a failure. -/
def written (o : Ontology) (c : Context) : Program :=
  match (enterSignature o.signature).exec c with
  | (.ok program, c') => writtenFrom ⟨program, []⟩ 0 o.axioms c'
  | (.error _, _) => .empty

theorem groundOntology_emitting (h : c.Emitting d emitted) (o : Ontology) :
    ((groundOntology o).exec c).2.Emitting d (emitted ++ (written o c).rules) := by
  obtain ⟨program, c', hadditions, hexec, hrules⟩ := exec_enterSignature o.signature c
  rw [groundOntology_eq, exec_bind, hexec, written, hexec]
  apply groundAxioms_emitting
  simpa [hrules] using (h.additions (hadditions fun _ => True)).settle (List.forall_mem_nil _)

theorem written_of_ok {o : Ontology} {e : Encoding}
    (h : (groundOntology o).exec c = (.ok e, c')) : written o c = e.program := by
  obtain ⟨program, c₁, -, hexec, -⟩ := exec_enterSignature o.signature c
  rw [groundOntology_eq, exec_bind, hexec] at h
  rw [written, hexec]
  exact writtenFrom_of_ok h

/-- After a failure the program of the axioms before the failing one has been written. -/
theorem written_of_error {o : Ontology} {error : ReasonerError}
    (h : (groundOntology o).exec c = (.error error, c')) :
    ∃ before a after e c₁, o.axioms = before ++ a :: after ∧
      (groundOntology { o with axioms := before }).exec c = (.ok e, c₁) ∧
        written o c = e.program := by
  obtain ⟨program, c₁, -, hexec, -⟩ := exec_enterSignature o.signature c
  rw [groundOntology_eq, exec_bind, hexec] at h
  obtain ⟨before, a, after, e, c₂, heq, hbefore, hwritten⟩ := writtenFrom_of_error h
  refine ⟨before, a, after, e, c₂, heq, ?_, ?_⟩
  · rw [groundOntology_eq, exec_bind, hexec]
    exact hbefore
  · rw [written, hexec]
    exact hwritten

/-! ## Queries -/

/-- A query that fails writes nothing; one that succeeds writes what is pending. -/
theorem negatedQuery_emitting (h : c.Emitting d emitted) (a : Axiom) :
    (∃ e c', (negatedQuery a).exec c = (.error e, c') ∧ c'.Emitting d emitted) ∨
      ∃ program c', (negatedQuery a).exec c = (.ok program, c') ∧
        c'.Emitting d (emitted ++ program.rules) := by
  have hadded := h.additions ((witnesses_repeatable (fun _ => trivial) a).additions c)
  rcases hrun : (witnesses a).exec c with ⟨e | bodies, c₁⟩
  · rw [hrun] at hadded
    refine .inl ⟨e, c₁, ?_, hadded⟩
    rw [negatedQuery, exec_bind, hrun]
  · rw [hrun] at hadded
    obtain ⟨program, hok, hrules⟩ := exec_negatedQuery hrun
    let next : Context := { c₁.settle with queryCount := c₁.queryCount + 1 }
    have hnext : ((negatedQuery a).exec c).2 = next := by
      rw [negatedQuery, exec_bind, hrun]
      rfl
    have hforeground : ∀ r ∈ bodies.map (Rule.derive (nextQuery c₁)) ++
        [Rule.constraint [.not (nextQuery c₁)]], c₁.IsForeground r := by
      refine List.forall_mem_append.2 ⟨List.forall_mem_map.2 fun body _ => .inr ?_, ?_⟩
      · exact ⟨_, rfl, .query _, fun k => Context.queryName_ne_auxName _ k⟩
      · exact List.forall_mem_singleton.2 (.inl rfl)
    obtain ⟨hready, hdomain, hemitted⟩ := hadded.settle hforeground
    refine .inr ⟨program, next, Prod.ext hok hnext,
      ⟨hready.naming, hready.elements, hready.constants, hready.classes, hready.properties⟩,
      hdomain, ?_⟩
    -- the number of queries is neither a symbol nor a definition
    have hle : c₁.settle ≤ next := ⟨rfl, rfl, fun _ _ h => h, fun _ _ h => h, fun _ _ h => h⟩
    have hge : next ≤ c₁.settle := ⟨rfl, rfl, fun _ _ h => h, fun _ _ h => h, fun _ _ h => h⟩
    rw [hrules]
    simpa only [List.append_assoc] using hemitted.of_le hle hge

end Grounding

end FixedDomain
