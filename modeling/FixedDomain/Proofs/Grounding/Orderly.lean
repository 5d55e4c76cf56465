import FixedDomain.Proofs.Grounding.Calls

/-! # What calls write

* `Context.IsOrdinary` — the rules by which symbols are made total or auxiliary predicates are
  defined, and those of axioms.
* `Context.Indexed` — every symbol is that of a class, an object property or an element.
* `Context.Orderly` — the invariant of encoding: what is pending in a context makes symbols total or
  defines auxiliary predicates, and every symbol is in use.
* `Context.WritesOrdinary` — on the way from one context to another, ordinary rules have been
  written.
* `Call.Leaves` — a call writes ordinary rules, or those of a single new query.

A definition is over the context in which it has been entered, so a rule that derives an auxiliary
predicate mentions earlier ones only (`Context.IsOrdinary.exists_before`).
-/

namespace FixedDomain

/-- The atom of the n-th query. -/
def queryAtom (n : Nat) : Atom := .positive (queryName n) []

namespace Context

variable {c c' c'' : Context} {r : Rule} {a : Atom}

/-! ## Ordinary rules -/

/-- An atom of a class or of an object property, or the opposite of one. -/
def IsSymbolAtom (c : Context) (a : Atom) : Prop := ∃ b φ, c.States b φ ∧ (a = b ∨ a = b.complement)

theorem IsSymbolAtom.mono (hle : c ≤ c') (h : c.IsSymbolAtom a) : c'.IsSymbolAtom a := by
  obtain ⟨b, φ, hb, ha⟩ := h
  exact ⟨b, φ, hb.mono hle, ha⟩

theorem IsSymbolAtom.begins (hc : c.Ready) (h : c.IsSymbolAtom a) :
    NamingScheme.Begins a.predicate := by
  obtain ⟨b, φ, hb, rfl | rfl⟩ := h
  · exact hb.begins hc
  · -- an atom and its opposite have the same predicate
    show NamingScheme.Begins b.predicate
    exact hb.begins hc

theorem IsSymbolAtom.predicate_ne_auxName (hc : c.Ready) (h : c.IsSymbolAtom a) (k : Nat) :
    a.predicate ≠ auxName k := by
  intro heq
  have hbegins := h.begins hc
  rw [heq] at hbegins
  exact not_begins_auxName k hbegins

theorem IsSymbolAtom.predicate_ne_queryName (hc : c.Ready) (h : c.IsSymbolAtom a) (n : Nat) :
    a.predicate ≠ queryName n := by
  intro heq
  have hbegins := h.begins hc
  rw [heq] at hbegins
  exact (IsSwitch.query n).not_begins hbegins

theorem Names.predicate_ne_queryName (hc : c.Ready) (h : c.Names a) (n : Nat) :
    a.predicate ≠ queryName n := by
  cases h with
  | stated h => exact IsSymbolAtom.predicate_ne_queryName hc ⟨_, _, h, .inl rfl⟩ n
  | denied h => exact IsSymbolAtom.predicate_ne_queryName hc ⟨_, _, h, .inr rfl⟩ n
  | aux hd hx => exact fun heq => queryName_ne_auxName n _ heq.symm

/-- Where only the first definitions are there, only their predicates are. -/
theorem Names.of_before {k : Nat} (h : (c.before k).Names a) :
    c.IsSymbolAtom a ∨ ∃ j < k + 1, a.predicate = auxName j := by
  cases h with
  | stated h => exact .inl ⟨_, _, h.mono (before_le c k), .inl rfl⟩
  | denied h => exact .inl ⟨_, _, h.mono (before_le c k), .inr rfl⟩
  | @aux j d x hd hx =>
    have hj : j < k := by
      by_contra hj
      simp [before, hj] at hd
    exact .inr ⟨j + 1, by omega, rfl⟩

/-- A rule of an axiom derives symbol atoms, if any. Its body is over the predicates of the context,
but for an activation atom. -/
structure IsAxiomRule (c : Context) (r : Rule) : Prop where
  head : ∀ a ∈ r.head, c.IsSymbolAtom a
  body : ∀ l ∈ r.body, ∀ a ∈ l.atoms, c.Names a ∨ ∃ k, a = activationAtom k

/-- A background rule, or a rule of an axiom. -/
def IsOrdinary (c : Context) (r : Rule) : Prop := c.IsBackground r ∨ c.IsAxiomRule r

theorem IsOrdinary.mono (hle : c ≤ c') (h : c.IsOrdinary r) : c'.IsOrdinary r :=
  h.imp (.mono hle) fun h =>
    ⟨fun a ha => (h.head a ha).mono hle, fun l hl a ha => (h.body l hl a ha).imp_left (.mono hle)⟩

theorem IsBackground.cases (h : c.IsBackground r) :
    (∃ a, c.IsSymbolAtom a ∧ c.IsSymbolAtom a.complement ∧ r = .choice a) ∨
      ∃ k x body, r = .derive (Grounding.auxAtom (k + 1) x) body ∧
        ∀ l ∈ body, ∀ a ∈ l.atoms, (c.before k).Names a := by
  rcases h with ⟨a, φ, ha, rfl⟩ | ⟨k, x, bodies, ⟨d, -, -, hexpresses⟩, b, hb, rfl⟩
  · exact .inl ⟨a, ⟨a, φ, ha, .inl rfl⟩, ⟨a, φ, ha, .inr rfl⟩, rfl⟩
  · exact .inr ⟨k, x, b, rfl, hexpresses.named b hb⟩

/-- What derives an auxiliary predicate is over what was there before the predicate was. -/
theorem IsOrdinary.exists_before (hc : c.Ready) (h : c.IsOrdinary r) {k : Nat}
    (hk : r.derives (auxName k) = true) :
    ∃ j, k = j + 1 ∧ ∀ l ∈ r.body, ∀ a ∈ l.atoms, (c.before j).Names a := by
  rcases h with h | h
  · rcases h.cases with ⟨b, hb, hb', rfl⟩ | ⟨j, x, body, rfl, hbody⟩
    · obtain ⟨a, ha, hpredicate⟩ := List.any_eq_true.1 hk
      rcases List.mem_pair.1 ha with rfl | rfl
      · exact absurd (of_decide_eq_true hpredicate) (hb.predicate_ne_auxName hc k)
      · exact absurd (of_decide_eq_true hpredicate) (hb'.predicate_ne_auxName hc k)
    · obtain rfl : j + 1 = k := by
        simpa [Rule.derives, Rule.derive, Grounding.auxAtom, unaryAtom, Atom.positive,
          auxName_injective.eq_iff] using hk
      exact ⟨j, rfl, hbody⟩
  -- the rules of axioms derive no auxiliary atoms
  · obtain ⟨b, hb, hpredicate⟩ := List.any_eq_true.1 hk
    exact absurd (of_decide_eq_true hpredicate) ((h.head b hb).predicate_ne_auxName hc k)

/-! ## Symbols in use -/

/-- Every symbol is that of a class, of an object property or of an element of the context. -/
structure Indexed (c : Context) : Prop where
  classes : ∀ s iri, c.naming.entity? s = some (.atomicClass iri) → c.classes.find? iri = some s
  properties : ∀ s iri, c.naming.entity? s = some (.objectProperty iri) →
    c.properties.find? iri = some s
  elements : ∀ s iri, c.naming.entity? s = some (.individual iri) →
    ∃ x ∈ c.elements, x.constant = s ∧ x.individual.iri = iri

theorem mem_nameElements_of_entity? {n : Naming} (h : n.Proper) {is : List Individual} {s : String}
    {e : Entity} (hs : (nameElements n is).2.entity? s = some e) : n.entity? s = some e ∨
      ∃ x ∈ (nameElements n is).1, x.constant = s ∧ e = .individual x.individual.iri := by
  induction is generalizing n with
  | nil => exact .inl hs
  | cons i is ih =>
    rcases ih (Naming.symbol_spec h (.individual i.iri)).1 hs with hs | ⟨x, hx, hxs⟩
    · refine (Naming.entity?_symbol h hs).imp_right fun ⟨he, hsymbol⟩ => ?_
      exact ⟨⟨i, _⟩, List.mem_cons_self, hsymbol.symm, he⟩
    · exact .inr ⟨x, List.mem_cons_of_mem _ hx, hxs⟩

theorem indexed_new (d : Domain) (scheme : NamingScheme) (strategy : Strategy) :
    (new d scheme strategy).Indexed := by
  have hnew : ∀ s e, (new d scheme strategy).naming.entity? s = some e →
      ∃ x ∈ (new d scheme strategy).elements,
        x.constant = s ∧ e = .individual x.individual.iri := by
    intro s e hs
    rcases mem_nameElements_of_entity? (Naming.proper_empty scheme) hs with hs | hx
    · cases hs
    · exact hx
  refine ⟨fun s iri hs => ?_, fun s iri hs => ?_, fun s iri hs => ?_⟩
  · obtain ⟨x, -, -, he⟩ := hnew s _ hs
    cases he
  · obtain ⟨x, -, -, he⟩ := hnew s _ hs
    cases he
  · obtain ⟨x, hx, hxs, he⟩ := hnew s _ hs
    exact ⟨x, hx, hxs, (Entity.individual.inj he).symm⟩

/-- Where symbols have been given, those that have not been there must be in use. -/
theorem Indexed.extend (h : c.Indexed) (hle : c ≤ c')
    (hclasses : ∀ s iri, c'.naming.entity? s = some (.atomicClass iri) →
      c.naming.entity? s = some (.atomicClass iri) ∨ c'.classes.find? iri = some s)
    (hproperties : ∀ s iri, c'.naming.entity? s = some (.objectProperty iri) →
      c.naming.entity? s = some (.objectProperty iri) ∨ c'.properties.find? iri = some s)
    (hindividuals : ∀ s iri, c'.naming.entity? s = some (.individual iri) →
      c.naming.entity? s = some (.individual iri)) : c'.Indexed where
  classes s iri hs :=
    (hclasses s iri hs).elim (fun hs => hle.classes iri s (h.classes s iri hs)) id
  properties s iri hs :=
    (hproperties s iri hs).elim (fun hs => hle.properties iri s (h.properties s iri hs)) id
  elements s iri hs := hle.elements ▸ h.elements s iri (hindividuals s iri hs)

theorem Addition.indexed {P : ClassExpression → Prop} (h : Addition P c c') (hc : c.Ready)
    (hindexed : c.Indexed) : c'.Indexed := by
  have hle := h.le
  cases h with
  | @enterClass iri hnone =>
    refine hindexed.extend hle (fun s iri' hs => ?_) (fun s iri' hs => ?_) fun s iri' hs => ?_
    · rcases Naming.entity?_symbol hc.naming hs with hs | ⟨heq, rfl⟩
      · exact .inl hs
      · cases heq
        exact .inr (by simp)
    · exact .inl ((Naming.entity?_symbol hc.naming hs).resolve_right (by simp))
    · exact (Naming.entity?_symbol hc.naming hs).resolve_right (by simp)
  | @enterProperty iri hnone =>
    refine hindexed.extend hle (fun s iri' hs => ?_) (fun s iri' hs => ?_) fun s iri' hs => ?_
    · exact .inl ((Naming.entity?_symbol hc.naming hs).resolve_right (by simp))
    · rcases Naming.entity?_symbol hc.naming hs with hs | ⟨heq, rfl⟩
      · exact .inl hs
      · cases heq
        exact .inr (by simp)
    · exact (Naming.entity?_symbol hc.naming hs).resolve_right (by simp)
  | definition => exact ⟨hindexed.classes, hindexed.properties, hindexed.elements⟩

theorem Additions.indexed {P : ClassExpression → Prop} (h : Additions P c c') (hc : c.Ready)
    (hindexed : c.Indexed) : c'.Indexed := by
  induction h with
  | refl => exact hindexed
  | tail hadds hadd ih => exact hadd.indexed (Additions.ready hadds hc) ih

end Context

/-! ## Orderly contexts -/

namespace Grounding

variable {c c' : Context}

/-- The bodies that define an expression at each element express that it belongs there. -/
theorem definitionBodies_meets (d : ClassExpression) (hc : c.Ready) :
    Meets Set.univ (definitionBodies d) c fun c' entries =>
      List.Forall₂ (fun (x : Element) (entry : Element × List Body) => entry.1 = x ∧
        c'.Expresses (fun I => I.Member d x.individual) entry.2) c.elements entries := by
  refine .get (.mapM (χ := fun (x : Element) c' (entry : Element × List Body) => entry.1 = x ∧
    c'.Expresses (fun I => I.Member d x.individual) entry.2) hc ?_ fun x hx c₁ h₁ => ?_)
  · rintro x entry c₁ c₂ hgrows ⟨hfst, he⟩
    exact ⟨hfst, he.mono hgrows.le⟩
  · have hdefine := define_meets (V := Set.univ) (d := d) (fun _ _ => trivial)
      (fun e _ _ => readable_of_vocabulary e fun _ _ => trivial) h₁.ready (h₁.le.elements ▸ hx)
    exact hdefine.map fun bodies c₂ h₂ hb => ⟨rfl, hb⟩

end Grounding

namespace Context

variable {c c' c'' : Context} {P : ClassExpression → Prop} {rules others : List Rule}

theorem Addition.grows (h : Addition P c c') (hc : c.Ready) : c.Grows Set.univ c' := by
  cases h with
  | enterClass h => exact .withClass hc (Set.mem_univ _) h
  | enterProperty h => exact .withProperty hc (Set.mem_univ _) h
  | @definition d bodies hP hnew hbodies =>
    have hforall := (Grounding.definitionBodies_meets d hc).ok bodies (by rw [hbodies])
    rw [hbodies] at hforall
    exact .withDefinition hc hforall

/-- Whatever is added to a context, its rules become pending. -/
theorem Additions.grows (h : Additions P c c') (hc : c.Ready) : c.Grows Set.univ c' := by
  induction h with
  | refl => exact .refl hc
  | tail _ hadd ih => exact ih.trans (hadd.grows ih.ready)

theorem Additions.queryCount_eq (h : Additions P c c') : c'.queryCount = c.queryCount := by
  induction h with
  | refl => rfl
  | tail _ hadd ih =>
    rw [← ih]
    cases hadd <;> rfl

/-- With what has been written before, the pending rules of a context are all its background
rules. All symbols are in use. -/
structure Orderly (c : Context) : Prop where
  ready : c.Ready
  indexed : c.Indexed
  background : ∃ written, c.Background (written ++ c.pending.rules)

theorem orderly_new (d : Domain) (scheme : NamingScheme) (strategy : Strategy) :
    (new d scheme strategy).Orderly :=
  ⟨ready_new d scheme strategy, indexed_new d scheme strategy, [],
    background_new d scheme strategy⟩

theorem Orderly.isBackground {r : Rule} (h : c.Orderly) (hr : r ∈ c.pending.rules) :
    c.IsBackground r := by
  obtain ⟨written, hb⟩ := h.background
  exact hb.only r (List.mem_append_right _ hr)

/-- Taking out what is pending keeps a context orderly, and so does counting a query. -/
theorem Orderly.settle (h : c.Orderly) (n : Nat) :
    Orderly { c.settle with queryCount := n } := by
  obtain ⟨written, hb⟩ := h.background
  have hready := h.ready
  refine ⟨⟨hready.naming, hready.elements, hready.constants, hready.classes, hready.properties⟩,
    ⟨h.indexed.classes, h.indexed.properties, h.indexed.elements⟩, written ++ c.pending.rules, ?_⟩
  have hnone : ({ c.settle with queryCount := n } : Context).pending.rules = [] := rfl
  rw [hnone, List.append_nil]
  exact hb.of_le (c.le_settle_counted n) (c.settle_counted_le n)

/-! ## Writing ordinary rules -/

/-- From a context an orderly one has been reached. What has been written on the way are ordinary
rules, and no query has been asked. -/
structure WritesOrdinary (c c' : Context) (rules : List Rule) : Prop where
  orderly : c'.Orderly
  le : c ≤ c'
  queryCount : c'.queryCount = c.queryCount
  ordinary : ∀ r ∈ rules, c'.IsOrdinary r

theorem WritesOrdinary.trans (h : c.WritesOrdinary c' rules) (h' : c'.WritesOrdinary c'' others) :
    c.WritesOrdinary c'' (rules ++ others) where
  orderly := h'.orderly
  le := le_trans h.le h'.le
  queryCount := h'.queryCount.trans h.queryCount
  ordinary := List.forall_mem_append.2 ⟨fun r hr => (h.ordinary r hr).mono h'.le, h'.ordinary⟩

theorem Orderly.additions (h : c.Orderly) (hadd : Additions P c c') : c.WritesOrdinary c' [] where
  orderly := by
    obtain ⟨written, hb⟩ := h.background
    have hgrows := hadd.grows h.ready
    exact ⟨hgrows.ready, hadd.indexed h.ready h.indexed, written, hgrows.background written hb⟩
  le := hadd.le
  queryCount := hadd.queryCount_eq
  ordinary := nofun

/-- What is pending is written in front of the rules of an axiom. -/
theorem Orderly.writesOrdinary_settle (h : c.Orderly) (hothers : ∀ r ∈ others, c.IsAxiomRule r) :
    c.WritesOrdinary c.settle (c.pending.rules ++ others) where
  orderly := h.settle c.queryCount
  le := c.le_settle
  queryCount := rfl
  ordinary := List.forall_mem_append.2
    ⟨fun _ hr => .mono c.le_settle (.inl (h.isBackground hr)),
      fun r hr => .mono c.le_settle (.inr (hothers r hr))⟩

end Context

namespace Grounding

variable {c c' : Context}

theorem isAxiomRule_axiomRules (hc : c.Ready) {a : Axiom} {rules : List Rule}
    (h : (axiomRules a).exec c = (.ok rules, c')) : ∀ r ∈ rules, c'.IsAxiomRule r := by
  have ha : a.IsSupported := by
    cases a with
    | unsupported keyword source => cases h
    | _ => trivial
  have henforces :=
    (axiomRules_meets (V := Set.univ) ha (fun _ _ => trivial) hc).ok rules (by rw [h])
  rw [h] at henforces
  refine fun r hr => ⟨fun b hb => ?_, fun l hl b hb => .inl (henforces.named r hr l hl b hb)⟩
  rcases henforces.heads r hr with hhead | ⟨b', φ, hb', hhead | hhead⟩
  · simp [hhead] at hb
  · exact ⟨b', φ, hb', .inl (by simpa [hhead] using hb)⟩
  · exact ⟨b', φ, hb', .inr (by simpa [hhead] using hb)⟩

theorem isAxiomRule_tagged {rules : List Rule} (h : ∀ r ∈ rules, c.IsAxiomRule r)
    (strategy : Strategy) (k : Nat) : ∀ r ∈ tagged strategy k rules, c.IsAxiomRule r := by
  unfold tagged
  split
  · refine List.forall_mem_map.2 fun r hr => ⟨(h r hr).head, fun l hl a ha => ?_⟩
    rcases List.mem_append.1 hl with hl | hl
    · exact (h r hr).body l hl a ha
    · rw [List.mem_singleton.1 hl, Literal.atoms, List.mem_singleton] at ha
      exact .inr ⟨k, ha⟩
  · exact h

/-- The encoding of axioms adds ordinary rules to what has been written, be it that it fails. -/
theorem groundAxioms_writesOrdinary (axioms : List Axiom) (e : Encoding) (k : Nat)
    (hc : c.Orderly) :
    ∃ rules, (writtenFrom e k axioms c).rules = e.program.rules ++ rules ∧
      c.WritesOrdinary ((groundAxioms e k axioms).exec c).2 rules := by
  induction axioms generalizing c e k with
  | nil => exact ⟨[], by simp [writtenFrom], hc.additions (P := fun _ => True) .refl⟩
  | cons a rest ih =>
    have hadded := hc.additions ((axiomRules_repeatable (fun _ => trivial) a).additions c)
    rcases hrun : (axiomRules a).exec c with ⟨error | rules, c'⟩ <;> rw [hrun] at hadded
    · have hexec := exec_groundAxiom_of_error hrun e k
      refine ⟨[], ?_, ?_⟩
      · rw [writtenFrom, hexec, List.append_nil]
      · rw [groundAxioms, exec_bind, hexec]
        exact hadded
    · obtain ⟨e', hexec, hrules⟩ := exec_groundAxiom_of_ok hrun e k
      have hsettled := hadded.trans (hadded.orderly.writesOrdinary_settle
        (isAxiomRule_tagged (isAxiomRule_axiomRules hc.ready hrun) c'.strategy k))
      obtain ⟨more, hmore, hwrites⟩ := ih e' (k + 1) hsettled.orderly
      refine ⟨c'.pending.rules ++ tagged c'.strategy k rules ++ more, ?_, ?_⟩
      · rw [writtenFrom, hexec]
        simp only [hmore, hrules, List.append_assoc]
      · rw [groundAxioms, exec_bind, hexec]
        simpa only [List.nil_append, List.append_assoc] using hsettled.trans hwrites

theorem groundOntology_writesOrdinary (hc : c.Orderly) (o : Ontology) :
    c.WritesOrdinary ((groundOntology o).exec c).2 (written o c).rules := by
  obtain ⟨program, c', hadditions, hexec, hrules⟩ := exec_enterSignature o.signature c
  have hadded := hc.additions (hadditions fun _ => True)
  have hsettled := hadded.trans (hadded.orderly.writesOrdinary_settle (List.forall_mem_nil _))
  obtain ⟨more, hmore, hwrites⟩ := groundAxioms_writesOrdinary o.axioms ⟨program, []⟩ 0
    hsettled.orderly
  rw [groundOntology_eq, exec_bind, hexec, written, hexec]
  simpa [hmore, hrules] using hsettled.trans hwrites

end Grounding

/-! ## Queries -/

namespace Context

variable {c c' : Context} {n : Nat}

/-- From a context an orderly one has been reached by asking a query. Behind ordinary rules its atom
is derived from bodies over the predicates of the context, and demanded. -/
structure WritesQuery (c c' : Context) (rules : List Rule) : Prop where
  orderly : c'.Orderly
  le : c ≤ c'
  queryCount : c'.queryCount = c.queryCount + 1
  written : ∃ (ordinary : List Rule) (bodies : List Body),
    rules = ordinary ++ (bodies.map (.derive (queryAtom (c.queryCount + 1))) ++
      [.constraint [.not (queryAtom (c.queryCount + 1))]]) ∧
    (∀ r ∈ ordinary, c'.IsOrdinary r) ∧ ∀ b ∈ bodies, ∀ l ∈ b, ∀ a ∈ l.atoms, c'.Names a

/-- A rule of the n-th query: it derives the atom of the query, or demands it. -/
def IsQueryRule (c : Context) (n : Nat) (r : Rule) : Prop :=
  (∃ body, r = .derive (queryAtom n) body ∧ ∀ l ∈ body, ∀ a ∈ l.atoms, c.Names a) ∨
    r = .constraint [.not (queryAtom n)]

theorem IsQueryRule.mono {r : Rule} (hle : c ≤ c') (h : c.IsQueryRule n r) :
    c'.IsQueryRule n r := by
  refine h.imp_left fun ⟨body, heq, hbody⟩ => ⟨body, heq, fun l hl a ha => ?_⟩
  exact (hbody l hl a ha).mono hle

theorem IsQueryRule.derives_auxName {r : Rule} (h : c.IsQueryRule n r) (k : Nat) :
    r.derives (auxName k) = false := by
  rcases h with ⟨body, rfl, -⟩ | rfl
  · simp [Rule.derives, Rule.derive, queryAtom, Atom.positive, queryName_ne_auxName]
  · simp [Rule.derives, Rule.constraint]

end Context

namespace Grounding

variable {c c' : Context}

/-- A query that fails writes nothing. -/
theorem negatedQuery_writes (hc : c.Orderly) (a : Axiom) :
    (∃ e c', (negatedQuery a).exec c = (.error e, c') ∧ c.WritesOrdinary c' []) ∨
      ∃ program c', (negatedQuery a).exec c = (.ok program, c') ∧
        c.WritesQuery c' program.rules := by
  have hadded := hc.additions ((witnesses_repeatable (fun _ => trivial) a).additions c)
  rcases hrun : (witnesses a).exec c with ⟨e | bodies, c₁⟩ <;> rw [hrun] at hadded
  · refine .inl ⟨e, c₁, ?_, hadded⟩
    rw [negatedQuery, exec_bind, hrun]
  · obtain ⟨program, hok, hrules⟩ := exec_negatedQuery hrun
    let next : Context := { c₁.settle with queryCount := c₁.queryCount + 1 }
    have hcount : c₁.queryCount = c.queryCount := hadded.queryCount
    have hnext : ((negatedQuery a).exec c).2 = next := by
      rw [negatedQuery, exec_bind, hrun]
      rfl
    have hle : c₁ ≤ next := c₁.le_settle_counted _
    have ha : a.IsSupported := by
      cases a with
      | unsupported keyword source => cases hrun
      | _ => trivial
    have hexpresses := (witnesses_meets (V := Set.univ) ha (fun _ _ => trivial) hc.ready).ok bodies
      (by rw [hrun])
    rw [hrun] at hexpresses
    refine .inr ⟨program, next, Prod.ext hok hnext, hadded.orderly.settle _,
      Context.le_trans hadded.le hle, ?_, c₁.pending.rules, bodies, ?_, fun r hr => ?_,
      fun b hb l hl a ha => (hexpresses.named b hb l hl a ha).mono hle⟩
    · show c₁.queryCount + 1 = c.queryCount + 1
      rw [hcount]
    · rw [hrules, ← hcount, List.append_assoc]
      rfl
    · exact .mono hle (.inl (hadded.orderly.isBackground hr))

end Grounding

/-! ## Calls -/

namespace Call

open Context (WritesOrdinary WritesQuery)

variable {c c' : Context} {calls : List Call}

/-- The rules that a call has written, in vain or not. -/
def Outcome.rules (o : Outcome) : List Rule := o.kept ++ o.lost.rules

/-- A call leaves behind ordinary rules, or it is for a query and leaves behind its rules. -/
inductive Leaves (call : Call) (c c' : Context) (o : Outcome) : Prop
  | ordinary (h : c.WritesOrdinary c' o.rules)
  | query {a : Axiom} (hcall : call = .query a) (hlost : o.lost = .empty)
    (h : c.WritesQuery c' o.kept)

theorem run_leaves (call : Call) (hc : c.Orderly) :
    call.Leaves c (call.run c).2 (call.run c).1 := by
  cases call with
  | ontology o =>
    have hwrites := Grounding.groundOntology_writesOrdinary hc o
    rcases hrun : (Grounding.groundOntology o).exec c with ⟨e | e, c'⟩
    · rw [hrun] at hwrites
      apply Leaves.ordinary
      simpa only [run, exec_encode_ontology_of_error hrun, Outcome.rules, Outcome.kept,
        List.nil_append] using hwrites
    · rw [hrun, Grounding.written_of_ok hrun] at hwrites
      apply Leaves.ordinary
      simpa only [run, exec_encode_ontology_of_ok hrun, Outcome.rules, Outcome.kept,
        Program.rules_empty, List.append_nil] using hwrites
  | query a =>
    rcases Grounding.negatedQuery_writes hc a with ⟨e, c', hrun, hwrites⟩ |
      ⟨program, c', hrun, hwrites⟩
    · have hencode : (query a).encode.exec c = (.error e, c') := hrun
      apply Leaves.ordinary
      simpa only [run, hencode, Outcome.rules, Outcome.kept, Program.rules_empty,
        List.append_nil] using hwrites
    · have hencode : (query a).encode.exec c = (.ok program, c') := hrun
      simp only [run, hencode]
      exact .query rfl rfl hwrites

theorem Leaves.orderly {call : Call} {o : Outcome} (h : call.Leaves c c' o) : c'.Orderly := by
  cases h with
  | ordinary h => exact h.orderly
  | query _ _ h => exact h.orderly

theorem Leaves.le {call : Call} {o : Outcome} (h : call.Leaves c c' o) : c ≤ c' := by
  cases h with
  | ordinary h => exact h.le
  | query _ _ h => exact h.le

/-- All rules of a call are ordinary, or those of a query. -/
theorem Leaves.rule_cases {call : Call} {o : Outcome} (h : call.Leaves c c' o) {r : Rule}
    (hr : r ∈ o.rules) : c'.IsOrdinary r ∨ ∃ n, c'.IsQueryRule n r := by
  cases h with
  | ordinary h => exact .inl (h.ordinary r hr)
  | query hcall hlost h =>
    obtain ⟨ordinary, bodies, hkept, hordinary, hbodies⟩ := h.written
    rw [Outcome.rules, hlost, Program.rules_empty, List.append_nil, hkept] at hr
    rcases List.mem_append.1 hr with hr | hr
    · exact .inl (hordinary r hr)
    · rcases List.mem_append.1 hr with hr | hr
      · obtain ⟨b, hb, rfl⟩ := List.mem_map.1 hr
        exact .inr ⟨_, .inl ⟨b, rfl, hbodies b hb⟩⟩
      · exact .inr ⟨_, .inr (List.mem_singleton.1 hr)⟩

theorem runAll_orderly (calls : List Call) (hc : c.Orderly) : (runAll calls c).2.Orderly := by
  induction calls generalizing c with
  | nil => exact hc
  | cons call calls ih => exact ih (call.run_leaves hc).orderly

/-- Contexts only grow from call to call. -/
theorem le_runAll (calls : List Call) (hc : c.Orderly) : c ≤ (runAll calls c).2 := by
  induction calls generalizing c with
  | nil => exact c.le_refl
  | cons call calls ih =>
    have hleaves := call.run_leaves hc
    exact Context.le_trans hleaves.le (ih hleaves.orderly)

theorem runAll_append (before after : List Call) (c : Context) :
    (runAll (before ++ after) c).2 = (runAll after (runAll before c).2).2 := by
  induction before generalizing c with
  | nil => rfl
  | cons call before ih => exact ih _

theorem runAll_rule_cases (hc : c.Orderly) {o : Outcome} (ho : o ∈ (runAll calls c).1) {r : Rule}
    (hr : r ∈ o.rules) :
    (runAll calls c).2.IsOrdinary r ∨ ∃ n, (runAll calls c).2.IsQueryRule n r := by
  induction calls generalizing c with
  | nil => cases ho
  | cons call calls ih =>
    have hleaves := call.run_leaves hc
    rcases List.mem_cons.1 ho with rfl | ho
    · have hle := le_runAll calls hleaves.orderly
      rcases hleaves.rule_cases hr with h | ⟨n, h⟩
      · exact .inl (h.mono hle)
      · exact .inr ⟨n, h.mono hle⟩
    · exact ih hleaves.orderly ho

/-- All that is returned, lost or pending in the course of calls are ordinary rules, or those of
queries. -/
theorem emitted_rule_cases {P : ClassExpression → Prop} (hc : c.Orderly)
    (hadd : Context.Additions P (runAll calls c).2 c') {r : Rule}
    (hr : r ∈ (runAll calls c).1.flatMap Outcome.rules ++ c'.pending.rules) :
    c'.IsOrdinary r ∨ ∃ n, c'.IsQueryRule n r := by
  rcases List.mem_append.1 hr with hr | hr
  · obtain ⟨o, ho, hr⟩ := List.mem_flatMap.1 hr
    exact (runAll_rule_cases hc ho hr).imp (.mono hadd.le) fun ⟨n, h⟩ => ⟨n, h.mono hadd.le⟩
  · exact .inl (.inl (((runAll_orderly calls hc).additions hadd).orderly.isBackground hr))

end Call

end FixedDomain
