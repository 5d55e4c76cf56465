import FixedDomain.Proofs.Grounding.Lines

/-! # Programs are written line by line

* `Grounding.groundOntology_prints`, `Grounding.negatedQuery_prints` — the two kinds of programs.
* `Call.IsAccepted` — calls for what documents describe.

No text from a document gets onto a line of its own (`Call.runAll_lineByLine`). What is kept as source
text may have line breaks, but an axiom of this kind fails before anything is written of it
(`Grounding.groundAxiom_prints`).
-/

namespace FixedDomain

open FunctionalSyntax

namespace Grounding

/-! ## Queries -/

theorem linedBody_both {a b : Option Body} (ha : ∀ body ∈ a, LinedBody body)
    (hb : ∀ body ∈ b, LinedBody body) : ∀ body ∈ both a b, LinedBody body := by
  unfold both
  split
  · next first second => exact List.forall_mem_singleton.2 ((ha first rfl).append (hb second rfl))
  · exact List.forall_mem_nil _

section Witnesses

variable {c d : ClassExpression} (hc : NamedOnOneLine c.vocabulary) (hd : NamedOnOneLine d.vocabulary)
  {cs : List ClassExpression} (hcs : ∀ c ∈ cs, NamedOnOneLine c.vocabulary)

include hc hd in
theorem inclusionWitnesses_prints : PrintsBodies (inclusionWitnesses c d) :=
  .get fun _ hκ => .collect fun x hx =>
    ((printsExpression c hc).holds (hκ.elements x hx)).bind fun _ hinside =>
      ((printsExpression d hd).holdsNot (hκ.elements x hx)).map fun _ => linedBody_both hinside

include hcs in
theorem equivalenceWitnesses_prints : PrintsBodies (equivalenceWitnesses cs) := by
  cases cs with
  | nil => exact .nil
  | cons c cs =>
    obtain ⟨hc, hcs⟩ := List.forall_mem_cons.1 hcs
    exact .collect fun d hd => (inclusionWitnesses_prints hc (hcs d hd)).bind fun _ hthere =>
      (inclusionWitnesses_prints (hcs d hd) hc).map fun _ hback =>
        List.forall_mem_append.2 ⟨hthere, hback⟩

include hcs in
theorem disjointnessWitnesses_prints : PrintsBodies (disjointnessWitnesses cs) := by
  refine .collect fun p hp => .get fun κ hκ => .collect fun x hx => ?_
  obtain ⟨hc, hd⟩ := mem_laterPairs hp
  exact ((printsExpression _ (hcs _ hc)).holds (hκ.elements x hx)).bind fun _ hfirst =>
    ((printsExpression _ (hcs _ hd)).holds (hκ.elements x hx)).map fun _ => linedBody_both hfirst

include hc in
theorem typingWitnesses_prints (r : Role) {typed : Element × Element → Element}
    (htyped : ∀ p, typed p = p.1 ∨ typed p = p.2) : PrintsBodies (typingWitnesses r c typed) := by
  refine .get fun κ hκ => .collect fun p hp => ?_
  obtain ⟨hx, hy⟩ := hκ.pairs hp
  have hconstant : OneLine (typed p).constant := by
    rcases htyped p with heq | heq
    · exact heq ▸ hx
    · exact heq ▸ hy
  refine ((printsExpression c hc).holdsNot hconstant).bind fun outside houtside => ?_
  cases outside with
  | none => exact .nil
  | some outside =>
    exact (roleAtom_prints r hx hy).map fun a ha =>
      List.forall_mem_singleton.2 (.cons ha.oneLine_render (houtside outside rfl))

end Witnesses

/-- A body of two role atoms, the second of them changed by a function. -/
theorem rolePair_prints (r s : Role) {x y z w : Element} (hx : OneLine x.constant)
    (hy : OneLine y.constant) (hz : OneLine z.constant) (hw : OneLine w.constant) {f : Atom → Atom}
    (hf : ∀ a, a.Lined → (f a).Lined) :
    Prints LinedBody (do
      let first ← roleAtom r x y
      return [.pos first, .pos (f (← roleAtom s z w))]) :=
  (roleAtom_prints r hx hy).bind fun _ ha => (roleAtom_prints s hz hw).map fun _ hb =>
    (linedBody_atom ha).append (linedBody_atom (hf _ hb))

theorem roleInclusionWitnesses_prints (r s : Role) : PrintsBodies (roleInclusionWitnesses r s) :=
  .get fun _ hc => .mapM fun _ hp => by
    obtain ⟨hx, hy⟩ := hc.pairs hp
    exact rolePair_prints r s hx hy hx hy fun _ => Atom.Lined.complement

theorem roleEquivalenceWitnesses_prints (rs : List Role) :
    PrintsBodies (roleEquivalenceWitnesses rs) := by
  cases rs with
  | nil => exact .nil
  | cons r rs =>
    exact .collect fun s _ => (roleInclusionWitnesses_prints r s).bind fun _ hthere =>
      (roleInclusionWitnesses_prints s r).map fun _ hback => List.forall_mem_append.2 ⟨hthere, hback⟩

theorem functionalityWitnesses_prints (r : Role) : PrintsBodies (functionalityWitnesses r) := by
  refine .get fun c hc => .collect fun x hx => .get fun c' hc' => .mapM fun p hp => ?_
  obtain ⟨hy, hz⟩ := mem_laterPairs hp
  exact rolePair_prints r r (hc.elements x hx) (hc'.elements _ hy) (hc.elements x hx)
    (hc'.elements _ hz) fun _ ha => ha

theorem witnesses_prints {a : Axiom} (h : a.NamesOneLine) : PrintsBodies (witnesses a) := by
  have hparts := namedOnOneLine_of_mem_parts h
  cases a with
  | declaration e => exact .nil
  | subClassOf c d =>
    exact inclusionWitnesses_prints (hparts c List.mem_cons_self)
      (hparts d (List.mem_cons_of_mem _ List.mem_cons_self))
  | equivalentClasses cs => exact equivalenceWitnesses_prints hparts
  | disjointClasses cs => exact disjointnessWitnesses_prints hparts
  | disjointUnion whole parts =>
    exact (equivalenceWitnesses_prints (namedOnOneLine_disjointUnion h)).bind fun _ hdiffering =>
      (disjointnessWitnesses_prints hparts).map fun _ hoverlapping =>
        List.forall_mem_append.2 ⟨hdiffering, hoverlapping⟩
  | subObjectPropertyOf r s => exact roleInclusionWitnesses_prints r s
  | equivalentObjectProperties rs => exact roleEquivalenceWitnesses_prints rs
  | disjointObjectProperties rs =>
    refine .collect fun p _ => .get fun c hc => .mapM fun q hq => ?_
    obtain ⟨hx, hy⟩ := hc.pairs hq
    exact rolePair_prints p.1 p.2 hx hy hx hy fun _ ha => ha
  | inverseObjectProperties r s => exact roleEquivalenceWitnesses_prints [r, s.inverse]
  | objectPropertyDomain r c =>
    exact typingWitnesses_prints (hparts c List.mem_cons_self) r fun _ => .inl rfl
  | objectPropertyRange r c =>
    exact typingWitnesses_prints (hparts c List.mem_cons_self) r fun _ => .inr rfl
  | functionalObjectProperty r | inverseFunctionalObjectProperty r =>
    exact functionalityWitnesses_prints _
  | reflexiveObjectProperty r =>
    exact .get fun _ hc => .mapM fun x hx =>
      (roleAtom_prints r (hc.elements x hx) (hc.elements x hx)).map fun _ ha =>
        linedBody_atom ha.complement
  | irreflexiveObjectProperty r =>
    exact .get fun _ hc => .mapM fun x hx =>
      (roleAtom_prints r (hc.elements x hx) (hc.elements x hx)).map fun _ => linedBody_atom
  | symmetricObjectProperty r =>
    refine .get fun c hc => .mapM fun p hp => ?_
    obtain ⟨hx, hy⟩ := hc.pairs (List.mem_of_mem_filter hp)
    exact rolePair_prints r r hx hy hy hx fun _ => Atom.Lined.complement
  | asymmetricObjectProperty r =>
    refine .get fun c hc => .mapM fun p hp => ?_
    obtain ⟨hx, hy⟩ := mem_upperPairs hp
    refine (roleAtom_prints r (hc.elements _ hx) (hc.elements _ hy)).bind fun there hthere => ?_
    split
    · exact .pure (linedBody_atom hthere)
    · exact (roleAtom_prints r (hc.elements _ hy) (hc.elements _ hx)).map fun _ hback =>
        (linedBody_atom hthere).append (linedBody_atom hback)
  | transitiveObjectProperty r =>
    refine .get fun c hc => .collect fun p hp => .get fun c' hc' => .mapM fun z hz => ?_
    obtain ⟨hx, hy⟩ := hc.pairs (List.mem_of_mem_filter hp)
    have hz := hc'.elements z (List.mem_of_mem_filter hz)
    exact (roleAtom_prints r hx hy).bind fun _ ha => (roleAtom_prints r hy hz).bind fun _ hb =>
      (roleAtom_prints r hx hz).map fun _ hd =>
        (linedBody_atom ha).append ((linedBody_atom hb).append (linedBody_atom hd.complement))
  | sameIndividual is =>
    refine (members_prints is).map fun xs _ => ?_
    split
    · exact List.forall_mem_singleton.2 linedBody_nil
    · exact List.forall_mem_nil _
  | differentIndividuals is =>
    refine (members_prints is).map fun xs _ => ?_
    split
    · exact List.forall_mem_nil _
    · exact List.forall_mem_singleton.2 linedBody_nil
  | classAssertion c i =>
    exact (element_prints i).bind fun x hx =>
      ((printsExpression c (hparts c List.mem_cons_self)).holdsNot hx).map fun _ => linedBody_toList
  | objectPropertyAssertion r i j =>
    exact (element_prints i).bind fun x hx => (element_prints j).bind fun y hy =>
      (roleAtom_prints r hx hy).map fun _ ha => List.forall_mem_singleton.2 (linedBody_atom ha.complement)
  | negativeObjectPropertyAssertion r i j =>
    exact (element_prints i).bind fun x hx => (element_prints j).bind fun y hy =>
      (roleAtom_prints r hx hy).map fun _ ha => List.forall_mem_singleton.2 (linedBody_atom ha)
  | unsupported keyword source => exact .fail _

/-! ## Programs -/

theorem takePending_prints : Prints Program.Lined takePending := by
  refine ⟨fun hc => ⟨hc.naming, hc.elements, hc.classes, hc.properties, Program.lined_empty⟩,
    fun hc hrun => ?_⟩
  cases hrun
  exact hc.pending

theorem freshQuery_prints : Prints OneLine freshQuery := by
  refine ⟨fun hc => ⟨hc.naming, hc.elements, hc.classes, hc.properties, hc.pending⟩, fun _ hrun => ?_⟩
  cases hrun
  exact OneLine.append (by decide) (oneLine_toString _)

theorem lined_tagged {rules : List Rule} (h : ∀ r ∈ rules, r.Lined) (strategy : Strategy) (k : Nat) :
    ∀ r ∈ tagged strategy k rules, r.Lined := by
  unfold tagged
  split
  · refine List.forall_mem_map.2 fun r hr => ⟨(h r hr).head, ?_⟩
    exact (h r hr).body.append (linedBody_atom (lined_activationAtom k))
  · exact h

/-- An axiom that is kept as its source text fails before its text becomes a comment. -/
theorem groundAxiom_prints {e : Encoding} (he : e.program.Lined) (k : Nat) {a : Axiom}
    (h : a.NamesOneLine) : Prints (fun e => e.program.Lined) (groundAxiom e k a) := by
  by_cases hs : a.IsSupported
  · refine (axiomRules_prints h).bind fun rules hrules => .get fun c _ => ?_
    split
    · exact .pure he
    · exact takePending_prints.map fun pending hpending =>
        ((he.comment (Axiom.oneLine_render hs h)).append hpending).pushAll (lined_tagged hrules _ k)
  · cases a with
    | unsupported keyword source => exact Prints.bind (P := fun _ => False) (.fail _) fun _ => False.elim
    | _ => exact absurd trivial hs

theorem groundAxioms_prints {axioms : List Axiom} (h : ∀ a ∈ axioms, a.NamesOneLine) {e : Encoding}
    (he : e.program.Lined) (k : Nat) : Prints (fun e => e.program.Lined) (groundAxioms e k axioms) := by
  induction axioms generalizing e k with
  | nil => exact .pure he
  | cons a rest ih =>
    obtain ⟨ha, hrest⟩ := List.forall_mem_cons.1 h
    exact (groundAxiom_prints he k ha).bind fun e he => ih hrest he (k + 1)

theorem groundOntology_prints {o : Ontology} (h : ∀ a ∈ o.axioms, a.NamesOneLine) :
    Prints (fun e => e.program.Lined) (groundOntology o) := by
  refine (Prints.mapM fun iri _ => classSymbol_prints iri).bind fun _ _ =>
    (Prints.mapM fun iri _ => propertySymbol_prints iri).bind fun _ _ =>
      takePending_prints.bind fun pending hpending => groundAxioms_prints h ?_ 0
  exact (Program.lined_empty.comment (by decide)).append hpending

theorem negatedQuery_prints {a : Axiom} (h : a.NamesOneLine) :
    Prints Program.Lined (negatedQuery a) := by
  by_cases hs : a.IsSupported
  · refine (witnesses_prints h).bind fun bodies hbodies => freshQuery_prints.bind fun query hquery =>
      takePending_prints.map fun pending hpending => ?_
    have hatom : (Atom.positive query []).Lined := ⟨hquery, nofun⟩
    have hcomment : OneLine ("negation of " ++ a.render) :=
      OneLine.append (by decide) (Axiom.oneLine_render hs h)
    refine Program.Lined.push (.pushAll ((Program.lined_empty.comment hcomment).append hpending) ?_)
      (linedBody_not hatom).constraint
    exact List.forall_mem_map.2 fun body hbody => hatom.derive (hbodies body hbody)
  · cases a with
    | unsupported keyword source => exact Prints.bind (P := fun _ => False) (.fail _) fun _ => False.elim
    | _ => exact absurd trivial hs

end Grounding

theorem Encoding.lined_withActive {e : Encoding} (he : e.program.Lined) (active : List Nat) :
    (e.withActive active).Lined := by
  unfold Encoding.withActive
  split
  · exact he
  · exact (he.comment (by decide)).pushAll (List.forall_mem_map.2 fun k _ =>
      (Grounding.lined_activationAtom k).fact)

/-! ## Accepted documents -/

namespace Ontology

/-- The names in the axioms of an accepted document can stand between angle brackets. -/
theorem IsAccepted.namesOneLine {o : Ontology} (h : o.IsAccepted) {a : Axiom} (ha : a ∈ o.axioms) :
    a.NamesOneLine := by
  intro e he
  rcases Axiom.mentions_iff.1 he with hmem | ⟨-, rfl | rfl⟩
  · have hs : a.IsSupported := by
      cases a with
      | unsupported => cases hmem
      | _ => trivial
    exact oneLine_of_isBracketable (((h.axioms a ha).isFit h.prefixes.isSound hs).2 e hmem)
  · decide
  · decide

theorem IsAccepted.individuals {o : Ontology} (h : o.IsAccepted) :
    ∀ i ∈ o.signature.individuals, OneLine i.iri.text := by
  intro i hi
  obtain ⟨a, ha, hmem⟩ := h.built.contains_iff.1 (show o.signature.Contains (.individual i.iri) from hi)
  exact h.namesOneLine ha _ (Axiom.mentions_iff.2 (.inl hmem))

theorem IsAccepted.assertedIndividuals {o : Ontology} (h : o.IsAccepted) :
    ∀ i ∈ o.assertedIndividuals, OneLine i.iri.text := by
  intro i hi
  obtain ⟨a, ha, hi⟩ := List.mem_flatMap.1 (SortedSet.mem_ofList.1 hi)
  have hmem := mem_vocabulary_of_mem_entities (mem_individualsAsserted_iff.1 hi)
  exact h.namesOneLine ha _ (Axiom.mentions_iff.2 (.inl hmem))

end Ontology

/-- The elements of a domain that is resolved from accepted documents have names on one line. -/
theorem Domain.oneLine_of_resolve {o : Ontology} (ho : o.IsAccepted) {listed : Option Ontology}
    (hlisted : ∀ document ∈ listed, document.IsAccepted) {d : Domain}
    (hd : resolve o listed = .ok d) : ∀ i ∈ d.elements, OneLine i.iri.text := by
  have hset : ∀ individuals : SortedSet Individual, (∀ i ∈ individuals, OneLine i.iri.text) →
      ∀ i ∈ (ofSet individuals).elements, OneLine i.iri.text := by
    intro individuals h i hi
    unfold ofSet at hi
    split at hi
    · obtain rfl := List.mem_singleton.1 (SortedSet.mem_ofList.1 hi)
      decide
    · exact h i hi
  cases listed with
  | none =>
    cases hd
    exact hset _ ho.assertedIndividuals
  | some document =>
    simp only [resolve] at hd
    split at hd
    · cases hd
    · split at hd
      · cases hd
        exact hset _ (hlisted document rfl).individuals
      · cases hd

namespace Call

/-- A call for what an accepted document describes, or for an axiom of it. -/
inductive IsAccepted : Call → Prop
  | ontology {text : String} {o : Ontology} (h : readOntology text = .ok o) : IsAccepted (.ontology o)
  | query {text : String} {o : Ontology} {a : Axiom} (h : readOntology text = .ok o)
    (ha : a ∈ o.axioms) : IsAccepted (.query a)

theorem encode_prints {call : Call} (h : call.IsAccepted) : Grounding.Prints Program.Lined call.encode := by
  cases h with
  | ontology h =>
    have haccepted := isAccepted_of_readOntology h
    exact (Grounding.groundOntology_prints fun a => haccepted.namesOneLine).map fun _ he => he
  | query h ha => exact Grounding.negatedQuery_prints ((isAccepted_of_readOntology h).namesOneLine ha)

theorem run_lined {call : Call} (h : call.IsAccepted) {c : Context} (hc : c.Lined) :
    (call.run c).2.Lined ∧ ∀ p, (call.run c).1.result = .ok p → p.Lined := by
  have hcontext := (encode_prints h).context hc
  have hrun : (call.run c).2 = (call.encode.exec c).2 ∧
      (call.run c).1.result = (call.encode.exec c).1 := by
    unfold run
    rcases call.encode.exec c with ⟨_ | _, c'⟩ <;> cases call <;> exact ⟨rfl, rfl⟩
  refine ⟨hrun.1 ▸ hcontext, fun p hp => ?_⟩
  have hexec : call.encode.exec c = (.ok p, (call.encode.exec c).2) := Prod.ext (hrun.2 ▸ hp) rfl
  exact (encode_prints h).result hc hexec

theorem runAll_lined {calls : List Call} (h : ∀ call ∈ calls, call.IsAccepted) {c : Context}
    (hc : c.Lined) : ∀ outcome ∈ (runAll calls c).1, ∀ p, outcome.result = .ok p → p.Lined := by
  induction calls generalizing c with
  | nil => nofun
  | cons call calls ih =>
    obtain ⟨hcall, hcalls⟩ := List.forall_mem_cons.1 h
    obtain ⟨hc', hresult⟩ := run_lined hcall hc
    simp only [runAll]
    exact List.forall_mem_cons.2 ⟨hresult, ih hcalls hc'⟩

/-- Whatever accepted documents say, the programs of their ontologies and of queries for their axioms are
written with one line for each rule and each comment, over the domain of an accepted document, under every
strategy and every naming scheme, with any axioms switched on. -/
theorem runAll_lineByLine {text : String} {o : Ontology} (ho : readOntology text = .ok o)
    {listed : Option Ontology} (hlisted : ∀ document ∈ listed, ∃ text, readOntology text = .ok document)
    {d : Domain} (hd : Domain.resolve o listed = .ok d) (scheme : NamingScheme) (strategy : Strategy)
    {calls : List Call} (hcalls : ∀ call ∈ calls, call.IsAccepted) :
    ∀ outcome ∈ (runAll calls (.new d scheme strategy)).1, ∀ program, outcome.result = .ok program →
      program.LineByLine ∧ ∀ activations active,
        (Encoding.withActive ⟨program, activations⟩ active).LineByLine := by
  have hnames := Domain.oneLine_of_resolve (isAccepted_of_readOntology ho)
    (fun document h => by
      obtain ⟨_, hread⟩ := hlisted document h
      exact isAccepted_of_readOntology hread) hd
  intro outcome houtcome program hprogram
  have hlined := runAll_lined hcalls (Context.lined_new hnames scheme strategy) outcome houtcome program
    hprogram
  exact ⟨hlined.lineByLine, fun activations active => (Encoding.lined_withActive hlined active).lineByLine⟩

/-- What is returned for a document with an individual behind an inverse property, and for a query for its
axiom. -/
def nominalOutcomes : List Outcome :=
  (runAll [.ontology .nominal, .query (.subClassOf (.named ⟨"urn:a"⟩)
      (.someValuesFrom (.inverseOf ⟨"urn:p"⟩) (.oneOf [⟨⟨"urn:i"⟩⟩])))]
    (.new (.ofSet Ontology.nominal.assertedIndividuals) .aspCore .debug)).1

theorem runAll_lineByLine_nominal : ∃ written queried,
    nominalOutcomes.map (·.result) = [.ok written, .ok queried] ∧
      written.LineByLine ∧ queried.LineByLine := by
  have hread := Ontology.readOntology_nominal
  have hdomain : Domain.resolve Ontology.nominal none =
      .ok (.ofSet Ontology.nominal.assertedIndividuals) := rfl
  have hlisted : ∀ document ∈ (none : Option Ontology), ∃ text, readOntology text = .ok document := nofun
  have hlines : ∀ outcome ∈ nominalOutcomes, ∀ program, outcome.result = .ok program →
      program.LineByLine := fun outcome houtcome program hprogram =>
    (runAll_lineByLine hread hlisted hdomain .aspCore .debug
      (List.forall_mem_cons.2 ⟨.ontology hread,
        List.forall_mem_singleton.2 (.query hread List.mem_cons_self)⟩)
      outcome houtcome program hprogram).1
  have hok : ∀ outcome ∈ nominalOutcomes, outcome.result.toOption.isSome = true := by decide +kernel
  obtain ⟨first, second, houtcomes⟩ := List.length_eq_two.1
    (by decide +kernel : nominalOutcomes.length = 2)
  rw [houtcomes] at hok hlines ⊢
  obtain ⟨written, hwritten⟩ := Option.isSome_iff_exists.1 (hok first (by simp))
  obtain ⟨queried, hqueried⟩ := Option.isSome_iff_exists.1 (hok second (by simp))
  have hfirst := eq_ok_of_toOption hwritten
  have hsecond := eq_ok_of_toOption hqueried
  exact ⟨written, queried, by simp [hfirst, hsecond], hlines first (by simp) written hfirst,
    hlines second (by simp) queried hsecond⟩

end Call

end FixedDomain
