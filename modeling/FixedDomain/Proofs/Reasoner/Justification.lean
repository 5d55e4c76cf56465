import FixedDomain.Proofs.Reasoner.Activation

/-! # Justifications

Positions of axioms are dropped one after another as long as the axioms at the others stay
inconsistent. Since fewer axioms allow more interpretations (`Domain.Allows.anti`), a position that
has once been needed is needed in the end, so that what is left is inconsistent and loses this with
any one of its axioms (`exists_minimize`, `justification_minimal`).
-/

namespace FixedDomain

/-! ## Axioms that are consistent over a domain -/

/-- Some interpretation over a domain respects some axioms. -/
def Domain.Allows (d : Domain) (axioms : List Axiom) : Prop :=
  ∃ I : Interpretation Individual, I.OverDomain d ∧ ∀ a ∈ axioms, I.Respects a

theorem Domain.Allows.anti {d : Domain} {axioms more : List Axiom} (h : d.Allows more)
    (hsubset : axioms ⊆ more) : d.Allows axioms := by
  obtain ⟨I, hover, hI⟩ := h
  exact ⟨I, hover, fun a ha => hI a (hsubset ha)⟩

/-- Only the elements of a domain matter. -/
theorem Domain.allows_ofSet_iff {d : Domain} {axioms : List Axiom} :
    (ofSet d.elements).Allows axioms ↔ d.Allows axioms := by
  refine exists_congr fun I => and_congr_left fun _ => ?_
  exact ⟨fun h => h.congr d.elements_ofSet.symm, fun h => h.congr d.elements_ofSet⟩

/-- A program that realizes that axioms are respected has an answer set if they are consistent over
the domain. -/
theorem Context.Realizes.exists_isAnswerSet_iff_allows {c : Context} {p : Program} {F : Set Atom}
    {axioms : List Axiom} (h : c.Realizes p F fun I => ∀ a ∈ axioms, I.Respects a)
    (hc : c.Ready) (hsize : c.domain.size < UInt32.size - 1) :
    (∃ S, p.IsAnswerSet S) ↔ c.domain.Allows axioms := by
  rw [h.exists_isAnswerSet_iff hc]
  constructor
  · rintro ⟨I, hI, hφ⟩
    have hsmall := hI.toOverDomain.isSmall hsize
    exact ⟨I.toInterpretation, hI.toOverDomain,
      fun a ha => (Evaluation.respects_iff hsmall a).1 (hφ a ha)⟩
  · rintro ⟨I, hover, hI⟩
    have hsmall := hover.isSmall hsize
    exact ⟨_, Context.admits_evaluate hover,
      fun a ha => (Context.respects_evaluate_iff hsmall c a).2 (hI a ha)⟩

namespace Reasoner

variable {o : Ontology} {d : Domain} {e : Encoding} {κ : Context} {settings : Settings}

/-! ## Minimization -/

section Minimize

variable {r : Reasoner} {P : List Nat → Prop}
  (hsolve : ∀ active, ∃ b,
    (r.satisfiable (Solver.builtin Id) (e.withActive active)).run = .ok b ∧ (b = true ↔ P active))
  (hanti : ∀ active more : List Nat, active ⊆ more → P more → P active)

include hsolve hanti

/-- What is left of some positions is inconsistent and needs each of its positions, if this is so of
those that are kept already. -/
theorem exists_minimize (kept rest : List Nat) (hunsat : ¬ P (kept ++ rest))
    (hneeded : ∀ k ∈ kept, P ((kept ++ rest).filter (· ≠ k))) :
    ∃ needed, (r.minimize (Solver.builtin Id) e kept rest).run = .ok needed ∧ ¬ P needed ∧
      ∀ k ∈ needed, P (needed.filter (· ≠ k)) := by
  -- what is kept stays needed whatever is dropped, since fewer positions are never worse
  induction rest generalizing kept with
  | nil => exact ⟨kept, rfl, by simpa using hunsat, by simpa using hneeded⟩
  | cons k rest ih =>
    obtain ⟨b, hrun, hb⟩ := hsolve (kept ++ rest)
    have hshift : kept ++ k :: rest = kept ++ [k] ++ rest := by simp
    cases b with
    | true =>
      -- without the position the rest is consistent, so it is kept
      have hstep : (r.minimize (Solver.builtin Id) e kept (k :: rest)).run =
          (r.minimize (Solver.builtin Id) e (kept ++ [k]) rest).run :=
        run_bind_eq_of_ok hrun _
      rw [hstep]
      rw [hshift] at hunsat hneeded
      refine ih (kept ++ [k]) hunsat (List.forall_mem_append.2 ⟨hneeded, ?_⟩)
      rw [List.forall_mem_singleton]
      refine hanti _ _ (fun j hj => ?_) (hb.1 rfl)
      simp only [List.mem_filter, List.mem_append, List.mem_singleton, decide_eq_true_eq] at hj
      exact List.mem_append.2 (hj.1.imp_left fun h => h.resolve_right hj.2)
    | false =>
      -- the rest is inconsistent all the same, so the position is dropped
      have hstep : (r.minimize (Solver.builtin Id) e kept (k :: rest)).run =
          (r.minimize (Solver.builtin Id) e kept rest).run :=
        run_bind_eq_of_ok hrun _
      rw [hstep]
      refine ih kept (fun h => Bool.false_ne_true (hb.2 h)) fun j hj => hanti _ _ ?_ (hneeded j hj)
      exact ((List.sublist_cons_self k rest).append_left kept).filter _ |>.subset

end Minimize

/-! ## Consistency of listed axioms -/

/-- What is left of some axioms without the one at an index is at all of their positions but one. -/
theorem exists_eraseIdx_listedAt_subset (hnodup : e.positions.Nodup) {active : List Nat} {i : Nat}
    (hi : i < (e.listedAt active).length) :
    ∃ k ∈ active, (e.listedAt active).eraseIdx i ⊆ e.listedAt (active.filter (· ≠ k)) := by
  let entries := e.activations.filter fun entry => entry.1 ∈ active
  have hi : i < entries.length := by simpa [Encoding.listedAt, entries] using hi
  have hentries : (entries.map (·.1)).Nodup := hnodup.sublist (List.filter_sublist.map _)
  refine ⟨entries[i].1, ?_, fun a ha => ?_⟩
  · simpa using (List.mem_filter.1 (List.getElem_mem hi)).2
  · rw [Encoding.listedAt, List.eraseIdx_map] at ha
    obtain ⟨entry, hentry, rfl⟩ := List.mem_map.1 ha
    obtain ⟨j, hj, hne, rfl⟩ := List.mem_eraseIdx_iff_getElem.1 hentry
    obtain ⟨hmem, hactive⟩ := List.mem_filter.1 (List.getElem_mem hj)
    refine Encoding.mem_listedAt.2 ⟨_, List.mem_filter.2 ⟨by simpa using hactive, ?_⟩, hmem⟩
    rw [decide_eq_true_iff]
    intro heq
    have hjmap : j < (entries.map (·.1)).length := by simpa using hj
    have himap : i < (entries.map (·.1)).length := by simpa using hi
    have heqmap : (entries.map (·.1))[j] = (entries.map (·.1))[i] := by simpa using heq
    exact hne (hentries.getElem_inj_iff.1 heqmap)

namespace Encoded

variable (h : Encoded o d e κ)

include h

/-- A session finds out whether its axioms are consistent over its domain. -/
theorem exists_isConsistent_eq (hsize : d.size < UInt32.size - 1)
    (htime : settings.timeoutMilliseconds = none) :
    ∃ b, (isConsistent ⟨o, settings, κ, e, false⟩ (Solver.builtin Id)).run = .ok b ∧
      (b = true ↔ d.Allows o.axioms) := by
  obtain ⟨b, hrun, hb⟩ := satisfiable_builtin (r := ⟨o, settings, κ, e, false⟩) rfl htime
    h.realizes.not_nestsCounts
  have hallows := h.realizes.exists_isAnswerSet_iff_allows h.ready (h.domain.symm ▸ hsize)
  rw [h.domain] at hallows
  exact ⟨b, hrun, hb.trans hallows⟩

theorem not_nestsCounts_withActive (active : List Nat) : ¬ (e.withActive active).NestsCounts := by
  rintro ⟨r, hr, es, op, bound, hmem, hnested⟩
  rw [Context.rules_withActive] at hr
  rcases List.mem_append.1 hr with hr | hr
  · refine h.realizes.not_nestsCounts ⟨r, ?_, es, op, bound, hmem, hnested⟩
    rw [Encoding.complete, Context.rules_withActive]
    exact List.mem_append_left _ hr
  · obtain ⟨k, -, rfl⟩ := List.mem_map.1 hr
    cases hmem

section Debug

variable (hdebug : κ.strategy = .debug)

include hdebug

theorem positions_nodup : e.positions.Nodup := by
  have hsublist := (h.activations_sublist hdebug).map Prod.snd
  rw [List.map_map, List.zipIdx_map_snd] at hsublist
  exact List.Nodup.sublist hsublist List.nodup_range'

theorem listedAt_sublist (active : List Nat) : (e.listedAt active).Sublist o.axioms := by
  have hsublist := (h.activations_sublist hdebug).map Prod.fst
  rw [List.map_map, List.zipIdx_map_fst] at hsublist
  exact (List.filter_sublist.map _).trans hsublist

/-- Listed axioms name elements of the domain only, since declarations are not listed. -/
theorem mem_elements_of_mem_listedAt (ho : o.IsCovered) {listed : Option Ontology}
    (hd : Domain.resolve o listed = .ok d) {active : List Nat} {a : Axiom}
    (ha : a ∈ e.listedAt active) {i : Individual} (hi : .individual i.iri ∈ a.vocabulary) :
    i ∈ d.elements := by
  refine ho.mem_of_resolve hd a ((h.listedAt_sublist hdebug active).subset ha) i ?_
  rw [mem_individualsAsserted_iff]
  obtain ⟨k, -, hmem⟩ := Encoding.mem_listedAt.1 ha
  cases a with
  | declaration v => exact absurd rfl (h.ne_declaration_of_mem_activations hdebug hmem v)
  | _ => exact hi

variable (hsize : d.size < UInt32.size - 1) {r : Reasoner} (hcancelled : r.cancelled = false)
  (htime : r.settings.timeoutMilliseconds = none)

include hsize hcancelled htime

/-- The solver finds out whether the axioms at some positions are consistent over the domain. -/
theorem exists_satisfiable_withActive_eq (active : List Nat) :
    ∃ b, (r.satisfiable (Solver.builtin Id) (e.withActive active)).run = .ok b ∧
      (b = true ↔ d.Allows (e.listedAt active)) := by
  obtain ⟨b, hrun, hb⟩ :=
    satisfiable_builtin hcancelled htime (h.not_nestsCounts_withActive active)
  obtain ⟨p, hp, hiff⟩ := h.exists_realizes_withActive hdebug active
  have hallows := hp.exists_isAnswerSet_iff_allows h.ready (h.domain.symm ▸ hsize)
  rw [h.domain] at hallows
  refine ⟨b, hrun, hb.trans ?_⟩
  simp only [hiff, hallows]

/-- If the listed axioms are inconsistent, positions are left whose axioms are so too, but are
consistent without any one of them. -/
theorem exists_minimize_eq (hunsat : ¬ d.Allows (e.listedAt e.positions)) :
    ∃ needed, (r.minimize (Solver.builtin Id) e [] e.positions).run = .ok needed ∧
      ¬ d.Allows (e.listedAt needed) ∧
      ∀ k < (e.listedAt needed).length, d.Allows ((e.listedAt needed).eraseIdx k) := by
  have hsolve := h.exists_satisfiable_withActive_eq hdebug hsize hcancelled htime
  have hanti : ∀ active more : List Nat, active ⊆ more → d.Allows (e.listedAt more) →
      d.Allows (e.listedAt active) := by
    refine fun active more hsubset hmore => hmore.anti fun a ha => ?_
    obtain ⟨k, hk, hmem⟩ := Encoding.mem_listedAt.1 ha
    exact Encoding.mem_listedAt.2 ⟨k, hsubset hk, hmem⟩
  obtain ⟨needed, hrun, hunsat', hneeded⟩ :=
    exists_minimize hsolve hanti [] e.positions (by simpa using hunsat) (by simp)
  refine ⟨needed, hrun, hunsat', fun i hi => ?_⟩
  obtain ⟨k, hk, hsubset⟩ := exists_eraseIdx_listedAt_subset (h.positions_nodup hdebug) hi
  exact (hneeded k hk).anti hsubset

end Debug

end Encoded

/-! ## Sessions -/

/-- A session over some axioms and the elements of a domain finds out whether the axioms are
consistent over the domain. -/
theorem exists_new_ofAxioms_eq {axioms : List Axiom} (hs : ∀ a ∈ axioms, a.IsSupported)
    (hi : ∀ a ∈ axioms, ∀ i : Individual, .individual i.iri ∈ a.vocabulary → i ∈ d.elements)
    (hsize : d.size < UInt32.size - 1) (hlimit : checkSize d settings.maxDomainSize = .ok ())
    (htime : settings.timeoutMilliseconds = none) {document : Ontology}
    (hdocument : document.signature.individuals = d.elements) :
    ∃ s b, new (.ofAxioms axioms) (some document) settings = .ok s ∧
      (s.isConsistent (Solver.builtin Id)).run = .ok b ∧ (b = true ↔ d.Allows axioms) := by
  have hd : Domain.resolve (.ofAxioms axioms) (some document) = .ok (.ofSet d.elements) := by
    refine Domain.resolve_of_elements_eq hdocument fun i hmem => ?_
    obtain ⟨a, ha, hmem⟩ := Ontology.exists_of_contains_ofAxioms (e := .individual i.iri) hmem
    exact hi a ha i hmem
  have hsize' : (Domain.ofSet d.elements).size = d.size := by
    rw [Domain.size, Domain.size, d.elements_ofSet]
  have hlimit' : checkSize (.ofSet d.elements) settings.maxDomainSize = .ok () := by
    rw [← hlimit]
    simp only [checkSize, hsize']
  obtain ⟨e, κ, hencode, h⟩ := exists_encode (o := .ofAxioms axioms)
    (by rwa [Ontology.axioms_ofAxioms])
    ((Ontology.built_ofAxioms axioms).isCovered.mem_of_resolve hd) settings.naming settings.strategy
  obtain ⟨b, hrun, hb⟩ := h.exists_isConsistent_eq (hsize'.symm ▸ hsize) htime
  rw [Ontology.axioms_ofAxioms, Domain.allows_ofSet_iff] at hb
  exact ⟨_, b, new_eq_ok_iff.2 ⟨_, e, κ, hd, hlimit', hencode, rfl⟩, hrun, hb⟩

/-- The debug encoding that justifications are read from, under any strategy. -/
theorem exists_taggedEncoding_eq (ho : o.IsCovered) {listed : Option Ontology} {r : Reasoner}
    (hnew : new o listed settings = .ok r) :
    ∃ e κ, r.taggedEncoding = .ok e ∧ κ.strategy = .debug ∧ Encoded o r.domain e κ := by
  obtain ⟨d, e₀, κ₀, hd, -, hencode₀, rfl⟩ := new_eq_ok_iff.1 hnew
  have h₀ := encoded_of_encode hencode₀
  rw [show domain ⟨o, settings, κ₀, e₀, false⟩ = d from h₀.domain]
  by_cases hdebug : κ₀.strategy = .debug
  · exact ⟨e₀, κ₀, by simp [taggedEncoding, Reasoner.strategy, hdebug], hdebug, h₀⟩
  · obtain ⟨e, κ, hencode, h⟩ := exists_encode (supported_of_encode hencode₀)
      (ho.mem_of_resolve hd) settings.naming .debug
    refine ⟨e, κ, ?_, strategy_of_encode hencode, h⟩
    simp [taggedEncoding, Reasoner.strategy, hdebug, Reasoner.domain, h₀.domain, hencode, Except.map]

section Answers

variable {r : Reasoner} (htagged : r.taggedEncoding = .ok e)

include htagged

theorem justification_eq_none
    (hrun : (r.satisfiable (Solver.builtin Id) e.complete).run = .ok true) :
    (r.justification (Solver.builtin Id)).run = .ok none := by
  rw [justification, htagged]
  exact run_bind_eq_of_ok hrun _

theorem justification_eq_some
    (hrun : (r.satisfiable (Solver.builtin Id) e.complete).run = .ok false) {needed : List Nat}
    (hminimize : (r.minimize (Solver.builtin Id) e [] e.positions).run = .ok needed) :
    (r.justification (Solver.builtin Id)).run = .ok (some (e.listedAt needed)) := by
  rw [justification, htagged]
  exact (run_bind_eq_of_ok hrun _).trans (run_bind_eq_of_ok hminimize _)

end Answers

/-- A session over a small domain has no justification exactly if it is consistent. Otherwise its
justification is a sublist of the axioms which is inconsistent over the domain, and which is
consistent without any one of its axioms. The signature has to have what the axioms mention, as that
of every ontology that has grown by `add`. -/
theorem justification_minimal (ho : o.IsCovered) {listed : Option Ontology} {r : Reasoner}
    (hnew : new o listed settings = .ok r) (hsize : r.domain.size < UInt32.size - 1)
    (htime : settings.timeoutMilliseconds = none) :
    ((r.justification (Solver.builtin Id)).run = .ok none ↔
      (r.isConsistent (Solver.builtin Id)).run = .ok true) ∧
    ((r.isConsistent (Solver.builtin Id)).run ≠ .ok true → ∃ axioms : List Axiom,
      (r.justification (Solver.builtin Id)).run = .ok (some axioms) ∧ axioms.Sublist o.axioms ∧
      ∀ document : Ontology, document.signature.individuals = r.domain.elements →
        (∃ s, new (.ofAxioms axioms) (some document) settings = .ok s ∧
          (s.isConsistent (Solver.builtin Id)).run = .ok false) ∧
        ∀ k < axioms.length, ∃ s,
          new (.ofAxioms (axioms.eraseIdx k)) (some document) settings = .ok s ∧
          (s.isConsistent (Solver.builtin Id)).run = .ok true) := by
  obtain ⟨e, κ, htagged, hdebug, h⟩ := exists_taggedEncoding_eq ho hnew
  obtain ⟨d, e₀, κ₀, hd, hlimit, hencode₀, rfl⟩ := new_eq_ok_iff.1 hnew
  have h₀ := encoded_of_encode hencode₀
  have hdomain : domain ⟨o, settings, κ₀, e₀, false⟩ = d := h₀.domain
  rw [hdomain] at h hsize ⊢
  obtain ⟨b₀, hconsistent, hb₀⟩ := h₀.exists_isConsistent_eq hsize htime
  rw [hconsistent]
  -- the tagged program has an answer set for the same reason that the program has one
  obtain ⟨b, hrun, hb⟩ := h.exists_isConsistent_eq hsize htime
  obtain rfl : b₀ = b := by rw [Bool.eq_iff_iff, hb₀, hb]
  cases b₀ with
  | true =>
    have hnone := justification_eq_none htagged hrun
    exact ⟨iff_of_true hnone rfl, fun hne => absurd rfl hne⟩
  | false =>
    -- the tagged program is the one with all listed axioms active, from which minimization starts
    obtain ⟨b, hrun', hb'⟩ := h.exists_satisfiable_withActive_eq hdebug hsize
      (r := ⟨o, settings, κ₀, e₀, false⟩) rfl htime e.positions
    obtain rfl : b = false := Except.ok.inj (hrun'.symm.trans hrun)
    obtain ⟨needed, hminimize, hunsat, hminimal⟩ := h.exists_minimize_eq hdebug hsize
      (r := ⟨o, settings, κ₀, e₀, false⟩) rfl htime (by simpa using hb')
    have hsome := justification_eq_some htagged hrun hminimize
    have hsublist := h.listedAt_sublist hdebug needed
    have hs : ∀ a ∈ e.listedAt needed, a.IsSupported := fun a ha =>
      supported_of_encode hencode₀ a (hsublist.subset ha)
    have hi : ∀ a ∈ e.listedAt needed, ∀ i : Individual, .individual i.iri ∈ a.vocabulary →
        i ∈ d.elements := fun a ha i => h.mem_elements_of_mem_listedAt hdebug ho hd ha
    refine ⟨iff_of_false (fun hnone => nomatch hsome.symm.trans hnone) nofun,
      fun _ => ⟨_, hsome, hsublist, fun document hdocument => ⟨?_, fun k hk => ?_⟩⟩⟩
    · obtain ⟨s, b, hnew, hrun, hb⟩ := exists_new_ofAxioms_eq hs hi hsize hlimit htime hdocument
      obtain rfl : b = false := by simpa [hunsat] using hb
      exact ⟨s, hnew, hrun⟩
    · have herase := (List.eraseIdx_sublist (e.listedAt needed) k).subset
      obtain ⟨s, b, hnew, hrun, hb⟩ := exists_new_ofAxioms_eq
        (fun a ha => hs a (herase ha)) (fun a ha => hi a (herase ha)) hsize hlimit htime hdocument
      obtain rfl := hb.2 (hminimal k hk)
      exact ⟨s, hnew, hrun⟩

/-- Somebody is a cat and a dog, which nobody is, as is said twice. -/
def clash : Ontology :=
  let cat := ClassExpression.named ⟨"urn:pets#Cat"⟩
  let dog := ClassExpression.named ⟨"urn:pets#Dog"⟩
  let rex : Individual := ⟨⟨"urn:pets#rex"⟩⟩
  .ofAxioms [.declaration (.individual rex.iri), .disjointClasses [cat, dog],
    .classAssertion cat rex, .disjointClasses [dog, cat], .classAssertion dog rex]

theorem not_allows_clash (d : Domain) (hd : ⟨⟨"urn:pets#rex"⟩⟩ ∈ d.elements) :
    ¬ d.Allows clash.axioms := by
  rintro ⟨I, hover, hI⟩
  simp only [clash, Ontology.axioms_ofAxioms, List.forall_mem_cons, Interpretation.Respects,
    Interpretation.Satisfies, List.pairwise_pair, hover.denote, id] at hI
  obtain ⟨-, hdisjoint, hcat, -, hdog, -⟩ := hI
  exact hdisjoint _ (hover.domain ▸ hd) ⟨hcat, hdog⟩

theorem justification_minimal_clash :
    let settings : Settings := { Settings.standard with strategy := .direct, naming := .aspCore }
    let document : Ontology := .ofAxioms [.declaration (.individual ⟨"urn:pets#rex"⟩)]
    ∃ r axioms, new clash none settings = .ok r ∧
      (r.isConsistent (Solver.builtin Id)).run ≠ .ok true ∧
      (r.justification (Solver.builtin Id)).run = .ok (some axioms) ∧
      axioms.Sublist clash.axioms ∧ document.signature.individuals = r.domain.elements ∧
      (∃ s, new (.ofAxioms axioms) (some document) settings = .ok s ∧
        (s.isConsistent (Solver.builtin Id)).run = .ok false) ∧
      ∀ k < axioms.length, ∃ s,
        new (.ofAxioms (axioms.eraseIdx k)) (some document) settings = .ok s ∧
        (s.isConsistent (Solver.builtin Id)).run = .ok true := by
  intro settings document
  have ho : clash.IsCovered := (Ontology.built_ofAxioms _).isCovered
  have hd : Domain.resolve clash none = .ok (.ofSet clash.assertedIndividuals) := rfl
  have hs : ∀ a ∈ clash.axioms, a.IsSupported := by
    simp [clash, Ontology.axioms_ofAxioms, Axiom.IsSupported]
  obtain ⟨e, κ, hencode, h⟩ := exists_encode hs (ho.mem_of_resolve hd) .aspCore .direct
  have hnew : new clash none settings = .ok _ := new_eq_ok_iff.2 ⟨_, e, κ, hd, rfl, hencode, rfl⟩
  have hdomain : domain ⟨clash, settings, κ, e, false⟩ = _ := h.domain
  have hsize : (Domain.ofSet clash.assertedIndividuals).size < UInt32.size - 1 := by decide
  have htime : settings.timeoutMilliseconds = none := rfl
  obtain ⟨b, hrun, hb⟩ := h.exists_isConsistent_eq hsize htime
  have hne : (isConsistent ⟨clash, settings, κ, e, false⟩ (Solver.builtin Id)).run ≠ .ok true := by
    intro hok
    obtain rfl : b = true := Except.ok.inj (hrun.symm.trans hok)
    exact not_allows_clash _ (by decide) (hb.1 rfl)
  have hdocument : document.signature.individuals =
      (domain ⟨clash, settings, κ, e, false⟩).elements := by
    rw [hdomain]
    decide
  obtain ⟨axioms, hsome, hsublist, hall⟩ :=
    (justification_minimal ho hnew (hdomain ▸ hsize) rfl).2 hne
  exact ⟨_, axioms, hnew, hne, hsome, hsublist, hdocument, hall document hdocument⟩

end Reasoner

end FixedDomain
