import FixedDomain.Model
import FixedDomain.Proofs.Grounding.Program

/-! # Decoded answer sets

What an answer set says about classes and properties is what its decoding says
(`interpretation_decode`). Atoms of auxiliary predicates, switches and opposites are passed over, so
answer sets that differ in nothing else have the same decoding (`decode_congr`). Under a projection
the same is true of all atoms that are not observable (`decode_eq_iff`).
-/

namespace FixedDomain

/-! ## Reading models -/

namespace Model

/-- The interpretation over a domain that a model stands for. -/
def interpretation (m : Model) (d : Domain) : Interpretation Individual where
  domain := {i | i ∈ d.elements}
  denote := id
  classes iri := {i | m.hasClass i iri = true}
  properties iri i j := m.hasProperty i iri j = true

variable {m : Model} {i j : Individual} {iri iri' : Iri}

theorem hasClass_addClass :
    (m.addClass i iri).hasClass j iri' = true ↔
      (i = j ∧ iri = iri') ∨ m.hasClass j iri' = true := by
  unfold addClass hasClass
  simp only [SortedMap.find?_insert]
  by_cases hij : i = j
  · subst hij
    cases m.classes.find? i <;> simp [@eq_comm _ iri iri']
  · simp [hij]

theorem hasProperty_addSuccessor {k l : Individual} :
    (m.addSuccessor i iri k).hasProperty j iri' l = true ↔
      (i = j ∧ iri = iri' ∧ k = l) ∨ m.hasProperty j iri' l = true := by
  unfold addSuccessor hasProperty
  simp only [SortedMap.find?_insert]
  by_cases hij : i = j
  · subst hij
    cases m.successors.find? i <;> simp [@eq_comm _ iri iri', @eq_comm _ k l]
  · simp [hij]

theorem hasClass_addSuccessor {k : Individual} :
    (m.addSuccessor i iri k).hasClass j iri' = m.hasClass j iri' := rfl

theorem hasProperty_addClass {k : Individual} :
    (m.addClass i iri).hasProperty j iri' k = m.hasProperty j iri' k := rfl

theorem hasProperty_blank {elements : List Individual} {k : Individual} :
    (blank elements).hasProperty j iri k = false := rfl

theorem hasClass_blank {elements : List Individual} : (blank elements).hasClass j iri = false := by
  -- every individual that is entered gets the empty set
  have hfind : ∀ (is : List Individual) (m : SortedMap Individual (SortedSet Iri)),
      (∀ cs, m.find? j = some cs → cs = .empty) →
      ∀ cs, ((is.map fun i => (i, SortedSet.empty)).foldl
        (fun m e => m.insert e.1 e.2) m).find? j = some cs → cs = .empty := by
    intro is
    induction is with
    | nil => exact fun m hm => hm
    | cons i is ih =>
      refine fun m hm => ih _ fun cs hcs => ?_
      rw [SortedMap.find?_insert] at hcs
      split at hcs
      · cases hcs
        rfl
      · exact hm cs hcs
  unfold hasClass
  split
  · next cs hcs =>
    obtain rfl := hfind elements .empty (by simp) cs hcs
    simp
  · rfl

end Model

namespace Context

variable {c c' : Context} {a : Atom} {i j : Individual} {iri : Iri}

/-! ## Reading atoms -/

/-- An atom is read as the membership of an individual in a class. -/
def ReadsClass (c : Context) (a : Atom) (i : Individual) (iri : Iri) : Prop :=
  a.negated = false ∧ c.naming.entity? a.predicate = some (.atomicClass iri) ∧
    a.arguments.mapM c.individual? = some [i]

/-- An atom is read as a property leading from one individual to another. -/
def ReadsProperty (c : Context) (a : Atom) (iri : Iri) (i j : Individual) : Prop :=
  a.negated = false ∧ c.naming.entity? a.predicate = some (.objectProperty iri) ∧
    a.arguments.mapM c.individual? = some [i, j]

/-- Under a projection only the projected classes count. -/
def Projects (projection : Option (SortedSet Iri)) (iri : Iri) : Prop := ∀ p ∈ projection, iri ∈ p

@[simp] theorem projects_none : Projects none iri := fun _ h => nomatch h

@[simp] theorem projects_some {p : SortedSet Iri} : Projects (some p) iri ↔ iri ∈ p := by
  simp [Projects]

variable {projection : Option (SortedSet Iri)}

theorem hasClass_decodeAtom {m : Model} : (c.decodeAtom projection m a).hasClass i iri = true ↔
    (Projects projection iri ∧ c.ReadsClass a i iri) ∨ m.hasClass i iri = true := by
  unfold decodeAtom ReadsClass
  cases hneg : a.negated with
  | true => simp
  | false =>
    simp only [Bool.false_eq_true, if_false, true_and]
    split
    · next iri' x hentity hargs =>
      have hadd : (m.addClass x iri').hasClass i iri = true ↔
          (c.naming.entity? a.predicate = some (.atomicClass iri) ∧
            a.arguments.mapM c.individual? = some [i]) ∨ m.hasClass i iri = true := by
        simp [hentity, hargs, Model.hasClass_addClass, and_comm]
      cases projection with
      | none => simpa using hadd
      | some p =>
        by_cases hp : iri' ∈ p
        · simp only [hp, if_true, projects_some, hadd]
          refine or_congr_left (and_iff_right_of_imp fun h => ?_).symm
          rw [hentity] at h
          cases h.1
          exact hp
        · simp only [hp, if_false, projects_some]
          refine (or_iff_right ?_).symm
          rintro ⟨hiri, h, -⟩
          rw [hentity] at h
          cases h
          exact hp hiri
    · next iri' x y hentity hargs =>
      cases projection <;> simp [hentity, Model.hasClass_addSuccessor]
    · next hclass _ =>
      refine (or_iff_right ?_).symm
      exact fun h => hclass iri i h.2.1 h.2.2

theorem hasProperty_decodeAtom {m : Model} :
    (c.decodeAtom projection m a).hasProperty i iri j = true ↔
      (projection = none ∧ c.ReadsProperty a iri i j) ∨ m.hasProperty i iri j = true := by
  unfold decodeAtom ReadsProperty
  cases hneg : a.negated with
  | true => simp
  | false =>
    simp only [Bool.false_eq_true, if_false, true_and]
    split
    · next iri' x hentity hargs =>
      cases projection with
      | none => simp [hentity, Model.hasProperty_addClass]
      | some p => by_cases hp : iri' ∈ p <;> simp [hp, Model.hasProperty_addClass]
    · next iri' x y hentity hargs =>
      cases projection with
      | none =>
        simp [hentity, hargs, Model.hasProperty_addSuccessor]
        tauto
      | some p => simp
    · next _ hproperty =>
      refine (or_iff_right ?_).symm
      exact fun h => hproperty iri i j h.2.1 h.2.2

theorem hasClass_decode {A : AnswerSet} : (c.decode A projection).hasClass i iri = true ↔
    Projects projection iri ∧ ∃ a ∈ A, c.ReadsClass a i iri := by
  have hfold : ∀ (atoms : List Atom) (m : Model),
      (atoms.foldl (c.decodeAtom projection) m).hasClass i iri = true ↔
        (Projects projection iri ∧ ∃ a ∈ atoms, c.ReadsClass a i iri) ∨
          m.hasClass i iri = true := by
    intro atoms
    induction atoms with
    | nil => simp
    | cons a atoms ih =>
      intro m
      rw [List.foldl_cons, ih, hasClass_decodeAtom, List.exists_mem_cons_iff, ← or_assoc,
        ← and_or_left, @or_comm (∃ _, _)]
  rw [decode, hfold, Model.hasClass_blank]
  simp only [Bool.false_eq_true, or_false]
  rfl

theorem hasProperty_decode {A : AnswerSet} : (c.decode A projection).hasProperty i iri j = true ↔
    projection = none ∧ ∃ a ∈ A, c.ReadsProperty a iri i j := by
  have hfold : ∀ (atoms : List Atom) (m : Model),
      (atoms.foldl (c.decodeAtom projection) m).hasProperty i iri j = true ↔
        (projection = none ∧ ∃ a ∈ atoms, c.ReadsProperty a iri i j) ∨
          m.hasProperty i iri j = true := by
    intro atoms
    induction atoms with
    | nil => simp
    | cons a atoms ih =>
      intro m
      rw [List.foldl_cons, ih, hasProperty_decodeAtom, List.exists_mem_cons_iff, ← or_assoc,
        ← and_or_left, @or_comm (∃ _, _)]
  rw [decode, hfold, Model.hasProperty_blank]
  simp only [Bool.false_eq_true, or_false]
  rfl

/-! ## Decoding answer sets -/

/-- Whether an atom is over a symbol and not an opposite. Only such atoms are read. -/
def IsPlain (a : Atom) : Prop := a.negated = false ∧ NamingScheme.Begins a.predicate

/-- The true plain atoms are those over symbols. -/
theorem mem_truth_iff {I : Evaluation Individual} {F : Set Atom}
    (hF : ∀ f ∈ F, IsSwitch f) (ha : IsPlain a) :
    a ∈ c.truth I ∪ F ↔ ∃ φ, c.States a φ ∧ φ I := by
  constructor
  · rintro (htrue | hf)
    · cases htrue with
      | stated hs h => exact ⟨_, hs, h⟩
      | denied hs h => exact absurd ha.1 (by simp [Atom.complement, hs.negated])
      | defined hd hx h => exact absurd ha.2 (not_begins_auxName _)
    · exact absurd ha.2 (hF a hf).not_begins
  · rintro ⟨φ, hs, h⟩
    exact .inl (.stated hs h)

theorem individual?_constant (hc : c.Ready) {x : Element} (hx : x ∈ c.elements) :
    c.individual? x.constant = some x.individual := by
  rw [individual?, hc.constants x hx]

/-- An atom is read as a membership, or as a property leading somewhere. -/
def IsRead (c : Context) (a : Atom) : Prop :=
  (∃ i iri, c.ReadsClass a i iri) ∨ ∃ iri i j, c.ReadsProperty a iri i j

theorem IsRead.isPlain (hc : c.Ready) (h : c.IsRead a) : IsPlain a := by
  rcases h with ⟨i, iri, hneg, hentity, -⟩ | ⟨iri, i, j, hneg, hentity, -⟩
  · exact ⟨hneg, Naming.begins_of_entity? hc.naming hentity⟩
  · exact ⟨hneg, Naming.begins_of_entity? hc.naming hentity⟩

section Decode

variable (hc : c.Ready) {A : AnswerSet} (hA : ∀ a ∈ A, c.IsRead a → ∃ φ, c.States a φ)

include hc hA

theorem exists_readsClass_iff : (∃ a ∈ A, c.ReadsClass a i iri) ↔
    ∃ s, c.classes.find? iri = some s ∧
      ∃ x ∈ c.elements, x.individual = i ∧ unaryAtom s x ∈ A := by
  constructor
  · rintro ⟨a, ha, hread⟩
    obtain ⟨φ, hs⟩ := hA a ha (.inl ⟨i, iri, hread⟩)
    obtain ⟨-, hentity, hargs⟩ := hread
    cases hs with
    | @member iri' s x hs hx =>
      have hiri := hc.classes iri' s hs
      have hpredicate : (unaryAtom s x).predicate = s := rfl
      rw [hpredicate, hiri] at hentity
      cases hentity
      have harguments : (unaryAtom s x).arguments = [x.constant] := rfl
      simp [harguments, individual?_constant hc hx] at hargs
      exact ⟨s, hs, x, hx, hargs, ha⟩
    | @leads iri' s x y hs hx hy =>
      have hiri := hc.properties iri' s hs
      have hpredicate : (binaryAtom s x y).predicate = s := rfl
      rw [hpredicate, hiri] at hentity
      cases hentity
  · rintro ⟨s, hs, x, hx, rfl, ha⟩
    refine ⟨unaryAtom s x, ha, rfl, hc.classes iri s hs, ?_⟩
    simp [unaryAtom, Atom.positive, individual?_constant hc hx]

theorem exists_readsProperty_iff : (∃ a ∈ A, c.ReadsProperty a iri i j) ↔
    ∃ s, c.properties.find? iri = some s ∧ ∃ x ∈ c.elements, ∃ y ∈ c.elements,
      x.individual = i ∧ y.individual = j ∧ binaryAtom s x y ∈ A := by
  constructor
  · rintro ⟨a, ha, hread⟩
    obtain ⟨φ, hs⟩ := hA a ha (.inr ⟨iri, i, j, hread⟩)
    obtain ⟨-, hentity, hargs⟩ := hread
    cases hs with
    | @member iri' s x hs hx =>
      have hiri := hc.classes iri' s hs
      have hpredicate : (unaryAtom s x).predicate = s := rfl
      rw [hpredicate, hiri] at hentity
      cases hentity
    | @leads iri' s x y hs hx hy =>
      have hiri := hc.properties iri' s hs
      have hpredicate : (binaryAtom s x y).predicate = s := rfl
      rw [hpredicate, hiri] at hentity
      cases hentity
      have harguments : (binaryAtom s x y).arguments = [x.constant, y.constant] := rfl
      simp [harguments, individual?_constant hc hx, individual?_constant hc hy] at hargs
      exact ⟨s, hs, x, hx, y, hy, hargs.1, hargs.2, ha⟩
  · rintro ⟨s, hs, x, hx, y, hy, rfl, rfl, ha⟩
    refine ⟨binaryAtom s x y, ha, rfl, hc.properties iri s hs, ?_⟩
    simp [binaryAtom, Atom.positive, individual?_constant hc hx, individual?_constant hc hy]

/-- The decoding of an answer set, of which only atoms over symbols of classes and properties are
read, is the interpretation that it describes. -/
theorem interpretation_decode :
    (c.decode A none).interpretation c.domain = (c.interpret A.toSet).toInterpretation := by
  simp only [Model.interpretation, interpret, Interpretation.mk.injEq, true_and]
  refine ⟨?_, ?_, ?_⟩
  · exact Set.ext fun i => hc.exists_element_iff.symm
  · funext iri
    ext i
    rw [Set.mem_ofPred_eq, hasClass_decode, and_iff_right projects_none,
      exists_readsClass_iff hc hA]
    rfl
  · funext iri i j
    rw [hasProperty_decode, and_iff_right rfl, exists_readsProperty_iff hc hA]
    rfl

end Decode

/-! ## Answer sets with the same decoding -/

/-- Atoms that are not plain say nothing about a model. -/
theorem decodeAtom_of_not_isPlain (hc : c.Ready) (ha : ¬ IsPlain a) (m : Model) :
    c.decodeAtom projection m a = m := by
  unfold decodeAtom
  cases hneg : a.negated with
  | true => simp
  | false =>
    have hentity : c.naming.entity? a.predicate = none := by
      cases he : c.naming.entity? a.predicate with
      | none => rfl
      | some e => exact absurd ⟨hneg, Naming.begins_of_entity? hc.naming he⟩ ha
    simp [hentity]

/-- Two answer sets have the same decoding if they agree on some atoms, and no other of their atoms
says anything about a model. -/
theorem decode_eq_of_agree {A A' : AnswerSet} {P : Atom → Prop}
    (hA : ∀ a ∈ A, ¬ P a → ∀ m, c.decodeAtom projection m a = m)
    (hA' : ∀ a ∈ A', ¬ P a → ∀ m, c.decodeAtom projection m a = m)
    (h : ∀ a, P a → (a ∈ A ↔ a ∈ A')) : c.decode A projection = c.decode A' projection := by
  classical
  -- sorted sets with the same such atoms list them in the same order
  have hsame : A.atoms.filter (fun a => decide (P a)) = A'.atoms.filter fun a => decide (P a) := by
    apply SortedSet.ext
    intro a
    simp only [SortedSet.mem_filter, decide_eq_true_eq]
    exact and_congr_left (h a)
  have hfold : ∀ atoms : List Atom,
      (∀ a ∈ atoms, ¬ P a → ∀ m, c.decodeAtom projection m a = m) →
      ∀ m, atoms.foldl (c.decodeAtom projection) m =
        (atoms.filter fun a => decide (P a)).foldl (c.decodeAtom projection) m := by
    intro atoms
    induction atoms with
    | nil => exact fun _ _ => rfl
    | cons a atoms ih =>
      intro hskip m
      obtain ⟨ha, hskip⟩ := List.forall_mem_cons.1 hskip
      by_cases hP : P a
      · rw [List.filter_cons_of_pos (by simpa using hP), List.foldl_cons, List.foldl_cons,
          ih hskip]
      · rw [List.filter_cons_of_neg (by simpa using hP), List.foldl_cons, ha hP, ih hskip]
  rw [decode, decode, hfold A.atoms.toList hA, hfold A'.atoms.toList hA']
  exact congrArg (List.foldl _ _) (congrArg SortedSet.toList hsame)

/-- Two answer sets with the same plain atoms have the same decoding in contexts with the same
symbols. -/
theorem decode_congr (hc : c.Ready) (hdomain : c'.domain.elements = c.domain.elements)
    (hnaming : c'.naming = c.naming) {A A' : AnswerSet} (h : ∀ a, IsPlain a → (a ∈ A ↔ a ∈ A')) :
    c'.decode A' projection = c.decode A projection := by
  have hindividual : c'.individual? = c.individual? := by
    funext constant
    rw [individual?, individual?, hnaming]
  have hdecodeAtom : c'.decodeAtom projection = c.decodeAtom projection := by
    funext m a
    rw [decodeAtom, decodeAtom, hnaming, hindividual]
  have hdecode : c'.decode A' projection = c.decode A' projection := by
    rw [decode, decode, hdecodeAtom, hdomain]
  rw [hdecode]
  exact decode_eq_of_agree (fun a _ ha => decodeAtom_of_not_isPlain hc ha)
    (fun a _ ha => decodeAtom_of_not_isPlain hc ha) fun a ha => (h a ha).symm

/-! ## Observable atoms -/

theorem mem_observableAtoms_iff : a ∈ c.observableAtoms projection ↔
    (∃ iri s, c.classes.find? iri = some s ∧ Projects projection iri ∧
      ∃ x ∈ c.elements, a = unaryAtom s x) ∨
    (projection = none ∧ ∃ iri s, c.properties.find? iri = some s ∧
      ∃ x ∈ c.elements, ∃ y ∈ c.elements, a = binaryAtom s x y) := by
  cases projection <;>
    simp [observableAtoms, SortedMap.mem_entries_iff, @eq_comm _ _ a, and_assoc]

/-- Observable atoms state something. -/
theorem exists_states_of_mem_observableAtoms (h : a ∈ c.observableAtoms projection) :
    ∃ φ, c.States a φ := by
  rcases mem_observableAtoms_iff.1 h with
    ⟨iri, s, hs, -, x, hx, rfl⟩ | ⟨-, iri, s, hs, x, hx, y, hy, rfl⟩
  · exact ⟨_, .member hs hx⟩
  · exact ⟨_, .leads hs hx hy⟩

/-- Atoms that state something but are not observable are passed over. -/
theorem States.decodeAtom_eq (hc : c.Ready) {φ : Sentence} (ha : c.States a φ)
    (hout : a ∉ c.observableAtoms projection) (m : Model) : c.decodeAtom projection m a = m := by
  rw [mem_observableAtoms_iff] at hout
  cases ha with
  | @member iri s x hs hx =>
    cases projection with
    | none => exact absurd (.inl ⟨iri, s, hs, projects_none, x, hx, rfl⟩) hout
    | some p =>
      have hp : iri ∉ p := fun hp => hout (.inl ⟨iri, s, hs, projects_some.2 hp, x, hx, rfl⟩)
      simp [decodeAtom, unaryAtom, Atom.positive, hc.classes iri s hs, individual?_constant hc hx, hp]
  | @leads iri s x y hs hx hy =>
    cases projection with
    | none => exact absurd (.inr ⟨rfl, iri, s, hs, x, hx, y, hy, rfl⟩) hout
    | some p =>
      simp [decodeAtom, binaryAtom, Atom.positive, hc.properties iri s hs,
        individual?_constant hc hx, individual?_constant hc hy]

/-- The decoding has a projected class at an element if the answer set has the atom for it. -/
theorem mem_iff_hasClass_decode (hc : c.Ready) {A : AnswerSet}
    (hA : ∀ a ∈ A, IsPlain a → ∃ φ, c.States a φ) (hp : Projects projection iri) {s : String}
    (hs : c.classes.find? iri = some s) {x : Element} (hx : x ∈ c.elements) :
    unaryAtom s x ∈ A ↔ (c.decode A projection).hasClass x.individual iri = true := by
  rw [hasClass_decode, exists_readsClass_iff hc fun a ha h => hA a ha (h.isPlain hc), and_iff_right hp]
  constructor
  · exact fun hmem => ⟨s, hs, x, hx, rfl, hmem⟩
  · rintro ⟨s', hs', x', hx', heq, hmem⟩
    obtain rfl := hc.eq_of_individual_eq hx' hx heq
    rw [hs] at hs'
    cases hs'
    exact hmem

theorem mem_iff_hasProperty_decode (hc : c.Ready) {A : AnswerSet}
    (hA : ∀ a ∈ A, IsPlain a → ∃ φ, c.States a φ) {s : String}
    (hs : c.properties.find? iri = some s) {x y : Element} (hx : x ∈ c.elements)
    (hy : y ∈ c.elements) : binaryAtom s x y ∈ A ↔
      (c.decode A none).hasProperty x.individual iri y.individual = true := by
  rw [hasProperty_decode, exists_readsProperty_iff hc fun a ha h => hA a ha (h.isPlain hc),
    and_iff_right rfl]
  constructor
  · exact fun hmem => ⟨s, hs, x, hx, y, hy, rfl, rfl, hmem⟩
  · rintro ⟨s', hs', x', hx', y', hy', hxx, hyy, hmem⟩
    obtain rfl := hc.eq_of_individual_eq hx' hx hxx
    obtain rfl := hc.eq_of_individual_eq hy' hy hyy
    rw [hs] at hs'
    cases hs'
    exact hmem

/-- Answer sets, whose plain atoms are over symbols of classes and properties, have the same decoding
exactly if they agree on the observable atoms. -/
theorem decode_eq_iff (hc : c.Ready) {A A' : AnswerSet}
    (hA : ∀ a ∈ A, IsPlain a → ∃ φ, c.States a φ) (hA' : ∀ a ∈ A', IsPlain a → ∃ φ, c.States a φ) :
    c.decode A projection = c.decode A' projection ↔
      ∀ a ∈ c.observableAtoms projection, (a ∈ A ↔ a ∈ A') := by
  constructor
  · intro h a ha
    rcases mem_observableAtoms_iff.1 ha with
      ⟨iri, s, hs, hp, x, hx, rfl⟩ | ⟨rfl, iri, s, hs, x, hx, y, hy, rfl⟩
    · rw [mem_iff_hasClass_decode hc hA hp hs hx, mem_iff_hasClass_decode hc hA' hp hs hx, h]
    · rw [mem_iff_hasProperty_decode hc hA hs hx hy, mem_iff_hasProperty_decode hc hA' hs hx hy, h]
  · -- what is not observable is passed over
    intro h
    have hskip : ∀ B : AnswerSet, (∀ a ∈ B, IsPlain a → ∃ φ, c.States a φ) → ∀ a ∈ B,
        a ∉ c.observableAtoms projection → ∀ m, c.decodeAtom projection m a = m := by
      intro B hB a ha hout
      by_cases hplain : IsPlain a
      · obtain ⟨φ, hs⟩ := hB a ha hplain
        exact hs.decodeAtom_eq hc hout
      · exact decodeAtom_of_not_isPlain hc hplain
    exact decode_eq_of_agree (hskip A hA) (hskip A' hA') h

end Context

end FixedDomain
