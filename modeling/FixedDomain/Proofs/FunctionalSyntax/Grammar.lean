import FixedDomain.Proofs.FunctionalSyntax.Tracing
import FixedDomain.Proofs.Interpretation

/-! # Expressions are read alike in every document

Under short names that stand for the same namespaces, the same words are read as the same expressions
and axioms, and these have the shape that they are written in (`traces_axiomArguments`).
-/

namespace FixedDomain.FunctionalSyntax

open ClassExpression

variable {α : Type}

/-! ## Names -/

/-- Short names stand for texts that can be part of a name. -/
def Namespaces.IsSound (ns : Namespaces) : Prop :=
  ∀ name, ∀ space ∈ ns.find? name, IsBracketable space

/-- Short names stand for the same in both documents. -/
def Namespaces.SameNames (ns ns' : Namespaces) : Prop := ∀ name, ns'.find? name = ns.find? name

section Names

variable {ns ns' : Namespaces} (hns : ns.IsSound) (hsame : ns.SameNames ns')

include hns

/-- A short name is resolved to a name that can be written, or it is rejected. -/
theorem expand_cases {name : String} (hname : (Token.prefixedName name).IsSound) :
    (∃ iri : Iri, IsBracketable iri.text ∧ ∀ ns', ns.SameNames ns' → expand ns' name = pure iri) ∨
      ∃ f, expand ns name = fault f := by
  obtain ⟨first, second, hfirst, hsecond, rfl⟩ := hname
  have hlocal : IsBracketable second := fun c hc => isIriChar_of_isNameChar (hsecond c hc)
  have hsplit := splitName_of_isPrefixName hfirst second
  by_cases hanonymous : first = "_"
  · refine .inl ⟨⟨first ++ ":" ++ second⟩, ?_, fun ns' _ => ?_⟩
    · subst hanonymous
      have hprefix : IsBracketable "_:" := by decide
      exact hprefix.append hlocal
    · rw [expand, hsplit]
      exact if_pos hanonymous
  · cases hfind : ns.find? first with
    | none => exact .inr ⟨.unknownPrefix first, by simp [expand, hsplit, hanonymous, hfind]⟩
    | some space =>
      refine .inl ⟨⟨space ++ second⟩, (hns first space hfind).append hlocal, fun ns' hsame => ?_⟩
      simp [expand, hsplit, hanonymous, hsame first, hfind]

/-- Whether an IRI comes next depends on the next word. -/
theorem iri?_cases {left : List Located} (hsound : Sound left) :
    (∃ t rest, ∃ iri : Iri, left = t :: rest ∧ IsBracketable iri.text ∧ Balanced [t] ∧
      ∀ ns' t' left', ns.SameNames ns' → t'.token = t.token →
        iri? ns' (t' :: left') = .ok (some iri, left')) ∨
    (∀ ns' left', left'.head?.map (·.token) = left.head?.map (·.token) →
      iri? ns' left' = .ok (none, left')) ∨
    ∃ f, iri? ns left = .error (.malformed left f) := by
  -- nothing but a name is an IRI
  have hnone : ∀ next : Option Token, (∀ text, next ≠ some (.fullIri text)) →
      (∀ name, next ≠ some (.prefixedName name)) → ∀ ns' (left' : List Located),
        left'.head?.map (·.token) = next → iri? ns' left' = .ok (none, left') := by
    intro next hfull hshort ns' left' hnext
    rw [iri?, bind_of_ok (peek_apply left'), hnext]
    split
    · next text => exact absurd rfl (hfull text)
    · next name => exact absurd rfl (hshort name)
    · rfl
  cases left with
  | nil => exact .inr (.inl (hnone _ (by simp) (by simp)))
  | cons t rest =>
    have ht := hsound t List.mem_cons_self
    cases hword : t.token with
    | fullIri text =>
      rw [hword] at ht
      refine .inl ⟨t, rest, ⟨text⟩, rfl, ht, balanced_singleton (by simp [hword]) (by simp [hword]),
        fun ns' t' left' _ ht' => ?_⟩
      rw [iri?, bind_of_ok (peek_cons t' left'), ht', hword]
      rfl
    | prefixedName name =>
      rw [hword] at ht
      rcases expand_cases hns ht with ⟨iri, hiri, hexpand⟩ | ⟨f, hexpand⟩
      · refine .inl ⟨t, rest, iri, rfl, hiri, balanced_singleton (by simp [hword]) (by simp [hword]),
          fun ns' t' left' hsame ht' => ?_⟩
        rw [iri?, bind_of_ok (peek_cons t' left'), ht', hword]
        dsimp only
        rw [hexpand ns' hsame]
        rfl
      · refine .inr (.inr ⟨f, ?_⟩)
        rw [iri?, bind_of_ok (peek_cons t rest), hword]
        dsimp only
        rw [hexpand]
        rfl
    | _ => exact .inr (.inl (hnone _ (by simp [hword]) (by simp [hword])))

include hsame

/-- An IRI, or what else can stand in its place. -/
theorem Traces.orIri {k : Nat} {m : Reading α} {m' : Nat → Reading α} {Q : α → Prop}
    (h : Traces k 1 m m' Q) (g : Iri → α) (hg : ∀ iri : Iri, IsBracketable iri.text → Q (g iri)) :
    Traces k 1
      (do match ← iri? ns with
          | some iri => Pure.pure (g iri)
          | none => m)
      (fun n => do
        match ← iri? ns' with
        | some iri => Pure.pure (g iri)
        | none => m' n) Q where
  ok {left rest a} hsound hm := by
    rcases iri?_cases hns hsound with ⟨t, rest', iri, rfl, hiri, hbalanced, hread⟩ | hnone | ⟨f, hfault⟩
    · rw [bind_of_ok (hread ns t rest' (fun _ => rfl) rfl)] at hm
      obtain ⟨rfl, rfl⟩ := Prod.mk.inj (Except.ok.inj hm)
      refine ⟨hg iri hiri, [t], rfl, Nat.le_refl 1, hbalanced, fun used' rest₂ steps hahead _ => ?_⟩
      obtain ⟨t', nothing, rfl, ht', hnothing⟩ := hahead.cons
      obtain rfl := List.map_eq_nil_iff.1 hnothing.used
      exact bind_of_ok (hread ns' t' rest₂ hsame ht')
    · rw [bind_of_ok (hnone ns left rfl)] at hm
      obtain ⟨ha, used, rfl, hw, hbalanced, hreplay⟩ := h.ok hsound hm
      refine ⟨ha, used, rfl, hw, hbalanced, fun used' rest' steps hahead hsteps => ?_⟩
      rw [bind_of_ok (hnone ns' _ hahead.head)]
      exact hreplay used' rest' steps hahead hsteps
    · rw [bind_apply, hfault] at hm
      cases hm
  unsupported {left construct} hsound hm := by
    rcases iri?_cases hns hsound with ⟨t, rest', iri, rfl, hiri, hbalanced, hread⟩ | hnone | ⟨f, hfault⟩
    · rw [bind_of_ok (hread ns t rest' (fun _ => rfl) rfl)] at hm
      cases hm
    · rw [bind_of_ok (hnone ns left rfl)] at hm
      obtain ⟨used, rest, rfl, hopen, hreplay⟩ := h.unsupported hsound hm
      refine ⟨used, rest, rfl, hopen, fun used' rest' steps hahead hsteps => ?_⟩
      rw [bind_of_ok (hnone ns' _ hahead.head)]
      exact hreplay used' rest' steps hahead hsteps
    · rw [bind_apply, hfault] at hm
      cases hm

theorem traces_iriOr (k : Nat) (missing : SyntaxFault) :
    Traces k 1 (iriOr missing ns) (fun _ => iriOr missing ns') (fun iri => IsBracketable iri.text) := by
  have hmissing : Traces k 1 (fault missing) (fun _ => fault missing)
      (fun iri : Iri => IsBracketable iri.text) :=
    .fault missing
  exact .orIri hns hsame hmissing id fun _ h => h

theorem traces_individual (k : Nat) :
    Traces k 1 (individual ns) (fun _ => individual ns') (fun i => IsBracketable i.iri.text) :=
  (traces_iriOr hns hsame k .expectedIndividual).map Individual.mk fun _ h => h

theorem traces_individuals (k steps least : Nat) :
    Traces (k + 1) 0 (individuals ns steps least) (individuals ns' · least)
      (fun is => least ≤ is.length ∧ ∀ i ∈ is, IsBracketable i.iri.text) :=
  (Traces.untilClosed (traces_individual hns hsame k) steps).checkCount least .tooFewIndividuals

end Names

/-! ## Roles -/

/-- A role that does not begin with a name, given the next word. -/
def roleAt (ns : Namespaces) (steps : Nat) : Option Token → Reading Role
  | some (.keyword "ObjectInverseOf") => do
    skip
    expect .leftParen
    let inner ← role ns steps
    expect .rightParen
    pure inner.inverse
  | some (.keyword other) => unsupported other
  | _ => fault .expectedPropertyExpression

theorem role_succ (ns : Namespaces) (steps : Nat) :
    role ns (steps + 1) = (do
      match ← iri? ns with
      | some iri => pure (.named iri)
      | none => peek >>= roleAt ns steps) := by
  rw [role]
  rfl

section Roles

variable {ns ns' : Namespaces} (hns : ns.IsSound) (hsame : ns.SameNames ns')

include hns hsame

theorem traces_role (steps : Nat) :
    Traces 1 1 (role ns steps) (role ns') (fun r => IsBracketable r.property.text) := by
  induction steps with
  | zero => exact .fault _
  | succ steps ih =>
    have hgroup : Traces 3 0
        (do expect .leftParen; let inner ← role ns steps; expect .rightParen; pure inner.inverse)
        (fun n => do
          expect .leftParen; let inner ← role ns' n; expect .rightParen; pure inner.inverse)
        (fun r => IsBracketable r.property.text) :=
      ((ih.mono (by decide) (Nat.le_refl 1)).parens Role.inverse fun r hr => by simpa using hr).mono
        (Nat.le_refl 3) (Nat.zero_le _)
    have hat : Traces 0 1 (peek >>= roleAt ns steps) (fun n => peek >>= roleAt ns' n)
        (fun r => IsBracketable r.property.text) := .peek fun next => by
      unfold roleAt
      split
      · exact .take (by simp) (by simp) hgroup
      · exact .stay (.unsupported' _)
      · exact .stay (.fault _)
    rw [role_succ]
    exact (Traces.orIri hns hsame hat Role.named fun _ h => h).succ fun n => role_succ ns' n

theorem traces_roles (steps least : Nat) :
    Traces 2 0 (roles ns steps least) (roles ns' · least)
      (fun rs => least ≤ rs.length ∧ ∀ r ∈ rs, IsBracketable r.property.text) :=
  (Traces.untilClosed (traces_role hns hsame steps) steps).checkCount least .tooFewPropertyExpressions

end Roles

/-! ## Class expressions -/

/-- What is read has its shape, and its names can stand between angle brackets. -/
def IsFit (shaped : Prop) (vocabulary : List Entity) : Prop :=
  shaped ∧ ∀ e ∈ vocabulary, IsBracketable e.iri.text

/-- A class expression that does not begin with a name, given the next word. -/
def classAt (ns : Namespaces) (steps : Nat) : Option Token → Reading ClassExpression
  | some (.keyword kind) => do
    skip
    expect .leftParen
    let expression ← construct ns kind steps
    expect .rightParen
    pure expression
  | _ => fault .expectedClassExpression

theorem classExpression_succ (ns : Namespaces) (steps : Nat) :
    classExpression ns (steps + 1) = (do
      match ← iri? ns with
      | some iri => pure (.ofIri iri)
      | none => peek >>= classAt ns steps) := by
  rw [classExpression]
  rfl

theorem traces_cardinality (k : Nat) :
    Traces k 1 cardinality (fun _ => cardinality) (fun _ => True) := by
  unfold cardinality
  refine .peek fun next => ?_
  split
  · dsimp only
    split
    · exact .take (by simp) (by simp) (.pure trivial)
    · exact .stay (.fault _)
  · exact .stay (.fault _)

theorem isFit_ofIri {iri : Iri} (h : IsBracketable iri.text) :
    IsFit (ClassExpression.ofIri iri).IsShaped (ClassExpression.ofIri iri).vocabulary := by
  unfold ClassExpression.ofIri
  split
  · simp [IsFit, IsShaped, vocabulary]
  · split
    · simp [IsFit, IsShaped, vocabulary]
    · next hthing hnothing => exact ⟨⟨hthing, hnothing⟩, by simpa [vocabulary, Entity.iri] using h⟩

/-- What holds of the steps for class expressions that are given so many steps. -/
structure TracesClasses (ns ns' : Namespaces) (steps : Nat) : Prop where
  classExpression : Traces 1 1 (classExpression ns steps) (classExpression ns')
    (fun c => IsFit c.IsShaped c.vocabulary)
  construct : ∀ kind, Traces 6 0 (construct ns kind steps) (construct ns' kind)
    (fun c => IsFit c.IsShaped c.vocabulary)
  filler : Traces 2 0 (filler ns steps) (filler ns')
    (fun c => IsFit (IsShapedFiller c) (vocabularyFiller c))
  classExpressions : ∀ least, Traces 5 0 (classExpressions ns least steps) (classExpressions ns' least)
    (fun cs => least ≤ cs.length ∧ IsFit (IsShapedList cs) (vocabularyList cs))
  untilClosed : Traces 4 0 (classExpressionsUntilClosed ns steps) (classExpressionsUntilClosed ns')
    (fun cs => IsFit (IsShapedList cs) (vocabularyList cs))

section Classes

variable {ns ns' : Namespaces} (hns : ns.IsSound) (hsame : ns.SameNames ns') {steps : Nat}

theorem TracesClasses.classExpressions_succ (h : TracesClasses ns ns' steps) (least : Nat) :
    Traces 5 0 (FunctionalSyntax.classExpressions ns least (steps + 1))
      (FunctionalSyntax.classExpressions ns' least)
      (fun cs => least ≤ cs.length ∧ IsFit (IsShapedList cs) (vocabularyList cs)) := by
  rw [FunctionalSyntax.classExpressions]
  exact (h.untilClosed.checkCount least .tooFewClassExpressions).succ fun n => by
    rw [FunctionalSyntax.classExpressions]

theorem TracesClasses.untilClosed_succ (h : TracesClasses ns ns' steps) :
    Traces 4 0 (classExpressionsUntilClosed ns (steps + 1)) (classExpressionsUntilClosed ns')
      (fun cs => IsFit (IsShapedList cs) (vocabularyList cs)) := by
  have hitems := Traces.bind (k := 3) (v := 0)
    (g := fun n c => do let cs ← classExpressionsUntilClosed ns' n; pure (c :: cs))
    (h.classExpression.mono (by decide) (Nat.le_refl 1)) fun c hc =>
      (h.untilClosed.mono (by decide) (Nat.le_refl 0)).map
        (Q := fun cs => IsFit (IsShapedList cs) (vocabularyList cs)) (c :: ·) fun cs hcs =>
          ⟨⟨hc.1, hcs.1⟩, List.forall_mem_append.2 ⟨hc.2, hcs.2⟩⟩
  rw [classExpressionsUntilClosed]
  exact (Traces.ifClosed (P := fun cs => IsFit (IsShapedList cs) (vocabularyList cs))
    (by simp [IsFit, IsShapedList, vocabularyList]) (hitems.mono (Nat.le_refl 3) (Nat.zero_le _))).succ fun n => by
    rw [classExpressionsUntilClosed]

theorem TracesClasses.filler_succ (h : TracesClasses ns ns' steps) :
    Traces 2 0 (FunctionalSyntax.filler ns (steps + 1)) (FunctionalSyntax.filler ns')
      (fun c => IsFit (IsShapedFiller c) (vocabularyFiller c)) := by
  have hsome := (h.classExpression.mono (Nat.le_refl 1) (Nat.zero_le 1)).map
    (Q := fun c => IsFit (IsShapedFiller c) (vocabularyFiller c)) some fun _ hc => hc
  rw [FunctionalSyntax.filler]
  exact (Traces.ifClosed (P := fun c => IsFit (IsShapedFiller c) (vocabularyFiller c))
    (by simp [IsFit, IsShapedFiller, vocabularyFiller]) hsome).succ fun n => by rw [FunctionalSyntax.filler]

include hns hsame

theorem TracesClasses.classExpression_succ (h : TracesClasses ns ns' steps) :
    Traces 1 1 (FunctionalSyntax.classExpression ns (steps + 1)) (FunctionalSyntax.classExpression ns')
      (fun c => IsFit c.IsShaped c.vocabulary) := by
  have hat : Traces 0 1 (peek >>= classAt ns steps) (fun n => peek >>= classAt ns' n)
      (fun c => IsFit c.IsShaped c.vocabulary) := .peek fun next => by
    unfold classAt
    split
    · next kind =>
      have hgroup := ((h.construct kind).parens (k := 3)
        (Q := fun c => IsFit c.IsShaped c.vocabulary) id fun _ hc => hc).mono
        (Nat.le_refl 3) (Nat.zero_le _)
      exact .take (by simp) (by simp) hgroup
    · exact .stay (.fault _)
  rw [FunctionalSyntax.classExpression_succ]
  exact (Traces.orIri hns hsame hat ClassExpression.ofIri fun _ => isFit_ofIri).succ fun n =>
    FunctionalSyntax.classExpression_succ ns' n

theorem TracesClasses.construct_succ (h : TracesClasses ns ns' steps) (kind : String) :
    Traces 6 0 (FunctionalSyntax.construct ns kind (steps + 1)) (FunctionalSyntax.construct ns' kind)
      (fun c => IsFit c.IsShaped c.vocabulary) := by
  suffices hstep : Traces 5 0 (FunctionalSyntax.construct ns kind (steps + 1))
      (fun n => FunctionalSyntax.construct ns' kind (n + 1)) (fun c => IsFit c.IsShaped c.vocabulary) from
    hstep.succ fun _ => rfl
  have hrole := (traces_role hns hsame steps).mono (j := 5) (by decide) (Nat.zero_le 1)
  have hclass := h.classExpression.mono (j := 5) (by decide) (Nat.zero_le 1)
  have hindividual := (traces_individual hns hsame 5).mono (Nat.le_refl 5) (Nat.zero_le 1)
  have hcardinality := (traces_cardinality 5).mono (Nat.le_refl 5) (Nat.zero_le 1)
  have hfiller := h.filler.mono (j := 5) (by decide) (Nat.le_refl 0)
  have hrestriction : ∀ {r : Role} {es : List Entity}, IsBracketable r.property.text →
      (∀ e ∈ es, IsBracketable e.iri.text) →
      ∀ e ∈ .objectProperty r.property :: es, IsBracketable e.iri.text :=
    fun hr hes => List.forall_mem_cons.2 ⟨hr, hes⟩
  unfold FunctionalSyntax.construct
  split
  · exact (h.classExpressions 2).map intersectionOf fun cs hcs => ⟨⟨hcs.1, hcs.2.1⟩, hcs.2.2⟩
  · exact (h.classExpressions 2).map unionOf fun cs hcs => ⟨⟨hcs.1, hcs.2.1⟩, hcs.2.2⟩
  · exact hclass.map complementOf fun c hc => hc
  · exact (traces_individuals hns hsame 4 steps 1).map oneOf fun is his =>
      ⟨his.1, by simpa [vocabulary, Entity.iri] using his.2⟩
  · exact hrole.pair hclass someValuesFrom fun r c hr hc => ⟨hc.1, hrestriction hr hc.2⟩
  · exact hrole.pair hclass allValuesFrom fun r c hr hc => ⟨hc.1, hrestriction hr hc.2⟩
  · exact hrole.pair hindividual hasValue fun r i hr hi =>
      ⟨trivial, hrestriction hr (List.forall_mem_singleton.2 hi)⟩
  · exact hrole.map hasSelf fun r hr => ⟨trivial, List.forall_mem_singleton.2 hr⟩
  · exact hcardinality.triple hrole hfiller minCardinality fun n r c _ hr hc =>
      ⟨hc.1, hrestriction hr hc.2⟩
  · exact hcardinality.triple hrole hfiller maxCardinality fun n r c _ hr hc =>
      ⟨hc.1, hrestriction hr hc.2⟩
  · exact hcardinality.triple hrole hfiller exactCardinality fun n r c _ hr hc =>
      ⟨hc.1, hrestriction hr hc.2⟩
  · exact .unsupported' _

theorem tracesClasses (steps : Nat) : TracesClasses ns ns' steps := by
  induction steps with
  | zero =>
    exact ⟨.fault _, fun _ => .fault _, .fault _, fun _ => .fault _, .fault _⟩
  | succ steps ih =>
    exact ⟨ih.classExpression_succ hns hsame, ih.construct_succ hns hsame, ih.filler_succ,
      ih.classExpressions_succ, ih.untilClosed_succ⟩

end Classes

/-! ## Axioms -/

theorem bracketable_rolesVocabulary {rs : List Role} (h : ∀ r ∈ rs, IsBracketable r.property.text) :
    ∀ e ∈ Axiom.rolesVocabulary rs, IsBracketable e.iri.text := by
  simpa [Axiom.rolesVocabulary, Entity.iri] using h

theorem bracketable_individualsVocabulary {is : List Individual}
    (h : ∀ i ∈ is, IsBracketable i.iri.text) :
    ∀ e ∈ Axiom.individualsVocabulary is, IsBracketable e.iri.text := by
  simpa [Axiom.individualsVocabulary, Entity.iri] using h

/-- The same words are read as the same axiom, or have the same unsupported construct in them. -/
theorem traces_axiomArguments {ns ns' : Namespaces} (hns : ns.IsSound) (hsame : ns.SameNames ns')
    (steps : Nat) (kind : String) :
    Traces 5 0 (axiomArguments ns steps kind) (axiomArguments ns' · kind)
      (fun a => a.IsSupported ∧ IsFit a.IsShaped a.vocabulary) := by
  have hclasses := tracesClasses hns hsame steps
  have hclass := hclasses.classExpression.mono (j := 5) (by decide) (Nat.zero_le 1)
  have hrole := (traces_role hns hsame steps).mono (j := 5) (by decide) (Nat.zero_le 1)
  have hindividual := (traces_individual hns hsame 5).mono (Nat.le_refl 5) (Nat.zero_le 1)
  have hindividuals := traces_individuals hns hsame 4 steps 2
  have hroles := (traces_roles hns hsame steps 2).mono (j := 5) (by decide) (Nat.le_refl 0)
  have hiri := (traces_iriOr hns hsame 5 .expectedIri).mono (Nat.le_refl 5) (Nat.zero_le 1)
  have htwo : ∀ {es es' : List Entity}, (∀ e ∈ es, IsBracketable e.iri.text) →
      (∀ e ∈ es', IsBracketable e.iri.text) → ∀ e ∈ es ++ es', IsBracketable e.iri.text :=
    fun h h' => List.forall_mem_append.2 ⟨h, h'⟩
  have hroleAxiom : ∀ {r : Role}, IsBracketable r.property.text →
      ∀ e ∈ Axiom.rolesVocabulary [r], IsBracketable e.iri.text :=
    fun hr => bracketable_rolesVocabulary (List.forall_mem_singleton.2 hr)
  have hassertion : ∀ {r : Role} {i j : Individual}, IsBracketable r.property.text →
      IsBracketable i.iri.text → IsBracketable j.iri.text →
      ∀ e ∈ Axiom.rolesVocabulary [r] ++ Axiom.individualsVocabulary [i, j], IsBracketable e.iri.text :=
    fun hr hi hj => htwo (hroleAxiom hr) (bracketable_individualsVocabulary (by simp [hi, hj]))
  unfold axiomArguments
  dsimp only
  split
  · exact hclass.pair hclass Axiom.subClassOf fun c d hc hd =>
      ⟨trivial, ⟨hc.1, hd.1⟩, htwo hc.2 hd.2⟩
  · exact (hclasses.classExpressions 2).map Axiom.equivalentClasses fun cs hcs =>
      ⟨trivial, ⟨hcs.1, hcs.2.1⟩, hcs.2.2⟩
  · exact (hclasses.classExpressions 2).map Axiom.disjointClasses fun cs hcs =>
      ⟨trivial, ⟨hcs.1, hcs.2.1⟩, hcs.2.2⟩
  · exact hiri.pair (hclasses.classExpressions 2) Axiom.disjointUnion fun whole cs hwhole hcs =>
      ⟨trivial, ⟨hcs.1, hcs.2.1⟩, List.forall_mem_cons.2 ⟨hwhole, hcs.2.2⟩⟩
  · exact hrole.pair hrole Axiom.subObjectPropertyOf fun r s hr hs =>
      ⟨trivial, trivial, bracketable_rolesVocabulary (by simp [hr, hs])⟩
  · exact hroles.map Axiom.equivalentObjectProperties fun rs hrs =>
      ⟨trivial, hrs.1, bracketable_rolesVocabulary hrs.2⟩
  · exact hroles.map Axiom.disjointObjectProperties fun rs hrs =>
      ⟨trivial, hrs.1, bracketable_rolesVocabulary hrs.2⟩
  · exact hrole.pair hrole Axiom.inverseObjectProperties fun r s hr hs =>
      ⟨trivial, trivial, bracketable_rolesVocabulary (by simp [hr, hs])⟩
  · exact hrole.pair hclass Axiom.objectPropertyDomain fun r c hr hc =>
      ⟨trivial, hc.1, htwo (hroleAxiom hr) hc.2⟩
  · exact hrole.pair hclass Axiom.objectPropertyRange fun r c hr hc =>
      ⟨trivial, hc.1, htwo (hroleAxiom hr) hc.2⟩
  · exact hrole.map Axiom.functionalObjectProperty fun r hr => ⟨trivial, trivial, hroleAxiom hr⟩
  · exact hrole.map Axiom.inverseFunctionalObjectProperty fun r hr => ⟨trivial, trivial, hroleAxiom hr⟩
  · exact hrole.map Axiom.reflexiveObjectProperty fun r hr => ⟨trivial, trivial, hroleAxiom hr⟩
  · exact hrole.map Axiom.irreflexiveObjectProperty fun r hr => ⟨trivial, trivial, hroleAxiom hr⟩
  · exact hrole.map Axiom.symmetricObjectProperty fun r hr => ⟨trivial, trivial, hroleAxiom hr⟩
  · exact hrole.map Axiom.asymmetricObjectProperty fun r hr => ⟨trivial, trivial, hroleAxiom hr⟩
  · exact hrole.map Axiom.transitiveObjectProperty fun r hr => ⟨trivial, trivial, hroleAxiom hr⟩
  · exact hindividuals.map Axiom.sameIndividual fun is his =>
      ⟨trivial, his.1, bracketable_individualsVocabulary his.2⟩
  · exact hindividuals.map Axiom.differentIndividuals fun is his =>
      ⟨trivial, his.1, bracketable_individualsVocabulary his.2⟩
  · exact hclass.pair hindividual Axiom.classAssertion fun c i hc hi =>
      ⟨trivial, hc.1, htwo hc.2 (bracketable_individualsVocabulary (by simp [hi]))⟩
  · exact hrole.triple hindividual hindividual Axiom.objectPropertyAssertion fun r i j hr hi hj =>
      ⟨trivial, trivial, hassertion hr hi hj⟩
  · exact hrole.triple hindividual hindividual Axiom.negativeObjectPropertyAssertion
      fun r i j hr hi hj => ⟨trivial, trivial, hassertion hr hi hj⟩
  · exact .unsupported' _

end FixedDomain.FunctionalSyntax
