import FixedDomain.Proofs.AnswerSet.Disjunctive
import FixedDomain.Proofs.AnswerSet.Exactness
import FixedDomain.Proofs.Grounding.Orderly
import FixedDomain.Proofs.Model

/-! # Bodies in programs of any kind

What the bodies for a class expression say in an answer set, whatever else the program is about.

* `IsSupportedModel` — what answer sets have in common, be they of the shifted or of the disjunctive
  program.
* `ReliesOn` — the atoms of some bodies, and those of the definitions that they lead to.
* `Hosts` — a program has the totality and auxiliary rules for these atoms, and no auxiliary rule
  that has not been emitted. It may have any other rules.
* `Context.Tells` — in the answer sets of such programs one of some bodies is true exactly when a
  statement about the decoded interpretation is.

An answer set of a program that hosts some bodies need not describe an evaluation, since there may
be symbols that are not total and auxiliary predicates that are not defined. But on the atoms on which
the bodies rely it agrees with the true atoms of the evaluation that it is decoded to
(`Context.mem_iff_of_reliesOn`), definition by definition.
-/

namespace FixedDomain

/-! ## Bodies and their atoms -/

section

variable {S T : Set Atom}

theorem Literal.inCondition_congr {gains : Bool} {l : Literal}
    (h : ∀ a ∈ l.atoms, (a ∈ S ↔ a ∈ T)) :
    l.InCondition gains S S ↔ l.InCondition gains T T := by
  cases l with
  | pos a => cases gains <;> exact h a (by simp [Literal.atoms])
  | not a => exact not_congr (h a (by simp [Literal.atoms]))
  | count es op bound => rfl

theorem Literal.inReduct_congr {l : Literal} (h : ∀ a ∈ l.atoms, (a ∈ S ↔ a ∈ T)) :
    l.InReduct S S ↔ l.InReduct T T := by
  cases l with
  | pos a => exact h a (by simp [Literal.atoms])
  | not a => exact not_congr (h a (by simp [Literal.atoms]))
  | count es op bound =>
    have hcounted : counted (Literal.InCondition op.isMonotone S S) es =
        counted (Literal.InCondition op.isMonotone T T) es := by
      ext terms
      refine exists_congr fun e => and_congr_right fun he => and_congr_right fun _ => ?_
      refine forall₂_congr fun l hl => Literal.inCondition_congr fun a ha => ?_
      exact h a (Literal.mem_atoms_count he hl ha)
    simp only [Literal.InReduct, hcounted]

/-- Sets that agree on the atoms of a body agree on the body. -/
theorem bodyHolds_congr {b : Body} (h : ∀ l ∈ b, ∀ a ∈ l.atoms, (a ∈ S ↔ a ∈ T)) :
    BodyHolds S S b ↔ BodyHolds T T b :=
  forall₂_congr fun l hl => Literal.inReduct_congr (h l hl)

end

/-! ## Answer sets of either kind -/

/-- A model that holds no atom with its opposite, and in which each atom stands in the head of a
rule with a true body. -/
structure IsSupportedModel (rules : List Rule) (S : Set Atom) : Prop where
  consistent : ∀ a ∈ S, a.complement ∉ S
  satisfied : ∀ r ∈ rules, r.SatisfiedBy S
  supported : ∀ a ∈ S, ∃ r ∈ rules, a ∈ r.head ∧ BodyHolds S S r.body

section

variable {rules : List Rule} {S : Set Atom}

theorem IsStable.isSupportedModel (h : IsStable rules S) : IsSupportedModel rules S where
  consistent := h.consistent
  satisfied r hr := h.satisfiedBy hr
  supported a ha := by
    obtain ⟨r, hr, hsupports⟩ := h.mem_iff.1 ha
    exact ⟨r, hr, hsupports.head, hsupports.body⟩

theorem IsMinimalModel.isSupportedModel (h : IsMinimalModel rules S) :
    IsSupportedModel rules S where
  consistent := h.consistent
  satisfied := modelsReduct_self_iff.1 h.model
  supported a ha := by
    by_contra hnone
    -- without an unsupported atom there would be a smaller model
    have hmodel : ModelsReduct rules S (S \ {a}) := by
      intro r hr hbody _
      obtain ⟨b, hb, hbS⟩ := modelsReduct_self_iff.1 h.model r hr hbody
      refine ⟨b, hb, hbS, ?_⟩
      rintro rfl
      exact hnone ⟨r, hr, hb, hbody⟩
    have hmem : a ∈ S \ {a} := by rwa [h.minimal _ Set.sdiff_subset hmodel]
    exact hmem.2 rfl

/-- An atom that is the only one in the head of a rule with a true body holds. -/
theorem IsSupportedModel.mem_of_derive (h : IsSupportedModel rules S) {a : Atom} {b : Body}
    (hr : Rule.derive a b ∈ rules) (hb : BodyHolds S S b) : a ∈ S := by
  obtain ⟨a', ha', hmem⟩ := h.satisfied _ hr hb
  exact List.mem_singleton.1 ha' ▸ hmem

end

/-! ## Programs that host bodies -/

/-- A rule that makes an atom total. -/
def Rule.IsTotality (r : Rule) : Prop := ∃ a, r = .choice a

/-- A rule with an auxiliary head. -/
def Rule.IsAuxiliary (r : Rule) : Prop := ∃ k, r.derives (auxName k) = true

/-- The atoms on which some bodies rely: their own, and those in the bodies of the auxiliary rules
for such atoms. -/
inductive ReliesOn (emitted : List Rule) (bodies : List Body) : Atom → Prop
  | body {b : Body} {l : Literal} {a : Atom} (hb : b ∈ bodies) (hl : l ∈ b) (ha : a ∈ l.atoms) :
    ReliesOn emitted bodies a
  | rule {r : Rule} {l : Literal} {a b : Atom} (h : ReliesOn emitted bodies b) (hr : r ∈ emitted)
    (haux : r.IsAuxiliary) (hb : b ∈ r.head) (hl : l ∈ r.body) (ha : a ∈ l.atoms) :
    ReliesOn emitted bodies a

/-- A program has all totality and auxiliary rules that have been emitted for some bodies, and no
other rule with an auxiliary head than emitted ones. -/
structure Hosts (emitted : List Rule) (bodies : List Body) (p : Program) : Prop where
  serving : ∀ r ∈ emitted, r.IsTotality ∨ r.IsAuxiliary →
    (∃ a ∈ r.head, ReliesOn emitted bodies a) → r ∈ p.rules
  auxiliary : ∀ r ∈ p.rules, r.IsAuxiliary → r ∈ emitted

namespace Context

variable {c : Context}

/-- In the answer sets of all programs that host some bodies, one of these is true exactly when a
statement about the decoded interpretation is. -/
def Tells (c : Context) (d : Domain) (emitted : List Rule) (bodies : List Body)
    (φ : Interpretation Individual → Prop) : Prop :=
  ∀ (p : Program) (A : AnswerSet), Hosts emitted bodies p →
    p.IsAnswerSet A.toSet ∨ p.IsMinimalAnswerSet A.toSet →
    ((∃ b ∈ bodies, BodyHolds A.toSet A.toSet b) ↔ φ ((c.decode A none).interpretation d))

/-! ## Decoding in indexed contexts -/

theorem Indexed.exists_element (h : c.Indexed) {k : String} {i : Individual}
    (hk : c.individual? k = some i) : ∃ x ∈ c.elements, x.constant = k ∧ x.individual = i := by
  unfold individual? at hk
  split at hk
  · next iri hentity =>
    obtain ⟨x, hx, hxk, rfl⟩ := h.elements k iri hentity
    exact ⟨x, hx, hxk, Option.some.inj hk⟩
  · cases hk

/-- All that is read is about the context, from whatever program it is. -/
theorem Indexed.states_of_isRead (h : c.Indexed) {a : Atom} (ha : c.IsRead a) :
    ∃ φ, c.States a φ := by
  obtain ⟨negated, predicate, arguments⟩ := a
  rcases ha with ⟨i, iri, hneg, hentity, hargs⟩ | ⟨iri, i, j, hneg, hentity, hargs⟩
  · have hs := h.classes _ iri hentity
    obtain ⟨k, rfl, hk⟩ : ∃ k, arguments = [k] ∧ c.individual? k = some i := by
      rcases arguments with _ | ⟨k, _ | ⟨k', ks⟩⟩ <;> simp_all [Option.bind_eq_some_iff]
    obtain ⟨x, hx, rfl, -⟩ := h.exists_element hk
    obtain rfl : negated = false := hneg
    exact ⟨_, .member hs hx⟩
  · have hs := h.properties _ iri hentity
    obtain ⟨k, k', rfl, hk, hk'⟩ : ∃ k k', arguments = [k, k'] ∧
        c.individual? k = some i ∧ c.individual? k' = some j := by
      rcases arguments with _ | ⟨k, _ | ⟨k', _ | ⟨k'', ks⟩⟩⟩ <;>
        simp_all [Option.bind_eq_some_iff]
    obtain ⟨x, hx, rfl, -⟩ := h.exists_element hk
    obtain ⟨y, hy, rfl, -⟩ := h.exists_element hk'
    obtain rfl : negated = false := hneg
    exact ⟨_, .leads hs hx hy⟩

/-! ## Atoms on which bodies rely -/

/-- Background rules alone have an answer set. -/
theorem Background.exists_answerSet {p : Program} (hb : c.Background p.rules) (hc : c.Ready) :
    ∃ A : AnswerSet, p.IsAnswerSet A.toSet := by
  have harranges : c.Arranges ∅ (fun _ => True) [] :=
    ⟨nofun, nofun, nofun, fun S _ => Set.empty_subset S, nofun, by simp⟩
  have hrules : ∀ r, r ∈ p.rules ↔ r ∈ p.rules ∨ r ∈ [] := by simp
  have hS := harranges.isStable_truth hc hb hrules (admits_interpret (S := ∅) hc) trivial
  obtain ⟨b, -, -, hA⟩ := AnswerSet.exists_answerOf_eq hS
  exact ⟨_, hA ▸ hS⟩

theorem before_length (c : Context) : c.before c.definitions.length = c := by
  simp [before]

/-- Entries that belong to items one by one. -/
theorem forall_of_forall₂ {α β : Type} {P : α → β → Prop} {items : List α} {entries : List (α × β)}
    (h : List.Forall₂ (fun x entry => entry.1 = x ∧ P x entry.2) items entries) :
    entries.map (·.1) = items ∧ ∀ entry ∈ entries, P entry.1 entry.2 := by
  induction h with
  | nil => exact ⟨rfl, nofun⟩
  | cons hentry _ ih =>
    obtain ⟨rfl, hP⟩ := hentry
    exact ⟨congrArg (_ :: ·) ih.1, List.forall_mem_cons.2 ⟨hP, ih.2⟩⟩

/-- The entries of a definition, one for each element, say at which elements it holds. -/
theorem Emitted.exists_entries {emitted : List Rule} (h : c.Emitted emitted) (hc : c.Ready)
    {k : Nat} {d : ClassExpression} (hd : c.definitions[k]? = some d) :
    ∃ entries : List (Element × List Body),
      entries.map (·.1) = c.elements ∧
      (∀ entry ∈ entries, c.Expresses (fun I => I.Member d entry.1.individual) entry.2) ∧
      ∀ r, r ∈ emitted ∧ r.derives (auxName (k + 1)) = true ↔
        ∃ entry ∈ entries, ∃ b ∈ entry.2, r = .derive (Grounding.auxAtom (k + 1) entry.1) b := by
  obtain ⟨entries, hentries, hrules⟩ := h.defined k d hd
  have hforall := (Grounding.definitionBodies_meets d hc).ok entries (by rw [hentries])
  rw [hentries] at hforall
  obtain ⟨helements, hexpresses⟩ := forall_of_forall₂ hforall
  refine ⟨entries, helements, hexpresses, fun r => ?_⟩
  have hfilter : r ∈ emitted.filter (·.derives (auxName (k + 1))) ↔
      r ∈ emitted ∧ r.derives (auxName (k + 1)) = true := List.mem_filter
  rw [← hfilter, hrules]
  simp [Grounding.definitionRules, eq_comm]

section

variable {emitted : List Rule} {bodies : List Body} {p : Program} {S : Set Atom}
  (hc : c.Ready) (hemitted : c.Emitted emitted)

include hc

theorem describes_interpret : c.Describes (c.interpret S) (c.truth (c.interpret S)) := by
  have hdescribes := describes_truth (F := ∅) hc (admits_interpret (S := S) hc) nofun
  rwa [Set.union_empty] at hdescribes

theorem mem_iff_of_states {a : Atom} {φ : Sentence} (ha : c.States a φ) :
    a ∈ S ↔ a ∈ c.truth (c.interpret S) := by
  rw [ha.mem_iff_interpret hc]
  exact ((describes_interpret hc).states a φ ha).1.symm

variable (hp : Hosts emitted bodies p) (hS : IsSupportedModel p.rules S)

include hemitted hp hS

/-- Where an atom is total, its opposite holds if it does not. -/
theorem mem_iff_of_denied {a : Atom} {φ : Sentence} (ha : c.States a φ)
    (hrelies : ReliesOn emitted bodies a.complement) :
    a.complement ∈ S ↔ a.complement ∈ c.truth (c.interpret S) := by
  have hchoice : Rule.choice a ∈ p.rules := by
    apply hp.serving _ _ (.inl ⟨a, rfl⟩) ⟨a.complement, by simp [Rule.choice], hrelies⟩
    apply List.mem_of_mem_filter (p := (·.head = (Rule.choice a).head))
    rw [hemitted.total a φ ha]
    exact List.mem_singleton_self _
  have hopposite : a.complement ∈ S ↔ a ∉ S := by
    refine ⟨fun h h' => hS.consistent a h' h, fun h => ?_⟩
    obtain ⟨b, hb, hmem⟩ := hS.satisfied _ hchoice (bodyHolds_nil S S)
    rcases List.mem_pair.1 hb with rfl | rfl
    · exact absurd hmem h
    · exact hmem
  rw [hopposite, ha.mem_iff_interpret hc]
  exact ((describes_interpret hc).states a φ ha).2.symm

/-- An auxiliary atom is derived from the bodies of its definition, and from nothing else. -/
theorem mem_iff_of_defined {k : Nat} {d : ClassExpression} (hd : c.definitions[k]? = some d)
    {x : Element} (hx : x ∈ c.elements)
    (hrelies : ReliesOn emitted bodies (Grounding.auxAtom (k + 1) x))
    (hbodies : ∀ b, Rule.derive (Grounding.auxAtom (k + 1) x) b ∈ emitted →
      (BodyHolds S S b ↔ BodyHolds (c.truth (c.interpret S)) (c.truth (c.interpret S)) b)) :
    Grounding.auxAtom (k + 1) x ∈ S ↔
      Grounding.auxAtom (k + 1) x ∈ c.truth (c.interpret S) := by
  have hdescribes := describes_interpret (S := S) hc
  obtain ⟨entries, helements, hexpresses, hrules⟩ := hemitted.exists_entries hc hd
  rw [hdescribes.defined k d hd x hx]
  constructor
  -- the supporting rule has been emitted, so that its body is one of the definition
  · intro hmem
    obtain ⟨r, hr, hhead, hbody⟩ := hS.supported _ hmem
    have hderives : r.derives (auxName (k + 1)) = true :=
      List.any_eq_true.2 ⟨_, hhead, decide_eq_true rfl⟩
    have hremitted := hp.auxiliary r hr ⟨_, hderives⟩
    obtain ⟨entry, hentry, b, hb, rfl⟩ := (hrules r).1 ⟨hremitted, hderives⟩
    have hatom := List.mem_singleton.1 hhead
    have hz : entry.1 ∈ c.elements := helements ▸ List.mem_map_of_mem hentry
    obtain ⟨-, rfl⟩ := auxAtom_inj hc hx hz hatom
    exact ((hexpresses entry hentry).iff _ _ _ hdescribes hdescribes).1
      ⟨b, hb, (hbodies b hremitted).1 hbody⟩
  · intro hmember
    obtain ⟨entry, hentry, rfl⟩ := List.mem_map.1 (helements ▸ hx)
    obtain ⟨b, hb, hbody⟩ :=
      ((hexpresses entry hentry).iff _ _ _ hdescribes hdescribes).2 hmember
    obtain ⟨hremitted, hderives⟩ := (hrules _).2 ⟨entry, hentry, b, hb, rfl⟩
    have hrule := hp.serving _ hremitted (.inr ⟨_, hderives⟩)
      ⟨_, List.mem_singleton_self _, hrelies⟩
    exact hS.mem_of_derive hrule ((hbodies b hremitted).2 hbody)

variable (hstrata : ∀ r ∈ emitted, ∀ k, r.derives (auxName k) = true →
  ∃ j, k = j + 1 ∧ ∀ l ∈ r.body, ∀ a ∈ l.atoms, (c.before j).Names a)

include hstrata

/-- On the atoms on which some bodies rely, an answer set of a program that hosts them agrees with
what is true in the evaluation that it is decoded to. -/
theorem mem_iff_of_reliesOn (k : Nat) : ∀ a, (c.before k).Names a → ReliesOn emitted bodies a →
    (a ∈ S ↔ a ∈ c.truth (c.interpret S)) := by
  -- by the number of definitions that are there, since each is over earlier ones
  induction k using Nat.strong_induction_on with
  | h k ih =>
    intro a hnames hrelies
    cases hnames with
    | stated ha => exact mem_iff_of_states hc (ha.mono (before_le c k))
    | denied ha => exact mem_iff_of_denied hc hemitted hp hS (ha.mono (before_le c k)) hrelies
    | @aux j d x hd hx =>
      have hj : j < k := by
        by_contra hj
        simp [before, hj] at hd
      refine mem_iff_of_defined hc hemitted hp hS ((before_le c k).definitions j d hd) hx hrelies
        fun b hb => bodyHolds_congr fun l hl a ha => ?_
      have hderives : (Rule.derive (Grounding.auxAtom (j + 1) x) b).derives (auxName (j + 1)) =
          true := List.any_eq_true.2 ⟨_, List.mem_singleton_self _, decide_eq_true rfl⟩
      obtain ⟨j', hj', hnames⟩ := hstrata _ hb _ hderives
      obtain rfl : j = j' := by omega
      exact ih j hj a (hnames l hl a ha)
        (.rule hrelies hb ⟨_, hderives⟩ (List.mem_singleton_self _) hl ha)

/-- Bodies say in an answer set of a program that hosts them what they express. -/
theorem Expresses.iff_interpret {φ : Sentence} (h : c.Expresses φ bodies) :
    (∃ b ∈ bodies, BodyHolds S S b) ↔ φ (c.interpret S) := by
  have hdescribes := describes_interpret (S := S) hc
  rw [← h.iff _ _ _ hdescribes hdescribes]
  refine exists_congr fun b => and_congr_right fun hb => bodyHolds_congr fun l hl a ha => ?_
  have hnames := h.named b hb l hl a ha
  rw [← before_length c] at hnames
  exact mem_iff_of_reliesOn hc hemitted hp hS hstrata _ a hnames (.body hb hl ha)

end

end Context

/-! ## Bodies in the course of calls -/

namespace Call

variable {d : Domain} {scheme : NamingScheme} {strategy : Strategy} {c c' : Context}
  {emitted : List Rule} {bodies : List Body}

/-- A context is reached in the course of calls. By then some rules have been emitted: they have
been returned, have been lost or are pending. -/
def Reached (d : Domain) (scheme : NamingScheme) (strategy : Strategy) (c : Context)
    (emitted : List Rule) : Prop :=
  ∃ calls, Context.Additions (fun _ => True) (runAll calls (.new d scheme strategy)).2 c ∧
    emitted = (runAll calls (.new d scheme strategy)).1.flatMap Outcome.rules ++ c.pending.rules

/-- A context has been reached, and in whatever contexts it grows to bodies tell whether a statement
is true. -/
def TellSince (d : Domain) (scheme : NamingScheme) (strategy : Strategy) (c : Context)
    (bodies : List Body) (φ : Interpretation Individual → Prop) : Prop :=
  (∃ emitted, Reached d scheme strategy c emitted) ∧
    ∀ c' emitted, Reached d scheme strategy c' emitted → c ≤ c' → c'.Tells d emitted bodies φ

namespace Reached

variable (h : Reached d scheme strategy c emitted)

include h

theorem additions {P : ClassExpression → Prop} (hadd : Context.Additions P c c') :
    ∃ emitted', Reached d scheme strategy c' emitted' := by
  obtain ⟨calls, hc, -⟩ := h
  exact ⟨_, calls, hc.trans (hadd.mono fun _ _ => trivial), rfl⟩

theorem orderly : c.Orderly := by
  obtain ⟨calls, hc, -⟩ := h
  exact ((runAll_orderly calls (Context.orderly_new d scheme strategy)).additions hc).orderly

theorem domain_and_emitted : c.domain = d ∧ c.Emitted emitted := by
  obtain ⟨calls, hc, rfl⟩ := h
  have hemitting := (runAll_emitting calls (Context.emitting_new d scheme strategy)).additions hc
  exact ⟨hemitting.domain, hemitting.emitted⟩

theorem exists_before {r : Rule} (hr : r ∈ emitted) {k : Nat}
    (hk : r.derives (auxName k) = true) :
    ∃ j, k = j + 1 ∧ ∀ l ∈ r.body, ∀ a ∈ l.atoms, (c.before j).Names a := by
  have hready := h.orderly.ready
  obtain ⟨calls, hc, rfl⟩ := h
  rcases emitted_rule_cases (Context.orderly_new d scheme strategy) hc hr with h | ⟨n, h⟩
  · exact h.exists_before hready hk
  · simp [h.derives_auxName k] at hk

/-- Bodies tell what they express, if over a small domain it does not matter how upper bounds are
read. -/
theorem tells (hsmall : d.size < UInt32.size - 1) {φ : Sentence}
    {ψ : Interpretation Individual → Prop} (hbodies : c.Expresses φ bodies)
    (hφ : ∀ I : Evaluation Individual, I.IsSmall → (φ I ↔ ψ I.toInterpretation)) :
    c.Tells d emitted bodies ψ := by
  intro p A hp hA
  have hsupported : IsSupportedModel p.rules A.toSet :=
    hA.elim IsStable.isSupportedModel IsMinimalModel.isSupportedModel
  have horderly := h.orderly
  obtain ⟨rfl, hemitted⟩ := h.domain_and_emitted
  have hadmits := Context.admits_interpret (S := A.toSet) horderly.ready
  rw [Context.interpretation_decode horderly.ready
      fun a _ ha => horderly.indexed.states_of_isRead ha,
    ← hφ _ (hadmits.toOverDomain.isSmall hsmall)]
  exact Context.Expresses.iff_interpret horderly.ready hemitted hp hsupported
    (fun r hr k => h.exists_before hr) hbodies

/-- What a step returns tells what it expresses, from then on. The step fails only if an individual
is no element. -/
theorem exists_tellSince {α : Type} (bodies : α → List Body) {m : Grounding α} {φ : Sentence}
    {ψ : Interpretation Individual → Prop} {V : Set Entity} (hsmall : d.size < UInt32.size - 1)
    (hV : ∀ i : Individual, .individual i.iri ∈ V → i ∈ d.elements)
    (hrepeatable : Grounding.Repeatable (fun _ => True) m)
    (hmeets : Grounding.Meets V m c fun c' a => c'.Expresses φ (bodies a))
    (hφ : ∀ I : Evaluation Individual, I.IsSmall → (φ I ↔ ψ I.toInterpretation)) :
    ∃ a c', m.exec c = (.ok a, c') ∧ TellSince d scheme strategy c' (bodies a) ψ := by
  have hadd := hrepeatable.additions c
  rcases hrun : m.exec c with ⟨e | a, c'⟩ <;> rw [hrun] at hadd
  · obtain ⟨i, hi, hnone⟩ := hmeets.error e (by rw [hrun])
    rw [h.domain_and_emitted.1] at hnone
    exact absurd (hV i hi) hnone
  · have hbodies := hmeets.ok a (by rw [hrun])
    rw [hrun] at hbodies
    exact ⟨a, c', rfl, h.additions hadd, fun c'' emitted'' h'' hle =>
      h''.tells hsmall (hbodies.mono hle) hφ⟩

end Reached

/-- In the course of calls on one context over a small domain there are bodies for every class
expression, whose individuals are elements, at every element. In the answer sets of all programs
that host them, a body for the expression is true exactly if the element belongs to it in the decoded
interpretation, one for its negation exactly if it does not, and one of those for its occurrence on
the left of an inclusion exactly if it does. Where there is no body, none is true. -/
theorem bodies_tell (hsmall : d.size < UInt32.size - 1) (h : Reached d scheme strategy c emitted)
    {e : ClassExpression} (he : ∀ i : Individual, .individual i.iri ∈ e.vocabulary → i ∈ d.elements)
    {x : Element} (hx : x ∈ c.elements) :
    (∃ body c', (Grounding.holds e x).exec c = (.ok body, c') ∧
      TellSince d scheme strategy c' body.toList fun I => I.Member e x.individual) ∧
    (∃ body c', (Grounding.holdsNot e x).exec c = (.ok body, c') ∧
      TellSince d scheme strategy c' body.toList fun I => ¬ I.Member e x.individual) ∧
    ∃ bodies c', (Grounding.lhsBodies e x).exec c = (.ok bodies, c') ∧
      TellSince d scheme strategy c' bodies fun I => I.Member e x.individual := by
  have hc := h.orderly.ready
  have hrepeats := Grounding.repeats_of_forall (P := fun _ => True) (fun _ => trivial) e
  have hreadable := Grounding.readable_of_vocabulary (V := {v | v ∈ e.vocabulary}) e fun _ hv => hv
  have hmember : ∀ I : Evaluation Individual, I.IsSmall →
      (I.Member e x.individual ↔ I.toInterpretation.Member e x.individual) :=
    fun I hI => Evaluation.member_iff hI e x.individual
  refine ⟨?holds, ?holdsNot, ?lhs⟩
  case holds =>
    exact h.exists_tellSince Option.toList hsmall he (hrepeats.holds x)
      ((hreadable.holds hc hx).imp fun _ _ _ hbody => hbody.expresses) hmember
  case holdsNot =>
    exact h.exists_tellSince Option.toList hsmall he (hrepeats.holdsNot x)
      ((hreadable.holdsNot hc hx).imp fun _ _ _ hbody => hbody.expresses)
      fun I hI => not_congr (hmember I hI)
  case lhs =>
    exact h.exists_tellSince id hsmall he (Grounding.lhsBodies_repeatable (fun _ => trivial) e x)
      (Grounding.lhsBodies_meets (fun _ hv => hv) hc hx) hmember

/-- In the first context over two individuals, a body for a restriction to one of them. What has
been written for it has an answer set, and the body says there what it should. -/
theorem bodies_tell_pair :
    let d := Domain.ofIndividuals [⟨⟨"urn:i"⟩⟩, ⟨⟨"urn:j"⟩⟩]
    let c := Context.new d .plain .direct
    let e := ClassExpression.maxCardinality 1 (.named ⟨"urn:p"⟩) (some (.oneOf [⟨⟨"urn:i"⟩⟩]))
    ∃ x ∈ c.elements, ∃ body c' A, (Grounding.holds e x).exec c = (.ok body, c') ∧
      Hosts c'.pending.rules body.toList c'.pending ∧ c'.pending.IsAnswerSet A.toSet ∧
      ((∃ b ∈ body.toList, BodyHolds A.toSet A.toSet b) ↔
        ((c'.decode A none).interpretation d).Member e x.individual) := by
  intro d c e
  have hreached : Reached d .plain .direct c [] := ⟨[], .refl, rfl⟩
  have hsmall : d.size < UInt32.size - 1 := by decide +kernel
  have he : ∀ i : Individual, .individual i.iri ∈ e.vocabulary → i ∈ d.elements := by
    rintro ⟨iri⟩ hi
    obtain rfl : iri = ⟨"urn:i"⟩ := by
      simpa [e, ClassExpression.vocabulary, ClassExpression.vocabularyFiller] using hi
    decide +kernel
  obtain ⟨x, hx⟩ : ∃ x, x ∈ c.elements := List.exists_mem_of_length_pos (by decide +kernel)
  obtain ⟨⟨body, c', hexec, -, htell⟩, -, -⟩ := bodies_tell hsmall hreached he hx
  have hready := Context.ready_new d .plain .direct
  have hadd := ((Grounding.repeats_of_forall (P := fun _ => True) (fun _ => trivial) e).holds
    x).additions c
  have hgrows := ((Grounding.readable_of_vocabulary (V := Set.univ) e fun _ _ => trivial).holds
    hready hx).grows
  rw [hexec] at hadd hgrows
  obtain ⟨A, hA⟩ :=
    (hgrows.background [] (Context.background_new d .plain .direct)).exists_answerSet hgrows.ready
  have hhosts : Hosts c'.pending.rules body.toList c'.pending :=
    ⟨fun r hr _ _ => hr, fun r hr _ => hr⟩
  exact ⟨x, hx, body, c', A, hexec, hhosts, hA,
    htell c' c'.pending.rules ⟨[], hadd, rfl⟩ c'.le_refl c'.pending A hhosts (.inl hA)⟩

end Call

end FixedDomain
