import FixedDomain.Grounding.Ontology
import FixedDomain.Proofs.Grounding.Steps

/-! # Answer sets of encodings

The answer sets of a program that is made of the background rules of a context and of rules that
enforce a sentence are in one-to-one correspondence with the evaluations over the domain, up to
names without a symbol, in which the sentence is true (`Arranges.of_describes`,
`Arranges.isStable_truth`).

* `Context.truth` — the atoms that say what is true in an evaluation.
* `IsSwitch` — the atoms that are neither about the domain nor auxiliary: they switch axioms on, or
  say that a query is violated.
* `Context.Arranges` — some rules enforce a sentence and settle some switches.

An answer set describes an evaluation, since the totality of all symbols decides their atoms and
the definitions, of which each is over earlier ones, decide the auxiliary atoms. So does every part of
it that is closed under the rules, which is why nothing in it is unfounded.
-/

namespace FixedDomain

/-! ## Kinds of atoms -/

/-- The atoms that switch an axiom on, or say that a query is violated. -/
inductive IsSwitch : Atom → Prop
  | activation (k : Nat) : IsSwitch (activationAtom k)
  | query (k : Nat) : IsSwitch (.positive (queryName k) [])

theorem not_begins_auxName (k : Nat) : ¬ NamingScheme.Begins (auxName k) := by
  rintro ⟨c, cs, hcs, hc⟩
  rw [auxName, String.toList_append] at hcs
  exact hc (List.cons.inj hcs).1.symm

theorem IsSwitch.not_begins {a : Atom} (h : IsSwitch a) : ¬ NamingScheme.Begins a.predicate := by
  rintro ⟨c, cs, hcs, hc⟩
  cases h with
  | activation k =>
    simp only [activationAtom, Atom.positive] at hcs
    exact hc (List.cons.inj hcs).1.symm
  | query k =>
    simp only [Atom.positive, queryName, String.toList_append] at hcs
    exact hc (List.cons.inj hcs).1.symm

theorem IsSwitch.negated {a : Atom} (h : IsSwitch a) : a.negated = false := by
  cases h <;> rfl

theorem auxName_injective : Function.Injective auxName := by
  intro j k h
  have hlist := congrArg String.toList h
  simp only [auxName, String.toList_append] at hlist
  exact Nat.repr_injective (String.toList_inj.1 (List.append_cancel_left hlist))

theorem not_isSwitch_auxAtom (k : Nat) (x : Element) : ¬ IsSwitch (Grounding.auxAtom k x) := by
  intro h
  generalize ha : Grounding.auxAtom k x = a at h
  cases h with
  | activation j =>
    have hlist := congrArg (fun a => a.predicate.toList) ha
    simp [Grounding.auxAtom, unaryAtom, Atom.positive, auxName, activationAtom] at hlist
  | query j =>
    have harguments := congrArg Atom.arguments ha
    cases harguments

namespace Context

variable {c : Context}

theorem auxAtom_inj (hc : c.Ready) {j k : Nat} {x y : Element} (hx : x ∈ c.elements)
    (hy : y ∈ c.elements) (h : Grounding.auxAtom j x = Grounding.auxAtom k y) : j = k ∧ x = y := by
  have hconstant : [x.constant] = [y.constant] := congrArg Atom.arguments h
  exact ⟨auxName_injective (congrArg Atom.predicate h),
    hc.eq_of_constant_eq hx hy (List.singleton_injective hconstant)⟩

namespace States

variable {a : Atom} {φ ψ : Sentence}

theorem negated (ha : c.States a φ) : a.negated = false := by
  cases ha <;> rfl

theorem begins (hc : c.Ready) (ha : c.States a φ) : NamingScheme.Begins a.predicate := by
  cases ha with
  | member hs hx => exact Naming.begins_of_entity? hc.naming (hc.classes _ _ hs)
  | leads hs hx hy => exact Naming.begins_of_entity? hc.naming (hc.properties _ _ hs)

/-- An atom states one thing only. -/
theorem unique (hc : c.Ready) (ha : c.States a φ) (ha' : c.States a ψ) : φ = ψ := by
  generalize hb : a = b at ha'
  cases ha with
  | @member iri s x hs hx =>
    cases ha' with
    | @member iri' s' x' hs' hx' =>
      obtain ⟨rfl, hconstants⟩ := (Atom.mk.inj hb).2
      obtain rfl := hc.eq_of_constant_eq hx hx' (List.singleton_injective hconstants)
      have hiri := hc.classes iri' s hs'
      rw [hc.classes iri s hs] at hiri
      cases hiri
      rfl
    | leads hs' hx' hy' =>
      have hlength := congrArg (fun a => a.arguments.length) hb
      cases hlength
  | @leads iri s x y hs hx hy =>
    cases ha' with
    | member hs' hx' =>
      have hlength := congrArg (fun a => a.arguments.length) hb
      cases hlength
    | @leads iri' s' x' y' hs' hx' hy' =>
      obtain ⟨rfl, hconstants⟩ := (Atom.mk.inj hb).2
      obtain ⟨hxx, hyy⟩ := List.cons.inj hconstants
      obtain rfl := hc.eq_of_constant_eq hx hx' hxx
      obtain rfl := hc.eq_of_constant_eq hy hy' (List.singleton_injective hyy)
      have hiri := hc.properties iri' s hs'
      rw [hc.properties iri s hs] at hiri
      cases hiri
      rfl

theorem ne_auxAtom (hc : c.Ready) (ha : c.States a φ) (k : Nat) (x : Element) :
    Grounding.auxAtom k x ≠ a := by
  rintro rfl
  exact not_begins_auxName k (ha.begins hc)

theorem not_isSwitch (hc : c.Ready) (ha : c.States a φ) : ¬ IsSwitch a :=
  fun h => h.not_begins (ha.begins hc)

theorem ne_complement (ha : c.States a φ) {b : Atom} (hb : b.negated = false) :
    b ≠ a.complement := by
  rintro rfl
  simp [Atom.complement, ha.negated] at hb

end States

/-! ## True atoms -/

/-- The atoms that say what is true in an evaluation. -/
inductive Truth (c : Context) (I : Evaluation Individual) : Atom → Prop
  | stated {a : Atom} {φ : Sentence} (ha : c.States a φ) (h : φ I) : Truth c I a
  | denied {a : Atom} {φ : Sentence} (ha : c.States a φ) (h : ¬ φ I) : Truth c I a.complement
  | defined {k : Nat} {d : ClassExpression} {x : Element} (hd : c.definitions[k]? = some d)
      (hx : x ∈ c.elements) (h : I.Member d x.individual) : Truth c I (Grounding.auxAtom (k + 1) x)

/-- The set of the atoms that say what is true in an evaluation. -/
def truth (c : Context) (I : Evaluation Individual) : Set Atom := {a | c.Truth I a}

/-- The evaluations over the domain that read upper bounds as the strategy of the context does. -/
structure Admits (c : Context) (I : Evaluation Individual) : Prop extends I.OverDomain c.domain where
  counts : I.counts = c.isDirect

theorem admits_congr {c c' : Context} (hdomain : c'.domain = c.domain)
    (hdirect : c'.isDirect = c.isDirect) {I : Evaluation Individual} :
    c'.Admits I ↔ c.Admits I :=
  ⟨fun h => ⟨hdomain ▸ h.toOverDomain, h.counts.trans hdirect⟩,
    fun h => ⟨hdomain.symm ▸ h.toOverDomain, h.counts.trans hdirect.symm⟩⟩

/-- An interpretation, evaluated as the strategy of a context does. -/
def evaluate (c : Context) (I : Interpretation Individual) : Evaluation Individual :=
  ⟨I, c.isDirect⟩

theorem admits_evaluate {I : Interpretation Individual} (hI : I.OverDomain c.domain) :
    c.Admits (c.evaluate I) := ⟨hI, rfl⟩

/-- On a small domain it does not matter how upper bounds are read. -/
theorem respects_evaluate_iff {I : Interpretation Individual} (hI : I.IsSmall) (c : Context)
    (a : Axiom) : (c.evaluate I).Respects a ↔ I.Respects a := Evaluation.respects_iff hI a

theorem satisfies_evaluate_iff {I : Interpretation Individual} (hI : I.IsSmall) (c : Context)
    (a : Axiom) : (c.evaluate I).Satisfies a ↔ I.Satisfies a := Evaluation.satisfies_iff hI a

/-- What an atom states does not depend on how upper bounds are read. -/
theorem States.evaluate_iff {a : Atom} {φ : Sentence} (ha : c.States a φ) (c' : Context)
    (I : Evaluation Individual) : φ (c'.evaluate I.toInterpretation) ↔ φ I := by
  cases ha <;> rfl

theorem Ready.overDomain_iff (hc : c.Ready) {I : Interpretation Individual} :
    I.OverDomain c.domain ↔
      I.domain = {i | ∃ x ∈ c.elements, x.individual = i} ∧ I.denote = id := by
  have hset : {i | ∃ x ∈ c.elements, x.individual = i} = {i | i ∈ c.domain.elements} :=
    Set.ext fun i => hc.exists_element_iff
  rw [hset]
  exact ⟨fun h => ⟨h.domain, h.denote⟩, fun h => ⟨h.1, h.2⟩⟩

variable {I : Evaluation Individual} {F S T : Set Atom}

/-- The true atoms describe an evaluation, whatever is switched on. -/
theorem describes_truth (hc : c.Ready) (hI : c.Admits I) (hF : ∀ f ∈ F, IsSwitch f) :
    c.Describes I (c.truth I ∪ F) where
  counts := hI.counts
  domain := (hc.overDomain_iff.1 hI.toOverDomain).1
  denote := hI.denote
  states a φ ha := by
    refine ⟨⟨?_, fun h => .inl (.stated ha h)⟩, ⟨?_, fun h => .inl (.denied ha h)⟩⟩
    -- an atom over a symbol is no opposite, no auxiliary atom and no switch
    · rintro (htrue | hf)
      · generalize hb : a = b at htrue
        cases htrue with
        | stated hb' h =>
          subst hb
          exact ha.unique hc hb' ▸ h
        | denied hb' h => exact absurd hb (hb'.ne_complement ha.negated)
        | defined hd hx h => exact absurd hb.symm (ha.ne_auxAtom hc _ _)
      · exact absurd (hF a hf) (ha.not_isSwitch hc)
    · rintro (htrue | hf)
      · generalize hb : a.complement = b at htrue
        cases htrue with
        | stated hb' h => exact absurd hb.symm (ha.ne_complement hb'.negated)
        | denied hb' h =>
          have heq := congrArg Atom.complement hb
          simp only [Atom.complement_complement] at heq
          subst heq
          exact ha.unique hc hb' ▸ h
        | defined hd hx h => exact absurd hb.symm (ha.ne_complement rfl)
      · exact absurd rfl (ha.ne_complement (hF _ hf).negated)
  defined k d hd x hx := by
    refine ⟨?_, fun h => .inl (.defined hd hx h)⟩
    rintro (htrue | hf)
    · generalize hb : Grounding.auxAtom (k + 1) x = b at htrue
      cases htrue with
      | stated hb' h => exact absurd hb (hb'.ne_auxAtom hc _ _)
      | denied hb' h => exact absurd hb (hb'.ne_complement rfl)
      | defined hd' hx' h =>
        obtain ⟨hk, rfl⟩ := auxAtom_inj hc hx hx' hb
        obtain rfl := Nat.succ_injective hk
        rw [hd] at hd'
        cases hd'
        exact h
    · exact absurd (hF _ hf) (not_isSwitch_auxAtom _ _)

/-! ## Described answer sets -/

/-- A set describes an evaluation if it says what the atoms over symbols state and if, where it
describes all earlier definitions, it says what the next one defines. -/
theorem describes_of_defined (hcounts : I.counts = c.isDirect)
    (hdomain : I.domain = {i | ∃ x ∈ c.elements, x.individual = i})
    (hdenote : I.denote = id)
    (hstates : ∀ a φ, c.States a φ → (a ∈ T ↔ φ I) ∧ (a.complement ∈ T ↔ ¬ φ I))
    (hdefined : ∀ (k : Nat) d, c.definitions[k]? = some d → ∀ x ∈ c.elements,
      (c.before k).Describes I T →
      (Grounding.auxAtom (k + 1) x ∈ T ↔ I.Member d x.individual)) : c.Describes I T := by
  -- definition by definition, since each of them mentions earlier ones only
  have hbefore : ∀ k, (c.before k).Describes I T := by
    intro k
    induction k with
    | zero =>
      refine ⟨hcounts, hdomain, hdenote, fun a φ ha => hstates a φ (ha.mono (before_le c 0)), ?_⟩
      intro j d hd
      simp [before] at hd
    | succ k ih =>
      refine ⟨hcounts, hdomain, hdenote, fun a φ ha => hstates a φ (ha.mono (before_le c _)), ?_⟩
      intro j d hd x hx
      have hd' := (before_le c (k + 1)).definitions j d hd
      have hj : j < k + 1 := by
        by_contra hj
        simp [before, hj] at hd
      rcases Nat.lt_succ_iff_lt_or_eq.1 hj with hj | rfl
      · exact ih.defined j d (by simpa [before, List.getElem?_take, hj] using hd') x hx
      · exact hdefined j d hd' x hx ih
  refine ⟨hcounts, hdomain, hdenote, hstates, fun k d hd x hx => hdefined k d hd x hx (hbefore k)⟩

section Stable

variable {background rules : List Rule} (hb : c.Background background)
  (hmem : ∀ r ∈ background, r ∈ rules)

include hb hmem

/-- An answer set describes every evaluation that agrees with it on the atoms over symbols. -/
theorem describes_of_isStable (hc : c.Ready)
    (hothers : ∀ r ∈ rules, r ∈ background ∨ ∀ k x, Grounding.auxAtom k x ∉ r.head)
    (hS : IsStable rules S) (hI : c.Admits I)
    (hstates : ∀ a φ, c.States a φ → (a ∈ S ↔ φ I)) : c.Describes I S := by
  refine describes_of_defined hI.counts (hc.overDomain_iff.1 hI.toOverDomain).1 hI.denote
    (fun a φ ha => ?_) fun k d hd x hx hbefore => ?_
  · -- one of the atom and its opposite holds, and not both
    refine ⟨hstates a φ ha, ?_⟩
    rw [← hstates a φ ha]
    refine ⟨fun h h' => hS.consistent a h' h, fun h => ?_⟩
    exact hS.mem_iff.2 ⟨.choice a, hmem _ (hb.total a φ ha), Rule.supports_choice.2 (.inr ⟨rfl, h⟩)⟩
  · constructor
    · -- an auxiliary atom is derived by the rules of its definition only
      intro hin
      obtain ⟨r, hr, hsupports⟩ := hS.mem_iff.1 hin
      rcases hothers r hr with hr | hr
      · rcases hb.only r hr with ⟨a, φ, ha, rfl⟩ | ⟨j, y, bodies, ⟨e, he, hy, hex⟩, b, hbmem, rfl⟩
        · rcases Rule.supports_choice.1 hsupports with ⟨haux, -⟩ | ⟨haux, -⟩
          · exact absurd haux (ha.ne_auxAtom hc _ _)
          · exact absurd haux (ha.ne_complement rfl)
        · obtain ⟨haux, hbody⟩ := Rule.supports_derive.1 hsupports
          obtain ⟨hk, rfl⟩ := auxAtom_inj hc hx hy haux
          obtain rfl := Nat.succ_injective hk
          rw [hd] at he
          cases he
          exact (hex.iff I S S hbefore hbefore).1 ⟨_, hbmem, hbody⟩
      · exact absurd hsupports.head (hr _ _)
    · -- one of the defining bodies is true, since earlier definitions are described already
      intro hin
      have hk := (List.getElem?_eq_some_iff.1 hd).1
      obtain ⟨bodies, ⟨d', hd', -, he⟩, hrules⟩ := hb.defined k hk x hx
      rw [hd] at hd'
      cases hd'
      obtain ⟨b, hbmem, hbody⟩ := (he.iff I S S hbefore hbefore).2 hin
      exact hS.mem_iff.2 ⟨_, hmem _ (hrules b hbmem), Rule.supports_derive.2 ⟨rfl, hbody⟩⟩

/-- What is closed under the rules in a described set describes the same. -/
theorem describes_of_closed (hS : c.Describes I S) {D : Set Atom} (hD : D ⊆ S)
    (hclosed : consequences rules S D ⊆ D) : c.Describes I D := by
  refine describes_of_defined hS.counts hS.domain hS.denote (fun a φ ha => ?_)
    fun k d hd x hx hbefore => ?_
  · obtain ⟨htrue, hfalse⟩ := hS.states a φ ha
    -- whichever of an atom and its opposite is true is derived by the choice between them
    have hchoice : ∀ b, (Rule.choice a).Supports S D b → b ∈ D :=
      fun b hsupports => hclosed ⟨_, hmem _ (hb.total a φ ha), hsupports⟩
    refine ⟨⟨fun h => htrue.1 (hD h), fun h => ?_⟩, ⟨fun h => hfalse.1 (hD h), fun h => ?_⟩⟩
    · exact hchoice a (Rule.supports_choice.2 (.inl ⟨rfl, fun h' => hfalse.1 h' h⟩))
    · exact hchoice a.complement (Rule.supports_choice.2 (.inr ⟨rfl, fun h' => h (htrue.1 h')⟩))
  · refine ⟨fun h => (hS.defined k d hd x hx).1 (hD h), fun h => ?_⟩
    have hk := (List.getElem?_eq_some_iff.1 hd).1
    obtain ⟨bodies, ⟨d', hd', -, he⟩, hrules⟩ := hb.defined k hk x hx
    rw [hd] at hd'
    cases hd'
    obtain ⟨b, hbmem, hbody⟩ := (he.iff I S D (hS.anti (before_le c k)) hbefore).2 h
    exact hclosed ⟨_, hmem _ (hrules b hbmem), Rule.supports_derive.2 ⟨rfl, hbody⟩⟩

end Stable

/-! ## Enforcing rules and switches -/

/-- Some rules enforce a sentence where some switches are on. -/
structure EnforcesOn (c : Context) (F : Set Atom) (φ : Sentence) (rules : List Rule) : Prop where
  heads : ∀ r ∈ rules, r.head = [] ∨
    ∃ a ψ, c.States a ψ ∧ (r.head = [a] ∨ r.head = [a.complement])
  unnested : ∀ r ∈ rules, ∀ l ∈ r.body, l.isNested = false
  iff : ∀ I S, c.Describes I S → F ⊆ S → ((∀ r ∈ rules, r.SatisfiedBy S) ↔ φ I)

variable {φ ψ : Sentence} {rules others : List Rule}

theorem Enforces.on (h : c.Enforces φ rules) (F : Set Atom) : c.EnforcesOn F φ rules :=
  ⟨h.heads, h.unnested, fun I S hS _ => h.iff I S hS⟩

/-- Rules that apply only if a switch is on. -/
theorem Enforces.tagged (h : c.Enforces φ rules) {k : Nat} (hk : activationAtom k ∈ F) :
    c.EnforcesOn F φ (rules.map (Grounding.tag k)) where
  heads := List.forall_mem_map.2 h.heads
  unnested r hr l hl := by
    obtain ⟨r', hr', rfl⟩ := List.mem_map.1 hr
    rcases List.mem_append.1 hl with hl | hl
    · exact h.unnested r' hr' l hl
    · obtain rfl := List.mem_singleton.1 hl
      rfl
  iff I S hS hF := by
    rw [← h.iff I S hS, List.forall_mem_map]
    apply forall₂_congr
    intro r _
    simp [Rule.SatisfiedBy, Grounding.tag, hF hk]

namespace EnforcesOn

theorem append (h : c.EnforcesOn F φ rules) (ho : c.EnforcesOn F ψ others) :
    c.EnforcesOn F (fun I => φ I ∧ ψ I) (rules ++ others) where
  heads r hr := (List.mem_append.1 hr).elim (h.heads r) (ho.heads r)
  unnested r hr := (List.mem_append.1 hr).elim (h.unnested r) (ho.unnested r)
  iff I S hS hF := by
    rw [← h.iff I S hS hF, ← ho.iff I S hS hF]
    simp only [List.mem_append, or_imp, forall_and]

end EnforcesOn

/-- Some rules settle that exactly the given switches are on, and then enforce a sentence. -/
structure Arranges (c : Context) (F : Set Atom) (φ : Sentence) (rules : List Rule) : Prop where
  switches : ∀ f ∈ F, IsSwitch f
  heads : ∀ r ∈ rules, r.head = [] ∨ (∃ f ∈ F, r.head = [f]) ∨
    ∃ a ψ, c.States a ψ ∧ (r.head = [a] ∨ r.head = [a.complement])
  unnested : ∀ r ∈ rules, ∀ l ∈ r.body, l.isNested = false
  forced : ∀ S, (∀ r ∈ rules, r.SatisfiedBy S) → F ⊆ S
  determined : ∀ r ∈ rules, ∀ f ∈ F, r.head = [f] → ∀ I S D, c.Describes I S → c.Describes I D →
    BodyHolds S S r.body → BodyHolds S D r.body ∧ ∀ l ∈ r.body, l.InSubmodel S D
  iff : ∀ I S, c.Describes I S → F ⊆ S → ((∀ r ∈ rules, r.SatisfiedBy S) ∧
    (∀ f ∈ F, ∃ r ∈ rules, r.head = [f] ∧ BodyHolds S S r.body) ↔ φ I)

/-- A switch is no atom over a symbol. -/
theorem head_ne_switch (hc : c.Ready) {r : Rule} {f : Atom} (hf : IsSwitch f) (hhead : r.head = [f])
    (h : ∃ a ψ, c.States a ψ ∧ (r.head = [a] ∨ r.head = [a.complement])) : False := by
  obtain ⟨a, χ, ha, ha' | ha'⟩ := h
  · rw [hhead, List.singleton_inj] at ha'
    exact ha.not_isSwitch hc (ha' ▸ hf)
  · rw [hhead, List.singleton_inj] at ha'
    exact ha.ne_complement hf.negated ha'

/-- Activated rules: the switches are facts. -/
theorem EnforcesOn.arranges (hc : c.Ready) {ks : List Nat}
    (hF : ∀ f, f ∈ F ↔ ∃ k ∈ ks, f = activationAtom k) (h : c.EnforcesOn F φ rules) :
    c.Arranges F φ (rules ++ ks.map fun k => .fact (activationAtom k)) where
  switches f hf := by
    obtain ⟨k, -, rfl⟩ := (hF f).1 hf
    exact .activation k
  heads r hr := by
    rcases List.mem_append.1 hr with hr | hr
    · exact (h.heads r hr).imp_right .inr
    · obtain ⟨k, hk, rfl⟩ := List.mem_map.1 hr
      exact .inr (.inl ⟨_, (hF _).2 ⟨k, hk, rfl⟩, rfl⟩)
  unnested r hr := by
    rcases List.mem_append.1 hr with hr | hr
    · exact h.unnested r hr
    · obtain ⟨k, hk, rfl⟩ := List.mem_map.1 hr
      simp [Rule.fact]
  forced S hS f hf := by
    obtain ⟨k, hk, rfl⟩ := (hF f).1 hf
    have := hS _ (List.mem_append_right _ (List.mem_map_of_mem hk))
    simpa [Rule.SatisfiedBy, Rule.fact] using this
  determined r hr f hf hhead I S D hS hD hbody := by
    obtain ⟨k, hk, rfl⟩ := (hF f).1 hf
    rcases List.mem_append.1 hr with hr | hr
    -- switches are derived by the facts only
    · rcases h.heads r hr with hnil | hstates
      · simp [hnil] at hhead
      · exact (head_ne_switch hc (.activation k) hhead hstates).elim
    · obtain ⟨j, hj, rfl⟩ := List.mem_map.1 hr
      exact ⟨bodyHolds_nil S D, by simp [Rule.fact]⟩
  iff I S hS hFS := by
    rw [← h.iff I S hS hFS]
    constructor
    · exact fun hall r hr => hall.1 r (List.mem_append_left _ hr)
    · refine fun hall => ⟨fun r hr => ?_, fun f hf => ?_⟩
      · rcases List.mem_append.1 hr with hr | hr
        · exact hall r hr
        · obtain ⟨k, hk, rfl⟩ := List.mem_map.1 hr
          exact fun _ => ⟨_, List.mem_singleton_self _, hFS ((hF _).2 ⟨k, hk, rfl⟩)⟩
      · obtain ⟨k, hk, rfl⟩ := (hF f).1 hf
        exact ⟨_, List.mem_append_right _ (List.mem_map_of_mem hk), rfl, bodyHolds_nil S S⟩

namespace Arranges

theorem mono {c' : Context} (hle : c ≤ c') (h : c.Arranges F φ rules) : c'.Arranges F φ rules where
  switches := h.switches
  heads r hr := (h.heads r hr).imp_right
    (.imp_right fun ⟨a, χ, ha, hhead⟩ => ⟨a, χ, ha.mono hle, hhead⟩)
  unnested := h.unnested
  forced := h.forced
  determined r hr f hf hhead I S D hS hD :=
    h.determined r hr f hf hhead I S D (hS.anti hle) (hD.anti hle)
  iff I S hS := h.iff I S (hS.anti hle)

/-- Only the given switches are derived. -/
theorem mem_of_head_eq (hc : c.Ready) (h : c.Arranges F φ rules) {r : Rule} (hr : r ∈ rules)
    {f : Atom} (hf : IsSwitch f) (hhead : r.head = [f]) : f ∈ F := by
  rcases h.heads r hr with hnil | ⟨f', hf', hf''⟩ | hstates
  · simp [hnil] at hhead
  · rw [hhead, List.singleton_inj] at hf''
    exact hf'' ▸ hf'
  · exact (head_ne_switch hc hf hhead hstates).elim

section Query

variable {q : Atom} {bodies : List Body} {r : Rule} {S : Set Atom}

theorem mem_queryRules : r ∈ rules ++ bodies.map (.derive q) ++ [.constraint [.not q]] ↔
    r ∈ rules ∨ (∃ b ∈ bodies, r = .derive q b) ∨ r = .constraint [.not q] := by
  simp [eq_comm]

/-- Where the query atom is true, its rules are satisfied. -/
theorem satisfiedBy_queryRules_iff (hq : q ∈ S) :
    (∀ r ∈ rules ++ bodies.map (.derive q) ++ [.constraint [.not q]], r.SatisfiedBy S) ↔
      ∀ r ∈ rules, r.SatisfiedBy S := by
  refine ⟨fun hall r hr => hall r (mem_queryRules.2 (.inl hr)), fun hall r hr => ?_⟩
  rcases mem_queryRules.1 hr with hr | ⟨b, -, rfl⟩ | rfl
  · exact hall r hr
  · exact fun _ => ⟨q, List.mem_singleton_self q, hq⟩
  · exact fun hnot => absurd hq (by simpa [Rule.constraint] using hnot)

/-- The query atom is founded by a true body of its own, and by nothing else. -/
theorem founded_queryRules_iff (hqF : q ∉ F) (hrules : ∀ r ∈ rules, r.head ≠ [q]) :
    (∀ f ∈ insert q F, ∃ r ∈ rules ++ bodies.map (.derive q) ++ [.constraint [.not q]],
        r.head = [f] ∧ BodyHolds S S r.body) ↔
      (∀ f ∈ F, ∃ r ∈ rules, r.head = [f] ∧ BodyHolds S S r.body) ∧
        ∃ b ∈ bodies, BodyHolds S S b := by
  constructor
  · refine fun hfounded => ⟨fun f hf => ?_, ?_⟩
    · obtain ⟨r, hr, hhead, hbody⟩ := hfounded f (Set.mem_insert_of_mem q hf)
      rcases mem_queryRules.1 hr with hr | ⟨b, -, rfl⟩ | rfl
      · exact ⟨r, hr, hhead, hbody⟩
      · obtain rfl := List.singleton_inj.1 hhead
        exact absurd hf hqF
      · cases hhead
    · obtain ⟨r, hr, hhead, hbody⟩ := hfounded q (Set.mem_insert q F)
      rcases mem_queryRules.1 hr with hr | ⟨b, hb, rfl⟩ | rfl
      · exact absurd hhead (hrules r hr)
      · exact ⟨b, hb, hbody⟩
      · cases hhead
  · rintro ⟨hfounded, b, hb, hbody⟩ f hf
    rcases Set.mem_insert_iff.1 hf with rfl | hf
    · exact ⟨_, mem_queryRules.2 (.inr (.inl ⟨b, hb, rfl⟩)), rfl, hbody⟩
    · obtain ⟨r, hr, hrule⟩ := hfounded f hf
      exact ⟨r, mem_queryRules.2 (.inl hr), hrule⟩

/-- A query atom is demanded, and derived from each body of a sentence. -/
theorem query (hc : c.Ready) (h : c.Arranges F φ rules) (hq : IsSwitch q) (hqF : q ∉ F)
    (hb : c.Expresses ψ bodies) : c.Arranges (insert q F) (fun I => φ I ∧ ψ I)
      (rules ++ bodies.map (.derive q) ++ [.constraint [.not q]]) where
  switches f hf := (Set.mem_insert_iff.1 hf).elim (fun heq => heq ▸ hq) (h.switches f)
  heads r hr := by
    rcases mem_queryRules.1 hr with hr | ⟨b, -, rfl⟩ | rfl
    · exact (h.heads r hr).imp_right
        (.imp_left fun ⟨f, hf, hhead⟩ => ⟨f, Set.mem_insert_of_mem q hf, hhead⟩)
    · exact .inr (.inl ⟨q, Set.mem_insert q F, rfl⟩)
    · exact .inl rfl
  unnested r hr := by
    rcases mem_queryRules.1 hr with hr | ⟨b, hbmem, rfl⟩ | rfl
    · exact h.unnested r hr
    · exact hb.unnested b hbmem
    · simp [Rule.constraint, Literal.isNested]
  forced S hS := by
    have hdemand : Rule.SatisfiedBy S (.constraint [.not q]) :=
      hS _ (mem_queryRules.2 (.inr (.inr rfl)))
    refine Set.insert_subset ?_ (h.forced S fun r hr => hS r (mem_queryRules.2 (.inl hr)))
    simpa [Rule.SatisfiedBy, Rule.constraint] using hdemand
  determined r hr f hf hhead I S D hS hD hbody := by
    rcases mem_queryRules.1 hr with hr | ⟨b, hbmem, rfl⟩ | rfl
    · have hswitch : IsSwitch f := (Set.mem_insert_iff.1 hf).elim (· ▸ hq) (h.switches f)
      exact h.determined r hr f (h.mem_of_head_eq hc hr hswitch hhead) hhead I S D hS hD hbody
    · have hold := hb.determined b hbmem I S S S D hS hS hS hD hbody
      exact ⟨hold, fun l hl => hb.submodel b hbmem l hl I S D hS hD (hold l hl)⟩
    · cases hhead
  iff I S hS hFS := by
    -- of the given rules none derives the new switch
    have hrules : ∀ r ∈ rules, r.head ≠ [q] := fun r hr hhead =>
      hqF (h.mem_of_head_eq hc hr hq hhead)
    rw [satisfiedBy_queryRules_iff (hFS (Set.mem_insert q F)), founded_queryRules_iff hqF hrules,
      ← and_assoc, h.iff I S hS ((Set.subset_insert q F).trans hFS), hb.iff I S S hS hS]

end Query

end Arranges

/-! ## Answer sets -/

/-- The evaluation over the elements that a set of atoms describes, where names without a symbol
stand for nothing. -/
def interpret (c : Context) (S : Set Atom) : Evaluation Individual where
  counts := c.isDirect
  domain := {i | ∃ x ∈ c.elements, x.individual = i}
  denote := id
  classes iri := {i | ∃ s, c.classes.find? iri = some s ∧
    ∃ x ∈ c.elements, x.individual = i ∧ unaryAtom s x ∈ S}
  properties iri i j := ∃ s, c.properties.find? iri = some s ∧
    ∃ x ∈ c.elements, ∃ y ∈ c.elements, x.individual = i ∧ y.individual = j ∧ binaryAtom s x y ∈ S

theorem admits_interpret (hc : c.Ready) : c.Admits (c.interpret S) :=
  ⟨hc.overDomain_iff.2 ⟨rfl, rfl⟩, rfl⟩

theorem States.mem_iff_interpret (hc : c.Ready) {a : Atom} (ha : c.States a φ) :
    a ∈ S ↔ φ (c.interpret S) := by
  cases ha with
  | @member iri s x hs hx =>
    constructor
    · exact fun h => ⟨s, hs, x, hx, rfl, h⟩
    · rintro ⟨s', hs', x', hx', heq, h⟩
      obtain rfl := hc.eq_of_individual_eq hx' hx heq
      rw [hs] at hs'
      cases hs'
      exact h
  | @leads iri s x y hs hx hy =>
    constructor
    · exact fun h => ⟨s, hs, x, hx, y, hy, rfl, rfl, h⟩
    · rintro ⟨s', hs', x', hx', y', hy', hxx, hyy, h⟩
      obtain rfl := hc.eq_of_individual_eq hx' hx hxx
      obtain rfl := hc.eq_of_individual_eq hy' hy hyy
      rw [hs] at hs'
      cases hs'
      exact h

end Context

namespace Context

variable {c : Context} {I : Evaluation Individual} {F S : Set Atom} {φ : Sentence}
  {background arranged rules : List Rule}

section

variable (hc : c.Ready) (hb : c.Background background) (ha : c.Arranges F φ arranged)
  (hrules : ∀ r, r ∈ rules ↔ r ∈ background ∨ r ∈ arranged)

include hc ha

theorem auxAtom_notMem_head {r : Rule} (hr : r ∈ arranged) (k : Nat) (x : Element) :
    Grounding.auxAtom k x ∉ r.head := by
  intro hmem
  rcases ha.heads r hr with hnil | ⟨f, hf, hhead⟩ | ⟨a, ψ, hstates, hhead | hhead⟩
  · simp [hnil] at hmem
  · rw [hhead, List.mem_singleton] at hmem
    exact not_isSwitch_auxAtom k x (hmem ▸ ha.switches f hf)
  · rw [hhead, List.mem_singleton] at hmem
    exact hstates.ne_auxAtom hc k x hmem
  · rw [hhead, List.mem_singleton] at hmem
    exact hstates.ne_complement rfl hmem

include hb hrules

/-- An answer set of the program describes all evaluations that agree with it. -/
theorem Arranges.describes (hS : IsStable rules S) (hI : c.Admits I)
    (hstates : ∀ a ψ, c.States a ψ → (a ∈ S ↔ ψ I)) : c.Describes I S := by
  refine describes_of_isStable hb (fun r hr => (hrules r).2 (.inl hr)) hc (fun r hr => ?_) hS hI
    hstates
  exact ((hrules r).1 hr).imp_right fun hr => auxAtom_notMem_head hc ha hr

omit hc in
/-- What the rules of a program can derive. -/
theorem Arranges.head_cases {r : Rule} (hr : r ∈ rules) {a : Atom} (hmem : a ∈ r.head) :
    (∃ b ψ, c.States b ψ ∧ (a = b ∨ a = b.complement)) ∨
      (∃ k d x, c.definitions[k]? = some d ∧ x ∈ c.elements ∧
        a = Grounding.auxAtom (k + 1) x) ∨ a ∈ F := by
  rcases (hrules r).1 hr with hr | hr
  · rcases hb.only r hr with ⟨b, ψ, hs, rfl⟩ | ⟨k, x, bodies, ⟨d, hd, hx, -⟩, b, -, rfl⟩
    · exact .inl ⟨b, ψ, hs, by simpa [Rule.choice] using hmem⟩
    · exact .inr (.inl ⟨k, d, x, hd, hx, List.mem_singleton.1 hmem⟩)
  · rcases ha.heads r hr with hnil | ⟨f, hf, hhead⟩ | ⟨b, ψ, hs, hhead | hhead⟩
    · simp [hnil] at hmem
    · rw [hhead, List.mem_singleton] at hmem
      exact .inr (.inr (hmem ▸ hf))
    · rw [hhead, List.mem_singleton] at hmem
      exact .inl ⟨b, ψ, hs, .inl hmem⟩
    · rw [hhead, List.mem_singleton] at hmem
      exact .inl ⟨b, ψ, hs, .inr hmem⟩

/-- No rule derives a switch that is not settled to be on. -/
theorem Arranges.notMem_head {f : Atom} (hf : IsSwitch f) (hout : f ∉ F) {r : Rule}
    (hr : r ∈ rules) : f ∉ r.head := by
  intro hmem
  rcases ha.head_cases hb hrules hr hmem with
    ⟨b, ψ, hs, rfl | rfl⟩ | ⟨k, d, x, -, -, rfl⟩ | hmem
  · exact hs.not_isSwitch hc hf
  · exact hs.ne_complement hf.negated rfl
  · exact not_isSwitch_auxAtom _ _ hf
  · exact hout hmem

/-- Every switch that is on has a rule that switches it on. -/
theorem Arranges.exists_rule (hS : IsStable rules S) {f : Atom} (hf : f ∈ F) (hfS : f ∈ S) :
    ∃ r ∈ arranged, r.head = [f] ∧ BodyHolds S S r.body := by
  have hswitch := ha.switches f hf
  obtain ⟨r, hr, hmem, hbody, -⟩ := hS.mem_iff.1 hfS
  rcases (hrules r).1 hr with hr | hr
  · rcases hb.only r hr with ⟨b, ψ, hs, rfl⟩ | ⟨k, x, bodies, -, b, -, rfl⟩
    · rcases (by simpa [Rule.choice] using hmem : f = b ∨ f = b.complement) with rfl | heq
      · exact absurd hswitch (hs.not_isSwitch hc)
      · exact absurd heq (hs.ne_complement hswitch.negated)
    · rw [List.mem_singleton.1 hmem] at hswitch
      exact absurd hswitch (not_isSwitch_auxAtom _ _)
  · have hhead : r.head = [f] := by
      rcases ha.heads r hr with hnil | ⟨f', -, hhead⟩ | ⟨b, ψ, hs, hhead | hhead⟩
      · simp [hnil] at hmem
      · rw [hhead, List.mem_singleton] at hmem
        rw [hhead, hmem]
      · rw [hhead, List.mem_singleton] at hmem
        rw [hhead, hmem]
      · rw [hhead, List.mem_singleton] at hmem
        rw [hhead, hmem]
    exact ⟨r, hr, hhead, hbody⟩

omit hc hb ha hrules in
theorem Describes.truth_subset (hI : c.Describes I S) : c.truth I ⊆ S := by
  intro a htrue
  cases htrue with
  | stated hs h => exact (hI.states _ _ hs).1.2 h
  | denied hs h => exact (hI.states _ _ hs).2.2 h
  | defined hd hx h => exact (hI.defined _ _ hd _ hx).2 h

/-- In an evaluation that an answer set describes the sentence is true, and the answer set says
what is true in it and what is switched on. -/
theorem Arranges.of_describes (hS : IsStable rules S) (hI : c.Describes I S) :
    φ I ∧ S = c.truth I ∪ F := by
  have hall : ∀ r ∈ arranged, r.SatisfiedBy S := fun r hr => hS.satisfiedBy ((hrules r).2 (.inr hr))
  have hF : F ⊆ S := ha.forced S hall
  refine ⟨(ha.iff I S hI hF).1 ⟨hall, fun f hf => ?_⟩, Set.Subset.antisymm (fun a hmem => ?_)
    (Set.union_subset hI.truth_subset hF)⟩
  · exact ha.exists_rule hc hb hrules hS hf (hF hf)
  · obtain ⟨r, hr, hsupports⟩ := hS.mem_iff.1 hmem
    rcases ha.head_cases hb hrules hr hsupports.head with
      ⟨b, ψ, hs, rfl | rfl⟩ | ⟨k, d, x, hd, hx, rfl⟩ | hf
    · exact .inl (.stated hs ((hI.states _ _ hs).1.1 hmem))
    · exact .inl (.denied hs ((hI.states _ _ hs).2.1 hmem))
    · exact .inl (.defined hd hx ((hI.defined k d hd x hx).1 hmem))
    · exact .inr hf

omit hb hrules in
/-- What is true does not include an atom together with its opposite. -/
theorem Arranges.consistent_truth (hI : c.Admits I) {a : Atom}
    (h : a ∈ c.truth I ∪ F) : a.complement ∉ c.truth I ∪ F := by
  have hdescribes := describes_truth hc hI ha.switches
  -- only atoms over symbols have true opposites
  have hopposite : ∀ b ∈ c.truth I ∪ F, b.negated = true →
      ∃ b' ψ, c.States b' ψ ∧ b = b'.complement := by
    rintro b (htrue | hf) hneg
    · cases htrue with
      | stated hs h => simp [hs.negated] at hneg
      | denied hs h => exact ⟨_, _, hs, rfl⟩
      | defined hd hx h => cases hneg
    · simp [(ha.switches b hf).negated] at hneg
  intro hcomplement
  cases hneg : a.negated with
  | true =>
    obtain ⟨b, ψ, hs, rfl⟩ := hopposite a h hneg
    rw [Atom.complement_complement, (hdescribes.states b ψ hs).1] at hcomplement
    exact (hdescribes.states b ψ hs).2.1 h hcomplement
  | false =>
    obtain ⟨b, ψ, hs, heq⟩ := hopposite a.complement hcomplement (by simp [Atom.complement, hneg])
    obtain rfl : a = b := by simpa using congrArg Atom.complement heq
    exact (hdescribes.states a ψ hs).2.1 hcomplement ((hdescribes.states a ψ hs).1.1 h)

/-- What is true and switched on is closed under the rules. -/
theorem Arranges.closed_truth (hI : c.Admits I) (hφ : φ I) :
    consequences rules (c.truth I ∪ F) (c.truth I ∪ F) ⊆ c.truth I ∪ F := by
  rintro a ⟨r, hr, hsupports⟩
  have hdescribes := describes_truth hc hI ha.switches
  have hall := ((ha.iff I _ hdescribes Set.subset_union_right).2 hφ).1
  rcases (hrules r).1 hr with hr | hr
  · rcases hb.only r hr with ⟨b, ψ, hs, rfl⟩ | ⟨k, x, bodies, ⟨d, hd, hx, he⟩, b, hbmem, rfl⟩
    · obtain ⟨htrue, hfalse⟩ := hdescribes.states b ψ hs
      rcases Rule.supports_choice.1 hsupports with ⟨rfl, hnot⟩ | ⟨rfl, hnot⟩
      · exact htrue.2 (not_not.1 (mt hfalse.2 hnot))
      · exact hfalse.2 (mt htrue.2 hnot)
    · obtain ⟨rfl, hbody⟩ := Rule.supports_derive.1 hsupports
      have hbefore := hdescribes.anti (before_le c k)
      exact (hdescribes.defined k d hd x hx).2
        ((he.iff I _ _ hbefore hbefore).1 ⟨_, hbmem, hbody⟩)
  · -- arranged rules are satisfied
    obtain ⟨b, hmem, htrue⟩ := hall r hr hsupports.body
    exact hsupports.eq_of_mem hmem htrue ▸ htrue

/-- The true atoms of an evaluation in which the sentence is true are an answer set. -/
theorem Arranges.isStable_truth (hI : c.Admits I) (hφ : φ I) :
    IsStable rules (c.truth I ∪ F) := by
  have hdescribes := describes_truth hc hI ha.switches
  obtain ⟨hall, hfounded⟩ := (ha.iff I _ hdescribes Set.subset_union_right).2 hφ
  refine isStable_of_forall_closed (fun r hr hnil hbody => ?_)
    (fun a h => ha.consistent_truth hc hI h) (ha.closed_truth hc hb hrules hI hφ) fun D hD => ?_
  · rcases (hrules r).1 hr with hr | hr
    · rcases hb.only r hr with ⟨b, ψ, -, rfl⟩ | ⟨k, x, bodies, -, b, -, rfl⟩
      · cases hnil
      · cases hnil
    · obtain ⟨a, hmem, -⟩ := hall r hr hbody
      simp [hnil] at hmem
  · -- it is enough to look at the part of the closed set that is in the answer set
    have hpart : consequences rules (c.truth I ∪ F) (D ∩ (c.truth I ∪ F)) ⊆
        D ∩ (c.truth I ∪ F) := by
      apply Set.subset_inter
      · exact ((consequences rules _).monotone Set.inter_subset_left).trans hD
      · exact ((consequences rules _).monotone Set.inter_subset_right).trans
          (ha.closed_truth hc hb hrules hI hφ)
    -- this part describes the evaluation too, so it has all that is true
    have hdescribes' := describes_of_closed hb (fun r hr => (hrules r).2 (.inl hr)) hdescribes
      Set.inter_subset_right hpart
    apply Set.union_subset (hdescribes'.truth_subset.trans Set.inter_subset_left)
    intro f hf
    obtain ⟨r, hr, hhead, hbody⟩ := hfounded f hf
    have hbody' := (ha.determined r hr f hf hhead I _ _ hdescribes hdescribes' hbody).1
    have hsupports := (Rule.supports_of_head_eq hhead).2 ⟨rfl, hbody'⟩
    exact (hpart ⟨r, (hrules r).2 (.inr hr), hsupports⟩).1

end

end Context

end FixedDomain
