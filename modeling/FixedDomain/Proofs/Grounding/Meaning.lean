import FixedDomain.Proofs.AnswerSet.Disjunctive
import FixedDomain.Proofs.Evaluation

/-! # What atoms, bodies and rules of an encoding say

A context gives atoms a meaning: those over symbols of classes and properties, and those of
auxiliary predicates.

* `Context.Names` — the atoms over its predicates and elements.
* `Context.Describes` — a set of atoms says of all that the context has a predicate for what is true
  in an interpretation.
* `Context.Expresses` — one of some bodies is true, in every such set, exactly when a statement
  about interpretations is.
* `Context.Enforces` — some rules are satisfied, in every such set, exactly when a statement is
  true.

All of them are kept when a context is extended. The lemmas of this module put bodies and rules
together the way the encoding does.
-/

namespace FixedDomain

/-- A statement about evaluations over a fixed domain. -/
abbrev Sentence := Evaluation Individual → Prop

namespace Context

/-! ## Extension -/

/-- All that one context has a symbol or a definition for has the same one in another. -/
structure Extends (c c' : Context) : Prop where
  strategy : c'.strategy = c.strategy
  elements : c'.elements = c.elements
  classes : ∀ iri s, c.classes.find? iri = some s → c'.classes.find? iri = some s
  properties : ∀ iri s, c.properties.find? iri = some s → c'.properties.find? iri = some s
  definitions : ∀ (k : Nat) d, c.definitions[k]? = some d → c'.definitions[k]? = some d

instance : LE Context := ⟨Extends⟩

theorem le_refl (c : Context) : c ≤ c :=
  ⟨rfl, rfl, fun _ _ h => h, fun _ _ h => h, fun _ _ h => h⟩

theorem le_trans {c c' c'' : Context} (h : c ≤ c') (h' : c' ≤ c'') : c ≤ c'' where
  strategy := h'.strategy.trans h.strategy
  elements := h'.elements.trans h.elements
  classes iri s hs := h'.classes iri s (h.classes iri s hs)
  properties iri s hs := h'.properties iri s (h.properties iri s hs)
  definitions k d hd := h'.definitions k d (h.definitions k d hd)

theorem isDirect_eq {c c' : Context} (h : c ≤ c') : c'.isDirect = c.isDirect := by
  rw [isDirect, isDirect, h.strategy]

/-! ## Atoms -/

/-- The positive atoms over symbols of classes and properties, with what they state. -/
inductive States (c : Context) : Atom → Sentence → Prop
  | member {iri : Iri} {s : String} {x : Element} (hs : c.classes.find? iri = some s)
      (hx : x ∈ c.elements) : States c (unaryAtom s x) fun I => x.individual ∈ I.classes iri
  | leads {iri : Iri} {s : String} {x y : Element} (hs : c.properties.find? iri = some s)
      (hx : x ∈ c.elements) (hy : y ∈ c.elements) :
      States c (binaryAtom s x y) fun I => I.properties iri x.individual y.individual

theorem States.mono {c c' : Context} (h : c ≤ c') {a : Atom} {φ : Sentence}
    (ha : c.States a φ) : c'.States a φ := by
  cases ha with
  | member hs hx => exact .member (h.classes _ _ hs) (h.elements ▸ hx)
  | leads hs hx hy => exact .leads (h.properties _ _ hs) (h.elements ▸ hx) (h.elements ▸ hy)

/-- The atoms that a context has a predicate for: those that state something, their opposites, and
those of expressions with an auxiliary predicate. -/
inductive Names (c : Context) : Atom → Prop
  | stated {a : Atom} {φ : Sentence} (h : c.States a φ) : Names c a
  | denied {a : Atom} {φ : Sentence} (h : c.States a φ) : Names c a.complement
  | aux {k : Nat} {d : ClassExpression} {x : Element} (hd : c.definitions[k]? = some d)
      (hx : x ∈ c.elements) : Names c (Grounding.auxAtom (k + 1) x)

theorem Names.mono {c c' : Context} (h : c ≤ c') {a : Atom} (ha : c.Names a) : c'.Names a := by
  cases ha with
  | stated ha => exact .stated (ha.mono h)
  | denied ha => exact .denied (ha.mono h)
  | aux hd hx => exact .aux (h.definitions _ _ hd) (h.elements ▸ hx)

/-- A set of atoms says what is true in an evaluation over the elements: atoms, their opposites and
auxiliary atoms. Upper bounds are evaluated as the strategy of the context reads them. -/
structure Describes (c : Context) (I : Evaluation Individual) (T : Set Atom) : Prop where
  counts : I.counts = c.isDirect
  domain : I.domain = {i | ∃ x ∈ c.elements, x.individual = i}
  denote : I.denote = id
  states : ∀ a φ, c.States a φ → (a ∈ T ↔ φ I) ∧ (a.complement ∈ T ↔ ¬ φ I)
  defined : ∀ (k : Nat) d, c.definitions[k]? = some d → ∀ x ∈ c.elements,
    Grounding.auxAtom (k + 1) x ∈ T ↔ I.Member d x.individual

theorem Describes.anti {c c' : Context} (h : c ≤ c') {I : Evaluation Individual} {T : Set Atom}
    (hT : c'.Describes I T) : c.Describes I T where
  counts := hT.counts.trans (isDirect_eq h)
  domain := h.elements ▸ hT.domain
  denote := hT.denote
  states a φ ha := hT.states a φ (ha.mono h)
  defined k d hd x hx := hT.defined k d (h.definitions k d hd) x (h.elements ▸ hx)

theorem Describes.mem_domain {c : Context} {I : Evaluation Individual} {T : Set Atom}
    (h : c.Describes I T) {i : Individual} : i ∈ I.domain ↔ ∃ x ∈ c.elements, x.individual = i := by
  rw [h.domain]
  rfl

/-- What holds of the domain holds of all elements. -/
theorem Describes.forall_domain {c : Context} {I : Evaluation Individual} {T : Set Atom}
    (h : c.Describes I T) {P : Individual → Prop} :
    (∀ i ∈ I.domain, P i) ↔ ∀ x ∈ c.elements, P x.individual := by
  simp only [h.mem_domain]
  constructor
  · exact fun hP x hx => hP _ ⟨x, hx, rfl⟩
  · rintro hP i ⟨x, hx, rfl⟩
    exact hP x hx

/-- What holds of one of the domain holds of one of the elements. -/
theorem Describes.exists_domain {c : Context} {I : Evaluation Individual} {T : Set Atom}
    (h : c.Describes I T) {P : Individual → Prop} :
    (∃ i ∈ I.domain, P i) ↔ ∃ x ∈ c.elements, P x.individual := by
  simp only [h.mem_domain]
  constructor
  · rintro ⟨i, ⟨x, hx, rfl⟩, hP⟩
    exact ⟨x, hx, hP⟩
  · rintro ⟨x, hx, hP⟩
    exact ⟨_, ⟨x, hx, rfl⟩, hP⟩

/-! ## Bodies -/

/-- One of some bodies over the predicates of a context is true exactly when a statement is, and
which ones are does not depend on how an interpretation is described. Denied atoms are read in `S`,
the others in `D`, as in the reduct for a candidate; for counts it does not matter whether they are
frozen in `S`. -/
structure Expresses (c : Context) (φ : Sentence) (bodies : List Body) :
    Prop where
  named : ∀ b ∈ bodies, ∀ l ∈ b, ∀ a ∈ l.atoms, c.Names a
  unnested : ∀ b ∈ bodies, ∀ l ∈ b, l.isNested = false
  submodel : ∀ b ∈ bodies, ∀ l ∈ b, ∀ I S D, c.Describes I S → c.Describes I D →
    l.InReduct S D → l.InSubmodel S D
  determined : ∀ b ∈ bodies, ∀ I S D S' D', c.Describes I S → c.Describes I D →
    c.Describes I S' → c.Describes I D' → BodyHolds S D b → BodyHolds S' D' b
  iff : ∀ I S D, c.Describes I S → c.Describes I D → ((∃ b ∈ bodies, BodyHolds S D b) ↔ φ I)

/-- That a body is true where an interpretation is described. -/
def Reading (c : Context) (b : Body) : Sentence := fun I => ∃ S, c.Describes I S ∧ BodyHolds S S b

section

variable {c : Context} {φ ψ : Sentence} {bodies more : List Body}

namespace Expresses

theorem mono {c' : Context} (h : c ≤ c') (hb : c.Expresses φ bodies) : c'.Expresses φ bodies where
  named b hmem l hl a ha := (hb.named b hmem l hl a ha).mono h
  unnested := hb.unnested
  submodel b hmem l hl I S D hS hD := hb.submodel b hmem l hl I S D (hS.anti h) (hD.anti h)
  determined b hmem I S D S' D' hS hD hS' hD' :=
    hb.determined b hmem I S D S' D' (hS.anti h) (hD.anti h) (hS'.anti h) (hD'.anti h)
  iff I S D hS hD := hb.iff I S D (hS.anti h) (hD.anti h)

theorem congr (hb : c.Expresses φ bodies) (h : ∀ I S, c.Describes I S → (φ I ↔ ψ I)) :
    c.Expresses ψ bodies :=
  ⟨hb.named, hb.unnested, hb.submodel, hb.determined,
    fun I S D hS hD => (hb.iff I S D hS hD).trans (h I S hS)⟩

/-- A single body. -/
theorem single {body : Body} (named : ∀ l ∈ body, ∀ a ∈ l.atoms, c.Names a)
    (unnested : ∀ l ∈ body, l.isNested = false)
    (submodel : ∀ l ∈ body, ∀ I S D, c.Describes I S → c.Describes I D →
      l.InReduct S D → l.InSubmodel S D)
    (iff : ∀ I S D, c.Describes I S → c.Describes I D → (BodyHolds S D body ↔ φ I)) :
    c.Expresses φ [body] := by
  refine ⟨fun b hb => ?_, fun b hb => ?_, fun b hb => ?_,
    fun b hb I S D S' D' hS hD hS' hD' => ?_, fun I S D hS hD => ?_⟩
  · obtain rfl := List.mem_singleton.1 hb
    exact named
  · obtain rfl := List.mem_singleton.1 hb
    exact unnested
  · obtain rfl := List.mem_singleton.1 hb
    exact submodel
  · obtain rfl := List.mem_singleton.1 hb
    rw [iff I S D hS hD, iff I S' D' hS' hD']
    exact id
  · simpa using iff I S D hS hD

/-- A single body without counts. -/
theorem plain {body : Body} (named : ∀ l ∈ body, ∀ a ∈ l.atoms, c.Names a)
    (plain : ∀ l ∈ body, l.isCount = false)
    (iff : ∀ I S D, c.Describes I S → c.Describes I D → (BodyHolds S D body ↔ φ I)) :
    c.Expresses φ [body] := by
  refine single named (fun l hl => ?_) (fun l hl I S D _ _ h => ?_) iff
  · have hplain := plain l hl
    cases l with
    | count es op bound => cases hplain
    | _ => rfl
  · exact (Literal.inSubmodel_iff_of_not_isCount (plain l hl)).2 h

/-- Each of some bodies expresses that it is true. -/
theorem reading (hb : c.Expresses φ bodies) {b : Body} (h : b ∈ bodies) :
    c.Expresses (c.Reading b) [b] := by
  refine single (hb.named b h) (hb.unnested b h) (hb.submodel b h)
    fun I S D hS hD => ⟨fun hold => ⟨S, hS, ?_⟩, ?_⟩
  · exact hb.determined b h I S D S S hS hD hS hS hold
  · rintro ⟨S', hS', hold⟩
    exact hb.determined b h I S' S' S D hS' hS' hS hD hold

theorem exists_reading_iff (hb : c.Expresses φ bodies) {I : Evaluation Individual} {S : Set Atom}
    (hS : c.Describes I S) : (∃ b ∈ bodies, c.Reading b I) ↔ φ I := by
  rw [← hb.iff I S S hS hS]
  constructor
  · rintro ⟨b, hmem, S', hS', hold⟩
    exact ⟨b, hmem, hb.determined b hmem I S' S' S S hS' hS' hS hS hold⟩
  · rintro ⟨b, hmem, hold⟩
    exact ⟨b, hmem, S, hS, hold⟩

theorem always : c.Expresses (fun _ => True) [[]] :=
  plain (by simp) (by simp) (by simp)

theorem never : c.Expresses (fun _ => False) [] :=
  ⟨by simp, by simp, by simp, by simp, by simp⟩

theorem pos {a : Atom} (ha : c.States a φ) : c.Expresses φ [[.pos a]] := by
  apply plain (by simpa [Literal.atoms] using .stated ha) (by simp [Literal.isCount])
  intro I S D _ hD
  simpa using (hD.states a φ ha).1

theorem complement {a : Atom} (ha : c.States a φ) :
    c.Expresses (fun I => ¬ φ I) [[.pos a.complement]] := by
  apply plain (by simpa [Literal.atoms] using .denied ha) (by simp [Literal.isCount])
  intro I S D _ hD
  simpa using (hD.states a φ ha).2

theorem aux {k : Nat} {d : ClassExpression} {x : Element} (hd : c.definitions[k]? = some d)
    (hx : x ∈ c.elements) :
    c.Expresses (fun I => I.Member d x.individual) [[.pos (Grounding.auxAtom (k + 1) x)]] := by
  apply plain (by simpa [Literal.atoms] using .aux hd hx) (by simp [Literal.isCount])
  intro I S D _ hD
  simpa using hD.defined k d hd x hx

theorem not_aux {k : Nat} {d : ClassExpression} {x : Element} (hd : c.definitions[k]? = some d)
    (hx : x ∈ c.elements) :
    c.Expresses (fun I => ¬ I.Member d x.individual) [[.not (Grounding.auxAtom (k + 1) x)]] := by
  apply plain (by simpa [Literal.atoms] using .aux hd hx) (by simp [Literal.isCount])
  intro I S D hS _
  simpa using not_congr (hS.defined k d hd x hx)

/-- More alternatives. -/
theorem or (hb : c.Expresses φ bodies) (hm : c.Expresses ψ more) :
    c.Expresses (fun I => φ I ∨ ψ I) (bodies ++ more) := by
  refine ⟨fun b h => ?_, fun b h => ?_, fun b h => ?_, fun b h => ?_, fun I S D hS hD => ?_⟩
  · exact (List.mem_append.1 h).elim (hb.named b) (hm.named b)
  · exact (List.mem_append.1 h).elim (hb.unnested b) (hm.unnested b)
  · exact (List.mem_append.1 h).elim (hb.submodel b) (hm.submodel b)
  · exact (List.mem_append.1 h).elim (hb.determined b) (hm.determined b)
  · rw [← hb.iff I S D hS hD, ← hm.iff I S D hS hD]
    simp only [List.mem_append, or_and_right, exists_or]

/-- The combinations of two lists of alternatives. -/
theorem product (hb : c.Expresses φ bodies) (hm : c.Expresses ψ more) :
    c.Expresses (fun I => φ I ∧ ψ I) (bodies.flatMap fun a => more.map fun b => a ++ b) := by
  refine ⟨fun b h l hl => ?_, fun b h l hl => ?_, fun b h l hl => ?_,
    fun b h I S D S' D' hS hD hS' hD' hold => ?_, fun I S D hS hD => ?_⟩
  · obtain ⟨b₁, h₁, h⟩ := List.mem_flatMap.1 h
    obtain ⟨b₂, h₂, rfl⟩ := List.mem_map.1 h
    exact (List.mem_append.1 hl).elim (hb.named b₁ h₁ l) (hm.named b₂ h₂ l)
  · obtain ⟨b₁, h₁, h⟩ := List.mem_flatMap.1 h
    obtain ⟨b₂, h₂, rfl⟩ := List.mem_map.1 h
    exact (List.mem_append.1 hl).elim (hb.unnested b₁ h₁ l) (hm.unnested b₂ h₂ l)
  · obtain ⟨b₁, h₁, h⟩ := List.mem_flatMap.1 h
    obtain ⟨b₂, h₂, rfl⟩ := List.mem_map.1 h
    exact (List.mem_append.1 hl).elim (hb.submodel b₁ h₁ l) (hm.submodel b₂ h₂ l)
  · obtain ⟨b₁, h₁, h⟩ := List.mem_flatMap.1 h
    obtain ⟨b₂, h₂, rfl⟩ := List.mem_map.1 h
    obtain ⟨hold₁, hold₂⟩ := bodyHolds_append.1 hold
    exact bodyHolds_append.2 ⟨hb.determined b₁ h₁ I S D S' D' hS hD hS' hD' hold₁,
      hm.determined b₂ h₂ I S D S' D' hS hD hS' hD' hold₂⟩
  · rw [← hb.iff I S D hS hD, ← hm.iff I S D hS hD]
    constructor
    · rintro ⟨b, h, hold⟩
      obtain ⟨b₁, h₁, h⟩ := List.mem_flatMap.1 h
      obtain ⟨b₂, h₂, rfl⟩ := List.mem_map.1 h
      obtain ⟨hold₁, hold₂⟩ := bodyHolds_append.1 hold
      exact ⟨⟨b₁, h₁, hold₁⟩, b₂, h₂, hold₂⟩
    · rintro ⟨⟨b₁, h₁, hold₁⟩, b₂, h₂, hold₂⟩
      refine ⟨b₁ ++ b₂, List.mem_flatMap.2 ⟨b₁, h₁, List.mem_map.2 ⟨b₂, h₂, rfl⟩⟩, ?_⟩
      exact bodyHolds_append.2 ⟨hold₁, hold₂⟩

/-- Two bodies together. -/
theorem and {a b : Body} (ha : c.Expresses φ [a]) (hb : c.Expresses ψ [b]) :
    c.Expresses (fun I => φ I ∧ ψ I) [a ++ b] := by
  simpa using ha.product hb

/-- The alternatives for each item of a list. -/
theorem flatten {α : Type} {χ : α → Sentence} {items : List α}
    {lists : List (List Body)} (h : List.Forall₂ (fun x bs => c.Expresses (χ x) bs) items lists) :
    c.Expresses (fun I => ∃ x ∈ items, χ x I) lists.flatten := by
  induction h with
  | nil => exact never.congr fun I S _ => by simp
  | cons hx _ ih => exact (hx.or ih).congr fun I S _ => by simp

/-- One body for each item of a list. -/
theorem list {α : Type} {χ : α → Sentence} {items : List α}
    {bodies : List Body} (h : List.Forall₂ (fun x b => c.Expresses (χ x) [b]) items bodies) :
    c.Expresses (fun I => ∃ x ∈ items, χ x I) bodies := by
  have := flatten ((List.forall₂_map_right_iff (f := fun b => [b])).2 h)
  rwa [← List.flatMap_def, List.flatMap_singleton'] at this

end Expresses

/-! ## Bodies without counts -/

/-- At most one body, without counts, which is true exactly when a statement is. -/
structure Decides (c : Context) (φ : Sentence) (body : Option Body) :
    Prop where
  plain : ∀ b ∈ body, ∀ l ∈ b, l.isCount = false
  expresses : c.Expresses φ body.toList

namespace Decides

variable {body : Option Body}

theorem mono {c' : Context} (h : c ≤ c') (hb : c.Decides φ body) : c'.Decides φ body :=
  ⟨hb.plain, hb.expresses.mono h⟩

theorem congr (hb : c.Decides φ body) (h : ∀ I S, c.Describes I S → (φ I ↔ ψ I)) :
    c.Decides ψ body :=
  ⟨hb.plain, hb.expresses.congr h⟩

theorem always : c.Decides (fun _ => True) (some []) := ⟨by simp, .always⟩

theorem never : c.Decides (fun _ => False) none := ⟨by simp, .never⟩

theorem pos {a : Atom} (ha : c.States a φ) : c.Decides φ (some [.pos a]) :=
  ⟨by simp [Literal.isCount], .pos ha⟩

theorem complement {a : Atom} (ha : c.States a φ) :
    c.Decides (fun I => ¬ φ I) (some [.pos a.complement]) :=
  ⟨by simp [Literal.isCount], .complement ha⟩

theorem aux {k : Nat} {d : ClassExpression} {x : Element} (hd : c.definitions[k]? = some d)
    (hx : x ∈ c.elements) :
    c.Decides (fun I => I.Member d x.individual) (some [.pos (Grounding.auxAtom (k + 1) x)]) :=
  ⟨by simp [Literal.isCount], .aux hd hx⟩

theorem not_aux {k : Nat} {d : ClassExpression} {x : Element} (hd : c.definitions[k]? = some d)
    (hx : x ∈ c.elements) :
    c.Decides (fun I => ¬ I.Member d x.individual) (some [.not (Grounding.auxAtom (k + 1) x)]) :=
  ⟨by simp [Literal.isCount], .not_aux hd hx⟩

theorem and {a b : Body} (ha : c.Decides φ (some a)) (hb : c.Decides ψ (some b)) :
    c.Decides (fun I => φ I ∧ ψ I) (some (a ++ b)) := by
  refine ⟨fun e he l hl => ?_, ha.expresses.and hb.expresses⟩
  cases he
  rcases List.mem_append.1 hl with hl | hl
  · exact ha.plain a rfl l hl
  · exact hb.plain b rfl l hl

/-- Without a body the statement is never true. -/
theorem not_of_none (h : c.Decides φ none) {I : Evaluation Individual} {S : Set Atom}
    (hS : c.Describes I S) : ¬ φ I := by
  rw [← h.expresses.iff I S S hS hS]
  simp

/-- A body without counts holds in the condition of a count if it holds. -/
theorem inCondition_iff {b : Body} (h : c.Decides φ (some b)) {I : Evaluation Individual}
    {S D : Set Atom} (hS : c.Describes I S) (hD : c.Describes I D) (gains : Bool) :
    (∀ l ∈ b, l.InCondition gains S D) ↔ φ I := by
  have hread : ∀ l ∈ b, l.InCondition gains S D ↔ l.InReduct S (if gains then D else S) := by
    intro l hl
    have := h.plain b rfl l hl
    cases l with
    | pos a => cases gains <;> rfl
    | not a => rfl
    | count es op bound => simp [Literal.isCount] at this
  have hdescribes : c.Describes I (if gains then D else S) := by
    cases gains
    · exact hS
    · exact hD
  rw [← h.expresses.iff I S _ hS hdescribes]
  simpa [BodyHolds] using forall₂_congr hread

end Decides

/-! ## Rules -/

/-- Some rules, whose heads are atoms that state something or their opposites, and whose bodies are
over the predicates of a context, are satisfied exactly when a sentence is true. -/
structure Enforces (c : Context) (φ : Sentence) (rules : List Rule) : Prop where
  heads : ∀ r ∈ rules, r.head = [] ∨
    ∃ a ψ, c.States a ψ ∧ (r.head = [a] ∨ r.head = [a.complement])
  named : ∀ r ∈ rules, ∀ l ∈ r.body, ∀ a ∈ l.atoms, c.Names a
  unnested : ∀ r ∈ rules, ∀ l ∈ r.body, l.isNested = false
  iff : ∀ I S, c.Describes I S → ((∀ r ∈ rules, r.SatisfiedBy S) ↔ φ I)

namespace Enforces

variable {rules others : List Rule} {body : Body}

theorem mono {c' : Context} (h : c ≤ c') (hr : c.Enforces φ rules) : c'.Enforces φ rules where
  heads r hmem := (hr.heads r hmem).imp_right fun ⟨a, χ, ha, hhead⟩ => ⟨a, χ, ha.mono h, hhead⟩
  named r hmem l hl a ha := (hr.named r hmem l hl a ha).mono h
  unnested := hr.unnested
  iff I S hS := hr.iff I S (hS.anti h)

theorem congr (hr : c.Enforces φ rules) (h : ∀ I S, c.Describes I S → (φ I ↔ ψ I)) :
    c.Enforces ψ rules :=
  ⟨hr.heads, hr.named, hr.unnested, fun I S hS => (hr.iff I S hS).trans (h I S hS)⟩

theorem nil : c.Enforces (fun _ => True) [] :=
  ⟨by simp, by simp, by simp, by simp⟩

theorem append (hr : c.Enforces φ rules) (ho : c.Enforces ψ others) :
    c.Enforces (fun I => φ I ∧ ψ I) (rules ++ others) where
  heads r hmem := (List.mem_append.1 hmem).elim (hr.heads r) (ho.heads r)
  named r hmem := (List.mem_append.1 hmem).elim (hr.named r) (ho.named r)
  unnested r hmem := (List.mem_append.1 hmem).elim (hr.unnested r) (ho.unnested r)
  iff I S hS := by
    rw [← hr.iff I S hS, ← ho.iff I S hS]
    simp only [List.mem_append, or_imp, forall_and]

/-- The rules for each item of a list. -/
theorem flatten {α : Type} {χ : α → Sentence} {items : List α} {lists : List (List Rule)}
    (h : List.Forall₂ (fun x rs => c.Enforces (χ x) rs) items lists) :
    c.Enforces (fun I => ∀ x ∈ items, χ x I) lists.flatten := by
  induction h with
  | nil => exact nil.congr fun I S _ => by simp
  | cons hx _ ih => exact (hx.append ih).congr fun I S _ => by simp

/-- One rule for each item of a list. -/
theorem list {α : Type} {χ : α → Sentence} {items : List α} {rules : List Rule}
    (h : List.Forall₂ (fun x r => c.Enforces (χ x) [r]) items rules) :
    c.Enforces (fun I => ∀ x ∈ items, χ x I) rules := by
  have := flatten ((List.forall₂_map_right_iff (f := fun r => [r])).2 h)
  rwa [← List.flatMap_def, List.flatMap_singleton'] at this

/-- Excluding all alternatives excludes what they express. -/
theorem constraints (hb : c.Expresses φ bodies) :
    c.Enforces (fun I => ¬ φ I) (bodies.map .constraint) where
  heads r hmem := by
    obtain ⟨b, -, rfl⟩ := List.mem_map.1 hmem
    exact .inl rfl
  named r hmem := by
    obtain ⟨b, hb', rfl⟩ := List.mem_map.1 hmem
    exact hb.named b hb'
  unnested r hmem := by
    obtain ⟨b, hb', rfl⟩ := List.mem_map.1 hmem
    exact hb.unnested b hb'
  iff I S hS := by
    rw [← hb.iff I S S hS hS]
    simp [Rule.SatisfiedBy, Rule.constraint]

theorem constraint (hb : c.Expresses φ [body]) :
    c.Enforces (fun I => ¬ φ I) [.constraint body] := constraints hb

/-- Deriving an atom from a body makes what the body expresses imply what the atom states. -/
theorem derive (hb : c.Expresses φ [body]) {a : Atom} (ha : c.States a ψ) :
    c.Enforces (fun I => φ I → ψ I) [.derive a body] where
  heads r hmem := by
    obtain rfl := List.mem_singleton.1 hmem
    exact .inr ⟨a, ψ, ha, .inl rfl⟩
  named r hmem := by
    obtain rfl := List.mem_singleton.1 hmem
    exact hb.named body (by simp)
  unnested r hmem := by
    obtain rfl := List.mem_singleton.1 hmem
    exact hb.unnested body (by simp)
  iff I S hS := by
    rw [← hb.iff I S S hS hS, ← (hS.states a ψ ha).1]
    simp [Rule.SatisfiedBy, Rule.derive]

theorem derive_complement (hb : c.Expresses φ [body]) {a : Atom} (ha : c.States a ψ) :
    c.Enforces (fun I => φ I → ¬ ψ I) [.derive a.complement body] where
  heads r hmem := by
    obtain rfl := List.mem_singleton.1 hmem
    exact .inr ⟨a, ψ, ha, .inr rfl⟩
  named r hmem := by
    obtain rfl := List.mem_singleton.1 hmem
    exact hb.named body (by simp)
  unnested r hmem := by
    obtain rfl := List.mem_singleton.1 hmem
    exact hb.unnested body (by simp)
  iff I S hS := by
    rw [← hb.iff I S S hS hS, ← (hS.states a ψ ha).2]
    simp [Rule.SatisfiedBy, Rule.derive]

theorem fact {a : Atom} (ha : c.States a ψ) : c.Enforces ψ [.fact a] :=
  (derive .always ha).congr fun I S _ => by simp

theorem fact_complement {a : Atom} (ha : c.States a ψ) :
    c.Enforces (fun I => ¬ ψ I) [.fact a.complement] :=
  (derive_complement .always ha).congr fun I S _ => by simp

end Enforces

end

end Context

end FixedDomain
