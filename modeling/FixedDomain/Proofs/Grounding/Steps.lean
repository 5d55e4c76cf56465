import FixedDomain.Grounding.Axiom
import FixedDomain.Proofs.Grounding.Meaning
import FixedDomain.Proofs.Naming

/-! # Steps of an encoding

What a step may do to the context it runs in:

* `Context.Ready` — symbols are read back as what they were given to.
* `Context.Background` — a list of rules makes exactly the symbols of the context total and defines
  exactly its auxiliary predicates.
* `Context.Grows` — a context has grown by symbols and definitions, and what is pending has grown by
  the rules for them. Over a vocabulary that is known already no symbol is added.
* `Grounding.Meets` — a step grows its context, and what it returns meets a condition. It fails only
  if it looks for an individual that is no element.
* `Context.withClass`, `Context.withProperty`, `Context.withDefinition` — the contexts in which a
  class, an object property or an expression has been entered.

The rules `Meets.bind`, `Meets.mapM` and `Meets.collect` follow the structure of a step. A context
grows by whatever is entered into it (`Grows.withClass`, `Grows.withProperty`, `Grows.withDefinition`).
-/

namespace FixedDomain

namespace Context

/-! ## Contexts in use -/

/-- Symbols are read back as what they were given to, and the elements are those of the domain. -/
structure Ready (c : Context) : Prop where
  naming : c.naming.Proper
  elements : c.elements.map (·.individual) = c.domain.elements.toList
  constants : ∀ x ∈ c.elements, c.naming.entity? x.constant = some (.individual x.individual.iri)
  classes : ∀ iri s, c.classes.find? iri = some s → c.naming.entity? s = some (.atomicClass iri)
  properties : ∀ iri s, c.properties.find? iri = some s →
    c.naming.entity? s = some (.objectProperty iri)

namespace Ready

variable {c : Context} (h : c.Ready)

include h

theorem nodup_individuals : (c.elements.map (·.individual)).Nodup := by
  rw [h.elements]
  exact c.domain.elements.nodup

theorem nodup_elements : c.elements.Nodup := .of_map _ h.nodup_individuals

theorem eq_of_individual_eq {x y : Element} (hx : x ∈ c.elements) (hy : y ∈ c.elements)
    (hxy : x.individual = y.individual) : x = y :=
  List.inj_on_of_nodup_map h.nodup_individuals hx hy hxy

theorem eq_of_constant_eq {x y : Element} (hx : x ∈ c.elements) (hy : y ∈ c.elements)
    (hxy : x.constant = y.constant) : x = y := by
  have hx' := h.constants x hx
  rw [hxy, h.constants y hy] at hx'
  apply h.eq_of_individual_eq hx hy
  obtain ⟨⟨⟨_⟩⟩, _⟩ := x
  obtain ⟨⟨⟨_⟩⟩, _⟩ := y
  simpa [eq_comm] using hx'

/-- An individual is that of an element if it is in the domain. -/
theorem exists_element_iff {i : Individual} :
    (∃ x ∈ c.elements, x.individual = i) ↔ i ∈ c.domain.elements := by
  rw [SortedSet.mem_def, ← h.elements, List.mem_map]

end Ready

/-! ## Background rules -/

/-- The context with its first definitions only. -/
def before (c : Context) (k : Nat) : Context := { c with definitions := c.definitions.take k }

theorem before_mono {c c' : Context} (h : c ≤ c') (k : Nat) : c.before k ≤ c'.before k where
  strategy := h.strategy
  elements := h.elements
  classes := h.classes
  properties := h.properties
  definitions j d hd := by
    simp only [before, List.getElem?_take] at hd ⊢
    split at hd
    · next hj => rw [if_pos hj]; exact h.definitions j d hd
    · cases hd

theorem before_le (c : Context) (k : Nat) : c.before k ≤ c where
  strategy := rfl
  elements := rfl
  classes _ _ h := h
  properties _ _ h := h
  definitions j d hd := by
    simp only [before, List.getElem?_take] at hd
    split at hd
    · exact hd
    · cases hd

/-- Some bodies define the k-th expression at an element; they mention earlier definitions only. -/
def Defines (c : Context) (k : Nat) (x : Element) (bodies : List Body) : Prop :=
  ∃ d, c.definitions[k]? = some d ∧ x ∈ c.elements ∧
    (c.before k).Expresses (fun I => I.Member d x.individual) bodies

theorem Defines.mono {c c' : Context} (h : c ≤ c') {k : Nat} {x : Element} {bodies : List Body}
    (hd : c.Defines k x bodies) : c'.Defines k x bodies := by
  obtain ⟨d, hd, hx, he⟩ := hd
  exact ⟨d, h.definitions k d hd, h.elements ▸ hx, he.mono (before_mono h k)⟩

/-- A rule makes an atom that states something total, or is one of those that define an auxiliary
predicate. -/
def IsBackground (c : Context) (r : Rule) : Prop :=
  (∃ a φ, c.States a φ ∧ r = .choice a) ∨
    ∃ k x bodies, c.Defines k x bodies ∧ ∃ b ∈ bodies, r = .derive (Grounding.auxAtom (k + 1) x) b

theorem IsBackground.mono {c c' : Context} (h : c ≤ c') {r : Rule} (hr : c.IsBackground r) :
    c'.IsBackground r := by
  rcases hr with ⟨a, φ, ha, rfl⟩ | ⟨k, x, bodies, hd, b, hb, rfl⟩
  · exact .inl ⟨a, φ, ha.mono h, rfl⟩
  · exact .inr ⟨k, x, bodies, hd.mono h, b, hb, rfl⟩

/-- Some rules make all atoms that state something total, define every auxiliary predicate at every
element, and do nothing else. -/
structure Background (c : Context) (rules : List Rule) : Prop where
  total : ∀ a φ, c.States a φ → Rule.choice a ∈ rules
  defined : ∀ k < c.definitions.length, ∀ x ∈ c.elements, ∃ bodies, c.Defines k x bodies ∧
    ∀ b ∈ bodies, Rule.derive (Grounding.auxAtom (k + 1) x) b ∈ rules
  only : ∀ r ∈ rules, c.IsBackground r

/-- The background rules of a larger context, of which only those for what is new are added. -/
theorem Background.extend {c c' : Context} {rules new : List Rule} (h : c.Background rules)
    (hle : c ≤ c')
    (htotal : ∀ a φ, c'.States a φ → c.States a φ ∨ Rule.choice a ∈ new)
    (hdefined : ∀ k < c'.definitions.length, k < c.definitions.length ∨
      ∀ x ∈ c'.elements, ∃ bodies, c'.Defines k x bodies ∧
        ∀ b ∈ bodies, Rule.derive (Grounding.auxAtom (k + 1) x) b ∈ new)
    (honly : ∀ r ∈ new, c'.IsBackground r) : c'.Background (rules ++ new) where
  total a φ ha := by
    rcases htotal a φ ha with ha | ha
    · exact List.mem_append_left _ (h.total a φ ha)
    · exact List.mem_append_right _ ha
  defined k hk x hx := by
    rcases hdefined k hk with hold | hnew
    · obtain ⟨bodies, hd, hb⟩ := h.defined k hold x (hle.elements ▸ hx)
      exact ⟨bodies, hd.mono hle, fun b hmem => List.mem_append_left _ (hb b hmem)⟩
    · obtain ⟨bodies, hd, hb⟩ := hnew x hx
      exact ⟨bodies, hd, fun b hmem => List.mem_append_right _ (hb b hmem)⟩
  only r hr := by
    rcases List.mem_append.1 hr with hr | hr
    · exact (h.only r hr).mono hle
    · exact honly r hr

/-! ## Growth -/

/-- Whether a class or an object property has been given a symbol. -/
def Knows (c : Context) : Entity → Prop
  | .atomicClass iri => c.classes.find? iri ≠ none
  | .objectProperty iri => c.properties.find? iri ≠ none
  | .individual _ => True

theorem Knows.mono {c c' : Context} (hle : c ≤ c') {e : Entity} (h : c.Knows e) : c'.Knows e := by
  cases e with
  | atomicClass iri =>
    obtain ⟨s, hs⟩ := Option.ne_none_iff_exists'.1 h
    exact Option.ne_none_iff_exists'.2 ⟨s, hle.classes iri s hs⟩
  | objectProperty iri =>
    obtain ⟨s, hs⟩ := Option.ne_none_iff_exists'.1 h
    exact Option.ne_none_iff_exists'.2 ⟨s, hle.properties iri s hs⟩
  | individual iri => trivial

/-- A context carries on another one over a vocabulary `V`: the domain is the same, and there are
symbols and definitions for all that there were before. Symbols have been added for the vocabulary
only, and none at all if it was known already. -/
structure Follows (V : Set Entity) (c c' : Context) : Prop where
  le : c ≤ c'
  ready : c'.Ready
  domain : c'.domain = c.domain
  within : ∀ e, c'.Knows e → c.Knows e ∨ e ∈ V
  settled : (∀ e ∈ V, c.Knows e) →
    c'.naming = c.naming ∧ c'.classes = c.classes ∧ c'.properties = c.properties

/-- A context has grown by symbols and definitions, the rules for which have become pending. -/
structure Grows (V : Set Entity) (c c' : Context) : Prop extends Follows V c c' where
  background : ∀ emitted, c.Background (emitted ++ c.pending.rules) →
    c'.Background (emitted ++ c'.pending.rules)

variable {V : Set Entity}

theorem Follows.refl {c : Context} (h : c.Ready) : c.Follows V c :=
  ⟨c.le_refl, h, rfl, fun _ => .inl, fun _ => ⟨rfl, rfl, rfl⟩⟩

theorem Follows.trans {c c' c'' : Context} (h : c.Follows V c') (h' : c'.Follows V c'') :
    c.Follows V c'' where
  le := le_trans h.le h'.le
  ready := h'.ready
  domain := h'.domain.trans h.domain
  within e he := (h'.within e he).elim (h.within e) .inr
  settled hknown := by
    obtain ⟨hn, hc, hp⟩ := h.settled hknown
    have hknown' : ∀ e ∈ V, c'.Knows e := by
      intro e he
      have := hknown e he
      cases e with
      | atomicClass iri => simpa [Knows, hc] using this
      | objectProperty iri => simpa [Knows, hp] using this
      | individual iri => trivial
    obtain ⟨hn', hc', hp'⟩ := h'.settled hknown'
    exact ⟨hn'.trans hn, hc'.trans hc, hp'.trans hp⟩

theorem Grows.refl {c : Context} (h : c.Ready) : c.Grows V c := ⟨.refl h, fun _ hb => hb⟩

theorem Grows.trans {c c' c'' : Context} (h : c.Grows V c') (h' : c'.Grows V c'') :
    c.Grows V c'' :=
  ⟨h.toFollows.trans h'.toFollows,
    fun emitted hb => h'.background emitted (h.background emitted hb)⟩

/-- A context grows by an entity that has been without a symbol, if the rules that make the atoms
over the new symbol total become pending. -/
theorem Grows.enter {c c' : Context} {e : Entity} (hV : e ∈ V) (hunknown : ¬ c.Knows e)
    {new : List Rule} (le : c ≤ c') (ready : c'.Ready) (domain : c'.domain = c.domain)
    (within : ∀ e', c'.Knows e' → c.Knows e' ∨ e' = e)
    (definitions : c'.definitions = c.definitions)
    (pending : c'.pending.rules = c.pending.rules ++ new)
    (total : ∀ a φ, c'.States a φ → c.States a φ ∨ Rule.choice a ∈ new)
    (only : ∀ r ∈ new, ∃ a φ, c'.States a φ ∧ r = .choice a) : c.Grows V c' where
  le := le
  ready := ready
  domain := domain
  within e' he := (within e' he).imp_right fun heq => by rwa [heq]
  settled hknown := absurd (hknown e hV) hunknown
  background emitted hb := by
    rw [pending, ← List.append_assoc]
    exact hb.extend le total (fun k hk => .inl (definitions ▸ hk)) fun r hr => .inl (only r hr)

end Context

/-! ## Running steps -/

namespace Grounding

variable {α β : Type}

/-- The outcome of a step and the context that it leaves. -/
def exec (m : Grounding α) (c : Context) : Except ReasonerError α × Context := m.run c

@[simp] theorem exec_get (c : Context) : (get : Grounding Context).exec c = (.ok c, c) := rfl

theorem exec_bind (m : Grounding α) (f : α → Grounding β) (c : Context) :
    (m >>= f).exec c =
      match m.exec c with
      | (.ok a, c') => (f a).exec c'
      | (.error e, c') => (.error e, c') := by
  cases h : m.exec c with
  | mk r c' =>
    have h' : m c = (r, c') := h
    change (ExceptT.bind m f) c = _
    simp only [ExceptT.bind, ExceptT.mk, bind, StateT.bind]
    rw [h']
    cases r <;> rfl

/-- A step goes on where another one ended, unless that one failed. -/
theorem exec_bind_cases (m : Grounding α) (f : α → Grounding β) (c : Context) :
    (∃ a c', m.exec c = (.ok a, c') ∧ (m >>= f).exec c = (f a).exec c') ∨
      ∃ e c', m.exec c = (.error e, c') ∧ (m >>= f).exec c = (.error e, c') := by
  rw [exec_bind]
  rcases m.exec c with ⟨_ | _, c'⟩
  · exact .inr ⟨_, c', rfl, rfl⟩
  · exact .inl ⟨_, c', rfl, rfl⟩

/-- A step over a vocabulary `V` grows its context, and what it returns meets a condition. It fails
only if an individual of the vocabulary is no element. -/
structure Meets (V : Set Entity) (m : Grounding α) (c : Context) (Q : Context → α → Prop) :
    Prop where
  grows : c.Grows V (m.exec c).2
  ok : ∀ a, (m.exec c).1 = .ok a → Q (m.exec c).2 a
  error : ∀ e, (m.exec c).1 = .error e →
    ∃ i : Individual, .individual i.iri ∈ V ∧ i ∉ c.domain.elements

namespace Meets

variable {V : Set Entity} {m : Grounding α} {f : α → Grounding β} {c : Context}
  {P : Context → α → Prop} {Q : Context → β → Prop}

theorem of_exec {a : α} {c' : Context} (hexec : m.exec c = (.ok a, c')) (hgrows : c.Grows V c')
    (h : P c' a) : Meets V m c P := by
  refine ⟨by rwa [hexec], fun b hb => ?_, fun e he => ?_⟩
  · rw [hexec] at hb ⊢
    cases hb
    exact h
  · rw [hexec] at he
    cases he

theorem pure {a : α} (hc : c.Ready) (h : P c a) : Meets V (pure a) c P :=
  of_exec rfl (.refl hc) h

theorem bind (hm : Meets V m c P)
    (hf : ∀ a c', c.Grows V c' → P c' a → Meets V (f a) c' Q) : Meets V (m >>= f) c Q := by
  have hgrows := hm.grows
  rcases exec_bind_cases m f c with ⟨a, c', hrun, hexec⟩ | ⟨e, c', hrun, hexec⟩
  · rw [hrun] at hgrows
    have hfa := hf a c' hgrows (by simpa [hrun] using hm.ok a (by rw [hrun]))
    refine ⟨?_, ?_, fun e he => ?_⟩
    · rw [hexec]
      exact hgrows.trans hfa.grows
    · rw [hexec]
      exact hfa.ok
    · rw [hexec] at he
      rw [← hgrows.domain]
      exact hfa.error e he
  · rw [hrun] at hgrows
    refine ⟨?_, fun b hb => ?_, fun _ _ => hm.error e (by rw [hrun])⟩
    · rw [hexec]
      exact hgrows
    · rw [hexec] at hb
      cases hb

/-- What is known of a result may be said in another way. -/
theorem imp {P' : Context → α → Prop} (hm : Meets V m c P)
    (h : ∀ a c', c.Grows V c' → P c' a → P' c' a) : Meets V m c P' :=
  ⟨hm.grows, fun a ha => h a _ hm.grows (hm.ok a ha), hm.error⟩

/-- What is returned is changed by a function. -/
theorem map {g : α → β} (hm : Meets V m c P)
    (h : ∀ a c', c.Grows V c' → P c' a → Q c' (g a)) :
    Meets V (m >>= fun a => Pure.pure (g a)) c Q :=
  hm.bind fun a c' hgrows ha => .pure hgrows.ready (h a c' hgrows ha)

theorem get {f : Context → Grounding β} (h : Meets V (f c) c Q) :
    Meets V (MonadState.get >>= f) c Q := by
  have hexec : (MonadState.get >>= f : Grounding β).exec c = (f c).exec c := rfl
  exact ⟨hexec ▸ h.grows, hexec ▸ h.ok, hexec ▸ h.error⟩

/-- A step for each item of a list, where what is known of a result stays true as the context
grows. -/
theorem mapM {χ : α → Context → β → Prop} (hc : c.Ready) {items : List α}
    (hstable : ∀ x y c c', c.Grows V c' → χ x c y → χ x c' y)
    (h : ∀ x ∈ items, ∀ c', c.Grows V c' → Meets V (f x) c' (χ x)) :
    Meets V (items.mapM f) c fun c' ys => List.Forall₂ (fun x y => χ x c' y) items ys := by
  induction items generalizing c with
  | nil => exact .pure hc .nil
  | cons x xs ih =>
    rw [List.mapM_cons]
    apply (h x (by simp) c (.refl hc)).bind
    intro y c₁ h₁ hy
    refine (ih h₁.ready fun x' hx' c₂ h₂ => ?_).map fun ys c₂ h₂ hys => ?_
    · exact h x' (List.mem_cons_of_mem _ hx') c₂ (h₁.trans h₂)
    · exact .cons (hstable x y c₁ c₂ h₂ hy) hys

/-- The alternatives for each item of a list. -/
theorem collect_expresses {χ : α → Sentence} (hc : c.Ready) {items : List α}
    {step : α → Grounding (List Body)}
    (h : ∀ x ∈ items, ∀ c', c.Grows V c' →
      Meets V (step x) c' fun c' bodies => c'.Expresses (χ x) bodies) :
    Meets V (collect items step) c fun c' bodies =>
      c'.Expresses (fun I => ∃ x ∈ items, χ x I) bodies :=
  (mapM hc (fun _ _ _ _ hgrows hb => hb.mono hgrows.le) h).map
    fun _ _ _ hlists => .flatten hlists

/-- One alternative for each item of a list. -/
theorem mapM_expresses {χ : α → Sentence} (hc : c.Ready) {items : List α}
    {step : α → Grounding Body}
    (h : ∀ x ∈ items, ∀ c', c.Grows V c' →
      Meets V (step x) c' fun c' body => c'.Expresses (χ x) [body]) :
    Meets V (items.mapM step) c fun c' bodies =>
      c'.Expresses (fun I => ∃ x ∈ items, χ x I) bodies :=
  (mapM hc (fun _ _ _ _ hgrows hb => hb.mono hgrows.le) h).imp
    fun _ _ _ hbodies => .list hbodies

/-- The rules for each item of a list. -/
theorem collect_enforces {χ : α → Sentence} (hc : c.Ready) {items : List α}
    {step : α → Grounding (List Rule)}
    (h : ∀ x ∈ items, ∀ c', c.Grows V c' →
      Meets V (step x) c' fun c' rules => c'.Enforces (χ x) rules) :
    Meets V (collect items step) c fun c' rules =>
      c'.Enforces (fun I => ∀ x ∈ items, χ x I) rules :=
  (mapM hc (fun _ _ _ _ hgrows hr => hr.mono hgrows.le) h).map
    fun _ _ _ hlists => .flatten hlists

/-- One rule for each item of a list. -/
theorem mapM_enforces {χ : α → Sentence} (hc : c.Ready) {items : List α}
    {step : α → Grounding Rule}
    (h : ∀ x ∈ items, ∀ c', c.Grows V c' →
      Meets V (step x) c' fun c' rule => c'.Enforces (χ x) [rule]) :
    Meets V (items.mapM step) c fun c' rules =>
      c'.Enforces (fun I => ∀ x ∈ items, χ x I) rules :=
  (mapM hc (fun _ _ _ _ hgrows hr => hr.mono hgrows.le) h).imp
    fun _ _ _ hrules => .list hrules

end Meets

theorem exists_right_of_forall₂ {R : α → β → Prop} {xs : List α} {ys : List β}
    (h : List.Forall₂ R xs ys) {x : α} (hx : x ∈ xs) : ∃ y ∈ ys, R x y := by
  induction h with
  | nil => cases hx
  | cons hxy _ ih =>
    rcases List.mem_cons.1 hx with rfl | hx
    · exact ⟨_, List.mem_cons_self, hxy⟩
    · obtain ⟨y, hy, hxy⟩ := ih hx
      exact ⟨y, List.mem_cons_of_mem _ hy, hxy⟩

theorem exists_left_of_forall₂ {R : α → β → Prop} {xs : List α} {ys : List β}
    (h : List.Forall₂ R xs ys) {y : β} (hy : y ∈ ys) : ∃ x ∈ xs, R x y :=
  exists_right_of_forall₂ h.flip hy

/-- The rules of the k-th auxiliary predicate. -/
def definitionRules (k : Nat) (bodies : List (Element × List Body)) : List Rule :=
  bodies.flatMap fun (x, alternatives) => alternatives.map fun body => .derive (auxAtom k x) body

end Grounding

/-! ## What can be entered -/

theorem mem_classTotality {elements : List Element} {s : String} {r : Rule} :
    r ∈ classTotality elements s ↔ ∃ x ∈ elements, r = .choice (unaryAtom s x) := by
  simp [classTotality, eq_comm]

theorem mem_propertyTotality {elements : List Element} {s : String} {r : Rule} :
    r ∈ propertyTotality elements s ↔
      ∃ x ∈ elements, ∃ y ∈ elements, r = .choice (binaryAtom s x y) := by
  simp [propertyTotality, eq_comm]

namespace Context

/-- The context in which a class has been given a symbol and been made total. -/
def withClass (c : Context) (iri : Iri) : Context :=
  let (symbol, naming) := c.naming.symbol (.atomicClass iri)
  { c with
    naming
    classes := c.classes.insert iri symbol
    pending := c.pending.pushAll (classTotality c.elements symbol) }

/-- The context in which an object property has been given a symbol and been made total. -/
def withProperty (c : Context) (iri : Iri) : Context :=
  let (symbol, naming) := c.naming.symbol (.objectProperty iri)
  { c with
    naming
    properties := c.properties.insert iri symbol
    pending := c.pending.pushAll (propertyTotality c.elements symbol) }

/-- The context in which an expression has been given the next auxiliary predicate. -/
def withDefinition (c : Context) (d : ClassExpression) (bodies : List (Element × List Body)) :
    Context :=
  { c with
    definitions := c.definitions ++ [d]
    pending := (c.pending.comment (auxName (c.auxCount + 1) ++ " := " ++ d.render)).pushAll
      (Grounding.definitionRules (c.auxCount + 1) bodies) }

section Entering

variable {V : Set Entity} {c : Context} {iri iri' : Iri} {d : ClassExpression}
  {bodies : List (Element × List Body)} {a : Atom} {φ : Sentence}

@[simp] theorem find?_withClass : (c.withClass iri).classes.find? iri' =
    if iri = iri' then some (c.naming.symbol (.atomicClass iri)).1 else c.classes.find? iri' :=
  SortedMap.find?_insert ..

@[simp] theorem find?_withProperty : (c.withProperty iri).properties.find? iri' =
    if iri = iri' then some (c.naming.symbol (.objectProperty iri)).1
    else c.properties.find? iri' :=
  SortedMap.find?_insert ..

theorem rules_withClass (c : Context) (iri : Iri) : (c.withClass iri).pending.rules =
    c.pending.rules ++ classTotality c.elements (c.naming.symbol (.atomicClass iri)).1 :=
  Program.rules_pushAll _ _

theorem rules_withProperty (c : Context) (iri : Iri) : (c.withProperty iri).pending.rules =
    c.pending.rules ++ propertyTotality c.elements (c.naming.symbol (.objectProperty iri)).1 :=
  Program.rules_pushAll _ _

theorem rules_withDefinition (c : Context) (d : ClassExpression)
    (bodies : List (Element × List Body)) : (c.withDefinition d bodies).pending.rules =
      c.pending.rules ++ Grounding.definitionRules (c.auxCount + 1) bodies :=
  (Program.rules_pushAll _ _).trans (congrArg (· ++ _) (Program.rules_comment _ _))

/-! What there was before stays. -/

theorem le_withClass (hnone : c.classes.find? iri = none) : c ≤ c.withClass iri := by
  refine ⟨rfl, rfl, fun iri' s hs => ?_, fun _ _ hs => hs, fun _ _ hd => hd⟩
  have hne : iri ≠ iri' := fun heq => by simp [heq, hs] at hnone
  rwa [find?_withClass, if_neg hne]

theorem le_withProperty (hnone : c.properties.find? iri = none) : c ≤ c.withProperty iri := by
  refine ⟨rfl, rfl, fun _ _ hs => hs, fun iri' s hs => ?_, fun _ _ hd => hd⟩
  have hne : iri ≠ iri' := fun heq => by simp [heq, hs] at hnone
  rwa [find?_withProperty, if_neg hne]

theorem le_withDefinition : c ≤ c.withDefinition d bodies := by
  refine ⟨rfl, rfl, fun _ _ hs => hs, fun _ _ hs => hs, fun k d' hd' => ?_⟩
  exact (List.getElem?_append_left (List.getElem?_eq_some_iff.1 hd').1).trans hd'

/-! The new symbol is read back as what it was given to, all others as before. -/

theorem Ready.withClass (hc : c.Ready) (iri : Iri) : (c.withClass iri).Ready := by
  obtain ⟨hproper, hnew, hold⟩ := Naming.symbol_spec hc.naming (.atomicClass iri)
  refine ⟨hproper, hc.elements, fun x hx => hold _ _ (hc.constants x hx), fun iri' s hs => ?_,
    fun iri' s hs => hold _ _ (hc.properties iri' s hs)⟩
  rw [find?_withClass] at hs
  split at hs
  · next heq =>
    cases hs
    exact heq ▸ hnew
  · exact hold _ _ (hc.classes iri' s hs)

theorem Ready.withProperty (hc : c.Ready) (iri : Iri) : (c.withProperty iri).Ready := by
  obtain ⟨hproper, hnew, hold⟩ := Naming.symbol_spec hc.naming (.objectProperty iri)
  refine ⟨hproper, hc.elements, fun x hx => hold _ _ (hc.constants x hx),
    fun iri' s hs => hold _ _ (hc.classes iri' s hs), fun iri' s hs => ?_⟩
  rw [find?_withProperty] at hs
  split at hs
  · next heq =>
    cases hs
    exact heq ▸ hnew
  · exact hold _ _ (hc.properties iri' s hs)

theorem Ready.withDefinition (hc : c.Ready) : (c.withDefinition d bodies).Ready :=
  ⟨hc.naming, hc.elements, hc.constants, hc.classes, hc.properties⟩

/-! Only atoms over the new symbol are new. -/

theorem States.of_withClass (h : (c.withClass iri).States a φ) : c.States a φ ∨
    ∃ x ∈ c.elements, a = unaryAtom (c.naming.symbol (.atomicClass iri)).1 x := by
  cases h with
  | leads hs hx hy => exact .inl (.leads hs hx hy)
  | member hs hx =>
    rw [find?_withClass] at hs
    split at hs
    · exact .inr ⟨_, hx, by rw [Option.some.inj hs]⟩
    · exact .inl (.member hs hx)

theorem States.of_withProperty (h : (c.withProperty iri).States a φ) : c.States a φ ∨
    ∃ x ∈ c.elements, ∃ y ∈ c.elements,
      a = binaryAtom (c.naming.symbol (.objectProperty iri)).1 x y := by
  cases h with
  | member hs hx => exact .inl (.member hs hx)
  | leads hs hx hy =>
    rw [find?_withProperty] at hs
    split at hs
    · exact .inr ⟨_, hx, _, hy, by rw [Option.some.inj hs]⟩
    · exact .inl (.leads hs hx hy)

theorem States.of_withDefinition (h : (c.withDefinition d bodies).States a φ) : c.States a φ := by
  cases h with
  | member hs hx => exact .member hs hx
  | leads hs hx hy => exact .leads hs hx hy

theorem Grows.withClass (hc : c.Ready) (hV : .atomicClass iri ∈ V)
    (hnone : c.classes.find? iri = none) : c.Grows V (c.withClass iri) := by
  refine .enter hV (by simp [Knows, hnone]) (le_withClass hnone) (hc.withClass iri) rfl
    (fun e he => ?_) rfl (rules_withClass c iri) (fun a φ ha => ?_) fun r hr => ?_
  · cases e with
    | atomicClass iri' =>
      by_cases heq : iri = iri'
      · exact .inr (heq ▸ rfl)
      · exact .inl (by simpa [Knows, heq] using he)
    | objectProperty iri' => exact .inl he
    | individual iri' => exact .inl trivial
  · rcases ha.of_withClass with hold | ⟨x, hx, rfl⟩
    · exact .inl hold
    · exact .inr (mem_classTotality.2 ⟨x, hx, rfl⟩)
  · obtain ⟨x, hx, rfl⟩ := mem_classTotality.1 hr
    exact ⟨_, _, .member (find?_withClass.trans (if_pos rfl)) hx, rfl⟩

theorem Grows.withProperty (hc : c.Ready) (hV : .objectProperty iri ∈ V)
    (hnone : c.properties.find? iri = none) : c.Grows V (c.withProperty iri) := by
  refine .enter hV (by simp [Knows, hnone]) (le_withProperty hnone) (hc.withProperty iri) rfl
    (fun e he => ?_) rfl (rules_withProperty c iri) (fun a φ ha => ?_) fun r hr => ?_
  · cases e with
    | atomicClass iri' => exact .inl he
    | objectProperty iri' =>
      by_cases heq : iri = iri'
      · exact .inr (heq ▸ rfl)
      · exact .inl (by simpa [Knows, heq] using he)
    | individual iri' => exact .inl trivial
  · rcases ha.of_withProperty with hold | ⟨x, hx, y, hy, rfl⟩
    · exact .inl hold
    · exact .inr (mem_propertyTotality.2 ⟨x, hx, y, hy, rfl⟩)
  · obtain ⟨x, hx, y, hy, rfl⟩ := mem_propertyTotality.1 hr
    exact ⟨_, _, .leads (find?_withProperty.trans (if_pos rfl)) hx hy, rfl⟩

/-- A context grows by an expression if the rules of its predicate define it. -/
theorem Grows.withDefinition (hc : c.Ready) (hb : List.Forall₂ (fun x entry => entry.1 = x ∧
    c.Expresses (fun I => I.Member d x.individual) entry.2) c.elements bodies) :
    c.Grows V (c.withDefinition d bodies) := by
  have hnew : (c.withDefinition d bodies).definitions[c.definitions.length]? = some d := by
    simp [Context.withDefinition]
  -- the definition is over what has been defined before
  have hbefore : c ≤ (c.withDefinition d bodies).before c.definitions.length := by
    refine ⟨rfl, rfl, fun _ _ h => h, fun _ _ h => h, fun k d' hd' => ?_⟩
    simpa [before, Context.withDefinition] using hd'
  refine ⟨⟨le_withDefinition, hc.withDefinition, rfl, fun e he => .inl ?_,
    fun _ => ⟨rfl, rfl, rfl⟩⟩, fun emitted hback => ?_⟩
  · cases e with
    | atomicClass iri => exact he
    | objectProperty iri => exact he
    | individual iri => trivial
  rw [rules_withDefinition, ← List.append_assoc]
  refine hback.extend le_withDefinition (fun a φ ha => .inl ha.of_withDefinition) (fun k hk => ?_)
    fun r hr => ?_
  · rcases Nat.lt_succ_iff_lt_or_eq.1 (by simpa [Context.withDefinition] using hk) with hk | rfl
    · exact .inl hk
    · refine .inr fun x hx => ?_
      obtain ⟨⟨x', alternatives⟩, hentry, rfl, he⟩ := Grounding.exists_right_of_forall₂ hb hx
      exact ⟨alternatives, ⟨d, hnew, hx, he.mono hbefore⟩, fun b hmem =>
        List.mem_flatMap.2 ⟨_, hentry, List.mem_map_of_mem hmem⟩⟩
  · obtain ⟨⟨x', alternatives⟩, hentry, hr⟩ := List.mem_flatMap.1 hr
    obtain ⟨b, hmem, rfl⟩ := List.mem_map.1 hr
    obtain ⟨x, hx, rfl, he⟩ := Grounding.exists_left_of_forall₂ hb hentry
    exact .inr ⟨_, x', alternatives, ⟨d, hnew, hx, he.mono hbefore⟩, b, hmem, rfl⟩

end Entering

end Context

/-! ## Symbols and elements -/

namespace Grounding

theorem exec_classSymbol_of_eq_some {c : Context} {iri : Iri} {s : String}
    (h : c.classes.find? iri = some s) : (classSymbol iri).exec c = (.ok s, c) := by
  simp only [classSymbol, exec_bind, exec_get, h]
  rfl

theorem exec_classSymbol_of_eq_none {c : Context} {iri : Iri} (h : c.classes.find? iri = none) :
    (classSymbol iri).exec c = (.ok (c.naming.symbol (.atomicClass iri)).1, c.withClass iri) := by
  simp only [classSymbol, exec_bind, exec_get, h]
  rfl

theorem find?_of_exec_classSymbol {c c' : Context} {iri : Iri} {s : String}
    (h : (classSymbol iri).exec c = (.ok s, c')) : c'.classes.find? iri = some s := by
  cases hf : c.classes.find? iri with
  | some s' =>
    rw [exec_classSymbol_of_eq_some hf] at h
    cases h
    exact hf
  | none =>
    rw [exec_classSymbol_of_eq_none hf] at h
    cases h
    simp

theorem exec_propertySymbol_of_eq_some {c : Context} {iri : Iri} {s : String}
    (h : c.properties.find? iri = some s) : (propertySymbol iri).exec c = (.ok s, c) := by
  simp only [propertySymbol, exec_bind, exec_get, h]
  rfl

theorem exec_propertySymbol_of_eq_none {c : Context} {iri : Iri}
    (h : c.properties.find? iri = none) : (propertySymbol iri).exec c =
      (.ok (c.naming.symbol (.objectProperty iri)).1, c.withProperty iri) := by
  simp only [propertySymbol, exec_bind, exec_get, h]
  rfl

theorem find?_of_exec_propertySymbol {c c' : Context} {iri : Iri} {s : String}
    (h : (propertySymbol iri).exec c = (.ok s, c')) : c'.properties.find? iri = some s := by
  cases hf : c.properties.find? iri with
  | some s' =>
    rw [exec_propertySymbol_of_eq_some hf] at h
    cases h
    exact hf
  | none =>
    rw [exec_propertySymbol_of_eq_none hf] at h
    cases h
    simp

theorem exec_defineAux (d : ClassExpression) (bodies : List (Element × List Body)) (c : Context) :
    (defineAux d bodies).exec c = (.ok (c.auxCount + 1), c.withDefinition d bodies) := rfl

section Symbols

variable {V : Set Entity} {c : Context} (hc : c.Ready)

include hc

theorem classSymbol_meets {iri : Iri} (hV : .atomicClass iri ∈ V) :
    Meets V (classSymbol iri) c fun c' s => c'.classes.find? iri = some s := by
  cases hf : c.classes.find? iri with
  | some s => exact .of_exec (exec_classSymbol_of_eq_some hf) (.refl hc) hf
  | none => exact .of_exec (exec_classSymbol_of_eq_none hf) (.withClass hc hV hf) (by simp)

theorem propertySymbol_meets {iri : Iri} (hV : .objectProperty iri ∈ V) :
    Meets V (propertySymbol iri) c fun c' s => c'.properties.find? iri = some s := by
  cases hf : c.properties.find? iri with
  | some s => exact .of_exec (exec_propertySymbol_of_eq_some hf) (.refl hc) hf
  | none => exact .of_exec (exec_propertySymbol_of_eq_none hf) (.withProperty hc hV hf) (by simp)

theorem classAtom_meets {iri : Iri} (hV : .atomicClass iri ∈ V) {x : Element}
    (hx : x ∈ c.elements) :
    Meets V (classAtom iri x) c fun c' a => c'.States a fun I => x.individual ∈ I.classes iri :=
  (classSymbol_meets hc hV).map fun _ _ hgrows hs => .member hs (hgrows.le.elements ▸ hx)

theorem roleAtom_meets {r : Role} (hV : .objectProperty r.property ∈ V) {x y : Element}
    (hx : x ∈ c.elements) (hy : y ∈ c.elements) :
    Meets V (roleAtom r x y) c
      fun c' a => c'.States a fun I => I.Leads r x.individual y.individual := by
  apply (propertySymbol_meets hc hV).bind
  intro s c' hgrows hs
  have hx' : x ∈ c'.elements := hgrows.le.elements ▸ hx
  have hy' : y ∈ c'.elements := hgrows.le.elements ▸ hy
  cases r with
  | named p => exact .pure hgrows.ready (.leads hs hx' hy')
  | inverseOf p => exact .pure hgrows.ready (.leads hs hy' hx')

theorem element_meets {i : Individual} (hV : .individual i.iri ∈ V) :
    Meets V (element i) c fun c' x => x ∈ c'.elements ∧ x.individual = i := by
  refine .get ?_
  cases hf : c.elements.find? fun x => x.individual = i with
  | some x =>
    exact .pure hc ⟨List.mem_of_find?_eq_some hf, by simpa using List.find?_some hf⟩
  | none =>
    -- the only way to fail: the individual is no element
    refine ⟨.refl hc, fun _ heq => (by cases heq), fun _ _ => ⟨i, hV, fun hmem => ?_⟩⟩
    obtain ⟨x, hx, hxi⟩ := hc.exists_element_iff.2 hmem
    have := List.find?_eq_none.1 hf x hx
    simp [hxi] at this

theorem members_meets {is : List Individual} (hV : ∀ i ∈ is, .individual i.iri ∈ V) :
    Meets V (members is) c fun c' xs =>
      List.Forall₂ (fun i x => x ∈ c'.elements ∧ x.individual = i) is xs :=
  .mapM hc (fun _ _ _ _ hgrows h => ⟨hgrows.le.elements ▸ h.1, h.2⟩)
    fun i hi _ hgrows => element_meets hgrows.ready (hV i hi)

/-- A new auxiliary predicate stands for the expression that the bodies define. -/
theorem defineAux_meets {d : ClassExpression} {bodies : List (Element × List Body)}
    (hb : List.Forall₂ (fun x entry => entry.1 = x ∧
      c.Expresses (fun I => I.Member d x.individual) entry.2) c.elements bodies) :
    Meets V (defineAux d bodies) c fun c' k =>
      ∃ j, k = j + 1 ∧ c'.definitions[j]? = some d := by
  have hnew : (c.withDefinition d bodies).definitions[c.definitions.length]? = some d := by
    simp [Context.withDefinition]
  exact .of_exec (exec_defineAux d bodies c) (.withDefinition hc hb) ⟨_, rfl, hnew⟩

end Symbols

end Grounding

end FixedDomain
