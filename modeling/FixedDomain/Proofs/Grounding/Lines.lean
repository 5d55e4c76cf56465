import FixedDomain.Proofs.Lines
import FixedDomain.Proofs.Grounding.Calls

/-! # What steps write stands on lines

* `Context.Lined` — all symbols of a context, and all that is pending in it, stand on one line.
* `Grounding.Prints` — a step keeps it so, and what it returns can be written on lines.

Only the symbols of individuals and the comments show names as they are. So it matters that the names of
the domain elements, and those in the expressions that get auxiliary predicates, have no line breaks in
them; all other symbols are identifiers.
-/

namespace FixedDomain

open FunctionalSyntax

/-! ## Symbols -/

namespace NamingScheme

theorem oneLine_of_isIdentifier {symbol : String} (h : IsIdentifier symbol) : OneLine symbol :=
  oneLine_of_forall fun c hc =>
    isWhiteSpace_of_isSymbolChar ((Atom.isPredicate_of_isIdentifier h).2 c hc)

theorem Quotes.isSpace {written text : List Char} (h : Quotes written text)
    (htext : ∀ c ∈ text, isWhiteSpace c = true → c = ' ') :
    ∀ c ∈ written, isWhiteSpace c = true → c = ' ' := by
  induction h with
  | nil => nofun
  | plain _ _ _ ih =>
    obtain ⟨hc, htext⟩ := List.forall_mem_cons.1 htext
    exact List.forall_mem_cons.2 ⟨hc, ih htext⟩
  | covered _ _ ih =>
    obtain ⟨hc, htext⟩ := List.forall_mem_cons.1 htext
    exact List.forall_mem_cons.2 ⟨by decide, List.forall_mem_cons.2 ⟨hc, ih htext⟩⟩

theorem oneLine_of_isStringConstant {symbol text : String} (h : IsStringConstant symbol text)
    (htext : OneLine text) : OneLine symbol := by
  obtain ⟨written, hsymbol, hquotes⟩ := h
  rw [OneLine, hsymbol]
  exact List.forall_mem_cons.2 ⟨by decide,
    List.forall_mem_append.2 ⟨hquotes.isSpace htext, List.forall_mem_singleton.2 (by decide)⟩⟩

/-- Where individuals have string constants, their names are written out; other symbols are identifiers. -/
theorem oneLine_symbol (scheme : NamingScheme) {e : Entity}
    (h : ∀ iri, e = .individual iri → OneLine iri.text) : OneLine (scheme.symbol e) := by
  have hform := isSymbolFor_symbol scheme e
  cases scheme with
  | plain => exact oneLine_of_isIdentifier hform.1
  | aspCore =>
    cases e with
    | individual iri => exact oneLine_of_isStringConstant hform (h iri rfl)
    | atomicClass iri | objectProperty iri => exact oneLine_of_isIdentifier hform.1

end NamingScheme

namespace Naming

/-- The symbols of a table stand on one line. -/
def Lined (n : Naming) : Prop := ∀ entry ∈ n.entries, OneLine entry.2

theorem oneLine_numbered {base : String} (h : OneLine base) (k : Nat) : OneLine (numbered base k) :=
  (h.append (by decide)).append (oneLine_toString _)

theorem oneLine_freshSymbol {n : Naming} {base : String} (h : OneLine base) :
    OneLine (n.freshSymbol base) := by
  rcases List.mem_cons.1 (freshSymbol_spec n base).2 with heq | hnumbered
  · rwa [heq]
  · obtain ⟨k, -, hk⟩ := List.mem_map.1 hnumbered
    exact hk ▸ oneLine_numbered h k

theorem Lined.symbol {n : Naming} (hn : n.Lined) {e : Entity}
    (h : ∀ iri, e = .individual iri → OneLine iri.text) :
    OneLine (n.symbol e).1 ∧ (n.symbol e).2.Lined := by
  have hsymbol := oneLine_freshSymbol (n := n) (n.scheme.oneLine_symbol h)
  unfold Naming.symbol
  cases hs : n.symbol? e with
  | some symbol =>
    obtain ⟨before, after, hentries, -⟩ := List.lookup_eq_some_iff.1 hs
    exact ⟨hn (e, symbol) (by simp [hentries]), hn⟩
  | none => exact ⟨hsymbol, List.forall_mem_append.2 ⟨hn, List.forall_mem_singleton.2 hsymbol⟩⟩

end Naming

/-! ## Contexts -/

theorem lined_unaryAtom {symbol : String} (hs : OneLine symbol) {x : Element} (hx : OneLine x.constant) :
    (unaryAtom symbol x).Lined := ⟨hs, List.forall_mem_singleton.2 hx⟩

theorem lined_binaryAtom {symbol : String} (hs : OneLine symbol) {x y : Element}
    (hx : OneLine x.constant) (hy : OneLine y.constant) : (binaryAtom symbol x y).Lined :=
  ⟨hs, List.forall_mem_cons.2 ⟨hx, List.forall_mem_singleton.2 hy⟩⟩

namespace Context

/-- All symbols of a context, and all that is pending in it, stand on one line. -/
structure Lined (c : Context) : Prop where
  naming : c.naming.Lined
  elements : ∀ x ∈ c.elements, OneLine x.constant
  classes : ∀ iri s, c.classes.find? iri = some s → OneLine s
  properties : ∀ iri s, c.properties.find? iri = some s → OneLine s
  pending : c.pending.Lined

theorem Lined.pairs {c : Context} (h : c.Lined) {p : Element × Element} (hp : p ∈ c.pairs) :
    OneLine p.1.constant ∧ OneLine p.2.constant := by
  obtain ⟨x, hx, hp⟩ := List.mem_flatMap.1 hp
  obtain ⟨y, hy, rfl⟩ := List.mem_map.1 hp
  exact ⟨h.elements x hx, h.elements y hy⟩

theorem lined_nameElements {is : List Individual} (his : ∀ i ∈ is, OneLine i.iri.text) {n : Naming}
    (hn : n.Lined) :
    (∀ x ∈ (nameElements n is).1, OneLine x.constant) ∧ (nameElements n is).2.Lined := by
  induction is generalizing n with
  | nil => exact ⟨nofun, hn⟩
  | cons i is ih =>
    obtain ⟨hi, his⟩ := List.forall_mem_cons.1 his
    obtain ⟨hconstant, hn'⟩ := hn.symbol (e := .individual i.iri) fun iri heq => by
      obtain rfl := Entity.individual.inj heq
      exact hi
    obtain ⟨helements, hnaming⟩ := ih his hn'
    exact ⟨List.forall_mem_cons.2 ⟨hconstant, helements⟩, hnaming⟩

theorem lined_new {d : Domain} (hd : ∀ i ∈ d.elements, OneLine i.iri.text) (scheme : NamingScheme)
    (strategy : Strategy) : (new d scheme strategy).Lined := by
  obtain ⟨helements, hnaming⟩ := lined_nameElements (n := .empty scheme) hd nofun
  exact ⟨hnaming, helements, nofun, nofun, Program.lined_empty⟩

theorem Lined.withClass {c : Context} (hc : c.Lined) (iri : Iri) :
    OneLine (c.naming.symbol (.atomicClass iri)).1 ∧ (c.withClass iri).Lined := by
  obtain ⟨hsymbol, hnaming⟩ := hc.naming.symbol (e := .atomicClass iri) nofun
  refine ⟨hsymbol, hnaming, hc.elements, fun iri' s hs => ?_, hc.properties,
    hc.pending.pushAll fun r hr => ?_⟩
  · rw [find?_withClass] at hs
    split at hs
    · exact Option.some.inj hs ▸ hsymbol
    · exact hc.classes iri' s hs
  · obtain ⟨x, hx, rfl⟩ := mem_classTotality.1 hr
    exact (lined_unaryAtom hsymbol (hc.elements x hx)).choice

theorem Lined.withProperty {c : Context} (hc : c.Lined) (iri : Iri) :
    OneLine (c.naming.symbol (.objectProperty iri)).1 ∧ (c.withProperty iri).Lined := by
  obtain ⟨hsymbol, hnaming⟩ := hc.naming.symbol (e := .objectProperty iri) nofun
  refine ⟨hsymbol, hnaming, hc.elements, hc.classes, fun iri' s hs => ?_,
    hc.pending.pushAll fun r hr => ?_⟩
  · rw [find?_withProperty] at hs
    split at hs
    · exact Option.some.inj hs ▸ hsymbol
    · exact hc.properties iri' s hs
  · obtain ⟨x, hx, y, hy, rfl⟩ := mem_propertyTotality.1 hr
    exact (lined_binaryAtom hsymbol (hc.elements x hx) (hc.elements y hy)).choice

end Context

namespace Grounding

variable {α β : Type}

/-! ## Steps -/

/-- In a context of which everything stands on one line, a step keeps this so, and what it returns
has a property. -/
structure Prints (P : α → Prop) (m : Grounding α) : Prop where
  context : ∀ {c}, c.Lined → (m.exec c).2.Lined
  result : ∀ {c a c'}, c.Lined → m.exec c = (.ok a, c') → P a

namespace Prints

variable {m : Grounding α} {f : α → Grounding β} {P : α → Prop} {Q : β → Prop}

/-- A step that always succeeds. -/
theorem of_exec (h : ∀ c : Context, c.Lined → ∃ a c', m.exec c = (.ok a, c') ∧ c'.Lined ∧ P a) :
    Prints P m := by
  refine ⟨fun {c} hc => ?_, fun {c a c'} hc hrun => ?_⟩
  · obtain ⟨a, c', hexec, hc', -⟩ := h c hc
    rwa [hexec]
  · obtain ⟨a', c₁, hexec, -, ha⟩ := h c hc
    cases hexec.symm.trans hrun
    exact ha

theorem pure {a : α} (h : P a) : Prints P (pure a) := .of_exec fun c hc => ⟨a, c, rfl, hc, h⟩

/-- All of nothing has a property. -/
theorem nil : Prints (fun as => ∀ a ∈ as, P a) (Pure.pure []) := pure (List.forall_mem_nil _)

theorem fail (e : ReasonerError) : Prints P (fail e) := ⟨fun hc => hc, fun _ heq => nomatch heq⟩

theorem bind (hm : Prints P m) (hf : ∀ a, P a → Prints Q (f a)) : Prints Q (m >>= f) := by
  refine ⟨fun {c} hc => ?_, fun {c b c'} hc hrun => ?_⟩
  · have hcontext := hm.context hc
    rcases exec_bind_cases m f c with ⟨a, c', hrun, hexec⟩ | ⟨e, c', hrun, hexec⟩
    · rw [hrun] at hcontext
      rw [hexec]
      exact (hf a (hm.result hc hrun)).context hcontext
    · rw [hrun] at hcontext
      rwa [hexec]
  · have hcontext := hm.context hc
    rcases exec_bind_cases m f c with ⟨a, c₁, hfirst, hexec⟩ | ⟨e, c₁, hfirst, hexec⟩
    · rw [hfirst] at hcontext
      rw [hexec] at hrun
      exact (hf a (hm.result hc hfirst)).result hcontext hrun
    · rw [hexec] at hrun
      cases hrun

theorem map {g : α → β} (hm : Prints P m) (hg : ∀ a, P a → Q (g a)) :
    Prints Q (m >>= fun a => Pure.pure (g a)) :=
  hm.bind fun a ha => .pure (hg a ha)

theorem get {f : Context → Grounding β} (hf : ∀ c, c.Lined → Prints Q (f c)) :
    Prints Q (MonadState.get >>= f) := by
  have hexec : ∀ c, (MonadState.get >>= f : Grounding β).exec c = (f c).exec c := fun c => rfl
  refine ⟨fun {c} hc => ?_, fun {c b c'} hc hrun => ?_⟩
  · rw [hexec]
    exact (hf c hc).context hc
  · rw [hexec] at hrun
    exact (hf c hc).result hc hrun

theorem ite_isDirect {m m' : Grounding β} (hm : Prints Q m) (hm' : Prints Q m') :
    Prints Q (do if (← MonadState.get).isDirect then m else m') := by
  refine .get fun c _ => ?_
  split
  · exact hm
  · exact hm'

theorem mapM {f : α → Grounding β} {items : List α} (hf : ∀ a ∈ items, Prints Q (f a)) :
    Prints (fun bs => ∀ b ∈ bs, Q b) (items.mapM f) := by
  induction items with
  | nil => exact nil
  | cons a as ih =>
    obtain ⟨ha, has⟩ := List.forall_mem_cons.1 hf
    rw [List.mapM_cons]
    exact ha.bind fun b hb => (ih has).map fun bs hbs => List.forall_mem_cons.2 ⟨hb, hbs⟩

theorem collect {step : α → Grounding (List β)} {items : List α}
    (hstep : ∀ a ∈ items, Prints (fun bs => ∀ b ∈ bs, Q b) (step a)) :
    Prints (fun bs => ∀ b ∈ bs, Q b) (collect items step) :=
  (mapM hstep).map fun lists hlists b hb => by
    obtain ⟨list, hlist, hb⟩ := List.mem_flatten.1 hb
    exact hlists list hlist b hb

end Prints

/-! ## Symbols and elements -/

theorem lined_auxAtom (k : Nat) {x : Element} (hx : OneLine x.constant) : (auxAtom k x).Lined :=
  lined_unaryAtom (OneLine.append (by decide) (oneLine_toString k)) hx

theorem lined_activationAtom (k : Nat) : (activationAtom k).Lined :=
  ⟨(by decide : OneLine "_ax"), List.forall_mem_singleton.2 (oneLine_toString k)⟩

theorem classSymbol_prints (iri : Iri) : Prints OneLine (classSymbol iri) := by
  refine .of_exec fun c hc => ?_
  cases hf : c.classes.find? iri with
  | some s => exact ⟨s, c, exec_classSymbol_of_eq_some hf, hc, hc.classes iri s hf⟩
  | none =>
    obtain ⟨hsymbol, hentered⟩ := hc.withClass iri
    exact ⟨_, _, exec_classSymbol_of_eq_none hf, hentered, hsymbol⟩

theorem propertySymbol_prints (iri : Iri) : Prints OneLine (propertySymbol iri) := by
  refine .of_exec fun c hc => ?_
  cases hf : c.properties.find? iri with
  | some s => exact ⟨s, c, exec_propertySymbol_of_eq_some hf, hc, hc.properties iri s hf⟩
  | none =>
    obtain ⟨hsymbol, hentered⟩ := hc.withProperty iri
    exact ⟨_, _, exec_propertySymbol_of_eq_none hf, hentered, hsymbol⟩

theorem classAtom_prints (iri : Iri) {x : Element} (hx : OneLine x.constant) :
    Prints Atom.Lined (classAtom iri x) :=
  (classSymbol_prints iri).map fun _ hs => lined_unaryAtom hs hx

theorem roleAtom_prints (r : Role) {x y : Element} (hx : OneLine x.constant) (hy : OneLine y.constant) :
    Prints Atom.Lined (roleAtom r x y) := by
  refine (propertySymbol_prints r.property).bind fun s hs => ?_
  cases r with
  | named p => exact .pure (lined_binaryAtom hs hx hy)
  | inverseOf p => exact .pure (lined_binaryAtom hs hy hx)

theorem element_prints (i : Individual) : Prints (fun x => OneLine x.constant) (element i) := by
  refine .get fun c hc => ?_
  cases hf : c.elements.find? fun x => x.individual = i with
  | some x => exact .pure (hc.elements x (List.mem_of_find?_eq_some hf))
  | none => exact .fail _

theorem members_prints (is : List Individual) :
    Prints (fun xs => ∀ x ∈ xs, OneLine x.constant) (members is) := .mapM fun i _ => element_prints i

/-! ## Expressions -/

/-- The body of a successor, and the element that is counted, stand on one line. -/
def LinedSuccessor (successor : Element × Body) : Prop :=
  OneLine successor.1.constant ∧ LinedBody successor.2

theorem linedBody_atom {a : Atom} (h : a.Lined) : LinedBody [.pos a] := linedBody_singleton h.oneLine_render

theorem linedBody_not {a : Atom} (h : a.Lined) : LinedBody [.not a] :=
  linedBody_singleton (Literal.oneLine_render_not h)

theorem linedBody_count {successors : List (Element × Body)} (h : ∀ s ∈ successors, LinedSuccessor s)
    (op : Comparison) (bound : Nat) : LinedBody [.count (countElements successors) op bound] := by
  refine linedBody_singleton (Literal.oneLine_render_count (List.forall_mem_map.2 fun s hs => ?_))
  exact CountElement.oneLine_render (List.forall_mem_singleton.2 (h s hs).1) (h s hs).2

theorem linedBody_countBodies {successors : List (Element × Body)}
    (h : ∀ s ∈ successors, LinedSuccessor s) (op : Comparison) (bound : Nat) :
    ∀ b ∈ countBodies successors op bound, LinedBody b := by
  unfold countBodies
  split_ifs
  · exact List.forall_mem_singleton.2 linedBody_nil
  · nofun
  · exact List.forall_mem_singleton.2 (linedBody_count h op bound)

theorem linedBody_memberBodies (elements : List Element) (x : Element) :
    ∀ b ∈ memberBodies elements x, LinedBody b := by
  unfold memberBodies
  split
  · exact List.forall_mem_singleton.2 linedBody_nil
  · nofun

theorem linedBody_toList {body : Option Body} (h : ∀ b ∈ body, LinedBody b) :
    ∀ b ∈ body.toList, LinedBody b := by simpa using h

/-- An optional body that stands on one line. -/
abbrev PrintsBody (m : Grounding (Option Body)) : Prop := Prints (fun body => ∀ b ∈ body, LinedBody b) m

theorem pure_prints_some {body : Body} (h : LinedBody body) : PrintsBody (pure (some body)) :=
  .pure fun _ hb => Option.some.inj hb ▸ h

theorem pure_prints_none : PrintsBody (pure none) := .pure nofun

/-- Bodies that stand on one line each. -/
abbrev PrintsBodies (m : Grounding (List Body)) : Prop := Prints (fun bodies => ∀ b ∈ bodies, LinedBody b) m

theorem related_prints (r : Role) {x : Element} (hx : OneLine x.constant)
    {fillerBody : Element → Grounding (Option Body)}
    (h : ∀ y : Element, OneLine y.constant → PrintsBody (fillerBody y)) :
    Prints (fun successors => ∀ s ∈ successors, LinedSuccessor s) (related r x fillerBody) := by
  refine .get fun c hc => ?_
  refine (Prints.mapM (Q := fun o : Option (Element × Body) => ∀ s ∈ o, LinedSuccessor s)
    fun y hy => ?_).map fun found hfound s hs => ?_
  · refine (h y (hc.elements y hy)).bind fun body hbody => ?_
    cases body with
    | none => exact .pure nofun
    | some body =>
      refine (roleAtom_prints r hx (hc.elements y hy)).map fun a ha s hs => ?_
      obtain rfl := Option.some.inj hs
      exact ⟨hc.elements y hy, .cons ha.oneLine_render (hbody body rfl)⟩
  · obtain ⟨o, ho, rfl⟩ := List.mem_filterMap.1 hs
    exact hfound _ ho s rfl

/-- The bodies for an expression stand on one line. -/
structure PrintsExpression (d : ClassExpression) : Prop where
  holds : ∀ {x : Element}, OneLine x.constant → PrintsBody (holds d x)
  holdsNot : ∀ {x : Element}, OneLine x.constant → PrintsBody (holdsNot d x)

theorem holdsAll_prints {cs : List ClassExpression} (h : ∀ e ∈ cs, PrintsExpression e) {x : Element}
    (hx : OneLine x.constant) : PrintsBody (holdsAll cs x) := by
  induction cs with
  | nil =>
    rw [holdsAll]
    exact pure_prints_some linedBody_nil
  | cons e es ih =>
    obtain ⟨he, hes⟩ := List.forall_mem_cons.1 h
    rw [holdsAll]
    refine (he.holds hx).bind fun first hfirst => ?_
    cases first with
    | none => exact pure_prints_none
    | some first =>
      refine (ih hes).bind fun rest hrest => ?_
      cases rest with
      | none => exact pure_prints_none
      | some rest => exact pure_prints_some ((hfirst first rfl).append (hrest rest rfl))

theorem holdsSome_prints {cs : List ClassExpression} (h : ∀ e ∈ cs, PrintsExpression e) {x : Element}
    (hx : OneLine x.constant) : PrintsBodies (holdsSome cs x) := by
  induction cs with
  | nil =>
    rw [holdsSome]
    exact .nil
  | cons e es ih =>
    obtain ⟨he, hes⟩ := List.forall_mem_cons.1 h
    rw [holdsSome]
    exact (he.holds hx).bind fun first hfirst => (ih hes).map fun rest hrest =>
      List.forall_mem_append.2 ⟨linedBody_toList hfirst, hrest⟩

section Lighter

variable {d : ClassExpression} (hd : NamedOnOneLine d.vocabulary)
  (h : ∀ e : ClassExpression, e.weight < d.weight → NamedOnOneLine e.vocabulary → PrintsExpression e)

include hd h

theorem printsExpression_of_auxFor (haux : Prints (fun _ => True) (auxFor d)) : PrintsExpression d := by
  refine ⟨fun {x} hx => ?_, fun {x} hx => ?_⟩
  · have hpos : PrintsBody (do return some [.pos (auxAtom (← auxFor d) x)]) :=
      haux.bind fun k _ => pure_prints_some (linedBody_atom (lined_auxAtom k hx))
    cases d with
    | named iri =>
      rw [Grounding.holds]
      exact (classAtom_prints iri hx).bind fun a ha => pure_prints_some (linedBody_atom ha)
    | thing =>
      rw [Grounding.holds]
      exact pure_prints_some linedBody_nil
    | nothing =>
      rw [Grounding.holds]
      exact pure_prints_none
    | complementOf e =>
      rw [Grounding.holds]
      split
      · exact (h e (by rw [ClassExpression.weight]; omega) hd).holdsNot hx
      · exact hpos
    | _ =>
      simp only [Grounding.holds]
      exact hpos
  · have hnot : PrintsBody (do return some [.not (auxAtom (← auxFor d) x)]) :=
      haux.bind fun k _ => pure_prints_some (linedBody_not (lined_auxAtom k hx))
    cases d with
    | named iri =>
      rw [Grounding.holdsNot]
      exact (classAtom_prints iri hx).bind fun a ha => pure_prints_some (linedBody_atom ha.complement)
    | thing =>
      rw [Grounding.holdsNot]
      exact pure_prints_none
    | nothing =>
      rw [Grounding.holdsNot]
      exact pure_prints_some linedBody_nil
    | complementOf e =>
      rw [Grounding.holdsNot]
      exact (h e (by rw [ClassExpression.weight]; omega) hd).holds hx
    | _ =>
      simp only [Grounding.holdsNot]
      exact hnot

/-- The bodies that define an expression stand on one line if those of lighter expressions do. -/
theorem define_prints {x : Element} (hx : OneLine x.constant) : PrintsBodies (define d x) := by
  have hparts : ∀ {cs : List ClassExpression}, ClassExpression.weightList cs < d.weight →
      NamedOnOneLine (ClassExpression.vocabularyList cs) → ∀ e ∈ cs, PrintsExpression e :=
    fun hlt hcs e he => h e (Nat.lt_trans (ClassExpression.weight_lt_of_mem he) hlt) fun e' he' =>
      hcs e' (ClassExpression.mem_vocabularyList.2 ⟨e, he, he'⟩)
  have hfiller : ∀ {filler : Option ClassExpression}, ClassExpression.weightFiller filler < d.weight →
      NamedOnOneLine (ClassExpression.vocabularyFiller filler) →
      PrintsExpression (ClassExpression.fillerOrThing filler) := fun {filler} hlt hf =>
    h _ (by rwa [ClassExpression.weight_fillerOrThing]) (by cases filler <;> exact hf)
  have hcounts : ∀ {r : Role} {e : ClassExpression} {op : Comparison} {bound : Nat},
      PrintsExpression e → PrintsBodies (do
        return countBodies (← related r x fun y => holds e y) op bound) := fun he =>
    (related_prints _ hx fun y hy => he.holds hy).map fun _ hs => linedBody_countBodies hs _ _
  cases d with
  | named iri =>
    rw [define]
    exact (classAtom_prints iri hx).map fun a ha => List.forall_mem_singleton.2 (linedBody_atom ha)
  | thing =>
    rw [define]
    exact .pure (List.forall_mem_singleton.2 linedBody_nil)
  | nothing =>
    rw [define]
    exact .nil
  | intersectionOf cs =>
    rw [define]
    exact (holdsAll_prints (hparts (by rw [ClassExpression.weight]; omega) hd) hx).map
      fun _ => linedBody_toList
  | unionOf cs =>
    rw [define]
    exact holdsSome_prints (hparts (by rw [ClassExpression.weight]; omega) hd) hx
  | complementOf e =>
    rw [define]
    exact ((h e (by rw [ClassExpression.weight]; omega) hd).holdsNot hx).map fun _ => linedBody_toList
  | oneOf is =>
    rw [define]
    exact (members_prints is).map fun _ _ => linedBody_memberBodies _ x
  | someValuesFrom r e =>
    rw [define]
    have he := h e (by rw [ClassExpression.weight]; omega) (List.forall_mem_cons.1 hd).2
    refine (related_prints r hx fun y hy => he.holds hy).bind fun successors hs => ?_
    exact .ite_isDirect (.pure (linedBody_countBodies hs _ _))
      (.pure (List.forall_mem_map.2 fun s hmem => (hs s hmem).2))
  | allValuesFrom r e =>
    rw [define]
    have hweight := e.weight_negation_le
    have he := h e (by rw [ClassExpression.weight]; omega) (List.forall_mem_cons.1 hd).2
    have hdual := h (.someValuesFrom r e.negation) (by simp only [ClassExpression.weight]; omega) (by
      rwa [ClassExpression.vocabulary, ClassExpression.vocabulary_negation])
    refine .ite_isDirect ?_ ((hdual.holdsNot hx).map fun _ => linedBody_toList)
    exact (related_prints r hx fun y hy => he.holdsNot hy).map fun _ hs => linedBody_countBodies hs _ _
  | hasValue r i =>
    rw [define]
    exact (element_prints i).bind fun y hy => (roleAtom_prints r hx hy).map fun a ha =>
      List.forall_mem_singleton.2 (linedBody_atom ha)
  | hasSelf r =>
    rw [define]
    exact (roleAtom_prints r hx hx).map fun a ha => List.forall_mem_singleton.2 (linedBody_atom ha)
  | minCardinality n r filler =>
    rw [define]
    have hf := hfiller (by rw [ClassExpression.weight]; omega) (List.forall_mem_cons.1 hd).2
    split
    · exact .pure (List.forall_mem_singleton.2 linedBody_nil)
    · refine (related_prints r hx fun y hy => hf.holds hy).bind fun successors hs => ?_
      refine .ite_isDirect (.pure (linedBody_countBodies hs _ _)) (.pure ?_)
      -- what is chosen comes from the successors
      refine List.forall_mem_map.2 fun chosen hchosen l hl => ?_
      obtain ⟨body, hbody, hl⟩ := List.mem_flatten.1 hl
      obtain ⟨s, hmem, rfl⟩ := List.mem_map.1 ((mem_choose.1 hchosen).1.subset hbody)
      exact (hs s hmem).2 l hl
  | maxCardinality n r filler =>
    rw [define]
    have hf := hfiller (by rw [ClassExpression.weight]; omega) (List.forall_mem_cons.1 hd).2
    have hdual := h (.minCardinality (nextCardinality n) r filler)
      (by simp only [ClassExpression.weight]; omega) hd
    exact .ite_isDirect (hcounts hf) ((hdual.holdsNot hx).map fun _ => linedBody_toList)
  | exactCardinality n r filler =>
    rw [define]
    have hf := hfiller (by rw [ClassExpression.weight]; omega) (List.forall_mem_cons.1 hd).2
    have hleast := h (.minCardinality n r filler) (by simp only [ClassExpression.weight]; omega) hd
    have hmore := h (.minCardinality (nextCardinality n) r filler)
      (by simp only [ClassExpression.weight]; omega) hd
    refine .ite_isDirect (hcounts hf) ?_
    refine (hleast.holds hx).bind fun atLeast ha => (hmore.holdsNot hx).bind fun noMore hb => ?_
    split
    · next a b => exact .pure (List.forall_mem_singleton.2 ((ha a rfl).append (hb b rfl)))
    · exact .nil

theorem definitionBodies_prints :
    Prints (fun entries => ∀ entry ∈ entries, OneLine entry.1.constant ∧ ∀ b ∈ entry.2, LinedBody b)
      (definitionBodies d) :=
  .get fun _ hc => .mapM fun x hx =>
    (define_prints hd h (hc.elements x hx)).map fun _ hbodies => ⟨hc.elements x hx, hbodies⟩

theorem auxFor_prints : Prints (fun _ => True) (auxFor d) := by
  have hdefine : ∀ entries : List (Element × List Body),
      (∀ entry ∈ entries, OneLine entry.1.constant ∧ ∀ b ∈ entry.2, LinedBody b) →
        Prints (fun _ => True) (defineAux d entries) := by
    intro entries hentries
    refine ⟨fun {c} hc => ?_, fun _ _ => trivial⟩
    rw [exec_defineAux]
    -- the definition is announced with the text of the expression
    have hcomment : OneLine (auxName (c.auxCount + 1) ++ " := " ++ d.render) :=
      ((OneLine.append (by decide) (oneLine_toString _)).append (by decide)).append (d.oneLine_render hd)
    refine ⟨hc.naming, hc.elements, hc.classes, hc.properties,
      (hc.pending.comment hcomment).pushAll fun r hr => ?_⟩
    obtain ⟨⟨x, bodies⟩, hentry, hr⟩ := List.mem_flatMap.1 hr
    obtain ⟨b, hb, rfl⟩ := List.mem_map.1 hr
    exact (lined_auxAtom _ (hentries _ hentry).1).derive ((hentries _ hentry).2 b hb)
  rw [auxFor]
  refine .get fun c hc => ?_
  split
  · exact .pure trivial
  · exact (definitionBodies_prints hd h).bind hdefine

end Lighter

theorem printsExpression (d : ClassExpression) (hd : NamedOnOneLine d.vocabulary) :
    PrintsExpression d := by
  induction hn : d.weight using Nat.strongRecOn generalizing d with
  | ind n ih =>
  subst hn
  have hlighter : ∀ e : ClassExpression, e.weight < d.weight → NamedOnOneLine e.vocabulary →
      PrintsExpression e := fun e he hnames => ih _ he e hnames rfl
  exact printsExpression_of_auxFor hd hlighter (auxFor_prints hd hlighter)

/-! ## Left-hand sides -/

-- The bodies are unfolded through lists by functions of their own, and so is the proof.
mutual

theorem unfoldedBodies_prints {x : Element} (hx : OneLine x.constant) :
    ∀ c : ClassExpression, NamedOnOneLine c.vocabulary → PrintsBodies (unfoldedBodies c x)
  | .nothing, _ => by
    rw [unfoldedBodies]
    exact .nil
  | .thing, _ => by
    rw [unfoldedBodies]
    exact .pure (List.forall_mem_singleton.2 linedBody_nil)
  | .oneOf is, _ => by
    rw [unfoldedBodies]
    exact (members_prints is).map fun _ _ => linedBody_memberBodies _ x
  | .unionOf cs, h => by
    rw [unfoldedBodies]
    exact unfoldedUnion_prints hx cs h
  | .intersectionOf cs, h => by
    rw [unfoldedBodies]
    exact unfoldedProduct_prints hx (List.forall_mem_singleton.2 linedBody_nil) cs h
  | .named _, h | .complementOf _, h | .someValuesFrom _ _, h | .allValuesFrom _ _, h | .hasValue _ _, h
  | .hasSelf _, h | .minCardinality _ _ _, h | .maxCardinality _ _ _, h | .exactCardinality _ _ _, h => by
    simp only [unfoldedBodies]
    exact ((printsExpression _ h).holds hx).map fun _ => linedBody_toList

theorem unfoldedUnion_prints {x : Element} (hx : OneLine x.constant) : ∀ cs : List ClassExpression,
    NamedOnOneLine (ClassExpression.vocabularyList cs) → PrintsBodies (unfoldedUnion cs x)
  | [], _ => by
    rw [unfoldedUnion]
    exact .nil
  | c :: cs, h => by
    obtain ⟨hc, hcs⟩ := List.forall_mem_append.1 h
    rw [unfoldedUnion]
    exact (unfoldedBodies_prints hx c hc).bind fun first hfirst =>
      (unfoldedUnion_prints hx cs hcs).map fun rest hrest => List.forall_mem_append.2 ⟨hfirst, hrest⟩

theorem unfoldedProduct_prints {x : Element} (hx : OneLine x.constant) {product : List Body}
    (hproduct : ∀ b ∈ product, LinedBody b) : ∀ cs : List ClassExpression,
    NamedOnOneLine (ClassExpression.vocabularyList cs) → PrintsBodies (unfoldedProduct product cs x)
  | [], _ => by
    rw [unfoldedProduct]
    exact .pure hproduct
  | c :: cs, h => by
    obtain ⟨hc, hcs⟩ := List.forall_mem_append.1 h
    rw [unfoldedProduct]
    refine (unfoldedBodies_prints hx c hc).bind fun alternatives halternatives => ?_
    dsimp only
    split
    · exact .nil
    · refine unfoldedProduct_prints hx (fun b hb => ?_) cs hcs
      obtain ⟨first, hfirst, hb⟩ := List.mem_flatMap.1 hb
      obtain ⟨second, hsecond, rfl⟩ := List.mem_map.1 hb
      exact (hproduct first hfirst).append (halternatives second hsecond)

end

theorem lhsBodies_prints {c : ClassExpression} (hc : NamedOnOneLine c.vocabulary) {x : Element}
    (hx : OneLine x.constant) : PrintsBodies (lhsBodies c x) :=
  .ite_isDirect (unfoldedBodies_prints hx c hc)
    (((printsExpression c hc).holds hx).map fun _ => linedBody_toList)

/-! ## Membership -/

/-- Rules that stand on one line each. -/
abbrev PrintsRules (m : Grounding (List Rule)) : Prop := Prints (fun rules => ∀ r ∈ rules, r.Lined) m

theorem conjoin_prints {f : ClassExpression → Grounding (Option Body)} {cs : List ClassExpression}
    (hf : ∀ c ∈ cs, PrintsBody (f c)) : PrintsBody (conjoin f cs) := by
  induction cs with
  | nil => exact pure_prints_some linedBody_nil
  | cons c cs ih =>
    obtain ⟨hc, hcs⟩ := List.forall_mem_cons.1 hf
    rw [conjoin]
    refine hc.bind fun first hfirst => ?_
    cases first with
    | none => exact pure_prints_none
    | some first =>
      refine (ih hcs).bind fun rest hrest => ?_
      cases rest with
      | none => exact pure_prints_none
      | some rest => exact pure_prints_some ((hfirst first rfl).append (hrest rest rfl))

theorem lined_exclude {body : Body} (hbody : LinedBody body) {violation : Option Body}
    (h : ∀ b ∈ violation, LinedBody b) : ∀ r ∈ exclude body violation, r.Lined := by
  cases violation with
  | none => nofun
  | some violation => exact List.forall_mem_singleton.2 (hbody.append (h violation rfl)).constraint

theorem lined_excludeCount {successors : List (Element × Body)} (h : ∀ s ∈ successors, LinedSuccessor s)
    {body : Body} (hbody : LinedBody body) (op : Comparison) (bound : Nat) :
    ∀ r ∈ excludeCount successors body op bound, r.Lined := by
  unfold excludeCount
  split_ifs
  · exact List.forall_mem_singleton.2 hbody.constraint
  · nofun
  · exact List.forall_mem_singleton.2 (hbody.append (linedBody_count h op bound)).constraint

theorem fillerSuccessors_prints (r : Role) {c : ClassExpression} (hc : NamedOnOneLine c.vocabulary)
    {x : Element} (hx : OneLine x.constant) :
    Prints (fun successors => ∀ s ∈ successors, LinedSuccessor s) (fillerSuccessors r c x) :=
  related_prints r hx fun _ hy => (printsExpression c hc).holds hy

theorem assertAll_prints {cs : List ClassExpression} {x : Element} {body : Body}
    (h : ∀ c ∈ cs, PrintsRules (assertMember c x body)) : PrintsRules (assertAll cs x body) := by
  induction cs with
  | nil =>
    rw [assertAll]
    exact .nil
  | cons c cs ih =>
    obtain ⟨hc, hcs⟩ := List.forall_mem_cons.1 h
    rw [assertAll]
    exact hc.bind fun first hfirst => (ih hcs).map fun rest hrest =>
      List.forall_mem_append.2 ⟨hfirst, hrest⟩

section Membership

variable {x : Element} (hx : OneLine x.constant) {body : Body} (hbody : LinedBody body)

include hx hbody

theorem exclude_holdsNot_prints {c : ClassExpression} (hc : NamedOnOneLine c.vocabulary) :
    PrintsRules (do return exclude body (← holdsNot c x)) :=
  ((printsExpression c hc).holdsNot hx).map fun _ => lined_exclude hbody

theorem assertStructure_prints {c : ClassExpression} (hc : NamedOnOneLine c.vocabulary)
    (h : ∀ e : ClassExpression, e.weight < c.weight → NamedOnOneLine e.vocabulary →
      ∀ {y : Element}, OneLine y.constant → ∀ {b : Body}, LinedBody b → PrintsRules (assertMember e y b)) :
    PrintsRules (assertStructure c x body) := by
  have hfiller : ∀ {filler : Option ClassExpression},
      NamedOnOneLine (ClassExpression.vocabularyFiller filler) →
      NamedOnOneLine (ClassExpression.fillerOrThing filler).vocabulary := fun {filler} hf => by
    cases filler <;> exact hf
  cases c with
  | intersectionOf cs =>
    rw [assertStructure]
    refine assertAll_prints fun e he => h e ?_ (fun e' he' => ?_) hx hbody
    · have := ClassExpression.weight_lt_of_mem he
      rw [ClassExpression.weight]
      omega
    · exact hc e' (ClassExpression.mem_vocabularyList.2 ⟨e, he, he'⟩)
  | unionOf cs =>
    rw [assertStructure]
    refine (conjoin_prints fun e he => (printsExpression e fun e' he' => ?_).holdsNot hx).map
      fun _ => lined_exclude hbody
    exact hc e' (ClassExpression.mem_vocabularyList.2 ⟨e, he, he'⟩)
  | oneOf is =>
    rw [assertStructure]
    refine (members_prints is).map fun xs _ => ?_
    split
    · exact List.forall_mem_nil _
    · exact List.forall_mem_singleton.2 hbody.constraint
  | someValuesFrom r e =>
    rw [assertStructure]
    exact (fillerSuccessors_prints r (List.forall_mem_cons.1 hc).2 hx).map
      fun _ hs => lined_excludeCount hs hbody _ _
  | allValuesFrom r e =>
    rw [assertStructure]
    refine .get fun κ hκ => .collect fun y hy => ?_
    refine (roleAtom_prints r hx (hκ.elements y hy)).bind fun role hrole => ?_
    exact h e (by rw [ClassExpression.weight]; omega) (List.forall_mem_cons.1 hc).2 (hκ.elements y hy)
      (hbody.append (linedBody_atom hrole))
  | hasValue r i =>
    rw [assertStructure]
    exact (element_prints i).bind fun y hy => (roleAtom_prints r hx hy).map fun a ha =>
      List.forall_mem_singleton.2 (ha.derive hbody)
  | hasSelf r =>
    rw [assertStructure]
    exact (roleAtom_prints r hx hx).map fun a ha => List.forall_mem_singleton.2 (ha.derive hbody)
  | minCardinality n r filler =>
    rw [assertStructure]
    split
    · exact .nil
    · exact (fillerSuccessors_prints r (hfiller (List.forall_mem_cons.1 hc).2) hx).map
        fun _ hs => lined_excludeCount hs hbody _ _
  | maxCardinality n r filler =>
    rw [assertStructure]
    exact (fillerSuccessors_prints r (hfiller (List.forall_mem_cons.1 hc).2) hx).map
      fun _ hs => lined_excludeCount hs hbody _ _
  | exactCardinality n r filler =>
    rw [assertStructure]
    have hf := fillerSuccessors_prints r (hfiller (List.forall_mem_cons.1 hc).2) hx
    exact hf.bind fun fewer hfewer => hf.map fun more hmore => List.forall_mem_append.2
      ⟨lined_excludeCount hfewer hbody _ _, lined_excludeCount hmore hbody _ _⟩
  | _ =>
    simp only [assertStructure]
    exact exclude_holdsNot_prints hx hbody hc

end Membership

theorem assertMember_prints {c : ClassExpression} (hc : NamedOnOneLine c.vocabulary) {x : Element}
    (hx : OneLine x.constant) {body : Body} (hbody : LinedBody body) :
    PrintsRules (assertMember c x body) := by
  induction hn : c.weight using Nat.strongRecOn generalizing c x body with
  | ind n ih =>
  subst hn
  have hdefault : PrintsRules (do
      if (← get).isDirect then assertStructure c x body
      else return exclude body (← holdsNot c x)) :=
    .ite_isDirect
      (assertStructure_prints hx hbody hc fun e he hnames _ hy _ hb => ih _ he hnames hy hb rfl)
      (exclude_holdsNot_prints hx hbody hc)
  cases c with
  | named iri =>
    rw [assertMember]
    exact (classAtom_prints iri hx).map fun a ha => List.forall_mem_singleton.2 (ha.derive hbody)
  | thing =>
    rw [assertMember]
    exact .nil
  | nothing =>
    rw [assertMember]
    exact .pure (List.forall_mem_singleton.2 hbody.constraint)
  | complementOf e =>
    cases e with
    | named iri =>
      rw [assertMember]
      exact (classAtom_prints iri hx).map fun a ha =>
        List.forall_mem_singleton.2 (ha.complement.derive hbody)
    | _ =>
      simp only [assertMember]
      exact hdefault
  | _ =>
    simp only [assertMember]
    exact hdefault

/-! ## Axioms -/

section Roles

variable (r s : Role)

theorem roleInclusion_prints : PrintsRules (roleInclusion r s) :=
  .get fun _ hc => .mapM fun _ hp => by
    obtain ⟨hx, hy⟩ := hc.pairs hp
    exact (roleAtom_prints r hx hy).bind fun _ ha => (roleAtom_prints s hx hy).map fun _ hb =>
      hb.derive (linedBody_atom ha)

theorem roleEquivalence_prints (rs : List Role) : PrintsRules (roleEquivalence rs) := by
  cases rs with
  | nil => exact .nil
  | cons r rs =>
    exact .collect fun s _ => (roleInclusion_prints r s).bind fun _ hthere =>
      (roleInclusion_prints s r).map fun _ hback => List.forall_mem_append.2 ⟨hthere, hback⟩

theorem lined_excludeBoth {a b : Atom} (ha : a.Lined) (hb : b.Lined) : (excludeBoth a b).Lined :=
  ((linedBody_atom ha).append (linedBody_atom hb)).constraint

/-- Two roles are not true of elements together. -/
theorem excludeBoth_prints {x y z w : Element} (hx : OneLine x.constant) (hy : OneLine y.constant)
    (hz : OneLine z.constant) (hw : OneLine w.constant) :
    Prints Rule.Lined (do
      let first ← roleAtom r x y
      return excludeBoth first (← roleAtom s z w)) :=
  (roleAtom_prints r hx hy).bind fun _ ha => (roleAtom_prints s hz hw).map fun _ hb =>
    lined_excludeBoth ha hb

theorem functionality_prints : PrintsRules (functionality r) := by
  refine .get fun c hc => .collect fun x hx => .ite_isDirect ?_ ?_
  · refine .get fun c' hc' => ?_
    refine (Prints.mapM (Q := fun e => OneLine (CountElement.render e)) fun y hy => ?_).map
      fun es hes => ?_
    · refine (roleAtom_prints r (hc.elements x hx) (hc'.elements y hy)).map fun a ha => ?_
      exact CountElement.oneLine_render (List.forall_mem_singleton.2 (hc'.elements y hy)) (linedBody_atom ha)
    · exact List.forall_mem_singleton.2
        (linedBody_singleton (Literal.oneLine_render_count hes)).constraint
  · refine .get fun c' hc' => .mapM fun p hp => ?_
    obtain ⟨hy, hz⟩ := mem_laterPairs hp
    exact excludeBoth_prints r r (hc.elements x hx) (hc'.elements _ hy) (hc.elements x hx)
      (hc'.elements _ hz)

theorem transitivity_prints : PrintsRules (transitivity r) := by
  refine .get fun c hc => .collect fun p hp => .get fun c' hc' => .mapM fun z hz => ?_
  obtain ⟨hx, hy⟩ := hc.pairs (List.mem_of_mem_filter hp)
  have hz := hc'.elements z (List.mem_of_mem_filter hz)
  exact (roleAtom_prints r hx hy).bind fun _ ha => (roleAtom_prints r hy hz).bind fun _ hb =>
    (roleAtom_prints r hx hz).map fun _ hd => hd.derive ((linedBody_atom ha).append (linedBody_atom hb))

theorem asymmetry_prints : PrintsRules (asymmetry r) := by
  refine .get fun c hc => .mapM fun p hp => ?_
  obtain ⟨hx, hy⟩ := mem_upperPairs hp
  refine (roleAtom_prints r (hc.elements _ hx) (hc.elements _ hy)).bind fun there hthere => ?_
  split
  · exact .pure (linedBody_atom hthere).constraint
  · exact (roleAtom_prints r (hc.elements _ hy) (hc.elements _ hx)).map fun _ hback =>
      lined_excludeBoth hthere hback

end Roles

section Classes

variable {c d : ClassExpression} (hc : NamedOnOneLine c.vocabulary) (hd : NamedOnOneLine d.vocabulary)
  {cs : List ClassExpression} (hcs : ∀ c ∈ cs, NamedOnOneLine c.vocabulary)

include hc in
theorem typing_prints (r : Role) {typed : Element × Element → Element}
    (htyped : ∀ p, typed p = p.1 ∨ typed p = p.2) : PrintsRules (typing r c typed) := by
  refine .get fun κ hκ => .collect fun p hp => ?_
  obtain ⟨hx, hy⟩ := hκ.pairs hp
  refine (roleAtom_prints r hx hy).bind fun role hrole => ?_
  have hconstant : OneLine (typed p).constant := by
    rcases htyped p with heq | heq
    · exact heq ▸ hx
    · exact heq ▸ hy
  exact assertMember_prints hc hconstant (linedBody_atom hrole)

include hc hd in
theorem inclusion_prints : PrintsRules (inclusion c d) :=
  .get fun _ hκ => .collect fun _ hx => (lhsBodies_prints hc (hκ.elements _ hx)).bind fun _ hbodies =>
    .collect fun body hbody => assertMember_prints hd (hκ.elements _ hx) (hbodies body hbody)

include hc hd in
theorem disjointness_prints : PrintsRules (disjointness c d) := by
  refine .get fun κ hκ => .collect fun x hx => ?_
  refine (lhsBodies_prints hc (hκ.elements x hx)).bind fun left hleft =>
    (lhsBodies_prints hd (hκ.elements x hx)).map fun right hright r hr => ?_
  obtain ⟨a, ha, hr⟩ := List.mem_flatMap.1 hr
  obtain ⟨b, hb, rfl⟩ := List.mem_map.1 hr
  exact ((hleft a ha).append (hright b hb)).constraint

include hcs in
theorem pairwiseDisjointness_prints : PrintsRules (pairwiseDisjointness cs) :=
  .collect fun p hp => by
    obtain ⟨hc, hd⟩ := mem_laterPairs hp
    exact disjointness_prints (hcs _ hc) (hcs _ hd)

include hcs in
theorem equivalence_prints : PrintsRules (equivalence cs) := by
  cases cs with
  | nil => exact .nil
  | cons c cs =>
    obtain ⟨hc, hcs⟩ := List.forall_mem_cons.1 hcs
    exact .collect fun d hd => (inclusion_prints hc (hcs d hd)).bind fun _ hthere =>
      (inclusion_prints (hcs d hd) hc).map fun _ hback => List.forall_mem_append.2 ⟨hthere, hback⟩

end Classes

theorem namedOnOneLine_of_mem_parts {a : Axiom} (h : a.NamesOneLine) :
    ∀ c ∈ a.parts, NamedOnOneLine c.vocabulary := fun c hc e he =>
  h e (.inr ⟨c, hc, ClassExpression.mem_vocabulary_iff.1 he⟩)

/-- The two sides of the equivalence that a disjoint union states. -/
theorem namedOnOneLine_disjointUnion {whole : Iri} {parts : List ClassExpression}
    (h : (Axiom.disjointUnion whole parts).NamesOneLine) :
    ∀ c ∈ [.named whole, .unionOf parts], NamedOnOneLine (ClassExpression.vocabulary c) := by
  have hwhole : OneLine whole.text := h (.atomicClass whole) (.inl List.mem_cons_self)
  refine List.forall_mem_cons.2 ⟨List.forall_mem_singleton.2 hwhole, List.forall_mem_singleton.2 ?_⟩
  intro e he
  obtain ⟨c, hc, he⟩ := ClassExpression.mem_vocabularyList.1 he
  exact namedOnOneLine_of_mem_parts h c hc e he

theorem axiomRules_prints {a : Axiom} (h : a.NamesOneLine) : PrintsRules (axiomRules a) := by
  have hparts := namedOnOneLine_of_mem_parts h
  cases a with
  | declaration e => exact .nil
  | subClassOf c d =>
    exact inclusion_prints (hparts c List.mem_cons_self)
      (hparts d (List.mem_cons_of_mem _ List.mem_cons_self))
  | equivalentClasses cs => exact equivalence_prints hparts
  | disjointClasses cs => exact pairwiseDisjointness_prints hparts
  | disjointUnion whole parts =>
    exact (equivalence_prints (namedOnOneLine_disjointUnion h)).bind fun _ hequal =>
      (pairwiseDisjointness_prints hparts).map fun _ hdisjoint =>
        List.forall_mem_append.2 ⟨hequal, hdisjoint⟩
  | subObjectPropertyOf r s => exact roleInclusion_prints r s
  | equivalentObjectProperties rs => exact roleEquivalence_prints rs
  | disjointObjectProperties rs =>
    refine .collect fun p _ => .get fun c hc => .mapM fun q hq => ?_
    obtain ⟨hx, hy⟩ := hc.pairs hq
    exact excludeBoth_prints p.1 p.2 hx hy hx hy
  | inverseObjectProperties r s => exact roleEquivalence_prints [r, s.inverse]
  | objectPropertyDomain r c => exact typing_prints (hparts c List.mem_cons_self) r fun _ => .inl rfl
  | objectPropertyRange r c => exact typing_prints (hparts c List.mem_cons_self) r fun _ => .inr rfl
  | functionalObjectProperty r | inverseFunctionalObjectProperty r => exact functionality_prints _
  | reflexiveObjectProperty r =>
    exact .get fun _ hc => .mapM fun x hx =>
      (roleAtom_prints r (hc.elements x hx) (hc.elements x hx)).map fun _ ha => ha.fact
  | irreflexiveObjectProperty r =>
    exact .get fun _ hc => .mapM fun x hx =>
      (roleAtom_prints r (hc.elements x hx) (hc.elements x hx)).map fun _ ha =>
        (linedBody_atom ha).constraint
  | symmetricObjectProperty r =>
    refine .get fun c hc => .mapM fun p hp => ?_
    obtain ⟨hx, hy⟩ := hc.pairs (List.mem_of_mem_filter hp)
    exact (roleAtom_prints r hx hy).bind fun _ hthere => (roleAtom_prints r hy hx).map fun _ hback =>
      hback.derive (linedBody_atom hthere)
  | asymmetricObjectProperty r => exact asymmetry_prints r
  | transitiveObjectProperty r => exact transitivity_prints r
  | sameIndividual is =>
    refine (members_prints is).map fun xs _ => ?_
    split
    · exact List.forall_mem_singleton.2 linedBody_nil.constraint
    · exact List.forall_mem_nil _
  | differentIndividuals is => exact (members_prints is).bind fun _ _ => .nil
  | classAssertion c i =>
    exact (element_prints i).bind fun x hx =>
      assertMember_prints (hparts c List.mem_cons_self) hx linedBody_nil
  | objectPropertyAssertion r i j =>
    exact (element_prints i).bind fun x hx => (element_prints j).bind fun y hy =>
      (roleAtom_prints r hx hy).map fun _ ha => List.forall_mem_singleton.2 ha.fact
  | negativeObjectPropertyAssertion r i j =>
    exact (element_prints i).bind fun x hx => (element_prints j).bind fun y hy =>
      (roleAtom_prints r hx hy).map fun _ ha => List.forall_mem_singleton.2 ha.complement.fact
  | unsupported keyword source => exact .fail _

end Grounding

end FixedDomain
