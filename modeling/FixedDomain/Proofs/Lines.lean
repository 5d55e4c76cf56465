import FixedDomain.Program.Printer
import FixedDomain.Text.Separated
import FixedDomain.Proofs.Atom
import FixedDomain.Proofs.Signature

/-! # Texts on one line

* `OneLine` — texts without line breaks. They are closed under everything that the printers do.
* `ClassExpression.oneLine_render`, `Axiom.oneLine_render` — what is written of an ontology stands on one
  line if the names in it do, unless it is kept as its source text.
* `Rule.Lined`, `Program.Lined` — everything that rules and programs are written with stands on one line.
* `Program.LineByLine` — the text of a program has one line for each entry.
-/

namespace FixedDomain

open FunctionalSyntax

/-- A text without any white space but spaces, and so without line breaks. -/
def OneLine (text : String) : Prop := ∀ c ∈ text.toList, isWhiteSpace c = true → c = ' '

instance (text : String) : Decidable (OneLine text) :=
  decidable_of_iff (text.toList.all fun c => !isWhiteSpace c || c == ' ') (by
    simp [OneLine, or_iff_not_imp_left])

/-! ## Lines -/

/-- A line, up to its line break, and the lines behind it. -/
theorem splitAt_append_cons {separator : Char} {front : List Char} (h : separator ∉ front)
    (rest : List Char) : splitAt separator (front ++ separator :: rest) =
      front :: splitAt separator rest := by
  induction front with
  | nil => simp [splitAt]
  | cons c front ih =>
    have hc : c ≠ separator := fun heq => h (heq ▸ List.mem_cons_self)
    rw [List.cons_append, splitAt, if_neg hc, ih fun hmem => h (List.mem_cons_of_mem c hmem)]

theorem OneLine.not_mem_lineBreak {text : String} (h : OneLine text) : '\n' ∉ text.toList :=
  fun hmem => absurd (h '\n' hmem (by decide)) (by decide)

/-! ## Composed texts -/

theorem OneLine.append {text text' : String} (h : OneLine text) (h' : OneLine text') :
    OneLine (text ++ text') := by
  simpa [OneLine, or_imp, forall_and] using And.intro h h'

theorem oneLine_intercalate {separator : String} (hs : OneLine separator) {texts : List String}
    (h : ∀ text ∈ texts, OneLine text) : OneLine (separator.intercalate texts) := by
  induction texts with
  | nil => simp [OneLine]
  | cons text texts ih =>
    obtain ⟨htext, htexts⟩ := List.forall_mem_cons.1 h
    cases texts with
    | nil => simpa using htext
    | cons text' texts =>
      rw [String.intercalate_cons_cons]
      exact (htext.append hs).append (ih htexts)

theorem oneLine_of_forall {text : String} (h : ∀ c ∈ text.toList, isWhiteSpace c = false) :
    OneLine text :=
  fun c hc hblank => by simp [h c hc] at hblank

theorem oneLine_of_isBracketable {text : String} (h : IsBracketable text) : OneLine text :=
  oneLine_of_forall fun c hc => by
    have := h c hc
    simp only [isIriChar, Bool.and_eq_true, Bool.not_eq_true'] at this
    exact this.2

theorem oneLine_of_isKeyword {word : String} (h : isKeyword word.toList) : OneLine word := by
  refine oneLine_of_forall fun c hc => isWhiteSpace_of_isSymbolChar ?_
  unfold isKeyword at h
  split at h
  · cases h
  · next first rest heq =>
    rw [heq] at hc
    simp only [Bool.and_eq_true, List.all_eq_true] at h
    obtain rfl | hrest := List.mem_cons.1 hc
    · simp [NamingScheme.isSymbolChar, Char.isAlphanum, show c.isAlpha from h.1]
    · exact h.2 c hrest

theorem oneLine_toString (n : Nat) : OneLine (toString n) :=
  oneLine_of_forall fun _ hc =>
    isWhiteSpace_of_isSymbolChar (NamingScheme.isSymbolChar_of_mem_toString hc)

theorem oneLine_spaced {texts : List String} (h : ∀ text ∈ texts, OneLine text) :
    OneLine (spaced texts) :=
  oneLine_intercalate (by decide) h

theorem oneLine_group {keyword : String} (hk : OneLine keyword) {arguments : List String}
    (h : ∀ text ∈ arguments, OneLine text) : OneLine (group keyword arguments) :=
  ((hk.append (by decide)).append (oneLine_spaced h)).append (by decide)

/-! ## Ontologies -/

theorem Iri.oneLine_render {iri : Iri} (h : OneLine iri.text) : OneLine iri.render := by
  unfold Iri.render
  split
  · exact h
  · exact (OneLine.append (by decide) h).append (by decide)

theorem Role.oneLine_render {r : Role} (h : OneLine r.property.text) : OneLine r.render := by
  cases r with
  | named property => exact Iri.oneLine_render h
  | inverseOf property =>
    exact oneLine_group (by decide) (List.forall_mem_singleton.2 (Iri.oneLine_render h))

theorem Entity.oneLine_render {e : Entity} (h : OneLine e.iri.text) : OneLine e.render := by
  have hkind : OneLine e.kind := by cases e <;> simp only [Entity.kind] <;> decide
  exact oneLine_group hkind (List.forall_mem_singleton.2 (Iri.oneLine_render h))

/-- The names of some entities stand on one line. -/
def NamedOnOneLine (es : List Entity) : Prop := ∀ e ∈ es, OneLine e.iri.text

namespace ClassExpression

-- The printer goes through lists and fillers by functions of their own, and so does the proof.
mutual

theorem oneLine_render : ∀ c : ClassExpression, NamedOnOneLine c.vocabulary → OneLine c.render
  | named _, h => Iri.oneLine_render (h _ (List.mem_singleton_self _))
  | thing, _ | nothing, _ => by decide
  | intersectionOf cs, h | unionOf cs, h => oneLine_group (by decide) (oneLine_renderList cs h)
  | complementOf c, h => oneLine_group (by decide) (List.forall_mem_singleton.2 (oneLine_render c h))
  | oneOf is, h => by
    refine oneLine_group (by decide) (List.forall_mem_map.2 fun i hi => ?_)
    exact Iri.oneLine_render (h _ (List.mem_map_of_mem hi))
  | someValuesFrom r c, h | allValuesFrom r c, h => by
    obtain ⟨hr, hc⟩ := List.forall_mem_cons.1 h
    exact oneLine_group (by decide) (List.forall_mem_cons.2
      ⟨Role.oneLine_render hr, List.forall_mem_singleton.2 (oneLine_render c hc)⟩)
  | hasValue r i, h => by
    obtain ⟨hr, hi⟩ := List.forall_mem_cons.1 h
    exact oneLine_group (by decide) (List.forall_mem_cons.2 ⟨Role.oneLine_render hr,
      List.forall_mem_singleton.2 (Iri.oneLine_render (hi _ (List.mem_singleton_self _)))⟩)
  | hasSelf r, h =>
    oneLine_group (by decide)
      (List.forall_mem_singleton.2 (Role.oneLine_render (h _ (List.mem_singleton_self _))))
  | minCardinality n r c, h | maxCardinality n r c, h | exactCardinality n r c, h => by
    obtain ⟨hr, hc⟩ := List.forall_mem_cons.1 h
    exact oneLine_group (by decide) (List.forall_mem_cons.2 ⟨oneLine_toString _,
      List.forall_mem_cons.2 ⟨Role.oneLine_render hr, oneLine_renderFiller c hc⟩⟩)

theorem oneLine_renderList : ∀ cs : List ClassExpression, NamedOnOneLine (vocabularyList cs) →
    ∀ text ∈ renderList cs, OneLine text
  | [], _ => nofun
  | c :: cs, h => by
    obtain ⟨hc, hcs⟩ := List.forall_mem_append.1 h
    exact List.forall_mem_cons.2 ⟨oneLine_render c hc, oneLine_renderList cs hcs⟩

theorem oneLine_renderFiller : ∀ c : Option ClassExpression, NamedOnOneLine (vocabularyFiller c) →
    ∀ text ∈ renderFiller c, OneLine text
  | none, _ => nofun
  | some c, h => List.forall_mem_singleton.2 (oneLine_render c h)

end

theorem renderList_eq_map (cs : List ClassExpression) : renderList cs = cs.map render := by
  induction cs with
  | nil => rfl
  | cons c cs ih => rw [renderList, ih, List.map_cons]

end ClassExpression

namespace Axiom

/-- All names in an axiom stand on one line. -/
def NamesOneLine (a : Axiom) : Prop := ∀ e, a.Mentions e → OneLine e.iri.text

theorem oneLine_kind {a : Axiom} (h : a.IsSupported) : OneLine a.kind :=
  oneLine_of_isKeyword (isKeyword_kind h)

theorem oneLine_arguments {a : Axiom} (hs : a.IsSupported) (h : a.NamesOneLine) :
    ∀ text ∈ a.arguments, OneLine text := by
  have hown : ∀ e ∈ a.own, OneLine e.iri.text := fun e he => h e (.inl he)
  have hparts : ∀ c ∈ a.parts, OneLine c.render := fun c hc =>
    c.oneLine_render fun e he => h e (.inr ⟨c, hc, ClassExpression.mem_vocabulary_iff.1 he⟩)
  have hlist : ∀ {cs : List ClassExpression}, (∀ c ∈ cs, OneLine c.render) →
      ∀ text ∈ ClassExpression.renderList cs, OneLine text := fun hcs => by
    rw [ClassExpression.renderList_eq_map]
    exact List.forall_mem_map.2 hcs
  have hroles : ∀ {rs : List Role}, NamedOnOneLine (rolesVocabulary rs) →
      ∀ text ∈ rs.map Role.render, OneLine text := fun h =>
    List.forall_mem_map.2 fun r hr => Role.oneLine_render (h _ (List.mem_map_of_mem hr))
  have hindividuals : ∀ {is : List Individual}, NamedOnOneLine (individualsVocabulary is) →
      ∀ text ∈ is.map Individual.render, OneLine text := fun h =>
    List.forall_mem_map.2 fun i hi => Iri.oneLine_render (h _ (List.mem_map_of_mem hi))
  cases a with
  | unsupported => cases hs
  | declaration e =>
    exact List.forall_mem_singleton.2 (Entity.oneLine_render (hown e List.mem_cons_self))
  | subClassOf c d => exact List.forall_mem_map.2 hparts
  | equivalentClasses cs | disjointClasses cs => exact hlist hparts
  | disjointUnion whole parts =>
    exact List.forall_mem_cons.2 ⟨Iri.oneLine_render (hown _ List.mem_cons_self),
      List.forall_mem_singleton.2 (oneLine_spaced (hlist hparts))⟩
  | subObjectPropertyOf r s | inverseObjectProperties r s | equivalentObjectProperties rs
  | disjointObjectProperties rs | functionalObjectProperty r | inverseFunctionalObjectProperty r
  | reflexiveObjectProperty r | irreflexiveObjectProperty r | symmetricObjectProperty r
  | asymmetricObjectProperty r | transitiveObjectProperty r => exact hroles hown
  | objectPropertyDomain r c | objectPropertyRange r c =>
    exact List.forall_mem_cons.2 ⟨Role.oneLine_render (hown _ List.mem_cons_self),
      List.forall_mem_map.2 hparts⟩
  | sameIndividual is | differentIndividuals is => exact hindividuals hown
  | classAssertion c i =>
    exact List.forall_mem_cons.2 ⟨hparts c List.mem_cons_self, hindividuals hown⟩
  | objectPropertyAssertion r i j | negativeObjectPropertyAssertion r i j =>
    obtain ⟨hr, hij⟩ := List.forall_mem_append.1 hown
    exact List.forall_mem_append.2 ⟨hroles hr, hindividuals hij⟩

theorem oneLine_render {a : Axiom} (hs : a.IsSupported) (h : a.NamesOneLine) : OneLine a.render := by
  have hgroup := oneLine_group (oneLine_kind hs) (oneLine_arguments hs h)
  cases a with
  | unsupported => cases hs
  | _ => exact hgroup

end Axiom

/-! ## Programs -/

/-- The parts of an atom stand on one line. -/
structure Atom.Lined (a : Atom) : Prop where
  predicate : OneLine a.predicate
  arguments : ∀ text ∈ a.arguments, OneLine text

theorem Atom.Lined.complement {a : Atom} (h : a.Lined) : a.complement.Lined :=
  ⟨h.predicate, h.arguments⟩

theorem Atom.Lined.oneLine_render {a : Atom} (h : a.Lined) : OneLine a.render := by
  unfold Atom.render
  refine OneLine.append (.append ?_ h.predicate) ?_
  · split <;> decide
  · split
    · decide
    · exact (OneLine.append (by decide) (oneLine_intercalate (by decide) h.arguments)).append (by decide)

/-- The literals of a body stand on one line. -/
def LinedBody (body : List Literal) : Prop := ∀ l ∈ body, OneLine l.render

theorem linedBody_nil : LinedBody [] := nofun

theorem LinedBody.append {body body' : List Literal} (h : LinedBody body) (h' : LinedBody body') :
    LinedBody (body ++ body') := List.forall_mem_append.2 ⟨h, h'⟩

theorem LinedBody.cons {l : Literal} {body : List Literal} (hl : OneLine l.render) (h : LinedBody body) :
    LinedBody (l :: body) := List.forall_mem_cons.2 ⟨hl, h⟩

theorem linedBody_singleton {l : Literal} (h : OneLine l.render) : LinedBody [l] := .cons h linedBody_nil

theorem Literal.renderList_eq_map (ls : List Literal) : Literal.renderList ls = ls.map Literal.render := by
  induction ls with
  | nil => rfl
  | cons l ls ih => rw [Literal.renderList, ih, List.map_cons]

theorem CountElement.renderList_eq_map (es : List CountElement) :
    CountElement.renderList es = es.map CountElement.render := by
  induction es with
  | nil => rfl
  | cons e es ih => rw [CountElement.renderList, ih, List.map_cons]

theorem oneLine_renderBody {body : List Literal} (h : LinedBody body) : OneLine (renderBody body) := by
  rw [renderBody, Literal.renderList_eq_map]
  exact oneLine_intercalate (by decide) (List.forall_mem_map.2 h)

theorem Literal.oneLine_render_not {a : Atom} (h : a.Lined) : OneLine (Literal.not a).render :=
  OneLine.append (by decide) h.oneLine_render

theorem CountElement.oneLine_render {e : CountElement} (ht : ∀ term ∈ e.terms, OneLine term)
    (hc : LinedBody e.condition) : OneLine e.render := by
  have hterms : OneLine (",".intercalate e.terms) := oneLine_intercalate (by decide) ht
  have hbody := oneLine_renderBody hc
  obtain ⟨terms, condition⟩ := e
  cases condition with
  | nil => exact hterms
  | cons l ls => exact (hterms.append (by decide)).append hbody

theorem Literal.oneLine_render_count {es : List CountElement} {op : Comparison} {bound : Nat}
    (h : ∀ e ∈ es, OneLine e.render) : OneLine (Literal.count es op bound).render := by
  have hop : OneLine op.render := by cases op <;> simp only [Comparison.render] <;> decide
  have htail : OneLine (op.render ++ " " ++ toString bound) :=
    (hop.append (by decide)).append (oneLine_toString bound)
  cases es with
  | nil =>
    simp only [Literal.render]
    exact ((OneLine.append (by decide) hop).append (by decide)).append (oneLine_toString bound)
  | cons e es =>
    have helements : OneLine ("; ".intercalate (e.render :: CountElement.renderList es)) := by
      rw [CountElement.renderList_eq_map, ← List.map_cons]
      exact oneLine_intercalate (by decide) (List.forall_mem_map.2 h)
    simp only [Literal.render]
    exact ((((OneLine.append (by decide) helements).append (by decide)).append hop).append
      (by decide)).append (oneLine_toString bound)

/-- What a rule is written with stands on one line. -/
structure Rule.Lined (r : Rule) : Prop where
  head : ∀ a ∈ r.head, a.Lined
  body : LinedBody r.body

theorem Atom.Lined.choice {a : Atom} (h : a.Lined) : (Rule.choice a).Lined :=
  ⟨List.forall_mem_cons.2 ⟨h, List.forall_mem_singleton.2 h.complement⟩, linedBody_nil⟩

theorem Atom.Lined.derive {a : Atom} (h : a.Lined) {body : List Literal} (hbody : LinedBody body) :
    (Rule.derive a body).Lined := ⟨List.forall_mem_singleton.2 h, hbody⟩

theorem Atom.Lined.fact {a : Atom} (h : a.Lined) : (Rule.fact a).Lined := h.derive linedBody_nil

theorem LinedBody.constraint {body : List Literal} (h : LinedBody body) : (Rule.constraint body).Lined :=
  ⟨nofun, h⟩

theorem Rule.Lined.oneLine_render {r : Rule} (h : r.Lined) : OneLine r.render := by
  have hhead : OneLine (Rule.renderHead r.head) :=
    oneLine_intercalate (by decide) (List.forall_mem_map.2 fun a ha => (h.head a ha).oneLine_render)
  have hbody := oneLine_renderBody h.body
  obtain ⟨head, body⟩ := r
  cases head with
  | nil =>
    cases body with
    | nil => exact (by decide : OneLine ":- #true.")
    | cons l ls => exact (OneLine.append (by decide) hbody).append (by decide)
  | cons a as =>
    cases body with
    | nil => exact hhead.append (by decide)
    | cons l ls => exact ((hhead.append (by decide)).append hbody).append (by decide)

namespace Program

/-- Every entry of a program stands on one line. -/
def Lined (p : Program) : Prop := ∀ entry ∈ p.statements.toList, OneLine entry.render

theorem lined_empty : empty.Lined := nofun

theorem Lined.push {p : Program} (h : p.Lined) {r : Rule} (hr : r.Lined) : (p.push r).Lined := by
  have hline : OneLine (Statement.rule r).render := hr.oneLine_render
  simpa [Lined, Program.push, or_imp, forall_and] using And.intro h hline

theorem Lined.pushAll {p : Program} (h : p.Lined) {rs : List Rule} (hrs : ∀ r ∈ rs, r.Lined) :
    (p.pushAll rs).Lined := by
  induction rs generalizing p with
  | nil => exact h
  | cons r rs ih =>
    obtain ⟨hr, hrs⟩ := List.forall_mem_cons.1 hrs
    exact ih (h.push hr) hrs

theorem Lined.comment {p : Program} (h : p.Lined) {text : String} (ht : OneLine text) :
    (p.comment text).Lined := by
  have hline : OneLine (Statement.comment text).render := OneLine.append (by decide) ht
  simpa [Lined, Program.comment, or_imp, forall_and] using And.intro h hline

theorem Lined.append {p q : Program} (h : p.Lined) (hq : q.Lined) : (p ++ q).Lined := by
  change (Program.append p q).Lined
  simpa [Lined, Program.append, or_imp, forall_and] using And.intro h hq

/-- The text of a program has one line for each entry, in their order, and comments are marked as such.
Behind the last line break nothing is left. -/
structure LineByLine (p : Program) : Prop where
  lines : splitAt '\n' p.render.toList =
    p.statements.toList.map (fun entry => entry.render.toList) ++ [[]]
  oneLine : ∀ entry ∈ p.statements.toList, OneLine entry.render
  comments : ∀ (k : Nat) (text : String), p.statements[k]? = some (.comment text) →
    (splitAt '\n' p.render.toList)[k]? = some ('%' :: ' ' :: text.toList)

theorem Lined.lineByLine {p : Program} (h : p.Lined) : p.LineByLine := by
  have hsplit : ∀ texts : List String, (∀ text ∈ texts, OneLine text) →
      splitAt '\n' (charactersOf texts) = texts.map String.toList ++ [[]] := by
    intro texts htexts
    induction texts with
    | nil => rfl
    | cons text texts ih =>
      obtain ⟨htext, htexts⟩ := List.forall_mem_cons.1 htexts
      rw [charactersOf_cons, splitAt_append_cons htext.not_mem_lineBreak, ih htexts, List.map_cons,
        List.cons_append]
  have hrender : p.render.toList = charactersOf p.lines := by
    simp [render, charactersOf, String.toList_join, List.flatMap_map]
  have hlines : splitAt '\n' p.render.toList =
      p.statements.toList.map (fun entry => entry.render.toList) ++ [[]] := by
    rw [hrender, lines, hsplit _ (List.forall_mem_map.2 h), List.map_map]
    rfl
  refine ⟨hlines, h, fun k text hk => ?_⟩
  have hline : (p.statements.toList.map fun entry => entry.render.toList)[k]? =
      some ('%' :: ' ' :: text.toList) := by
    simp [hk, Statement.render]
  rw [hlines, List.getElem?_append_left (List.getElem?_eq_some_iff.1 hline).1, hline]

end Program

end FixedDomain
