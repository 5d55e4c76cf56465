import FixedDomain.Proofs.FunctionalSyntax.Rewriting
import FixedDomain.Proofs.FunctionalSyntax.Stretches

/-! # The parts of a document

Between its opening and its closing parenthesis a document consists of parts: imports, annotations and
statements. What a part adds to an ontology depends on its words alone, not on what stands before or
behind it, and an unsupported statement is kept as the text from its keyword to the parenthesis that
closes it (`IsPart`).

* `Repeats` — a step takes some words, and it does the same wherever these are found.
* `Consists` — some words are a sequence of parts, with all that these add.
-/

namespace FixedDomain

/-- An ontology with further imports and axioms. -/
def Ontology.extend (o : Ontology) (imports : List Iri) (axioms : List Axiom) : Ontology :=
  { axioms.foldl Ontology.add o with imports := o.imports ++ imports }

namespace Ontology

variable (o : Ontology) (imports imports' : List Iri) (axioms axioms' : List Axiom)

theorem extend_nil : o.extend [] [] = o := by simp [extend]

theorem extend_singleton (a : Axiom) : o.extend [] [a] = o.add a := by simp [extend, add]

theorem extend_extend :
    (o.extend imports axioms).extend imports' axioms' =
      o.extend (imports ++ imports') (axioms ++ axioms') := by
  simp [extend, foldl_add]

@[simp] theorem axioms_extend : (o.extend imports axioms).axioms = o.axioms ++ axioms := by
  simp [extend, foldl_add]

@[simp] theorem imports_extend : (o.extend imports axioms).imports = o.imports ++ imports := rfl

@[simp] theorem prefixes_extend : (o.extend imports axioms).prefixes = o.prefixes := by
  simp [extend, foldl_add]

end Ontology

namespace FunctionalSyntax

variable {α β : Type}

/-! ## Steps that take the same words -/

/-- A step takes some words, and it has the same result wherever these are found. -/
structure Repeats (m : Reading α) : Prop where
  ok : ∀ {left rest a}, Sound left → m left = .ok (a, rest) →
    ∃ used, left = used ++ rest ∧ Reads m (used.map (·.token)) a

theorem Repeats.pure (a : α) : Repeats (pure a) where
  ok _ h := by
    obtain ⟨rfl, rfl⟩ := Prod.mk.inj (Except.ok.inj h)
    exact ⟨[], rfl, .pure a⟩

theorem Repeats.fault (f : SyntaxFault) : Repeats (fault f : Reading α) where
  ok _ h := by cases h

theorem Repeats.bind {m : Reading α} {f : α → Reading β} (h : Repeats m) (hf : ∀ a, Repeats (f a)) :
    Repeats (m >>= f) where
  ok hsound hm := by
    obtain ⟨a, mid, hfirst, hsecond⟩ := exists_of_bind hm
    obtain ⟨first, rfl, hreads⟩ := h.ok hsound hfirst
    obtain ⟨second, rfl, hreads'⟩ := (hf a).ok hsound.of_append hsecond
    refine ⟨first ++ second, by rw [List.append_assoc], ?_⟩
    rw [List.map_append]
    exact hreads.bind hreads'

theorem repeats_next : Repeats next where
  ok {left _ _} _ h := by
    cases left with
    | nil => cases h
    | cons t left =>
      obtain ⟨rfl, rfl⟩ := Prod.mk.inj (Except.ok.inj h)
      refine ⟨[t], rfl, fun located rest hts => ?_⟩
      obtain ⟨t', rfl, ht'⟩ := List.map_eq_singleton_iff.1 hts
      exact congrArg (fun word => Except.ok (word, rest)) ht'

theorem repeats_expect (word : Token) : Repeats (expect word) where
  ok {left _ _} _ h := by
    rcases expect_cases word left with ⟨t, rest', rfl, rfl, hok⟩ | ⟨f, hfault⟩
    · rw [hok] at h
      obtain ⟨-, rfl⟩ := Prod.mk.inj (Except.ok.inj h)
      exact ⟨[t], rfl, reads_expect t.token⟩
    · rw [hfault] at h
      cases h

theorem repeats_iri {ns : Namespaces} (hns : ns.IsSound) : Repeats (iri ns) where
  ok {left _ _} hsound h := by
    obtain ⟨found, mid, hiri, hfound⟩ := exists_of_bind h
    rcases iri?_cases hns hsound with ⟨t, rest', name, rfl, -, -, hread⟩ | hnone | ⟨f, hfault⟩
    · rw [hread ns t rest' (fun _ => rfl) rfl] at hiri
      obtain ⟨rfl, rfl⟩ := Prod.mk.inj (Except.ok.inj hiri)
      obtain ⟨rfl, rfl⟩ := Prod.mk.inj (Except.ok.inj hfound)
      refine ⟨[t], rfl, fun located rest hts => ?_⟩
      obtain ⟨t', rfl, ht'⟩ := List.map_eq_singleton_iff.1 hts
      exact bind_of_ok (hread ns t' rest (fun _ => rfl) ht')
    · rw [hnone ns left rfl] at hiri
      obtain ⟨rfl, -⟩ := Prod.mk.inj (Except.ok.inj hiri)
      cases hfound
    · rw [hfault] at hiri
      cases hiri

theorem repeats_declaration {ns : Namespaces} (hns : ns.IsSound) : Repeats (declaration ns) := by
  unfold declaration
  refine repeats_next.bind fun word => ?_
  split
  · refine (repeats_expect _).bind fun _ => (repeats_iri hns).bind fun iri => ?_
    refine (repeats_expect _).bind fun _ => (repeats_expect _).bind fun _ => ?_
    split
    · exact .pure _
    · exact .pure _
    · exact .pure _
    · exact .pure _
    · exact .pure _
    · exact .pure _
    · exact .fault _
  · exact .fault _

/-! ## Statements -/

/-- A statement after its annotations. -/
def statementRest (ns : Namespaces) (steps : Nat) (kind : String) : Reading (Option Axiom) :=
  if kind = "Declaration" then declaration ns
  else if kind ∈ annotationAxioms then do
    let _ ← skipRest 1 .start
    pure none
  else do
    let result ← axiomArguments ns steps kind
    expect .rightParen
    pure (some result)

theorem statementBody_eq (ns : Namespaces) (steps : Nat) (kind : String) :
    statementBody ns steps kind =
      (do expect .leftParen; skipAnnotations steps; statementRest ns steps kind) := rfl

section Statements

variable {text text' : List Char} {ns : Namespaces} (hns : ns.IsSound) {steps : Nat} {kind : String}
  {left rest : List Located} {found : Option Axiom}

include hns

/-- The words of a statement after its annotations are read alike wherever they are found. -/
theorem exists_reads_of_statementRest (hsound : Sound left)
    (h : statementRest ns steps kind left = .ok (found, rest)) :
    ∃ used, left = used ++ rest ∧ used ≠ [] ∧ ∀ steps', 3 * used.length + 2 ≤ steps' →
      Reads (statementRest ns steps' kind) (used.map (·.token)) found := by
  unfold statementRest at h ⊢
  split_ifs at h ⊢ with hdeclaration hannotation
  · obtain ⟨used, rfl, hreads⟩ := (repeats_declaration hns).ok hsound h
    refine ⟨used, rfl, ?_, fun _ _ => hreads⟩
    rintro rfl
    cases hreads [] [] rfl
  · obtain ⟨stop, mid, hskip, h⟩ := exists_of_bind h
    obtain ⟨rfl, rfl⟩ := Prod.mk.inj (Except.ok.inj h)
    obtain ⟨used, rfl, hne, hreplay⟩ := exists_used_of_skipRest hskip
    refine ⟨used, rfl, hne one_ne_zero, fun _ _ located rest hts => ?_⟩
    have hskip' : skipRest 1 .start (located ++ rest) = .ok (lastStop located .start, rest) := by
      rw [hreplay located hts rest .start 0, skipRest]
    exact bind_of_ok hskip'
  · obtain ⟨a, mid, harguments, hend⟩ := exists_of_bind h
    obtain ⟨-, used, rfl, -, -, hreplay⟩ :=
      (traces_axiomArguments hns (.refl ns) steps kind).ok hsound harguments
    obtain ⟨_, mid', hclose, hresult⟩ := exists_of_bind hend
    obtain ⟨rfl, rfl⟩ := Prod.mk.inj (Except.ok.inj hresult)
    rcases expect_cases .rightParen mid with ⟨close, rest, rfl, hword, hclose'⟩ | ⟨f, hfault⟩
    case inr => rw [hfault] at hclose; cases hclose
    obtain rfl : rest = mid' := (Prod.mk.inj (Except.ok.inj (hclose'.symm.trans hclose))).2
    refine ⟨used ++ [close], by simp, by simp, fun steps' hsteps located rest' hts => ?_⟩
    rw [List.map_append] at hts
    obtain ⟨used', closing, rfl, hused', hclosing⟩ := List.map_eq_append_iff.1 hts
    obtain ⟨close', rfl, hclose'⟩ := List.map_eq_singleton_iff.1 hclosing
    simp only [List.length_append, List.length_singleton] at hsteps
    rw [List.append_assoc, List.singleton_append,
      bind_of_ok (hreplay used' (close' :: rest') steps' ⟨hused', by simp [hclose']⟩ (by omega)),
      bind_of_ok (expect_cons (hclose'.trans hword) rest')]
    rfl

/-- The words of a statement are read alike wherever they are found. -/
theorem exists_reads_of_statementBody (hsound : Sound left) (hsteps : left.length ≤ steps)
    (h : statementBody ns steps kind left = .ok (found, rest)) :
    ∃ used, left = used ++ rest ∧ ∀ steps', 3 * used.length ≤ steps' →
      Reads (statementBody ns steps' kind) (used.map (·.token)) found := by
  rw [statementBody_eq] at h
  obtain ⟨_, inner, hopen, hinner⟩ := exists_of_bind h
  rcases expect_cases .leftParen left with ⟨t, inner, rfl, ht, hopen'⟩ | ⟨f, hfault⟩
  case inr => rw [hfault] at hopen; cases hopen
  obtain rfl := (Prod.mk.inj (Except.ok.inj (hopen'.symm.trans hopen))).2
  obtain ⟨_, mid, hskip, hmid⟩ := exists_of_bind hinner
  rw [List.length_cons] at hsteps
  obtain ⟨annotations, rfl, -, hreplay⟩ := exists_used_of_skipAnnotations (by omega) hskip
  obtain ⟨used, rfl, hne, hreads⟩ := exists_reads_of_statementRest hns hsound.tail.of_append hmid
  refine ⟨t :: (annotations ++ used), by simp, fun steps' hsteps' located rest' hts => ?_⟩
  simp only [List.length_cons, List.length_append] at hsteps'
  obtain ⟨t', tail, rfl, ht', htail⟩ := List.map_eq_cons_iff.1 hts
  rw [List.map_append] at htail
  obtain ⟨annotations', used', rfl, hannotations', hused'⟩ := List.map_eq_append_iff.1 htail
  -- the word behind the annotations is the same, for the statement goes on
  have hnext : (used' ++ rest').head?.map (·.token) = (used ++ rest).head?.map (·.token) := by
    obtain ⟨x, used, rfl⟩ := List.exists_cons_of_ne_nil hne
    obtain ⟨x', used', rfl, hx', -⟩ := List.map_eq_cons_iff.1 hused'
    simp [hx']
  rw [statementBody_eq, List.cons_append, bind_of_ok (expect_cons (ht'.trans ht) _), List.append_assoc,
    bind_of_ok (hreplay annotations' _ steps' ⟨hannotations', hnext⟩ (by omega))]
  exact hreads steps' (by omega) used' rest' hused'

end Statements

/-! ## Parts -/

/-- A part of a document, with what it adds: wherever its words are found with the same source, it adds
the same, and a statement that is kept is kept as its source text. -/
structure IsPart (text : List Char) (ns : Namespaces) (t : Located) (used : List Located)
    (imports : List Iri) (axioms : List Axiom) : Prop where
  repeats : ∀ {text' t' used' rest steps o}, SameSource text text' (t :: used) (t' :: used') →
    3 * used.length ≤ steps → parts text' ns (steps + 1) o (t' :: (used' ++ rest)) =
      parts text' ns steps (o.extend imports axioms) rest
  kept : ∀ {kind source}, .unsupported kind source ∈ axioms → t.token = .keyword kind ∧
    IsGroup (used.map (·.token)) ∧ source = slice text t.start (lastStop used .start)

/-- Some words are a sequence of parts, with all that these add. -/
inductive Consists (text : List Char) (ns : Namespaces) : List Located → List Iri → List Axiom → Prop
  | nil : Consists text ns [] [] []
  | cons {t : Located} {used rest : List Located} {imports imports' : List Iri}
    {axioms axioms' : List Axiom} :
    IsPart text ns t used imports axioms → Consists text ns rest imports' axioms' →
      Consists text ns (t :: (used ++ rest)) (imports ++ imports') (axioms ++ axioms')

section Parts

variable {text : List Char} {ns : Namespaces} (hns : ns.IsSound) {steps : Nat} {kind : String} {t : Located}
  {left rest : List Located} {found : Option Axiom}

theorem isPart_of_import {iri : Iri} {opening name closing : List Located}
    (ht : t.token = .keyword "Import")
    (hopening : Reads (expect .leftParen) (opening.map (·.token)) ())
    (hname : Reads (FunctionalSyntax.iri ns) (name.map (·.token)) iri)
    (hclosing : Reads (expect .rightParen) (closing.map (·.token)) ()) :
    IsPart text ns t (opening ++ (name ++ closing)) [iri] [] where
  repeats {text' t' used' rest steps o} hsame _ := by
    obtain ⟨ht', hused'⟩ := List.cons.inj hsame.tokens
    rw [List.map_append, List.map_append] at hused'
    obtain ⟨opening', used', rfl, hopening', hused'⟩ := List.map_eq_append_iff.1 hused'
    obtain ⟨name', closing', rfl, hname', hclosing'⟩ := List.map_eq_append_iff.1 hused'
    rw [parts, bind_of_ok (get_apply _)]
    simp only [List.head?_cons, ht'.trans ht]
    rw [bind_of_ok (skip_cons t' _), List.append_assoc, bind_of_ok (hopening _ _ hopening'),
      List.append_assoc, bind_of_ok (hname _ _ hname'), bind_of_ok (hclosing _ rest hclosing')]
    rfl
  kept h := by cases h

theorem isPart_of_annotation {used : List Located} (ht : t.token = .keyword "Annotation")
    (h : ∀ group : List Located, group.map (·.token) = used.map (·.token) → ∀ rest, ∃ stop,
      skipGroup (group ++ rest) = .ok (stop, rest)) : IsPart text ns t used [] [] where
  repeats {text' t' used' rest steps o} hsame _ := by
    obtain ⟨ht', hused'⟩ := List.cons.inj hsame.tokens
    obtain ⟨stop, hskip⟩ := h used' hused' rest
    rw [parts, bind_of_ok (get_apply _), Ontology.extend_nil]
    simp only [List.head?_cons, ht'.trans ht]
    rw [bind_of_ok (skip_cons t' _)]
    exact bind_of_ok hskip
  kept h := by cases h

theorem isPart_of_statement {used : List Located} (ht : t.token = .keyword kind)
    (hkind : kind ∉ ["Import", "Annotation"])
    (h : ∀ {text' t' used' rest steps}, SameSource text text' (t :: used) (t' :: used') →
      3 * used.length ≤ steps →
        statement text' ns steps t'.start kind (used' ++ rest) = .ok (found, rest))
    (hkept : ∀ {kind' source}, found = some (.unsupported kind' source) → kind' = kind ∧
      IsGroup (used.map (·.token)) ∧ source = slice text t.start (lastStop used .start)) :
    IsPart text ns t used [] found.toList where
  repeats {text' t' used' rest steps o} hsame hsteps := by
    obtain ⟨ht', -⟩ := List.cons.inj hsame.tokens
    have hstatement : statement text' ns steps t'.start kind (used' ++ rest) = .ok (found, rest) :=
      h hsame hsteps
    cases found with
    | some a =>
      rw [parts_of_statement (ht'.trans ht) hkind hstatement, Option.toList_some, Ontology.extend_singleton]
    | none =>
      obtain ⟨himport, hannotation⟩ : kind ≠ "Import" ∧ kind ≠ "Annotation" := by simpa using hkind
      rw [parts, bind_of_ok (get_apply _), Option.toList_none, Ontology.extend_nil]
      simp only [List.head?_cons, ht'.trans ht]
      rw [bind_of_ok (skip_cons t' _), bind_of_ok hstatement]
  kept h' := by
    obtain ⟨rfl, hgroup⟩ := hkept (Option.mem_toList.1 h')
    exact ⟨ht, hgroup⟩

include hns

/-- A statement is a part of a document. -/
theorem exists_isPart_of_statement (hsound : Sound left) (hsteps : left.length ≤ steps)
    (ht : t.token = .keyword kind) (hkind : kind ∉ ["Import", "Annotation"])
    (h : statement text ns steps t.start kind left = .ok (found, rest)) :
    ∃ used, left = used ++ rest ∧ IsPart text ns t used [] found.toList := by
  rw [statement] at h
  split at h
  · next construct hbody =>
    split at h
    · cases h
    next stop rest' hgroup =>
    obtain ⟨rfl, rfl⟩ := Prod.mk.inj (Except.ok.inj h)
    obtain ⟨used, rfl, hne, rfl, hisGroup⟩ := isGroup_of_skipGroup hgroup
    obtain ⟨g, inner, heq, -, -, -, hskip⟩ := exists_used_of_skipGroup hgroup
    obtain rfl : used = g :: inner := List.append_cancel_right heq
    refine ⟨_, rfl, isPart_of_statement ht hkind (fun {text' t' used' rest₁ steps'} hsame hsteps' => ?_)
      fun hfound => ?_⟩
    · obtain ⟨-, hused'⟩ := List.cons.inj hsame.tokens
      rw [statement, statementBody_congr hns (.refl ns) hsound hsteps hbody hgroup rest₁ hused' hsteps']
      simp only [hskip used' hused' rest₁, hsame.slice_eq hne]
    · obtain ⟨rfl, rfl⟩ := Axiom.unsupported.inj (Option.some.inj hfound)
      exact ⟨rfl, hisGroup, rfl⟩
  · obtain ⟨used, rfl, hreads⟩ := exists_reads_of_statementBody hns hsound hsteps h
    refine ⟨used, rfl, isPart_of_statement ht hkind (fun {text' t' used' rest₁ steps'} hsame hsteps' => ?_)
      fun hfound => ?_⟩
    · obtain ⟨-, hused'⟩ := List.cons.inj hsame.tokens
      rw [statement, hreads steps' hsteps' used' rest₁ hused']
    · exact absurd ((statementBody_ok hns hsound h).2 _ hfound).1 (by simp [Axiom.IsSupported])

/-- What stands before the closing parenthesis of a document is a sequence of parts. -/
theorem exists_consists {o o' : Ontology} (hsound : Sound left) (hsteps : left.length ≤ steps)
    (h : parts text ns steps o left = .ok (o', [])) :
    ∃ own close imports axioms, left = own ++ [close] ∧ close.token = .rightParen ∧
      Consists text ns own imports axioms ∧ o' = o.extend imports axioms := by
  induction steps generalizing o left with
  | zero => cases h
  | succ steps ih =>
    cases left with
    | nil =>
      rw [parts] at h
      cases h
    | cons t left =>
      rw [List.length_cons] at hsteps
      -- behind a part stand the other parts
      have hmore : ∀ {used rest imports axioms}, left = used ++ rest →
          IsPart text ns t used imports axioms →
          parts text ns steps (o.extend imports axioms) rest = .ok (o', []) →
          ∃ own close imports axioms, t :: left = own ++ [close] ∧ close.token = .rightParen ∧
            Consists text ns own imports axioms ∧ o' = o.extend imports axioms := by
        rintro used rest imports axioms rfl hpart hrest
        rw [List.length_append] at hsteps
        obtain ⟨own, close, imports', axioms', rfl, hclose, hconsists, rfl⟩ :=
          ih hsound.tail.of_append (by omega) hrest
        exact ⟨t :: (used ++ own), close, _, _, by simp, hclose, .cons hpart hconsists,
          o.extend_extend ..⟩
      rw [parts_cons] at h
      generalize hat : partAt text ns steps o t = part at h
      unfold partAt at hat
      split at hat <;> subst hat
      · next ht =>
        obtain ⟨rfl, rfl⟩ := Prod.mk.inj (Except.ok.inj h)
        exact ⟨[], t, [], [], rfl, ht, .nil, o.extend_nil.symm⟩
      · next ht =>
        rw [bind_of_ok (skip_cons t left)] at h
        obtain ⟨_, left₁, hopen, h₁⟩ := exists_of_bind h
        obtain ⟨iri, left₂, hiri, h₂⟩ := exists_of_bind h₁
        obtain ⟨_, left₃, hclose, h₃⟩ := exists_of_bind h₂
        obtain ⟨first, rfl, hfirst⟩ := (repeats_expect _).ok hsound.tail hopen
        obtain ⟨ts, rfl, hreads⟩ := (repeats_iri hns).ok hsound.tail.of_append hiri
        obtain ⟨last, rfl, hlast⟩ := (repeats_expect _).ok hsound.tail.of_append.of_append hclose
        exact hmore (by simp) (isPart_of_import ht hfirst hreads hlast) h₃
      · next ht =>
        rw [bind_of_ok (skip_cons t left)] at h
        obtain ⟨stop, rest, hgroup, hrest⟩ := exists_of_bind h
        obtain ⟨g, inner, rfl, -, -, -, hskip⟩ := exists_used_of_skipGroup hgroup
        have hpart : IsPart text ns t (g :: inner) [] [] :=
          isPart_of_annotation ht fun group hwords rest => ⟨_, hskip group hwords rest⟩
        exact hmore rfl hpart (by rwa [o.extend_nil])
      · next kind himport hannotation ht =>
        rw [bind_of_ok (skip_cons t left)] at h
        obtain ⟨found, rest, hstatement, hrest⟩ := exists_of_bind h
        have hkind : kind ∉ ["Import", "Annotation"] := by simpa using ⟨himport, hannotation⟩
        obtain ⟨used, rfl, hpart⟩ :=
          exists_isPart_of_statement hns hsound.tail (by omega) ht hkind hstatement
        refine hmore rfl hpart ?_
        cases found with
        | none => rwa [Option.toList_none, o.extend_nil]
        | some a => rwa [Option.toList_some, o.extend_singleton]
      · cases h

end Parts

namespace Consists

variable {text : List Char} {ns : Namespaces} {own : List Located} {imports : List Iri}
  {axioms : List Axiom}

/-- Wherever a sequence of parts is found, it adds the same. -/
theorem repeats (h : Consists text ns own imports axioms) {text' : List Char} {own' rest : List Located}
    (hsame : SameSource text text' own own') {steps : Nat} (hsteps : 3 * (own' ++ rest).length ≤ steps)
    (o : Ontology) : ∃ steps', 3 * rest.length ≤ steps' ∧
      parts text' ns steps o (own' ++ rest) = parts text' ns steps' (o.extend imports axioms) rest := by
  induction h generalizing own' steps o with
  | nil =>
    obtain rfl := List.map_eq_nil_iff.1 hsame.tokens
    exact ⟨steps, hsteps, by rw [o.extend_nil]; rfl⟩
  | @cons t used more imports imports' axioms axioms' hpart _ ih =>
    rw [← List.cons_append] at hsame
    obtain ⟨first, second, rfl, hfirst, hsecond⟩ := hsame.split
    obtain ⟨t', used', rfl, -, hused'⟩ := List.map_eq_cons_iff.1 hfirst.tokens
    have hlength := congrArg List.length hused'
    simp only [List.length_map, List.length_append, List.length_cons] at hlength hsteps
    obtain ⟨steps, rfl⟩ := Nat.exists_eq_add_one_of_ne_zero (show steps ≠ 0 by omega)
    have hmore : 3 * (second ++ rest).length ≤ steps := by rw [List.length_append]; omega
    obtain ⟨steps', hsteps', hread⟩ := ih hsecond hmore (o.extend imports axioms)
    refine ⟨steps', hsteps', ?_⟩
    rw [List.cons_append, List.cons_append, List.append_assoc, hpart.repeats hfirst (by omega), hread,
      o.extend_extend]

/-- A statement that is kept is the text from its keyword to the parenthesis that closes it. -/
theorem exists_kept (h : Consists text ns own imports axioms) {kind source : String}
    (hmem : .unsupported kind source ∈ axioms) :
    ∃ before t group after, own = before ++ t :: (group ++ after) ∧
      t.token = .keyword kind ∧ IsGroup (group.map (·.token)) ∧
      source = slice text t.start (lastStop group .start) := by
  induction h with
  | nil => cases hmem
  | @cons t used more imports imports' axioms axioms' hpart _ ih =>
    rcases List.mem_append.1 hmem with hmem | hmem
    · exact ⟨[], t, used, more, rfl, hpart.kept hmem⟩
    · obtain ⟨before, t', group, after, rfl, hkept⟩ := ih hmem
      exact ⟨t :: (used ++ before), t', group, after, by simp, hkept⟩

end Consists

end FunctionalSyntax

end FixedDomain
