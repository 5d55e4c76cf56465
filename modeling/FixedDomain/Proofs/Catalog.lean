import FixedDomain.Catalog
import FixedDomain.Proofs.FunctionalSyntax.Rewriting

/-! # What is loaded with a document

* `Catalog.Provides` — the document that a locator leads to.
* `Catalog.Reaches` — the imports that are followed, directly or through other documents, leaving out
  those that are known from the start.

Loading follows exactly the imports that the root reaches, each of them once (`close_spec`): it succeeds
if each provides a document, and merges these documents into the root one after another
(`load_importClosure`).
-/

namespace FixedDomain

open FunctionalSyntax

/-! ## Axioms taken once -/

namespace Ontology

/-- Of some axioms those are taken that are not there yet, each once. -/
theorem exists_foldl_addNew_eq (o : Ontology) (axioms : List Axiom) :
    ∃ later : List Axiom, axioms.foldl addNew o = later.foldl add o ∧ later.Nodup ∧
      ∀ a, a ∈ later ↔ a ∈ axioms ∧ a ∉ o.axioms := by
  induction axioms generalizing o with
  | nil => exact ⟨[], rfl, .nil, by simp⟩
  | cons a axioms ih =>
    rw [List.foldl_cons, addNew]
    split
    · next ha =>
      obtain ⟨later, heq, hnodup, hmem⟩ := ih o
      refine ⟨later, heq, hnodup, fun b => (hmem b).trans ?_⟩
      rw [List.mem_cons, or_and_right, iff_or_self]
      rintro ⟨rfl, hb⟩
      exact absurd ha hb
    · next ha =>
      obtain ⟨later, heq, hnodup, hmem⟩ := ih (o.add a)
      -- what comes after it is not the axiom itself
      have hmem' : ∀ b, b ∈ later ↔ b ∈ axioms ∧ b ∉ o.axioms ∧ b ≠ a := by
        simpa [add] using hmem
      refine ⟨a :: later, heq, List.nodup_cons.2 ⟨fun h => ((hmem' a).1 h).2.2 rfl, hnodup⟩,
        fun b => ?_⟩
      rw [List.mem_cons, List.mem_cons, hmem' b]
      by_cases hb : b = a
      · simp [hb, ha]
      · simp [hb]

section Merge

variable (root : Ontology) (documents : List Ontology)

theorem foldl_merge :
    documents.foldl merge root = (documents.flatMap (·.axioms)).foldl addNew root :=
  (List.foldl_flatMap ..).symm

/-- Merging keeps the header and the axioms that are there, and appends others once. -/
theorem exists_foldl_merge_eq : ∃ later : List Axiom, later.Nodup ∧ (∀ a ∈ later, a ∉ root.axioms) ∧
    documents.foldl merge root = later.foldl add root := by
  obtain ⟨later, heq, hnodup, hmem⟩ :=
    exists_foldl_addNew_eq root (documents.flatMap (·.axioms))
  exact ⟨later, hnodup, fun a ha => ((hmem a).1 ha).2, (foldl_merge root documents).trans heq⟩

theorem mem_axioms_foldl_merge {a : Axiom} : a ∈ (documents.foldl merge root).axioms ↔
    ∃ document ∈ root :: documents, a ∈ document.axioms := by
  rw [foldl_merge, mem_foldl_addNew]
  simp [List.mem_flatMap]

/-- Merging unites the signatures, since these have what the axioms mention, before and after. -/
theorem contains_foldl_merge (hbuilt : ∀ document ∈ root :: documents, document.Built) {e : Entity} :
    (documents.foldl merge root).signature.Contains e ↔
      ∃ document ∈ root :: documents, document.signature.Contains e := by
  have hmerged : (documents.foldl merge root).Built := by
    rw [foldl_merge]
    exact (hbuilt root List.mem_cons_self).foldl_addNew _
  calc (documents.foldl merge root).signature.Contains e
      ↔ ∃ a, (∃ document ∈ root :: documents, a ∈ document.axioms) ∧ e ∈ a.vocabulary := by
        simp only [hmerged.contains_iff, mem_axioms_foldl_merge]
    _ ↔ ∃ document ∈ root :: documents, ∃ a ∈ document.axioms, e ∈ a.vocabulary :=
        ⟨fun ⟨a, ⟨d, hd, ha⟩, he⟩ => ⟨d, hd, a, ha, he⟩,
          fun ⟨d, hd, a, ha, he⟩ => ⟨a, ⟨d, hd, ha⟩, he⟩⟩
    _ ↔ ∃ document ∈ root :: documents, document.signature.Contains e :=
        exists_congr fun d => and_congr_right fun hd => (hbuilt d hd).contains_iff.symm

end Merge

end Ontology

/-! ## Documents and imports -/

namespace Catalog

variable {c : Catalog} {t : Tree}

/-- A locator resolves to a path, the path leads to a text, and the text describes an ontology. -/
def Provides (c : Catalog) (t : Tree) (locator : String) (o : Ontology) : Prop :=
  ∃ path text, c.resolve t locator = .ok path ∧ t.readText path = .ok text ∧
    readOntology text = .ok o

/-- The imports that are followed: those that are asked for, and those that documents ask for that are
reached in this way. An import that is known already is not followed. -/
inductive Reaches (c : Catalog) (t : Tree) (known asked : List Iri) : Iri → Prop
  | asked {iri : Iri} (h : iri ∈ asked) (hnew : iri ∉ known) : Reaches c t known asked iri
  | next {iri iri' : Iri} {document : Ontology} (h : Reaches c t known asked iri)
    (hdocument : c.Provides t iri.text document) (hiri : iri' ∈ document.imports)
    (hnew : iri' ∉ known) : Reaches c t known asked iri'

theorem readDocument_eq_ok_iff {path : String} {o : Ontology} : t.readDocument path = .ok o ↔
    ∃ text, t.readText path = .ok text ∧ readOntology text = .ok o := by
  unfold Tree.readDocument
  cases t.readText path with
  | error e => simp
  | ok text => cases h : readOntology text <;> simp [h]

theorem readImport_eq_ok_iff {iri : Iri} {o : Ontology} :
    c.readImport t iri = .ok o ↔ c.Provides t iri.text o := by
  unfold readImport Provides
  cases c.resolve t iri.text with
  | error e => simp
  | ok path => simp [readDocument_eq_ok_iff]

/-- A locator leads to one document at most. -/
theorem Provides.unique {locator : String} {o o' : Ontology} (h : c.Provides t locator o)
    (h' : c.Provides t locator o') : o = o' := by
  obtain ⟨path, text, hpath, htext, hread⟩ := h
  obtain ⟨path', text', hpath', htext', hread'⟩ := h'
  obtain rfl := Except.ok.inj (hpath.symm.trans hpath')
  obtain rfl := Except.ok.inj (htext.symm.trans htext')
  exact Except.ok.inj (hread.symm.trans hread')

theorem Provides.built {locator : String} {o : Ontology} (h : c.Provides t locator o) : o.Built := by
  obtain ⟨path, text, -, -, hread⟩ := h
  exact (isAccepted_of_readOntology hread).built

/-! ## One import after another -/

theorem not_reaches_nil {known : List Iri} {j : Iri} : ¬ c.Reaches t known [] j := by
  intro h
  induction h with
  | asked h => cases h
  | next _ _ _ _ ih => exact ih

theorem Reaches.mono {known asked asked' : List Iri} {j : Iri} (h : c.Reaches t known asked j)
    (hsub : ∀ iri ∈ asked, iri ∉ known → iri ∈ asked') : c.Reaches t known asked' j := by
  induction h with
  | asked h hnew => exact .asked (hsub _ h hnew) hnew
  | next _ hdocument hiri hnew ih => exact .next ih hdocument hiri hnew

/-- An import that is known already may be dropped. -/
theorem reaches_cons_of_known {known asked : List Iri} {iri j : Iri} (h : iri ∈ known) :
    c.Reaches t known (iri :: asked) j ↔ c.Reaches t known asked j := by
  refine ⟨fun hj => hj.mono fun i hi hnew => ?_,
    fun hj => hj.mono fun i hi _ => List.mem_cons_of_mem _ hi⟩
  exact (List.mem_cons.1 hi).resolve_left fun heq => hnew (heq ▸ h)

/-- What is reached from a new import is the import itself, and what is reached without coming back
to it from what its document asks for, besides the rest. -/
theorem reaches_cons_of_provides {known asked : List Iri} {iri j : Iri} {document : Ontology}
    (hnew : iri ∉ known) (hdocument : c.Provides t iri.text document) :
    c.Reaches t known (iri :: asked) j ↔
      j = iri ∨ c.Reaches t (iri :: known) (document.imports.reverse ++ asked) j := by
  constructor
  -- a path that comes back to the import is cut off there
  · intro h
    induction h with
    | @asked j hj hj' =>
      by_cases heq : j = iri
      · exact .inl heq
      · have hasked := (List.mem_cons.1 hj).resolve_left heq
        exact .inr (.asked (List.mem_append_right _ hasked) (by simp [heq, hj']))
    | @next j j' document' _ hdocument' hj' hknown ih =>
      by_cases heq : j' = iri
      · exact .inl heq
      have hfresh : j' ∉ iri :: known := by simp [heq, hknown]
      rcases ih with rfl | hreaches
      · obtain rfl := hdocument.unique hdocument'
        exact .inr (.asked (List.mem_append_left _ (List.mem_reverse.2 hj')) hfresh)
      · exact .inr (.next hreaches hdocument' hj' hfresh)
  · have hiri : c.Reaches t known (iri :: asked) iri := .asked List.mem_cons_self hnew
    rintro (rfl | h)
    · exact hiri
    · induction h with
      | @asked j hj hj' =>
        have hknown : j ∉ known := fun h => hj' (List.mem_cons_of_mem _ h)
        rcases List.mem_append.1 hj with hj | hj
        · exact .next hiri hdocument (List.mem_reverse.1 hj) hknown
        · exact .asked (List.mem_cons_of_mem _ hj) hknown
      | next _ hdocument' hj' hknown ih =>
        exact .next ih hdocument' hj' fun h => hknown (List.mem_cons_of_mem _ h)

/-- Some documents are those of the imports that are reached, and each of these has one. -/
def Closes (c : Catalog) (t : Tree) (known asked : List Iri) (documents : List Ontology) : Prop :=
  (∀ iri, c.Reaches t known asked iri → ∃ document ∈ documents, c.Provides t iri.text document) ∧
    ∀ document ∈ documents, ∃ iri, c.Reaches t known asked iri ∧ c.Provides t iri.text document

/-- Either the documents of all imports that are reached have been merged, or one of these imports has
none. -/
theorem close_spec (taken pending : List Iri) (o : Ontology)
    (known : ∀ iri ∈ pending, iri ∈ t.imports) :
    (∃ documents, c.Closes t taken pending documents ∧
      c.close t taken pending o known = .ok (documents.foldl Ontology.merge o)) ∨
    ∃ iri e, c.Reaches t taken pending iri ∧ c.readImport t iri = .error e ∧
      c.close t taken pending o known = .error e := by
  fun_induction close c t taken pending o known with
  | case1 taken o =>
    exact .inl ⟨[], ⟨fun iri h => absurd h not_reaches_nil, by simp⟩, rfl⟩
  | case2 taken o iri pending _ htaken _ ih =>
    simpa only [Closes, reaches_cons_of_known htaken] using ih
  | case3 taken o iri pending _ hnew e he =>
    exact .inr ⟨iri, e, .asked List.mem_cons_self hnew, he, rfl⟩
  | case4 taken o iri pending _ hnew document he _ ih =>
    have hdocument := readImport_eq_ok_iff.1 he
    simp only [Closes, reaches_cons_of_provides hnew hdocument]
    rcases ih with ⟨documents, ⟨hall, honly⟩, heq⟩ | ⟨j, e, hj, hread, heq⟩
    · refine .inl ⟨document :: documents, ⟨fun j hj => ?_, fun d hd => ?_⟩, heq⟩
      · rcases hj with rfl | hj
        · exact ⟨document, List.mem_cons_self, hdocument⟩
        · obtain ⟨d, hd, hprovides⟩ := hall j hj
          exact ⟨d, List.mem_cons_of_mem _ hd, hprovides⟩
      · rcases List.mem_cons.1 hd with rfl | hd
        · exact ⟨iri, .inl rfl, hdocument⟩
        · obtain ⟨j, hj, hprovides⟩ := honly d hd
          exact ⟨j, .inr hj, hprovides⟩
    · exact .inr ⟨j, e, .inr hj, hread, heq⟩

/-! ## Loading -/

/-- The imports that a root reaches. The root itself is known under its own name. -/
abbrev Imports (c : Catalog) (t : Tree) (root : Ontology) (iri : Iri) : Prop :=
  c.Reaches t root.iri.toList root.imports iri

/-- The documents of the import closure of a root: the root, and those of the imports that it reaches. -/
def InClosure (c : Catalog) (t : Tree) (root document : Ontology) : Prop :=
  document = root ∨ ∃ iri, c.Imports t root iri ∧ c.Provides t iri.text document

theorem InClosure.built {root document : Ontology} (hroot : root.Built)
    (h : c.InClosure t root document) : document.Built := by
  rcases h with rfl | ⟨iri, -, hdocument⟩
  · exact hroot
  · exact hdocument.built

theorem Closes.inClosure_iff {root document : Ontology} {documents : List Ontology}
    (h : c.Closes t root.iri.toList root.imports documents) :
    c.InClosure t root document ↔ document ∈ root :: documents := by
  obtain ⟨hall, honly⟩ := h
  rw [List.mem_cons, InClosure]
  refine or_congr_right ⟨fun ⟨iri, hiri, hdocument⟩ => ?_, honly document⟩
  obtain ⟨document', hmem, hdocument'⟩ := hall iri hiri
  exact hdocument.unique hdocument' ▸ hmem

/-- Either what is loaded is the root with the documents of its closure merged into it, or there is no
root, or one of its imports has no document. -/
theorem load_cases (c : Catalog) (t : Tree) (locator : String) :
    (∃ root documents, c.Provides t locator root ∧
      c.Closes t root.iri.toList root.imports documents ∧
      c.load t locator = .ok (documents.foldl Ontology.merge root)) ∨
    ∃ e, c.load t locator = .error e ∧ ∀ root, c.Provides t locator root →
      ∃ iri, c.Imports t root iri ∧ ∀ document, ¬ c.Provides t iri.text document := by
  unfold load
  split
  · next e hpath =>
    refine .inr ⟨e, rfl, fun root hroot => ?_⟩
    obtain ⟨path, -, hpath', -⟩ := hroot
    cases hpath.symm.trans hpath'
  next path hpath =>
  split
  · next e hread =>
    refine .inr ⟨e, rfl, fun root hroot => ?_⟩
    obtain ⟨path', text, hpath', hroot⟩ := hroot
    obtain rfl := Except.ok.inj (hpath.symm.trans hpath')
    cases hread.symm.trans (readDocument_eq_ok_iff.2 ⟨text, hroot⟩)
  next root hread =>
  have hroot : c.Provides t locator root := by
    obtain ⟨text, htext⟩ := readDocument_eq_ok_iff.1 hread
    exact ⟨path, text, hpath, htext⟩
  -- the imports of the root are asked for from the last one on
  have hreversed : ∀ iri, c.Reaches t root.iri.toList root.imports.reverse iri ↔
      c.Imports t root iri := fun iri =>
    ⟨fun h => h.mono fun i hi _ => List.mem_reverse.1 hi,
      fun h => h.mono fun i hi _ => List.mem_reverse.2 hi⟩
  rcases close_spec root.iri.toList root.imports.reverse root (fun _ hi =>
    Tree.mem_imports_of_readDocument hread (List.mem_reverse.1 hi)) with
    ⟨documents, hcloses, heq⟩ | ⟨iri, e, hiri, himport, heq⟩
  · refine .inl ⟨root, documents, hroot, ?_, heq⟩
    simpa only [Closes, hreversed] using hcloses
  · refine .inr ⟨e, heq, fun root' hroot' => ?_⟩
    obtain rfl := hroot.unique hroot'
    refine ⟨iri, (hreversed iri).1 hiri, fun document hdocument => ?_⟩
    cases himport.symm.trans (readImport_eq_ok_iff.2 hdocument)

/-- What is loaded is the import closure of a root, for any files, however they import each other. There
is a result if the locator leads to a root and each import that the root reaches to a document. The
result has the header of the root, and its axioms in front of others that differ from these and from each
other. It has the axioms and the vocabulary of all documents of the closure, and nothing else. -/
theorem load_importClosure (c : Catalog) (t : Tree) (locator : String) :
    ((∃ o, c.load t locator = .ok o) ↔ ∃ root, c.Provides t locator root ∧
      ∀ iri, c.Imports t root iri → ∃ document, c.Provides t iri.text document) ∧
    ∀ o, c.load t locator = .ok o → ∃ root, c.Provides t locator root ∧
      o.iri = root.iri ∧ o.imports = root.imports ∧ o.prefixes = root.prefixes ∧
      (∃ later, o.axioms = root.axioms ++ later ∧ later.Nodup ∧ ∀ a ∈ later, a ∉ root.axioms) ∧
      (∀ a, a ∈ o.axioms ↔ ∃ document, c.InClosure t root document ∧ a ∈ document.axioms) ∧
      ∀ e, o.signature.Contains e ↔
        ∃ document, c.InClosure t root document ∧ document.signature.Contains e := by
  rcases load_cases c t locator with ⟨root, documents, hroot, hcloses, hload⟩ | ⟨e, hload, hnone⟩
  · refine ⟨iff_of_true ⟨_, hload⟩ ⟨root, hroot, fun iri hiri => ?_⟩, fun o ho => ?_⟩
    · obtain ⟨document, -, hdocument⟩ := hcloses.1 iri hiri
      exact ⟨document, hdocument⟩
    obtain rfl := Except.ok.inj (hload.symm.trans ho)
    have hbuilt : ∀ document ∈ root :: documents, document.Built := fun document hmem =>
      (hcloses.inClosure_iff.2 hmem).built hroot.built
    obtain ⟨later, hnodup, hfresh, hmerged⟩ := Ontology.exists_foldl_merge_eq root documents
    rw [Ontology.foldl_add] at hmerged
    refine ⟨root, hroot, by rw [hmerged], by rw [hmerged], by rw [hmerged],
      ⟨later, by rw [hmerged], hnodup, hfresh⟩, ?_⟩
    simp only [hcloses.inClosure_iff]
    refine ⟨fun a => ?_, fun e => ?_⟩
    · exact Ontology.mem_axioms_foldl_merge root documents
    · exact Ontology.contains_foldl_merge root documents hbuilt
  · refine ⟨iff_of_false (fun ⟨o, ho⟩ => ?_) fun ⟨root, hroot, hall⟩ => ?_, fun o ho => ?_⟩
    · cases hload.symm.trans ho
    · obtain ⟨iri, hiri, hnot⟩ := hnone root hroot
      obtain ⟨document, hdocument⟩ := hall iri hiri
      exact hnot document hdocument
    · cases hload.symm.trans ho

/-- The texts of two documents that import each other. The second one also imports itself, and it has the
axiom of the first one. -/
def cyclicTexts : String × String :=
  ("Ontology(<urn:a> Import(<urn:b>) Declaration(Class(<urn:A>)))",
    "Ontology(<urn:b> Import(<urn:a>) Import(<urn:b>) Declaration(Class(<urn:A>)) " ++
      "Declaration(Class(<urn:B>)))")

/-- What these documents describe. -/
def cyclicDocuments : Ontology × Ontology :=
  let shared := Axiom.declaration (.atomicClass ⟨"urn:A"⟩)
  (Ontology.add ⟨some ⟨"urn:a"⟩, [⟨"urn:b"⟩], .empty, [], .empty⟩ shared,
    (Ontology.add ⟨some ⟨"urn:b"⟩, [⟨"urn:a"⟩, ⟨"urn:b"⟩], .empty, [], .empty⟩ shared).add
      (.declaration (.atomicClass ⟨"urn:B"⟩)))

/-- A file for each of the documents. -/
def cyclicTree : Tree :=
  (Tree.empty.insert ["a.ofn"] (.file cyclicTexts.1.toUTF8)).insert ["b.ofn"]
    (.file cyclicTexts.2.toUTF8)

/-- Both documents, in the order of `cyclicDocuments`, by their own names. -/
def cyclicCatalog : Catalog := (empty.map "urn:a" "a.ofn").map "urn:b" "b.ofn"

/-- The second document is taken once, and the first one is not imported into itself. -/
theorem load_importClosure_cyclic : ∃ o, cyclicCatalog.load cyclicTree "urn:a" = .ok o ∧
    o.imports = [⟨"urn:b"⟩] ∧ (∃ later, o.axioms = cyclicDocuments.1.axioms ++ later ∧ later.Nodup) ∧
    ∀ a, a ∈ o.axioms ↔ a ∈ cyclicDocuments.1.axioms ∨ a ∈ cyclicDocuments.2.axioms := by
  have hfirst : cyclicCatalog.Provides cyclicTree "urn:a" cyclicDocuments.1 :=
    ⟨"a.ofn", cyclicTexts.1, by decide +kernel, by decide +kernel, eq_ok_of_toOption (by decide +kernel)⟩
  have hsecond : cyclicCatalog.Provides cyclicTree "urn:b" cyclicDocuments.2 :=
    ⟨"b.ofn", cyclicTexts.2, by decide +kernel, by decide +kernel, eq_ok_of_toOption (by decide +kernel)⟩
  have himports : ∀ iri, cyclicCatalog.Imports cyclicTree cyclicDocuments.1 iri → iri = ⟨"urn:b"⟩ := by
    intro iri h
    induction h with
    | asked h _ => exact List.mem_singleton.1 h
    | @next iri iri' document _ hdocument hiri hnew ih =>
      subst ih
      obtain rfl := hdocument.unique hsecond
      -- the import that is asked for besides the document itself is the root
      have hne : iri' ≠ ⟨"urn:a"⟩ := fun heq => hnew (List.mem_singleton.2 heq)
      exact (List.mem_pair.1 hiri).resolve_left hne
  obtain ⟨hloads, hloaded⟩ := load_importClosure cyclicCatalog cyclicTree "urn:a"
  have hdocuments : ∀ iri, cyclicCatalog.Imports cyclicTree cyclicDocuments.1 iri →
      ∃ document, cyclicCatalog.Provides cyclicTree iri.text document := by
    intro iri hiri
    obtain rfl := himports iri hiri
    exact ⟨_, hsecond⟩
  obtain ⟨o, ho⟩ := hloads.2 ⟨_, hfirst, hdocuments⟩
  obtain ⟨root, hroot, -, hheader, -, ⟨later, heq, hnodup, -⟩, hmem, -⟩ := hloaded o ho
  obtain rfl := hroot.unique hfirst
  have hreaches : cyclicCatalog.Imports cyclicTree cyclicDocuments.1 ⟨"urn:b"⟩ :=
    .asked (List.mem_singleton_self _) (by decide)
  refine ⟨o, ho, hheader, ⟨later, heq, hnodup⟩, fun a => (hmem a).trans ⟨?_, ?_⟩⟩
  · rintro ⟨document, rfl | ⟨iri, hiri, hdocument⟩, ha⟩
    · exact .inl ha
    · obtain rfl := himports iri hiri
      exact .inr (hdocument.unique hsecond ▸ ha)
  · rintro (ha | ha)
    · exact ⟨_, .inl rfl, ha⟩
    · exact ⟨_, .inr ⟨_, hreaches, hsecond⟩, ha⟩

end Catalog

end FixedDomain
