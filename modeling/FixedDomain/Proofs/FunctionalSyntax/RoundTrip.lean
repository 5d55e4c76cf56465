import FixedDomain.Proofs.FunctionalSyntax.Document

/-! # Ontologies are read back

An ontology of supported axioms whose names can be written is what its document describes
(`readOntology_render`). The document declares the short name `owl`, so this one is added to those of the
ontology.
-/

namespace FixedDomain.Ontology

open FunctionalSyntax

/-! ## Ontologies that have grown axiom by axiom -/

/-- The header of an ontology, without its axioms. -/
def header (o : Ontology) : Ontology := ⟨o.iri, o.imports, o.prefixes, [], .empty⟩

/-- An ontology is its header with its axioms added. -/
theorem Built.foldl_add_header {o : Ontology} (h : o.Built) : o.axioms.foldl Ontology.add o.header = o := by
  induction h with
  | header iri imports prefixes => rfl
  | @add o h a ih =>
    have haxioms : (o.add a).axioms = o.axioms ++ [a] := rfl
    have hheader : (o.add a).header = o.header := rfl
    rw [haxioms, hheader, List.foldl_append, ih]
    rfl

/-- Reading the axioms again gives the signature back. -/
theorem Built.foldl_add_eq {o : Ontology} (h : o.Built) (prefixes : SortedMap String String) :
    o.axioms.foldl Ontology.add ⟨o.iri, o.imports, prefixes, [], .empty⟩ = { o with prefixes } := by
  have hsignature : o.axioms.foldl (fun s a => a.vocabulary.foldl Signature.insert s) .empty =
      o.signature := by
    conv_rhs => rw [← h.foldl_add_header, foldl_add]
    rfl
  rw [foldl_add, hsignature, List.nil_append]

/-- The short names that the document of an ontology declares are its own and, unless this is one of
them, that of the predefined classes. -/
theorem ofList_writtenEntries (o : Ontology) :
    .ofList o.writtenEntries =
      if o.prefixes.contains "owl" then o.prefixes else o.prefixes.insert "owl" owlNamespace := by
  have hentries := SortedMap.ofList_entries o.prefixes
  rw [writtenEntries]
  split
  · rw [List.append_nil, hentries]
  · rw [SortedMap.ofList] at hentries ⊢
    rw [List.foldl_append, hentries]
    rfl

/-! ## Reading what was written -/

/-- All names of an ontology can be written, and its axioms are supported. -/
structure IsWritable (o : Ontology) : Prop extends o.HasWritableHeader where
  supported : ∀ a ∈ o.axioms, a.IsSupported
  vocabulary : ∀ a ∈ o.axioms, ∀ e ∈ a.vocabulary, e.iri.IsWritable
  shaped : ∀ a ∈ o.axioms, a.IsShaped
  predefined : ∀ space ∈ o.prefixes.find? "owl", space = owlNamespace

theorem kind_not_mem_parts {a : Axiom} (h : a.IsSupported) : a.kind ∉ ["Import", "Annotation"] := by
  cases a with
  | unsupported kind source => exact h.elim
  | _ => simp [Axiom.kind]

/-- Writing an ontology and reading the document gives the ontology back. -/
theorem readOntology_render {o : Ontology} (hbuilt : o.Built) (h : o.IsWritable) :
    readOntology o.render = .ok { o with prefixes := o.prefixes.insert "owl" owlNamespace } := by
  have hentries : .ofList o.writtenEntries = o.prefixes.insert "owl" owlNamespace := by
    rw [ofList_writtenEntries, SortedMap.contains_eq]
    cases hfind : o.prefixes.find? "owl" with
    | none => rfl
    | some space =>
      obtain rfl := h.predefined space hfind
      exact (SortedMap.insert_of_find?_eq_some hfind).symm
  have hns : (⟨.ofList o.writtenEntries⟩ : Namespaces).find? "owl" = some owlNamespace := by
    simp [Namespaces.find?, hentries]
  have hstates : ∀ a ∈ o.axioms, States ⟨.ofList o.writtenEntries⟩ a.render a := fun a ha =>
    (readsBack_of_isSupported (h.supported a ha) (h.vocabulary a ha) (h.shaped a ha) fun _ => hns).states
      (kind_not_mem_parts (h.supported a ha))
  rw [readOntology_render_of_states h.toHasWritableHeader hstates, hentries, hbuilt.foldl_add_eq]

/-- The family as a document of its own, whose first member has another name that is anonymous. -/
def familyDocument : Ontology :=
  let ann : Individual := ⟨⟨"urn:family#ann"⟩⟩
  (family.add (.sameIndividual [ann, ⟨⟨"_:b0"⟩⟩])).axioms.foldl add
    ⟨some ⟨"urn:family"⟩, [⟨"urn:people"⟩], .ofList [("", "urn:family#")], [], .empty⟩

theorem readOntology_render_familyDocument :
    familyDocument.Built ∧ familyDocument.IsWritable ∧
      readOntology familyDocument.render = .ok { familyDocument with
        prefixes := familyDocument.prefixes.insert "owl" owlNamespace } := by
  have hbuilt : familyDocument.Built := .add (.add (.add (.add (.add (.header _ _ _) _) _) _) _) _
  have hwritable : familyDocument.IsWritable :=
    { names := by decide
      spaces := by decide
      iri := by decide
      imports := by decide
      supported := by
        simp [familyDocument, family, ofAxioms, add, empty, Axiom.IsSupported]
      vocabulary := by decide
      shaped := by
        simp [familyDocument, family, ofAxioms, add, empty, Axiom.IsShaped, ClassExpression.IsShaped,
          ClassExpression.IsShapedFiller]
        decide
      predefined := by decide }
  exact ⟨hbuilt, hwritable, readOntology_render hbuilt hwritable⟩

end FixedDomain.Ontology
