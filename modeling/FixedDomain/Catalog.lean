import FixedDomain.Files.Tree
import FixedDomain.FunctionalSyntax.Reader
import FixedDomain.Notice

/-! # Catalogs of documents

Where ontologies are found, and how one is loaded together with all that it imports:

* `Catalog` — the paths that locators are mapped to. `scan` maps the ontologies of a directory.
* `Catalog.resolve` — the path for a locator: a mapped one, or the locator itself as a path.
* `Catalog.load` — an ontology, merged with everything that it imports directly or indirectly.
  An import is taken once, so that cycles do no harm.
-/

namespace FixedDomain

/-! ## Errors -/

/-- Why an ontology cannot be loaded. -/
inductive LoadError where
  | malformed (error : FunctionalSyntax.SyntaxError)
  | unresolved (locator : String)
  | directory (locator : String)
  | imported (iri : Iri) (error : LoadError)
  | file (error : FileError)
  deriving DecidableEq

/-- The wording of a loading error. -/
def LoadError.message : LoadError → String
  | malformed e => e.message
  | unresolved locator => "Loader error: Cannot resolve ontology locator: " ++ locator
  | directory locator =>
    "Loader error: " ++ locator ++ " is a directory, not an ontology document"
  | imported iri e =>
    "Loader error: Failed to resolve import " ++ iri.text ++ ": " ++ e.message
  | file e => "I/O error: " ++ e.message

/-! ## Documents -/

/-- The ontology that is written in a file. -/
def Tree.readDocument (t : Tree) (path : String) : Except LoadError Ontology :=
  match t.readText path with
  | .error e => .error (.file e)
  | .ok text =>
    match FunctionalSyntax.readOntology text with
    | .error e => .error (.malformed e)
    | .ok o => .ok o

/-- The imports of the document that a file holds, if it holds one. -/
def importsIn : FileEntry → List Iri
  | .directory => []
  | .file content =>
    match String.fromUTF8? content with
    | none => []
    | some text =>
      match FunctionalSyntax.readOntology text with
      | .error _ => []
      | .ok o => o.imports

/-- The imports of all documents of a tree. -/
def Tree.imports (t : Tree) : List Iri := t.entries.entries.flatMap fun e => importsIn e.2

theorem Tree.mem_entries_of_find {t : Tree} {path : String} {content : ByteArray}
    (h : t.find path = .ok (.file content)) : ∃ place, (place, .file content) ∈ t.entries.entries := by
  unfold find at h
  split at h
  · simp at h
  · next place _ =>
    split at h
    · next e he =>
      simp only [Except.ok.injEq] at h
      subst h
      unfold entry? at he
      split at he
      · simp at he
      · simp only [SortedMap.find?, Option.map_eq_some_iff] at he
        obtain ⟨⟨p, e⟩, hmem, rfl⟩ := he
        exact ⟨p, List.mem_of_find?_eq_some hmem⟩
    · simp at h

/-- What a document imports is among the imports of its tree. -/
theorem Tree.mem_imports_of_readDocument {t : Tree} {path : String} {o : Ontology}
    (h : t.readDocument path = .ok o) {iri : Iri} (hi : iri ∈ o.imports) : iri ∈ t.imports := by
  unfold readDocument readText at h
  split at h
  · simp at h
  · next text htext =>
    split at htext
    · simp at htext
    · simp at htext
    · next content hfind =>
      split at htext
      · next text' hdecode =>
        simp only [Except.ok.injEq] at htext
        subst htext
        split at h
        · simp at h
        · next o' ho =>
          simp only [Except.ok.injEq] at h
          subst h
          obtain ⟨place, hmem⟩ := mem_entries_of_find hfind
          refine List.mem_flatMap.2 ⟨_, hmem, ?_⟩
          simp [importsIn, hdecode, ho, hi]
      · simp at htext

/-! ## Catalogs -/

/-- The paths that locators are mapped to. -/
structure Catalog where
  paths : SortedMap String String

namespace Catalog

/-- The catalog that maps nothing. -/
def empty : Catalog := ⟨.empty⟩

instance : Inhabited Catalog := ⟨empty⟩

/-- Maps a locator to a path, whatever it was mapped to before. -/
def map (c : Catalog) (locator path : String) : Catalog := ⟨c.paths.insert locator path⟩

/-- The extensions of the files that may hold ontologies. -/
def extensions : List String := ["ofn", "owl", "fss"]

/-- Whether a file of this name may hold an ontology. -/
def isDocumentName (name : String) : Bool :=
  match Path.extension? name with
  | some extension => extension ∈ extensions
  | none => false

/-- What a scan of a directory comes to: the catalog, how many ontologies it has mapped, and
notices of the files that hold none. -/
structure Scan where
  catalog : Catalog
  mapped : Nat
  notices : List Notice

/-- Takes one file of a directory into account. -/
def scanFile (t : Tree) (directory : String) (s : Scan) (name : String) : Scan :=
  let path := Path.child directory name
  match t.readDocument path with
  | .error e =>
    { s with notices := s.notices ++ [.skippedDocument path directory e.message] }
  | .ok o =>
    match o.iri with
    | none => s
    | some iri => { s with catalog := s.catalog.map iri.text path, mapped := s.mapped + 1 }

/-- Maps the ontologies of a directory to the files that hold them, in order of their names. -/
def scan (c : Catalog) (t : Tree) (directory : String) : Except FileError Scan :=
  (t.list directory).map fun names =>
    (names.filter isDocumentName).foldl (scanFile t directory) ⟨c, 0, []⟩

/-! ## Loading -/

/-- The path that a locator names by itself: locators may be marked as those of files. -/
def pathOf (locator : String) : String :=
  let cs := locator.toList
  if "file://".toList.isPrefixOf cs then String.ofList (cs.drop 7)
  else if "file:".toList.isPrefixOf cs then String.ofList (cs.drop 5)
  else locator

/-- The path of the document for a locator. A mapped path is taken as it is. -/
def resolve (c : Catalog) (t : Tree) (locator : String) : Except LoadError String :=
  match c.paths.find? locator with
  | some path => .ok path
  | none =>
    let path := pathOf locator
    if t.isFile path then .ok path
    else if t.isDirectory path then .error (.directory locator)
    else .error (.unresolved locator)

/-- The document that an import asks for. -/
def readImport (c : Catalog) (t : Tree) (iri : Iri) : Except LoadError Ontology :=
  match c.resolve t iri.text with
  | .error e => .error (.imported iri e)
  | .ok path => t.readDocument path

/-- How many imports of a tree have not been taken. -/
def untaken (t : Tree) (taken : List Iri) : Nat := t.imports.countP fun iri => decide (iri ∉ taken)

theorem untaken_cons_lt {t : Tree} {taken : List Iri} {iri : Iri} (h : iri ∈ t.imports)
    (hn : iri ∉ taken) : untaken t (iri :: taken) < untaken t taken := by
  unfold untaken
  revert h
  generalize t.imports = is
  have mono (js : List Iri) : (js.countP fun i => decide (i ∉ iri :: taken)) ≤
      js.countP fun i => decide (i ∉ taken) :=
    List.countP_mono_left fun i _ hi => by simp_all
  induction is with
  | nil => simp
  | cons a as ih =>
    intro h
    have hle := mono as
    rw [List.countP_cons, List.countP_cons]
    by_cases ha : a = iri
    · subst ha
      simp only [List.mem_cons, true_or, not_true_eq_false, decide_false, hn, not_false_eq_true,
        decide_true, if_true, Bool.false_eq_true, if_false] at hle ⊢
      omega
    · have hlt := ih ((List.mem_cons.1 h).resolve_left (Ne.symm ha))
      simp only [List.mem_cons, ha, false_or] at hlt ⊢
      omega

/-- Merges an ontology with the imports in `pending`, the last one asked for first, and with what
they import in turn. The imports in `taken` are there already. -/
def close (c : Catalog) (t : Tree) (taken pending : List Iri) (o : Ontology)
    (known : ∀ iri ∈ pending, iri ∈ t.imports) : Except LoadError Ontology :=
  match pending, known with
  | [], _ => .ok o
  | iri :: pending, known =>
    if h : iri ∈ taken then c.close t taken pending o fun i hi => known i (by simp [hi])
    else
      match he : c.readImport t iri with
      | .error e => .error e
      | .ok document =>
        c.close t (iri :: taken) (document.imports.reverse ++ pending) (o.merge document)
          fun i hi => by
            rcases List.mem_append.1 hi with hi | hi
            · unfold readImport at he
              split at he
              · simp at he
              · exact Tree.mem_imports_of_readDocument he (List.mem_reverse.1 hi)
            · exact known i (by simp [hi])
termination_by (untaken t taken, pending.length)
decreasing_by
  -- an import that is taken already is only dropped
  · exact Prod.Lex.right _ (by simp)
  -- a new one is taken, whatever it asks for in turn
  · exact Prod.Lex.left _ _ (untaken_cons_lt (known iri (by simp)) h)

/-- The ontology for a locator, merged with all that it imports. -/
def load (c : Catalog) (t : Tree) (locator : String) : Except LoadError Ontology :=
  match c.resolve t locator with
  | .error e => .error e
  | .ok path =>
    match he : t.readDocument path with
    | .error e => .error e
    | .ok o =>
      c.close t o.iri.toList o.imports.reverse o fun _ hi =>
        Tree.mem_imports_of_readDocument he (List.mem_reverse.1 hi)

end Catalog

end FixedDomain
