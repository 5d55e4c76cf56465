import FixedDomain.Proofs.FunctionalSyntax.Accepted
import FixedDomain.Proofs.FunctionalSyntax.Document

/-! # Statements that are kept as their source text

A statement with an unsupported construct in it is passed over as a group and kept as its source text.
The construct stands within the group, so wherever the same text is found the statement is kept again
(`states_of_unsupported`).
-/

namespace FixedDomain.FunctionalSyntax

/-! ## Groups that are passed over -/

/-- Where some words end. -/
def lastStop (used : List Located) (stop : Place) : Place := (used.getLast?.map Located.stop).getD stop

@[simp] theorem lastStop_nil (stop : Place) : lastStop [] stop = stop := rfl

@[simp] theorem lastStop_cons (t : Located) (used : List Located) (stop : Place) :
    lastStop (t :: used) stop = lastStop used t.stop := by
  cases used <;> simp [lastStop, List.getLast?_cons]

theorem lastStop_congr {used : List Located} (h : used ≠ []) (stop stop' : Place) :
    lastStop used stop = lastStop used stop' := by
  obtain ⟨t, used, rfl⟩ := List.exists_cons_of_ne_nil h
  rw [lastStop_cons, lastStop_cons]

/-- A word decides how many groups are open after it. -/
theorem exists_skipRest_cons (word : Token) (depth : Nat) : ∃ depth', ∀ t stop left extra,
    t.token = word → skipRest (depth + extra + 1) stop (t :: left) =
      skipRest (depth' + extra) t.stop left := by
  cases word with
  | leftParen =>
    exact ⟨depth + 2, fun t stop left extra h => by rw [skipRest, h, Nat.add_right_comm depth 2]⟩
  | rightParen => exact ⟨depth, fun t stop left extra h => by rw [skipRest, h]⟩
  | _ => exact ⟨depth + 1, fun t stop left extra h => by rw [skipRest, h, Nat.add_right_comm depth 1]⟩

/-- The rest of some groups is passed over wherever the same words are found. -/
theorem exists_used_of_skipRest {depth : Nat} {stop stop' : Place} {left rest : List Located}
    (h : skipRest depth stop left = .ok (stop', rest)) :
    ∃ used, left = used ++ rest ∧ (depth ≠ 0 → used ≠ []) ∧
      ∀ used', used'.map (·.token) = used.map (·.token) → ∀ rest' stop extra,
        skipRest (depth + extra) stop (used' ++ rest') = skipRest extra (lastStop used' stop) rest' := by
  -- outside all groups nothing is passed over
  have hzero : ∀ used' : List Located, used'.map (·.token) = [] → ∀ rest' stop extra,
      skipRest (0 + extra) stop (used' ++ rest') = skipRest extra (lastStop used' stop) rest' := by
    intro used' hused rest' stop extra
    obtain rfl := List.map_eq_nil_iff.1 hused
    rw [Nat.zero_add, List.nil_append, lastStop_nil]
  induction left generalizing depth stop with
  | nil =>
    cases depth with
    | succ depth => cases h
    | zero =>
      rw [skipRest] at h
      obtain ⟨rfl, rfl⟩ := Prod.mk.inj (Except.ok.inj h)
      exact ⟨[], rfl, by simp, hzero⟩
  | cons t left ih =>
    cases depth with
    | zero =>
      rw [skipRest] at h
      obtain ⟨rfl, rfl⟩ := Prod.mk.inj (Except.ok.inj h)
      exact ⟨[], rfl, by simp, hzero⟩
    | succ depth =>
      obtain ⟨depth', hword⟩ := exists_skipRest_cons t.token depth
      have hfirst : skipRest (depth + 1) stop (t :: left) = skipRest depth' t.stop left :=
        hword t stop left 0 rfl
      rw [hfirst] at h
      obtain ⟨used, rfl, -, hreplay⟩ := ih h
      refine ⟨t :: used, rfl, by simp, fun used' hused rest' stop extra => ?_⟩
      obtain ⟨t', tail, rfl, ht', htail⟩ := List.map_eq_cons_iff.1 hused
      rw [List.cons_append, Nat.add_right_comm, hword t' stop _ extra ht', hreplay tail htail,
        lastStop_cons]

/-- A group is passed over wherever the same words are found. -/
theorem exists_used_of_skipGroup {stop : Place} {left rest : List Located}
    (h : skipGroup left = .ok (stop, rest)) :
    ∃ t used, left = t :: (used ++ rest) ∧ t.token = .leftParen ∧
      skipRest 1 .start (used ++ rest) = .ok (stop, rest) ∧ Balanced (t :: used) ∧
      ∀ group, group.map (·.token) = (t :: used).map (·.token) → ∀ rest',
        skipGroup (group ++ rest') = .ok (lastStop group .start, rest') := by
  rw [skipGroup] at h
  rcases expect_cases .leftParen left with ⟨t, inner, rfl, ht, hopen⟩ | ⟨f, hfault⟩
  case inr => rw [bind_apply, hfault] at h; cases h
  rw [bind_of_ok hopen] at h
  obtain ⟨used, rfl, hne, hreplay⟩ := exists_used_of_skipRest h
  refine ⟨t, used, rfl, ht, h, fun depth stop rest' => ?_, fun group hgroup rest' => ?_⟩
  · refine ⟨lastStop used t.stop, ?_⟩
    rw [List.cons_append, skipRest, ht]
    have := hreplay used rfl rest' t.stop (depth + 1)
    rwa [Nat.add_comm] at this
  · obtain ⟨t', tail, rfl, ht', htail⟩ := List.map_eq_cons_iff.1 hgroup
    rw [skipGroup, List.cons_append, bind_of_ok (expect_cons (ht'.trans ht) _)]
    have htail' : tail ≠ [] := by
      rintro rfl
      exact hne one_ne_zero (List.map_eq_nil_iff.1 htail.symm)
    rw [hreplay tail htail rest' .start 0, skipRest, lastStop_cons, lastStop_congr htail']

/-- Words that leave a group open are not the whole of it. -/
theorem StaysOpen.exists_rest {used rest rest' : List Located} (h : StaysOpen used) {stop stop' : Place}
    (hskip : skipRest 1 stop (used ++ rest) = .ok (stop', rest')) :
    ∃ more, more ≠ [] ∧ rest = more ++ rest' := by
  obtain ⟨depth, stop₁, hused⟩ := h 0 stop rest
  rw [hused] at hskip
  obtain ⟨more, hmore, hne, -⟩ := exists_used_of_skipRest hskip
  exact ⟨more, hne (Nat.succ_ne_zero depth), hmore⟩

/-! ## Annotations -/

/-- Annotations are passed over wherever the same words are found. -/
theorem exists_used_of_skipAnnotations {steps : Nat} {left rest : List Located}
    (hsteps : left.length ≤ steps) (h : skipAnnotations steps left = .ok ((), rest)) :
    ∃ used, left = used ++ rest ∧ Balanced used ∧
      ∀ used' rest' steps', SameAhead used rest used' rest' → used.length ≤ steps' →
        skipAnnotations steps' (used' ++ rest') = .ok ((), rest') := by
  induction steps generalizing left with
  | zero =>
    obtain rfl := List.length_eq_zero_iff.1 (Nat.le_zero.1 hsteps)
    obtain rfl : rest = [] := (Prod.mk.inj (Except.ok.inj h)).2.symm
    refine ⟨[], rfl, balanced_nil, fun used' rest' steps' hahead _ => ?_⟩
    obtain rfl := List.map_eq_nil_iff.1 hahead.used
    exact skipAnnotations_of_head_ne steps' (by simp [hahead.next])
  | succ steps ih =>
    by_cases hnext : left.head?.map (·.token) = some (.keyword "Annotation")
    · obtain ⟨t, inner, rfl, ht⟩ := exists_cons_of_head hnext
      rw [skipAnnotations, bind_of_ok (peek_apply _), if_pos hnext, bind_of_ok (skip_cons t inner),
        bind_apply] at h
      split at h
      case h_2 => cases h
      next stop mid hgroup =>
      obtain ⟨g, group, rfl, -, -, hbalanced, hskip⟩ := exists_used_of_skipGroup hgroup
      simp only [List.length_cons, List.length_append] at hsteps
      obtain ⟨used, rfl, hbalanced', hreplay⟩ := ih (by omega) h
      have hword : Balanced [t] := balanced_singleton (by simp [ht]) (by simp [ht])
      refine ⟨t :: (g :: group ++ used), by simp, hword.append (hbalanced.append hbalanced'),
        fun used' rest' steps' hahead hsteps' => ?_⟩
      obtain ⟨t', tail, rfl, ht', htail⟩ := hahead.cons
      obtain ⟨group', tail, rfl, hgroup', htail⟩ := htail.split
      simp only [List.length_cons, List.length_append] at hsteps'
      obtain ⟨steps', rfl⟩ := Nat.exists_eq_add_one_of_ne_zero (show steps' ≠ 0 by omega)
      have hnext' : ((t' :: (group' ++ tail)) ++ rest').head?.map (·.token) =
          some (.keyword "Annotation") := by simp [ht', ht]
      rw [skipAnnotations, bind_of_ok (peek_apply _), if_pos hnext', List.cons_append,
        bind_of_ok (skip_cons t' _), List.append_assoc, bind_of_ok (hskip group' hgroup'.used _)]
      exact hreplay tail rest' steps' htail (by omega)
    · rw [skipAnnotations_of_head_ne _ hnext] at h
      obtain rfl : left = rest := (Prod.mk.inj (Except.ok.inj h)).2
      refine ⟨[], rfl, balanced_nil, fun used' rest' steps' hahead _ => ?_⟩
      obtain rfl := List.map_eq_nil_iff.1 hahead.used
      exact skipAnnotations_of_head_ne steps' (by rwa [List.nil_append, hahead.next])

/-! ## Statements -/

section Statements

variable {ns ns' : Namespaces} {steps : Nat} {kind : String} {left : List Located}

theorem Namespaces.SameNames.refl (ns : Namespaces) : ns.SameNames ns := fun _ => rfl

/-- What a statement is read as can be written. -/
theorem statementBody_ok (hns : ns.IsSound) (hsound : Sound left) {found : Option Axiom}
    {rest : List Located} (h : statementBody ns steps kind left = .ok (found, rest)) :
    rest <:+ left ∧ ∀ a ∈ found, a.IsSupported ∧ IsFit a.IsShaped a.vocabulary := by
  obtain ⟨_, inner, hopen, h⟩ := exists_of_bind h
  obtain ⟨-, hinner⟩ := (yields_expect .leftParen).ok hsound hopen
  obtain ⟨_, mid, hannotations, h⟩ := exists_of_bind h
  obtain ⟨-, hmid⟩ := (yields_skipAnnotations steps).ok (hsound.suffix hinner) hannotations
  replace hsound := hsound.suffix (hmid.trans hinner)
  suffices hrest : rest <:+ mid ∧ ∀ a ∈ found, a.IsSupported ∧ IsFit a.IsShaped a.vocabulary from
    ⟨hrest.1.trans (hmid.trans hinner), hrest.2⟩
  split_ifs at h with hdeclaration hannotation
  · exact ((yields_declaration hns).ok hsound h).symm
  · obtain ⟨_, left', hskip, h⟩ := exists_of_bind h
    obtain ⟨-, hleft'⟩ := (yields_skipRest 1 .start).ok hsound hskip
    obtain ⟨rfl, rfl⟩ := Prod.mk.inj (Except.ok.inj h)
    exact ⟨hleft', by simp⟩
  · obtain ⟨a, left', harguments, hend⟩ := exists_of_bind h
    obtain ⟨ha, used, rfl, -⟩ := (traces_axiomArguments hns (.refl ns) steps kind).ok hsound harguments
    obtain ⟨_, left'', hclose, hresult⟩ := exists_of_bind hend
    obtain ⟨-, hleft''⟩ := (yields_expect .rightParen).ok hsound.of_append hclose
    obtain ⟨rfl, rfl⟩ := Prod.mk.inj (Except.ok.inj hresult)
    exact ⟨hleft''.trans (List.suffix_append used left'), fun a' ha' => Option.some.inj ha' ▸ ha⟩

/-- An unsupported construct stands in the arguments of an axiom. -/
theorem exists_of_statementBody_unsupported (hns : ns.IsSound) (hsound : Sound left) {construct : String}
    (h : statementBody ns steps kind left = .error (.unsupported construct)) :
    kind ≠ "Declaration" ∧ kind ∉ annotationAxioms ∧ ∃ t inner mid, left = t :: inner ∧
      skipAnnotations steps inner = .ok ((), mid) ∧
      axiomArguments ns steps kind mid = .error (.unsupported construct) := by
  rcases unsupported_of_bind h with hopen | ⟨_, inner, hopen, h⟩
  · exact absurd hopen ((yields_expect _).supported hsound)
  rcases expect_cases .leftParen left with ⟨t, inner', rfl, -, hopen'⟩ | ⟨f, hfault⟩
  case inr => rw [hfault] at hopen; cases hopen
  obtain rfl : inner' = inner := (Prod.mk.inj (Except.ok.inj (hopen'.symm.trans hopen))).2
  rcases unsupported_of_bind h with hskip | ⟨_, mid, hskip, h⟩
  · exact absurd hskip ((yields_skipAnnotations steps).supported hsound.tail)
  obtain ⟨-, hmid⟩ := (yields_skipAnnotations steps).ok hsound.tail hskip
  replace hsound := hsound.tail.suffix hmid
  split_ifs at h with hdeclaration hannotation
  · exact absurd h ((yields_declaration hns).supported hsound)
  · have hannotations : Yields (do let _ ← skipRest 1 .start; pure (none : Option Axiom)) (fun _ => True) :=
      (yields_skipRest 1 .start).bind fun _ _ => .pure trivial
    exact absurd h (hannotations.supported hsound)
  · rcases unsupported_of_bind h with harguments | ⟨a, left', harguments, hend⟩
    · exact ⟨hdeclaration, hannotation, t, _, mid, rfl, hskip, harguments⟩
    · obtain ⟨-, used, rfl, -⟩ := (traces_axiomArguments hns (.refl ns) steps kind).ok hsound harguments
      have hclose : Yields (do expect .rightParen; pure (some a)) (fun _ => True) :=
        (yields_expect _).bind fun _ _ => .pure trivial
      exact absurd hend (hclose.supported hsound.of_append)

/-- Wherever the words of a statement are found, the same construct in it is unsupported. -/
theorem statementBody_congr (hns : ns.IsSound) (hsame : ns.SameNames ns') {body rest : List Located}
    (hsound : Sound (body ++ rest)) (hsteps : (body ++ rest).length ≤ steps) {construct : String}
    (h : statementBody ns steps kind (body ++ rest) = .error (.unsupported construct)) {stop : Place}
    (hgroup : skipGroup (body ++ rest) = .ok (stop, rest)) {body' : List Located} (rest' : List Located)
    {steps' : Nat} (hbody' : body'.map (·.token) = body.map (·.token)) (hsteps' : 3 * body.length ≤ steps') :
    statementBody ns' steps' kind (body' ++ rest') = .error (.unsupported construct) := by
  obtain ⟨hdeclaration, hannotation, t, inner, mid, hleft, hskip, harguments⟩ :=
    exists_of_statementBody_unsupported hns hsound h
  obtain ⟨t₁, group, hleft₁, ht, hclose, -⟩ := exists_used_of_skipGroup hgroup
  obtain rfl : body = t₁ :: group := List.append_cancel_right hleft₁
  rw [List.cons_append] at hleft hsteps hsound
  obtain ⟨rfl, rfl⟩ := List.cons.inj hleft
  rw [List.length_cons] at hsteps
  obtain ⟨annotations, hinner, hbalanced, hreplay⟩ := exists_used_of_skipAnnotations (by omega) hskip
  have hmid : Sound mid := (hinner ▸ hsound.tail).of_append
  obtain ⟨arguments, behind, rfl, hopen, hreplay'⟩ :=
    (traces_axiomArguments hns hsame steps kind).unsupported hmid harguments
  -- the group is still open where the construct stands, so the construct and more stand in the group
  rw [hinner, ← List.append_assoc] at hclose
  obtain ⟨more, hmore, rfl⟩ := (hbalanced.append_staysOpen hopen).exists_rest hclose
  rw [← List.append_assoc, ← List.append_assoc] at hinner
  obtain rfl := List.append_cancel_right hinner
  obtain ⟨t', group', rfl, ht', hgroup'⟩ := List.map_eq_cons_iff.1 hbody'
  obtain ⟨front', more', rfl, hfront', hmore'⟩ := List.map_eq_append_iff.1 (hgroup'.trans List.map_append)
  have hnext : (more' ++ rest').head?.map (·.token) = (more ++ rest).head?.map (·.token) := by
    obtain ⟨x, more, rfl⟩ := List.exists_cons_of_ne_nil hmore
    obtain ⟨x', more', rfl, hx, -⟩ := List.map_eq_cons_iff.1 hmore'
    simp [hx]
  obtain ⟨annotations', arguments', rfl, hfirst, hsecond⟩ := SameAhead.split ⟨hfront', hnext⟩
  have hmorePos := List.length_pos_iff.2 hmore
  simp only [List.length_cons, List.length_append] at hsteps'
  rw [statementBody, List.cons_append, bind_of_ok (expect_cons (ht'.trans ht) _), List.append_assoc,
    List.append_assoc, bind_of_ok (hreplay _ _ steps' hfirst (by omega)), if_neg hdeclaration,
    if_neg hannotation, bind_apply, hreplay' _ _ steps' hsecond (by omega)]

end Statements

/-! ## Source texts -/

theorem slice_eq (pre source post : List Char) :
    slice (pre ++ source ++ post) (Place.start.after pre) ((Place.start.after pre).after source) =
      String.ofList source := by
  simp [slice, Place.after, Place.start]

theorem Covers.lastStop_eq {p : Place} {text : List Char} {t : Located} {ts : List Located}
    (h : Covers p text (t :: ts)) (hne : ts ≠ []) (stop : Place) : lastStop ts stop = p.after text := by
  have hlast : lastStop (t :: ts) stop = p.after text := by rw [lastStop, h.stop, Option.getD_some]
  rw [lastStop_cons] at hlast
  rw [lastStop_congr hne stop t.stop, hlast]

/-- A statement with a keyword outside the language is kept, whatever its arguments are. -/
theorem states_of_unknown {kind : String} {texts : List String} {tss : List (List Token)} (ns : Namespaces)
    (hkeyword : isKeyword kind.toList = true)
    (hkind : kind ∉ ["Import", "Annotation", "Declaration"] ++ annotationAxioms)
    (hunknown : ∀ steps left, axiomArguments ns steps kind left = .error (.unsupported kind))
    (hne : texts ≠ []) (hlexes : LexesAll texts tss)
    (hstart : ∀ t ∈ tss.flatten.head?, t ≠ .keyword "Annotation")
    (hbalanced : ∀ located : List Located, located.map (·.token) = tss.flatten → Balanced located) :
    States ns (group kind texts) (.unsupported kind (group kind texts)) := by
  obtain ⟨himport, hannotation, hdeclaration, hannotations⟩ :
      kind ≠ "Import" ∧ kind ≠ "Annotation" ∧ kind ≠ "Declaration" ∧ kind ∉ annotationAxioms := by
    simpa using hkind
  refine ⟨kind, _, by simp [himport, hannotation], lexes_group hkeyword hne hlexes,
    fun before after t body rest steps hsteps hbody hcovers => ?_⟩
  obtain ⟨g, tail, rfl, hg, htail⟩ := List.map_eq_cons_iff.1 hbody
  obtain ⟨inner, closing, rfl, hinner, hclosing⟩ := List.map_eq_append_iff.1 htail
  obtain ⟨close, rfl, hclose⟩ := List.map_eq_singleton_iff.1 hclosing
  have hfirst : (inner ++ close :: rest).head?.map (·.token) ≠ some (.keyword "Annotation") := by
    cases inner with
    | nil => simp [hclose]
    | cons x inner => simpa using hstart x.token (by simp [← hinner])
  have hunsupported : statementBody ns steps kind (g :: (inner ++ [close]) ++ rest) =
      .error (.unsupported kind) := by
    rw [statementBody, List.cons_append, bind_of_ok (expect_cons hg _), List.append_assoc,
      List.singleton_append, bind_of_ok (skipAnnotations_of_head_ne steps hfirst), if_neg hdeclaration,
      if_neg hannotations, bind_apply, hunknown]
  have hgroup : skipGroup (g :: (inner ++ [close]) ++ rest) = .ok (close.stop, rest) := by
    obtain ⟨stop, hskip⟩ := hbalanced inner hinner 0 .start (close :: rest)
    rw [skipGroup, List.cons_append, bind_of_ok (expect_cons hg _), List.append_assoc,
      List.singleton_append, hskip, skipRest, hclose]
    dsimp only
    rw [skipRest]
  -- the keyword is the first word, and the parenthesis the last
  have hplaces : t.start = Place.start.after before ∧
      close.stop = (Place.start.after before).after (group kind texts).toList := by
    constructor
    · obtain ⟨c, cs, hcs⟩ := List.exists_cons_of_ne_nil (l := kind.toList) fun h => by
        simp [h, isKeyword] at hkeyword
      have hletter : isNameStart c = true := by
        rw [hcs] at hkeyword
        simp [isNameStart, (Bool.and_eq_true_iff.1 hkeyword).1]
      obtain ⟨hblank, hcomment, -⟩ := Lexeme.first_of_isNameStart hletter cs
      obtain ⟨_, hleads, -⟩ := Covers.cons_iff.1 hcovers
      rw [hleads.start_eq]
      simp [group, hcs, splitIgnored, hblank, hcomment]
    · have hstop := hcovers.lastStop_eq (by simp) .start
      rw [lastStop_cons] at hstop
      simpa [lastStop] using hstop
  rw [statement, hunsupported]
  simp only [hgroup, hplaces, slice_eq, String.ofList_toList]

/-- An axiom that has been read from a document can be written, or its source text is read as the same
axiom in every document where short names stand for the same. -/
def Lasts (ns : Namespaces) (a : Axiom) : Prop :=
  a.IsSupported ∧ IsFit a.IsShaped a.vocabulary ∨ ∀ ns', ns.SameNames ns' → States ns' a.render a

/-- Only statements with an unsupported construct last by their source text. -/
theorem Lasts.isFit {ns : Namespaces} (hns : ns.IsSound) {a : Axiom} (h : Lasts ns a)
    (hs : a.IsSupported) : IsFit a.IsShaped a.vocabulary := by
  rcases h with ⟨-, hfit⟩ | hstates
  · exact hfit
  obtain ⟨kind, ts, -, hlexes, hstatement⟩ := hstates ns (.refl ns)
  obtain ⟨located, hcovers, hlocated⟩ := hlexes (Place.start.after [])
  obtain ⟨t, body, rfl, -, hbody⟩ := List.map_eq_cons_iff.1 hlocated
  have hread := hstatement [] [] t body [] (3 * ts.length) (Nat.le_refl _) hbody hcovers
  rw [List.append_nil body] at hread
  have hsound : Sound body := (sound_of_tokenizeFrom hcovers.tokens).tail
  rw [statement] at hread
  split at hread
  · split at hread
    · cases hread
    · obtain ⟨ha, -⟩ := Prod.mk.inj (Except.ok.inj hread)
      rw [← Option.some.inj ha] at hs
      cases hs
  · exact ((statementBody_ok hns hsound hread).2 a rfl).2

section Source

variable {text : List Char} {ns : Namespaces} {steps : Nat} {kind : String} {t : Located}
  {before left rest : List Located} (hns : ns.IsSound)
  (htokens : tokenize text = .ok (before ++ t :: left)) (ht : t.token = .keyword kind)
  (hkind : kind ∉ ["Import", "Annotation"]) (hsteps : left.length ≤ steps)

include hns htokens ht hkind hsteps

/-- The source text of a statement with an unsupported construct is read as such a statement again. -/
theorem states_of_unsupported {construct : String} {stop : Place}
    (h : statementBody ns steps kind left = .error (.unsupported construct))
    (hgroup : skipGroup left = .ok (stop, rest)) {ns' : Namespaces} (hsame : ns.SameNames ns') :
    States ns' (slice text t.start stop) (.unsupported kind (slice text t.start stop)) := by
  have hsound : Sound left := (sound_of_tokenizeFrom htokens).of_append.tail
  obtain ⟨g, used, hleft, -, -, -, hskip⟩ := exists_used_of_skipGroup hgroup
  obtain ⟨body, hbody⟩ : ∃ body, body = g :: used := ⟨_, rfl⟩
  have hne : body ≠ [] := by simp [hbody]
  rw [← List.cons_append, ← hbody] at hleft
  rw [← hbody] at hskip
  subst hleft
  obtain ⟨pre, source, post, rfl, hstart, hcovers⟩ := exists_source htokens
  -- the group ends where the source text does
  obtain rfl : stop = t.start.after source := by
    rw [hskip body rfl rest] at hgroup
    rw [← (Prod.mk.inj (Except.ok.inj hgroup)).1, hcovers.lastStop_eq hne]
  have hslice := slice_eq pre source post
  rw [← hstart] at hslice
  rw [hslice]
  have hlexes := hcovers.lexes
  rw [List.map_cons, ht] at hlexes
  refine ⟨kind, body.map (·.token), hkind, by simpa using hlexes,
    fun before' after' t' body' rest' steps' hsteps' hbody' hcovers' => ?_⟩
  rw [String.toList_ofList] at hcovers' ⊢
  rw [List.length_map] at hsteps'
  have hbodyNe : body' ≠ [] := by
    rintro rfl
    exact hne (List.map_eq_nil_iff.1 hbody'.symm)
  have hstart' : t'.start = Place.start.after before' := hcovers.start_eq rfl hcovers'
  rw [statement, statementBody_congr hns hsame hsound hsteps h hgroup rest' hbody' hsteps']
  simp only [hskip body' hbody' rest', hcovers'.lastStop_eq hbodyNe, hstart', slice_eq]

/-- A statement passes over some words, and what it is read as has its shape and lasts. -/
theorem statement_ok {found : Option Axiom}
    (h : statement text ns steps t.start kind left = .ok (found, rest)) :
    rest <:+ left ∧ ∀ a ∈ found, a.IsShaped ∧ Lasts ns a := by
  have hsound : Sound left := (sound_of_tokenizeFrom htokens).of_append.tail
  rw [statement] at h
  split at h
  · next construct hbody =>
    split at h
    · cases h
    · next stop rest' hgroup =>
      obtain ⟨rfl, rfl⟩ := Prod.mk.inj (Except.ok.inj h)
      refine ⟨(yields_skipGroup.ok hsound hgroup).2, fun a ha => ?_⟩
      obtain rfl := Option.some.inj ha
      exact ⟨trivial, .inr fun ns' hsame =>
        states_of_unsupported hns htokens ht hkind hsteps hbody hgroup hsame⟩
  · obtain ⟨hrest, hfound⟩ := statementBody_ok hns hsound h
    exact ⟨hrest, fun a ha => ⟨(hfound a ha).2.1, .inl (hfound a ha)⟩⟩

end Source

end FixedDomain.FunctionalSyntax
