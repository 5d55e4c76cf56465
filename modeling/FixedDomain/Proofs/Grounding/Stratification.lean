import FixedDomain.Proofs.Grounding.Orderly
import FixedDomain.Proofs.Grounding.Recursion

/-! # Strata of auxiliary predicates

However calls on one context end, the auxiliary predicates that they have defined are stratified by
their numbers, and the atom of a query stands in the rules of the query alone
(`Call.runAll_stratified`).

* `Rule.mentions` — whether a predicate occurs in a rule.
* `Call.AsksOnce` — among some rules, those of a query ask for it once.
-/

namespace FixedDomain

/-! ## Mentioned predicates -/

/-- Whether a predicate occurs in a rule, be it in the condition of a count. -/
def Rule.mentions (r : Rule) (predicate : String) : Bool := r.atoms.any (·.predicate = predicate)

theorem Rule.mentions_eq_false_iff {r : Rule} {predicate : String} :
    r.mentions predicate = false ↔
      (∀ l ∈ r.body, ∀ a ∈ l.atoms, a.predicate ≠ predicate) ∧
        ∀ a ∈ r.head, a.predicate ≠ predicate := by
  simp only [mentions, atoms, List.any_eq_false, List.forall_mem_append, decide_eq_true_eq]
  refine and_congr_left fun _ => ⟨fun h l hl a ha => ?_, fun h a ha => ?_⟩
  · exact h a (Literal.mem_atomsList.2 ⟨l, hl, ha⟩)
  · obtain ⟨l, hl, ha⟩ := Literal.mem_atomsList.1 ha
    exact h l hl a ha

theorem queryName_injective : Function.Injective queryName := by
  intro j k h
  have hlist := congrArg String.toList h
  simp only [queryName, String.toList_append] at hlist
  exact Nat.repr_injective (String.toList_inj.1 (List.append_cancel_left hlist))

namespace Context

variable {c : Context} {r : Rule}

/-- No ordinary rule mentions a query. -/
theorem IsOrdinary.mentions_queryName (hc : c.Ready) (h : c.IsOrdinary r) (n : Nat) :
    r.mentions (queryName n) = false := by
  rw [Rule.mentions_eq_false_iff]
  rcases h with h | h
  · rcases h.cases with ⟨b, hb, hb', rfl⟩ | ⟨k, x, body, rfl, hbody⟩
    · refine ⟨nofun, fun a ha => ?_⟩
      rcases List.mem_pair.1 ha with rfl | rfl
      · exact hb.predicate_ne_queryName hc n
      · exact hb'.predicate_ne_queryName hc n
    · refine ⟨fun l hl a ha => ?_, List.forall_mem_singleton.2 ?_⟩
      · exact ((hbody l hl a ha).mono (before_le c k)).predicate_ne_queryName hc n
      · exact fun heq => queryName_ne_auxName n _ heq.symm
  · refine ⟨fun l hl a ha => ?_, fun a ha => (h.head a ha).predicate_ne_queryName hc n⟩
    rcases h.body l hl a ha with ha | ⟨k, rfl⟩
    · exact ha.predicate_ne_queryName hc n
    · intro heq
      have hlist := congrArg String.toList heq
      simp [activationAtom, Atom.positive, queryName] at hlist

/-- An ordinary rule for an auxiliary predicate is over symbols and earlier auxiliary predicates. -/
theorem IsOrdinary.stratified (hc : c.Ready) (h : c.IsOrdinary r) {k : Nat}
    (hk : r.derives (auxName k) = true) {a : Atom} (ha : a ∈ Literal.atomsList r.body) :
    c.IsSymbolAtom a ∨ ∃ j < k, a.predicate = auxName j := by
  obtain ⟨j, rfl, hbody⟩ := h.exists_before hc hk
  obtain ⟨l, hl, ha⟩ := Literal.mem_atomsList.1 ha
  exact (hbody l hl a ha).of_before

/-- The rules of a query mention its own atom only. -/
theorem IsQueryRule.mentions_iff {n : Nat} (hc : c.Ready) (h : c.IsQueryRule n r) (m : Nat) :
    r.mentions (queryName m) = true ↔ m = n := by
  have hname : (queryAtom n).predicate = queryName m ↔ m = n := by
    simp [queryAtom, Atom.positive, queryName_injective.eq_iff, eq_comm]
  rcases h with ⟨body, rfl, hbody⟩ | rfl
  · constructor
    · intro h
      by_contra hne
      have hfalse : (Rule.derive (queryAtom n) body).mentions (queryName m) = false := by
        refine Rule.mentions_eq_false_iff.2 ⟨fun l hl a ha => ?_, List.forall_mem_singleton.2 ?_⟩
        · exact (hbody l hl a ha).predicate_ne_queryName hc m
        · exact fun heq => hne (hname.1 heq)
      simp [hfalse] at h
    · rintro rfl
      simp [Rule.mentions, Rule.atoms, Rule.derive, queryAtom, Atom.positive]
  · simp [Rule.mentions, Rule.atoms, Rule.constraint, Literal.atomsList, Literal.atoms, hname]

end Context

namespace Call

open Context (WritesOrdinary WritesQuery)

variable {c c' : Context} {calls : List Call}

/-! ## The rules of a query -/

/-- Among some rules, those that mention the n-th query derive its atom, or are the one demand for
it. -/
def AsksOnce (n : Nat) (rules : List Rule) : Prop :=
  ∃ bodies : List Body,
    (∀ b ∈ bodies, ∀ a ∈ Literal.atomsList b, ∀ m, a.predicate ≠ queryName m) ∧
    rules.filter (·.mentions (queryName n)) =
      bodies.map (.derive (queryAtom n)) ++ [.constraint [.not (queryAtom n)]]

theorem filter_mentions_of_isOrdinary {rules : List Rule} (hc : c.Ready)
    (h : ∀ r ∈ rules, c.IsOrdinary r) (n : Nat) : rules.filter (·.mentions (queryName n)) = [] := by
  refine List.filter_eq_nil_iff.2 fun r hr => ?_
  simp [(h r hr).mentions_queryName hc n]

/-- A call for a query writes the rules of the next query, and mentions no other one. -/
theorem filter_mentions_of_writesQuery {rules : List Rule} (h : c.WritesQuery c' rules) :
    AsksOnce (c.queryCount + 1) rules ∧
      ∀ n ≠ c.queryCount + 1, rules.filter (·.mentions (queryName n)) = [] := by
  obtain ⟨ordinary, bodies, rfl, hordinary, hbodies⟩ := h.written
  have hready := h.orderly.ready
  have hrules : ∀ r ∈ bodies.map (.derive (queryAtom (c.queryCount + 1))) ++
      [.constraint [.not (queryAtom (c.queryCount + 1))]], c'.IsQueryRule (c.queryCount + 1) r := by
    refine List.forall_mem_append.2 ⟨List.forall_mem_map.2 fun b hb => ?_, ?_⟩
    · exact .inl ⟨b, rfl, hbodies b hb⟩
    · exact List.forall_mem_singleton.2 (.inr rfl)
  refine ⟨⟨bodies, fun b hb a ha m => ?_, ?_⟩, fun n hn => ?_⟩
  · obtain ⟨l, hl, ha⟩ := Literal.mem_atomsList.1 ha
    exact (hbodies b hb l hl a ha).predicate_ne_queryName hready m
  · rw [List.filter_append, filter_mentions_of_isOrdinary hready hordinary, List.nil_append]
    exact List.filter_eq_self.2 fun r hr => ((hrules r hr).mentions_iff hready _).2 rfl
  · rw [List.filter_append, filter_mentions_of_isOrdinary hready hordinary, List.nil_append]
    refine List.filter_eq_nil_iff.2 fun r hr hmentions => ?_
    exact hn (((hrules r hr).mentions_iff hready n).1 hmentions)

/-- Only queries that have been asked are mentioned, each in the rules of the call for it. -/
theorem runAll_queries (calls : List Call) (hc : c.Orderly) (n : Nat) :
    let run := runAll calls c
    c.queryCount ≤ run.2.queryCount ∧
    (n ≤ c.queryCount ∨ run.2.queryCount < n →
      (run.1.flatMap Outcome.rules).filter (·.mentions (queryName n)) = []) ∧
    (c.queryCount < n → n ≤ run.2.queryCount →
      ∃ a o, (query a, o) ∈ calls.zip run.1 ∧ AsksOnce n o.kept ∧
        (run.1.flatMap Outcome.rules).filter (·.mentions (queryName n)) =
          o.kept.filter (·.mentions (queryName n))) := by
  induction calls generalizing c with
  | nil => exact ⟨Nat.le_refl _, fun _ => rfl, fun h h' => absurd (Nat.lt_of_lt_of_le h h')
      (Nat.lt_irrefl _)⟩
  | cons call calls ih =>
    have hleaves := call.run_leaves hc
    obtain ⟨hle, hnone, hsome⟩ := ih hleaves.orderly
    simp only [runAll, List.flatMap_cons, List.filter_append, List.zip_cons_cons]
    cases hleaves with
    -- such a call mentions no query at all
    | ordinary h =>
      have hordinary := filter_mentions_of_isOrdinary h.orderly.ready h.ordinary n
      rw [h.queryCount] at hle hnone hsome
      rw [hordinary, List.nil_append]
      refine ⟨hle, hnone, fun hlt hle' => ?_⟩
      obtain ⟨a, o, hmem, hasks⟩ := hsome hlt hle'
      exact ⟨a, o, List.mem_cons_of_mem _ hmem, hasks⟩
    | @query a hcall hlost h =>
      obtain ⟨hasks, hothers⟩ := filter_mentions_of_writesQuery h
      have hrules : (call.run c).1.rules = (call.run c).1.kept := by
        rw [Outcome.rules, hlost, Program.rules_empty, List.append_nil]
      rw [h.queryCount] at hle hnone hsome
      refine ⟨by omega, fun hn => ?_, fun hlt hle' => ?_⟩
      · rw [hrules, hothers n (by omega), hnone (by omega), List.append_nil]
      · by_cases hn : n = c.queryCount + 1
        · -- the query of this very call
          subst hn
          refine ⟨a, (call.run c).1, hcall ▸ List.mem_cons_self, hasks, ?_⟩
          rw [hrules, hnone (by omega), List.append_nil]
        · obtain ⟨b, o, hmem, hasks', hfilter⟩ := hsome (by omega) hle'
          refine ⟨b, o, List.mem_cons_of_mem _ hmem, hasks', ?_⟩
          rw [hrules, hothers n hn, List.nil_append, hfilter]

end Call

/-! ## Names -/

namespace Grounding

variable {c c' : Context}

/-- The number of an auxiliary predicate is the position of its expression. -/
theorem exists_getElem?_of_exec_auxFor {d : ClassExpression} {k : Nat}
    (h : (auxFor d).exec c = (.ok k, c')) : ∃ j, k = j + 1 ∧ c'.definitions[j]? = some d := by
  rcases auxFor_cases h with ⟨j, hj, rfl, rfl⟩ | ⟨-, bodies, c₁, -, rfl, rfl⟩
  · obtain ⟨hlt, hget, -⟩ := List.findIdx?_eq_some_iff_getElem.1 hj
    exact ⟨j, rfl, by simpa [List.getElem?_eq_getElem hlt] using hget⟩
  · exact ⟨c₁.definitions.length, rfl, by simp [Context.withDefinition]⟩

end Grounding

namespace Call

/-- Names that stand for expressions in one context are the same where the expressions are. -/
theorem auxName_eq_iff_of_auxFor {κ : Context} (hdistinct : κ.definitions.Nodup)
    {e e' : ClassExpression} {k k' : Nat} {c₁ c₁' c₂ c₂' : Context}
    (h₁ : (Grounding.auxFor e).exec c₁ = (.ok k, c₁')) (hle₁ : c₁' ≤ κ)
    (h₂ : (Grounding.auxFor e').exec c₂ = (.ok k', c₂')) (hle₂ : c₂' ≤ κ) :
    auxName k = auxName k' ↔ e = e' := by
  obtain ⟨j, rfl, hj⟩ := Grounding.exists_getElem?_of_exec_auxFor h₁
  obtain ⟨j', rfl, hj'⟩ := Grounding.exists_getElem?_of_exec_auxFor h₂
  have hj := hle₁.definitions j e hj
  have hj' := hle₂.definitions j' e' hj'
  rw [auxName_injective.eq_iff, Nat.add_right_cancel_iff]
  constructor
  · rintro rfl
    exact Option.some.inj (hj.symm.trans hj')
  · rintro rfl
    exact (List.getElem?_inj (List.getElem?_eq_some_iff.1 hj).1 hdistinct).1 (hj.trans hj'.symm)

/-- However calls on one context end: the recursion over class expressions is bounded by their
weights. In contexts that the last one extends, which those between the calls are, expressions have
one auxiliary name if they are the same, and different ones otherwise. What derives a numbered
auxiliary atom is over classes, properties and auxiliary predicates with smaller numbers. And the
atom of a query that has been asked stands in the rules of the call for it alone, which derive it or
are the one demand for it. -/
theorem runAll_stratified (d : Domain) (scheme : NamingScheme) (strategy : Strategy)
    (calls : List Call) :
    let run := runAll calls (.new d scheme strategy)
    let emitted := run.1.flatMap Outcome.rules ++ run.2.pending.rules
    (Grounding.Answers.grounding.unfold = .grounding ∧
      ∀ (rest : Grounding.Answers) (e : ClassExpression) (n : Nat), 4 * e.weight + 3 < n →
        (∀ x, (Grounding.Answers.unfold^[n] rest).holds e x = Grounding.holds e x) ∧
        (∀ x, (Grounding.Answers.unfold^[n] rest).holdsNot e x = Grounding.holdsNot e x) ∧
        (Grounding.Answers.unfold^[n] rest).auxFor e = Grounding.auxFor e ∧
        ∀ x, (Grounding.Answers.unfold^[n] rest).define e x = Grounding.define e x) ∧
    ((∀ before after, calls = before ++ after →
        (runAll before (.new d scheme strategy)).2 ≤ run.2) ∧
      ∀ e e' k k' c₁ c₁' c₂ c₂', (Grounding.auxFor e).exec c₁ = (.ok k, c₁') → c₁' ≤ run.2 →
        (Grounding.auxFor e').exec c₂ = (.ok k', c₂') → c₂' ≤ run.2 →
        (auxName k = auxName k' ↔ e = e')) ∧
    (∀ r ∈ emitted, ∀ k, r.derives (auxName k) = true → ∀ a ∈ Literal.atomsList r.body,
      run.2.IsSymbolAtom a ∨ ∃ j < k, a.predicate = auxName j) ∧
    (∀ n, n = 0 ∨ run.2.queryCount < n → emitted.filter (·.mentions (queryName n)) = []) ∧
    (∀ n, 0 < n → n ≤ run.2.queryCount →
      ∃ a o, (query a, o) ∈ calls.zip run.1 ∧ AsksOnce n o.kept ∧
        emitted.filter (·.mentions (queryName n)) = o.kept.filter (·.mentions (queryName n))) := by
  intro run emitted
  have hnew := Context.orderly_new d scheme strategy
  have horderly : run.2.Orderly := runAll_orderly calls hnew
  have hpending : ∀ r ∈ run.2.pending.rules, run.2.IsOrdinary r := fun r hr =>
    .inl (horderly.isBackground hr)
  have hpendingQueries := filter_mentions_of_isOrdinary horderly.ready hpending
  have hzero : (Context.new d scheme strategy).queryCount = 0 := rfl
  have hemitting := runAll_emitting calls (Context.emitting_new d scheme strategy)
  refine ⟨⟨Grounding.Answers.unfold_grounding,
      fun rest e n => Grounding.Answers.iterate_unfold rest⟩,
    ⟨?grow, ?names⟩, ?strata, fun n hn => ?unasked, fun n hpos hn => ?asked⟩
  case grow =>
    rintro before after rfl
    simp only [run, runAll_append]
    exact le_runAll after (runAll_orderly before hnew)
  case names =>
    -- both expressions stand in the last context, in which each has one position
    intro e e' k k' c₁ c₁' c₂ c₂' h₁ hle₁ h₂ hle₂
    exact auxName_eq_iff_of_auxFor hemitting.emitted.distinct h₁ hle₁ h₂ hle₂
  case strata =>
    intro r hr k hk a ha
    have hrefl : Context.Additions (fun _ => True) run.2 run.2 := .refl
    rcases emitted_rule_cases hnew hrefl hr with h | ⟨n, h⟩
    · exact h.stratified horderly.ready hk ha
    · simp [h.derives_auxName k] at hk
  case unasked =>
    obtain ⟨-, hnone, -⟩ := runAll_queries calls hnew n
    rw [List.filter_append, hpendingQueries, List.append_nil]
    exact hnone (by rwa [hzero, Nat.le_zero])
  case asked =>
    obtain ⟨-, -, hsome⟩ := runAll_queries calls hnew n
    obtain ⟨a, o, hmem, hasks, hfilter⟩ := hsome (by rwa [hzero]) hn
    exact ⟨a, o, hmem, hasks, by rw [List.filter_append, hpendingQueries, List.append_nil, hfilter]⟩

/-- A query for an upper bound over two individuals, which is negated by way of a lower bound. -/
theorem runAll_stratified_bound :
    let most := ClassExpression.maxCardinality 1 (.named ⟨"urn:p"⟩) none
    let least := ClassExpression.minCardinality 2 (.named ⟨"urn:p"⟩) none
    let calls := [query (.subClassOf (.named ⟨"urn:a"⟩) most)]
    let run := runAll calls (.new (.ofIndividuals [⟨⟨"urn:i"⟩⟩, ⟨⟨"urn:j"⟩⟩]) .plain .naive)
    (Grounding.auxFor least).exec run.2 = (.ok 1, run.2) ∧
    (Grounding.auxFor most).exec run.2 = (.ok 2, run.2) ∧ auxName 1 ≠ auxName 2 ∧
    (∃ r ∈ run.1.flatMap Outcome.rules, r.derives (auxName 2) = true ∧
      ∀ a ∈ Literal.atomsList r.body,
        run.2.IsSymbolAtom a ∨ ∃ j < 2, a.predicate = auxName j) ∧
    ∃ a o, (query a, o) ∈ calls.zip run.1 ∧ AsksOnce 1 o.kept := by
  intro most least calls run
  have hleast : (Grounding.auxFor least).exec run.2 = (.ok 1, run.2) :=
    Grounding.exec_auxFor_of_eq_some (k := 0) (by decide +kernel)
  have hmost : (Grounding.auxFor most).exec run.2 = (.ok 2, run.2) :=
    Grounding.exec_auxFor_of_eq_some (k := 1) (by decide +kernel)
  obtain ⟨-, ⟨-, hnames⟩, hstrata, -, hasked⟩ := runAll_stratified
    (.ofIndividuals [⟨⟨"urn:i"⟩⟩, ⟨⟨"urn:j"⟩⟩]) .plain .naive calls
  have hany : (run.1.flatMap Outcome.rules).any (·.derives (auxName 2)) = true := by
    decide +kernel
  obtain ⟨r, hr, hk⟩ := List.any_eq_true.1 hany
  obtain ⟨a, o, hmem, hasks, -⟩ := hasked 1 (by decide) (by decide +kernel)
  refine ⟨hleast, hmost, ?_, ⟨r, hr, hk, hstrata r (List.mem_append_left _ hr) 2 hk⟩, a, o, hmem,
    hasks⟩
  exact mt (hnames least most 1 2 _ _ _ _ hleast run.2.le_refl hmost run.2.le_refl).1 (by decide)

end Call

end FixedDomain
