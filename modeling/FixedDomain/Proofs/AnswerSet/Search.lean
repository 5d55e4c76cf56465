import FixedDomain.AnswerSet.Solver
import FixedDomain.Proofs.AnswerSet.Stability

/-! # Completeness of the search

Below an assignment, the search meets every answer that refines it once and nothing else, in the
lexicographic order of assignments in which failing comes before holding (`exists_explores`). A
limit cuts the list of answers off, and changes it in no other way.
-/

namespace FixedDomain.AnswerSet

/-! ## Answers -/

/-- A total assignment that violates no constraint and is stable. -/
structure IsAnswer (p : NormalProgram) (a : Assignment) : Prop where
  size : a.values.size = p.atoms.size
  total : a.IsTotal
  constraints : ∀ r ∈ p.rules, r.head = none → bodyValue a r.body ≠ .holds
  stable : isStable p a = true

theorem IsAnswer.supportedModel {p : NormalProgram} (hp : p.Numbered) {a : Assignment}
    (h : IsAnswer p a) : SupportedModel p a :=
  supportedModel_of_isStable hp h.size h.total h.constraints h.stable

/-- A total assignment that propagation lets through is an answer if it is stable. -/
theorem isAnswer_of_propagate {p : NormalProgram} (hp : p.Numbered) {a b : Assignment}
    (hsize : b.values.size = p.atoms.size) (ht : b.IsTotal) (h : propagate p a = some b)
    (hs : isStable p b = true) : IsAnswer p b := by
  have hb := supportedModel_of_propagate hp hsize ht h
  refine ⟨hsize, ht, fun r hr hh hbody => ?_, hs⟩
  obtain ⟨i, hi, -⟩ := hb.satisfied r hr hbody
  rw [hh] at hi
  cases hi

/-! ## The order of the search -/

/-- `a` comes before `b`: at the first atom on which they differ, `a` fails and `b` holds. -/
def Precedes (a b : Assignment) : Prop :=
  ∃ i, a.get i = .fails ∧ b.get i = .holds ∧ ∀ j < i, a.get j = b.get j

/-- What refines the case that an atom fails comes before what refines the case that it holds. -/
theorem precedes_of_decide_le {a b c : Assignment} {x : Nat} (hx : a.firstUndecided? = some x)
    (hb : a.decide x false ≤ b) (hc : a.decide x true ≤ c) : Precedes b c := by
  obtain ⟨hlt, hopen⟩ := Assignment.lt_and_get_of_firstUndecided? hx
  refine ⟨x, ?_, ?_, fun j hj => ?_⟩
  · exact Assignment.get_eq_of_le hb (by rw [Assignment.get_decide, if_pos ⟨rfl, hopen, hlt⟩]; rfl)
  · exact Assignment.get_eq_of_le hc (by rw [Assignment.get_decide, if_pos ⟨rfl, hopen, hlt⟩]; rfl)
  · -- the atoms before the first open one are settled
    have hj' := Assignment.get_of_lt_firstUndecided? hx hj
    have hb' := Assignment.get_eq_of_le (Assignment.le_trans (a.le_decide x false) hb) rfl hj'
    have hc' := Assignment.get_eq_of_le (Assignment.le_trans (a.le_decide x true) hc) rfl hj'
    rw [hb', hc']

/-- A total refinement of an assignment refines one of the two cases of an open atom. -/
theorem le_iff_decide_le {a b : Assignment} {x : Nat} (hx : a.firstUndecided? = some x)
    (ht : b.IsTotal) : a ≤ b ↔ a.decide x false ≤ b ∨ a.decide x true ≤ b := by
  constructor
  · intro h
    have hlt : x < b.values.size := by
      rw [h.size]
      exact (Assignment.lt_and_get_of_firstUndecided? hx).1
    cases hb : b.get x with
    | unknown => exact absurd hb (ht x hlt)
    | holds => exact .inr (Assignment.decide_le h fun _ => hb)
    | fails => exact .inl (Assignment.decide_le h fun _ => hb)
  · rintro (h | h)
    · exact Assignment.le_trans (a.le_decide x false) h
    · exact Assignment.le_trans (a.le_decide x true) h

/-! ## What the search records -/

/-- The beginning of a list up to a limit, or all of it if the limit is zero. -/
def upTo {α : Type} (limit : Nat) (xs : List α) : List α :=
  if limit = 0 then xs else xs.take limit

theorem upTo_of_not_isFull {limit : Nat} {s : Progress} (h : s.isFull limit = false) :
    upTo limit s.found.toList = s.found.toList := by
  unfold upTo
  split
  · rfl
  · rw [List.take_of_length_le]
    simp [Progress.isFull] at h
    simp
    omega

theorem upTo_append_of_isFull {limit : Nat} {s : Progress} {found more : List AnswerSet}
    (h : s.isFull limit = true) (hs : s.found.toList = upTo limit found) :
    upTo limit (found ++ more) = s.found.toList := by
  simp only [Progress.isFull, Bool.and_eq_true, decide_eq_true_eq] at h
  have hlen := congrArg List.length hs
  rw [upTo, if_neg (by omega)] at hs ⊢
  rw [upTo, if_neg (by omega), List.length_take, Array.length_toList] at hlen
  rw [List.take_append_of_le_length (by omega), hs]

theorem upTo_append_of_not_isFull {limit : Nat} {s : Progress} {found more : List AnswerSet}
    (h : s.isFull limit = false) (hs : s.found.toList = upTo limit found) :
    upTo limit (s.found.toList ++ more) = upTo limit (found ++ more) := by
  have hfound : upTo limit found = found := by
    have hlen := congrArg List.length hs
    unfold upTo at hlen ⊢
    split at hlen
    · rw [if_pos ‹_›]
    · simp only [Progress.isFull, Bool.and_eq_false_iff, decide_eq_false_iff_not] at h
      rw [List.length_take, Array.length_toList] at hlen
      rw [if_neg ‹_›, List.take_of_length_le (by omega)]
  rw [hs, hfound]

theorem found_record (p : NormalProgram) (a : Assignment) (s : Progress) :
    (record p a s).found.toList =
      s.found.toList ++ (if isStable p a then [a] else []).map (answerOf p) := by
  unfold record
  split <;> simp [Progress.add]

theorem upTo_append_singleton {limit : Nat} {s : Progress} (h : s.isFull limit = false)
    (xs : List AnswerSet) (hxs : xs.length ≤ 1) :
    upTo limit (s.found.toList ++ xs) = s.found.toList ++ xs := by
  unfold upTo
  split
  · rfl
  · simp only [Progress.isFull, Bool.and_eq_false_iff, decide_eq_false_iff_not] at h
    rw [List.take_of_length_le]
    rw [List.length_append, Array.length_toList]
    omega

/-! ## Exploration -/

section Look

variable {p : NormalProgram} {watch : Watch} {i : Interruption} {limit : Nat} {a b : Assignment}
  {s : Progress} {x : Nat}

theorem explore_of_watch (h : watch s.looks = some i) :
    explore p watch limit a s = .error i := by
  rw [explore]
  split
  · next hw => rw [h] at hw; cases hw; rfl
  · next hw => rw [h] at hw; cases hw

variable (hw : watch s.looks = none)

include hw

theorem explore_of_propagate_eq_none (h : propagate p a = none) :
    explore p watch limit a s = .ok s.look := by
  rw [explore]
  simp only [hw]
  split
  · rfl
  · next hb => rw [h] at hb; cases hb

theorem explore_of_total (h : propagate p a = some b) (hx : b.firstUndecided? = none) :
    explore p watch limit a s = .ok (record p b s.look) := by
  rw [explore]
  simp only [hw]
  split
  · next hb => rw [h] at hb; cases hb
  · next b' hb =>
    rw [h] at hb
    cases hb
    split
    · rfl
    · next hx' => rw [hx] at hx'; cases hx'

theorem explore_of_open (h : propagate p a = some b) (hx : b.firstUndecided? = some x) :
    explore p watch limit a s =
      match explore p watch limit (b.decide x false) s.look with
      | .error i => .error i
      | .ok t => if t.isFull limit then .ok t else explore p watch limit (b.decide x true) t := by
  rw [explore]
  simp only [hw]
  split
  · next hb => rw [h] at hb; cases hb
  · next b' hb =>
    rw [h] at hb
    cases hb
    split
    · next hx' => rw [hx] at hx'; cases hx'
    · next x' hx' =>
      rw [hx] at hx'
      cases hx'
      rfl

end Look

/-! ## Answers that are met -/

/-- Without interruptions, the search below an assignment meets some answers until the limit is
reached: those that refine the assignment, each once and in order. -/
structure Explores (p : NormalProgram) (a : Assignment) (answers : List Assignment) : Prop where
  ordered : answers.Pairwise Precedes
  mem_iff : ∀ b, b ∈ answers ↔ IsAnswer p b ∧ a ≤ b
  run : ∀ (limit : Nat) (s : Progress), s.isFull limit = false →
    ∃ t, explore p .quiet limit a s = .ok t ∧
      t.found.toList = upTo limit (s.found.toList ++ answers.map (answerOf p))

section Explores

variable {p : NormalProgram} {a b : Assignment} {first second : List Assignment} {x : Nat}
  (hp : p.Numbered)

include hp

/-- If propagation fails there is nothing to meet. -/
theorem Explores.conflict (h : propagate p a = none) : Explores p a [] where
  ordered := .nil
  mem_iff b := by
    apply iff_of_false List.not_mem_nil
    rintro ⟨hb, hab⟩
    obtain ⟨c, hc, -⟩ := exists_propagate_le (hb.supportedModel hp) hab
    rw [h] at hc
    cases hc
  run limit s hs := by
    refine ⟨s.look, explore_of_propagate_eq_none rfl h, ?_⟩
    rw [List.map_nil, List.append_nil, upTo_of_not_isFull hs]
    rfl

variable (h : propagate p a = some b)

include h

/-- Propagation loses no answer. -/
theorem IsAnswer.le_iff_propagate_le {c : Assignment} (hc : IsAnswer p c) : a ≤ c ↔ b ≤ c := by
  refine ⟨fun hac => ?_, fun hbc => Assignment.le_trans (le_of_propagate h) hbc⟩
  obtain ⟨b', hb', hbc⟩ := exists_propagate_le (hc.supportedModel hp) hac
  rw [h] at hb'
  cases hb'
  exact hbc

/-- If nothing is open after propagation, the outcome is the only candidate. -/
theorem Explores.total (hsize : b.values.size = p.atoms.size) (hx : b.firstUndecided? = none) :
    Explores p a (if isStable p b then [b] else []) := by
  have ht : b.IsTotal := Assignment.isTotal_iff_firstUndecided?.2 hx
  refine ⟨?_, fun c => ⟨fun hc => ?_, ?_⟩, fun limit s hs =>
    ⟨record p b s.look, explore_of_total rfl h hx, ?_⟩⟩
  · split
    · exact List.pairwise_singleton _ _
    · exact .nil
  · split at hc
    · next hs =>
      obtain rfl := List.mem_singleton.1 hc
      exact ⟨isAnswer_of_propagate hp hsize ht h hs, le_of_propagate h⟩
    · cases hc
  · rintro ⟨hc, hac⟩
    obtain rfl := Assignment.eq_of_le_of_isTotal ht ((hc.le_iff_propagate_le hp h).1 hac)
    simp [hc.stable]
  · rw [found_record]
    apply (upTo_append_singleton hs _ ?_).symm
    split <;> simp

/-- The two cases of an open atom are met one after the other. -/
theorem Explores.split (hx : b.firstUndecided? = some x)
    (hfirst : Explores p (b.decide x false) first)
    (hsecond : Explores p (b.decide x true) second) : Explores p a (first ++ second) := by
  refine ⟨List.pairwise_append.2 ⟨hfirst.ordered, hsecond.ordered, fun c hc d hd => ?_⟩,
    fun c => ?_, fun limit s hs => ?_⟩
  · exact precedes_of_decide_le hx ((hfirst.mem_iff c).1 hc).2 ((hsecond.mem_iff d).1 hd).2
  · rw [List.mem_append, hfirst.mem_iff, hsecond.mem_iff, ← and_or_left]
    apply and_congr_right
    intro hc
    rw [hc.le_iff_propagate_le hp h, le_iff_decide_le hx hc.total]
  · obtain ⟨t, ht, htfound⟩ := hfirst.run limit s.look hs
    have hlook : s.look.found.toList = s.found.toList := rfl
    rw [hlook] at htfound
    rw [explore_of_open rfl h hx, ht, List.map_append, ← List.append_assoc]
    dsimp only
    -- the second case is entered only if the first one has left room
    cases hfull : t.isFull limit with
    | true =>
      refine ⟨t, by simp, ?_⟩
      rw [upTo_append_of_isFull hfull htfound]
    | false =>
      obtain ⟨u, hu, hufound⟩ := hsecond.run limit t hfull
      refine ⟨u, by simpa using hu, ?_⟩
      rw [hufound, upTo_append_of_not_isFull hfull htfound]

end Explores

/-- The search meets all answers, by induction on the number of open atoms. -/
theorem exists_explores {p : NormalProgram} (hp : p.Numbered) (a : Assignment)
    (hsize : a.values.size = p.atoms.size) : ∃ answers, Explores p a answers := by
  induction hn : a.undecided using Nat.strongRecOn generalizing a with
  | ind n ih =>
  subst hn
  cases hprop : propagate p a with
  | none => exact ⟨[], .conflict hp hprop⟩
  | some b =>
    have hbsize : b.values.size = p.atoms.size := (le_of_propagate hprop).size.trans hsize
    cases hx : b.firstUndecided? with
    | none => exact ⟨_, .total hp hprop hbsize hx⟩
    | some x =>
      have hlt : ∀ v, (b.decide x v).undecided < a.undecided := fun v =>
        Nat.lt_of_lt_of_le (Assignment.undecided_decide_lt hx v) (propagate_undecided_le hprop)
      obtain ⟨first, hfirst⟩ := ih _ (hlt false) (b.decide x false) (by simpa using hbsize) rfl
      obtain ⟨second, hsecond⟩ := ih _ (hlt true) (b.decide x true) (by simpa using hbsize) rfl
      exact ⟨first ++ second, .split hp hprop hx hfirst hsecond⟩

end FixedDomain.AnswerSet
