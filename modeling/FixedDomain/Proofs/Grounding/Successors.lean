import Mathlib.Data.Set.Card
import FixedDomain.Proofs.AnswerSet.Numbering
import FixedDomain.Proofs.Grounding.Steps

/-! # Counting successors

`related` lists the elements that a role may lead to, each with a body for it (`Reaches`). The number
of them that are reached is compared with a bound by a count literal, by constraints on one, or by
alternatives for all sets of so many (`expresses_countBodies`, `enforces_excludeCount`,
`expresses_choose`).
-/

namespace FixedDomain

/-! ## Sublists of a length -/

theorem mem_choose {α : Type} {n : Nat} {xs ys : List α} :
    ys ∈ choose n xs ↔ ys.Sublist xs ∧ ys.length = n := by
  induction xs generalizing n ys with
  | nil => cases n <;> cases ys <;> simp [choose]
  | cons x xs ih =>
    cases n with
    | zero =>
      simp only [choose, List.mem_singleton, List.length_eq_zero_iff]
      exact ⟨fun h => ⟨h ▸ List.nil_sublist _, h⟩, fun h => h.2⟩
    | succ n =>
      simp only [choose]
      split
      · next hlt =>
        apply iff_of_false List.not_mem_nil
        rintro ⟨hsub, hlen⟩
        have := hsub.length_le
        rw [List.length_cons] at this
        omega
      · simp only [List.mem_append, List.mem_map, ih, List.sublist_cons_iff]
        constructor
        · rintro (⟨zs, ⟨hsub, rfl⟩, rfl⟩ | ⟨hsub, hlen⟩)
          · exact ⟨.inr ⟨zs, rfl, hsub⟩, rfl⟩
          · exact ⟨.inl hsub, hlen⟩
        · rintro ⟨hsub | ⟨zs, rfl, hsub⟩, hlen⟩
          · exact .inr ⟨hsub, hlen⟩
          · exact .inl ⟨zs, ⟨hsub, by simpa using hlen⟩, rfl⟩

/-- Some sublist of a length has only members that pass a test if so many members pass it. -/
theorem exists_choose_iff {α : Type} {n : Nat} {xs : List α} {P : α → Prop} [DecidablePred P] :
    (∃ ys ∈ choose n xs, ∀ y ∈ ys, P y) ↔ n ≤ (xs.filter P).length := by
  constructor
  · rintro ⟨ys, hys, hall⟩
    obtain ⟨hsub, rfl⟩ := mem_choose.1 hys
    have hfilter : ys.filter P = ys := List.filter_eq_self.2 (by simpa using hall)
    rw [← hfilter]
    exact (hsub.filter _).length_le
  · intro hle
    refine ⟨(xs.filter P).take n, mem_choose.2 ⟨?_, ?_⟩, fun y hy => ?_⟩
    · exact (List.take_sublist n _).trans List.filter_sublist
    · exact List.length_take_of_le hle
    · simpa using (List.mem_filter.1 (List.mem_of_mem_take hy)).2

namespace Context

/-! ## Elements that are reached -/

/-- The elements that a role leads to from an element and that satisfy a condition. -/
def reached (c : Context) (r : Role) (x : Element) (ψ : Element → Sentence)
    (I : Evaluation Individual) : Set Element :=
  {y | y ∈ c.elements ∧ I.Leads r x.individual y.individual ∧ ψ y I}

/-- A list of elements with bodies, where a body is true if the element is reached, and no element
is reached that is not listed. -/
structure Reaches (c : Context) (r : Role) (x : Element) (ψ : Element → Sentence)
    (successors : List (Element × Body)) : Prop where
  sublist : (successors.map (·.1)).Sublist c.elements
  decides : ∀ s ∈ successors,
    c.Decides (fun I => I.Leads r x.individual s.1.individual ∧ ψ s.1 I) (some s.2)
  others : ∀ y ∈ c.elements, y ∉ successors.map (·.1) → ∀ I S, c.Describes I S → ¬ ψ y I

variable {c : Context} {r : Role} {x : Element} {ψ : Element → Sentence}
  {successors : List (Element × Body)} {I : Evaluation Individual} {S D : Set Atom}

theorem reached_finite : (c.reached r x ψ I).Finite :=
  c.elements.finite_toSet.subset fun _ h => h.1

/-- The successors of an evaluation are the individuals of the elements that are reached. -/
theorem Describes.encard_successors (h : c.Describes I S) (hc : c.Ready) {d : ClassExpression} :
    (I.successors r d x.individual).encard =
      ((c.reached r x (fun y I => I.Member d y.individual) I).ncard : ℕ∞) := by
  have himage : I.successors r d x.individual =
      (·.individual) '' c.reached r x (fun y I => I.Member d y.individual) I := by
    ext i
    constructor
    · rintro ⟨hi, hr, hd⟩
      obtain ⟨y, hy, rfl⟩ := h.mem_domain.1 hi
      exact ⟨y, ⟨hy, hr, hd⟩, rfl⟩
    · rintro ⟨y, ⟨hy, hr, hd⟩, rfl⟩
      exact ⟨h.mem_domain.2 ⟨y, hy, rfl⟩, hr, hd⟩
  have hinj : Set.InjOn (·.individual) (c.reached r x (fun y I => I.Member d y.individual) I) :=
    fun y hy z hz hyz => hc.eq_of_individual_eq hy.1 hz.1 hyz
  rw [himage, hinj.encard_image, reached_finite.cast_ncard_eq]

namespace Reaches

theorem mono {c' : Context} (hle : c ≤ c') (h : c.Reaches r x ψ successors) :
    c'.Reaches r x ψ successors where
  sublist := hle.elements ▸ h.sublist
  decides s hs := (h.decides s hs).mono hle
  others y hy hn I S hS := h.others y (hle.elements ▸ hy) hn I S (hS.anti hle)

variable (h : c.Reaches r x ψ successors) (hS : c.Describes I S)

include h hS

/-- The elements that are reached are those whose body is true. -/
theorem mem_reached_iff {y : Element} : y ∈ c.reached r x ψ I ↔
    ∃ s ∈ successors, s.1 = y ∧ I.Leads r x.individual y.individual ∧ ψ y I := by
  constructor
  · rintro ⟨hy, hr, hψ⟩
    by_contra hno
    refine h.others y hy (fun hmem => ?_) I S hS hψ
    obtain ⟨s, hs, rfl⟩ := List.mem_map.1 hmem
    exact hno ⟨s, hs, rfl, hr, hψ⟩
  · rintro ⟨s, hs, rfl, hr, hψ⟩
    exact ⟨h.sublist.subset (List.mem_map_of_mem hs), hr, hψ⟩

/-- Exactly the reached elements are counted. -/
theorem ncard_counted (hc : c.Ready) (hD : c.Describes I D) (gains : Bool) :
    (counted (Literal.InCondition gains S D) (Grounding.countElements successors)).ncard =
      (c.reached r x ψ I).ncard := by
  -- elements of a count are told apart by their terms, which are constants of elements
  have himage : counted (Literal.InCondition gains S D) (Grounding.countElements successors) =
      (fun y => [y.constant]) '' c.reached r x ψ I := by
    ext terms
    simp only [counted, Grounding.countElements, Set.mem_ofPred_eq, List.mem_map, Set.mem_image,
      h.mem_reached_iff hS]
    constructor
    · rintro ⟨_, ⟨s, hs, rfl⟩, rfl, hb⟩
      exact ⟨s.1, ⟨s, hs, rfl, ((h.decides s hs).inCondition_iff hS hD gains).1 hb⟩, rfl⟩
    · rintro ⟨_, ⟨s, hs, rfl, hreached⟩, rfl⟩
      exact ⟨_, ⟨s, hs, rfl⟩, rfl, ((h.decides s hs).inCondition_iff hS hD gains).2 hreached⟩
  rw [himage]
  apply Set.InjOn.ncard_image
  intro y hy z hz hyz
  exact hc.eq_of_constant_eq hy.1 hz.1 (List.singleton_injective hyz)

/-- The number of reached elements is the number of bodies that are true. -/
theorem ncard_reached (hc : c.Ready) (hD : c.Describes I D) [DecidablePred (BodyHolds S D)] :
    (c.reached r x ψ I).ncard = ((successors.map (·.2)).filter (BodyHolds S D)).length := by
  classical
  -- no element is listed twice, so bodies are counted as elements are
  let held := (successors.filter fun s => BodyHolds S D s.2).map (·.1)
  have hheld : held.Nodup :=
    (hc.nodup_elements.sublist h.sublist).sublist (List.filter_sublist.map _)
  have hset : c.reached r x ψ I = held.toFinset := by
    ext y
    simp only [h.mem_reached_iff hS, held, List.coe_toFinset, Set.mem_ofPred_eq, List.mem_map,
      List.mem_filter, decide_eq_true_eq]
    constructor
    · rintro ⟨s, hs, rfl, hreached⟩
      refine ⟨s, ⟨hs, ?_⟩, rfl⟩
      simpa using ((h.decides s hs).expresses.iff I S D hS hD).2 hreached
    · rintro ⟨s, ⟨hs, hb⟩, rfl⟩
      exact ⟨s, hs, rfl, ((h.decides s hs).expresses.iff I S D hS hD).1 ⟨s.2, by simp, hb⟩⟩
  rw [hset, Set.ncard_coe_finset, List.toFinset_card_of_nodup hheld, List.filter_map,
    List.length_map, List.length_map]
  rfl

end Reaches

/-! ## Comparisons -/

variable (hc : c.Ready) (h : c.Reaches r x ψ successors)

include h

/-- Without possible successors none is reached. -/
theorem ncard_reached_of_isEmpty (hempty : successors.isEmpty = true) (hS : c.Describes I S) :
    (c.reached r x ψ I).ncard = 0 := by
  have hnone : c.reached r x ψ I = ∅ := by
    ext y
    simp [h.mem_reached_iff hS, List.isEmpty_iff.1 hempty]
  rw [hnone, Set.ncard_empty]

theorem isNested_count (op : Comparison) (bound : Nat) :
    (Literal.count (Grounding.countElements successors) op bound).isNested = false := by
  simp only [Literal.isNested, List.any_eq_false, List.any_eq_true, not_exists, not_and]
  intro e he l hl
  obtain ⟨s, hs, rfl⟩ := List.mem_map.1 he
  simpa using (h.decides s hs).plain s.2 rfl l hl

theorem names_of_mem_atoms_count {op : Comparison} {bound : Nat} {a : Atom}
    (ha : a ∈ (Literal.count (Grounding.countElements successors) op bound).atoms) : c.Names a := by
  rw [Literal.atoms] at ha
  obtain ⟨e, he, ha⟩ := CountElement.mem_atomsList.1 ha
  obtain ⟨s, hs, rfl⟩ := List.mem_map.1 he
  obtain ⟨l, hl, ha⟩ := Literal.mem_atomsList.1 ha
  exact (h.decides s hs).expresses.named s.2 (by simp) l hl a ha

include hc

/-- A count literal says how many elements are reached. -/
theorem expresses_count (op : Comparison) (bound : Nat) :
    c.Expresses (fun I => op.holds (c.reached r x ψ I).ncard bound = true)
      [[.count (Grounding.countElements successors) op bound]] := by
  refine Expresses.single (fun l hl a ha => ?_) (fun l hl => ?_) (fun l hl I S D hS hD => ?_)
    fun I S D hS hD => ?_
  · obtain rfl := List.mem_singleton.1 hl
    exact names_of_mem_atoms_count h ha
  · obtain rfl := List.mem_singleton.1 hl
    exact isNested_count h op bound
  · -- the same elements are counted, wherever the conditions are read
    obtain rfl := List.mem_singleton.1 hl
    simp [Literal.InReduct, Literal.InSubmodel, h.ncard_counted hS hc hD]
  · simp [Literal.InReduct, h.ncard_counted hS hc hD]

theorem expresses_countBodies (op : Comparison) (bound : Nat) :
    c.Expresses (fun I => op.holds (c.reached r x ψ I).ncard bound = true)
      (Grounding.countBodies successors op bound) := by
  unfold Grounding.countBodies
  split
  · next hempty =>
    split
    · next hop =>
      exact Expresses.always.congr fun I S hS => by
        simp [ncard_reached_of_isEmpty h hempty hS, hop]
    · next hop =>
      exact Expresses.never.congr fun I S hS => by
        simp [ncard_reached_of_isEmpty h hempty hS, hop]
  · exact expresses_count hc h op bound

/-- A body is excluded together with a comparison for the number of reached elements. -/
theorem enforces_excludeCount {φ : Sentence} {body : Body} (hb : c.Expresses φ [body])
    (op : Comparison) (bound : Nat) :
    c.Enforces (fun I => φ I → op.holds (c.reached r x ψ I).ncard bound = false)
      (Grounding.excludeCount successors body op bound) := by
  unfold Grounding.excludeCount
  split
  · next hempty =>
    split
    · next hop =>
      exact (Enforces.constraint hb).congr fun I S hS => by
        simp [ncard_reached_of_isEmpty h hempty hS, hop]
    · next hop =>
      exact Enforces.nil.congr fun I S hS => by
        simp [ncard_reached_of_isEmpty h hempty hS, hop]
  · exact (Enforces.constraint (hb.and (expresses_count hc h op bound))).congr fun I S hS => by
      simp

/-- One of the sets of so many bodies is true if at least so many elements are reached. -/
theorem expresses_choose (n : Nat) :
    c.Expresses (fun I => n ≤ (c.reached r x ψ I).ncard)
      ((choose n (successors.map (·.2))).map List.flatten) := by
  refine ⟨fun b hb l hl => ?_, fun b hb l hl => ?_, fun b hb l hl => ?_,
    fun b hb I S D S' D' hS hD hS' hD' hold l hl => ?_, fun I S D hS hD => ?_⟩
  · obtain ⟨ys, hys, rfl⟩ := List.mem_map.1 hb
    obtain ⟨b, hb, hl⟩ := List.mem_flatten.1 hl
    obtain ⟨s, hs, rfl⟩ := List.mem_map.1 ((mem_choose.1 hys).1.subset hb)
    exact (h.decides s hs).expresses.named s.2 (by simp) l hl
  · obtain ⟨ys, hys, rfl⟩ := List.mem_map.1 hb
    obtain ⟨b, hb, hl⟩ := List.mem_flatten.1 hl
    obtain ⟨s, hs, rfl⟩ := List.mem_map.1 ((mem_choose.1 hys).1.subset hb)
    exact (h.decides s hs).expresses.unnested s.2 (by simp) l hl
  · obtain ⟨ys, hys, rfl⟩ := List.mem_map.1 hb
    obtain ⟨b, hb, hl⟩ := List.mem_flatten.1 hl
    obtain ⟨s, hs, rfl⟩ := List.mem_map.1 ((mem_choose.1 hys).1.subset hb)
    exact (h.decides s hs).expresses.submodel s.2 (by simp) l hl
  · obtain ⟨ys, hys, rfl⟩ := List.mem_map.1 hb
    obtain ⟨b, hb, hlb⟩ := List.mem_flatten.1 hl
    obtain ⟨s, hs, rfl⟩ := List.mem_map.1 ((mem_choose.1 hys).1.subset hb)
    refine (h.decides s hs).expresses.determined s.2 (by simp) I S D S' D' hS hD hS' hD' ?_ l hlb
    exact fun l' hl' => hold l' (List.mem_flatten.2 ⟨s.2, hb, hl'⟩)
  · classical
    rw [h.ncard_reached hS hc hD, ← exists_choose_iff]
    have hflatten : ∀ ys : List Body,
        BodyHolds S D ys.flatten ↔ ∀ b ∈ ys, BodyHolds S D b := by
      intro ys
      simp only [BodyHolds, List.mem_flatten]
      constructor
      · exact fun hall b hb l hl => hall l ⟨b, hb, hl⟩
      · rintro hall l ⟨b, hb, hl⟩
        exact hall b hb l hl
    simp only [List.mem_map, exists_exists_and_eq_and, hflatten]

omit hc in
/-- One of the bodies is true if an element is reached. -/
theorem expresses_bodies :
    c.Expresses (fun I => (c.reached r x ψ I).Nonempty) (successors.map (·.2)) := by
  have hlist : List.Forall₂ (fun (s : Element × Body) b =>
      c.Expresses (fun I => I.Leads r x.individual s.1.individual ∧ ψ s.1 I) [b])
      successors (successors.map (·.2)) :=
    List.forall₂_map_right_iff.2 (List.forall₂_same.2 fun s hs => (h.decides s hs).expresses)
  apply (Expresses.list hlist).congr
  intro I S hS
  simp only [Set.Nonempty, h.mem_reached_iff hS]
  constructor
  · rintro ⟨s, hs, hreached⟩
    exact ⟨s.1, s, hs, rfl, hreached⟩
  · rintro ⟨_, s, hs, rfl, hreached⟩
    exact ⟨s, hs, hreached⟩

end Context

/-! ## Listing successors -/

namespace Grounding

variable {V : Set Entity} {c : Context}

/-- What is known of one item of the list of successors. -/
def ReachesOne (c : Context) (r : Role) (x : Element) (ψ : Element → Sentence) (y : Element)
    (found : Option (Element × Body)) : Prop :=
  (∀ s ∈ found, s.1 = y ∧
    c.Decides (fun I => I.Leads r x.individual y.individual ∧ ψ y I) (some s.2)) ∧
  (found = none → ∀ I S, c.Describes I S → ¬ ψ y I)

theorem reaches_filterMap {r : Role} {x : Element} {ψ : Element → Sentence}
    {found : List (Option (Element × Body))}
    (h : List.Forall₂ (ReachesOne c r x ψ) c.elements found) :
    c.Reaches r x ψ (found.filterMap id) := by
  have hsublist : ∀ {ys : List Element} {found : List (Option (Element × Body))},
      List.Forall₂ (ReachesOne c r x ψ) ys found →
      ((found.filterMap id).map (·.1)).Sublist ys := by
    intro ys found h
    induction h with
    | nil => exact .slnil
    | @cons y s _ _ hs _ ih =>
      cases s with
      | none => exact ih.cons y
      | some s =>
        obtain ⟨hfst, -⟩ := hs.1 s rfl
        simpa [hfst] using ih.cons_cons y
  refine ⟨hsublist h, fun s hs => ?_, fun y hy hn I S hS => ?_⟩
  · obtain ⟨o, ho, hos⟩ := List.mem_filterMap.1 hs
    obtain ⟨y, -, hy⟩ := exists_left_of_forall₂ h ho
    obtain ⟨rfl, hd⟩ := hy.1 s hos
    exact hd
  · obtain ⟨o, ho, hone⟩ := exists_right_of_forall₂ h hy
    cases o with
    | none => exact hone.2 rfl I S hS
    | some s =>
      refine absurd ?_ hn
      exact List.mem_map.2 ⟨s, List.mem_filterMap.2 ⟨some s, ho, rfl⟩, (hone.1 s rfl).1⟩

theorem related_meets {r : Role} {x : Element} {ψ : Element → Sentence}
    {fillerBody : Element → Grounding (Option Body)} (hc : c.Ready)
    (hr : .objectProperty r.property ∈ V) (hx : x ∈ c.elements)
    (hfiller : ∀ y ∈ c.elements, ∀ c', c.Grows V c' →
      Meets V (fillerBody y) c' fun c' body => c'.Decides (ψ y) body) :
    Meets V (related r x fillerBody) c fun c' successors => c'.Reaches r x ψ successors := by
  refine .get ?_
  refine (Meets.mapM (χ := fun y c' found => ReachesOne c' r x ψ y found) hc ?_
    fun y hy c₁ h₁ => ?_).map fun found c₁ h₁ hfound => ?_
  · rintro y found c₁ c₂ h₁ ⟨hsome, hnone⟩
    exact ⟨fun s hs => ⟨(hsome s hs).1, (hsome s hs).2.mono h₁.le⟩,
      fun hn I S hS => hnone hn I S (hS.anti h₁.le)⟩
  · apply (hfiller y hy c₁ h₁).bind
    intro body c₂ h₂ hbody
    -- an element that cannot be in the filler is not listed
    cases body with
    | none =>
      exact .pure h₂.ready ⟨fun _ hs => (by cases hs), fun _ I S hS => hbody.not_of_none hS⟩
    | some body =>
      have hle := Context.le_trans h₁.le h₂.le
      refine (roleAtom_meets h₂.ready hr (hle.elements ▸ hx) (hle.elements ▸ hy)).map
        fun a c₃ h₃ ha => ⟨fun s hs => ?_, fun hn => by cases hn⟩
      cases hs
      exact ⟨rfl, (Context.Decides.pos ha).and (hbody.mono h₃.le)⟩
  · exact reaches_filterMap (h₁.le.elements ▸ hfound)

end Grounding

end FixedDomain
