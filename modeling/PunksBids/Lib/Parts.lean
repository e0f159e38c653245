import PunksBids.Lib.Text
import Mathlib.Data.Finset.Card
import Mathlib.Order.Bounds.Defs

/-!
# Parts, separators and how many there are

Joining the parts of a list with the separator gives the list back (`intercalate_split`), and no
part contains the separator (`not_infix_of_mem_split`).  The other way round, a join is split into
what was joined only if no separator can begin in one part and end in the next: a separator that
is `Unbordered` cannot overlap itself, and then the parts are recovered (`split_intercalate`) and
the separators that are found are all there are (`occursAt_iff_of_first`).

Whether or not the separator overlaps itself, taking the first occurrence, then the first after
it, and so on, finds as many disjoint occurrences as there can be (`isGreatest_length_split`):
whatever other choice there is, its first occurrence ends no earlier.
-/

set_option autoImplicit false

namespace Text

variable {α : Type} {sep s : List α} {i j k : Nat}

/-! ## Occurrences in what is left -/

theorem occursAt_drop (h : k ≤ s.length) : OccursAt sep (s.drop k) i ↔ OccursAt sep s (k + i) := by
  rw [OccursAt, OccursAt, List.length_drop, List.drop_drop]
  exact and_congr_left fun _ ↦ by omega

theorem occursAt_take_of (h : OccursAt sep (s.take k) i) : OccursAt sep s i := by
  obtain ⟨hle, heq⟩ := h
  rw [List.length_take] at hle
  refine ⟨by omega, ?_⟩
  rwa [List.drop_take, List.take_take, Nat.min_eq_left (by omega)] at heq

theorem FirstAt.le_length (h : FirstAt sep s i) : i + sep.length ≤ s.length := h.1.1

/-- Everything is reached by cutting at first occurrences until there is none. -/
theorem first_induction {P : List α → Prop} (hsep : sep ≠ [])
    (none : ∀ s, (∀ i, ¬ OccursAt sep s i) → P s)
    (first : ∀ s i, FirstAt sep s i → P (s.drop (i + sep.length)) → P s) (s : List α) : P s := by
  have hpos := List.length_pos_iff.mpr hsep
  induction hn : s.length using Nat.strongRecOn generalizing s with
  | _ n ih =>
  by_cases hocc : ∃ i, OccursAt sep s i
  · obtain ⟨i, hi⟩ := exists_firstAt hocc
    have hle := hi.le_length
    exact first s i hi (ih _ (by rw [List.length_drop]; omega) _ rfl)
  · exact none s (not_exists.mp hocc)

/-- The separator is between what is before it and what is after it. -/
theorem OccursAt.append_eq (h : OccursAt sep s i) :
    s.take i ++ (sep ++ s.drop (i + sep.length)) = s := by
  have hmid : sep ++ s.drop (i + sep.length) = s.drop i := by
    rw [← List.drop_drop]
    conv_lhs => rw [← h.2]
    rw [List.length_take_of_le (by have := h.1; rw [List.length_drop]; omega)]
    exact List.take_append_drop _ _
  rw [hmid, List.take_append_drop]

/-! ## Joining the parts -/

section Parts

variable [DecidableEq α]

/-- **Joining the parts gives the list back.** -/
theorem intercalate_split (hsep : sep ≠ []) (s : List α) :
    sep.intercalate (split sep s) = s := by
  induction s using first_induction hsep with
  | none s h => rw [split_of_none h, List.intercalate_singleton]
  | first s i h ih =>
    rw [split_of_first hsep h, List.intercalate_cons_of_ne_nil (split_ne_nil _ _), ih,
      List.append_assoc, h.1.append_eq]

/-- **No part contains the separator.** -/
theorem not_infix_of_mem_split (hsep : sep ≠ []) (s : List α) :
    ∀ part ∈ split sep s, ¬ sep <:+: part := by
  induction s using first_induction hsep with
  | none s h =>
    rw [split_of_none h]
    intro part hmem hin
    obtain rfl := List.mem_singleton.mp hmem
    obtain ⟨i, hi⟩ := infix_iff_occursAt.mp hin
    exact h i hi
  | first s i h ih =>
    rw [split_of_first hsep h]
    rintro part (_ | ⟨_, hmem⟩)
    · intro hin
      obtain ⟨j, hj⟩ := infix_iff_occursAt.mp hin
      have hle := hj.1
      have hpos := List.length_pos_iff.mpr hsep
      rw [List.length_take] at hle
      exact h.2 j (by omega) (occursAt_take_of hj)
    · exact ih part hmem

end Parts

/-! ## Separators that do not overlap themselves -/

/-- No proper end of the list is a beginning of it. -/
def Unbordered (sep : List α) : Prop :=
  ∀ k < sep.length, 0 < k → sep.drop k ≠ sep.take (sep.length - k)

instance [DecidableEq α] (sep : List α) : Decidable (Unbordered sep) := by
  unfold Unbordered
  infer_instance

/-- Two occurrences are apart. -/
theorem Unbordered.apart (hb : Unbordered sep) (hi : OccursAt sep s i) (hj : OccursAt sep s j)
    (hlt : i < j) : i + sep.length ≤ j := by
  by_contra hnot
  obtain ⟨k, rfl⟩ := Nat.exists_eq_add_of_lt hlt
  refine hb (k + 1) (by omega) (Nat.succ_pos k) ?_
  calc sep.drop (k + 1) = ((s.drop i).take sep.length).drop (k + 1) := by rw [hi.2]
    _ = (s.drop (i + k + 1)).take (sep.length - (k + 1)) := by
      rw [List.drop_take, List.drop_drop, Nat.add_assoc]
    _ = ((s.drop (i + k + 1)).take sep.length).take (sep.length - (k + 1)) := by
      rw [List.take_take, Nat.min_eq_left (Nat.sub_le _ _)]
    _ = sep.take (sep.length - (k + 1)) := by rw [hj.2]

/-- **Past the first occurrence, the others are those of the rest.** -/
theorem occursAt_iff_of_first (hb : Unbordered sep) (h : FirstAt sep s i) :
    OccursAt sep s j ↔
      j = i ∨ ∃ k, j = i + sep.length + k ∧ OccursAt sep (s.drop (i + sep.length)) k := by
  simp only [occursAt_drop h.le_length]
  constructor
  · intro hj
    rcases Nat.lt_trichotomy j i with hlt | rfl | hlt
    · exact absurd hj (h.2 j hlt)
    · exact .inl rfl
    · obtain ⟨k, rfl⟩ := Nat.exists_eq_add_of_le (hb.apart h.1 hj hlt)
      exact .inr ⟨k, rfl, hj⟩
  · rintro (rfl | ⟨k, rfl, hk⟩)
    · exact h.1
    · exact hk

/-- After a part without the separator, the separator that follows is the first. -/
theorem firstAt_append (hb : Unbordered sep) {a : List α} (ha : ¬ sep <:+: a) (s : List α) :
    FirstAt sep (a ++ (sep ++ s)) a.length := by
  have hocc : OccursAt sep (a ++ (sep ++ s)) a.length := by
    refine ⟨by simp only [List.length_append]; omega, ?_⟩
    rw [List.drop_left, List.take_left]
  refine ⟨hocc, fun j hj hj' ↦ ?_⟩
  have hle := hb.apart hj' hocc hj
  have htake := hj'.2
  rw [List.drop_append_of_le_length (by omega), List.take_append_of_le_length
    (by rw [List.length_drop]; omega)] at htake
  exact ha (infix_iff_occursAt.mpr ⟨j, hle, htake⟩)

/-- **Splitting a join gives back what was joined.** -/
theorem split_intercalate [DecidableEq α] (hsep : sep ≠ []) (hb : Unbordered sep)
    {l : List (List α)} (hne : l ≠ []) (hl : ∀ a ∈ l, ¬ sep <:+: a) :
    split sep (sep.intercalate l) = l := by
  induction l with
  | nil => exact absurd rfl hne
  | cons a l ih =>
    have ha := hl a List.mem_cons_self
    cases l with
    | nil =>
      rw [List.intercalate_singleton]
      exact split_of_none fun i hi ↦ ha (infix_iff_occursAt.mpr ⟨i, hi⟩)
    | cons b l =>
      rw [List.intercalate_cons_cons, List.append_assoc,
        split_of_first hsep (firstAt_append hb ha _), List.take_left, ← List.drop_drop,
        List.drop_left, List.drop_left,
        ih (List.cons_ne_nil _ _) fun c hc ↦ hl c (List.mem_cons_of_mem _ hc)]

/-! ## How many occurrences fit -/

/-- Places where the separator lies, no two of which overlap. -/
structure NonOverlapping (sep s : List α) (ps : Finset Nat) : Prop where
  occursAt : ∀ i ∈ ps, OccursAt sep s i
  apart : ∀ i ∈ ps, ∀ j ∈ ps, i < j → i + sep.length ≤ j

variable {ps : Finset Nat}

/-- One place more in front of places in the rest. -/
theorem NonOverlapping.extend (hsep : sep ≠ []) (h : FirstAt sep s i)
    (hps : NonOverlapping sep (s.drop (i + sep.length)) ps) :
    ∃ qs, NonOverlapping sep s qs ∧ qs.card = ps.card + 1 := by
  have hpos := List.length_pos_iff.mpr hsep
  refine ⟨insert i (ps.image (i + sep.length + ·)), ⟨?_, ?_⟩, ?_⟩
  · intro j hj
    rcases Finset.mem_insert.mp hj with rfl | hj
    · exact h.1
    · obtain ⟨k, hk, rfl⟩ := Finset.mem_image.mp hj
      exact (occursAt_drop h.le_length).mp (hps.occursAt k hk)
  · simp only [Finset.mem_insert, Finset.mem_image]
    rintro _ (rfl | ⟨j, hj, rfl⟩) _ (rfl | ⟨k, hk, rfl⟩) hlt
    · omega
    · omega
    · omega
    · have := hps.apart j hj k hk (by omega)
      omega
  · rw [Finset.card_insert_of_notMem,
      Finset.card_image_of_injective _ fun _ _ ↦ Nat.add_left_cancel]
    intro hmem
    obtain ⟨k, -, hk⟩ := Finset.mem_image.mp hmem
    omega

/-- **All places but one are in the rest**: at most one of them begins before the first occurrence
has ended. -/
theorem NonOverlapping.rest (h : FirstAt sep s i) (hps : NonOverlapping sep s ps) :
    ∃ qs, NonOverlapping sep (s.drop (i + sep.length)) qs ∧ ps.card ≤ qs.card + 1 := by
  have hge : ∀ j ∈ ps, i ≤ j := fun j hj ↦
    Nat.le_of_not_lt fun hlt ↦ h.2 j hlt (hps.occursAt j hj)
  have hearly : (ps.filter fun j ↦ ¬ i + sep.length ≤ j).card ≤ 1 := by
    refine Finset.card_le_one.mpr fun j hj k hk ↦ ?_
    obtain ⟨hj, hj'⟩ := Finset.mem_filter.mp hj
    obtain ⟨hk, hk'⟩ := Finset.mem_filter.mp hk
    have hgej := hge j hj
    have hgek := hge k hk
    rcases Nat.lt_trichotomy j k with hlt | heq | hlt
    · have := hps.apart j hj k hk hlt
      omega
    · exact heq
    · have := hps.apart k hk j hj hlt
      omega
  refine ⟨(ps.filter (i + sep.length ≤ ·)).image (· - (i + sep.length)), ⟨?_, ?_⟩, ?_⟩
  · simp only [Finset.mem_image, Finset.mem_filter]
    rintro _ ⟨j, ⟨hj, hle⟩, rfl⟩
    rw [occursAt_drop h.le_length, Nat.add_sub_cancel' hle]
    exact hps.occursAt j hj
  · simp only [Finset.mem_image, Finset.mem_filter]
    rintro _ ⟨j, ⟨hj, hle⟩, rfl⟩ _ ⟨k, ⟨hk, hle'⟩, rfl⟩ hlt
    have := hps.apart j hj k hk (by omega)
    omega
  · have hcard := Finset.card_filter_add_card_filter_not (s := ps) (i + sep.length ≤ ·)
    rw [Finset.card_image_of_injOn]
    · omega
    · intro j hj k hk hjk
      have hj := (Finset.mem_filter.mp hj).2
      have hk := (Finset.mem_filter.mp hk).2
      simp only at hjk
      omega

/-- **The first occurrence, and the first after it, and so on, are as many as there can be.** -/
theorem isGreatest_length_split [DecidableEq α] (hsep : sep ≠ []) (s : List α) :
    IsGreatest {n | ∃ ps, NonOverlapping sep s ps ∧ ps.card = n} ((split sep s).length - 1) := by
  induction s using first_induction hsep with
  | none s h =>
    rw [split_of_none h]
    refine ⟨⟨∅, ⟨by simp, by simp⟩, rfl⟩, ?_⟩
    rintro _ ⟨ps, hps, rfl⟩
    rw [Finset.eq_empty_of_forall_notMem fun i hi ↦ h i (hps.occursAt i hi)]
    exact Nat.zero_le _
  | first s i h ih =>
    have hlen := List.length_pos_iff.mpr (split_ne_nil sep (s.drop (i + sep.length)))
    rw [split_of_first hsep h, List.length_cons]
    obtain ⟨⟨ps, hps, hcard⟩, hbound⟩ := ih
    constructor
    · obtain ⟨qs, hqs, hcard'⟩ := hps.extend hsep h
      exact ⟨qs, hqs, by omega⟩
    · rintro _ ⟨ps, hps, rfl⟩
      obtain ⟨qs, hqs, hle⟩ := hps.rest h
      have := hbound ⟨qs, hqs, rfl⟩
      omega

end Text
