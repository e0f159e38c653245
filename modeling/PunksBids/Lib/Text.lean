import Mathlib.Data.List.Infix
import Mathlib.Data.Nat.Find

/-!
# Occurrences and splitting

What it means for one list to occur in another at a position, and the list of parts that is left
when the occurrences of a separator are cut out from left to right.  Nothing here is about bytes or
memory: this is the vocabulary in which a search or a splitter is specified.

`split` reads the list once and skips over a separator it has found, so it runs; what is used of it
is that it cuts at the first occurrence (`split_of_first`) and nowhere if there is none
(`split_of_none`).
-/

set_option autoImplicit false

namespace Text

variable {α : Type} {needle s : List α} {a : α} {i : Nat}

/-! ## Occurrences -/

/-- The needle lies in `s` from position `i` on. -/
def OccursAt (needle s : List α) (i : Nat) : Prop :=
  i + needle.length ≤ s.length ∧ (s.drop i).take needle.length = needle

/-- The needle lies in `s` at `i` and nowhere before. -/
def FirstAt (needle s : List α) (i : Nat) : Prop :=
  OccursAt needle s i ∧ ∀ j < i, ¬ OccursAt needle s j

/-- The needle lies in `s` at `i` and nowhere after. -/
def LastAt (needle s : List α) (i : Nat) : Prop :=
  OccursAt needle s i ∧ ∀ j, i < j → ¬ OccursAt needle s j

theorem occursAt_zero : OccursAt needle s 0 ↔ needle <+: s := by
  rw [OccursAt, List.prefix_iff_eq_take, List.drop_zero, Nat.zero_add]
  refine ⟨fun h ↦ h.2.symm, fun h ↦ ⟨?_, h.symm⟩⟩
  have hlen := congrArg List.length h
  rw [List.length_take] at hlen
  omega

@[simp] theorem occursAt_cons_succ : OccursAt needle (a :: s) (i + 1) ↔ OccursAt needle s i := by
  simp [OccursAt, Nat.add_right_comm]

theorem not_occursAt_nil (h : needle ≠ []) : ¬ OccursAt needle [] i := by
  have := List.length_pos_iff.mpr h
  simp only [OccursAt, List.length_nil]
  omega

/-- A contiguous part of a list is one that occurs somewhere. -/
theorem infix_iff_occursAt : needle <:+: s ↔ ∃ i, OccursAt needle s i := by
  constructor
  · rintro ⟨u, v, rfl⟩
    refine ⟨u.length, ?_, ?_⟩
    · simp only [List.length_append]
      omega
    · rw [List.append_assoc, List.drop_left, List.take_left]
  · rintro ⟨i, -, h⟩
    exact h ▸ (List.take_prefix _ _).isInfix.trans (List.drop_suffix _ _).isInfix

/-- What occurs has a first occurrence. -/
theorem exists_firstAt (h : ∃ i, OccursAt needle s i) : ∃ i, FirstAt needle s i := by
  classical
  exact ⟨Nat.find h, Nat.find_spec h, fun j hj ↦ Nat.find_min h hj⟩

/-- What occurs has a last occurrence. -/
theorem exists_lastAt (h : ∃ i, OccursAt needle s i) : ∃ i, LastAt needle s i := by
  classical
  obtain ⟨i, hi⟩ := h
  have hbound : ∀ j, OccursAt needle s j → j ≤ s.length := fun j hj ↦ by have := hj.1; omega
  refine ⟨Nat.findGreatest (OccursAt needle s) s.length,
    Nat.findGreatest_spec (hbound i hi) hi, fun j hj hocc ↦ ?_⟩
  exact absurd (Nat.le_findGreatest (hbound j hocc) hocc) (by omega)

theorem firstAt_cons_succ (h : FirstAt needle (a :: s) (i + 1)) : FirstAt needle s i :=
  ⟨occursAt_cons_succ.mp h.1,
    fun j hj hocc ↦ h.2 (j + 1) (by omega) (occursAt_cons_succ.mpr hocc)⟩

/-! ## Splitting -/

variable [DecidableEq α]

/-- The parts of a list between the separators, after `skip` more elements. -/
def splitAfter (sep : List α) : Nat → List α → List (List α)
  | _, [] => [[]]
  | skip + 1, _ :: s => splitAfter sep skip s
  | 0, a :: s =>
    if sep <+: a :: s then [] :: splitAfter sep (sep.length - 1) s
    else (splitAfter sep 0 s).modifyHead (a :: ·)

/-- The parts of a list between the separators, found from left to right. -/
def split (sep s : List α) : List (List α) := splitAfter sep 0 s

variable {sep : List α}

theorem splitAfter_eq (skip : Nat) (s : List α) :
    splitAfter sep skip s = split sep (s.drop skip) := by
  induction s generalizing skip with
  | nil => simp [split, splitAfter]
  | cons a s ih =>
    cases skip with
    | zero => rfl
    | succ skip => exact ih skip

@[simp] theorem split_nil : split sep [] = [[]] := rfl

theorem split_of_starts (hsep : sep ≠ []) (h : sep <+: s) :
    split sep s = [] :: split sep (s.drop sep.length) := by
  cases s with
  | nil => exact absurd (List.prefix_nil.mp h) hsep
  | cons a s =>
    obtain ⟨n, hn⟩ := Nat.exists_eq_succ_of_ne_zero (List.length_pos_iff.mpr hsep).ne'
    rw [split, splitAfter, if_pos h, splitAfter_eq, hn]
    rfl

theorem split_cons (h : ¬ sep <+: a :: s) :
    split sep (a :: s) = (split sep s).modifyHead (a :: ·) := by
  rw [split, splitAfter, if_neg h]
  rfl

/-- **The first part ends at the first separator**, and the others are those of the rest. -/
theorem split_of_first (hsep : sep ≠ []) (h : FirstAt sep s i) :
    split sep s = s.take i :: split sep (s.drop (i + sep.length)) := by
  induction s generalizing i with
  | nil => exact absurd h.1 (not_occursAt_nil hsep)
  | cons a s ih =>
    cases i with
    | zero =>
      rw [split_of_starts hsep (occursAt_zero.mp h.1), Nat.zero_add]
      rfl
    | succ i =>
      have hnot : ¬ sep <+: a :: s := fun hp ↦ h.2 0 (Nat.succ_pos i) (occursAt_zero.mpr hp)
      rw [split_cons hnot, ih (firstAt_cons_succ h), Nat.add_right_comm]
      rfl

/-- Without a separator there is one part. -/
theorem split_of_none (h : ∀ i, ¬ OccursAt sep s i) : split sep s = [s] := by
  induction s with
  | nil => rfl
  | cons a s ih =>
    have hnot : ¬ sep <+: a :: s := fun hp ↦ h 0 (occursAt_zero.mpr hp)
    rw [split_cons hnot, ih fun i hi ↦ h (i + 1) (occursAt_cons_succ.mpr hi)]
    rfl

theorem split_ne_nil (sep s : List α) : split sep s ≠ [] := by
  by_cases hsep : sep = []
  · subst hsep
    cases s with
    | nil => simp
    | cons a s => simp [split, splitAfter]
  · by_cases h : ∃ i, OccursAt sep s i
    · obtain ⟨i, hi⟩ := exists_firstAt h
      rw [split_of_first hsep hi]
      exact List.cons_ne_nil _ _
    · rw [split_of_none (not_exists.mp h)]
      exact List.cons_ne_nil _ _

/-- There is at most one part more than there are elements. -/
theorem length_split_le (sep s : List α) : (split sep s).length ≤ s.length + 1 := by
  have haux : ∀ skip, (splitAfter sep skip s).length ≤ s.length + 1 := by
    induction s with
    | nil => simp [splitAfter]
    | cons a s ih =>
      intro skip
      cases skip with
      | succ skip => exact Nat.le_succ_of_le (ih skip)
      | zero =>
        rw [splitAfter]
        split
        · exact Nat.succ_le_succ (ih _)
        · rw [List.length_modifyHead]
          exact Nat.le_succ_of_le (ih 0)
  exact haux 0

end Text
