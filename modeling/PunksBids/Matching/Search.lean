import PunksBids.Contract.StringUtils
import PunksBids.Lib.Text

/-!
# What the searches compute

`Slice.text` is the text a slice stands for, and the searches are specified by the texts of their
arguments: `findPtr` finds the first occurrence, `rfindPtr` the last one, and `contains` asks
whether there is one.  The words that are loaded reach past the slices; under the mask they are
compared by the bytes of the slices alone (`Memory.mload_and_mask_eq_iff`), which is why no theorem
here mentions what lies around.

A needle of at most 32 bytes is searched for by masked words, a longer one by its hash.  `Passes`
is what either loop takes for the needle, so that the two are one search, for the first or last
place that passes; a text is `Searchable` when nothing else in it passes, and if it is not there
are two strings with one hash (`searchable_or_collision`).
-/

set_option autoImplicit false

namespace PunksBids

open Evm Text

namespace StringUtils

/-- The text of a slice. -/
def Slice.text (m : Memory) (s : Slice) : Bytes := m.read s.ptr s.len

variable {m : Memory}

@[simp] theorem Slice.length_text (s : Slice) : (s.text m).length = s.len := m.length_read _ _

/-- The slice lies between two addresses. -/
structure Slice.Within (s : Slice) (lo hi : Nat) : Prop where
  lo_le : lo ≤ s.ptr
  le_hi : s.ptr + s.len ≤ hi

/-! ## Masks -/

theorem complementMask_eq {n : Nat} (h : n < 32) :
    complementMask n = .ok (Memory.mask (8 * n)) := by
  have hmul : checkedMul 8 n = .ok (8 * n) := checkedMul_eq_ok.mpr ⟨by rw [wordSize]; omega, rfl⟩
  have hlt : 2 ^ (8 * n) < wordSize := Nat.pow_lt_pow_right (by decide) (by omega)
  rw [complementMask, hmul, Except.ok_bind, checkedPow_ok hlt, Except.ok_bind,
    checkedSub_ok Nat.one_le_two_pow]
  rfl

/-- The mask of a needle of at most 32 bytes. -/
theorem needleMask_eq {n : Nat} (h : n ≤ 32) : needleMask n = .ok (Memory.mask (8 * (32 - n))) := by
  by_cases hn : n = 0
  · subst hn
    decide
  · rw [needleMask, if_pos hn, checkedSub_ok h, Except.ok_bind, complementMask_eq (by omega)]

/-! ## Occurrences in memory -/

theorem occursAt_read {p n q k i : Nat} :
    OccursAt (m.read q k) (m.read p n) i ↔ i + k ≤ n ∧ m.read (p + i) k = m.read q k := by
  rw [OccursAt, Memory.length_read, Memory.length_read]
  refine and_congr_right fun h ↦ ?_
  rw [m.read_drop (by omega), m.read_take (by omega)]

theorem read_infix_read {p n k i : Nat} (h : i + k ≤ n) : m.read (p + i) k <:+: m.read p n :=
  infix_iff_occursAt.mpr ⟨i, occursAt_read.mpr (by simpa using h)⟩

/-! ## What a search takes for the needle -/

/-- A search takes this text for the needle: a needle longer than a word is known by its hash. -/
def Passes (needle part : Bytes) : Prop :=
  if needle.length ≤ 32 then part = needle else keccak256 needle = keccak256 part

instance (needle part : Bytes) : Decidable (Passes needle part) := by
  unfold Passes
  infer_instance

/-- Nothing in the text passes for the needle but the needle. -/
def Searchable (needle s : Bytes) : Prop :=
  ∀ part, part <:+: s → part.length = needle.length → Passes needle part → part = needle

theorem passes_self (needle : Bytes) : Passes needle needle := by
  simp [Passes]

section Searchable

variable {needle s t : Bytes}

theorem Searchable.mono (h : Searchable needle s) (ht : t <:+: s) : Searchable needle t :=
  fun part hpart ↦ h part (hpart.trans ht)

theorem searchable_of_le (h : needle.length ≤ 32) : Searchable needle s :=
  fun _ _ _ hpass ↦ by rwa [Passes, if_pos h] at hpass

theorem searchable_of_lt (h : s.length < needle.length) : Searchable needle s := by
  intro part hpart hlen _
  have := hpart.length_le
  omega

/-- **A search is right, or there are two strings with one hash.** -/
theorem searchable_or_collision (needle s : Bytes) :
    Searchable needle s ∨
      32 < needle.length ∧ ∃ part, part <:+: s ∧ Collision [needle] [part] := by
  by_cases h : Searchable needle s
  · exact .inl h
  · simp only [Searchable, not_forall] at h
    obtain ⟨part, hpart, -, hpass, hne⟩ := h
    have hlong : ¬ needle.length ≤ 32 := fun hle ↦ by
      rw [Passes, if_pos hle] at hpass
      exact hne hpass
    rw [Passes, if_neg hlong] at hpass
    exact .inr ⟨Nat.lt_of_not_le hlong, part, hpart, (needle, part), by simp, Ne.symm hne, hpass⟩

end Searchable

/-! ## `findPtr` -/

theorem findPtrMasked_of_hit {mask needledata : Uint256} {selflen selfptr last ptr i : Nat}
    (hlast : last < wordSize) (hle : ptr + i ≤ last)
    (hhit : m.mload (ptr + i) &&& mask = needledata)
    (hmiss : ∀ j < i, m.mload (ptr + j) &&& mask ≠ needledata) :
    findPtrMasked m mask needledata selflen selfptr last ptr = .ok (ptr + i) := by
  induction i generalizing ptr with
  | zero =>
    rw [Nat.add_zero] at hhit
    rw [findPtrMasked, if_pos hhit]
    rfl
  | succ i ih =>
    have hmiss₀ : ¬ m.mload ptr &&& mask = needledata := hmiss 0 (Nat.succ_pos i)
    rw [findPtrMasked, if_neg hmiss₀, dif_neg (by omega), checkedAdd_ok (by omega), Except.ok_bind]
    rw [Nat.add_comm i 1, ← Nat.add_assoc] at hle hhit ⊢
    refine ih hle hhit fun j hj ↦ ?_
    rw [Nat.add_assoc, Nat.add_comm 1 j]
    exact hmiss (j + 1) (by omega)

theorem findPtrMasked_of_miss {mask needledata : Uint256} {selflen selfptr last ptr : Nat}
    (hlast : last < wordSize) (hend : selfptr + selflen < wordSize) (hle : ptr ≤ last)
    (hmiss : ∀ q, ptr ≤ q → q ≤ last → m.mload q &&& mask ≠ needledata) :
    findPtrMasked m mask needledata selflen selfptr last ptr = .ok (selfptr + selflen) := by
  obtain ⟨d, rfl⟩ := Nat.exists_eq_add_of_le hle
  induction d generalizing ptr with
  | zero =>
    rw [findPtrMasked, if_neg (hmiss ptr (Nat.le_refl _) hle), dif_pos (by omega),
      checkedAdd_ok hend]
  | succ d ih =>
    rw [findPtrMasked, if_neg (hmiss ptr (Nat.le_refl _) hle), dif_neg (by omega),
      checkedAdd_ok (by omega), Except.ok_bind]
    rw [Nat.add_comm d 1, ← Nat.add_assoc] at hlast hmiss ⊢
    exact ih hlast (Nat.le_add_right _ _) fun q hq ↦ hmiss q (by omega)

theorem findPtrHashed_of_hit {hash : Bytes32} {selflen selfptr needlelen last idx ptr i : Nat}
    (hlast : last < wordSize) (hptr : ptr + i < wordSize) (hle : idx + i ≤ last)
    (hhit : hash = keccak256 (m.read (ptr + i) needlelen))
    (hmiss : ∀ j < i, hash ≠ keccak256 (m.read (ptr + j) needlelen)) :
    findPtrHashed m hash selflen selfptr needlelen last idx ptr = .ok (ptr + i) := by
  induction i generalizing idx ptr with
  | zero =>
    rw [Nat.add_zero] at hhit
    rw [findPtrHashed, dif_pos (by omega), if_pos hhit]
    rfl
  | succ i ih =>
    have hmiss₀ : ¬ hash = keccak256 (m.read ptr needlelen) := hmiss 0 (Nat.succ_pos i)
    rw [findPtrHashed, dif_pos (by omega), if_neg hmiss₀, checkedAdd_ok (by omega), Except.ok_bind,
      checkedAdd_ok (by omega), Except.ok_bind]
    rw [Nat.add_comm i 1, ← Nat.add_assoc] at hptr hle hhit ⊢
    refine ih hptr hle hhit fun j hj ↦ ?_
    rw [Nat.add_assoc, Nat.add_comm 1 j]
    exact hmiss (j + 1) (by omega)

/-- The loop over the `d` positions that are left. -/
theorem findPtrHashed_of_miss {hash : Bytes32} {selflen selfptr needlelen last idx ptr d : Nat}
    (hlast : last + 1 < wordSize) (hend : selfptr + selflen < wordSize)
    (hptr : ptr + d < wordSize) (hd : idx + d = last + 1)
    (hmiss : ∀ j < d, hash ≠ keccak256 (m.read (ptr + j) needlelen)) :
    findPtrHashed m hash selflen selfptr needlelen last idx ptr = .ok (selfptr + selflen) := by
  induction d generalizing idx ptr with
  | zero => rw [findPtrHashed, dif_neg (by omega), checkedAdd_ok hend]
  | succ d ih =>
    have hmiss₀ : ¬ hash = keccak256 (m.read ptr needlelen) := hmiss 0 (Nat.succ_pos d)
    rw [findPtrHashed, dif_pos (by omega), if_neg hmiss₀, checkedAdd_ok (by omega), Except.ok_bind,
      checkedAdd_ok (by omega), Except.ok_bind]
    refine ih (by omega) (by omega) fun j hj ↦ ?_
    rw [Nat.add_assoc, Nat.add_comm 1 j]
    exact hmiss (j + 1) (by omega)

section Find

variable {selflen selfptr needlelen needleptr : Nat}

/-- The search for a needle that fits into a word is a search by masked words. -/
theorem findPtr_masked (hend : selfptr + selflen < wordSize) (hle : needlelen ≤ selflen)
    (h32 : needlelen ≤ 32) :
    findPtr m selflen selfptr needlelen needleptr =
      findPtrMasked m (Memory.mask (8 * (32 - needlelen)))
        (m.mload needleptr &&& Memory.mask (8 * (32 - needlelen))) selflen selfptr
        (selfptr + selflen - needlelen) selfptr := by
  rw [findPtr, if_pos hle, if_pos h32, needleMask_eq h32, Except.ok_bind, checkedAdd_ok hend,
    Except.ok_bind, checkedSub_ok (by omega), Except.ok_bind]

/-- The search for a longer one is a search by hashes. -/
theorem findPtr_hashed (hle : needlelen ≤ selflen) (h32 : ¬ needlelen ≤ 32) :
    findPtr m selflen selfptr needlelen needleptr =
      findPtrHashed m (keccak256 (m.read needleptr needlelen)) selflen selfptr needlelen
        (selflen - needlelen) 0 selfptr := by
  rw [findPtr, if_pos hle, if_neg h32, checkedSub_ok hle, Except.ok_bind]

/-- The first position that passes is returned, by either loop. -/
theorem findPtr_of_hit {i : Nat} (hend : selfptr + selflen < wordSize)
    (hle : i + needlelen ≤ selflen)
    (hhit : Passes (m.read needleptr needlelen) (m.read (selfptr + i) needlelen))
    (hmiss : ∀ j < i, ¬ Passes (m.read needleptr needlelen) (m.read (selfptr + j) needlelen)) :
    findPtr m selflen selfptr needlelen needleptr = .ok (selfptr + i) := by
  simp only [Passes, Memory.length_read] at hhit hmiss
  by_cases h32 : needlelen ≤ 32
  · simp only [if_pos h32] at hhit hmiss
    rw [findPtr_masked hend (by omega) h32]
    exact findPtrMasked_of_hit (by omega) (by omega) ((Memory.mload_and_mask_eq_iff h32).mpr hhit)
      fun j hj hj' ↦ hmiss j hj ((Memory.mload_and_mask_eq_iff h32).mp hj')
  · simp only [if_neg h32] at hhit hmiss
    rw [findPtr_hashed (by omega) h32]
    exact findPtrHashed_of_hit (by omega) (by omega) (by omega) hhit hmiss

/-- The end is returned if no position passes. -/
theorem findPtr_of_miss (hend : selfptr + selflen < wordSize)
    (hmiss : ∀ i, i + needlelen ≤ selflen →
      ¬ Passes (m.read needleptr needlelen) (m.read (selfptr + i) needlelen)) :
    findPtr m selflen selfptr needlelen needleptr = .ok (selfptr + selflen) := by
  by_cases hle : needlelen ≤ selflen
  swap
  · rw [findPtr, if_neg hle, checkedAdd_ok hend]
  simp only [Passes, Memory.length_read] at hmiss
  by_cases h32 : needlelen ≤ 32
  · simp only [if_pos h32] at hmiss
    rw [findPtr_masked hend hle h32]
    refine findPtrMasked_of_miss (by omega) hend (by omega) fun q hq hq' hhit ↦ ?_
    obtain ⟨i, rfl⟩ := Nat.exists_eq_add_of_le hq
    exact hmiss i (by omega) ((Memory.mload_and_mask_eq_iff h32).mp hhit)
  · simp only [if_neg h32] at hmiss
    rw [findPtr_hashed hle h32]
    exact findPtrHashed_of_miss (d := selflen - needlelen + 1) (by omega) hend (by omega)
      (by omega) fun j hj ↦ hmiss j (by omega)

/-- **The search ends, in the haystack or at its end**, whatever the hashes are. -/
theorem findPtr_ok (m : Memory) (needlelen needleptr : Nat) (hend : selfptr + selflen < wordSize) :
    ∃ q, findPtr m selflen selfptr needlelen needleptr = .ok q ∧ selfptr ≤ q ∧
      q ≤ selfptr + selflen := by
  let P (i : Nat) : Prop := i + needlelen ≤ selflen ∧
    Passes (m.read needleptr needlelen) (m.read (selfptr + i) needlelen)
  by_cases h : ∃ i, P i
  · obtain ⟨hle, hhit⟩ := Nat.find_spec h
    refine ⟨_, findPtr_of_hit hend hle hhit fun j hj hj' ↦ ?_, by omega, by omega⟩
    exact Nat.find_min h hj ⟨by omega, hj'⟩
  · exact ⟨_, findPtr_of_miss hend fun i hle hhit ↦ h ⟨i, hle, hhit⟩, by omega, by omega⟩

/-- **The first occurrence is found.** -/
theorem findPtr_of_first {i : Nat} (hend : selfptr + selflen < wordSize)
    (hs : Searchable (m.read needleptr needlelen) (m.read selfptr selflen))
    (h : FirstAt (m.read needleptr needlelen) (m.read selfptr selflen) i) :
    findPtr m selflen selfptr needlelen needleptr = .ok (selfptr + i) := by
  obtain ⟨hle, hi⟩ := occursAt_read.mp h.1
  refine findPtr_of_hit hend hle (hi ▸ passes_self _) fun j hj hhit ↦ h.2 j hj ?_
  have hj' : j + needlelen ≤ selflen := by omega
  exact occursAt_read.mpr ⟨hj', hs _ (read_infix_read hj') (by simp) hhit⟩

/-- Without an occurrence the end is returned. -/
theorem findPtr_of_none (hend : selfptr + selflen < wordSize)
    (hs : Searchable (m.read needleptr needlelen) (m.read selfptr selflen))
    (h : ∀ i, ¬ OccursAt (m.read needleptr needlelen) (m.read selfptr selflen) i) :
    findPtr m selflen selfptr needlelen needleptr = .ok (selfptr + selflen) :=
  findPtr_of_miss hend fun i hle hhit ↦
    h i (occursAt_read.mpr ⟨hle, hs _ (read_infix_read hle) (by simp) hhit⟩)

end Find

/-! ## `rfindPtr` -/

theorem rfindPtrMasked_of_hit {mask needledata : Uint256} {selfptr needlelen q i : Nat}
    (hlo : selfptr ≤ q) (hend : q + i + needlelen < wordSize)
    (hhit : m.mload q &&& mask = needledata)
    (hmiss : ∀ j < i, m.mload (q + i - j) &&& mask ≠ needledata) :
    rfindPtrMasked m mask needledata selfptr needlelen (q + i) = .ok (q + needlelen) := by
  induction i with
  | zero =>
    rw [Nat.add_zero, rfindPtrMasked, if_pos hhit, checkedAdd_ok (by omega)]
  | succ i ih =>
    have hmiss₀ : ¬ m.mload (q + (i + 1)) &&& mask = needledata := hmiss 0 (Nat.succ_pos i)
    rw [rfindPtrMasked, if_neg hmiss₀, dif_neg (by omega), checkedSub_ok (by omega), Except.ok_bind]
    refine ih (by omega) fun j hj ↦ ?_
    have hj := hmiss (j + 1) (by omega)
    rwa [show q + (i + 1) - (j + 1) = q + i - j by omega] at hj

theorem rfindPtrMasked_of_miss {mask needledata : Uint256} {selfptr needlelen ptr : Nat}
    (hle : selfptr ≤ ptr)
    (hmiss : ∀ q, selfptr ≤ q → q ≤ ptr → m.mload q &&& mask ≠ needledata) :
    rfindPtrMasked m mask needledata selfptr needlelen ptr = .ok selfptr := by
  obtain ⟨d, rfl⟩ := Nat.exists_eq_add_of_le hle
  induction d with
  | zero =>
    rw [rfindPtrMasked, if_neg (hmiss _ hle (Nat.le_refl _)), dif_pos (by omega)]
    rfl
  | succ d ih =>
    rw [rfindPtrMasked, if_neg (hmiss _ hle (Nat.le_refl _)), dif_neg (by omega),
      checkedSub_ok (by omega), Except.ok_bind]
    exact ih (Nat.le_add_right _ _) fun q hq hq' ↦ hmiss q hq (by omega)

theorem rfindPtrHashed_of_hit {hash : Bytes32} {selfptr needlelen q i : Nat}
    (hlo : selfptr ≤ q) (hend : q + i + needlelen < wordSize)
    (hhit : hash = keccak256 (m.read q needlelen))
    (hmiss : ∀ j < i, hash ≠ keccak256 (m.read (q + i - j) needlelen)) :
    rfindPtrHashed m hash selfptr needlelen (q + i) = .ok (q + needlelen) := by
  induction i with
  | zero => rw [Nat.add_zero, rfindPtrHashed, if_pos hlo, if_pos hhit, checkedAdd_ok (by omega)]
  | succ i ih =>
    have hmiss₀ : ¬ hash = keccak256 (m.read (q + (i + 1)) needlelen) := hmiss 0 (Nat.succ_pos i)
    rw [rfindPtrHashed, if_pos (by omega), if_neg hmiss₀, dif_neg (by omega)]
    refine ih (by omega) fun j hj ↦ ?_
    have hj := hmiss (j + 1) (by omega)
    rwa [show q + (i + 1) - (j + 1) = q + i - j by omega] at hj

/-- The loop over the `d` positions that are left.  It stops one before the haystack, which must
not be the address zero. -/
theorem rfindPtrHashed_of_miss {hash : Bytes32} {selfptr needlelen ptr d : Nat}
    (hpos : 0 < selfptr) (hd : ptr + 1 = selfptr + d)
    (hmiss : ∀ q, selfptr ≤ q → q ≤ ptr → hash ≠ keccak256 (m.read q needlelen)) :
    rfindPtrHashed m hash selfptr needlelen ptr = .ok selfptr := by
  induction d generalizing ptr with
  | zero =>
    rw [rfindPtrHashed, if_neg (by omega)]
    rfl
  | succ d ih =>
    rw [rfindPtrHashed, if_pos (by omega), if_neg (hmiss ptr (by omega) (Nat.le_refl _)),
      dif_neg (by omega)]
    exact ih (by omega) fun q hq hq' ↦ hmiss q hq (by omega)

section Rfind

variable {selflen selfptr needlelen needleptr : Nat}

theorem rfindPtr_masked (hend : selfptr + selflen < wordSize) (hle : needlelen ≤ selflen)
    (h32 : needlelen ≤ 32) :
    rfindPtr m selflen selfptr needlelen needleptr =
      rfindPtrMasked m (Memory.mask (8 * (32 - needlelen)))
        (m.mload needleptr &&& Memory.mask (8 * (32 - needlelen))) selfptr needlelen
        (selfptr + (selflen - needlelen)) := by
  rw [rfindPtr, if_pos hle, if_pos h32, needleMask_eq h32, Except.ok_bind, checkedAdd_ok hend,
    Except.ok_bind, checkedSub_ok (by omega), Except.ok_bind, Nat.add_sub_assoc hle]

theorem rfindPtr_hashed (hend : selfptr + selflen < wordSize) (hle : needlelen ≤ selflen)
    (h32 : ¬ needlelen ≤ 32) :
    rfindPtr m selflen selfptr needlelen needleptr =
      rfindPtrHashed m (keccak256 (m.read needleptr needlelen)) selfptr needlelen
        (selfptr + (selflen - needlelen)) := by
  rw [rfindPtr, if_pos hle, if_neg h32, checkedSub_ok hle, Except.ok_bind,
    checkedAdd_ok (by omega), Except.ok_bind]

/-- The end of the last position that passes is returned, by either loop. -/
theorem rfindPtr_of_hit {i : Nat} (hend : selfptr + selflen < wordSize)
    (hle : i + needlelen ≤ selflen)
    (hhit : Passes (m.read needleptr needlelen) (m.read (selfptr + i) needlelen))
    (hmiss : ∀ j, i < j → j + needlelen ≤ selflen →
      ¬ Passes (m.read needleptr needlelen) (m.read (selfptr + j) needlelen)) :
    rfindPtr m selflen selfptr needlelen needleptr = .ok (selfptr + i + needlelen) := by
  obtain ⟨d, hd⟩ := Nat.exists_eq_add_of_le hle
  have hlast : selfptr + (selflen - needlelen) = selfptr + i + d := by omega
  have hback (j : Nat) (hj : j < d) : selfptr + i + d - j = selfptr + (i + (d - j)) := by omega
  simp only [Passes, Memory.length_read] at hhit hmiss
  by_cases h32 : needlelen ≤ 32
  · simp only [if_pos h32] at hhit hmiss
    rw [rfindPtr_masked hend (by omega) h32, hlast]
    refine rfindPtrMasked_of_hit (by omega) (by omega)
      ((Memory.mload_and_mask_eq_iff h32).mpr hhit) fun j hj hj' ↦ ?_
    rw [hback j hj] at hj'
    exact hmiss _ (by omega) (by omega) ((Memory.mload_and_mask_eq_iff h32).mp hj')
  · simp only [if_neg h32] at hhit hmiss
    rw [rfindPtr_hashed hend (by omega) h32, hlast]
    refine rfindPtrHashed_of_hit (by omega) (by omega) hhit fun j hj ↦ ?_
    rw [hback j hj]
    exact hmiss _ (by omega) (by omega)

/-- The start is returned if no position passes. -/
theorem rfindPtr_of_miss (hend : selfptr + selflen < wordSize)
    (hpos : needlelen ≤ 32 ∨ selflen < needlelen ∨ 0 < selfptr)
    (hmiss : ∀ i, i + needlelen ≤ selflen →
      ¬ Passes (m.read needleptr needlelen) (m.read (selfptr + i) needlelen)) :
    rfindPtr m selflen selfptr needlelen needleptr = .ok selfptr := by
  by_cases hle : needlelen ≤ selflen
  swap
  · rw [rfindPtr, if_neg hle]
    rfl
  simp only [Passes, Memory.length_read] at hmiss
  by_cases h32 : needlelen ≤ 32
  · simp only [if_pos h32] at hmiss
    rw [rfindPtr_masked hend hle h32]
    refine rfindPtrMasked_of_miss (Nat.le_add_right _ _) fun q hq hq' hhit ↦ ?_
    obtain ⟨i, rfl⟩ := Nat.exists_eq_add_of_le hq
    exact hmiss i (by omega) ((Memory.mload_and_mask_eq_iff h32).mp hhit)
  · simp only [if_neg h32] at hmiss
    rw [rfindPtr_hashed hend hle h32]
    refine rfindPtrHashed_of_miss (d := selflen - needlelen + 1) (by omega) (by omega)
      fun q hq hq' ↦ ?_
    obtain ⟨i, rfl⟩ := Nat.exists_eq_add_of_le hq
    exact hmiss i (by omega)

/-- **The backward search ends**, whatever the hashes are. -/
theorem rfindPtr_ok (m : Memory) (needleptr : Nat) (hend : selfptr + selflen < wordSize)
    (hpos : needlelen ≤ 32 ∨ selflen < needlelen ∨ 0 < selfptr) :
    ∃ q, rfindPtr m selflen selfptr needlelen needleptr = .ok q := by
  let P (i : Nat) : Prop := i + needlelen ≤ selflen ∧
    Passes (m.read needleptr needlelen) (m.read (selfptr + i) needlelen)
  by_cases h : ∃ i, P i
  · obtain ⟨i, hi⟩ := h
    have hbound : i ≤ selflen := by have := hi.1; omega
    obtain ⟨hle, hhit⟩ : P _ := Nat.findGreatest_spec hbound hi
    refine ⟨_, rfindPtr_of_hit hend hle hhit fun j hj hle' hhit' ↦ ?_⟩
    exact absurd (Nat.le_findGreatest (P := P) (show j ≤ selflen by omega) ⟨hle', hhit'⟩) (by omega)
  · exact ⟨_, rfindPtr_of_miss hend hpos fun i hle hhit ↦ h ⟨i, hle, hhit⟩⟩

/-- **The last occurrence is found**, and its end is returned. -/
theorem rfindPtr_of_last {i : Nat} (hend : selfptr + selflen < wordSize)
    (hs : Searchable (m.read needleptr needlelen) (m.read selfptr selflen))
    (h : LastAt (m.read needleptr needlelen) (m.read selfptr selflen) i) :
    rfindPtr m selflen selfptr needlelen needleptr = .ok (selfptr + i + needlelen) := by
  obtain ⟨hle, hi⟩ := occursAt_read.mp h.1
  refine rfindPtr_of_hit hend hle (hi ▸ passes_self _) fun j hj hle' hhit ↦ h.2 j hj ?_
  exact occursAt_read.mpr ⟨hle', hs _ (read_infix_read hle') (by simp) hhit⟩

/-- Without an occurrence the start is returned. -/
theorem rfindPtr_of_none (hend : selfptr + selflen < wordSize)
    (hpos : needlelen ≤ 32 ∨ selflen < needlelen ∨ 0 < selfptr)
    (hs : Searchable (m.read needleptr needlelen) (m.read selfptr selflen))
    (h : ∀ i, ¬ OccursAt (m.read needleptr needlelen) (m.read selfptr selflen) i) :
    rfindPtr m selflen selfptr needlelen needleptr = .ok selfptr :=
  rfindPtr_of_miss hend hpos fun i hle hhit ↦
    h i (occursAt_read.mpr ⟨hle, hs _ (read_infix_read hle) (by simp) hhit⟩)

end Rfind

/-! ## `contains` -/

/-- **`contains` is containment**, for a needle that is not empty. -/
theorem contains_eq {self needle : Slice} (hend : self.ptr + self.len < wordSize)
    (hpos : needle.len ≤ 32 ∨ self.len < needle.len ∨ 0 < self.ptr) (hneedle : 0 < needle.len)
    (hs : Searchable (needle.text m) (self.text m)) :
    contains m self needle = .ok (decide (needle.text m <:+: self.text m)) := by
  rw [contains]
  by_cases h : needle.text m <:+: self.text m
  · obtain ⟨i, hi⟩ := exists_lastAt (infix_iff_occursAt.mp h)
    rw [rfindPtr_of_last hend hs hi, Except.ok_bind, decide_eq_true h, decide_eq_true (by omega)]
    rfl
  · rw [rfindPtr_of_none hend hpos hs (not_exists.mp fun hocc ↦ h (infix_iff_occursAt.mpr hocc)),
      Except.ok_bind, decide_eq_false h]
    simp

/-! ## The searches as a whole -/

/-- The address a forward search is to return: of the first occurrence, or the end. -/
def FoundFirst (m : Memory) (self needle : Slice) (ptr : Nat) : Prop :=
  (∃ i, FirstAt (needle.text m) (self.text m) i ∧ ptr = self.ptr + i) ∨
    (∀ i, ¬ OccursAt (needle.text m) (self.text m) i) ∧ ptr = self.ptr + self.len

/-- The address a backward search is to return: after the last occurrence, or the start. -/
def FoundLast (m : Memory) (self needle : Slice) (ptr : Nat) : Prop :=
  (∃ i, LastAt (needle.text m) (self.text m) i ∧ ptr = self.ptr + i + needle.len) ∨
    (∀ i, ¬ OccursAt (needle.text m) (self.text m) i) ∧ ptr = self.ptr

theorem findPtr_found {self needle : Slice} (hend : self.ptr + self.len < wordSize)
    (hs : Searchable (needle.text m) (self.text m)) :
    ∃ p, findPtr m self.len self.ptr needle.len needle.ptr = .ok p ∧
      FoundFirst m self needle p := by
  by_cases hocc : ∃ i, OccursAt (needle.text m) (self.text m) i
  · obtain ⟨i, hi⟩ := exists_firstAt hocc
    exact ⟨_, findPtr_of_first hend hs hi, .inl ⟨i, hi, rfl⟩⟩
  · have hnone := not_exists.mp hocc
    exact ⟨_, findPtr_of_none hend hs hnone, .inr ⟨hnone, rfl⟩⟩

theorem rfindPtr_found {self needle : Slice} (hend : self.ptr + self.len < wordSize)
    (hpos : 0 < self.ptr) (hs : Searchable (needle.text m) (self.text m)) :
    ∃ p, rfindPtr m self.len self.ptr needle.len needle.ptr = .ok p ∧
      FoundLast m self needle p := by
  by_cases hocc : ∃ i, OccursAt (needle.text m) (self.text m) i
  · obtain ⟨i, hi⟩ := exists_lastAt hocc
    exact ⟨_, rfindPtr_of_last hend hs hi, .inl ⟨i, hi, rfl⟩⟩
  · have hnone := not_exists.mp hocc
    exact ⟨_, rfindPtr_of_none hend (.inr (.inr hpos)) hs hnone, .inr ⟨hnone, rfl⟩⟩

/-- **Substring search.**  Forward and backward, for a haystack and a needle of any lengths, the
search returns; and it returns the place of the first and of the last occurrence, and whether there
is one, unless the needle is longer than a word and some other part of the haystack has its
hash. -/
theorem search_exact (m : Memory) (self needle : Slice) (hptr : 0x20 ≤ self.ptr)
    (hend : self.ptr + self.len < wordSize) :
    (∃ p, findPtr m self.len self.ptr needle.len needle.ptr = .ok p) ∧
    (∃ p, rfindPtr m self.len self.ptr needle.len needle.ptr = .ok p) ∧
    ((∃ p, findPtr m self.len self.ptr needle.len needle.ptr = .ok p ∧
        FoundFirst m self needle p) ∧
      (∃ p, rfindPtr m self.len self.ptr needle.len needle.ptr = .ok p ∧
        FoundLast m self needle p) ∧
      (0 < needle.len →
        contains m self needle = .ok (decide (needle.text m <:+: self.text m))) ∨
     32 < needle.len ∧ ∃ part, part <:+: self.text m ∧ Collision [needle.text m] [part]) := by
  have hpos : 0 < self.ptr := by omega
  obtain ⟨p, hp, -⟩ := findPtr_ok m needle.len needle.ptr hend
  refine ⟨⟨p, hp⟩, rfindPtr_ok m needle.ptr hend (.inr (.inr hpos)), ?_⟩
  rcases searchable_or_collision (needle.text m) (self.text m) with hs | ⟨hlong, hcoll⟩
  · exact .inl ⟨findPtr_found hend hs, rfindPtr_found hend hpos hs,
      fun hneedle ↦ contains_eq hend (.inr (.inr hpos)) hneedle hs⟩
  · rw [Slice.length_text] at hlong
    exact .inr ⟨hlong, hcoll⟩

/-- Memory in which every byte is an `a`. -/
def allA : Memory where
  byte _ := 97
  free := 0x80

/-- In `aaa`, `aa` is found at the start and, from the end, before the end. -/
theorem search_exact_allA :
    (∃ p, findPtr allA 3 0x20 2 0x40 = .ok p ∧ FoundFirst allA ⟨3, 0x20⟩ ⟨2, 0x40⟩ p) ∧
    ∃ p, rfindPtr allA 3 0x20 2 0x40 = .ok p ∧ FoundLast allA ⟨3, 0x20⟩ ⟨2, 0x40⟩ p := by
  have h := (search_exact allA ⟨3, 0x20⟩ ⟨2, 0x40⟩ (by decide) (by decide)).2.2
  have hexact := h.resolve_right fun hlong ↦ absurd hlong.1 (by decide)
  exact ⟨hexact.1, hexact.2.1⟩

end StringUtils

end PunksBids
