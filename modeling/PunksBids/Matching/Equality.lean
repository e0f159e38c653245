import PunksBids.Matching.Search

/-!
# What the comparison computes

`compare` goes through two slices word by word.  It masks the bytes after the slices out only if
the shorter slice is shorter than a word: so two texts of at most 32 bytes are compared as they
are (`equals_eq`), but of longer ones the last word counts as a whole, and with it the bytes that
follow in memory.  What is compared is exactly this (`equals_eq_compared`), and from it the exact
condition under which `equals` is equality of texts (`equals_text_iff`).
-/

set_option autoImplicit false

namespace PunksBids

open Evm Text

namespace StringUtils

variable {m : Memory} {self other : Slice}

/-! ## One word -/

theorem compareMask_eq {n : Nat} (hpos : 0 < n) (h : n < 32) :
    compareMask n 0 = .ok (Memory.mask (8 * (32 - n))) := by
  rw [compareMask, if_pos h, checkedSub_ok (by omega), Except.ok_bind,
    checkedAdd_ok (by rw [wordSize]; omega), Except.ok_bind, Nat.add_zero,
    complementMask_eq (by omega)]

theorem compareMask_of_le {n : Nat} (h : 32 ≤ n) (idx : Nat) :
    compareMask n idx = .ok (BitVec.allOnes 256) := by
  rw [compareMask, if_neg (by omega)]
  rfl

/-- One word of a comparison: the difference is zero exactly if the bytes that count are equal, all
of them but in a text that is shorter than the word. -/
theorem compareWord_eq {n idx p q : Nat} (hidx : idx < n) (hfirst : n < 32 → idx = 0) :
    ∃ diff, compareWord m n idx p q = .ok diff ∧
      (diff = 0 ↔ m.read p (min n 32) = m.read q (min n 32)) := by
  have hmin := Nat.min_le_right n 32
  by_cases hab : m.mload p = m.mload q
  · have hread := congrArg (List.take (min n 32)) (Memory.mload_eq_iff.mp hab)
    rw [m.read_take hmin, m.read_take hmin] at hread
    exact ⟨0, by simp [compareWord, hab], by simp [hread]⟩
  · rw [compareWord]
    rcases Nat.lt_or_ge n 32 with hlt | hge
    · obtain rfl := hfirst hlt
      refine ⟨_, by rw [if_pos hab, compareMask_eq hidx hlt]; rfl, ?_⟩
      rw [Uint256.sub_eq_zero_iff, Memory.mload_and_mask_eq_iff (Nat.le_of_lt hlt),
        Nat.min_eq_left (Nat.le_of_lt hlt)]
    · refine ⟨_, by rw [if_pos hab, compareMask_of_le hge]; rfl, ?_⟩
      rw [Uint256.sub_eq_zero_iff, BitVec.and_allOnes, BitVec.and_allOnes, Memory.mload_eq_iff,
        Nat.min_eq_right hge]

theorem int256_eq {n : Nat} (h : n < 2 ^ 255) : int256 n = n := by
  have hn : (BitVec.ofNat 256 n).toNat = n := by
    rw [BitVec.toNat_ofNat, Nat.mod_eq_of_lt (by omega)]
  rw [int256, BitVec.toInt_eq_toNat_of_lt (by rw [hn]; omega), hn]

/-- The result of `compare` when no word differs: the lengths decide. -/
theorem checkedSubInt_len {a b : Nat} (ha : a < 2 ^ 255) (hb : b < 2 ^ 255) :
    checkedSubInt (int256 a) (int256 b) = .ok ((a : Int) - b) := by
  rw [int256_eq ha, int256_eq hb, checkedSubInt, if_pos (by omega)]

/-! ## The loop -/

/-- The number of words that are compared. -/
def wordCount (n : Nat) : Nat := (n + 31) / 32

/-- The number of bytes that are compared: those of the text if it is shorter than a word, and else
whole words. -/
def compared (n : Nat) : Nat := wordCount n * min n 32

theorem compared_of_le {n : Nat} (h : n ≤ 32) : compared n = n := by
  rw [compared, wordCount]
  rcases Nat.eq_zero_or_pos n with rfl | hpos
  · rfl
  · rw [Nat.min_eq_left h, show (n + 31) / 32 = 1 by omega, Nat.one_mul]

theorem compared_of_ge {n : Nat} (h : 32 ≤ n) : compared n = n + (32 - n % 32) % 32 := by
  rw [compared, wordCount, Nat.min_eq_right h]
  omega

/-- The loop with `k` words left: the result is zero exactly if they are equal and the lengths
are. -/
theorem compareLoop_eq {n idx p q k : Nat} (hself : self.len < 2 ^ 255)
    (hother : other.len < 2 ^ 255) (hk : idx + 32 * k = 32 * wordCount n)
    (hn : 32 * wordCount n < wordSize) (hp : p + 32 * k < wordSize) (hq : q + 32 * k < wordSize) :
    ∃ d, compareLoop m self other n idx p q = .ok d ∧
      (d = 0 ↔ m.read p (k * min n 32) = m.read q (k * min n 32) ∧ self.len = other.len) := by
  induction k generalizing idx p q with
  | zero =>
    rw [compareLoop, dif_neg (by rw [wordCount] at hk; omega), checkedSubInt_len hself hother]
    refine ⟨_, rfl, ?_⟩
    rw [Nat.zero_mul, Memory.read_zero, Memory.read_zero]
    simp only [true_and]
    omega
  | succ k ih =>
    have hidx : idx < n := by rw [wordCount] at hk; omega
    have hfirst : n < 32 → k = 0 ∧ idx = 0 := by rw [wordCount] at hk; omega
    obtain ⟨diff, hdiff, hzero⟩ := compareWord_eq (m := m) (p := p) (q := q) hidx
      fun hlt ↦ (hfirst hlt).2
    rw [compareLoop, dif_pos hidx, hdiff, Except.ok_bind]
    have hnext (a : Nat) :
        m.read (a + min n 32) (k * min n 32) = m.read (a + 32) (k * min n 32) := by
      rcases Nat.lt_or_ge n 32 with hlt | hge
      · rw [(hfirst hlt).1, Nat.zero_mul, Memory.read_zero, Memory.read_zero]
      · rw [Nat.min_eq_right hge]
    rw [Nat.succ_mul, Nat.add_comm (k * _), Memory.read_add_inj, hnext, hnext]
    by_cases h0 : diff = 0
    · rw [if_neg (not_not.mpr h0), checkedAdd_ok (by omega), Except.ok_bind,
        checkedAdd_ok (by omega), Except.ok_bind, checkedAdd_ok (by omega), Except.ok_bind]
      obtain ⟨d, hd, hiff⟩ : ∃ d, compareLoop m self other n (idx + 32) (p + 32) (q + 32) = .ok d ∧
          _ := ih (by omega) (by omega) (by omega)
      exact ⟨d, hd, by rw [hiff, and_iff_right (hzero.mp h0)]⟩
    · rw [if_pos h0]
      refine ⟨_, rfl, ?_⟩
      have hint : ¬ diff.toInt = 0 := by
        rw [← BitVec.toInt_zero, BitVec.toInt_inj]
        exact h0
      exact ⟨fun h ↦ absurd h hint, fun h ↦ absurd (hzero.mpr h.1.1) h0⟩

/-! ## `equals` -/

theorem text_eq_iff : self.text m = other.text m ↔
    self.len = other.len ∧ m.read self.ptr self.len = m.read other.ptr self.len := by
  constructor
  · intro h
    have hlen : self.len = other.len := by
      rw [← Slice.length_text (m := m) self, h, Slice.length_text]
    rw [Slice.text, Slice.text, ← hlen] at h
    exact ⟨hlen, h⟩
  · rintro ⟨hlen, h⟩
    rw [Slice.text, Slice.text, ← hlen, h]

/-- **What `equals` compares**: the lengths, and the bytes that are compared. -/
theorem equals_eq_compared (hself : self.len < 2 ^ 255) (hother : other.len < 2 ^ 255)
    (hptr : self.ptr + 32 * wordCount (min self.len other.len) < wordSize)
    (hptr' : other.ptr + 32 * wordCount (min self.len other.len) < wordSize) :
    equals m self other = .ok (decide (self.len = other.len ∧
      m.read self.ptr (compared self.len) = m.read other.ptr (compared self.len))) := by
  have hshortest : (if other.len < self.len then other.len else self.len) =
      min self.len other.len := by
    split <;> omega
  obtain ⟨d, hd, hiff⟩ := compareLoop_eq (m := m) (n := min self.len other.len) hself hother
    (Nat.zero_add _) (by rw [wordCount, wordSize]; omega) hptr hptr'
  rw [equals, compare, hshortest, hd, Except.ok_bind, Except.pure_def]
  refine congrArg Except.ok (decide_eq_decide.mpr (hiff.trans ?_))
  rw [and_comm]
  refine and_congr_right fun hlen ↦ ?_
  rw [← hlen, Nat.min_self, compared]

/-- **`equals` is equality of texts**, when one of the slices has at most 32 bytes. -/
theorem equals_eq (h32 : self.len ≤ 32 ∨ other.len ≤ 32)
    (hself : self.len < 2 ^ 255) (hother : other.len < 2 ^ 255)
    (hptr : self.ptr + 32 < wordSize) (hptr' : other.ptr + 32 < wordSize) :
    equals m self other = .ok (decide (self.text m = other.text m)) := by
  have hcount : 32 * wordCount (min self.len other.len) ≤ 32 := by rw [wordCount]; omega
  rw [equals_eq_compared hself hother (by omega) (by omega)]
  refine congrArg Except.ok (decide_eq_decide.mpr ?_)
  rw [text_eq_iff]
  refine and_congr_right fun hlen ↦ ?_
  rw [compared_of_le (by omega)]

/-! ## Texts and the bytes after them -/

/-- The number of bytes from the end of a slice to the end of its last word. -/
def Slice.padding (s : Slice) : Nat := (32 - s.len % 32) % 32

/-- The bytes that follow a slice, up to the end of its last word. -/
def Slice.overhang (m : Memory) (s : Slice) : Bytes := m.read (s.ptr + s.len) s.padding

/-- What is compared is the text if it is short, and the text with what follows it if it is not. -/
theorem compared_eq_iff : (self.len = other.len ∧
      m.read self.ptr (compared self.len) = m.read other.ptr (compared self.len)) ↔
    self.text m = other.text m ∧ (32 ≤ self.len → self.overhang m = other.overhang m) := by
  rw [text_eq_iff, and_assoc]
  refine and_congr_right fun hlen ↦ ?_
  rcases Nat.lt_or_ge self.len 32 with hlt | hge
  · rw [compared_of_le (Nat.le_of_lt hlt)]
    exact (and_iff_left fun hge ↦ absurd hge (by omega)).symm
  · rw [compared_of_ge hge, Memory.read_add_inj, Slice.overhang, Slice.overhang, Slice.padding,
      Slice.padding, ← hlen]
    exact and_congr_right fun _ ↦ (imp_iff_right hge).symm

/-- In any memory that can be paid for, `equals` compares texts with what follows them. -/
theorem equals_eq_overhang (hself : self.ptr + self.len < 2 ^ 255)
    (hother : other.ptr + other.len < 2 ^ 255) :
    equals m self other = .ok (decide (self.text m = other.text m ∧
      (32 ≤ self.len → self.overhang m = other.overhang m))) := by
  rw [equals_eq_compared (by omega) (by omega) (by rw [wordCount, wordSize]; omega)
    (by rw [wordCount, wordSize]; omega)]
  exact congrArg Except.ok (decide_eq_decide.mpr compared_eq_iff)

/-- The byte at the end of the overhang of the later slice can be any, without a change to the
texts or to the other overhang. -/
theorem exists_overhang_ne (hlen : self.len = other.len) (hpad : self.len % 32 ≠ 0)
    (hlt : self.ptr < other.ptr) :
    ∃ m', self.text m' = self.text m ∧ other.text m' = other.text m ∧
      self.overhang m' ≠ other.overhang m' := by
  have hpads : self.padding = other.padding := by rw [Slice.padding, Slice.padding, hlen]
  obtain ⟨k, hk⟩ : ∃ k, other.padding = k + 1 := by
    refine Nat.exists_eq_succ_of_ne_zero ?_
    rw [Slice.padding, ← hlen]
    omega
  let last := other.ptr + other.len + k
  by_cases hne : self.overhang m ≠ other.overhang m
  · exact ⟨m, rfl, rfl, hne⟩
  let m' : Memory := { m with byte := fun a ↦ if a = last then m.byte a + 1 else m.byte a }
  have hsame (a : Nat) (ha : a < last) : m'.byte a = m.byte a := if_neg (by omega)
  have hchanged : m'.byte last = m.byte last + 1 := if_pos rfl
  have hread (p n : Nat) (hpn : p + n ≤ last) : m'.read p n = m.read p n :=
    Memory.read_congr fun a _ ha ↦ hsame a (by omega)
  have hself : self.overhang m' = self.overhang m :=
    hread _ _ (by rw [hpads, hk]; omega)
  refine ⟨m', hread _ _ (by omega), hread _ _ (by omega), fun heq ↦ ?_⟩
  rw [hself, not_not.mp hne, Slice.overhang, Slice.overhang, hk, Memory.read_add_inj] at heq
  have hbyte : m.byte last = m'.byte last := by simpa [Memory.read] using heq.2
  rw [hchanged] at hbyte
  exact absurd hbyte (by simp)

/-- The same for slices in any order. -/
theorem exists_overhang_ne_of_ne (hlen : self.len = other.len) (hpad : self.len % 32 ≠ 0)
    (hptr : self.ptr ≠ other.ptr) :
    ∃ m', self.text m' = self.text m ∧ other.text m' = other.text m ∧
      self.overhang m' ≠ other.overhang m' := by
  rcases Nat.lt_or_gt_of_ne hptr with hlt | hgt
  · exact exists_overhang_ne hlen hpad hlt
  · obtain ⟨m', ho, hs, hne⟩ := exists_overhang_ne (m := m) hlen.symm (hlen ▸ hpad) hgt
    exact ⟨m', hs, ho, hne.symm⟩

/-- Without padding, or at one address, nothing different can follow. -/
theorem overhang_eq (hlen : self.len = other.len)
    (h : self.len % 32 = 0 ∨ self.ptr = other.ptr) : self.overhang m = other.overhang m := by
  rw [Slice.overhang, Slice.overhang, Slice.padding, Slice.padding, ← hlen]
  rcases h with hpad | hptr
  · rw [hpad]
    rfl
  · rw [hptr]

/-- **Exactly when `equals` is right**, in one memory. -/
theorem equals_right_iff (hself : self.ptr + self.len < 2 ^ 255)
    (hother : other.ptr + other.len < 2 ^ 255) :
    (∃ b, equals m self other = .ok b ∧
        (b = true ↔ self.len = other.len ∧ self.text m = other.text m)) ↔
      ¬ (self.text m = other.text m ∧ 32 ≤ self.len ∧ self.overhang m ≠ other.overhang m) := by
  have hlen (h : self.text m = other.text m) : self.len = other.len := (text_eq_iff.mp h).1
  rw [equals_eq_overhang hself hother]
  simp only [Except.ok.injEq, exists_eq_left', decide_eq_true_eq, and_iff_right_of_imp hlen,
    and_iff_left_iff_imp]
  tauto

/-- **When `equals` is equality of texts.**  For slices in any memory that can be paid for it never
reverts.  It is right exactly unless both are the same text of at least 32 bytes and what follows
them up to the end of the last word differs; and it is right whatever follows exactly unless they
are the same text at different addresses, of at least 32 bytes and no multiple of 32. -/
theorem equals_text_iff (m : Memory) (self other : Slice) (hself : self.ptr + self.len < 2 ^ 255)
    (hother : other.ptr + other.len < 2 ^ 255) :
    (∃ b, equals m self other = .ok b) ∧
    ((∃ b, equals m self other = .ok b ∧
        (b = true ↔ self.len = other.len ∧ self.text m = other.text m)) ↔
      ¬ (self.text m = other.text m ∧ 32 ≤ self.len ∧ self.overhang m ≠ other.overhang m)) ∧
    ((∀ m', self.text m' = self.text m → other.text m' = other.text m →
        ∃ b, equals m' self other = .ok b ∧
          (b = true ↔ self.len = other.len ∧ self.text m = other.text m)) ↔
      ¬ (self.text m = other.text m ∧ 32 ≤ self.len ∧ self.len % 32 ≠ 0 ∧
        self.ptr ≠ other.ptr)) := by
  refine ⟨⟨_, equals_eq_overhang hself hother⟩, equals_right_iff hself hother, ?_, ?_⟩
  · rintro hall ⟨htext, hge, hpad, hptr⟩
    obtain ⟨m', hs, ho, hne⟩ := exists_overhang_ne_of_ne (text_eq_iff.mp htext).1 hpad hptr
    have hok := hall m' hs ho
    rw [← hs, ← ho] at hok htext
    exact (equals_right_iff hself hother).mp hok ⟨htext, hge, hne⟩
  · intro hcond m' hs ho
    rw [← hs, ← ho] at hcond ⊢
    refine (equals_right_iff hself hother).mpr ?_
    rintro ⟨htext, hge, hne⟩
    have hlen := (text_eq_iff.mp htext).1
    exact hcond ⟨htext, hge, fun hpad ↦ hne (overhang_eq hlen (.inl hpad)),
      fun hptr ↦ hne (overhang_eq hlen (.inr hptr))⟩

/-- A text that is longer than a word. -/
def longName : Bytes := List.replicate 33 97

/-- Memory with two strings: the text with another part after it, and the text alone. -/
def twoNames : Memory :=
  (((⟨fun _ ↦ 0, 0x80⟩ : Memory).allocString (longName ++ utf8 ", b")).2.allocString longName).2

/-- The part of the first string before its separator and the second string are the same text, and
not equal. -/
theorem equals_longName : ∃ p q s t self other, twoNames.HasString p s ∧ twoNames.HasString q t ∧
    self.Within (p + 32) (p + 32 + s.length) ∧ other.Within (q + 32) (q + 32 + t.length) ∧
    self.len = other.len ∧ self.text twoNames = other.text twoNames ∧
    equals twoNames self other = .ok false := by
  have hfirst := Memory.hasString_allocString ⟨fun _ ↦ 0, 0x80⟩
    (show (longName ++ utf8 ", b").length < wordSize by decide)
  refine ⟨0x80, 0xe0, longName ++ utf8 ", b", longName, ⟨33, 0xa0⟩, ⟨33, 0x100⟩,
    hfirst.of_extends (Memory.extends_allocString _ _),
    Memory.hasString_allocString _ (by decide), ⟨by decide, by decide⟩, ⟨by decide, by decide⟩,
    rfl, by decide, ?_⟩
  rw [equals_eq_overhang (by decide) (by decide)]
  exact congrArg Except.ok (by decide)

/-- Texts of at most 32 bytes are compared as they are, whatever follows. -/
theorem equals_text_iff_short : ∃ b, equals twoNames ⟨32, 0xa0⟩ ⟨32, 0x101⟩ = .ok b ∧
    (b = true ↔ (32 : Nat) = 32 ∧ Slice.text twoNames ⟨32, 0xa0⟩ =
      Slice.text twoNames ⟨32, 0x101⟩) :=
  (equals_text_iff twoNames ⟨32, 0xa0⟩ ⟨32, 0x101⟩ (by decide) (by decide)).2.1.mpr (by decide)

end StringUtils

end PunksBids
