import PunksBids.Matching.Equality

/-!
# The sign of a comparison

`equals` asks `compare` only whether the result is zero.  The sign has a meaning too, and it is not
the one the comment above the function gives: the words are subtracted as they stand, so the result
is positive if `self` comes after `other` (`compare_order`).

The order is that of the bytes.  A word is read most significant byte first, so words are ordered as
their bytes are (`ofBytes_lt_iff`), with a mask or without one; and as long as no word begins with a
byte of more than seven bits, the difference of two words has the right sign as an `int256`.  Only
the first byte of a word has to be one of seven bits, since a difference further on is too small to
reach the sign; in an ASCII text all are.
-/

set_option autoImplicit false

namespace PunksBids

open Evm Text

namespace StringUtils

variable {m : Memory} {self other : Slice}

/-! ## Order and sign -/

/-- The sign of `d` tells how `x` and `y` are ordered: it is positive if `x` comes after `y`. -/
structure Orders (d : Int) (x y : Bytes) : Prop where
  pos_iff : 0 < d ↔ y < x
  neg_iff : d < 0 ↔ x < y

/-- Texts are ordered by the first part in which they differ. -/
theorem append_lt_append_iff {a b c e : Bytes} (hlen : a.length = c.length) :
    a ++ b < c ++ e ↔ a < c ∨ a = c ∧ b < e := by
  induction a generalizing c with
  | nil =>
    obtain rfl := List.length_eq_zero_iff.mp hlen.symm
    simp
  | cons x a ih =>
    obtain ⟨y, c, rfl⟩ := List.exists_cons_of_length_eq_add_one hlen.symm
    have hlen : a.length = c.length := by simpa using hlen
    simp only [List.cons_append, List.cons_lt_cons_iff, ih hlen, List.cons.injEq]
    tauto

theorem orders_append_of_ne {d : Int} {a b c e : Bytes} (hlen : a.length = c.length) (hne : a ≠ c) :
    Orders d (a ++ b) (c ++ e) ↔ Orders d a c := by
  have hlt : a ++ b < c ++ e ↔ a < c := by
    rw [append_lt_append_iff hlen]
    tauto
  have hgt : c ++ e < a ++ b ↔ c < a := by
    rw [append_lt_append_iff hlen.symm]
    tauto
  exact ⟨fun h ↦ ⟨h.pos_iff.trans hgt, h.neg_iff.trans hlt⟩,
    fun h ↦ ⟨h.pos_iff.trans hgt.symm, h.neg_iff.trans hlt.symm⟩⟩

theorem Orders.append_self {d : Int} {b e : Bytes} (h : Orders d b e) (a : Bytes) :
    Orders d (a ++ b) (a ++ e) := by
  have hlt (b e : Bytes) : a ++ b < a ++ e ↔ b < e := by
    rw [append_lt_append_iff rfl, and_iff_right rfl]
    exact or_iff_right (List.lt_irrefl a)
  exact ⟨h.pos_iff.trans (hlt e b).symm, h.neg_iff.trans (hlt b e).symm⟩

/-- If one of two texts is empty, their lengths tell the order. -/
theorem orders_length {x y : Bytes} (h : x = [] ∨ y = []) :
    Orders ((x.length : Int) - y.length) x y := by
  rcases h with rfl | rfl
  · cases y with
    | nil => exact ⟨by simp, by simp⟩
    | cons b y => exact ⟨by simp, by simp; omega⟩
  · cases x with
    | nil => exact ⟨by simp, by simp⟩
    | cons b x => exact ⟨by simp, by simp; omega⟩

/-! ## One word -/

/-- The difference of words that are not negative tells their order. -/
theorem orders_sub {x y : Bytes} {v w : Uint256} (hv : v.toNat < 2 ^ 255) (hw : w.toNat < 2 ^ 255)
    (hlt : v.toNat < w.toNat ↔ x < y) (hgt : w.toNat < v.toNat ↔ y < x) :
    Orders (v - w).toInt x y := by
  rw [Uint256.toInt_sub hv hw]
  exact ⟨by rw [← hgt]; omega, by rw [← hlt]; omega⟩

/-- **One word of a comparison tells the order of the bytes that count.** -/
theorem compareWord_orders {n idx p q : Nat} (hidx : idx < n) (hfirst : n < 32 → idx = 0)
    (hp : m.byte p < 128) (hq : m.byte q < 128) :
    ∃ diff, compareWord m n idx p q = .ok diff ∧
      Orders diff.toInt (m.read p (min n 32)) (m.read q (min n 32)) := by
  have hp := m.toNat_mload_lt hp
  have hq := m.toNat_mload_lt hq
  rw [compareWord]
  by_cases hab : m.mload p = m.mload q
  · have hread := congrArg (List.take (min n 32)) (Memory.mload_eq_iff.mp hab)
    rw [m.read_take (Nat.min_le_right n 32), m.read_take (Nat.min_le_right n 32)] at hread
    refine ⟨0, by simp [hab], ?_⟩
    rw [hread]
    exact ⟨by simp, by simp⟩
  rcases Nat.lt_or_ge n 32 with hlt | hge
  · obtain rfl := hfirst hlt
    refine ⟨_, by rw [if_pos hab, compareMask_eq hidx hlt]; rfl, ?_⟩
    have hle (x : Uint256) (k : Nat) : (x &&& Memory.mask k).toNat ≤ x.toNat := by
      rw [Memory.toNat_and_mask]
      exact Nat.div_mul_le_self _ _
    rw [Nat.min_eq_left (Nat.le_of_lt hlt)]
    exact orders_sub (Nat.lt_of_le_of_lt (hle _ _) hp) (Nat.lt_of_le_of_lt (hle _ _) hq)
      (Memory.mload_and_mask_lt_iff (Nat.le_of_lt hlt))
      (Memory.mload_and_mask_lt_iff (Nat.le_of_lt hlt))
  · refine ⟨_, by rw [if_pos hab, compareMask_of_le hge]; rfl, ?_⟩
    rw [Nat.min_eq_right hge, BitVec.and_allOnes, BitVec.and_allOnes]
    exact orders_sub hp hq Memory.mload_lt_iff Memory.mload_lt_iff

/-! ## The loop -/

/-- With `k` words left, and after them texts whose order the lengths tell: the result tells the
order of all that is left. -/
theorem compareLoop_orders {n idx p q k : Nat} {x y : Bytes} (hself : self.len < 2 ^ 255)
    (hother : other.len < 2 ^ 255) (hk : idx + 32 * k = 32 * wordCount n)
    (hn : 32 * wordCount n < wordSize) (hp : p + 32 * k < wordSize) (hq : q + 32 * k < wordSize)
    (hbytes : ∀ j < k, m.byte (p + 32 * j) < 128 ∧ m.byte (q + 32 * j) < 128)
    (hxy : Orders ((self.len : Int) - other.len) x y) :
    ∃ d, compareLoop m self other n idx p q = .ok d ∧
      Orders d (m.read p (k * min n 32) ++ x) (m.read q (k * min n 32) ++ y) := by
  induction k generalizing idx p q with
  | zero =>
    rw [compareLoop, dif_neg (by rw [wordCount] at hk; omega), checkedSubInt_len hself hother]
    refine ⟨_, rfl, ?_⟩
    simpa using hxy
  | succ k ih =>
    have hidx : idx < n := by rw [wordCount] at hk; omega
    have hfirst : n < 32 → k = 0 ∧ idx = 0 := by rw [wordCount] at hk; omega
    obtain ⟨hpbyte, hqbyte⟩ := hbytes 0 (by omega)
    obtain ⟨diff, hdiff, hzero⟩ := compareWord_eq (m := m) (p := p) (q := q) hidx
      fun hlt ↦ (hfirst hlt).2
    obtain ⟨diff', hdiff', horders⟩ := compareWord_orders (m := m) (p := p) (q := q) hidx
      (fun hlt ↦ (hfirst hlt).2) hpbyte hqbyte
    obtain rfl : diff = diff' := Except.ok.inj (hdiff.symm.trans hdiff')
    rw [compareLoop, dif_pos hidx, hdiff, Except.ok_bind]
    rw [Nat.succ_mul, Nat.add_comm (k * _), m.read_add, m.read_add, List.append_assoc,
      List.append_assoc]
    by_cases h0 : diff = 0
    · have hnext (a : Nat) :
          m.read (a + min n 32) (k * min n 32) = m.read (a + 32) (k * min n 32) := by
        rcases Nat.lt_or_ge n 32 with hlt | hge
        · rw [(hfirst hlt).1, Nat.zero_mul, Memory.read_zero, Memory.read_zero]
        · rw [Nat.min_eq_right hge]
      have hbytes' : ∀ j < k, m.byte (p + 32 + 32 * j) < 128 ∧ m.byte (q + 32 + 32 * j) < 128 := by
        intro j hj
        have hj := hbytes (j + 1) (by omega)
        rwa [Nat.mul_succ, Nat.add_comm (32 * j), ← Nat.add_assoc, ← Nat.add_assoc] at hj
      rw [if_neg (not_not.mpr h0), checkedAdd_ok (by omega), Except.ok_bind,
        checkedAdd_ok (by omega), Except.ok_bind, checkedAdd_ok (by omega), Except.ok_bind,
        hzero.mp h0, hnext, hnext]
      obtain ⟨d, hd, hrest⟩ : ∃ d, compareLoop m self other n (idx + 32) (p + 32) (q + 32) = .ok d ∧
          Orders d (m.read (p + 32) (k * min n 32) ++ x) (m.read (q + 32) (k * min n 32) ++ y) :=
        ih (by omega) (by omega) (by omega) hbytes'
      exact ⟨d, hd, hrest.append_self _⟩
    · rw [if_pos h0]
      exact ⟨_, rfl, (orders_append_of_ne (by simp) (mt hzero.mpr h0)).mpr horders⟩

/-! ## `compare` -/

/-- Where `compare` looks at no byte after the shorter text, or does not depend on it. -/
theorem orders_text {d : Int} {n : Nat} {x y : Bytes} {p q : Nat}
    (hsure : compared n = n ∨ m.read p n ≠ m.read q n)
    (h : Orders d (m.read p (compared n) ++ x) (m.read q (compared n) ++ y)) :
    Orders d (m.read p n ++ x) (m.read q n ++ y) := by
  by_cases heq : compared n = n
  · rwa [heq] at h
  · have hne := hsure.resolve_left heq
    obtain ⟨c, hc⟩ : ∃ c, compared n = n + c := by
      refine Nat.exists_eq_add_of_le ?_
      rcases Nat.lt_or_ge n 32 with hlt | hge
      · exact absurd (compared_of_le (Nat.le_of_lt hlt)) heq
      · rw [compared_of_ge hge]
        omega
    rw [hc, m.read_add, m.read_add, List.append_assoc, List.append_assoc,
      orders_append_of_ne (by simp) hne] at h
    exact (orders_append_of_ne (by simp) hne).mpr h

/-- **The sign of `compare`.**  For slices in any memory that can be paid for, of ASCII texts: the
result is positive exactly if `self` comes after `other`, and negative exactly if it comes before,
in the order of the bytes; if the shorter text has no more than 32 bytes, or fills its last word, or
neither is the beginning of the other. -/
theorem compare_order (m : Memory) (self other : Slice) (hself : self.ptr + self.len < 2 ^ 255)
    (hother : other.ptr + other.len < 2 ^ 255) (hascii : ∀ b ∈ self.text m, b < 128)
    (hascii' : ∀ b ∈ other.text m, b < 128)
    (hsure : min self.len other.len ≤ 32 ∨ min self.len other.len % 32 = 0 ∨
      (¬ self.text m <+: other.text m ∧ ¬ other.text m <+: self.text m)) :
    ∃ d, compare m self other = .ok d ∧
      (0 < d ↔ other.text m < self.text m) ∧ (d < 0 ↔ self.text m < other.text m) := by
  have hshortest : (if other.len < self.len then other.len else self.len) =
      min self.len other.len := by
    split <;> omega
  obtain ⟨n, hn⟩ : ∃ n, n = min self.len other.len := ⟨_, rfl⟩
  rw [← hn] at hsure hshortest
  have htext (s : Slice) (hle : n ≤ s.len) :
      s.text m = m.read s.ptr n ++ m.read (s.ptr + n) (s.len - n) := by
    rw [Slice.text, ← m.read_add, Nat.add_sub_cancel' hle]
  have hselfText := htext self (by omega)
  have hotherText := htext other (by omega)
  have hrest : Orders ((self.len : Int) - other.len) (m.read (self.ptr + n) (self.len - n))
      (m.read (other.ptr + n) (other.len - n)) := by
    have hlens := orders_length (x := m.read (self.ptr + n) (self.len - n))
      (y := m.read (other.ptr + n) (other.len - n)) (by
        rw [← List.length_eq_zero_iff, ← List.length_eq_zero_iff, m.length_read, m.length_read]
        omega)
    rw [m.length_read, m.length_read] at hlens
    rwa [show (self.len : Int) - other.len = (self.len - n : Nat) - (other.len - n : Nat) by omega]
  have hbytes : ∀ j < wordCount n,
      m.byte (self.ptr + 32 * j) < 128 ∧ m.byte (other.ptr + 32 * j) < 128 := by
    intro j hj
    have hj : 32 * j < n := by rw [wordCount] at hj; omega
    exact ⟨hascii _ (m.byte_mem_read (by omega)), hascii' _ (m.byte_mem_read (by omega))⟩
  obtain ⟨d, hd, horders⟩ := compareLoop_orders (m := m) (n := n) (by omega) (by omega)
    (Nat.zero_add _) (by rw [wordCount, wordSize]; omega) (by rw [wordCount, wordSize]; omega)
    (by rw [wordCount, wordSize]; omega) hbytes hrest
  refine ⟨d, by rw [compare, hshortest, hd], ?_⟩
  have hdecided : compared n = n ∨ m.read self.ptr n ≠ m.read other.ptr n := by
    rcases hsure with hle | hfull | ⟨hno, hno'⟩
    · exact .inl (compared_of_le hle)
    · rcases Nat.lt_or_ge n 32 with hlt | hge
      · exact .inl (compared_of_le (Nat.le_of_lt hlt))
      · refine .inl ?_
        rw [compared_of_ge hge]
        omega
    · refine .inr fun heq ↦ ?_
      rw [hselfText, hotherText, heq] at hno hno'
      rcases Nat.le_total self.len other.len with hle | hle
      · rw [show self.len - n = 0 by omega, Memory.read_zero, List.append_nil] at hno
        exact hno (List.prefix_append _ _)
      · rw [show other.len - n = 0 by omega, Memory.read_zero, List.append_nil] at hno'
        exact hno' (List.prefix_append _ _)
  have horders := orders_text hdecided horders
  rw [← hselfText, ← hotherText] at horders
  exact ⟨horders.pos_iff, horders.neg_iff⟩

/-- The text of the first string is `Hat`, that of the second `Ape`. -/
def hatAndApe : Memory :=
  (((⟨fun _ ↦ 0, 0x80⟩ : Memory).allocString (utf8 "Hat")).2.allocString (utf8 "Ape")).2

/-- `Hat` comes after `Ape`. -/
theorem compare_order_hatAndApe :
    ∃ d, compare hatAndApe ⟨3, 0xa0⟩ ⟨3, 0xe0⟩ = .ok d ∧ 0 < d := by
  have hhat : (Slice.text hatAndApe ⟨3, 0xa0⟩).all (· < 128) = true := by decide
  have hape : (Slice.text hatAndApe ⟨3, 0xe0⟩).all (· < 128) = true := by decide
  obtain ⟨d, hd, hpos, -⟩ := compare_order hatAndApe ⟨3, 0xa0⟩ ⟨3, 0xe0⟩ (by decide) (by decide)
    (fun b hb ↦ of_decide_eq_true (List.all_eq_true.mp hhat b hb))
    (fun b hb ↦ of_decide_eq_true (List.all_eq_true.mp hape b hb)) (.inl (by decide))
  exact ⟨d, hd, hpos.mpr (by decide)⟩

end StringUtils

end PunksBids
