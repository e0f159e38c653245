import PunksBids.Lib.Abi

/-!
# Memory

The byte-addressed memory of a call, with the pointer to its first free byte.  Any content is
possible everywhere: nothing is known of the bytes past the free pointer, and a word that is
loaded across the end of a string ends with whatever lies there.  Masks are how code that reads
whole words ignores such bytes, and `mload_and_mask_eq_iff` is the fact behind every masked
comparison: under the mask of the first `n` bytes, two words are equal exactly when those bytes
are.

`Memory.Extends` is the frame of an allocation: what lay below the free pointer is still there.
Running out of gas is not modelled, and neither is the allocator's own limit of `2 ^ 64` bytes,
which no call can pay for.
-/

set_option autoImplicit false

namespace Evm

structure Memory where
  /-- The content. -/
  byte : Nat → UInt8
  /-- The first address that is not allocated. -/
  free : Nat

namespace Memory

variable (m : Memory)

/-! ## Reading -/

/-- The `n` bytes from `p` on. -/
def read (p n : Nat) : Bytes := (List.range n).map fun i ↦ m.byte (p + i)

/-- `mload`. -/
def mload (p : Nat) : Uint256 := BitVec.ofNat 256 (ofBytes (m.read p 32))

@[simp] theorem length_read (p n : Nat) : (m.read p n).length = n := by simp [read]

@[simp] theorem read_zero (p : Nat) : m.read p 0 = [] := rfl

theorem read_add (p a b : Nat) : m.read p (a + b) = m.read p a ++ m.read (p + a) b := by
  simp [read, List.range_add, Function.comp_def, Nat.add_assoc]

theorem read_take {p n k : Nat} (h : k ≤ n) : (m.read p n).take k = m.read p k := by
  obtain ⟨d, rfl⟩ := Nat.exists_eq_add_of_le h
  rw [read_add, List.take_left' (length_read m p k)]

theorem read_drop {p n k : Nat} (h : k ≤ n) : (m.read p n).drop k = m.read (p + k) (n - k) := by
  obtain ⟨d, rfl⟩ := Nat.exists_eq_add_of_le h
  rw [read_add, List.drop_left' (length_read m p k), Nat.add_sub_cancel_left]

/-- Stretches of memory are equal piece by piece. -/
theorem read_add_inj {m m' : Memory} {p q a b : Nat} :
    m.read p (a + b) = m'.read q (a + b) ↔
      m.read p a = m'.read q a ∧ m.read (p + a) b = m'.read (q + a) b := by
  rw [read_add, read_add]
  refine ⟨fun h ↦ List.append_inj h (by simp), ?_⟩
  rintro ⟨h, h'⟩
  rw [h, h']

theorem read_congr {m m' : Memory} {p n : Nat} (h : ∀ a, p ≤ a → a < p + n → m'.byte a = m.byte a) :
    m'.read p n = m.read p n := by
  refine List.map_congr_left fun i hi ↦ h _ (by omega) ?_
  rw [List.mem_range] at hi
  omega

theorem toNat_mload (p : Nat) : (m.mload p).toNat = ofBytes (m.read p 32) := by
  have h := ofBytes_lt (m.read p 32)
  rw [length_read] at h
  rw [mload, BitVec.toNat_ofNat, Nat.mod_eq_of_lt (by omega)]

theorem byte_mem_read {p n i : Nat} (h : i < n) : m.byte (p + i) ∈ m.read p n :=
  List.mem_map.mpr ⟨i, List.mem_range.mpr h, rfl⟩

/-- A word that begins with a byte of seven bits is not negative as `int256`. -/
theorem toNat_mload_lt {p : Nat} (h : m.byte p < 128) : (m.mload p).toNat < 2 ^ 255 := by
  have hread : m.read p 32 = m.byte p :: m.read (p + 1) 31 := m.read_add p 1 31
  have hrest := ofBytes_lt (m.read (p + 1) 31)
  have hbyte : (m.byte p).toNat < 128 := UInt8.lt_iff_toNat_lt.mp h
  rw [length_read] at hrest
  rw [toNat_mload, hread, ofBytes_cons, length_read]
  omega

/-! ## Masks -/

/-- The mask of the bits from `k` on: `~(2 ** k - 1)`. -/
def mask (k : Nat) : Uint256 := ~~~ BitVec.ofNat 256 (2 ^ k - 1)

theorem getLsbD_and_mask (x : Uint256) (k i : Nat) :
    (x &&& mask k).getLsbD i = (decide (k ≤ i) && x.getLsbD i) := by
  by_cases hi : i < 256
  · rw [mask, BitVec.getLsbD_and, BitVec.getLsbD_not, BitVec.getLsbD_ofNat,
      Nat.testBit_two_pow_sub_one]
    by_cases hk : k ≤ i
    · simp [hi, hk]
    · simp [hi, hk, Nat.lt_of_not_le hk]
  · rw [BitVec.getLsbD_of_ge _ _ (by omega), BitVec.getLsbD_of_ge x _ (by omega), Bool.and_false]

/-- Under a mask, a word is what it was with its low bits cleared. -/
theorem toNat_and_mask (x : Uint256) (k : Nat) :
    (x &&& mask k).toNat = x.toNat / 2 ^ k * 2 ^ k := by
  have hshift : x &&& mask k = (x >>> k) <<< k := by
    refine BitVec.eq_of_getLsbD_eq fun i hi ↦ ?_
    rw [getLsbD_and_mask, BitVec.getLsbD_shiftLeft, BitVec.getLsbD_ushiftRight]
    by_cases hk : k ≤ i
    · simp [hi, hk, Nat.not_lt.mpr hk]
    · simp [hk, Nat.lt_of_not_le hk]
  have hle := Nat.div_mul_le_self x.toNat (2 ^ k)
  have hlt := x.isLt
  rw [hshift, BitVec.toNat_shiftLeft, BitVec.toNat_ushiftRight, Nat.shiftRight_eq_div_pow,
    Nat.shiftLeft_eq, Nat.mod_eq_of_lt (by omega)]

/-- Under a mask, words are what is left after dropping their low bits. -/
theorem and_mask_eq_iff {x y : Uint256} {k : Nat} :
    x &&& mask k = y &&& mask k ↔ x.toNat / 2 ^ k = y.toNat / 2 ^ k := by
  rw [← BitVec.toNat_inj, toNat_and_mask, toNat_and_mask]
  exact Nat.mul_left_inj (Nat.two_pow_pos k).ne'

/-- The first bytes of a word, as a number. -/
theorem toNat_mload_div (p : Nat) {n : Nat} (hn : n ≤ 32) :
    (m.mload p).toNat / 2 ^ (8 * (32 - n)) = ofBytes (m.read p n) := by
  have h := ofBytes_append_div (m.read p n) (m.read (p + n) (32 - n))
  rwa [← read_add, Nat.add_sub_cancel' hn, length_read, show 256 = 2 ^ 8 from rfl, ← Nat.pow_mul,
    ← toNat_mload] at h

/-- **Masked words compare the bytes under the mask.** -/
theorem mload_and_mask_eq_iff {m m' : Memory} {p q n : Nat} (hn : n ≤ 32) :
    m.mload p &&& mask (8 * (32 - n)) = m'.mload q &&& mask (8 * (32 - n)) ↔
      m.read p n = m'.read q n := by
  rw [and_mask_eq_iff, toNat_mload_div m p hn, toNat_mload_div m' q hn]
  exact ⟨fun h ↦ ofBytes_inj (by simp) h, fun h ↦ by rw [h]⟩

/-- **Masked words are ordered as the bytes under the mask.** -/
theorem mload_and_mask_lt_iff {m m' : Memory} {p q n : Nat} (hn : n ≤ 32) :
    (m.mload p &&& mask (8 * (32 - n))).toNat < (m'.mload q &&& mask (8 * (32 - n))).toNat ↔
      m.read p n < m'.read q n := by
  rw [toNat_and_mask, toNat_and_mask, Nat.mul_lt_mul_right (Nat.two_pow_pos _),
    toNat_mload_div m p hn, toNat_mload_div m' q hn]
  exact ofBytes_lt_iff (by simp)

/-- Whole words are ordered as their bytes. -/
theorem mload_lt_iff {m m' : Memory} {p q : Nat} :
    (m.mload p).toNat < (m'.mload q).toNat ↔ m.read p 32 < m'.read q 32 := by
  rw [toNat_mload, toNat_mload]
  exact ofBytes_lt_iff (by simp)

/-- Whole words compare all their bytes. -/
theorem mload_eq_iff {m m' : Memory} {p q : Nat} :
    m.mload p = m'.mload q ↔ m.read p 32 = m'.read q 32 := by
  rw [← BitVec.toNat_inj, toNat_mload, toNat_mload]
  exact ⟨fun h ↦ ofBytes_inj (by simp) h, fun h ↦ by rw [h]⟩

/-! ## Writing and allocating -/

/-- Write `bs` from `p` on. -/
def write (p : Nat) (bs : Bytes) : Memory :=
  { m with byte := fun a ↦ if p ≤ a then bs.getD (a - p) (m.byte a) else m.byte a }

/-- Allocate `n` bytes. -/
def reserve (n : Nat) : Memory := { m with free := m.free + n }

@[simp] theorem free_write (p : Nat) (bs : Bytes) : (m.write p bs).free = m.free := rfl

@[simp] theorem free_reserve (n : Nat) : (m.reserve n).free = m.free + n := rfl

@[simp] theorem read_reserve (k p n : Nat) : (m.reserve k).read p n = m.read p n := rfl

theorem read_write_self (p : Nat) (bs : Bytes) : (m.write p bs).read p bs.length = bs := by
  refine List.ext_getElem (by simp) fun i hi hi' ↦ ?_
  simp [read, write, hi']

theorem read_write_of_le {p q n : Nat} (bs : Bytes) (h : q + n ≤ p) :
    (m.write p bs).read q n = m.read q n := by
  refine read_congr fun a _ ha ↦ ?_
  simp only [write]
  rw [if_neg (by omega)]

/-- A `string` is its length, then its bytes; a multiple of 32 bytes is allocated for them.  The
result is the address of the length. -/
def allocString (s : Bytes) : Nat × Memory :=
  (m.free, ((m.write m.free (wordBytes (BitVec.ofNat 256 s.length))).write (m.free + 32) s).reserve
    (32 + (s.length + 31) / 32 * 32))

/-- The string at the address `p` is `s`. -/
structure HasString (p : Nat) (s : Bytes) : Prop where
  length_eq : (m.mload p).toNat = s.length
  read_eq : m.read (p + 32) s.length = s
  le_free : p + 32 + s.length ≤ m.free

/-- What lies below the free pointer of `m` is the same in `m'`. -/
structure Extends (m' : Memory) : Prop where
  free_le : m.free ≤ m'.free
  byte_eq : ∀ a < m.free, m'.byte a = m.byte a

variable {m}

theorem Extends.refl (m : Memory) : m.Extends m := ⟨Nat.le_refl _, fun _ _ ↦ rfl⟩

theorem Extends.trans {m₁ m₂ m₃ : Memory} (h : m₁.Extends m₂) (h' : m₂.Extends m₃) :
    m₁.Extends m₃ :=
  ⟨Nat.le_trans h.free_le h'.free_le,
    fun a ha ↦ (h'.byte_eq a (Nat.lt_of_lt_of_le ha h.free_le)).trans (h.byte_eq a ha)⟩

theorem Extends.read_eq {m' : Memory} (h : m.Extends m') {p n : Nat} (hp : p + n ≤ m.free) :
    m'.read p n = m.read p n :=
  read_congr fun a _ ha ↦ h.byte_eq a (by omega)

theorem extends_reserve (m : Memory) (n : Nat) : m.Extends (m.reserve n) :=
  ⟨Nat.le_add_right _ _, fun _ _ ↦ rfl⟩

theorem HasString.of_extends {m' : Memory} {p : Nat} {s : Bytes} (h : m.HasString p s)
    (he : m.Extends m') : m'.HasString p s := by
  have hle := h.le_free
  refine ⟨?_, ?_, Nat.le_trans hle he.free_le⟩
  · rw [← h.length_eq, toNat_mload, toNat_mload, he.read_eq (by omega)]
  · rw [he.read_eq hle, h.read_eq]

theorem extends_allocString (m : Memory) (s : Bytes) : m.Extends (m.allocString s).2 := by
  refine ⟨by simp [allocString], fun a ha ↦ ?_⟩
  simp only [allocString, reserve, write]
  rw [if_neg (by omega), if_neg (by omega)]

theorem hasString_allocString (m : Memory) {s : Bytes} (hs : s.length < wordSize) :
    (m.allocString s).2.HasString (m.allocString s).1 s := by
  refine ⟨?_, ?_, ?_⟩
  · have h := read_write_self m m.free (wordBytes (BitVec.ofNat 256 s.length))
    rw [length_wordBytes] at h
    rw [toNat_mload, allocString, read_reserve, read_write_of_le _ _ (by omega), h, wordBytes,
      ofBytes_toBytes (by rw [BitVec.toNat_ofNat]; omega), BitVec.toNat_ofNat,
      Nat.mod_eq_of_lt (show s.length < 2 ^ 256 from hs)]
  · rw [allocString, read_reserve, read_write_self]
  · simp only [allocString, free_reserve, free_write]
    omega

end Memory

end Evm
