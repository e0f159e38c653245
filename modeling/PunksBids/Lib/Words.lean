import Mathlib.Algebra.Order.Ring.Nat
import Mathlib.Data.BitVec
import Mathlib.Data.List.Induction
import Mathlib.Data.UInt

/-!
# Machine words and the bytes they are written as

The EVM moves data in words of 256 bits, and everything that is hashed or compared is first
written out as bytes, most significant byte first.  This file fixes the types and proves the two
facts every encoding argument comes down to: a byte string of known length determines its value
(`ofBytes_inj`), and a value that fits determines its byte string (`ofBytes_toBytes`).

`StaticValue` is the class of types that occupy exactly one word when they are encoded.  Its
second field is the reason a word can be read back, so that no instance can be given for a type
that does not fit.
-/

set_option autoImplicit false

namespace Evm

/-- A string of bytes, as it lies in memory, in calldata or in the input of a hash. -/
abbrev Bytes := List UInt8

/-- `uint256`. -/
abbrev Uint256 := BitVec 256

/-- `bytes32`. -/
abbrev Bytes32 := BitVec 256

/-- `address`. -/
abbrev Address := BitVec 160

/-- The number of values of a machine word: checked arithmetic fails from here on. -/
def wordSize : Nat := 2 ^ 256

theorem Uint256.sub_eq_zero_iff (v w : Uint256) : v - w = 0 ↔ v = w := by
  constructor <;> intro h <;> bv_omega

/-- The difference of two words that are not negative as `int256`. -/
theorem Uint256.toInt_sub {v w : Uint256} (hv : v.toNat < 2 ^ 255) (hw : w.toNat < 2 ^ 255) :
    (v - w).toInt = (v.toNat : Int) - w.toNat := by
  rw [BitVec.toInt_eq_toNat_cond, BitVec.toNat_sub]
  omega

/-! ## Base 256, most significant byte first -/

/-- The number a byte string denotes. -/
def ofBytes (bs : Bytes) : Nat := bs.foldl (fun n b ↦ n * 256 + b.toNat) 0

/-- The last `k` base-256 digits of `n`. -/
def toBytes : Nat → Nat → Bytes
  | 0, _ => []
  | k + 1, n => toBytes k (n / 256) ++ [UInt8.ofNat n]

@[simp] theorem ofBytes_nil : ofBytes [] = 0 := rfl

theorem ofBytes_concat (bs : Bytes) (b : UInt8) :
    ofBytes (bs ++ [b]) = ofBytes bs * 256 + b.toNat := by
  simp [ofBytes]

theorem ofBytes_append (xs ys : Bytes) :
    ofBytes (xs ++ ys) = ofBytes xs * 256 ^ ys.length + ofBytes ys := by
  induction ys using List.reverseRecOn with
  | nil => simp
  | append_singleton ys b ih =>
    rw [← List.append_assoc, ofBytes_concat, ofBytes_concat, ih, List.length_append,
      List.length_singleton, Nat.pow_succ]
    grind

theorem ofBytes_lt (bs : Bytes) : ofBytes bs < 256 ^ bs.length := by
  induction bs using List.reverseRecOn with
  | nil => simp
  | append_singleton bs b ih =>
    have hb := b.toNat_lt
    rw [ofBytes_concat, List.length_append, List.length_singleton, Nat.pow_succ]
    omega

/-- **Byte strings of one length are numbers**: equal values mean equal bytes. -/
theorem ofBytes_inj {xs ys : Bytes} (hlen : xs.length = ys.length) (h : ofBytes xs = ofBytes ys) :
    xs = ys := by
  induction xs using List.reverseRecOn generalizing ys with
  | nil => exact (List.length_eq_zero_iff.mp hlen.symm).symm
  | append_singleton xs x ih =>
    obtain ⟨ys, y, rfl⟩ : ∃ zs z, ys = zs ++ [z] := by
      rcases List.eq_nil_or_concat ys with rfl | ⟨zs, z, rfl⟩
      · simp at hlen
      · exact ⟨zs, z, List.concat_eq_append⟩
    rw [ofBytes_concat, ofBytes_concat] at h
    have hx := x.toNat_lt
    have hy := y.toNat_lt
    have hxy : x = y := UInt8.toNat_inj.mp (by omega)
    rw [ih (by simpa using hlen) (by omega), hxy]

theorem ofBytes_cons (b : UInt8) (bs : Bytes) :
    ofBytes (b :: bs) = b.toNat * 256 ^ bs.length + ofBytes bs := by
  have h := ofBytes_append [b] bs
  simpa [ofBytes] using h

/-- **Byte strings of one length are ordered as numbers.** -/
theorem ofBytes_lt_iff {xs ys : Bytes} (hlen : xs.length = ys.length) :
    ofBytes xs < ofBytes ys ↔ xs < ys := by
  induction xs generalizing ys with
  | nil =>
    obtain rfl := List.length_eq_zero_iff.mp hlen.symm
    simp
  | cons x xs ih =>
    obtain ⟨y, ys, rfl⟩ := List.exists_cons_of_length_eq_add_one hlen.symm
    have hlen : xs.length = ys.length := by simpa using hlen
    have hxs := ofBytes_lt xs
    have hys := ofBytes_lt ys
    rw [List.cons_lt_cons_iff, ← ih hlen, ofBytes_cons, ofBytes_cons, UInt8.lt_iff_toNat_lt,
      ← UInt8.toNat_inj]
    rw [← hlen] at hys ⊢
    rcases Nat.lt_trichotomy x.toNat y.toNat with hlt | heq | hgt
    · have hle := Nat.mul_le_mul_right (256 ^ xs.length) (Nat.succ_le_of_lt hlt)
      rw [Nat.succ_mul] at hle
      exact iff_of_true (by omega) (.inl hlt)
    · rw [heq]
      omega
    · have hle := Nat.mul_le_mul_right (256 ^ xs.length) (Nat.succ_le_of_lt hgt)
      rw [Nat.succ_mul] at hle
      exact iff_of_false (by omega) (by omega)

@[simp] theorem length_toBytes (k n : Nat) : (toBytes k n).length = k := by
  induction k generalizing n with
  | zero => rfl
  | succ k ih => simp [toBytes, ih]

theorem ofBytes_toBytes {k n : Nat} (h : n < 256 ^ k) : ofBytes (toBytes k n) = n := by
  induction k generalizing n with
  | zero => simp only [Nat.pow_zero, Nat.lt_one_iff] at h; subst h; rfl
  | succ k ih =>
    have hdiv : n / 256 < 256 ^ k := by
      rw [Nat.pow_succ] at h
      omega
    rw [toBytes, ofBytes_concat, ih hdiv, UInt8.toNat_ofNat']
    omega

/-- Dropping the low digits of a byte string's value leaves the value of its first bytes. -/
theorem ofBytes_append_div (xs ys : Bytes) :
    ofBytes (xs ++ ys) / 256 ^ ys.length = ofBytes xs := by
  have hpos : 0 < 256 ^ ys.length := Nat.pow_pos (by decide)
  rw [ofBytes_append, Nat.mul_comm, Nat.mul_add_div hpos, Nat.div_eq_of_lt (ofBytes_lt ys),
    Nat.add_zero]

/-! ## One word -/

/-- The 32 bytes of a word. -/
def wordBytes (w : Uint256) : Bytes := toBytes 32 w.toNat

@[simp] theorem length_wordBytes (w : Uint256) : (wordBytes w).length = 32 := length_toBytes _ _

theorem wordBytes_injective : Function.Injective wordBytes := by
  intro v w h
  have hv : ofBytes (wordBytes v) = v.toNat := ofBytes_toBytes (by have := v.isLt; omega)
  have hw : ofBytes (wordBytes w) = w.toNat := ofBytes_toBytes (by have := w.isLt; omega)
  exact BitVec.eq_of_toNat_eq (by rw [← hv, ← hw, h])

/-- A type whose values are encoded as one word, each as a different one. -/
class StaticValue (α : Type) where
  /-- The word of a value, zero-extended on the left. -/
  word : α → Uint256
  /-- The word determines the value. -/
  word_injective : Function.Injective word

export StaticValue (word)

instance : StaticValue Uint256 := ⟨id, Function.injective_id⟩

instance : StaticValue Address where
  word a := a.setWidth 256
  word_injective a b h := by
    have := congrArg (BitVec.setWidth 160) h
    simpa using this

instance : StaticValue UInt8 where
  word n := BitVec.ofNat 256 n.toNat
  word_injective a b h := by
    have ha := a.toNat_lt
    have hb := b.toNat_lt
    have := congrArg BitVec.toNat h
    simp only [BitVec.toNat_ofNat] at this
    exact UInt8.toNat_inj.mp (by omega)

instance : StaticValue UInt16 where
  word n := BitVec.ofNat 256 n.toNat
  word_injective a b h := by
    have ha := a.toNat_lt
    have hb := b.toNat_lt
    have := congrArg BitVec.toNat h
    simp only [BitVec.toNat_ofNat] at this
    exact UInt16.toNat_inj.mp (by omega)

instance : StaticValue Bool where
  word b := if b then 1 else 0
  word_injective a b h := by revert h; cases a <;> cases b <;> decide

theorem word_inj {α : Type} [StaticValue α] {a b : α} (h : word a = word b) : a = b :=
  StaticValue.word_injective h

end Evm
