import PunksBids.Lib.Checked
import PunksBids.Lib.Memory

/-!
# `StringUtils.sol`

The slice library, function by function.  A slice is a pair of numbers that point into memory and
is kept as a value; a function that changes a slice in place returns the new one.  Loops are
recursive functions of their own, named after the function they are in, with the loop's variables
as arguments and the loop's own condition as the reason they end.

`~(2 ** (8 * n) - 1)` occurs in three functions, with checked arithmetic in each.
-/

set_option autoImplicit false

namespace PunksBids

open Evm

namespace StringUtils

/-- A part of a string in memory. -/
structure Slice where
  /-- `_len`. -/
  len : Nat
  /-- `_ptr`. -/
  ptr : Nat
  deriving DecidableEq, Repr

variable (m : Memory)

/-- A slice containing the entire string at the address `self`. -/
def toSlice (self : Nat) : Slice where
  len := (m.mload self).toNat
  ptr := (self + 0x20) % wordSize

/-- `~(2 ** (8 * n) - 1)`. -/
def complementMask (n : Nat) : Except Panic Uint256 := do
  let k ← checkedMul 8 n
  let p ← checkedPow 2 k
  let q ← checkedSub p 1
  return ~~~ BitVec.ofNat 256 q

/-- `int256(n)`. -/
def int256 (n : Nat) : Int := (BitVec.ofNat 256 n).toInt

/-- `a - b` on `int256`. -/
def checkedSubInt (a b : Int) : Except Panic Int :=
  if -2 ^ 255 ≤ a - b ∧ a - b < 2 ^ 255 then .ok (a - b) else .error .arithmetic

/-! ## `compare` and `equals` -/

/-- The variable `mask` of `compare`. -/
def compareMask (shortest idx : Nat) : Except Panic Uint256 := do
  if shortest < 32 then
    complementMask (← checkedAdd (← checkedSub 32 shortest) idx)
  else
    return BitVec.allOnes 256

/-- The difference of the words at two addresses, after masking out irrelevant bytes. -/
def compareWord (shortest idx selfptr otherptr : Nat) : Except Panic Uint256 := do
  let a := m.mload selfptr
  let b := m.mload otherptr
  if a ≠ b then
    let mask ← compareMask shortest idx
    return (a &&& mask) - (b &&& mask)
  else
    return 0

/-- The loop of `compare`. -/
def compareLoop (self other : Slice) (shortest idx selfptr otherptr : Nat) : Except Panic Int :=
  if _h : idx < shortest then do
    let diff ← compareWord m shortest idx selfptr otherptr
    if diff ≠ 0 then
      return diff.toInt
    else
      let selfptr ← checkedAdd selfptr 32
      let otherptr ← checkedAdd otherptr 32
      let _ ← checkedAdd idx 32
      compareLoop self other shortest (idx + 32) selfptr otherptr
  else
    checkedSubInt (int256 self.len) (int256 other.len)
termination_by shortest - idx

/-- The comment of the source promises a positive number if `other` comes after `self`, a negative
number if it comes before, and zero if the contents of the two slices are equal. -/
def compare (self other : Slice) : Except Panic Int :=
  compareLoop m self other (if other.len < self.len then other.len else self.len) 0 self.ptr
    other.ptr

/-- True if the two slices contain the same text. -/
def equals (self other : Slice) : Except Panic Bool := do
  return decide ((← compare m self other) = 0)

/-! ## `findPtr` and `rfindPtr` -/

/-- The variable `mask` of `findPtr` and `rfindPtr`. -/
def needleMask (needlelen : Nat) : Except Panic Uint256 := do
  if needlelen ≠ 0 then
    complementMask (← checkedSub 32 needlelen)
  else
    return 0

/-- The loop of `findPtr` for a needle of at most 32 bytes; `last` is the variable `end`. -/
def findPtrMasked (mask needledata : Uint256) (selflen selfptr last ptr : Nat) :
    Except Panic Nat :=
  if m.mload ptr &&& mask = needledata then
    return ptr
  else if _h : last ≤ ptr then
    checkedAdd selfptr selflen
  else do
    let _ ← checkedAdd ptr 1
    findPtrMasked mask needledata selflen selfptr last (ptr + 1)
termination_by last - ptr

/-- The loop of `findPtr` for a long needle; `last` is `selflen - needlelen`. -/
def findPtrHashed (hash : Bytes32) (selflen selfptr needlelen last idx ptr : Nat) :
    Except Panic Nat :=
  if _h : idx ≤ last then
    if hash = keccak256 (m.read ptr needlelen) then
      return ptr
    else do
      let ptr ← checkedAdd ptr 1
      let _ ← checkedAdd idx 1
      findPtrHashed hash selflen selfptr needlelen last (idx + 1) ptr
  else
    checkedAdd selfptr selflen
termination_by last + 1 - idx

/-- The memory address of the first byte of the first occurrence of `needle` in `self`, or the
first byte after `self` if not found. -/
def findPtr (selflen selfptr needlelen needleptr : Nat) : Except Panic Nat := do
  if needlelen ≤ selflen then
    if needlelen ≤ 32 then
      let mask ← needleMask needlelen
      let needledata := m.mload needleptr &&& mask
      let last ← checkedSub (← checkedAdd selfptr selflen) needlelen
      findPtrMasked m mask needledata selflen selfptr last selfptr
    else
      let hash := keccak256 (m.read needleptr needlelen)
      findPtrHashed m hash selflen selfptr needlelen (← checkedSub selflen needlelen) 0 selfptr
  else
    checkedAdd selfptr selflen

/-- The loop of `rfindPtr` for a needle of at most 32 bytes. -/
def rfindPtrMasked (mask needledata : Uint256) (selfptr needlelen ptr : Nat) : Except Panic Nat :=
  if m.mload ptr &&& mask = needledata then
    checkedAdd ptr needlelen
  else if _h : ptr ≤ selfptr then
    return selfptr
  else do
    let _ ← checkedSub ptr 1
    rfindPtrMasked mask needledata selfptr needlelen (ptr - 1)
termination_by ptr

/-- The loop of `rfindPtr` for a long needle. -/
def rfindPtrHashed (hash : Bytes32) (selfptr needlelen ptr : Nat) : Except Panic Nat :=
  if selfptr ≤ ptr then
    if hash = keccak256 (m.read ptr needlelen) then
      checkedAdd ptr needlelen
    else if _h : ptr = 0 then
      throw .arithmetic
    else
      rfindPtrHashed hash selfptr needlelen (ptr - 1)
  else
    return selfptr
termination_by ptr

/-- The memory address of the first byte after the last occurrence of `needle` in `self`, or the
address of `self` if not found. -/
def rfindPtr (selflen selfptr needlelen needleptr : Nat) : Except Panic Nat := do
  if needlelen ≤ selflen then
    if needlelen ≤ 32 then
      let mask ← needleMask needlelen
      let needledata := m.mload needleptr &&& mask
      let ptr ← checkedSub (← checkedAdd selfptr selflen) needlelen
      rfindPtrMasked m mask needledata selfptr needlelen ptr
    else
      let hash := keccak256 (m.read needleptr needlelen)
      let ptr ← checkedAdd selfptr (← checkedSub selflen needlelen)
      rfindPtrHashed m hash selfptr needlelen ptr
  else
    return selfptr

/-! ## `split`, `count` and `contains` -/

/-- Splits the slice: the text before the first occurrence of `needle`, and what is left of `self`
after it. -/
def split (self needle : Slice) : Except Panic (Slice × Slice) := do
  let ptr ← findPtr m self.len self.ptr needle.len needle.ptr
  let token : Slice := { ptr := self.ptr, len := ← checkedSub ptr self.ptr }
  if ptr = (← checkedAdd self.ptr self.len) then
    return (token, { self with len := 0 })
  else
    let len ← checkedSub self.len (← checkedAdd token.len needle.len)
    return (token, { len := len, ptr := ← checkedAdd ptr needle.len })

/-- The loop of `count`.  When `ptr` does not advance, the loop is where it was before. -/
def countLoop (self needle : Slice) (cnt ptr : Nat) : Except Panic Nat := do
  let _ ← checkedAdd self.ptr self.len
  if _h : ptr ≤ self.ptr + self.len then
    let cnt ← checkedAdd cnt 1
    let rest ← checkedSub self.len (← checkedSub ptr self.ptr)
    let next ← checkedAdd (← findPtr m rest ptr needle.len needle.ptr) needle.len
    if _h' : ptr < next then
      countLoop self needle cnt next
    else
      throw .outOfGas
  else
    return cnt
termination_by self.ptr + self.len + 1 - ptr

/-- Counts the number of nonoverlapping occurrences of `needle` in `self`. -/
def count (self needle : Slice) : Except Panic Nat := do
  let ptr ← checkedAdd (← findPtr m self.len self.ptr needle.len needle.ptr) needle.len
  countLoop m self needle 0 ptr

/-- True if `self` contains `needle`. -/
def contains (self needle : Slice) : Except Panic Bool := do
  return decide ((← rfindPtr m self.len self.ptr needle.len needle.ptr) ≠ self.ptr)

end StringUtils

end PunksBids
