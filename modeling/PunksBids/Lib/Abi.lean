import PunksBids.Lib.Keccak

/-!
# The ABI encodings that get hashed

`abi.encode` of static values is one word each, one after the other; `abi.encodePacked` of an
array pads every element to a word and writes no length.  Both are `abiEncode` of a list of words,
so both are injective for the same reason: the words have one size, hence the string determines
where each of them is.

A `string` that reaches a contract through calldata or as the result of a call is a `Str`: the
decoder rejects a length of `2 ^ 64` or more.
-/

set_option autoImplicit false

namespace Evm

/-- A `string` or `bytes` value, with the bound on its length that ABI decoding checks. -/
abbrev Str := {s : Bytes // s.length < 2 ^ 64}

/-- The bytes of a string literal. -/
def utf8 (s : String) : Bytes := s.toUTF8.data.toList

theorem utf8_injective : Function.Injective utf8 := by
  intro s s' h
  rw [utf8, utf8, String.toUTF8_eq_toByteArray, String.toUTF8_eq_toByteArray] at h
  exact String.toByteArray_inj.mp (ByteArray.ext (Array.toList_inj.mp h))

/-- `abi.encode` of static values, given as words. -/
def abiEncode (ws : List Uint256) : Bytes := ws.flatMap wordBytes

/-- **Segments do not show**: encodings of consecutive argument lists concatenate. -/
theorem abiEncode_append (ws vs : List Uint256) :
    abiEncode (ws ++ vs) = abiEncode ws ++ abiEncode vs := by
  simp [abiEncode]

@[simp] theorem abiEncode_cons (w : Uint256) (ws : List Uint256) :
    abiEncode (w :: ws) = wordBytes w ++ abiEncode ws := rfl

theorem length_abiEncode (ws : List Uint256) : (abiEncode ws).length = 32 * ws.length := by
  induction ws with
  | nil => rfl
  | cons w ws ih => simp [ih, Nat.mul_add, Nat.add_comm]

theorem abiEncode_injective : Function.Injective abiEncode := by
  intro ws
  induction ws with
  | nil =>
    intro vs h
    have hlen := congrArg List.length h
    rw [length_abiEncode, length_abiEncode, List.length_nil] at hlen
    exact (List.length_eq_zero_iff.mp (by omega)).symm
  | cons w ws ih =>
    intro vs h
    cases vs with
    | nil =>
      have hlen := congrArg List.length h
      rw [length_abiEncode, length_abiEncode, List.length_cons, List.length_nil] at hlen
      omega
    | cons v vs =>
      rw [abiEncode_cons, abiEncode_cons] at h
      obtain ⟨hw, hws⟩ := List.append_inj h (by simp)
      rw [wordBytes_injective hw, ih hws]

/-- `abi.encodePacked` of an array of static values: each element padded to a word. -/
def encodePackedArray {α : Type} [StaticValue α] (xs : List α) : Bytes := abiEncode (xs.map word)

theorem encodePackedArray_injective {α : Type} [StaticValue α] :
    Function.Injective (encodePackedArray : List α → Bytes) := by
  intro xs ys h
  exact List.map_injective_iff.mpr StaticValue.word_injective (abiEncode_injective h)

end Evm
