import Mathlib.Data.List.Zip
import PunksBids.Lib.Words

/-!
# `keccak256`

The hash the EVM offers as an opcode: the Keccak sponge over the permutation `Keccak-f[1600]`,
with a rate of 136 bytes, the original padding (`0x01 … 0x80`) and the first 32 bytes of the state
as output.  A state is its 1600 bits as one number, with the 64 bits of lane `(x, y)` at position
`x + 5 * y`; so a block is absorbed as a whole, and the definition runs.

Nothing below this file ever opens the definition.  What the rest uses is `eq_or_collision`: two
computations that arrive at the same hash have hashed the same string there, or the two strings
are a collision.  `Collision xs ys` says that such a pair occurs among the strings that two
computations hashed *at corresponding places*, which is how a collision is exhibited rather than
merely known to exist.
-/

set_option autoImplicit false

namespace Evm

/-! ## The permutation -/

namespace Keccak

/-- Lane `(x, y)`, indices modulo 5. -/
def lane (a x y : Nat) : Nat := (a >>> (64 * (x % 5 + 5 * (y % 5)))) % 2 ^ 64

/-- The state with `f x y` in lane `(x, y)`. -/
def tabulate (f : Nat → Nat → Nat) : Nat :=
  (List.range 25).foldr (fun i a ↦ f (i % 5) (i / 5) <<< (64 * i) ||| a) 0

/-- A lane rotated left by `n` bits. -/
def rotl (x n : Nat) : Nat := (x <<< n ||| x >>> (64 - n)) % 2 ^ 64

/-- The rotation of lane `(x, y)` in the step `ρ`, at position `x + 5 * y`. -/
def offsets : List Nat :=
  [0, 1, 62, 28, 27, 36, 44, 6, 55, 20, 3, 10, 43, 25, 39, 41, 45, 15, 21, 8, 18, 2, 61, 56, 14]

/-- The constant of each round. -/
def roundConstants : List Nat :=
  [0x0000000000000001, 0x0000000000008082, 0x800000000000808a, 0x8000000080008000,
    0x000000000000808b, 0x0000000080000001, 0x8000000080008081, 0x8000000000008009,
    0x000000000000008a, 0x0000000000000088, 0x0000000080008009, 0x000000008000000a,
    0x000000008000808b, 0x800000000000008b, 0x8000000000008089, 0x8000000000008003,
    0x8000000000008002, 0x8000000000000080, 0x000000000000800a, 0x800000008000000a,
    0x8000000080008081, 0x8000000000008080, 0x0000000080000001, 0x8000000080008008]

/-- The sum of the lanes of a column. -/
def parity (a x : Nat) : Nat :=
  lane a x 0 ^^^ lane a x 1 ^^^ lane a x 2 ^^^ lane a x 3 ^^^ lane a x 4

def theta (a : Nat) : Nat :=
  tabulate fun x y ↦ lane a x y ^^^ (parity a (x + 4) ^^^ rotl (parity a (x + 1)) 1)

/-- `ρ` and `π` together: lane `(x, y)` of the result is lane `(x + 3 * y, x)` rotated. -/
def rhoPi (a : Nat) : Nat :=
  tabulate fun x y ↦ rotl (lane a (x + 3 * y) x) (offsets.getD ((x + 3 * y) % 5 + 5 * x) 0)

def chi (a : Nat) : Nat :=
  tabulate fun x y ↦ lane a x y ^^^ ((lane a (x + 1) y ^^^ (2 ^ 64 - 1)) &&& lane a (x + 2) y)

/-- A round; the constant goes into lane `(0, 0)`. -/
def round (a rc : Nat) : Nat := chi (rhoPi (theta a)) ^^^ rc

/-- `Keccak-f[1600]`. -/
def permute (a : Nat) : Nat := roundConstants.foldl round a

/-! ## The sponge -/

/-- The message with its padding: a whole number of blocks of 136 bytes. -/
def pad (m : Bytes) : Bytes :=
  let q := 136 - m.length % 136
  if q = 1 then m ++ [0x81] else m ++ 0x01 :: List.replicate (q - 2) 0 ++ [0x80]

/-- Absorb the first `n` blocks of `m`, each with its least significant byte first. -/
def absorb : Nat → Nat → Bytes → Nat
  | 0, a, _ => a
  | n + 1, a, m => absorb n (permute (a ^^^ ofBytes (m.take 136).reverse)) (m.drop 136)

end Keccak

/-- `keccak256`. -/
@[irreducible] def keccak256 (m : Bytes) : Bytes32 :=
  let p := Keccak.pad m
  BitVec.ofNat 256 (ofBytes (toBytes 32 (Keccak.absorb (p.length / 136) 0 p)).reverse)

set_option maxRecDepth 4096 in
example : keccak256 [] = 0xc5d2460186f7233c927e7db2dcc703c0e500b653ca82273b7bfad8045d85a470 := by
  decide +kernel

/-! ## Collisions -/

/-- Two different strings with one hash, among the strings hashed at corresponding places of two
computations. -/
def Collision (xs ys : List Bytes) : Prop :=
  ∃ p ∈ xs.zip ys, p.1 ≠ p.2 ∧ keccak256 p.1 = keccak256 p.2

/-- **Equal hashes come from equal strings, or exhibit a collision.** -/
theorem eq_or_collision {xs ys : List Bytes} {a b : Bytes} (hmem : (a, b) ∈ xs.zip ys)
    (h : keccak256 a = keccak256 b) : a = b ∨ Collision xs ys := by
  by_cases hab : a = b
  · exact .inl hab
  · exact .inr ⟨(a, b), hmem, hab, h⟩

section Collision

variable {xs ys zs ws : List Bytes}

theorem Collision.symm (h : Collision xs ys) : Collision ys xs := by
  obtain ⟨⟨a, b⟩, hp, hne, heq⟩ := h
  rw [← List.zip_swap] at hp
  obtain ⟨⟨b', a'⟩, hp', hswap⟩ := List.mem_map.mp hp
  obtain ⟨rfl, rfl⟩ := Prod.mk.injEq .. ▸ hswap
  exact ⟨_, hp', Ne.symm hne, heq.symm⟩

/-- A collision stays one, whatever is hashed after it. -/
theorem Collision.append (h : Collision xs ys) (zs ws : List Bytes) :
    Collision (xs ++ zs) (ys ++ ws) := by
  obtain ⟨p, hp, hne, heq⟩ := h
  obtain ⟨i, hi⟩ := List.mem_iff_getElem?.mp hp
  obtain ⟨hx, hy⟩ := List.getElem?_zip_eq_some.mp hi
  refine ⟨p, List.mem_iff_getElem?.mpr ⟨i, List.getElem?_zip_eq_some.mpr ⟨?_, ?_⟩⟩, hne, heq⟩
  · exact (List.getElem?_append_left (List.getElem?_eq_some_iff.mp hx).1).trans hx
  · exact (List.getElem?_append_left (List.getElem?_eq_some_iff.mp hy).1).trans hy

/-- A collision stays one if as many strings are hashed before it on either side. -/
theorem Collision.append_left (h : Collision xs ys) (hlen : zs.length = ws.length) :
    Collision (zs ++ xs) (ws ++ ys) := by
  obtain ⟨p, hp, hne, heq⟩ := h
  refine ⟨p, ?_, hne, heq⟩
  rw [List.zip_append hlen]
  exact List.mem_append_right _ hp

theorem Collision.cons (h : Collision xs ys) (x y : Bytes) : Collision (x :: xs) (y :: ys) := by
  obtain ⟨p, hp, hne, heq⟩ := h
  exact ⟨p, List.mem_cons_of_mem _ hp, hne, heq⟩

/-- **Of two lists of items that are hashed, one item of the one against one of the other**, all
items are related or some strings collide, if that is so of each pair. -/
theorem forall₂_or_collision {α β : Type} {R : α → β → Prop} {f : α → List Bytes}
    {g : β → List Bytes} (hlen : ∀ {a b}, R a b → (f a).length = (g b).length) {as : List α}
    {bs : List β} (h : List.Forall₂ (fun a b ↦ R a b ∨ Collision (f a) (g b)) as bs) :
    List.Forall₂ R as bs ∨ Collision (as.flatMap f) (bs.flatMap g) := by
  induction h with
  | nil => exact .inl .nil
  | cons hab _ ih =>
    rcases hab with hab | hcol
    · exact ih.imp (.cons hab) fun hcol ↦ hcol.append_left (hlen hab)
    · exact .inr (hcol.append _ _)

end Collision

/-- A computation does not collide with itself. -/
theorem not_collision_self (xs : List Bytes) : ¬ Collision xs xs := by
  rintro ⟨⟨a, b⟩, hp, hne, -⟩
  rw [List.zip_eq_zipWith, List.zipWith_self, List.mem_map] at hp
  obtain ⟨c, -, hc⟩ := hp
  exact hne ((congrArg Prod.fst hc).symm.trans (congrArg Prod.snd hc))

end Evm
