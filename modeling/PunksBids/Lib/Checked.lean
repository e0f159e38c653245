import PunksBids.Lib.Words

/-!
# Computations that may fail, and checked arithmetic

Solidity 0.8 arithmetic on `uint256` does not wrap: an overflow, an underflow or a division by
zero stops the call with a panic.  A quantity is kept as a natural number here and every
operation checks its bound, so that the arithmetic facts are facts about `Nat` and the only trace
of the word size is the check.

Every `_eq_ok` lemma says what it takes for a step to succeed, and `Except.bind_eq_ok` composes
them: `simp` with this set turns "the computation returns `r`" into the list of checks it passed.
-/

set_option autoImplicit false

/-! ## `Except` -/

theorem Except.bind_eq_ok {ε α β : Type} {x : Except ε α} {f : α → Except ε β} {b : β} :
    (x >>= f) = .ok b ↔ ∃ a, x = .ok a ∧ f a = .ok b := by
  cases x <;> simp [bind, Except.bind]

theorem Except.bind_eq_error {ε α β : Type} {x : Except ε α} {f : α → Except ε β} {e : ε} :
    (x >>= f) = .error e ↔ x = .error e ∨ ∃ a, x = .ok a ∧ f a = .error e := by
  cases x <;> simp [bind, Except.bind]

@[simp] theorem Except.ok_bind {ε α β : Type} (a : α) (f : α → Except ε β) :
    ((.ok a : Except ε α) >>= f) = f a := rfl

theorem Except.pure_def {ε α : Type} (a : α) : (pure a : Except ε α) = .ok a := rfl

@[simp] theorem Except.pure_eq_ok {ε α : Type} {a b : α} :
    (pure a : Except ε α) = .ok b ↔ a = b := by
  simp [pure, Except.pure]

@[simp] theorem Except.mapError_eq_ok {ε ε' α : Type} {f : ε → ε'} {x : Except ε α} {a : α} :
    x.mapError f = .ok a ↔ x = .ok a := by
  cases x <;> simp [Except.mapError]

@[simp] theorem Except.mapError_eq_error {ε ε' α : Type} {f : ε → ε'} {x : Except ε α} {e' : ε'} :
    x.mapError f = .error e' ↔ ∃ e, x = .error e ∧ f e = e' := by
  cases x <;> simp [Except.mapError]

namespace Evm

/-- Stop with `e` unless `c` holds. -/
def require {ε : Type} (c : Prop) [Decidable c] (e : ε) : Except ε Unit :=
  if c then .ok () else .error e

@[simp] theorem require_eq_ok {ε : Type} {c : Prop} [Decidable c] {e : ε} {u : Unit} :
    require c e = .ok u ↔ c := by
  unfold require
  split <;> simp [*]

@[simp] theorem require_eq_error {ε : Type} {c : Prop} [Decidable c] {e e' : ε} :
    require c e = .error e' ↔ ¬ c ∧ e = e' := by
  unfold require
  split <;> simp [*]

/-! ## Checked arithmetic -/

/-- The reasons a call is stopped other than by a `revert` of its own; those the compiler checks
have a panic code. -/
inductive Panic where
  /-- `0x11`: a checked operation left the range of its type. -/
  | arithmetic
  /-- `0x12`: a division or a remainder by zero. -/
  | divisionByZero
  /-- `0x32`: an array was read past its end. -/
  | outOfBounds
  /-- A loop that never ends uses up the gas. -/
  | outOfGas
  deriving DecidableEq, Repr

/-- `a + b` on `uint256`. -/
def checkedAdd (a b : Nat) : Except Panic Nat :=
  if a + b < wordSize then .ok (a + b) else .error .arithmetic

/-- `a - b` on `uint256`. -/
def checkedSub (a b : Nat) : Except Panic Nat :=
  if b ≤ a then .ok (a - b) else .error .arithmetic

/-- `a * b` on `uint256`. -/
def checkedMul (a b : Nat) : Except Panic Nat :=
  if a * b < wordSize then .ok (a * b) else .error .arithmetic

/-- `a / b` on `uint256`. -/
def checkedDiv (a b : Nat) : Except Panic Nat :=
  if b = 0 then .error .divisionByZero else .ok (a / b)

/-- `a ** b` on `uint256`. -/
def checkedPow (a b : Nat) : Except Panic Nat :=
  if a ^ b < wordSize then .ok (a ^ b) else .error .arithmetic

@[simp] theorem checkedAdd_eq_ok {a b c : Nat} :
    checkedAdd a b = .ok c ↔ a + b < wordSize ∧ a + b = c := by
  unfold checkedAdd
  split <;> simp [*]

@[simp] theorem checkedSub_eq_ok {a b c : Nat} :
    checkedSub a b = .ok c ↔ b ≤ a ∧ a - b = c := by
  unfold checkedSub
  split <;> simp [*]

@[simp] theorem checkedMul_eq_ok {a b c : Nat} :
    checkedMul a b = .ok c ↔ a * b < wordSize ∧ a * b = c := by
  unfold checkedMul
  split <;> simp [*]

@[simp] theorem checkedDiv_eq_ok {a b c : Nat} :
    checkedDiv a b = .ok c ↔ b ≠ 0 ∧ a / b = c := by
  unfold checkedDiv
  split <;> simp [*]

theorem checkedAdd_ok {a b : Nat} (h : a + b < wordSize) : checkedAdd a b = .ok (a + b) :=
  checkedAdd_eq_ok.mpr ⟨h, rfl⟩

theorem checkedSub_ok {a b : Nat} (h : b ≤ a) : checkedSub a b = .ok (a - b) :=
  checkedSub_eq_ok.mpr ⟨h, rfl⟩

theorem checkedPow_ok {a b : Nat} (h : a ^ b < wordSize) : checkedPow a b = .ok (a ^ b) :=
  if_pos h

end Evm
