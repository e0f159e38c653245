import PunksBids.Contract.World

/-!
# What is inherited

The functions of `Ownable2Step`, `Pausable` and `ECDSA` that the contract uses or exposes, from the
library in the repository.  Modifiers are programs that are run before the body.
-/

set_option autoImplicit false

namespace PunksBids

open Evm OpenCalls

variable {Ω : Type}

/-! ## `Ownable2Step` -/

/-- `onlyOwner`. -/
def onlyOwner (msg : Msg) : Tx Ω Unit := do
  let store ← Tx.storage
  Tx.require (store.owner = msg.sender) (.message "Ownable: caller is not the owner")

/-- `_transferOwnership`, of `Ownable2Step` and then of `Ownable`. -/
def transferOwnershipTo (newOwner : Address) : Tx Ω Unit := do
  Tx.write fun st ↦ { st with pendingOwner := 0 }
  let store ← Tx.storage
  let oldOwner := store.owner
  Tx.write fun st ↦ { st with owner := newOwner }
  Tx.emit (.ownershipTransferred oldOwner newOwner)

def transferOwnership (msg : Msg) (newOwner : Address) : Tx Ω Unit := do
  onlyOwner msg
  Tx.write fun st ↦ { st with pendingOwner := newOwner }
  let store ← Tx.storage
  Tx.emit (.ownershipTransferStarted store.owner newOwner)

def acceptOwnership (msg : Msg) : Tx Ω Unit := do
  let store ← Tx.storage
  Tx.require (store.pendingOwner = msg.sender)
    (.message "Ownable2Step: caller is not the new owner")
  transferOwnershipTo msg.sender

def renounceOwnership (msg : Msg) : Tx Ω Unit := do
  onlyOwner msg
  transferOwnershipTo 0

/-! ## `Pausable` -/

/-- `whenNotPaused`. -/
def whenNotPaused : Tx Ω Unit := do
  let store ← Tx.storage
  Tx.require (store.paused = false) (.message "Pausable: paused")

/-- `whenPaused`. -/
def whenPaused : Tx Ω Unit := do
  let store ← Tx.storage
  Tx.require (store.paused = true) (.message "Pausable: not paused")

/-! ## `ECDSA` -/

namespace ECDSA

inductive RecoverError where
  | noError
  | invalidSignature
  | invalidSignatureLength
  | invalidSignatureS
  | invalidSignatureV
  deriving DecidableEq

/-- `_throwError`. -/
def throwRecoverError : RecoverError → Except Error Unit
  | .noError => .ok ()
  | .invalidSignature => .error (.message "ECDSA: invalid signature")
  | .invalidSignatureLength => .error (.message "ECDSA: invalid signature length")
  | .invalidSignatureS => .error (.message "ECDSA: invalid signature 's' value")
  | .invalidSignatureV => .ok ()

/-- The highest `s` that is not malleable. -/
def maxS : Uint256 := 0x7FFFFFFFFFFFFFFFFFFFFFFFFFFFFFFF5D576E7357A4501DDFE92F46681B20A0

variable (ecrecover : Bytes32 → UInt8 → Bytes32 → Bytes32 → Address)

def tryRecover (hash : Bytes32) (v : UInt8) (r s : Bytes32) : Address × RecoverError :=
  if s.toNat > maxS.toNat then
    (0, .invalidSignatureS)
  else
    let signer := ecrecover hash v r s
    if signer = 0 then (0, .invalidSignature) else (signer, .noError)

def recover (hash : Bytes32) (v : UInt8) (r s : Bytes32) : Except Error Address := do
  let (recovered, error) := tryRecover ecrecover hash v r s
  throwRecoverError error
  return recovered

/-- Only a signature with a low `s` recovers, and only to an address that is not zero. -/
theorem recover_eq_ok {hash r s : Bytes32} {v : UInt8} {a : Address} :
    recover ecrecover hash v r s = .ok a ↔
      s.toNat ≤ maxS.toNat ∧ ecrecover hash v r s = a ∧ a ≠ 0 := by
  rw [recover, tryRecover]
  by_cases hs : s.toNat > maxS.toNat
  · rw [if_pos hs]
    simp only [throwRecoverError, bind, Except.bind, reduceCtorEq, false_iff]
    exact fun h ↦ Nat.not_le_of_gt hs h.1
  · rw [if_neg hs]
    by_cases h0 : ecrecover hash v r s = 0
    · simp only [if_pos h0, throwRecoverError, bind, Except.bind, reduceCtorEq, false_iff]
      rintro ⟨-, rfl, ha⟩
      exact ha h0
    · simp only [if_neg h0, throwRecoverError, Except.ok_bind, Except.pure_eq_ok]
      exact ⟨fun h ↦ ⟨Nat.le_of_not_gt hs, h, h ▸ h0⟩, fun h ↦ h.2.1⟩

end ECDSA

end PunksBids
