import PunksBids.Contract.BidStructs
import PunksBids.Lib.Memory
import PunksBids.Lib.OpenCalls

/-!
# The world a call runs in

`Store` is the storage of the contract, with the variables it inherits.  `World` adds what the
chain keeps for it (its ETH balance and the logs it has emitted) and the state of everything else,
of which nothing is said: it is a value of an arbitrary type `Ω`, and `Network` is the part of it
the contract looks at.  `Ext` lists the calls the contract makes that may have effects.

A function of the contract is a program over worlds (`Tx`).  The reads `punksOfferedForSale` and
`punkAttributes` are static calls, hence functions of the outside state; the others hand over
control.
-/

set_option autoImplicit false

namespace PunksBids

open Evm OpenCalls

/-! ## Errors and events -/

/-- Why a call reverts. -/
inductive Error where
  | invalidBidParameters (bid : Bid)
  | invalidSignature (input : Input)
  | senderNotBidder (sender bidder : Address)
  | bidAlreadyCancelledOrFilled (bid : Bid)
  | ethTransferFailed (recipient : Address)
  | feeRateTooHigh (feeRate : Uint256)
  | invalidPunkIndex (punkIndex : Uint256)
  | invalidPunkBaseType
  | invalidPunkAttributesCount (punkAttributesCount bidAttributesCount : UInt8)
  | punkMissingAttributes
  | punkNotForSale (punkIndex : Uint256)
  | punkNotGloballyForSale (punkIndex : Uint256) (toAddress : Address)
  | bidAmountTooLow (price : Nat) (bidAmount : Uint256)
  | buyPunkFailed (punkIndex : Uint256)
  | transferPunkFailed (punkIndex : Uint256)
  | punkNotSelected (punkIndex : UInt16)
  | punkExcluded (punkIndex : UInt16)
  /-- `require` with a message. -/
  | message (text : String)
  | panic (p : Panic)
  /-- An external call failed, and its error is passed on. -/
  | passedOn

/-- What the contract logs. -/
inductive Event where
  | bidMatched (maker taker : Address) (bid : Bid) (price : Nat) (bidHash : Bytes32)
  | bidCancelled (hash : Bytes32)
  | nonceIncremented (bidder : Address) (newNonce : Uint256)
  | feesWithdrawn (recipient : Address) (amount : Nat)
  | feeRateUpdated (feeRate : Uint256)
  | localFeeRateUpdated (localFeeRate : Uint256)
  | paused (account : Address)
  | unpaused (account : Address)
  | ownershipTransferStarted (previousOwner newOwner : Address)
  | ownershipTransferred (previousOwner newOwner : Address)
  deriving DecidableEq

/-! ## State -/

/-- The storage of the contract. -/
structure Store where
  /-- `EIP712._domainSeparator`. -/
  domainSeparator : Bytes32
  /-- `Pausable._paused`. -/
  paused : Bool
  /-- `Ownable._owner`. -/
  owner : Address
  /-- `Ownable2Step._pendingOwner`. -/
  pendingOwner : Address
  cancelledOrFilled : Bytes32 → Bool
  nonces : Address → Uint256
  /-- Applied when a Punk wasn't directly offered to the contract. -/
  feeRate : Uint256
  /-- Applied when a Punk was directly offered to the contract. -/
  localFeeRate : Uint256

/-- The contract and everything around it. -/
@[ext]
structure World (Ω : Type) where
  store : Store
  /-- `address(this).balance`. -/
  balance : Nat
  /-- The logs the contract has emitted, oldest first. -/
  logs : List Event
  /-- Everything else. -/
  outside : Ω

/-! ## The outside, as far as it is read -/

/-- An offer on the CryptoPunks marketplace, as `punksOfferedForSale` returns it. -/
structure Offer where
  isForSale : Bool
  punkIndex : Uint256
  seller : Address
  minValue : Uint256
  onlySellTo : Address
  deriving DecidableEq

/-- The fixed surroundings of the contract: where it is, and what its static calls return.  A static
call that fails returns nothing. -/
structure Network (Ω : Type) where
  /-- `address(this)`. -/
  self : Address
  /-- The precompiled contract: the signer, or zero. -/
  ecrecover : Bytes32 → UInt8 → Bytes32 → Bytes32 → Address
  punksOfferedForSale : Ω → Uint256 → Option Offer
  punkAttributes : Ω → UInt16 → Option Str

/-- Memory as a call finds it; the addresses in use are small. -/
abbrev Scratch := {m : Memory // m.free < 2 ^ 64}

/-- What a call is given besides its arguments. -/
structure Msg where
  /-- `msg.sender`. -/
  sender : Address
  /-- `block.timestamp`. -/
  timestamp : Uint256
  /-- `block.chainid`. -/
  chainid : Uint256
  /-- The memory in which strings are compared. -/
  memory : Scratch

/-- The external calls that may have effects. -/
inductive Ext where
  /-- `IWETH.transferFrom`. -/
  | transferFrom (src dst : Address) (wad : Nat)
  /-- `IWETH.withdraw`. -/
  | withdraw (amount : Nat)
  /-- `ICryptoPunksMarket.buyPunk`, with a value. -/
  | buyPunk (punkIndex : Uint256) (value : Nat)
  /-- `ICryptoPunksMarket.transferPunk`. -/
  | transferPunk (recipient : Address) (punkIndex : Uint256)
  /-- A plain transfer of ETH. -/
  | pay (recipient : Address) (value : Nat)
  deriving DecidableEq

/-! ## Programs -/

/-- A function of the contract. -/
abbrev Tx (Ω α : Type) := Prog Error Ext (World Ω) α

variable {Ω : Type}

/-- The storage of a world, changed. -/
def World.withStore (w : World Ω) (f : Store → Store) : World Ω := { w with store := f w.store }

/-- The logs of a world, with one more. -/
def World.log (w : World Ω) (e : Event) : World Ω := { w with logs := w.logs ++ [e] }

namespace Tx

/-- Read the storage. -/
def storage : Tx Ω Store := do return (← Prog.get).store

/-- Write the storage. -/
def write (f : Store → Store) : Tx Ω Unit := Prog.modify fun w ↦ w.withStore f

def emit (e : Event) : Tx Ω Unit := Prog.modify fun w ↦ w.log e

/-- Revert with `e` unless `c`. -/
def require (c : Prop) [Decidable c] (e : Error) : Tx Ω Unit := Prog.lift (Evm.require c e)

/-- Make an external call and revert with `e` if it reverts. -/
def callOrRevert (k : Ext) (e : Error) : Tx Ω Unit := do
  if ← Prog.call k then
    return ()
  else
    Prog.revert e

/-- Make an external call that sends `value`; `false` says it failed.  A call that sends more than
there is fails, and the value of a call that fails comes back. -/
def callWithValue (k : Ext) (value : Nat) : Tx Ω Bool := do
  let w ← Prog.get
  if value ≤ w.balance then
    Prog.modify fun w ↦ { w with balance := w.balance - value }
    if ← Prog.call k then
      return true
    else
      Prog.modify fun _ ↦ w
      return false
  else
    return false

end Tx

end PunksBids
