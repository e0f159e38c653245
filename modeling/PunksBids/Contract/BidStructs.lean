import PunksBids.Lib.Abi

/-!
# Bids

The two structs of `BidStructs.sol`, field by field.  Every field has the width the source gives
it, so that a value of `Bid` is one that calldata can hold.
-/

set_option autoImplicit false

namespace PunksBids

open Evm

/-- Bid struct to define targeted Punks. -/
structure Bid where
  /-- Address of the bidder. -/
  bidder : Address
  /-- Is `attributesCount` used. -/
  attributesCountEnabled : Bool
  /-- The number of attributes the Punk must have. -/
  attributesCount : UInt8
  /-- `punkIndex % modulo = 0`; `0` = not used. -/
  modulo : UInt16
  /-- Maximum valid index of a Punk; `0` = not used. -/
  maxIndex : UInt16
  /-- List of valid Punk indexes; empty = not used. -/
  indexes : List UInt16
  /-- List of invalid Punk indexes; empty = not used. -/
  excludedIndexes : List UInt16
  /-- Base attribute; `""` = not used. -/
  baseType : Str
  /-- List of mandatory attributes the Punk must have, separated by a comma; `""` = not used. -/
  attributes : Str
  /-- Bid amount in wei. -/
  amount : Uint256
  /-- Timestamp in seconds before when the bid is not yet valid. -/
  listingTime : Uint256
  /-- Timestamp in seconds until when the bid become invalid. -/
  expirationTime : Uint256
  /-- Salt to differentiate similar bids. -/
  salt : Uint256
  /-- Current nonce of the bidder. -/
  nonce : Uint256
  deriving DecidableEq

/-- Input struct to link a Bid and its signature. -/
structure Input where
  bid : Bid
  /-- `v` of the signature. -/
  v : UInt8
  /-- `r` of the signature. -/
  r : Bytes32
  /-- `s` of the signature. -/
  s : Bytes32
  deriving DecidableEq

/-- The two bids agree in every field other than `nonce`, which no function of the contract
reads. -/
def Bid.SameContents (b b' : Bid) : Prop := { b with nonce := b'.nonce } = b'

instance (b b' : Bid) : Decidable (b.SameContents b') :=
  inferInstanceAs (Decidable ({ b with nonce := b'.nonce } = b'))

theorem Bid.SameContents.bidder_eq {b b' : Bid} (h : b.SameContents b') :
    b.bidder = b'.bidder := by
  have h' : ({ b with nonce := b'.nonce } : Bid).bidder = b'.bidder := congrArg Bid.bidder h
  exact h'

end PunksBids
