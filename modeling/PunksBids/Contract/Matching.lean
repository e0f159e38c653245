import PunksBids.Contract.World
import PunksBids.Contract.StringUtils

/-!
# Can a bid and a Punk be matched?

`_canMatchBidAndPunk` and what it calls.  It reads the offer and the attributes of the Punk from
the two CryptoPunks contracts and returns what is to be paid to whom, or reverts.  The part that
works on strings takes the memory they are put in: every conversion of a string to `memory`
allocates one, and so do the slices, whose own words are not read back from memory here but whose
space is reserved.
-/

set_option autoImplicit false

namespace PunksBids

open Evm StringUtils

variable {Ω : Type}

/-! ## The offer -/

/-- `INVERSE_BASIS_POINT`. -/
def inverseBasisPoint : Nat := 1000

/-- `MAX_FEE_RATE`. -/
def maxFeeRate : Nat := 100

/-- The sale parameters of a match. -/
structure Sale where
  /-- Price to be paid by the bidder. -/
  price : Nat
  /-- Minimum value to be paid to buy the Punk on the official marketplace. -/
  punkPrice : Nat
  /-- Punk owner. -/
  seller : Address
  deriving DecidableEq

/-- The value a static call returned, or its error. -/
def returned {α : Type} : Option α → Except Error α
  | some a => .ok a
  | none => .error .passedOn

/-- `INVERSE_BASIS_POINT * punkPrice / (INVERSE_BASIS_POINT - currentFeeRate)`. -/
def priceWithFee (punkPrice currentFeeRate : Nat) : Except Panic Nat := do
  let scaled ← checkedMul inverseBasisPoint punkPrice
  let divisor ← checkedSub inverseBasisPoint currentFeeRate
  checkedDiv scaled divisor

/-- The fee rate that applies to an offer. -/
def currentFeeRate (net : Network Ω) (store : Store) (offer : Offer) : Uint256 :=
  if offer.onlySellTo = net.self then store.localFeeRate else store.feeRate

/-- `_canBuyPunk`. -/
def canBuyPunk (net : Network Ω) (store : Store) (ω : Ω) (bid : Bid) (punkIndex : Uint256) :
    Except Error Sale := do
  let offer ← returned (net.punksOfferedForSale ω punkIndex)
  require (offer.isForSale = true) (.punkNotForSale punkIndex)
  require (¬(offer.onlySellTo ≠ 0 ∧ offer.onlySellTo ≠ net.self))
    (.punkNotGloballyForSale punkIndex offer.onlySellTo)
  let punkPrice := offer.minValue.toNat
  let price ← (priceWithFee punkPrice (currentFeeRate net store offer).toNat).mapError .panic
  require (¬ price > bid.amount.toNat) (.bidAmountTooLow price bid.amount)
  return { price := price, punkPrice := punkPrice, seller := offer.seller }

/-! ## The index -/

/-- `_validatePunkIndex`. -/
def validatePunkIndex (bid : Bid) (punkIndex : UInt16) : Except Error Bool := do
  if bid.indexes.length ≠ 0 then
    -- If there is an index list, only checks that `punkIndex` is in this list.
    if bid.indexes.any (punkIndex == ·) then
      return true
    else
      throw (.punkNotSelected punkIndex)
  else
    require (¬ bid.excludedIndexes.any (punkIndex == ·)) (.punkExcluded punkIndex)
    return (bid.maxIndex = 0 || punkIndex ≤ bid.maxIndex) &&
      (bid.modulo = 0 || punkIndex % bid.modulo = 0)

/-! ## The attributes -/

/-- `ATTRIBUTES_SEPARATOR`. -/
def attributesSeparator : Bytes := utf8 ", "

/-- The loop of `_getAttributesStringToSliceArray`: `n` parts of `s`. -/
def splitParts (m : Memory) (delim : Slice) : Nat → Slice → Except Panic (List Slice)
  | 0, _ => return []
  | n + 1, s => do
    let (part, s) ← split m s delim
    return part :: (← splitParts m delim n s)

/-- `_getAttributesStringToSliceArray`: a slice for each attribute in the string at the address
`arrayString`.  The array has a pointer to every slice, each slice is allocated once with the array
and once by `split`. -/
def getAttributesStringToSliceArray (m : Memory) (arrayString : Nat) :
    Except Panic (List Slice × Memory) := do
  let s := toSlice m arrayString
  let (separator, m) := m.allocString attributesSeparator
  let delim := toSlice m separator
  let n ← checkedAdd (← count m s delim) 1
  let parts ← splitParts m delim n s
  return (parts, m.reserve (2 * 64 + 32 + (32 + 2 * 64) * n))

/-- The check of the base type; it leaves the string it looks for in memory. -/
def checkBaseType (m : Memory) (bid : Bid) (punkAttributes : List Slice) : Except Error Memory := do
  if bid.baseType.val.length ≠ 0 then
    match punkAttributes[0]? with
    | none => throw (.panic .outOfBounds)
    | some first =>
      let (baseType, m) := m.allocString bid.baseType
      let found ← (contains m first (toSlice m baseType)).mapError .panic
      require (found = true) .invalidPunkBaseType
      return m
  else
    return m

/-- The check of the attributes count. -/
def checkAttributesCount (bid : Bid) (punkAttributes : List Slice) : Except Error Unit := do
  if bid.attributesCountEnabled then
    -- `-1` to take account of the base type.
    let count ← (checkedSub punkAttributes.length 1).mapError Error.panic
    let punkAttributesCount := UInt8.ofNat count
    require (punkAttributesCount = bid.attributesCount)
      (.invalidPunkAttributesCount punkAttributesCount bid.attributesCount)

/-- The inner loop over the attributes of the Punk from `j` on: the offset after the first one that
is equal to `currentBidAttribute`. -/
def findAttribute (m : Memory) (currentBidAttribute : Slice) (punkAttributes : List Slice)
    (j : Nat) : Except Panic (Option Nat) :=
  if _h : j < punkAttributes.length then do
    if ← equals m currentBidAttribute punkAttributes[j] then
      return some (j + 1)
    else
      findAttribute m currentBidAttribute punkAttributes (j + 1)
  else
    return none
termination_by punkAttributes.length - j

/-- The outer loop over the attributes of the bid. -/
def findAttributes (m : Memory) (punkAttributes : List Slice) :
    List Slice → Nat → Except Error Unit
  | [], _ => return ()
  | currentBidAttribute :: bidAttributes, attributeOffset => do
    match ← (findAttribute m currentBidAttribute punkAttributes attributeOffset).mapError
      .panic with
    | some attributeOffset => findAttributes m punkAttributes bidAttributes attributeOffset
    | none => throw .punkMissingAttributes

/-- The comparison of the attributes of the bid with those of the Punk. -/
def checkAttributes (m : Memory) (bid : Bid) (punkAttributes : List Slice) : Except Error Unit := do
  if bid.attributes.val.length ≠ 0 then
    let (attributes, m) := m.allocString bid.attributes
    let (bidAttributes, m) ← (getAttributesStringToSliceArray m attributes).mapError .panic
    -- We skip the base type.
    findAttributes m punkAttributes bidAttributes 1

/-- What `_canMatchBidAndPunk` does with the string it retrieves. -/
def checkPunkAttributes (m : Memory) (bid : Bid) (punkAttributesString : Str) :
    Except Error Unit := do
  let (string, m) := m.allocString punkAttributesString
  let (punkAttributes, m) ← (getAttributesStringToSliceArray m string).mapError .panic
  let m ← checkBaseType m bid punkAttributes
  checkAttributesCount bid punkAttributes
  checkAttributes m bid punkAttributes

/-- `uint16(punkIndex)`. -/
def toUint16 (punkIndex : Uint256) : UInt16 := UInt16.ofNat punkIndex.toNat

/-- `_canMatchBidAndPunk`. -/
def canMatchBidAndPunk (net : Network Ω) (m : Memory) (store : Store) (ω : Ω) (bid : Bid)
    (punkIndex : Uint256) : Except Error Sale := do
  let sale ← canBuyPunk net store ω bid punkIndex
  let valid ← validatePunkIndex bid (toUint16 punkIndex)
  require (valid = true) (.invalidPunkIndex punkIndex)
  let punkAttributesString ← returned (net.punkAttributes ω (toUint16 punkIndex))
  checkPunkAttributes m bid punkAttributesString
  return sale

end PunksBids
