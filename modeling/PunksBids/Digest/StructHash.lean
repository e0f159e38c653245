import PunksBids.Lib.TypedData
import PunksBids.Digest.Binding

/-!
# The bid hash is the struct hash of the declared type

A wallet does not run `_hashBid`: it reads the type string, takes the value of each member by its
name and applies the generic rules of `Evm.TypedData`.  `Bid.member` is the struct as a wallet
sees it, and `parseStruct_bidType` is what the type string says; the two meet in `encodeData_bid`,
where every word of the generic encoding is matched with the word the contract writes at that place.
-/

set_option autoImplicit false

namespace PunksBids

open Evm Evm.TypedData

/-- The members of a bid, by name. -/
def Bid.members (bid : Bid) : List (String × Value) :=
  [("bidder", .atom (word bid.bidder)),
    ("attributesCountEnabled", .atom (word bid.attributesCountEnabled)),
    ("attributesCount", .atom (word bid.attributesCount)),
    ("modulo", .atom (word bid.modulo)),
    ("maxIndex", .atom (word bid.maxIndex)),
    ("indexes", .elems (bid.indexes.map fun i ↦ .atom (word i))),
    ("excludedIndexes", .elems (bid.excludedIndexes.map fun i ↦ .atom (word i))),
    ("baseType", .contents bid.baseType),
    ("attributes", .contents bid.attributes),
    ("amount", .atom (word bid.amount)),
    ("listingTime", .atom (word bid.listingTime)),
    ("expirationTime", .atom (word bid.expirationTime)),
    ("salt", .atom (word bid.salt)),
    ("nonce", .atom (word bid.nonce))]

/-- The value of the member `name`. -/
def Bid.member (bid : Bid) (name : String) : Option Value := bid.members.lookup name

/-- The member list written in the type string of `BID_TYPEHASH`. -/
def bidMembers : List Member :=
  [(.address, "bidder"), (.bool, "attributesCountEnabled"), (.uint 8, "attributesCount"),
    (.uint 16, "modulo"), (.uint 16, "maxIndex"), (.array (.uint 16), "indexes"),
    (.array (.uint 16), "excludedIndexes"), (.string, "baseType"), (.string, "attributes"),
    (.uint 256, "amount"), (.uint 256, "listingTime"), (.uint 256, "expirationTime"),
    (.uint 256, "salt"), (.uint 256, "nonce")]

theorem parseStruct_bidType : parseStruct bidType = some ("Bid", bidMembers) := by
  decide +kernel

/-- One more member that is encoded as a word. -/
theorem encodeData_word {t : TypeName} {n : String} {ms : List Member}
    {val : String → Option Value} {v : Value} {w : Uint256} {ws : List Uint256}
    (hv : val n = some v) (hw : encodeValue t v = some (wordBytes w))
    (hws : encodeData ms val = some (abiEncode ws)) :
    encodeData ((t, n) :: ms) val = some (abiEncode (w :: ws)) :=
  encodeData_cons hv hw hws

/-- The generic encoding of a bid, word by word. -/
theorem encodeData_bid (bid : Bid) :
    encodeData bidMembers bid.member = some (abiEncode
      [word bid.bidder, word bid.attributesCountEnabled, word bid.attributesCount,
        word bid.modulo, word bid.maxIndex, keccak256 (encodePackedArray bid.indexes),
        keccak256 (encodePackedArray bid.excludedIndexes), keccak256 bid.baseType,
        keccak256 bid.attributes, word bid.amount, word bid.listingTime, word bid.expirationTime,
        word bid.salt, word bid.nonce]) := by
  have harr : ∀ xs : List UInt16,
      encodeValue (.array (.uint 16)) (.elems (xs.map fun i ↦ .atom (word i))) =
        some (wordBytes (keccak256 (encodePackedArray xs))) :=
    fun xs ↦ encodeValue_array (fun _ ↦ rfl) xs
  rw [bidMembers]
  refine encodeData_word rfl rfl (encodeData_word rfl rfl (encodeData_word rfl rfl
    (encodeData_word rfl rfl (encodeData_word rfl rfl ?_))))
  refine encodeData_word rfl (harr _) (encodeData_word rfl (harr _) ?_)
  refine encodeData_word rfl rfl (encodeData_word rfl rfl ?_)
  refine encodeData_word rfl rfl (encodeData_word rfl rfl (encodeData_word rfl rfl
    (encodeData_word rfl rfl (encodeData_word rfl rfl ?_))))
  exact encodeData_nil _

/-- The generic rules, applied to a bid. -/
theorem structHashInput_bid (bid : Bid) :
    structHashInput bidType bid.member = some (hashBidInput bid bid.nonce) := by
  rw [structHashInput_eq parseStruct_bidType (encodeData_bid bid), hashBidInput_eq]
  rfl

/-- **The contract hashes what a wallet hashes.**  For the bid with its `nonce` member replaced by
the argument, the generic rules applied to the declared type give exactly the string `_hashBid`
passes to the outer `keccak256`; and the three segments it is written in are one encoding. -/
theorem hashBidInput_structHash (bid : Bid) (nonce : Uint256) :
    structHashInput bidType { bid with nonce := nonce }.member = some (hashBidInput bid nonce) ∧
    bidTypehash = keccak256 (utf8 bidType) ∧
    hashBidInput bid nonce = abiEncode
      ([bidTypehash, word bid.bidder, word bid.attributesCountEnabled, word bid.attributesCount,
          word bid.modulo, word bid.maxIndex, keccak256 (encodePackedArray bid.indexes),
          keccak256 (encodePackedArray bid.excludedIndexes), keccak256 bid.baseType,
          keccak256 bid.attributes, word bid.amount] ++
        [word bid.listingTime, word bid.expirationTime, word bid.salt] ++ [word nonce]) :=
  ⟨structHashInput_bid { bid with nonce := nonce }, rfl, hashBidInput_eq bid nonce⟩

end PunksBids
