import PunksBids.Contract.BidStructs

/-!
# The hashing functions

`EIP712.sol`, one definition per function.  The string that a function passes to `keccak256` is a
definition of its own (`hashDomainInput`, `hashBidInput`, `hashToSignInput`), and the lists
`domainMessages`, `bidMessages` and `digestMessages` collect all the strings that a computation
hashes, in the order in which it hashes them; a collision is looked for among those.
-/

set_option autoImplicit false

namespace PunksBids

open Evm

/-- The domain a signature is bound to. -/
structure EIP712Domain where
  name : Bytes
  version : Bytes
  chainId : Uint256
  verifyingContract : Address

/-- The type string of `Bid`. -/
def bidType : String :=
  "Bid(address bidder,bool attributesCountEnabled,uint8 attributesCount,uint16 modulo,uint16 maxIndex,uint16[] indexes,uint16[] excludedIndexes,string baseType,string attributes,uint256 amount,uint256 listingTime,uint256 expirationTime,uint256 salt,uint256 nonce)"

/-- `BID_TYPEHASH`. -/
def bidTypehash : Bytes32 := keccak256 (utf8 bidType)

/-- `EIP712DOMAIN_TYPEHASH`. -/
def eip712DomainTypehash : Bytes32 := keccak256
  (utf8 "EIP712Domain(string name,string version,uint256 chainId,address verifyingContract)")

/-! ## The domain -/

/-- What `_hashDomain` hashes. -/
def hashDomainInput (eip712Domain : EIP712Domain) : Bytes :=
  abiEncode [eip712DomainTypehash, keccak256 eip712Domain.name, keccak256 eip712Domain.version,
    word eip712Domain.chainId, word eip712Domain.verifyingContract]

/-- `_hashDomain`. -/
def hashDomain (eip712Domain : EIP712Domain) : Bytes32 := keccak256 (hashDomainInput eip712Domain)

/-- Every string that `_hashDomain` hashes. -/
def domainMessages (d : EIP712Domain) : List Bytes := [d.name, d.version, hashDomainInput d]

/-! ## The bid -/

/-- What `_hashBid` passes to the outer `keccak256`: three `abi.encode` segments. -/
def hashBidInput (bid : Bid) (nonce : Uint256) : Bytes :=
  abiEncode
    [bidTypehash,
      word bid.bidder,
      word bid.attributesCountEnabled,
      word bid.attributesCount,
      word bid.modulo,
      word bid.maxIndex,
      keccak256 (encodePackedArray bid.indexes),
      keccak256 (encodePackedArray bid.excludedIndexes),
      keccak256 bid.baseType,
      keccak256 bid.attributes,
      word bid.amount] ++
  abiEncode
    [word bid.listingTime,
      word bid.expirationTime,
      word bid.salt] ++
  abiEncode [word nonce]

/-- `_hashBid`. -/
def hashBid (bid : Bid) (nonce : Uint256) : Bytes32 := keccak256 (hashBidInput bid nonce)

/-- Every string that `_hashBid` hashes. -/
def bidMessages (bid : Bid) (nonce : Uint256) : List Bytes :=
  [encodePackedArray bid.indexes, encodePackedArray bid.excludedIndexes, bid.baseType,
    bid.attributes, hashBidInput bid nonce]

/-! ## The digest -/

/-- What `_hashToSign` hashes. -/
def hashToSignInput (domainSeparator bidHash : Bytes32) : Bytes :=
  [0x19, 0x01] ++ wordBytes domainSeparator ++ wordBytes bidHash

/-- `_hashToSign`; the stored domain separator is an argument. -/
def hashToSign (domainSeparator bidHash : Bytes32) : Bytes32 :=
  keccak256 (hashToSignInput domainSeparator bidHash)

/-- The domain of the deployment at `self` on the chain `chainId`, as the constructor builds it. -/
def deploymentDomain (chainId : Uint256) (self : Address) : EIP712Domain where
  name := utf8 "PunksBids"
  version := utf8 "1.0"
  chainId := chainId
  verifyingContract := self

/-- The digest that the deployment at `self` on the chain `chainId` asks a bidder to sign. -/
def digest (chainId : Uint256) (self : Address) (bid : Bid) (nonce : Uint256) : Bytes32 :=
  hashToSign (hashDomain (deploymentDomain chainId self)) (hashBid bid nonce)

/-- Every string hashed on the way to a `digest`. -/
def digestMessages (chainId : Uint256) (self : Address) (bid : Bid) (nonce : Uint256) :
    List Bytes :=
  domainMessages (deploymentDomain chainId self) ++ bidMessages bid nonce ++
    [hashToSignInput (hashDomain (deploymentDomain chainId self)) (hashBid bid nonce)]

end PunksBids
