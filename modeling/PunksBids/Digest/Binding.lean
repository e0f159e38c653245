import PunksBids.Contract.EIP712

/-!
# What a digest is bound to

A signature covers the digest and nothing else, so what it authorises is whatever the digest
determines.  The digest is a hash of two hashes, one of which is a hash of words some of which are
hashes again, and each layer is undone in the same way: the input of the outer hash has fixed-size
parts, so either the two inputs agree part by part or they are a collision.

`hashBid_inj` undoes the two layers of the bid, `hashDomain_inj` those of the domain, and
`digest_inj` puts `_hashToSign` on top.  In each case the collision, if there is one, is between
strings that the two computations hash at the same place.

Digests outside the contract are those of a `Mandate`.  That some strings collide is true of every
hash; where a theorem ends in a collision, it is one with a mandate that was signed.
-/

set_option autoImplicit false

namespace PunksBids

open Evm

/-- The three segments of `hashBidInput` are one encoding of fifteen words. -/
theorem hashBidInput_eq (bid : Bid) (nonce : Uint256) :
    hashBidInput bid nonce = abiEncode
      [bidTypehash, word bid.bidder, word bid.attributesCountEnabled, word bid.attributesCount,
        word bid.modulo, word bid.maxIndex, keccak256 (encodePackedArray bid.indexes),
        keccak256 (encodePackedArray bid.excludedIndexes), keccak256 bid.baseType,
        keccak256 bid.attributes, word bid.amount, word bid.listingTime, word bid.expirationTime,
        word bid.salt, word nonce] := by
  rw [hashBidInput, ← abiEncode_append, ← abiEncode_append]
  rfl

/-- Equal inputs of the outer hash carry equal atomic fields and equal hashes of the others. -/
theorem hashBidInput_inj {b b' : Bid} {n n' : Uint256} (h : hashBidInput b n = hashBidInput b' n')
    (hi : b.indexes = b'.indexes) (he : b.excludedIndexes = b'.excludedIndexes)
    (ht : b.baseType = b'.baseType) (ha : b.attributes = b'.attributes) :
    b.SameContents b' ∧ n = n' := by
  rw [hashBidInput_eq, hashBidInput_eq] at h
  have hw := abiEncode_injective h
  simp only [List.cons.injEq, and_true, true_and] at hw
  obtain ⟨h1, h2, h3, h4, h5, -, -, -, -, h6, h7, h8, h9, h10⟩ := hw
  refine ⟨?_, word_inj h10⟩
  cases b
  cases b'
  simp only [Bid.SameContents, Bid.mk.injEq] at hi he ht ha ⊢
  exact ⟨word_inj h1, word_inj h2, word_inj h3, word_inj h4, word_inj h5, hi, he, ht, ha,
    word_inj h6, word_inj h7, word_inj h8, word_inj h9, trivial⟩

/-- **A bid hash determines the bid and the nonce**, or a collision is exhibited. -/
theorem hashBid_inj {b b' : Bid} {n n' : Uint256} (h : hashBid b n = hashBid b' n') :
    (b.SameContents b' ∧ n = n') ∨ Collision (bidMessages b n) (bidMessages b' n') := by
  by_cases hcol : Collision (bidMessages b n) (bidMessages b' n')
  · exact .inr hcol
  left
  have hzip : (bidMessages b n).zip (bidMessages b' n') =
      [(encodePackedArray b.indexes, encodePackedArray b'.indexes),
        (encodePackedArray b.excludedIndexes, encodePackedArray b'.excludedIndexes),
        (b.baseType.val, b'.baseType.val), (b.attributes.val, b'.attributes.val),
        (hashBidInput b n, hashBidInput b' n')] := rfl
  have hit : ∀ x y, keccak256 x = keccak256 y → (x, y) ∈ (bidMessages b n).zip (bidMessages b' n') →
      x = y := fun x y hxy hmem ↦ (eq_or_collision hmem hxy).resolve_right hcol
  have hin : hashBidInput b n = hashBidInput b' n' := hit _ _ h (by simp [hzip])
  have hw := hin
  rw [hashBidInput_eq, hashBidInput_eq] at hw
  have hw := abiEncode_injective hw
  simp only [List.cons.injEq, and_true, true_and] at hw
  obtain ⟨-, -, -, -, -, hi, he, ht, ha, -⟩ := hw
  exact hashBidInput_inj hin (encodePackedArray_injective (hit _ _ hi (by simp [hzip])))
    (encodePackedArray_injective (hit _ _ he (by simp [hzip])))
    (Subtype.ext (hit _ _ ht (by simp [hzip]))) (Subtype.ext (hit _ _ ha (by simp [hzip])))

/-- **A domain separator determines the chain and the contract**, or a collision is exhibited. -/
theorem hashDomain_inj {c c' : Uint256} {a a' : Address}
    (h : hashDomain (deploymentDomain c a) = hashDomain (deploymentDomain c' a')) :
    (c = c' ∧ a = a') ∨ Collision (domainMessages (deploymentDomain c a))
      (domainMessages (deploymentDomain c' a')) := by
  have hmem : (hashDomainInput (deploymentDomain c a), hashDomainInput (deploymentDomain c' a')) ∈
      (domainMessages (deploymentDomain c a)).zip (domainMessages (deploymentDomain c' a')) := by
    simp [domainMessages]
  rcases eq_or_collision hmem h with hin | hc
  · have hw := abiEncode_injective hin
    simp only [deploymentDomain, List.cons.injEq, and_true, true_and] at hw
    exact .inl ⟨word_inj hw.1, word_inj hw.2⟩
  · exact .inr hc

theorem hashToSignInput_inj {d d' h h' : Bytes32}
    (he : hashToSignInput d h = hashToSignInput d' h') : d = d' ∧ h = h' := by
  rw [hashToSignInput, hashToSignInput] at he
  obtain ⟨hd, hh⟩ := List.append_inj he (by simp)
  exact ⟨wordBytes_injective (List.append_cancel_left hd), wordBytes_injective hh⟩

/-! ## Where a collision of a part is a collision of the whole -/

theorem collision_of_domain {c c' : Uint256} {a a' : Address} {b b' : Bid} {n n' : Uint256}
    (h : Collision (domainMessages (deploymentDomain c a))
      (domainMessages (deploymentDomain c' a'))) :
    Collision (digestMessages c a b n) (digestMessages c' a' b' n') :=
  (h.append _ _).append _ _

theorem collision_of_bid {c c' : Uint256} {a a' : Address} {b b' : Bid} {n n' : Uint256}
    (h : Collision (bidMessages b n) (bidMessages b' n')) :
    Collision (digestMessages c a b n) (digestMessages c' a' b' n') :=
  (h.append_left (by simp [domainMessages])).append _ _

/-- **A digest is bound to the chain, the contract, the nonce and the contents of the bid.** -/
theorem digest_inj {c c' : Uint256} {a a' : Address} {b b' : Bid} {n n' : Uint256}
    (h : digest c a b n = digest c' a' b' n') :
    (c = c' ∧ a = a' ∧ n = n' ∧ b.SameContents b') ∨
      Collision (digestMessages c a b n) (digestMessages c' a' b' n') := by
  have hmem : (hashToSignInput (hashDomain (deploymentDomain c a)) (hashBid b n),
      hashToSignInput (hashDomain (deploymentDomain c' a')) (hashBid b' n')) ∈
      (digestMessages c a b n).zip (digestMessages c' a' b' n') := by
    rw [digestMessages, digestMessages,
      List.zip_append (by simp [domainMessages, bidMessages])]
    simp
  rcases eq_or_collision hmem h with hin | hc
  swap
  · exact .inr hc
  obtain ⟨hd, hb⟩ := hashToSignInput_inj hin
  rcases hashDomain_inj hd with ⟨hc, ha⟩ | hcol
  swap
  · exact .inr (collision_of_domain hcol)
  rcases hashBid_inj hb with ⟨hs, hn⟩ | hcol
  · exact .inl ⟨hc, ha, hn, hs⟩
  · exact .inr (collision_of_bid hcol)

/-- **What a signature authorises.**  Two deployments, two bids and two nonces with one digest agree
in everything that is signed, or two strings hashed at the same place collide; and the one field
that is not signed is `Bid.nonce`. -/
theorem digest_determines_contents (c c' : Uint256) (a a' : Address) (b b' : Bid)
    (n n' : Uint256) :
    (digest c a b n = digest c' a' b' n' →
      (c = c' ∧ a = a' ∧ n = n' ∧ b.SameContents b') ∨
        Collision (digestMessages c a b n) (digestMessages c' a' b' n')) ∧
    ∀ x, digest c a { b with nonce := x } n = digest c a b n :=
  ⟨digest_inj, fun _ ↦ rfl⟩

/-! ## What is signed -/

/-- What a bidder signs: a bid, whose `nonce` member is the nonce it counts at, for the deployment
at `self` on the chain `chainId`. -/
structure Mandate where
  chainId : Uint256
  self : Address
  bid : Bid

/-- The digest that is signed. -/
def Mandate.digest (m : Mandate) : Bytes32 :=
  PunksBids.digest m.chainId m.self m.bid m.bid.nonce

/-- The strings that are hashed for it. -/
def Mandate.messages (m : Mandate) : List Bytes :=
  digestMessages m.chainId m.self m.bid m.bid.nonce

end PunksBids
