import PunksBids.Digest.StructHash
import PunksBids.Runs.OrderBook

/-!
# What a wallet signs is what is checked

Between the two stands the stored domain separator, computed once by the constructor.  A wallet is
given the domain and the bid, each as a struct with its declaration, and knows nothing of the
contract (`walletInput`); the contract hashes what it has in storage and in memory.  In every world
that is reachable both come to the same digest, for the bid whose `nonce` member is the nonce that
the bidder has there (`walletDigest_ticket`).

So a signature of any other message that the generic rules encode, of whatever type and in whatever
domain, is one of another string, and of no use unless two strings collide
(`message_of_walletDigest`).
-/

set_option autoImplicit false

namespace PunksBids

open Evm OpenCalls TypedData

variable {Ω : Type}

/-- The type string of `EIP712Domain`. -/
def eip712DomainType : String :=
  "EIP712Domain(string name,string version,uint256 chainId,address verifyingContract)"

/-- The members of a domain, by name. -/
def EIP712Domain.members (d : EIP712Domain) : List (String × Value) :=
  [("name", .contents d.name),
    ("version", .contents d.version),
    ("chainId", .atom (word d.chainId)),
    ("verifyingContract", .atom (word d.verifyingContract))]

/-- The value of the member `name`. -/
def EIP712Domain.member (d : EIP712Domain) (name : String) : Option Value := d.members.lookup name

/-- The member list written in the type string. -/
def domainMembers : List Member :=
  [(.string, "name"), (.string, "version"), (.uint 256, "chainId"), (.address, "verifyingContract")]

theorem parseStruct_eip712DomainType :
    parseStruct eip712DomainType = some ("EIP712Domain", domainMembers) := by
  decide +kernel

/-- What a wallet hashes to sign a bid for the deployment at `self` on the chain `chainId`. -/
def walletInput (chainId : Uint256) (self : Address) (bid : Bid) : Option Bytes :=
  digestInput eip712DomainType (deploymentDomain chainId self).member bidType bid.member

/-! ## The two computations -/

/-- The generic rules, applied to a domain. -/
theorem structHashInput_domain (d : EIP712Domain) :
    structHashInput eip712DomainType d.member = some (hashDomainInput d) := by
  have hdata : encodeData domainMembers d.member = some (abiEncode
      [keccak256 d.name, keccak256 d.version, word d.chainId, word d.verifyingContract]) :=
    encodeData_word rfl rfl (encodeData_word rfl rfl (encodeData_word rfl rfl
      (encodeData_word rfl rfl (encodeData_nil _))))
  rw [structHashInput_eq parseStruct_eip712DomainType hdata]
  rfl

/-- **Wallet and contract hash the same string.** -/
theorem walletInput_eq (chainId : Uint256) (self : Address) (bid : Bid) :
    walletInput chainId self bid = some (hashToSignInput
      (hashDomain (deploymentDomain chainId self)) (hashBid bid bid.nonce)) := by
  rw [walletInput, digestInput, structHashInput_domain, structHashInput_bid]
  rfl

/-- What a wallet signs. -/
def walletDigest (chainId : Uint256) (self : Address) (bid : Bid) : Option Bytes32 :=
  (walletInput chainId self bid).map keccak256

theorem walletDigest_eq (chainId : Uint256) (self : Address) (bid : Bid) :
    walletDigest chainId self bid = some (digest chainId self bid bid.nonce) := by
  rw [walletDigest, walletInput_eq]
  rfl

/-- The digest that the contract checks, under the domain separator of the constructor. -/
theorem walletDigest_ticket {chainId : Uint256} {self : Address} {st : Store} (bid : Bid)
    (hdom : st.domainSeparator = hashDomain (deploymentDomain chainId self)) :
    walletDigest chainId self (st.ticket bid) =
      some (hashToSign st.domainSeparator (st.bidHash bid)) := by
  rw [walletDigest_eq, digest, ← hdom]
  rfl

/-- **No other message has the digest of a bid**, of all that the generic rules encode, whatever its
type and its domain, or two strings collide. -/
theorem message_of_walletDigest {domainDecl decl : String} {domain val : String → Option Value}
    {chainId : Uint256} {self : Address} {bid : Bid} {input : Bytes} {d : Bytes32}
    (h : digestInput domainDecl domain decl val = some input)
    (hd : walletDigest chainId self bid = some d) (heq : keccak256 input = d) :
    ((domainDecl = eip712DomainType ∧
        ∀ m ∈ domainMembers, domain m.2 = (deploymentDomain chainId self).member m.2) ∧
      decl = bidType ∧ ∀ m ∈ bidMembers, val m.2 = bid.member m.2) ∨
      Collision (digestStrings domainDecl domain decl val)
        (digestStrings eip712DomainType (deploymentDomain chainId self).member bidType
          bid.member) := by
  obtain ⟨input', hinput', rfl⟩ := Option.map_eq_some_iff.mp hd
  have hdomain : declaredMembers eip712DomainType = domainMembers := by
    rw [declaredMembers, parseStruct_eip712DomainType]
    rfl
  have hbid : declaredMembers bidType = bidMembers := by
    rw [declaredMembers, parseStruct_bidType]
    rfl
  rcases typedDigest_inj h hinput' heq with ⟨⟨rfl, hagree⟩, rfl, hmembers⟩ | hcol
  · rw [hdomain] at hagree
    rw [hbid] at hmembers
    exact .inl ⟨⟨rfl, hagree⟩, rfl, hmembers⟩
  · exact .inr hcol

/-! ## The two together -/

/-- **What a wallet signs is what is checked.**  In any run from the constructor, to any depth: a
match that returned was called by the bidder, or its signature recovers to the bidder from the
digest that a wallet computes for the bid at the nonce of that moment, on the chain and for the
contract of the deployment.  Where the run ends, `_validateSignature` accepts exactly such a
signature.  And no other message that the generic rules encode has this digest, whatever its
declaration and its members and whatever those of its domain, or two strings collide. -/
theorem wallets_sign_what_is_checked (net : Network Ω) (chainid : Uint256) (deployer : Address)
    (balance : Nat) (ω : Ω) (x : Behaviour Ω) (t : World Ω) (es : Trace Ω)
    (h : Runs net x (deploy chainid net.self deployer balance ω) t es) :
    (∀ msg buy punkIndex p q, .returned ⟨msg, .executeMatch buy punkIndex⟩ p q ∈ es →
      ∃ d, walletDigest chainid net.self (p.store.ticket buy.bid) = some d ∧
        (buy.bid.bidder = msg.sender ∨
          ECDSA.recover net.ecrecover d buy.v buy.r buy.s = .ok buy.bid.bidder)) ∧
    ∀ buy : Input, ∃ d, walletDigest chainid net.self (t.store.ticket buy.bid) = some d ∧
      (∀ msg, validateSignature net msg t.store buy (t.store.bidHash buy.bid) = .ok true ↔
        buy.bid.bidder = msg.sender ∨
          ECDSA.recover net.ecrecover d buy.v buy.r buy.s = .ok buy.bid.bidder) ∧
      ∀ domainDecl domain decl val input, digestInput domainDecl domain decl val = some input →
        keccak256 input = d →
        ((domainDecl = eip712DomainType ∧
            ∀ m ∈ domainMembers, domain m.2 = (deploymentDomain chainid net.self).member m.2) ∧
          decl = bidType ∧ ∀ m ∈ bidMembers, val m.2 = (t.store.ticket buy.bid).member m.2) ∨
        Collision (digestStrings domainDecl domain decl val)
          (digestStrings eip712DomainType (deploymentDomain chainid net.self).member bidType
            (t.store.ticket buy.bid).member) := by
  refine ⟨fun msg buy punkIndex p q hmem ↦ ?_, fun buy ↦ ?_⟩
  · obtain ⟨hdom, sale, hacc⟩ := h.returned_executeMatch hmem
    exact ⟨_, walletDigest_ticket buy.bid hdom, hacc.signed⟩
  · have hticket := walletDigest_ticket buy.bid h.domainSeparator
    exact ⟨_, hticket, fun msg ↦ validateSignature_eq_ok,
      fun domainDecl domain decl val input hinput heq ↦
        message_of_walletDigest hinput hticket heq⟩

/-- A run of the theorem in which a signed bid is matched by somebody else. -/
theorem wallets_sign_what_is_checked_ape : ∃ d,
    walletDigest 1 signedNetwork.self ((deploy 1 1 7 0 ()).store.ticket apeInput.bid) = some d ∧
      (apeInput.bid.bidder = (apeMsg 1).sender ∨
        ECDSA.recover signedNetwork.ecrecover d apeInput.v apeInput.r apeInput.s = .ok 3) := by
  obtain ⟨t, es, hrun, hret, -⟩ := runs_plainMatch (accepted_apeInput 1 rfl) (Nat.zero_le 0)
  exact (wallets_sign_what_is_checked signedNetwork 1 7 0 () _ t es hrun).1 _ _ _ _ _ hret

end PunksBids
