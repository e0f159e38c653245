import PunksBids.Runs.Authority

/-!
# Signatures across a chain split

The domain separator is computed in the constructor and stored, so it names the chain of the
deployment for ever.  `block.chainid` is not asked for again: after a split both chains go on to
accept the signatures made for the chain id of the deployment, and one and the same signature is
good for a match on each of them (`signature_accepted_on_both_chains`).

What the separator does give is the other half.  Whatever `block.chainid` is by then, on either
side the digest that is checked is the one for the chain of the deployment, so a signature that is
accepted on both sides was for the same bid at the same nonce (`replay_is_of_the_same_bid`), and one
made for any other chain is accepted on neither.
-/

set_option autoImplicit false

namespace PunksBids

open Evm OpenCalls

variable {Ω : Type} {net : Network Ω}

/-- The two inputs carry one signature of one bidder. -/
def Input.SameSignature (buy buy' : Input) : Prop :=
  buy.bid.bidder = buy'.bid.bidder ∧ buy.v = buy'.v ∧ buy.r = buy'.r ∧ buy.s = buy'.s

/-- The digest of a match, as the deployment on the chain `chainid` would have it signed. -/
def matchDigest (net : Network Ω) (chainid : Uint256) (buy : Input) (p : World Ω) : Bytes32 :=
  digest chainid net.self buy.bid (p.store.nonces buy.bid.bidder)

/-- The strings that are hashed for it. -/
def matchMessages (net : Network Ω) (chainid : Uint256) (buy : Input) (p : World Ω) : List Bytes :=
  digestMessages chainid net.self buy.bid (p.store.nonces buy.bid.bidder)

/-! ## The same signature twice -/

/-- **One signature, two chains.**  It is not the case that after a split no signature is accepted
from somebody else on both chains. -/
theorem signature_accepted_on_both_chains :
    ¬ ∀ (net : Network Unit) (SignedWith : Input → Bytes32 → Prop),
      (∀ buy d, ECDSA.recover net.ecrecover d buy.v buy.r buy.s = .ok buy.bid.bidder →
        SignedWith buy d) →
      ∀ chainid w, Reachable net chainid w → ∀ c₁ c₂ : Uint256, c₁ ≠ c₂ →
      ∀ x₁ x₂ t₁ t₂ es₁ es₂, Runs net x₁ w t₁ es₁ → Runs net x₂ w t₂ es₂ →
        (∀ c p, .entered c p ∈ es₁ → c.msg.chainid = c₁) →
        (∀ c p, .entered c p ∈ es₂ → c.msg.chainid = c₂) →
      ∀ msg₁ buy₁ punk₁ p₁ q₁ msg₂ buy₂ punk₂ p₂ q₂,
        .returned ⟨msg₁, .executeMatch buy₁ punk₁⟩ p₁ q₁ ∈ es₁ →
        .returned ⟨msg₂, .executeMatch buy₂ punk₂⟩ p₂ q₂ ∈ es₂ →
        msg₁.sender ≠ buy₁.bid.bidder → msg₂.sender ≠ buy₂.bid.bidder →
        buy₁.SameSignature buy₂ →
        Collision (matchMessages net chainid buy₁ p₁) (matchMessages net chainid buy₂ p₂) := by
  intro h
  let w : World Unit := deploy 1 1 7 0 ()
  have hw : Reachable signedNetwork 1 w := ⟨7, 0, (), .done, [], rfl⟩
  obtain ⟨t₁, es₁, hrun₁, hmem₁, hchain₁, -⟩ :=
    runs_plainMatch (accepted_apeInput 1 rfl) (Nat.zero_le 0)
  obtain ⟨t₂, es₂, hrun₂, hmem₂, hchain₂, -⟩ :=
    runs_plainMatch (accepted_apeInput 2 rfl) (Nat.zero_le 0)
  refine not_collision_self _ (h signedNetwork (fun _ d ↦ d = digest 1 1 apeBid 0)
    (fun _ _ hd ↦ (signedNetwork_recover.mp hd).1.1) 1 w hw 1 2 (by decide) _ _ t₁ t₂ es₁ es₂
    hrun₁ hrun₂ ?_ ?_ _ _ _ _ _ _ _ _ _ _ hmem₁ hmem₂ ?_ ?_ ⟨rfl, rfl, rfl, rfl⟩)
  · exact fun c p hmem ↦ congrArg Msg.chainid (hchain₁ c p hmem)
  · exact fun c p hmem ↦ congrArg Msg.chainid (hchain₂ c p hmem)
  · exact show (5 : Address) ≠ 3 by decide
  · exact show (5 : Address) ≠ 3 by decide

/-! ## What the separator does give -/

/-- A match of somebody else, in a continuation of a reachable world, carries a signature of the
digest for the chain of the deployment. -/
theorem Runs.recovers {chainid : Uint256} {w t : World Ω} (hw : Reachable net chainid w)
    {x : Behaviour Ω} {es : Trace Ω} (h : Runs net x w t es) {msg : Msg} {buy : Input}
    {punkIndex : Uint256} {p q : World Ω}
    (hmem : .returned ⟨msg, .executeMatch buy punkIndex⟩ p q ∈ es)
    (hother : msg.sender ≠ buy.bid.bidder) :
    ECDSA.recover net.ecrecover (matchDigest net chainid buy p) buy.v buy.r buy.s =
      .ok buy.bid.bidder := by
  obtain ⟨hdom, sale, hacc⟩ := h.returned_executeMatch hmem
  exact hacc.recovers (hdom.trans hw.domainSeparator) hother

/-- **A replay is of the same bid.**  In two continuations of a reachable world, whatever
`block.chainid` is in either, two matches brought by others than the bidder with one signature both
carry a signature of a digest for the chain of the deployment.  So, if the bidder does not sign two
digests with one signature, they are of one bid at one nonce, or two strings collide; and a
signature made for mandates of other chains only is not accepted without a collision with one of
these mandates. -/
theorem replay_is_of_the_same_bid (net : Network Ω) (SignedWith : Input → Bytes32 → Prop)
    (hsigned : ∀ buy d, ECDSA.recover net.ecrecover d buy.v buy.r buy.s = .ok buy.bid.bidder →
      SignedWith buy d)
    (chainid : Uint256) (w : World Ω) (hw : Reachable net chainid w) (x₁ x₂ : Behaviour Ω)
    (t₁ t₂ : World Ω) (es₁ es₂ : Trace Ω) (h₁ : Runs net x₁ w t₁ es₁) (h₂ : Runs net x₂ w t₂ es₂)
    (msg₁ msg₂ : Msg) (buy₁ buy₂ : Input) (punk₁ punk₂ : Uint256) (p₁ q₁ p₂ q₂ : World Ω)
    (hmem₁ : .returned ⟨msg₁, .executeMatch buy₁ punk₁⟩ p₁ q₁ ∈ es₁)
    (hmem₂ : .returned ⟨msg₂, .executeMatch buy₂ punk₂⟩ p₂ q₂ ∈ es₂)
    (hother₁ : msg₁.sender ≠ buy₁.bid.bidder) (hother₂ : msg₂.sender ≠ buy₂.bid.bidder)
    (hsame : buy₁.SameSignature buy₂) :
    SignedWith buy₁ (matchDigest net chainid buy₁ p₁) ∧
    SignedWith buy₂ (matchDigest net chainid buy₂ p₂) ∧
    ((∀ d d', SignedWith buy₁ d → SignedWith buy₂ d' → d = d') →
      (buy₁.bid.SameContents buy₂.bid ∧
        p₁.store.nonces buy₁.bid.bidder = p₂.store.nonces buy₁.bid.bidder) ∨
      Collision (matchMessages net chainid buy₁ p₁) (matchMessages net chainid buy₂ p₂)) ∧
    ∀ made : Set Mandate, (∀ m ∈ made, m.chainId ≠ chainid) →
      (∀ d, SignedWith buy₁ d → ∃ m ∈ made, d = m.digest) →
      ∃ m ∈ made, Collision (matchMessages net chainid buy₁ p₁) m.messages := by
  have hs₁ := hsigned _ _ (h₁.recovers hw hmem₁ hother₁)
  have hs₂ := hsigned _ _ (h₂.recovers hw hmem₂ hother₂)
  refine ⟨hs₁, hs₂, fun hone ↦ ?_, fun made hforeign hmade ↦ ?_⟩
  · rcases digest_inj (hone _ _ hs₁ hs₂) with ⟨-, -, hn, hc⟩ | hcol
    · rw [← hsame.1] at hn
      exact .inl ⟨hc, hn⟩
    · exact .inr hcol
  · obtain ⟨m, hm, hd⟩ := hmade _ hs₁
    rcases digest_inj hd with ⟨hc, -⟩ | hcol
    · exact absurd hc.symm (hforeign m hm)
    · exact ⟨m, hm, hcol⟩

/-- The replay of the bid for an ape. -/
theorem replay_is_of_the_same_bid_ape :
    ∃ (p₁ p₂ q₁ q₂ : World Unit) (es₁ es₂ : Trace Unit),
      .returned ⟨apeMsg 1, .executeMatch apeInput 5⟩ p₁ q₁ ∈ es₁ ∧
      .returned ⟨apeMsg 2, .executeMatch apeInput 5⟩ p₂ q₂ ∈ es₂ ∧
      p₁.store.nonces apeBid.bidder = p₂.store.nonces apeBid.bidder := by
  let w : World Unit := deploy 1 1 7 0 ()
  have hw : Reachable signedNetwork 1 w := ⟨7, 0, (), .done, [], rfl⟩
  obtain ⟨t₁, es₁, hrun₁, hmem₁, -⟩ := runs_plainMatch (accepted_apeInput 1 rfl) (Nat.zero_le 0)
  obtain ⟨t₂, es₂, hrun₂, hmem₂, -⟩ := runs_plainMatch (accepted_apeInput 2 rfl) (Nat.zero_le 0)
  obtain ⟨-, -, hone, -⟩ := replay_is_of_the_same_bid signedNetwork
    (fun _ d ↦ d = digest 1 1 apeBid 0) (fun _ _ hd ↦ (signedNetwork_recover.mp hd).1.1) 1 w hw _ _
    t₁ t₂ es₁ es₂ hrun₁ hrun₂ _ _ _ _ _ _ _ _ _ _ hmem₁ hmem₂ (show (5 : Address) ≠ 3 by decide)
    (show (5 : Address) ≠ 3 by decide) ⟨rfl, rfl, rfl, rfl⟩
  rcases hone fun d d' hd hd' ↦ hd.trans hd'.symm with ⟨-, hn⟩ | hcol
  · exact ⟨w, w, t₁, t₂, es₁, es₂, hmem₁, hmem₂, hn⟩
  · exact absurd hcol (not_collision_self _)

end PunksBids
