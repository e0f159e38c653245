import PunksBids.Digest.Binding
import PunksBids.Matching.Criterion

/-!
# Who authorised a match

A match brought by somebody else than the bidder needs a signature, and what is checked against it
is the digest of the bid at the nonce the contract has stored.  Two facts make the signature final.
The digest determines what it is a digest of (`digest_inj`), so a signature for one nonce is not a
signature for another; and a nonce never goes down, so once it has gone up the earlier digests are
not asked for again.

That a signature recovers to an account only for a digest that the account signed is a fact about
the curve; it enters as a hypothesis about `ECDSA.recover`, with an arbitrary relation `Signed`.
-/

set_option autoImplicit false

namespace PunksBids

open Evm OpenCalls

variable {Ω : Type} {net : Network Ω}

/-! ## Nonces -/

/-- **A nonce changes only through its owner, and by one.** -/
theorem OwnStep.nonces {c : Call} {u v : World Ω} (h : OwnStep net c u v) (a : Address) :
    v.store.nonces a = u.store.nonces a ∨
      c.op = .incrementNonce ∧ c.msg.sender = a ∧
        (v.store.nonces a).toNat = (u.store.nonces a).toNat + 1 := by
  cases h with
  | cancel _ hc => exact .inl (congrFun hc.store.2.1 a)
  | @nonce n hop hn =>
    by_cases ha : a = c.msg.sender
    · refine .inr ⟨hop, ha.symm, ?_⟩
      rw [ha]
      simpa [World.log, World.withStore, Store.setNonce] using hn
    · exact .inl (Function.update_of_ne ha _ _)
  | admin _ hadm => exact .inl (congrFun hadm.nonces a)
  | _ => exact .inl rfl

theorem incrementNonce_revert {msg : Msg} {w : World Ω}
    (h : (w.store.nonces msg.sender).toNat = 2 ^ 256 - 1) :
    incrementNonce msg w = .revert (.panic .arithmetic) := by
  have hlt : ¬ (w.store.nonces msg.sender).toNat + 1 < wordSize := by
    rw [h]
    decide
  rw [incrementNonce, Tx.storage_bind, checkedAdd, if_neg hlt]
  rfl

/-- Nonces along a run never go down. -/
theorem Runs.nonces {x : Behaviour Ω} {w t : World Ω} {es : Trace Ω} (h : Runs net x w t es)
    (a : Address) :
    Along (fun u v ↦ (u.store.nonces a).toNat ≤ (v.store.nonces a).toNat) w es t := by
  let P (u v : World Ω) : Prop := (u.store.nonces a).toNat ≤ (v.store.nonces a).toNat
  have hdeed : ∀ (d : Deed Ω) (u : World Ω), P u (d.run u) := fun _ _ ↦ Nat.le_refl _
  have hown : ∀ {c u v}, OwnStep net c u v → P u v := by
    intro c u v hstep
    rcases hstep.nonces a with he | ⟨-, -, he⟩
    · exact Nat.le_of_eq (congrArg BitVec.toNat he.symm)
    · exact Nat.le_trans (Nat.le_succ _) (Nat.le_of_eq he.symm)
  exact h.along (P := P) (fun _ ↦ Nat.le_refl _) Nat.le_trans hdeed hown

/-! ## Signatures -/

/-- The digest a match of somebody else is checked against. -/
theorem Accepted.recovers {msg : Msg} {w : World Ω} {buy : Input} {punkIndex : Uint256}
    {sale : Sale} {chainid : Uint256} (h : Accepted net msg w buy punkIndex sale)
    (hdom : w.store.domainSeparator = hashDomain (deploymentDomain chainid net.self))
    (hother : msg.sender ≠ buy.bid.bidder) :
    ECDSA.recover net.ecrecover
      (digest chainid net.self buy.bid (w.store.nonces buy.bid.bidder)) buy.v buy.r buy.s =
        .ok buy.bid.bidder := by
  have hs := h.signed.resolve_left (Ne.symm hother)
  rwa [hdom] at hs

/-- The signature `(v, r, s)` is one that `a` made for mandates in `made`, and for nothing else. -/
def MadeFor (net : Network Ω) (Signed : Address → Bytes32 → Prop) (a : Address)
    (made : Set Mandate) (v : UInt8) (r s : Bytes32) : Prop :=
  ∀ d, Signed a d → ECDSA.recover net.ecrecover d v r s = .ok a → ∃ m ∈ made, d = m.digest

/-- **Authorisation and finality of mass cancellation.**  Over any run from the constructor, a nonce
changes only by one and through its owner; a match of somebody else was signed by the bidder, for
exactly the contents of the bid, the nonce stored when the call began, the chain of the deployment
and this contract; and after `incrementNonce` has returned, no signature made for earlier nonces is
accepted in a later match of somebody else, unless two strings collide, hashed for the match and for
one of the mandates that the signature was made for. -/
theorem mass_cancellation_is_final (net : Network Ω) (Signed : Address → Bytes32 → Prop)
    (hsigned : ∀ d v r s a, ECDSA.recover net.ecrecover d v r s = .ok a → Signed a d)
    (chainid : Uint256) (deployer : Address) (balance : Nat) (ω : Ω) (x : Behaviour Ω) (t : World Ω)
    (es : Trace Ω) (h : Runs net x (deploy chainid net.self deployer balance ω) t es) :
    ((∀ c u v, .own c u v ∈ es → ∀ a, v.store.nonces a = u.store.nonces a ∨
        c.op = .incrementNonce ∧ c.msg.sender = a ∧
          (v.store.nonces a).toNat = (u.store.nonces a).toNat + 1) ∧
      (∀ (d : Deed Ω) (u : World Ω), (d.run u).store.nonces = u.store.nonces) ∧
      ∀ (msg : Msg) (w : World Ω), (w.store.nonces msg.sender).toNat = 2 ^ 256 - 1 →
        incrementNonce msg w = .revert (.panic .arithmetic)) ∧
    (∀ msg buy punkIndex p q, .returned ⟨msg, .executeMatch buy punkIndex⟩ p q ∈ es →
      msg.sender ≠ buy.bid.bidder →
      let n := p.store.nonces buy.bid.bidder
      Signed buy.bid.bidder (digest chainid net.self buy.bid n) ∧
      ∀ c' a' b' n', digest chainid net.self buy.bid n = digest c' a' b' n' →
        (chainid = c' ∧ net.self = a' ∧ n = n' ∧ buy.bid.SameContents b') ∨
          Collision (digestMessages chainid net.self buy.bid n) (digestMessages c' a' b' n')) ∧
    ∀ (es₁ es₂ : Trace Ω) msg p q,
      es = es₁ ++ .returned ⟨msg, .incrementNonce⟩ p q :: es₂ →
      ∀ msg' buy punkIndex p' q', .entered ⟨msg', .executeMatch buy punkIndex⟩ p' ∈ es₂ →
        .returned ⟨msg', .executeMatch buy punkIndex⟩ p' q' ∈ es₂ →
        buy.bid.bidder = msg.sender → msg'.sender ≠ msg.sender →
        ∀ made : Set Mandate, MadeFor net Signed msg.sender made buy.v buy.r buy.s →
        (∀ m ∈ made, m.bid.nonce.toNat ≤ (p.store.nonces msg.sender).toNat) →
        ∃ m ∈ made, Collision
          (digestMessages chainid net.self buy.bid (p'.store.nonces msg.sender)) m.messages := by
  have hrec : ∀ msg buy punkIndex p q, .returned ⟨msg, .executeMatch buy punkIndex⟩ p q ∈ es →
      msg.sender ≠ buy.bid.bidder → ECDSA.recover net.ecrecover
        (digest chainid net.self buy.bid (p.store.nonces buy.bid.bidder)) buy.v buy.r buy.s =
          .ok buy.bid.bidder := by
    intro msg buy punkIndex p q hmem hother
    obtain ⟨hdom, sale, hacc⟩ := h.returned_executeMatch hmem
    exact hacc.recovers hdom hother
  refine ⟨⟨fun c u v hmem a ↦ ?_, fun _ _ ↦ rfl, fun _ _ ↦ incrementNonce_revert⟩, ?_, ?_⟩
  · exact (Script.exec_own (call_stretches net) x h hmem).nonces a
  · intro msg buy punkIndex p q hmem hother
    exact ⟨hsigned _ _ _ _ _ (hrec _ _ _ _ _ hmem hother), fun _ _ _ _ ↦ digest_inj⟩
  · rintro es₁ es₂ msg p q rfl msg' buy punkIndex p' q' hin hout hbidder hother made hmade hold
    have hok := hrec msg' buy punkIndex p' q'
      (List.mem_append_right es₁ (List.mem_cons_of_mem _ hout)) (hbidder ▸ hother)
    rw [hbidder] at hok
    obtain ⟨m, hm, hd⟩ := hmade _ (hsigned _ _ _ _ _ hok) hok
    -- The nonce had gone up before the match began.
    have hup : (q.store.nonces msg.sender).toNat = (p.store.nonces msg.sender).toNat + 1 :=
      h.returned_incrementNonce (List.mem_append_right es₁ List.mem_cons_self)
    have hlater : (q.store.nonces msg.sender).toNat ≤ (p'.store.nonces msg.sender).toNat := by
      have hpw := (List.pairwise_append.mp (h.nonces msg.sender).between).2.1
      exact List.rel_of_pairwise_cons hpw hin
    rcases digest_inj hd with ⟨-, -, hn, -⟩ | hcol
    · have hle := hold m hm
      rw [← hn] at hle
      omega
    · exact ⟨m, hm, hcol⟩

/-- The bid for an ape, with a signature. -/
def apeInput : Input := ⟨apeBid, 27, 11, 12⟩

/-- Surroundings in which the bidder has signed the digest for the chain 1, and nothing else. -/
def signedNetwork : Network Unit :=
  apeNetwork fun d v r s ↦
    if d = digest 1 1 apeBid 0 ∧ v = 27 ∧ r = 11 ∧ s = 12 then apeBid.bidder else 0

/-- A message there from the account 5, on the chain `chainid`. -/
def apeMsg (chainid : Uint256) : Msg := { idleMsg with sender := 5, chainid := chainid }

theorem signedNetwork_recover {d r s : Bytes32} {v : UInt8} {a : Address} :
    ECDSA.recover signedNetwork.ecrecover d v r s = .ok a ↔
      (d = digest 1 1 apeBid 0 ∧ v = 27 ∧ r = 11 ∧ s = 12) ∧ a = apeBid.bidder := by
  rw [ECDSA.recover_eq_ok]
  change _ ∧ (if d = digest 1 1 apeBid 0 ∧ v = 27 ∧ r = 11 ∧ s = 12 then apeBid.bidder else 0) = a ∧
    _ ↔ _
  split
  · next h =>
    obtain ⟨rfl, rfl, rfl, rfl⟩ := h
    refine ⟨fun h ↦ ⟨⟨rfl, rfl, rfl, rfl⟩, h.2.1.symm⟩, ?_⟩
    rintro ⟨-, rfl⟩
    exact ⟨by decide, rfl, by decide⟩
  · next h => exact ⟨fun ⟨_, h0, hne⟩ ↦ absurd h0.symm hne, fun h' ↦ absurd h'.1 h⟩

theorem accepted_apeInput (chainid : Uint256) {w : World Unit}
    (hw : w.store = (deploy 1 1 7 0 ()).store) :
    Accepted signedNetwork (apeMsg chainid) w apeInput 5 ⟨0, 0, 4⟩ where
  unpaused := hw ▸ rfl
  bidder_ne_zero := by decide
  unflagged := hw ▸ rfl
  listed := show (50 : Uint256) < 100 by decide
  unexpired := show (100 : Uint256) < 200 by decide
  signed := by
    rw [hw]
    exact .inr (signedNetwork_recover.mpr ⟨⟨rfl, rfl, rfl, rfl⟩, rfl⟩)
  matched := by
    rw [hw]
    refine (canMatchBidAndPunk_eq_ok (s := apeAttributes) idleMsg.memory.property rfl
      (by decide) (by decide)).mpr ⟨?_, validatePunkIndex_eq_ok.mp rfl, apeBid_attributesFit⟩
    exact (canBuyPunk_eq_ok_of_offer rfl (by decide)).mpr
      ⟨rfl, .inl rfl, by decide, by decide, by decide⟩

/-- A stranger increments the nonce. -/
def strangersCall : Call := ⟨idleMsg, .incrementNonce⟩

/-- The match of that bid, in which a stranger is called and calls back: first in a frame that is
rolled back, and then for good. -/
def nestedMatch : Behaviour Unit :=
  .call ⟨apeMsg 1, .executeMatch apeInput 5⟩
    (fun
      | .transferFrom _ _ _ => .frame (.call strangersCall (fun _ ↦ .done) .fail)
          (.call strangersCall (fun _ ↦ .done) .done)
      | _ => .done)
    .done

theorem runs_nestedMatch : ∃ t es, Runs signedNetwork nestedMatch (deploy 1 1 7 0 ()) t es ∧
    t.store = ((deploy 1 1 7 0 ()).store.flag (hashBid apeBid 0)).setNonce 2 1 ∧
    t.logs = [.ownershipTransferred 0 7, .nonceIncremented 2 1,
      .bidMatched 3 4 apeBid 0 (hashBid apeBid 0)] :=
  ⟨_, _, runs_match (accepted_apeInput 1 rfl) rfl rfl (Nat.zero_le 0) rfl rfl, rfl, rfl⟩

/-- What is signed there. -/
def ApeSigned (a : Address) (d : Bytes32) : Prop := d = digest 1 1 apeBid 0 ∧ a = apeBid.bidder

/-- A run of the theorem in which a signed bid is matched by somebody else. -/
theorem mass_cancellation_is_final_ape :
    ∃ t es, Runs signedNetwork (plainMatch (apeMsg 1) apeInput 5)
        (deploy 1 signedNetwork.self 7 0 ()) t es ∧
      .returned ⟨apeMsg 1, .executeMatch apeInput 5⟩ (deploy 1 1 7 0 ()) t ∈ es ∧
      ApeSigned apeInput.bid.bidder (digest 1 signedNetwork.self apeInput.bid 0) := by
  obtain ⟨t, es, hrun, hmem, -⟩ := runs_plainMatch (accepted_apeInput 1 rfl) (Nat.zero_le 0)
  refine ⟨t, es, hrun, hmem, ?_⟩
  have hsigned : ∀ d v r s a,
      ECDSA.recover signedNetwork.ecrecover d v r s = .ok a → ApeSigned a d := by
    intro d v r s a hd
    obtain ⟨⟨hd', -⟩, ha⟩ := signedNetwork_recover.mp hd
    exact ⟨hd', ha⟩
  obtain ⟨-, hmatched, -⟩ :=
    mass_cancellation_is_final signedNetwork ApeSigned hsigned 1 7 0 () _ t es hrun
  exact (hmatched _ _ _ _ _ hmem (show (5 : Address) ≠ 3 by decide)).1

end PunksBids
