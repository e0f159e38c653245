import PunksBids.Runs.Authority

/-!
# Nobody else can kill a bid

All bidders share one map of flags.  What keeps them apart is that a hash determines the bid and
the nonce it is a hash of (`hashBid_inj`), that `cancelBid` hashes only bids of its caller, and that
a nonce moves only through its owner.  So a flag that rises while its bidder is silent was raised by
a match of that very bid.
-/

set_option autoImplicit false

namespace PunksBids

open Evm OpenCalls

variable {Ω : Type} {net : Network Ω}

/-- A cancelled bid is the caller's, at the caller's nonce. -/
theorem Cancels.culprit {msg : Msg} {bids : List Bid} {u v : World Ω} (h : Cancels msg bids u v)
    {hash : Bytes32} (hu : u.store.cancelledOrFilled hash = false)
    (hv : v.store.cancelledOrFilled hash = true) :
    ∃ bid ∈ bids, bid.bidder = msg.sender ∧ hash = hashBid bid (u.store.nonces msg.sender) := by
  induction h with
  | nil w => simp [hu] at hv
  | @cons bid bids w t hc _ ih =>
    by_cases heq : hash = w.store.bidHash bid
    · exact ⟨bid, List.mem_cons_self, hc.1.symm, by rw [heq, Store.bidHash, hc.1]⟩
    · have hw : (w.cancel (w.store.bidHash bid)).store.cancelledOrFilled hash = false :=
        (Store.flag_of_ne heq _).trans hu
      obtain ⟨bid', hmem, hb, hh⟩ := ih hw hv
      exact ⟨bid', List.mem_cons_of_mem _ hmem, hb, hh⟩

/-- **Who raised a flag**: a call that closes a bid with this hash. -/
theorem OwnStep.culprit {c : Call} {u v : World Ω} (h : OwnStep net c u v) {hash : Bytes32}
    (hu : u.store.cancelledOrFilled hash = false) (hv : v.store.cancelledOrFilled hash = true) :
    ∃ bid, c.Closes bid ∧ hash = u.store.bidHash bid := by
  cases h with
  | @accept buy punkIndex sale hop _ =>
    exact ⟨buy.bid, .matched hop rfl, Store.eq_of_flag hu hv⟩
  | @cancel bids _ hop hc =>
    obtain ⟨bid, hmem, hb, hh⟩ := hc.culprit hu hv
    have hcancels : c.op.cancels = bids := by
      rcases hop with hop | ⟨bid, hop, rfl⟩
      · rw [hop, Op.cancels]
      · rw [hop, Op.cancels]
    exact ⟨bid, .cancelled (hcancels ▸ hmem) hb, by rw [hh, Store.bidHash, hb]⟩
  | admin _ hadm =>
    rw [World.log, World.withStore, hadm.cancelledOrFilled, hu] at hv
    exact absurd hv Bool.false_ne_true
  | _ => exact absurd (hu.symm.trans hv) Bool.false_ne_true

/-- **Who closed the bid of a silent bidder**: a match of a bid with its contents, or what was
closed is another bid, with strings that collide. -/
theorem Call.Closes.matched_or_collision {c : Call} {bid b : Bid} {n : Uint256} {u : World Ω}
    (h : c.Closes bid) (hsilent : c.msg.sender ≠ b.bidder)
    (hhash : hashBid b n = u.store.bidHash bid) :
    (∃ buy punkIndex, c.op = .executeMatch buy punkIndex ∧ buy.bid = bid ∧ b.SameContents bid ∧
      n = u.store.nonces bid.bidder) ∨
    Collision (bidMessages b n) (bidMessages bid (u.store.nonces bid.bidder)) := by
  rcases hashBid_inj hhash with ⟨hsame, hn⟩ | hcol
  swap
  · exact .inr hcol
  cases h with
  | @matched buy punkIndex hop hbid => exact .inl ⟨buy, punkIndex, hop, hbid, hsame, hn⟩
  | cancelled _ hown => exact absurd (hown.symm.trans hsame.bidder_eq.symm) hsilent

/-! ## Along a run -/

/-- A flag that rose was raised by a stretch, whatever the programs are. -/
theorem exec_raised {prog : Call → Tx Ω Unit} {x : Behaviour Ω} {w t : World Ω} {es : Trace Ω}
    (h : x.exec prog Deed.run w = some (t, es)) {hash : Bytes32}
    (hw : w.store.cancelledOrFilled hash = false) (ht : t.store.cancelledOrFilled hash = true) :
    ∃ c u v, .own c u v ∈ es ∧ u.store.cancelledOrFilled hash = false ∧
      v.store.cancelledOrFilled hash = true := by
  let A (u : World Ω) : Prop := u.store.cancelledOrFilled hash = true
  have hdeed : ∀ (d : Deed Ω) (u : World Ω), A (d.run u) → A u := fun _ _ h ↦ h
  obtain ⟨c, u, v, hmem, hu, hv⟩ := Script.exec_culprit (A := A) hdeed x h (by simp [A, hw]) ht
  exact ⟨c, u, v, hmem, by simpa [A] using hu, hv⟩

section Silent

variable {x : Behaviour Ω} {w t : World Ω} {es : Trace Ω} {y : Address}

/-- No stretch of a run without calls of `y` moves the nonce of `y`. -/
theorem Runs.nonce_still (h : Runs net x w t es)
    (hsilent : ∀ c p, .entered c p ∈ es → c.msg.sender ≠ y) {c : Call} {u v : World Ω}
    (hmem : .own c u v ∈ es) : v.store.nonces y = u.store.nonces y := by
  rcases (Script.exec_own (call_stretches net) x h hmem).nonces y with he | ⟨-, hy, -⟩
  · exact he
  · obtain ⟨p, -, hin, -⟩ := Script.exec_called x h hmem
    exact absurd hy (hsilent c p hin)

/-- The nonce of an account that calls nothing. -/
theorem Runs.nonce_of_silent (h : Runs net x w t es)
    (hsilent : ∀ c p, .entered c p ∈ es → c.msg.sender ≠ y) :
    t.store.nonces y = w.store.nonces y := by
  by_contra hne
  let A (u : World Ω) : Prop := u.store.nonces y ≠ w.store.nonces y
  have hdeed : ∀ (d : Deed Ω) (u : World Ω), A (d.run u) → A u := fun _ _ h ↦ h
  obtain ⟨c, u, v, hmem, hu, hv⟩ := Script.exec_culprit (A := A) hdeed x h (not_not.mpr rfl) hne
  exact hv ((h.nonce_still hsilent hmem).trans (not_not.mp hu))

end Silent

/-- **Nobody else can kill a bid.**  In a run without calls of the bidder of `b`, the bidder's nonce
never changes, and the flag of `b` rises only within a match of a bid with the contents of `b` that
returned, unless a string hashed for `b` collides with one hashed for the bid that the call in
question closes; if it is up at the end, it rose so. -/
theorem nobody_else_kills_a_bid (net : Network Ω) (w : World Ω) (b : Bid) (x : Behaviour Ω)
    (t : World Ω) (es : Trace Ω) (h : Runs net x w t es)
    (hsilent : ∀ c p, .entered c p ∈ es → c.msg.sender ≠ b.bidder) :
    (t.store.nonces b.bidder = w.store.nonces b.bidder ∧
      ∀ c u v, .own c u v ∈ es → v.store.nonces b.bidder = u.store.nonces b.bidder) ∧
    (∀ c u v, .own c u v ∈ es →
      u.store.cancelledOrFilled (w.store.bidHash b) = false →
      v.store.cancelledOrFilled (w.store.bidHash b) = true →
      (∃ msg buy punkIndex p q, c = ⟨msg, .executeMatch buy punkIndex⟩ ∧ .returned c p q ∈ es ∧
        b.SameContents buy.bid) ∨
      ∃ bid, c.Closes bid ∧ Collision (bidMessages b (w.store.nonces b.bidder))
        (bidMessages bid (u.store.nonces bid.bidder))) ∧
    (w.store.cancelledOrFilled (w.store.bidHash b) = false →
      t.store.cancelledOrFilled (w.store.bidHash b) = true →
      ∃ c u v, .own c u v ∈ es ∧ u.store.cancelledOrFilled (w.store.bidHash b) = false ∧
        v.store.cancelledOrFilled (w.store.bidHash b) = true) := by
  refine ⟨⟨h.nonce_of_silent hsilent, fun _ _ _ ↦ h.nonce_still hsilent⟩,
    fun c u v hmem hu hv ↦ ?_, exec_raised h⟩
  obtain ⟨p, q, hin, hout⟩ := Script.exec_called x h hmem
  obtain ⟨bid, hcloses, hhash⟩ := (Script.exec_own (call_stretches net) x h hmem).culprit hu hv
  rcases hcloses.matched_or_collision (hsilent c p hin) hhash with
    ⟨buy, punkIndex, hop, rfl, hsame, -⟩ | hcol
  · exact .inl ⟨c.msg, buy, punkIndex, p, q, by rw [← hop], hout, hsame⟩
  · exact .inr ⟨bid, hcloses, hcol⟩

/-- A run of the theorem in which the bid for an ape is matched by somebody else: nothing but that
match has raised its flag. -/
theorem nobody_else_kills_a_bid_ape :
    ∃ t es, Runs signedNetwork (plainMatch (apeMsg 1) apeInput 5) (deploy 1 1 7 0 ()) t es ∧
      t.store.nonces apeBid.bidder = 0 ∧ ∃ msg buy punkIndex p q,
        .returned ⟨msg, .executeMatch buy punkIndex⟩ p q ∈ es ∧ apeBid.SameContents buy.bid := by
  obtain ⟨t, es, hrun, -, hentered, hstore, hown⟩ :=
    runs_plainMatch (accepted_apeInput 1 rfl) (Nat.zero_le 0)
  have hsilent : ∀ c p, .entered c p ∈ es → c.msg.sender ≠ apeBid.bidder := by
    intro c p hmem
    rw [hentered c p hmem]
    exact show (5 : Address) ≠ 3 by decide
  obtain ⟨⟨hnonce, -⟩, hraised, hflag⟩ :=
    nobody_else_kills_a_bid signedNetwork _ apeBid _ t es hrun hsilent
  refine ⟨t, es, hrun, hnonce, ?_⟩
  have ht : t.store.cancelledOrFilled ((deploy 1 1 7 0 ()).store.bidHash apeBid) = true := by
    rw [hstore]
    exact Store.flag_self _ _
  obtain ⟨c, u, v, hmem, hu, hv⟩ := hflag rfl ht
  obtain ⟨rfl, hnonces⟩ := hown c u v hmem
  rcases hraised _ u v hmem hu hv with ⟨msg, buy, punkIndex, p, q, hc, hret, hsame⟩ |
    ⟨bid, hcloses, hcol⟩
  · exact ⟨msg, buy, punkIndex, p, q, hc ▸ hret, hsame⟩
  · -- The one bid that this call closes is the bid for an ape itself.
    have hbid : bid = apeBid := by
      cases hcloses with
      | matched hop hbid =>
        cases hop
        exact hbid.symm
      | cancelled hmem _ => simp [Op.cancels] at hmem
    rw [hbid, hnonces] at hcol
    exact absurd hcol (not_collision_self _)

end PunksBids
