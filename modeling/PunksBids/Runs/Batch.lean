import PunksBids.Runs.Basic

/-!
# Cancelling several bids at once

`cancelBids` checks each bid in the world that the bids before it have left.  Seen from the world
before the call this is one condition on the whole batch (`BatchCancellable`): the flags of that
world, and that no two bids have the same hash.  And the effect is one effect, `World.cancelAll`:
the flags of all the hashes, and their logs in order.  Neither depends on the order of the bids,
but for the logs (`cancelBids_batch`).
-/

set_option autoImplicit false

namespace PunksBids

open Evm OpenCalls

variable {Ω : Type}

/-- The hashes of bids at the nonce their sender has. -/
def World.batchHashes (w : World Ω) (sender : Address) (bids : List Bid) : List Bytes32 :=
  bids.map fun bid ↦ hashBid bid (w.store.nonces sender)

/-- The world with all of these hashes set and logged. -/
def World.cancelAll (w : World Ω) (hashes : List Bytes32) : World Ω :=
  { w with
    store := { w.store with
      cancelledOrFilled := fun hash ↦ decide (hash ∈ hashes) || w.store.cancelledOrFilled hash }
    logs := w.logs ++ hashes.map .bidCancelled }

/-- What it takes to cancel a batch, in terms of the world before. -/
structure BatchCancellable (w : World Ω) (sender : Address) (bids : List Bid) : Prop where
  bidder_eq : ∀ bid ∈ bids, bid.bidder = sender
  distinct : (w.batchHashes sender bids).Nodup
  unflagged : ∀ hash ∈ w.batchHashes sender bids, w.store.cancelledOrFilled hash = false

variable {w t : World Ω} {msg : Msg} {bid : Bid} {bids bids' : List Bid}

/-! ## One bid more -/

@[simp] theorem World.cancelAll_nil (w : World Ω) : w.cancelAll [] = w := by
  simp [World.cancelAll]

theorem World.cancelAll_cancel (w : World Ω) (hash : Bytes32) (hashes : List Bytes32) :
    (w.cancel hash).cancelAll hashes = w.cancelAll (hash :: hashes) := by
  have hflag : ∀ hash', (decide (hash' ∈ hashes) || (w.store.flag hash).cancelledOrFilled hash') =
      (decide (hash' ∈ hash :: hashes) || w.store.cancelledOrFilled hash') := by
    intro hash'
    by_cases heq : hash' = hash
    · subst heq
      simp
    · simp [Store.flag_of_ne heq, heq]
  simp only [World.cancelAll, World.cancel, World.log, World.withStore, hflag, List.map_cons,
    List.append_assoc, List.singleton_append]
  rfl

@[simp] theorem World.batchHashes_cancel (w : World Ω) (hash : Bytes32) (sender : Address)
    (bids : List Bid) : (w.cancel hash).batchHashes sender bids = w.batchHashes sender bids := rfl

theorem World.batchHashes_cons {sender : Address} (h : bid.bidder = sender) :
    w.batchHashes sender (bid :: bids) = w.store.bidHash bid :: w.batchHashes sender bids := by
  rw [World.batchHashes, List.map_cons, ← h]
  rfl

theorem cancels_cons :
    Cancels msg (bid :: bids) w t ↔
      Cancellable msg w bid ∧ Cancels msg bids (w.cancel (w.store.bidHash bid)) t := by
  constructor
  · rintro (_ | ⟨h, hrest⟩)
    exact ⟨h, hrest⟩
  · rintro ⟨h, hrest⟩
    exact .cons h hrest

/-- **The step**: the first bid and then the others, or all of them at once. -/
theorem batchCancellable_cons :
    BatchCancellable w msg.sender (bid :: bids) ↔
      Cancellable msg w bid ∧
        BatchCancellable (w.cancel (w.store.bidHash bid)) msg.sender bids := by
  have hflag (hash : Bytes32) : (w.cancel (w.store.bidHash bid)).store.cancelledOrFilled hash =
      false ↔ hash ≠ w.store.bidHash bid ∧ w.store.cancelledOrFilled hash = false := by
    change (w.store.flag (w.store.bidHash bid)).cancelledOrFilled hash = false ↔ _
    by_cases heq : hash = w.store.bidHash bid
    · simp [heq]
    · simp [Store.flag_of_ne heq, heq]
  constructor
  · rintro ⟨hbidder, hdistinct, hunflagged⟩
    have hb : bid.bidder = msg.sender := hbidder bid List.mem_cons_self
    rw [World.batchHashes_cons hb] at hdistinct hunflagged
    obtain ⟨hnotMem, hdistinct⟩ := List.nodup_cons.mp hdistinct
    refine ⟨⟨hb.symm, hunflagged _ List.mem_cons_self⟩,
      fun b hmem ↦ hbidder b (List.mem_cons_of_mem _ hmem), hdistinct, fun hash hmem ↦ ?_⟩
    exact (hflag hash).mpr ⟨fun heq ↦ hnotMem (heq ▸ hmem),
      hunflagged hash (List.mem_cons_of_mem _ hmem)⟩
  · rintro ⟨⟨hb, hfree⟩, hbidder, hdistinct, hunflagged⟩
    rw [World.batchHashes_cancel] at hdistinct hunflagged
    refine ⟨?_, ?_, ?_⟩
    · rintro b (_ | ⟨_, hmem⟩)
      · exact hb.symm
      · exact hbidder b hmem
    · rw [World.batchHashes_cons hb.symm]
      exact List.nodup_cons.mpr ⟨fun hmem ↦ ((hflag _).mp (hunflagged _ hmem)).1 rfl, hdistinct⟩
    · rw [World.batchHashes_cons hb.symm]
      rintro hash (_ | ⟨_, hmem⟩)
      · exact hfree
      · exact ((hflag hash).mp (hunflagged hash hmem)).2

/-! ## The whole batch -/

/-- **A batch is cancelled exactly if it can be, and all at once.** -/
theorem cancels_iff : Cancels msg bids w t ↔
    BatchCancellable w msg.sender bids ∧ t = w.cancelAll (w.batchHashes msg.sender bids) := by
  induction bids generalizing w with
  | nil =>
    constructor
    · intro h
      obtain rfl : t = w := by cases h; rfl
      exact ⟨⟨by simp, List.nodup_nil, by simp [World.batchHashes]⟩, (World.cancelAll_nil t).symm⟩
    · rintro ⟨-, rfl⟩
      rw [World.batchHashes, List.map_nil, World.cancelAll_nil]
      exact .nil w
  | cons bid bids ih =>
    rw [cancels_cons, ih, batchCancellable_cons, and_assoc]
    refine and_congr_right fun h ↦ and_congr_right fun _ ↦ ?_
    rw [World.cancelAll_cancel, World.batchHashes_cancel, World.batchHashes_cons h.1.symm]

/-- What `cancelBids` returns. -/
theorem cancelBids_eq_ret : cancelBids msg bids w = .ret () t ↔
    BatchCancellable w msg.sender bids ∧ t = w.cancelAll (w.batchHashes msg.sender bids) := by
  rw [← cancels_iff]
  rcases cancelBids_cases msg bids w with ⟨u, hu, hret⟩ | ⟨⟨e, hrev⟩, hno⟩
  · rw [hret]
    constructor
    · rintro ⟨⟩
      exact hu
    · intro ht
      rw [(cancels_iff.mp ht).2, (cancels_iff.mp hu).2]
  · rw [hrev]
    exact ⟨fun h ↦ (nomatch h), fun h ↦ absurd h (hno t)⟩

theorem cancelBids_eq_revert (h : ¬ BatchCancellable w msg.sender bids) :
    ∃ e, cancelBids msg bids w = .revert e := by
  rcases cancelBids_cases msg bids w with ⟨t, ht, -⟩ | ⟨hrev, -⟩
  · exact absurd (cancels_iff.mp ht).1 h
  · exact hrev

/-! ## Order and grouping -/

/-- The order of the bids does not matter for whether they can be cancelled. -/
theorem BatchCancellable.of_perm {sender : Address} (h : BatchCancellable w sender bids)
    (hp : bids.Perm bids') : BatchCancellable w sender bids' := by
  have hhashes : (w.batchHashes sender bids).Perm (w.batchHashes sender bids') := hp.map _
  exact ⟨fun bid hmem ↦ h.bidder_eq bid (hp.mem_iff.mpr hmem), hhashes.nodup_iff.mp h.distinct,
    fun hash hmem ↦ h.unflagged hash (hhashes.mem_iff.mpr hmem)⟩

theorem World.cancelAll_store_perm {hashes hashes' : List Bytes32} (hp : hashes.Perm hashes') :
    (w.cancelAll hashes).store = (w.cancelAll hashes').store := by
  simp only [World.cancelAll, hp.mem_iff]

/-- One batch after the other. -/
theorem cancels_append : Cancels msg (bids ++ bids') w t ↔
    ∃ u, Cancels msg bids w u ∧ Cancels msg bids' u t := by
  induction bids generalizing w with
  | nil =>
    refine ⟨fun h ↦ ⟨w, .nil w, h⟩, ?_⟩
    rintro ⟨u, ⟨⟩, h⟩
    exact h
  | cons bid bids ih =>
    rw [List.cons_append, cancels_cons, ih]
    constructor
    · rintro ⟨h, u, hu, hrest⟩
      exact ⟨u, .cons h hu, hrest⟩
    · rintro ⟨u, hu, hrest⟩
      obtain ⟨h, hu⟩ := cancels_cons.mp hu
      exact ⟨h, u, hu, hrest⟩

/-- Of the message only the sender counts. -/
theorem Cancels.of_sender_eq {msg' : Msg} (h : Cancels msg bids w t)
    (hs : msg'.sender = msg.sender) : Cancels msg' bids w t := by
  rw [cancels_iff] at h ⊢
  rwa [hs]

/-! ## The call -/

section Call

variable {net : Network Ω}

theorem runs_cancelBids (callees : Ext → Behaviour Ω) (h : cancelBids msg bids w = .ret () t) :
    Runs net (.call ⟨msg, .cancelBids bids⟩ callees .done) w t
      [.entered ⟨msg, .cancelBids bids⟩ w, .own ⟨msg, .cancelBids bids⟩ w t,
        .returned ⟨msg, .cancelBids bids⟩ w t] := by
  have htrace : (call net ⟨msg, .cancelBids bids⟩ w).trace ⟨msg, .cancelBids bids⟩
      (fun k ↦ (callees k).exec (call net) Deed.run) w =
        some (t, [.own ⟨msg, .cancelBids bids⟩ w t]) := by
    change (cancelBids msg bids w).trace _ _ _ = _
    rw [h]
    rfl
  exact Script.exec_call_done htrace

theorem runs_cancelBids_of_revert (callees : Ext → Behaviour Ω) {e : Error}
    (h : cancelBids msg bids w = .revert e) :
    Runs net (.call ⟨msg, .cancelBids bids⟩ callees .done) w w [] := by
  have hnone : (call net ⟨msg, .cancelBids bids⟩ w).trace ⟨msg, .cancelBids bids⟩
      (fun k ↦ (callees k).exec (call net) Deed.run) w = none := by
    change (cancelBids msg bids w).trace _ _ _ = _
    rw [h]
    rfl
  rw [Runs, Script.exec, hnone]
  rfl

end Call

/-- **A batch is cancelled as a whole or not at all, and in any order.**  `cancelBids` succeeds
exactly if all bids are the sender's, their hashes at the sender's nonce are distinct and none of
them is set; then exactly these hashes are set and logged, in order, and nothing else changes, and
otherwise the call leaves the world as it is.  A permutation succeeds or fails alike and leaves the
same storage; two calls for the two parts of the list come to the same as one for the list; and
the nonce in a bid is not part of its hash. -/
theorem cancelBids_batch (net : Network Ω) (msg : Msg) (w : World Ω) (bids : List Bid) :
    ((∃ t, cancelBids msg bids w = .ret () t) ↔ BatchCancellable w msg.sender bids) ∧
    (∀ t, cancelBids msg bids w = .ret () t →
      t = w.cancelAll (w.batchHashes msg.sender bids) ∧
        ∀ callees, ∃ es, Runs net (.call ⟨msg, .cancelBids bids⟩ callees .done) w t es) ∧
    (¬ BatchCancellable w msg.sender bids → (∃ e, cancelBids msg bids w = .revert e) ∧
      ∀ callees, Runs net (.call ⟨msg, .cancelBids bids⟩ callees .done) w w []) ∧
    (∀ bids', bids.Perm bids' →
      ((∃ t, cancelBids msg bids w = .ret () t) ↔ ∃ t, cancelBids msg bids' w = .ret () t) ∧
      ∀ t t', cancelBids msg bids w = .ret () t → cancelBids msg bids' w = .ret () t' →
        t'.store = t.store) ∧
    (∀ bids₁ bids₂ msg', bids = bids₁ ++ bids₂ → msg'.sender = msg.sender →
      ∀ t, cancelBids msg bids w = .ret () t ↔
        ∃ u, cancelBids msg bids₁ w = .ret () u ∧ cancelBids msg' bids₂ u = .ret () t) ∧
    ∀ (bid : Bid) (nonce nonce' : Uint256),
      hashBid { bid with nonce := nonce } nonce' = hashBid bid nonce' := by
  have hsucceeds (bids : List Bid) :
      (∃ t, cancelBids msg bids w = .ret () t) ↔ BatchCancellable w msg.sender bids := by
    simp only [cancelBids_eq_ret, exists_and_left, exists_eq, and_true]
  refine ⟨hsucceeds bids, fun t ht ↦ ⟨(cancelBids_eq_ret.mp ht).2, fun callees ↦
    ⟨_, runs_cancelBids callees ht⟩⟩, fun h ↦ ?_, fun bids' hp ↦ ⟨?_, fun t t' ht ht' ↦ ?_⟩, ?_,
    fun _ _ _ ↦ rfl⟩
  · obtain ⟨e, hrev⟩ := cancelBids_eq_revert h
    exact ⟨⟨e, hrev⟩, fun callees ↦ runs_cancelBids_of_revert callees hrev⟩
  · rw [hsucceeds, hsucceeds]
    exact ⟨fun h ↦ h.of_perm hp, fun h ↦ h.of_perm hp.symm⟩
  · rw [(cancelBids_eq_ret.mp ht).2, (cancelBids_eq_ret.mp ht').2]
    exact World.cancelAll_store_perm (hp.symm.map _)
  · rintro bids₁ bids₂ msg' rfl hs t
    simp only [cancelBids_eq_ret, ← cancels_iff, cancels_append]
    constructor
    · rintro ⟨u, hu, ht⟩
      exact ⟨u, hu, ht.of_sender_eq hs⟩
    · rintro ⟨u, hu, ht⟩
      exact ⟨u, hu, ht.of_sender_eq hs.symm⟩

end PunksBids
