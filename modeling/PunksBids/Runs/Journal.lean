import PunksBids.Lib.Replay
import PunksBids.Runs.Authority
import PunksBids.Runs.Batch

/-!
# What the log tells

Wallets and indexers do not read the storage of the contract, they read its log.  Two facts make
that sound.  The log is exactly what the calls that returned report, in the order in which they
returned: every call reports its events last, after whatever its callees have reported, and a frame
that is rolled back takes its events with it (`Runs.journaled`).  And the storage is exactly what
the log says: starting from a fresh deployment and applying the events one by one gives the storage
of now.

In between the second fact fails, since `executeMatch` sets its flag before its callees run and logs
it after them.  But the flags of a match make no difference to the effect of any other event, so at
the end of the call its event may be taken to come first (`floats_bidMatched`).

For a call that hands over no control what it reports is also what it does, and `call_quiet` says
when it does it.
-/

set_option autoImplicit false

namespace PunksBids

open Evm OpenCalls Replay

variable {Ω : Type}

/-! ## What an event says -/

/-- The storage after what the event says. -/
def Store.apply (st : Store) : Event → Store
  | .bidMatched _ _ _ _ bidHash => st.flag bidHash
  | .bidCancelled hash => st.flag hash
  | .nonceIncremented bidder newNonce => st.setNonce bidder newNonce
  | .feesWithdrawn _ _ => st
  | .feeRateUpdated feeRate => { st with feeRate := feeRate }
  | .localFeeRateUpdated localFeeRate => { st with localFeeRate := localFeeRate }
  | .paused _ => { st with paused := true }
  | .unpaused _ => { st with paused := false }
  | .ownershipTransferStarted _ newOwner => { st with pendingOwner := newOwner }
  | .ownershipTransferred _ newOwner => { st with owner := newOwner, pendingOwner := 0 }

/-- A match may be taken to come before or after any other event. -/
theorem floats_bidMatched (maker taker : Address) (bid : Bid) (price : Nat) (bidHash : Bytes32) :
    Floats Store.apply (.bidMatched maker taker bid price bidHash) := by
  intro st e
  cases e with
  | bidMatched _ _ _ _ hash => exact st.flag_comm hash bidHash
  | bidCancelled hash => exact st.flag_comm hash bidHash
  | _ => rfl

/-- The world after events that are logged at once. -/
def World.report (w : World Ω) (es : List Event) : World Ω :=
  { w with store := es.foldl Store.apply w.store, logs := w.logs ++ es }

/-- ETH reaches the contract. -/
def World.deposit (w : World Ω) (value : Nat) : World Ω := { w with balance := w.balance + value }

theorem World.report_cons (w : World Ω) (e : Event) (es : List Event) :
    w.report (e :: es) = (w.report [e]).report es := by
  simp [World.report]

/-- A batch of cancellations, as its events. -/
theorem World.cancelAll_eq (w : World Ω) (hashes : List Bytes32) :
    w.cancelAll hashes = w.report (hashes.map .bidCancelled) := by
  induction hashes generalizing w with
  | nil => simp [World.report]
  | cons hash hashes ih =>
    rw [← World.cancelAll_cancel, ih, List.map_cons, World.report_cons]
    rfl

/-! ## What a call asks for, and what it reports -/

/-- What has to hold where a call begins. -/
def Permitted (net : Network Ω) (w : World Ω) (c : Call) : Prop :=
  match c.op with
  | .executeMatch buy punkIndex => ∃ sale, Accepted net c.msg w buy punkIndex sale
  | .cancelBid bid => BatchCancellable w c.msg.sender [bid]
  | .cancelBids bids => BatchCancellable w c.msg.sender bids
  | .incrementNonce => (w.store.nonces c.msg.sender).toNat + 1 < wordSize
  | .setFeeRate rate | .setLocalFeeRate rate =>
    w.store.owner = c.msg.sender ∧ rate.toNat ≤ maxFeeRate
  | .withdrawFees _ => w.store.owner = c.msg.sender
  | .pause => w.store.owner = c.msg.sender ∧ w.store.paused = false
  | .unpause => w.store.owner = c.msg.sender ∧ w.store.paused = true
  | .transferOwnership _ | .renounceOwnership => w.store.owner = c.msg.sender
  | .acceptOwnership => w.store.pendingOwner = c.msg.sender
  | .receive _ => True

/-- The events of a call that returns, in terms of the world it began in. -/
def reports (net : Network Ω) (w : World Ω) (c : Call) : List Event :=
  match c.op with
  | .executeMatch buy punkIndex =>
    match canMatchBidAndPunk net c.msg.memory w.store w.outside buy.bid punkIndex with
    | .ok sale =>
      [.bidMatched buy.bid.bidder sale.seller buy.bid sale.price (w.store.bidHash buy.bid)]
    | .error _ => []
  | .cancelBid bid => (w.batchHashes c.msg.sender [bid]).map .bidCancelled
  | .cancelBids bids => (w.batchHashes c.msg.sender bids).map .bidCancelled
  | .incrementNonce => [.nonceIncremented c.msg.sender (w.store.nonces c.msg.sender + 1)]
  | .setFeeRate feeRate => [.feeRateUpdated feeRate]
  | .setLocalFeeRate localFeeRate => [.localFeeRateUpdated localFeeRate]
  | .withdrawFees recipient => [.feesWithdrawn recipient w.balance]
  | .pause => [.paused c.msg.sender]
  | .unpause => [.unpaused c.msg.sender]
  | .transferOwnership newOwner => [.ownershipTransferStarted c.msg.sender newOwner]
  | .acceptOwnership => [.ownershipTransferred w.store.owner c.msg.sender]
  | .renounceOwnership => [.ownershipTransferred w.store.owner 0]
  | .receive _ => []

/-! ## Calls that hand over no control -/

section Quiet

variable {net : Network Ω} {msg : Msg} {w t : World Ω} {f : Unit → Tx Ω Unit} {c : Call}

/-- Under a condition the program returns in a world, and else it reverts. -/
def Decides (p : Prop) (t : World Ω) (r : Run Error Ext (World Ω) Unit) : Prop :=
  p ∧ r = .ret () t ∨ ¬ p ∧ ∃ e, r = .revert e

theorem decides_ret {q : Prop} (hq : q) : Decides q t (.ret () t) := .inl ⟨hq, rfl⟩

/-- A check that is part of the condition. -/
theorem decides_require {p q : Prop} [Decidable p] {e : Error} (hq : q → p)
    (h : p → Decides q t (f () w)) : Decides q t ((Tx.require p e >>= f) w) := by
  by_cases hp : p
  · rw [Tx.require_bind_of hp]
    exact h hp
  · exact .inr ⟨mt hq hp, e, Tx.require_bind_of_not hp⟩

theorem decides_onlyOwner {q : Prop} (hq : q → w.store.owner = msg.sender)
    (h : w.store.owner = msg.sender → Decides q t (f () w)) :
    Decides q t ((onlyOwner msg >>= f) w) := by
  rw [onlyOwner, bind_assoc, Tx.storage_bind]
  exact decides_require hq h

theorem decides_whenNotPaused {q : Prop} (hq : q → w.store.paused = false)
    (h : w.store.paused = false → Decides q t (f () w)) :
    Decides q t ((whenNotPaused >>= f) w) := by
  rw [whenNotPaused, bind_assoc, Tx.storage_bind]
  exact decides_require hq h

theorem decides_whenPaused {q : Prop} (hq : q → w.store.paused = true)
    (h : w.store.paused = true → Decides q t (f () w)) : Decides q t ((whenPaused >>= f) w) := by
  rw [whenPaused, bind_assoc, Tx.storage_bind]
  exact decides_require hq h

theorem decides_cancelBids (bids : List Bid) :
    Decides (BatchCancellable w msg.sender bids)
      (w.report ((w.batchHashes msg.sender bids).map .bidCancelled)) (cancelBids msg bids w) := by
  by_cases h : BatchCancellable w msg.sender bids
  · exact .inl ⟨h, cancelBids_eq_ret.mpr ⟨h, (World.cancelAll_eq _ _).symm⟩⟩
  · exact .inr ⟨h, cancelBids_eq_revert h⟩

theorem decides_incrementNonce :
    Decides ((w.store.nonces msg.sender).toNat + 1 < wordSize)
      (w.report [.nonceIncremented msg.sender (w.store.nonces msg.sender + 1)])
      (incrementNonce msg w) := by
  rw [incrementNonce, Tx.storage_bind, checkedAdd]
  split
  · next h =>
    have hnext : BitVec.ofNat 256 ((w.store.nonces msg.sender).toNat + 1) =
        w.store.nonces msg.sender + 1 := by
      rw [BitVec.ofNat_add, BitVec.ofNat_toNat, BitVec.setWidth_eq]
      rfl
    rw [← hnext]
    exact .inl ⟨h, rfl⟩
  · next h => exact .inr ⟨h, .panic .arithmetic, rfl⟩

/-- **A call that hands over no control** does what it reports if it is permitted, and reverts if
it is not. -/
theorem call_quiet (net : Network Ω) (c : Call) (w : World Ω) (hop : c.op.callsOut = false) :
    Decides (Permitted net w c) ((w.report (reports net w c)).deposit c.op.value)
      (call net c w) := by
  obtain ⟨msg, op⟩ := c
  cases op with
  | executeMatch buy punkIndex => simp [Op.callsOut] at hop
  | withdrawFees recipient => simp [Op.callsOut] at hop
  | cancelBid bid =>
    change Decides _ _ (cancelBid msg bid w)
    rw [cancelBid_eq]
    exact decides_cancelBids [bid]
  | cancelBids bids => exact decides_cancelBids bids
  | incrementNonce => exact decides_incrementNonce
  | setFeeRate rate =>
    refine decides_onlyOwner And.left fun howner ↦ ?_
    refine decides_require (fun h ↦ Nat.not_lt.mpr h.2) fun hle ↦ ?_
    exact decides_ret ⟨howner, Nat.le_of_not_lt hle⟩
  | setLocalFeeRate rate =>
    refine decides_onlyOwner And.left fun howner ↦ ?_
    refine decides_require (fun h ↦ Nat.not_lt.mpr h.2) fun hle ↦ ?_
    exact decides_ret ⟨howner, Nat.le_of_not_lt hle⟩
  | pause =>
    refine decides_onlyOwner And.left fun howner ↦ ?_
    exact decides_whenNotPaused And.right fun hpaused ↦ decides_ret ⟨howner, hpaused⟩
  | unpause =>
    refine decides_onlyOwner And.left fun howner ↦ ?_
    exact decides_whenPaused And.right fun hpaused ↦ decides_ret ⟨howner, hpaused⟩
  | transferOwnership newOwner =>
    refine decides_onlyOwner id fun howner ↦ ?_
    have hsender : msg.sender = w.store.owner := howner.symm
    simp only [reports, hsender]
    exact decides_ret howner
  | acceptOwnership => exact decides_require id fun hpending ↦ decides_ret hpending
  | renounceOwnership => exact decides_onlyOwner id fun howner ↦ decides_ret howner
  | receive value =>
    have hnothing : w.report [] = w := by simp [World.report]
    simp only [reports, hnothing]
    exact decides_ret trivial

theorem call_of_permitted {net : Network Ω} {c : Call} {w : World Ω} (hop : c.op.callsOut = false)
    (h : Permitted net w c) :
    call net c w = .ret () ((w.report (reports net w c)).deposit c.op.value) :=
  ((call_quiet net c w hop).resolve_right fun hrev ↦ hrev.1 h).2

theorem call_of_not_permitted {net : Network Ω} {c : Call} {w : World Ω}
    (hop : c.op.callsOut = false) (h : ¬ Permitted net w c) :
    ∃ e, call net c w = .revert e :=
  ((call_quiet net c w hop).resolve_left fun hret ↦ h hret.1).2

end Quiet

/-! ## Calls that hand over control -/

/-- What a call that hands over control does to the storage at any stretch: nothing, but for the
flag of a match. -/
theorem OwnStep.store_cases {net : Network Ω} {c : Call} {u v : World Ω} (h : OwnStep net c u v)
    (hop : c.op.callsOut = true) :
    v.store = u.store ∨ ∃ buy punkIndex sale, c.op = .executeMatch buy punkIndex ∧
      Accepted net c.msg u buy punkIndex sale ∧
      v = u.withStore (Store.flag (u.store.bidHash buy.bid)) := by
  cases h with
  | accept hop' h => exact .inr ⟨_, _, _, hop', h, rfl⟩
  | cancel hop' =>
    rcases hop' with hop' | ⟨bid, hop', -⟩
    all_goals simp [hop', Op.callsOut] at hop
  | nonce hop' => simp [hop', Op.callsOut] at hop
  | admin hop' => simp [hop'] at hop
  | receive hop' => simp [hop', Op.callsOut] at hop
  | _ => exact .inl rfl

/-! ## Runs -/

/-- The events of a call that returned. -/
def reported (net : Network Ω) : Entry Call (Deed Ω) (World Ω) → List Event
  | .returned c p _ => reports net p c
  | _ => []

/-- A stretch of a run whose calls have logged what they report, and whose storage has changed as
the log says. -/
structure Journaled (net : Network Ω) (s : World Ω) (es : Trace Ω) (t : World Ω) : Prop where
  logs : t.logs = s.logs ++ es.flatMap (reported net)
  recorded : Recorded Store.apply World.store World.logs s t

section Runs

variable {net : Network Ω} {w t : World Ω} {es : Trace Ω}

theorem journaled_closed (net : Network Ω) :
    TraceClosed (Journaled net : World Ω → Trace Ω → World Ω → Prop) where
  nil s := ⟨by simp, .of_eq rfl rfl⟩
  append h h' := by
    refine ⟨?_, h.recorded.trans h'.recorded⟩
    rw [h'.logs, h.logs, List.flatMap_append, List.append_assoc]

/-- What a match reports, once it is accepted. -/
theorem Accepted.reports_eq {msg : Msg} {buy : Input} {punkIndex : Uint256} {sale : Sale}
    (h : Accepted net msg w buy punkIndex sale) :
    reports net w ⟨msg, .executeMatch buy punkIndex⟩ =
      [.bidMatched buy.bid.bidder sale.seller buy.bid sale.price (w.store.bidHash buy.bid)] := by
  simp only [reports, h.matched]

/-- **A call is journaled if its callees are.** -/
theorem call_journaled {c : Call} {callee : Ext → World Ω → Option (World Ω × Trace Ω)}
    (hcallee : ∀ k s t es, callee k s = some (t, es) → Journaled net s es t)
    (h : (call net c w).trace c callee w = some (t, es)) :
    Journaled net w (.entered c w :: (es ++ [.returned c w t])) t := by
  by_cases hop : c.op.callsOut = true
  swap
  · rcases call_quiet net c w (by simpa using hop) with ⟨-, hret⟩ | ⟨-, e, hrev⟩
    · rw [hret, trace_ret, Option.some_inj, Prod.mk.injEq] at h
      obtain ⟨rfl, rfl⟩ := h
      exact ⟨by simp [reported, World.report, World.deposit], _, rfl, rfl⟩
    · simp [hrev] at h
  obtain ⟨msg, op⟩ := c
  cases op with
  | executeMatch buy punkIndex =>
    obtain ⟨sale, hacc, hs⟩ := trace_executeMatch h
    obtain ⟨w₁, w₂, w₃, w₄, es₁, es₂, es₃, es₄, h₁, h₂, -, h₃, h₄, rfl, rfl⟩ := trace_settle.mp hs
    have h₁ := hcallee _ _ _ _ h₁
    have h₂ := hcallee _ _ _ _ h₂
    have h₃ := hcallee _ _ _ _ h₃
    have h₄ := hcallee _ _ _ _ h₄
    have hcalls : Recorded Store.apply World.store World.logs
        (w.withStore (Store.flag (w.store.bidHash buy.bid))) w₄ :=
      ((h₁.recorded.trans h₂.recorded).trans (.of_eq rfl rfl)).trans
        (h₃.recorded.trans h₄.recorded)
    refine ⟨?_, hcalls.ahead (floats_bidMatched _ _ _ _ _) rfl rfl rfl rfl⟩
    have hlogs : w₄.logs = w.logs ++ (es₁.flatMap (reported net) ++ (es₂.flatMap (reported net) ++
        (es₃.flatMap (reported net) ++ es₄.flatMap (reported net)))) := by
      rw [h₄.logs, h₃.logs]
      change w₂.logs ++ _ ++ _ = _
      rw [h₂.logs, h₁.logs]
      simp only [List.append_assoc]
      rfl
    simp [reported, hacc.reports_eq, World.log, hlogs]
  | withdrawFees recipient =>
    obtain ⟨-, w', es', hpay, rfl, rfl⟩ := trace_withdrawFees.mp h
    have hin := hcallee _ _ _ _ hpay
    refine ⟨?_, (Recorded.of_eq rfl rfl : Recorded _ _ _ w (w.send w.balance)).trans
      (hin.recorded.trans (.event rfl rfl))⟩
    have hlogs : w'.logs = w.logs ++ es'.flatMap (reported net) := hin.logs
    simp [reported, reports, World.log, hlogs]
  | _ => simp [Op.callsOut] at hop

/-- **Every run is journaled.** -/
theorem Runs.journaled {x : Behaviour Ω} (h : Runs net x w t es) : Journaled net w es t := by
  have hdeed : ∀ (d : Deed Ω) (u : World Ω), Journaled net u [.other d u (d.run u)] (d.run u) :=
    fun _ _ ↦ ⟨by simp [reported, Deed.run], .of_eq rfl rfl⟩
  exact Script.exec_induct (journaled_closed net) hdeed
    (fun _ _ hk _ _ _ ht ↦ call_journaled hk ht) x h

/-- A call that returned was permitted. -/
theorem Runs.permitted {x : Behaviour Ω} (h : Runs net x w t es) {c : Call} {p q : World Ω}
    (hmem : .returned c p q ∈ es) : Permitted net p c := by
  refine Script.exec_returned_call (T := fun c u _ ↦ Permitted net u c) ?_ x h hmem
  intro c callee u v es ht
  by_cases hop : c.op.callsOut = true
  swap
  · rcases call_quiet net c u (by simpa using hop) with ⟨hp, -⟩ | ⟨-, e, hrev⟩
    · exact hp
    · simp [hrev] at ht
  obtain ⟨msg, op⟩ := c
  cases op with
  | executeMatch buy punkIndex =>
    obtain ⟨sale, hacc, -⟩ := trace_executeMatch ht
    exact ⟨sale, hacc⟩
  | withdrawFees recipient => exact (trace_withdrawFees.mp ht).1
  | _ => simp [Op.callsOut] at hop

end Runs

/-! ## From the constructor -/

/-- The storage that the first event of a deployment is applied to. -/
def undeployed (chainid : Uint256) (self : Address) : Store :=
  { (deploy chainid self 0 0 ()).store with owner := 0 }

theorem deploy_recorded (chainid : Uint256) (self deployer : Address) (balance : Nat) (ω : Ω) :
    (deploy chainid self deployer balance ω).store =
      (deploy chainid self deployer balance ω).logs.foldl Store.apply (undeployed chainid self) :=
  rfl

/-- The storage is what the events since the constructor say. -/
theorem Runs.replays {net : Network Ω} {chainid : Uint256} {deployer : Address} {balance : Nat}
    {ω : Ω} {x : Behaviour Ω} {t : World Ω} {es : Trace Ω}
    (h : Runs net x (deploy chainid net.self deployer balance ω) t es) :
    t.store = t.logs.foldl Store.apply (undeployed chainid net.self) := by
  obtain ⟨events, hlogs, hstore⟩ := h.journaled.recorded
  rw [hstore, hlogs, deploy_recorded, List.foldl_append]

/-- **The log alone determines the storage.**  Whatever callers and callees have done since the
constructor, and whatever was rolled back, applying the logged events one by one gives the storage
of now; over any continuation it is enough to apply the events logged since; and two deployments at
the same address of the same chain whose logs agree have the same storage, in whatever surroundings
they have run. -/
theorem storage_replays_the_log (net : Network Ω) (chainid : Uint256) (deployer : Address)
    (balance : Nat) (ω : Ω) (x : Behaviour Ω) (t : World Ω) (es : Trace Ω)
    (h : Runs net x (deploy chainid net.self deployer balance ω) t es) :
    t.store = t.logs.foldl Store.apply (undeployed chainid net.self) ∧
    (∀ (y : Behaviour Ω) (u : World Ω) (es' : Trace Ω), Runs net y t u es' →
      t.logs <+: u.logs ∧
        u.store = (u.logs.drop t.logs.length).foldl Store.apply t.store) ∧
    ∀ (Ω' : Type) (net' : Network Ω') (deployer' : Address) (balance' : Nat) (ω' : Ω')
      (x' : Behaviour Ω') (t' : World Ω') (es' : Trace Ω'), net'.self = net.self →
      Runs net' x' (deploy chainid net'.self deployer' balance' ω') t' es' →
      t'.logs = t.logs → t'.store = t.store := by
  refine ⟨h.replays, fun y u es' hy ↦ ?_, fun Ω' net' _ _ _ _ t' _ hself h' hlogs ↦ ?_⟩
  · obtain ⟨events, hlogs, hstore⟩ := hy.journaled.recorded
    rw [hlogs, List.drop_left]
    exact ⟨List.prefix_append _ _, hstore⟩
  · rw [h.replays, h'.replays, hlogs, hself]

/-- The run of the theorem in which a match is called back. -/
theorem storage_replays_the_log_nested :
    ∃ t es, Runs signedNetwork nestedMatch (deploy 1 signedNetwork.self 7 0 ()) t es ∧
      t.store = [Event.ownershipTransferred 0 7, .nonceIncremented 2 1,
        .bidMatched 3 4 apeBid 0 (hashBid apeBid 0)].foldl Store.apply (undeployed 1 1) := by
  obtain ⟨t, es, hrun, -, hlogs⟩ := runs_nestedMatch
  refine ⟨t, es, hrun, ?_⟩
  rw [← hlogs]
  exact (storage_replays_the_log signedNetwork 1 7 0 () _ t es hrun).1

/-! ## What calls log -/

section Calls

variable {net : Network Ω} {w : World Ω} {c : Call}

/-- What a call that is a single step leaves in the trace. -/
def single (c : Call) (w v : World Ω) : Trace Ω := [.entered c w, .own c w v, .returned c w v]

/-- Calls one after the other, whose callees do nothing. -/
def inTurn : List Call → Behaviour Ω
  | [] => .done
  | c :: cs => .call c (fun _ ↦ .done) (inTurn cs)

/-- A call that hands over no control is a single step, whatever its callees would do. -/
theorem runs_quiet (hop : c.op.callsOut = false) (h : Permitted net w c)
    (callees : Ext → Behaviour Ω) {v t : World Ω} {next : Behaviour Ω} {es : Trace Ω}
    (hv : v = (w.report (reports net w c)).deposit c.op.value) (hnext : Runs net next v t es) :
    Runs net (.call c callees next) w t (single c w v ++ es) := by
  have hret := call_of_permitted hop h
  have htrace : (call net c w).trace c (fun k ↦ (callees k).exec (call net) Deed.run) w =
      some (v, [.own c w v]) := by
    rw [hret, hv]
    rfl
  have hnext : next.exec (call net) Deed.run v = some (t, es) := hnext
  rw [Runs, Script.exec, htrace]
  simp [hnext, single]

theorem runs_inTurn_cons {cs : List Call} (hop : c.op.callsOut = false) {v t : World Ω}
    {es : Trace Ω} (hv : v = (w.report (reports net w c)).deposit c.op.value)
    (hnext : Runs net (inTurn cs) v t es) (h : Permitted net w c) :
    Runs net (inTurn (c :: cs)) w t (single c w v ++ es) :=
  runs_quiet hop h _ hv hnext

/-- A call that reverts leaves no trace. -/
theorem runs_reverted (h : ∃ e, call net c w = .revert e) (callees : Ext → Behaviour Ω)
    {next : Behaviour Ω} {t : World Ω} {es : Trace Ω} (hnext : Runs net next w t es) :
    Runs net (.call c callees next) w t es := by
  obtain ⟨e, hrev⟩ := h
  have hnone : (call net c w).trace c (fun k ↦ (callees k).exec (call net) Deed.run) w = none := by
    rw [hrev]
    rfl
  rw [Runs, Script.exec, hnone]
  exact hnext

end Calls

/-- A call that returned and hands over no control has done what it reports. -/
theorem Runs.returned_quiet {net : Network Ω} {x : Behaviour Ω} {w t : World Ω} {es : Trace Ω}
    (h : Runs net x w t es) {c : Call} {p q : World Ω} (hmem : .returned c p q ∈ es)
    (hop : c.op.callsOut = false) : q = (p.report (reports net p c)).deposit c.op.value := by
  let T (c : Call) (u v : World Ω) : Prop := c.op.callsOut = false →
    v = (u.report (reports net u c)).deposit c.op.value
  refine Script.exec_returned_call (T := T) (fun c callee u v es ht hop ↦ ?_) x h hmem hop
  rcases call_quiet net c u hop with ⟨-, hret⟩ | ⟨-, e, hrev⟩
  · rw [hret, trace_ret, Option.some_inj, Prod.mk.injEq] at ht
    exact ht.1.symm
  · simp [hrev] at ht

/-- **The log is what the calls that returned report, in the order in which they returned**, each
in terms of the world it began in; every call that returned was permitted there.  A call that hands
over no control does exactly what it reports, and takes in the ETH it brings; wherever it is made it
does so if it is permitted, and changes nothing and leaves no trace if it is not. -/
theorem log_is_what_calls_report (net : Network Ω) (x : Behaviour Ω) (w t : World Ω) (es : Trace Ω)
    (h : Runs net x w t es) :
    t.logs = w.logs ++ es.flatMap (reported net) ∧
    (∀ c p q, .returned c p q ∈ es → Permitted net p c ∧
      (c.op.callsOut = false → q = (p.report (reports net p c)).deposit c.op.value)) ∧
    ∀ c callees, c.op.callsOut = false →
      (Permitted net t c → ∃ u, u = (t.report (reports net t c)).deposit c.op.value ∧
        Runs net (.call c callees .done) t u (single c t u)) ∧
      (¬ Permitted net t c → Runs net (.call c callees .done) t t []) := by
  refine ⟨h.journaled.logs, fun c p q hmem ↦ ⟨h.permitted hmem, h.returned_quiet hmem⟩,
    fun c callees hop ↦ ⟨fun hp ↦ ⟨_, rfl, runs_quiet hop hp callees rfl rfl⟩, fun hp ↦ ?_⟩⟩
  exact runs_reverted (call_of_not_permitted hop hp) callees rfl

/-- The run of the theorem in which a match is called back: the call within reports first. -/
theorem log_is_what_calls_report_nested :
    ∃ t es, Runs signedNetwork nestedMatch (deploy 1 1 7 0 ()) t es ∧
      es.flatMap (reported signedNetwork) =
        [.nonceIncremented 2 1, .bidMatched 3 4 apeBid 0 (hashBid apeBid 0)] := by
  obtain ⟨t, es, hrun, -, hlogs⟩ := runs_nestedMatch
  refine ⟨t, es, hrun, ?_⟩
  have hreports := (log_is_what_calls_report signedNetwork _ _ t es hrun).1
  rw [hlogs] at hreports
  exact (List.cons.inj hreports).2.symm

end PunksBids
