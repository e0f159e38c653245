import PunksBids.Lib.OrderBook
import PunksBids.Runs.Authority
import PunksBids.Runs.Journal

/-!
# The contract is an order book

What the flags and the nonces are for is told by a book that remembers closed orders and epochs
(`OrderBook.Book`).  An order is a bid together with the nonce it is made at (`Store.ticket`), its
maker is the bidder, its epoch the nonce.  A match and a cancellation close one, and incrementing
the nonce advances.

The book does one thing after the other, the contract does not: in the middle of `executeMatch` any
other calls may run.  But a match closes its order at once, where it sets the flag, and that stretch
is where the action is entered in the history (`acted`).  So calls that are nested in each other, to
any depth, have the effect of actions that are not (`Runs.steps`), and the log lists the same
outcomes, those of a match only later (`Runs.outcomes`).

One flag belongs to a hash and not to an order.  Where two orders had the same hash, closing the one
would close the other for the contract and not for the book; the contract allows less, never more,
so nothing need be assumed about the hash.
-/

set_option autoImplicit false

namespace PunksBids

open Evm OpenCalls Replay OrderBook

variable {Ω : Type}

/-! ## Orders -/

/-- How an order is closed. -/
inductive Outcome where
  | matched
  | cancelled
  deriving DecidableEq

/-- What the contract does to the book. -/
abbrev BookAct := Act Outcome Address Bid

/-- The order that a bid stands for: the bid at the nonce its bidder has. -/
def Store.ticket (st : Store) (bid : Bid) : Bid := { bid with nonce := st.nonces bid.bidder }

/-- The hash of an order. -/
def Bid.hash (o : Bid) : Bytes32 := hashBid o o.nonce

/-- The epoch of an order. -/
def Bid.stamp (o : Bid) : Nat := o.nonce.toNat

theorem Store.bidHash_eq (st : Store) (bid : Bid) : st.bidHash bid = (st.ticket bid).hash := rfl

/-- Bids, closed one after the other. -/
abbrev BookSteps (b : Book Address Bid) (acts : List BookAct) (b' : Book Address Bid) : Prop :=
  b.Steps Bid.bidder Bid.stamp acts b'

/-- The storage is that of the book: nonces are epochs, and the flags that are set are the hashes of
the closed orders. -/
structure Reflects (b : Book Address Bid) (st : Store) : Prop where
  nonces : ∀ a, (st.nonces a).toNat = b.epoch a
  flags : ∀ hash, st.cancelledOrFilled hash = true ↔ ∃ o, b.closed o ∧ o.hash = hash

/-! ## The history -/

/-- The actions of an entry.  The stretch of a match that closes its order is the one that sets the
flag. -/
def acted : Entry Call (Deed Ω) (World Ω) → List BookAct
  | .own c u v =>
    match c.op with
    | .executeMatch buy _ =>
      if v.store.cancelledOrFilled (u.store.bidHash buy.bid) =
          u.store.cancelledOrFilled (u.store.bidHash buy.bid) then
        []
      else
        [.close .matched (u.store.ticket buy.bid)]
    | .cancelBid bid => [.close .cancelled (u.store.ticket bid)]
    | .cancelBids bids => bids.map fun bid ↦ .close .cancelled (u.store.ticket bid)
    | .incrementNonce => [.advance c.msg.sender]
    | _ => []
  | _ => []

/-- The actions of a run, in order. -/
def history (es : Trace Ω) : List BookAct := es.flatMap acted

@[simp] theorem acted_entered (c : Call) (p : World Ω) : acted (.entered c p) = [] := rfl

@[simp] theorem acted_returned (c : Call) (p q : World Ω) : acted (.returned c p q) = [] := rfl

@[simp] theorem history_nil : history ([] : Trace Ω) = [] := rfl

@[simp] theorem history_cons (e : Entry Call (Deed Ω) (World Ω)) (es : Trace Ω) :
    history (e :: es) = acted e ++ history es := rfl

@[simp] theorem history_append (es es' : Trace Ω) :
    history (es ++ es') = history es ++ history es' :=
  List.flatMap_append

/-- The outcome that an action decides. -/
def actOutcome : BookAct → Option (Outcome × Bytes32)
  | .close how o => some (how, o.hash)
  | .advance _ => none

/-- The outcome that an event reports. -/
def Event.outcome : Event → Option (Outcome × Bytes32)
  | .bidMatched _ _ _ _ bidHash => some (.matched, bidHash)
  | .bidCancelled hash => some (.cancelled, hash)
  | _ => none

/-! ## One stretch -/

section Steps

variable {net : Network Ω} {c : Call} {u v w t : World Ω} {b : Book Address Bid} {st st' : Store}

theorem Reflects.of_eq (h : Reflects b st) (hn : st'.nonces = st.nonces)
    (hf : st'.cancelledOrFilled = st.cancelledOrFilled) : Reflects b st' :=
  ⟨fun a ↦ by rw [hn, h.nonces], fun hash ↦ by rw [hf, h.flags]⟩

/-- **Setting a flag that was not set closes an order.** -/
theorem Reflects.flag (h : Reflects b st) {bid : Bid}
    (hfree : st.cancelledOrFilled (st.bidHash bid) = false) (how : Outcome) :
    ∃ b', b.Step Bid.bidder Bid.stamp (.close how (st.ticket bid)) b' ∧
      Reflects b' (st.flag (st.bidHash bid)) := by
  have hopen : ¬ b.closed (st.ticket bid) := by
    intro hc
    have := (h.flags (st.bidHash bid)).mpr ⟨_, hc, rfl⟩
    simp [hfree] at this
  refine ⟨_, .close (h.nonces bid.bidder) hopen, h.nonces, fun hash ↦ ?_⟩
  by_cases heq : hash = st.bidHash bid
  · subst heq
    rw [Store.flag_self]
    exact iff_of_true rfl ⟨_, .inl rfl, rfl⟩
  · rw [Store.flag_of_ne heq, h.flags]
    constructor
    · rintro ⟨o, ho, hhash⟩
      exact ⟨o, .inr ho, hhash⟩
    · rintro ⟨o, rfl | ho, hhash⟩
      · exact absurd hhash.symm heq
      · exact ⟨o, ho, hhash⟩

theorem Cancels.steps {msg : Msg} {bids : List Bid} (h : Cancels msg bids w t)
    (hb : Reflects b w.store) :
    ∃ b', BookSteps b (bids.map fun bid ↦ .close .cancelled (w.store.ticket bid)) b' ∧
      Reflects b' t.store := by
  induction h generalizing b with
  | nil w => exact ⟨b, .nil b, hb⟩
  | cons hc _ ih =>
    obtain ⟨b₁, hstep, hb₁⟩ := hb.flag hc.2 .cancelled
    obtain ⟨b', hsteps, hb'⟩ := ih hb₁
    exact ⟨b', .cons hstep hsteps, hb'⟩

/-- The stretch does to the storage what its actions do to the book. -/
def Simulated (c : Call) (u v : World Ω) : Prop :=
  ∀ b, Reflects b u.store → ∃ b', BookSteps b (acted (.own c u v)) b' ∧ Reflects b' v.store

theorem Reflects.nonce (h : Reflects b st) {a : Address}
    (hlt : (st.nonces a).toNat + 1 < wordSize) :
    Reflects { b with epoch := Function.update b.epoch a (b.epoch a + 1) }
      (st.setNonce a (st.nonces a + 1)) := by
  refine ⟨fun a' ↦ ?_, h.flags⟩
  have hnext : (st.nonces a + 1).toNat = (st.nonces a).toNat + 1 := by
    rw [BitVec.toNat_add]
    exact Nat.mod_eq_of_lt hlt
  by_cases ha : a' = a
  · subst ha
    simp only [Store.setNonce, Function.update_self, hnext, h.nonces]
  · simp [Store.setNonce, Function.update_of_ne ha, h.nonces]

/-- A batch of cancellations closes its orders one by one. -/
theorem simulated_cancelBids {msg : Msg} {bids : List Bid} {acts : List BookAct}
    (h : BatchCancellable u msg.sender bids) (hb : Reflects b u.store)
    (hacts : acts = bids.map fun bid ↦ .close .cancelled (u.store.ticket bid)) :
    ∃ b', BookSteps b acts b' ∧
      Reflects b' (u.report ((u.batchHashes msg.sender bids).map .bidCancelled)).store := by
  rw [hacts, ← World.cancelAll_eq]
  exact (cancels_iff.mpr ⟨h, rfl⟩).steps hb

/-- A permitted call that hands over no control is simulated. -/
theorem Permitted.simulated (h : Permitted net u c) (hop : c.op.callsOut = false) :
    Simulated c u ((u.report (reports net u c)).deposit c.op.value) := by
  intro b hb
  obtain ⟨msg, op⟩ := c
  cases op with
  | executeMatch buy punkIndex => simp [Op.callsOut] at hop
  | withdrawFees recipient => simp [Op.callsOut] at hop
  | cancelBid bid => exact simulated_cancelBids h hb rfl
  | cancelBids bids => exact simulated_cancelBids h hb rfl
  | incrementNonce => exact ⟨_, .singleton .advance, hb.nonce h⟩
  | _ => exact ⟨b, .nil b, hb.of_eq rfl rfl⟩

/-- A stretch that leaves the storage alone acts on nothing. -/
theorem acted_of_store_eq (hop : c.op.callsOut = true) (h : v.store = u.store) :
    acted (.own c u v) = [] := by
  obtain ⟨msg, op⟩ := c
  cases op with
  | executeMatch buy punkIndex => simp [acted, h]
  | withdrawFees recipient => rfl
  | _ => simp [Op.callsOut] at hop

/-- The stretch that sets the flag of a match closes its order. -/
theorem Accepted.acted_eq {buy : Input} {punkIndex : Uint256} {sale : Sale}
    (h : Accepted net c.msg u buy punkIndex sale) (hop : c.op = .executeMatch buy punkIndex) :
    acted (.own c u (u.withStore (Store.flag (u.store.bidHash buy.bid)))) =
      [.close .matched (u.store.ticket buy.bid)] := by
  have hset : (u.withStore (Store.flag (u.store.bidHash buy.bid))).store.cancelledOrFilled
      (u.store.bidHash buy.bid) = true := Store.flag_self _ _
  simp [acted, hop, hset, h.unflagged]

/-- The stretches of a call that hands over control are simulated; only the one that sets the flag
does anything. -/
theorem OwnStep.simulated (h : OwnStep net c u v) (hop : c.op.callsOut = true) :
    Simulated c u v := by
  intro b hb
  rcases h.store_cases hop with hsame | ⟨buy, punkIndex, sale, hop', hacc, rfl⟩
  · rw [acted_of_store_eq hop hsame, hsame]
    exact ⟨b, .nil b, hb⟩
  · obtain ⟨b', hstep, hb'⟩ := hb.flag hacc.unflagged .matched
    exact ⟨b', hacc.acted_eq hop' ▸ .singleton hstep, hb'⟩

/-- **The simulation**: what any stretch of the contract's code does to the storage, its actions do
to the book. -/
theorem call_simulated (net : Network Ω) (c : Call) (w : World Ω) :
    (call net c w).Stretches (Simulated c) w := by
  by_cases hop : c.op.callsOut = true
  · exact (call_stretches net c w).mono fun u v h ↦ h.simulated hop
  · have hop : c.op.callsOut = false := by simpa using hop
    rcases call_quiet net c w hop with ⟨hp, hret⟩ | ⟨-, e, hrev⟩
    · rw [hret]
      exact hp.simulated hop
    · rw [hrev]
      trivial

end Steps

/-! ## Runs -/

section Runs

variable {net : Network Ω} {w t : World Ω} {x : Behaviour Ω} {es : Trace Ω}

/-- **The refinement**: the history of a run takes the book of its beginning to that of its end. -/
theorem Runs.steps (h : Runs net x w t es) {b : Book Address Bid} (hb : Reflects b w.store) :
    ∃ b', BookSteps b (history es) b' ∧ Reflects b' t.store := by
  let R (s : World Ω) (es : Trace Ω) (t : World Ω) : Prop := ∀ b, Reflects b s.store →
    ∃ b', BookSteps b (history es) b' ∧ Reflects b' t.store
  have hclosed : TraceClosed R := by
    refine ⟨fun s b hb ↦ ⟨b, .nil b, hb⟩, fun h h' b hb ↦ ?_⟩
    obtain ⟨b₁, hsteps, hb₁⟩ := h b hb
    obtain ⟨b', hsteps', hb'⟩ := h' b₁ hb₁
    exact ⟨b', history_append _ _ ▸ hsteps.append hsteps', hb'⟩
  have hdeed : ∀ (d : Deed Ω) (u : World Ω), R u [.other d u (d.run u)] (d.run u) :=
    fun d u b hb ↦ ⟨b, .nil b, hb⟩
  refine Script.exec_stretches (R := R) hclosed hdeed (fun c u ↦ ?_) (fun c s t es hes ↦ ?_)
    x h b hb
  · refine (call_simulated net c u).mono fun u v hsim b hb ↦ ?_
    simpa using hsim b hb
  · simpa [R] using hes

/-! ### The history and the log -/

/-- A call that hands over no control decides the outcomes it reports. -/
theorem Permitted.outcomes {c : Call} {u v : World Ω} (h : Permitted net u c)
    (hop : c.op.callsOut = false) :
    (acted (.own c u v)).filterMap actOutcome = (reports net u c).filterMap Event.outcome := by
  have hbids {msg : Msg} {bids : List Bid} (h : BatchCancellable u msg.sender bids) :
      (bids.map fun bid ↦ Act.close .cancelled (u.store.ticket bid)).filterMap actOutcome =
        ((u.batchHashes msg.sender bids).map .bidCancelled).filterMap Event.outcome := by
    rw [List.filterMap_map, World.batchHashes, List.map_map, List.filterMap_map]
    refine List.filterMap_congr fun bid hmem ↦ ?_
    simp [actOutcome, Event.outcome, ← Store.bidHash_eq, Store.bidHash, h.bidder_eq bid hmem]
  obtain ⟨msg, op⟩ := c
  cases op with
  | executeMatch buy punkIndex => simp [Op.callsOut] at hop
  | withdrawFees recipient => simp [Op.callsOut] at hop
  | cancelBid bid => exact hbids h
  | cancelBids bids => exact hbids h
  | _ => rfl

/-- The outcomes of a stretch of a run: the history has them where they are decided, the log where
they are reported. -/
def SameOutcomes (net : Network Ω) (es : Trace Ω) : Prop :=
  ((history es).filterMap actOutcome).Perm ((es.flatMap (reported net)).filterMap Event.outcome)

theorem SameOutcomes.nil (net : Network Ω) : SameOutcomes net [] := List.Perm.nil

theorem SameOutcomes.append {es es' : Trace Ω} (h : SameOutcomes net es)
    (h' : SameOutcomes net es') : SameOutcomes net (es ++ es') := by
  simp only [SameOutcomes, history_append, List.flatMap_append, List.filterMap_append] at *
  exact h.append h'

/-- What is decided ahead of a stretch and reported after it. -/
theorem SameOutcomes.ahead {es : Trace Ω} {acts : List BookAct} {events : List Event}
    (h : SameOutcomes net es) (hsame : acts.filterMap actOutcome = events.filterMap Event.outcome) :
    ((acts ++ history es).filterMap actOutcome).Perm
      ((es.flatMap (reported net) ++ events).filterMap Event.outcome) := by
  rw [List.filterMap_append, List.filterMap_append, hsame]
  exact (List.Perm.append_left _ h).trans List.perm_append_comm

/-- **A call reports what it has decided if its callees do.** -/
theorem call_outcomes {c : Call} {callee : Ext → World Ω → Option (World Ω × Trace Ω)}
    (hcallee : ∀ k s t es, callee k s = some (t, es) → SameOutcomes net es)
    (h : (call net c w).trace c callee w = some (t, es)) :
    SameOutcomes net (.entered c w :: (es ++ [.returned c w t])) := by
  by_cases hop : c.op.callsOut = true
  swap
  · have hop : c.op.callsOut = false := by simpa using hop
    rcases call_quiet net c w hop with ⟨hp, hret⟩ | ⟨-, e, hrev⟩
    · rw [hret, trace_ret, Option.some_inj, Prod.mk.injEq] at h
      obtain ⟨rfl, rfl⟩ := h
      have hsame := (SameOutcomes.nil net).ahead
        (hp.outcomes hop (v := (w.report (reports net w c)).deposit c.op.value))
      simpa [SameOutcomes, reported] using hsame
    · simp [hrev] at h
  obtain ⟨msg, op⟩ := c
  cases op with
  | executeMatch buy punkIndex =>
    obtain ⟨sale, hacc, hs⟩ := trace_executeMatch h
    obtain ⟨w₁, w₂, w₃, w₄, es₁, es₂, es₃, es₄, h₁, h₂, -, h₃, h₄, rfl, rfl⟩ := trace_settle.mp hs
    have hpass {u v : World Ω} (hf : v.store = u.store) :
        acted (.own ⟨msg, .executeMatch buy punkIndex⟩ u v) = [] := acted_of_store_eq rfl hf
    have hinner := (hcallee _ _ _ _ h₁).append ((hcallee _ _ _ _ h₂).append
      ((hcallee _ _ _ _ h₃).append (hcallee _ _ _ _ h₄)))
    have hone : [Act.close Outcome.matched (w.store.ticket buy.bid)].filterMap actOutcome =
        (reports net w ⟨msg, .executeMatch buy punkIndex⟩).filterMap Event.outcome := by
      rw [hacc.reports_eq]
      rfl
    have hsame := hinner.ahead hone
    have hsend : acted (.own ⟨msg, .executeMatch buy punkIndex⟩ w₂ (w₂.send sale.punkPrice)) = [] :=
      hpass rfl
    have hlog (e : Event) : acted (.own ⟨msg, .executeMatch buy punkIndex⟩ w₄ (w₄.log e)) = [] :=
      hpass rfl
    simpa [SameOutcomes, reported, hpass, hsend, hlog, hacc.acted_eq] using hsame
  | withdrawFees recipient =>
    obtain ⟨-, w', es', hpay, rfl, rfl⟩ := trace_withdrawFees.mp h
    have hin := hcallee _ _ _ _ hpay
    have hfees : [Event.feesWithdrawn recipient w.balance].filterMap Event.outcome = [] := rfl
    simpa [SameOutcomes, reported, reports, acted, hfees] using hin
  | _ => simp [Op.callsOut] at hop

/-- The log of a run has the outcomes of its history. -/
theorem Runs.outcomes (h : Runs net x w t es) : SameOutcomes net es := by
  have hclosed : TraceClosed fun (_ : World Ω) (es : Trace Ω) (_ : World Ω) ↦
      SameOutcomes net es := ⟨fun _ ↦ .nil net, fun h h' ↦ h.append h'⟩
  exact Script.exec_induct hclosed (fun _ _ ↦ .nil net)
    (fun _ _ hk _ _ _ ht ↦ call_outcomes hk ht) x h

/-! ### Whose actions they are -/

/-- The action is one that the call `c` may take in the world `u`. -/
inductive Entitled (net : Network Ω) (c : Call) (u : World Ω) : BookAct → Prop where
  /-- A match closes an order that has passed all its checks. -/
  | matched {buy : Input} {punkIndex : Uint256} {sale : Sale}
      (hop : c.op = .executeMatch buy punkIndex) (h : Accepted net c.msg u buy punkIndex sale) :
      Entitled net c u (.close .matched (u.store.ticket buy.bid))
  /-- Its maker may cancel an order. -/
  | cancelled {o : Bid} (h : o.bidder = c.msg.sender) : Entitled net c u (.close .cancelled o)
  | advance : Entitled net c u (.advance c.msg.sender)

/-- Every action of a stretch is one its caller is entitled to. -/
theorem call_entitled (net : Network Ω) (c : Call) (w : World Ω) :
    (call net c w).Stretches (fun u v ↦ ∀ a ∈ acted (.own c u v), Entitled net c u a) w := by
  by_cases hop : c.op.callsOut = true
  · refine (call_stretches net c w).mono fun u v h a ha ↦ ?_
    rcases h.store_cases hop with hsame | ⟨buy, punkIndex, sale, hop', hacc, rfl⟩
    · simp [acted_of_store_eq hop hsame] at ha
    · rw [hacc.acted_eq hop', List.mem_singleton] at ha
      exact ha ▸ .matched hop' hacc
  · have hop : c.op.callsOut = false := by simpa using hop
    rcases call_quiet net c w hop with ⟨hp, hret⟩ | ⟨-, e, hrev⟩
    swap
    · rw [hrev]
      trivial
    rw [hret, stretches_ret]
    intro a ha
    obtain ⟨msg, op⟩ := c
    have hbids (bids : List Bid) (h : BatchCancellable w msg.sender bids)
        (ha : a ∈ bids.map fun bid ↦ Act.close .cancelled (w.store.ticket bid)) :
        Entitled net ⟨msg, op⟩ w a := by
      obtain ⟨bid, hmem, rfl⟩ := List.mem_map.mp ha
      exact .cancelled (h.bidder_eq bid hmem)
    cases op with
    | executeMatch buy punkIndex => simp [Op.callsOut] at hop
    | withdrawFees recipient => simp [Op.callsOut] at hop
    | cancelBid bid => exact hbids [bid] hp ha
    | cancelBids bids => exact hbids bids hp ha
    | incrementNonce => exact List.mem_singleton.mp ha ▸ .advance
    | _ => simp [acted] at ha

end Runs

/-- The book reflects the storage that the constructor leaves. -/
theorem reflects_deploy (chainid : Uint256) (self deployer : Address) (balance : Nat) (ω : Ω) :
    Reflects .empty (deploy chainid self deployer balance ω).store where
  nonces _ := rfl
  flags hash := by simp [deploy, Book.empty]

/-- **Nested calls are atomic.**  However calls interleave and whatever is rolled back, the flags
and the nonces are those of an order book that took the actions of the history one after the other:
each where its call set the flag or the nonce, and each one its caller was entitled to there.  The
log has the same outcomes, in another order.  So no bid is closed twice at one nonce, neither by a
match nor by a cancellation, and each is closed at exactly the nonce its bidder has reached by
then. -/
theorem nested_calls_are_atomic (net : Network Ω) (chainid : Uint256) (deployer : Address)
    (balance : Nat) (ω : Ω) (x : Behaviour Ω) (t : World Ω) (es : Trace Ω)
    (h : Runs net x (deploy chainid net.self deployer balance ω) t es) :
    (∃ b, Book.empty.Steps Bid.bidder Bid.stamp (history es) b ∧ Reflects b t.store) ∧
    ((history es).filterMap actOutcome).Perm (t.logs.filterMap Event.outcome) ∧
    (∀ c u v, .own c u v ∈ es → ∀ a ∈ acted (.own c u v), Entitled net c u a ∧ Called c es) ∧
    ((history es).filterMap Act.closes).Nodup ∧
    ∀ acts acts' how o, history es = acts ++ .close how o :: acts' →
      o.stamp = advances o.bidder acts := by
  obtain ⟨b, hsteps, hb⟩ := h.steps (reflects_deploy chainid net.self deployer balance ω)
  refine ⟨⟨b, hsteps, hb⟩, ?_, fun c u v hmem a ha ↦ ⟨?_, Script.exec_called x h hmem⟩,
    hsteps.nodup, fun acts acts' how o hes ↦ ?_⟩
  · have hlogs : t.logs.filterMap Event.outcome =
        (es.flatMap (reported net)).filterMap Event.outcome := by
      rw [h.journaled.logs]
      rfl
    rw [hlogs]
    exact h.outcomes
  · exact Script.exec_own (call_entitled net) x h hmem a ha
  · rw [hes] at hsteps
    simpa [Book.empty] using hsteps.stamp_eq

/-- A run of the theorem in which a signed bid is matched. -/
theorem nested_calls_are_atomic_ape :
    ∃ t es, Runs signedNetwork (plainMatch (apeMsg 1) apeInput 5)
        (deploy 1 signedNetwork.self 7 0 ()) t es ∧
      ((history es).filterMap actOutcome).Perm (t.logs.filterMap Event.outcome) := by
  obtain ⟨t, es, hrun, -⟩ := runs_plainMatch (accepted_apeInput 1 rfl) (Nat.zero_le 0)
  exact ⟨t, es, hrun, (nested_calls_are_atomic signedNetwork 1 7 0 () _ t es hrun).2.1⟩

end PunksBids
