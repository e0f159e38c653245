import PunksBids.Contract.Functions
import PunksBids.Lib.Stretches

/-!
# What a call can do

One statement per function, so that nothing after this file unfolds a program again.

`Accepted` lists the checks of `executeMatch`: either they hold and what is left is `settle`, which
makes the four external calls, or the call reverts (`executeMatch_cases`).  `OwnStep` lists
everything the contract's own code can do between two points where control is elsewhere, for every
function (`call_stretches`).  Only `executeMatch` and `withdrawFees` hand over control; for these
`trace_executeMatch` and `trace_withdrawFees` say how the pieces follow each other in a call that
returns, and a call of any other function is a single step (`call_finishes`).
-/

set_option autoImplicit false

namespace PunksBids

open Evm OpenCalls

variable {Ω : Type}

/-! ## Stepping through the programs -/

section Tx

variable {w : World Ω} {α : Type} {O : World Ω → World Ω → Prop} {p : World Ω} {ι δ : Type}
  {i : ι} {callee : Ext → World Ω → Option (World Ω × List (Entry ι δ (World Ω)))}

@[simp] theorem Tx.storage_bind (f : Store → Tx Ω α) : (Tx.storage >>= f) w = f w.store w := rfl

@[simp] theorem Tx.emit_apply (e : Event) : (Tx.emit e : Tx Ω Unit) w = .ret () (w.log e) := rfl

theorem Tx.require_bind_of {c : Prop} [Decidable c] {e : Error} {f : Unit → Tx Ω α} (h : c) :
    (Tx.require c e >>= f) w = f () w := by
  rw [Tx.require, Evm.require, if_pos h, Prog.lift_ok_bind]

theorem Tx.require_bind_of_not {c : Prop} [Decidable c] {e : Error} {f : Unit → Tx Ω α}
    (h : ¬ c) : (Tx.require c e >>= f) w = .revert e := by
  rw [Tx.require, Evm.require, if_neg h, Prog.lift_error_bind]

theorem stretches_require {c : Prop} [Decidable c] {e : Error} {f : Unit → Tx Ω α} :
    ((Tx.require c e >>= f) w).Stretches O p ↔ (c → (f () w).Stretches O p) := by
  by_cases h : c
  · simp [Tx.require_bind_of h, h]
  · simp [Tx.require_bind_of_not h, h]

theorem stretches_callOrRevert {k : Ext} {e : Error} {f : Unit → Tx Ω α} :
    ((Tx.callOrRevert k e >>= f) w).Stretches O p ↔ O p w ∧ ∀ w', (f () w').Stretches O w' := by
  rw [Tx.callOrRevert, bind_assoc, stretches_call]
  simp

theorem trace_callOrRevert {k : Ext} {e : Error} {f : Unit → Tx Ω α} {t : World Ω}
    {es : List (Entry ι δ (World Ω))} :
    ((Tx.callOrRevert k e >>= f) w).trace i callee p = some (t, es) ↔
      ∃ w' es₁ es₂, callee k w = some (w', es₁) ∧
        (f () w').trace i callee w' = some (t, es₂) ∧ es = .own i p w :: (es₁ ++ es₂) := by
  rw [Tx.callOrRevert, bind_assoc, trace_call (by simp)]
  simp

/-- The world in which a call that sends `value` is made. -/
def World.send (w : World Ω) (value : Nat) : World Ω := { w with balance := w.balance - value }

/-- A call with a value, checked for success. -/
theorem callWithValue_bind {k : Ext} {value : Nat} {e : Error} {f : Unit → Tx Ω α} :
    (Tx.callWithValue k value >>= fun ok ↦ Tx.require (ok = true) e >>= f) w =
      if value ≤ w.balance then (Tx.callOrRevert k e >>= f) (w.send value) else .revert e := by
  rw [Tx.callWithValue, bind_assoc, Prog.get_bind]
  split
  · rw [bind_assoc, Prog.modify_bind, Tx.callOrRevert, bind_assoc, bind_assoc]
    exact Prog.call_bind_congr _ (fun _ ↦ rfl) rfl
  · exact Tx.require_bind_of_not (by simp)

theorem stretches_callWithValue {k : Ext} {value : Nat} {e : Error} {f : Unit → Tx Ω α} :
    ((Tx.callWithValue k value >>= fun ok ↦ Tx.require (ok = true) e >>= f) w).Stretches O p ↔
      (value ≤ w.balance → O p (w.send value) ∧ ∀ w', (f () w').Stretches O w') := by
  rw [callWithValue_bind]
  split
  · rw [stretches_callOrRevert]
    simp [*]
  · simp [*]

theorem trace_callWithValue {k : Ext} {value : Nat} {e : Error} {f : Unit → Tx Ω α} {t : World Ω}
    {es : List (Entry ι δ (World Ω))} :
    ((Tx.callWithValue k value >>= fun ok ↦ Tx.require (ok = true) e >>= f) w).trace
        i callee p = some (t, es) ↔
      value ≤ w.balance ∧ ∃ w' es₁ es₂, callee k (w.send value) = some (w', es₁) ∧
        (f () w').trace i callee w' = some (t, es₂) ∧
        es = .own i p (w.send value) :: (es₁ ++ es₂) := by
  rw [callWithValue_bind]
  split
  · rw [trace_callOrRevert]
    simp [*]
  · simp [*]

end Tx

/-! ## `executeMatch` -/

/-- The hash of a bid at the nonce its bidder has. -/
def Store.bidHash (st : Store) (bid : Bid) : Bytes32 := hashBid bid (st.nonces bid.bidder)

/-- The checks of `executeMatch`, with the sale parameters they end in. -/
structure Accepted (net : Network Ω) (msg : Msg) (w : World Ω) (buy : Input) (punkIndex : Uint256)
    (sale : Sale) : Prop where
  unpaused : w.store.paused = false
  bidder_ne_zero : buy.bid.bidder ≠ 0
  unflagged : w.store.cancelledOrFilled (w.store.bidHash buy.bid) = false
  listed : buy.bid.listingTime < msg.timestamp
  unexpired : msg.timestamp < buy.bid.expirationTime
  signed : buy.bid.bidder = msg.sender ∨
    ECDSA.recover net.ecrecover (hashToSign w.store.domainSeparator (w.store.bidHash buy.bid))
      buy.v buy.r buy.s = .ok buy.bid.bidder
  matched : canMatchBidAndPunk net msg.memory w.store w.outside buy.bid punkIndex = .ok sale

/-- What `executeMatch` does once its checks have passed and the flag is set. -/
def settle (net : Network Ω) (buy : Input) (punkIndex : Uint256) (bidHash : Bytes32) (sale : Sale) :
    Tx Ω Unit := do
  executeWETHTransfer net buy.bid.bidder sale.price
  executeBuyPunk buy.bid.bidder punkIndex sale.punkPrice
  Tx.emit (.bidMatched buy.bid.bidder sale.seller buy.bid sale.price bidHash)

theorem validateBidParameters_iff {msg : Msg} {store : Store} {bid : Bid} {bidHash : Bytes32} :
    validateBidParameters msg store bid bidHash = true ↔
      bid.bidder ≠ 0 ∧ store.cancelledOrFilled bidHash = false ∧ bid.listingTime < msg.timestamp ∧
        msg.timestamp < bid.expirationTime := by
  simp [validateBidParameters, and_assoc]

theorem validateSignature_eq_ok {net : Network Ω} {msg : Msg} {store : Store} {input : Input}
    {bidHash : Bytes32} :
    validateSignature net msg store input bidHash = .ok true ↔
      input.bid.bidder = msg.sender ∨
        ECDSA.recover net.ecrecover (hashToSign store.domainSeparator bidHash)
          input.v input.r input.s = .ok input.bid.bidder := by
  rw [validateSignature]
  split
  · simp [*]
  · simp only [Except.bind_eq_ok, Except.pure_eq_ok, decide_eq_true_eq, false_or, *]
    constructor
    · rintro ⟨a, ha, rfl⟩
      exact ha
    · intro h
      exact ⟨_, h, rfl⟩

/-- **Either the checks of `executeMatch` hold and it settles, or it reverts.** -/
theorem executeMatch_cases (net : Network Ω) (msg : Msg) (buy : Input) (punkIndex : Uint256)
    (w : World Ω) :
    (∃ sale, Accepted net msg w buy punkIndex sale ∧
      executeMatch net msg buy punkIndex w =
        settle net buy punkIndex (w.store.bidHash buy.bid) sale
          (w.withStore (Store.flag (w.store.bidHash buy.bid)))) ∨
    (∃ e, executeMatch net msg buy punkIndex w = .revert e) ∧
      ∀ sale, ¬ Accepted net msg w buy punkIndex sale := by
  have hhash : hashBid buy.bid (w.store.nonces buy.bid.bidder) = w.store.bidHash buy.bid := rfl
  simp only [executeMatch, whenNotPaused, bind_assoc, Tx.storage_bind]
  by_cases hp : w.store.paused = false
  swap
  · exact .inr ⟨⟨_, Tx.require_bind_of_not hp⟩, fun _ h ↦ hp h.unpaused⟩
  rw [Tx.require_bind_of hp, Prog.get_bind, hhash]
  by_cases hv : validateBidParameters msg w.store buy.bid (w.store.bidHash buy.bid) = true
  swap
  · refine .inr ⟨⟨_, Tx.require_bind_of_not hv⟩, fun _ h ↦ hv (validateBidParameters_iff.mpr ?_)⟩
    exact ⟨h.bidder_ne_zero, h.unflagged, h.listed, h.unexpired⟩
  rw [Tx.require_bind_of hv]
  obtain ⟨hb, hf, hl, he⟩ := validateBidParameters_iff.mp hv
  cases hs : validateSignature net msg w.store buy (w.store.bidHash buy.bid) with
  | error e =>
    refine .inr ⟨⟨e, rfl⟩, fun _ h ↦ ?_⟩
    simp [validateSignature_eq_ok.mpr h.signed] at hs
  | ok signed =>
  cases signed with
  | false =>
    refine .inr ⟨⟨_, rfl⟩, fun _ h ↦ ?_⟩
    simp [validateSignature_eq_ok.mpr h.signed] at hs
  | true =>
  rw [Prog.lift_ok_bind, Tx.require_bind_of rfl]
  cases hm : canMatchBidAndPunk net msg.memory w.store w.outside buy.bid punkIndex with
  | error e =>
    refine .inr ⟨⟨e, rfl⟩, fun _ h ↦ ?_⟩
    simp [h.matched] at hm
  | ok sale =>
    exact .inl ⟨sale, ⟨hp, hb, hf, hl, he, validateSignature_eq_ok.mp hs, hm⟩, rfl⟩

/-- The external calls of a match that goes through, in order, with the worlds between them. -/
theorem trace_settle {net : Network Ω} {buy : Input} {punkIndex : Uint256} {bidHash : Bytes32}
    {sale : Sale} {ι δ : Type} {i : ι}
    {callee : Ext → World Ω → Option (World Ω × List (Entry ι δ (World Ω)))} {p w t : World Ω}
    {es : List (Entry ι δ (World Ω))} :
    (settle net buy punkIndex bidHash sale w).trace i callee p = some (t, es) ↔
      ∃ w₁ w₂ w₃ w₄ es₁ es₂ es₃ es₄,
        callee (.transferFrom buy.bid.bidder net.self sale.price) w = some (w₁, es₁) ∧
        callee (.withdraw sale.price) w₁ = some (w₂, es₂) ∧
        sale.punkPrice ≤ w₂.balance ∧
        callee (.buyPunk punkIndex sale.punkPrice) (w₂.send sale.punkPrice) = some (w₃, es₃) ∧
        callee (.transferPunk buy.bid.bidder punkIndex) w₃ = some (w₄, es₄) ∧
        t = w₄.log (.bidMatched buy.bid.bidder sale.seller buy.bid sale.price bidHash) ∧
        es = .own i p w :: (es₁ ++ .own i w₁ w₁ :: (es₂ ++ .own i w₂ (w₂.send sale.punkPrice) ::
          (es₃ ++ .own i w₃ w₃ :: (es₄ ++ [.own i w₄ t])))) := by
  simp only [settle, executeWETHTransfer, executeBuyPunk, bind_assoc, trace_callOrRevert,
    trace_callWithValue, Tx.emit_apply, trace_ret, Option.some_inj, Prod.mk.injEq]
  constructor
  · rintro ⟨w₁, es₁, _, h₁, ⟨w₂, es₂, _, h₂, ⟨hle, w₃, es₃, _, h₃, ⟨w₄, es₄, _, h₄, ⟨rfl, rfl⟩,
      rfl⟩, rfl⟩, rfl⟩, rfl⟩
    exact ⟨w₁, w₂, w₃, w₄, es₁, es₂, es₃, es₄, h₁, h₂, hle, h₃, h₄, rfl, rfl⟩
  · rintro ⟨w₁, w₂, w₃, w₄, es₁, es₂, es₃, es₄, h₁, h₂, hle, h₃, h₄, rfl, rfl⟩
    exact ⟨w₁, es₁, _, h₁, ⟨w₂, es₂, _, h₂, ⟨hle, w₃, es₃, _, h₃, ⟨w₄, es₄, _, h₄, ⟨rfl, rfl⟩,
      rfl⟩, rfl⟩, rfl⟩, rfl⟩

/-! ## Cancelling -/

/-- The world after the cancellation of `hash`. -/
def World.cancel (w : World Ω) (hash : Bytes32) : World Ω :=
  (w.withStore (Store.flag hash)).log (.bidCancelled hash)

/-- The checks of `cancelBid`. -/
def Cancellable (msg : Msg) (w : World Ω) (bid : Bid) : Prop :=
  msg.sender = bid.bidder ∧ w.store.cancelledOrFilled (w.store.bidHash bid) = false

/-- The bids, cancelled one after the other. -/
inductive Cancels (msg : Msg) : List Bid → World Ω → World Ω → Prop where
  | nil (w : World Ω) : Cancels msg [] w w
  | cons {bid : Bid} {bids : List Bid} {w t : World Ω} (h : Cancellable msg w bid)
      (hrest : Cancels msg bids (w.cancel (w.store.bidHash bid)) t) : Cancels msg (bid :: bids) w t

theorem cancelBid_bind_of {msg : Msg} {w : World Ω} {bid : Bid} {f : Unit → Tx Ω Unit}
    (h : Cancellable msg w bid) :
    (cancelBid msg bid >>= f) w = f () (w.cancel (w.store.bidHash bid)) := by
  have hflag : ¬ w.store.cancelledOrFilled (hashBid bid (w.store.nonces bid.bidder)) = true := by
    rw [show w.store.cancelledOrFilled (hashBid bid (w.store.nonces bid.bidder)) = false from h.2]
    decide
  simp only [cancelBid, bind_assoc]
  rw [Tx.require_bind_of (not_not.mpr h.1), Tx.storage_bind, Tx.require_bind_of hflag]
  rfl

theorem cancelBid_bind_of_not {msg : Msg} {w : World Ω} {bid : Bid} {f : Unit → Tx Ω Unit}
    (h : ¬ Cancellable msg w bid) : ∃ e, (cancelBid msg bid >>= f) w = .revert e := by
  simp only [cancelBid, bind_assoc]
  by_cases hs : msg.sender = bid.bidder
  · have hflag : ¬¬ w.store.cancelledOrFilled (hashBid bid (w.store.nonces bid.bidder)) = true := by
      intro hf
      exact h ⟨hs, (Bool.not_eq_true _).mp hf⟩
    rw [Tx.require_bind_of (not_not.mpr hs), Tx.storage_bind]
    exact ⟨_, Tx.require_bind_of_not hflag⟩
  · exact ⟨_, Tx.require_bind_of_not (not_not.mpr hs)⟩

/-- **Either every bid can be cancelled in its turn, or the call reverts.** -/
theorem cancelBids_cases (msg : Msg) (bids : List Bid) (w : World Ω) :
    (∃ t, Cancels msg bids w t ∧ cancelBids msg bids w = .ret () t) ∨
      (∃ e, cancelBids msg bids w = .revert e) ∧ ∀ t, ¬ Cancels msg bids w t := by
  induction bids generalizing w with
  | nil => exact .inl ⟨w, .nil w, rfl⟩
  | cons bid bids ih =>
    rw [cancelBids]
    by_cases h : Cancellable msg w bid
    · rw [cancelBid_bind_of h]
      rcases ih (w.cancel (w.store.bidHash bid)) with ⟨t, ht, hret⟩ | ⟨hrev, hnot⟩
      · exact .inl ⟨t, .cons h ht, hret⟩
      · refine .inr ⟨hrev, ?_⟩
        rintro t (_ | ⟨-, hrest⟩)
        exact hnot t hrest
    · refine .inr ⟨cancelBid_bind_of_not h, ?_⟩
      rintro t (_ | ⟨h', -⟩)
      exact h h'

theorem cancelBid_eq (msg : Msg) (bid : Bid) (w : World Ω) :
    cancelBid msg bid w = cancelBids msg [bid] w := by
  rw [cancelBids, cancelBids, bind_pure_unit]

/-! ## Administration -/

/-- The bid hash an event settles. -/
def Event.settles : Event → Option Bytes32
  | .bidMatched _ _ _ _ bidHash => some bidHash
  | .bidCancelled hash => some hash
  | _ => none

/-- The account whose nonce an event reports. -/
def Event.increments : Event → Option Address
  | .nonceIncremented bidder _ => some bidder
  | _ => none

/-- A change of the storage that concerns no bid. -/
structure Administers (st st' : Store) : Prop where
  domainSeparator : st'.domainSeparator = st.domainSeparator
  cancelledOrFilled : st'.cancelledOrFilled = st.cancelledOrFilled
  nonces : st'.nonces = st.nonces
  feeRate : st'.feeRate = st.feeRate ∨ st'.feeRate.toNat ≤ maxFeeRate
  localFeeRate : st'.localFeeRate = st.localFeeRate ∨ st'.localFeeRate.toNat ≤ maxFeeRate

/-! ## All calls -/

/-- The functions that hand over control. -/
def Op.callsOut : Op → Bool
  | .executeMatch _ _ | .withdrawFees _ => true
  | _ => false

/-- The ETH that a call brings. -/
def Op.value : Op → Nat
  | .receive value => value
  | _ => 0

/-- The bids that a call is to cancel. -/
def Op.cancels : Op → List Bid
  | .cancelBid bid => [bid]
  | .cancelBids bids => bids
  | _ => []

/-- The call may set the flag of `bid`. -/
inductive Call.Closes (c : Call) (bid : Bid) : Prop where
  /-- It is a match of the bid. -/
  | matched {buy : Input} {punkIndex : Uint256} (hop : c.op = .executeMatch buy punkIndex)
      (hbid : buy.bid = bid) : Closes c bid
  /-- The bid is to be cancelled for its bidder, the caller. -/
  | cancelled (hmem : bid ∈ c.op.cancels) (hbidder : bid.bidder = c.msg.sender) : Closes c bid

/-- What the contract's own code does between two points where control is elsewhere. -/
inductive OwnStep (net : Network Ω) (c : Call) (w : World Ω) : World Ω → Prop where
  /-- Nothing, between two external calls. -/
  | pass (hop : c.op.callsOut = true) : OwnStep net c w w
  /-- The checks of a match, up to its flag. -/
  | accept {buy : Input} {punkIndex : Uint256} {sale : Sale}
      (hop : c.op = .executeMatch buy punkIndex) (h : Accepted net c.msg w buy punkIndex sale) :
      OwnStep net c w (w.withStore (Store.flag (w.store.bidHash buy.bid)))
  /-- A value is sent. -/
  | send {value : Nat} (hop : c.op.callsOut = true) (h : value ≤ w.balance) :
      OwnStep net c w (w.send value)
  /-- What was done is logged. -/
  | report {e : Event} (hop : c.op.callsOut = true) : OwnStep net c w (w.log e)
  /-- Bids are cancelled. -/
  | cancel {bids : List Bid} {t : World Ω}
      (hop : c.op = .cancelBids bids ∨ ∃ bid, c.op = .cancelBid bid ∧ bids = [bid])
      (h : Cancels c.msg bids w t) : OwnStep net c w t
  /-- A nonce goes up by one. -/
  | nonce {n : Uint256} (hop : c.op = .incrementNonce)
      (h : n.toNat = (w.store.nonces c.msg.sender).toNat + 1) :
      OwnStep net c w
        ((w.withStore (Store.setNonce c.msg.sender n)).log (.nonceIncremented c.msg.sender n))
  /-- Administration. -/
  | admin {f : Store → Store} {e : Event} (hop : c.op.callsOut = false)
      (h : Administers w.store (f w.store)) (hs : e.settles = none) (hi : e.increments = none)
      (hv : c.op.value = 0) : OwnStep net c w ((w.withStore f).log e)
  /-- ETH arrives. -/
  | receive {value : Nat} (hop : c.op = .receive value) :
      OwnStep net c w { w with balance := w.balance + value }

/-! ### Calls in which control is never elsewhere -/

/-- The program returns in a world in `O`, or reverts. -/
def Finishes (O : World Ω → Prop) (r : Run Error Ext (World Ω) Unit) : Prop :=
  (∃ t, O t ∧ r = .ret () t) ∨ ∃ e, r = .revert e

section Finishes

variable {O : World Ω → Prop} {w : World Ω} {f : Unit → Tx Ω Unit}

theorem finishes_ret {t : World Ω} (h : O t) : Finishes O (.ret () t) := .inl ⟨t, h, rfl⟩

theorem finishes_require {c : Prop} [Decidable c] {e : Error} (h : c → Finishes O (f () w)) :
    Finishes O ((Tx.require c e >>= f) w) := by
  by_cases hc : c
  · rw [Tx.require_bind_of hc]
    exact h hc
  · exact .inr ⟨e, Tx.require_bind_of_not hc⟩

theorem finishes_onlyOwner {msg : Msg} (h : Finishes O (f () w)) :
    Finishes O ((onlyOwner msg >>= f) w) := by
  rw [onlyOwner, bind_assoc, Tx.storage_bind]
  exact finishes_require fun _ ↦ h

theorem finishes_whenNotPaused (h : Finishes O (f () w)) :
    Finishes O ((whenNotPaused >>= f) w) := by
  rw [whenNotPaused, bind_assoc, Tx.storage_bind]
  exact finishes_require fun _ ↦ h

theorem finishes_whenPaused (h : Finishes O (f () w)) : Finishes O ((whenPaused >>= f) w) := by
  rw [whenPaused, bind_assoc, Tx.storage_bind]
  exact finishes_require fun _ ↦ h

theorem finishes_cancelBids {msg : Msg} {bids : List Bid} (h : ∀ t, Cancels msg bids w t → O t) :
    Finishes O (cancelBids msg bids w) := by
  rcases cancelBids_cases msg bids w with ⟨t, ht, hret⟩ | ⟨hrev, -⟩
  · exact .inl ⟨t, h t ht, hret⟩
  · exact .inr hrev

theorem finishes_incrementNonce {msg : Msg}
    (h : ∀ n : Uint256, n.toNat = (w.store.nonces msg.sender).toNat + 1 →
      O ((w.withStore (Store.setNonce msg.sender n)).log (.nonceIncremented msg.sender n))) :
    Finishes O (incrementNonce msg w) := by
  rw [incrementNonce, Tx.storage_bind]
  by_cases hlt : (w.store.nonces msg.sender).toNat + 1 < wordSize
  · rw [checkedAdd_ok hlt]
    refine finishes_ret (h _ ?_)
    exact (BitVec.toNat_ofNat _ _).trans (Nat.mod_eq_of_lt hlt)
  · refine .inr ⟨.panic .arithmetic, ?_⟩
    rw [checkedAdd, if_neg hlt]
    rfl

theorem finishes_transferOwnershipTo {newOwner : Address}
    (h : ∀ e : Event, e.settles = none → e.increments = none →
      O ((w.withStore fun st ↦ { st with pendingOwner := 0, owner := newOwner }).log e)) :
    Finishes O (transferOwnershipTo newOwner w) :=
  finishes_ret (h _ rfl rfl)

end Finishes

/-- **A call that never hands over control** is a single step, or reverts. -/
theorem call_finishes (net : Network Ω) (c : Call) (w : World Ω) (hop : c.op.callsOut = false) :
    Finishes (OwnStep net c w) (call net c w) := by
  obtain ⟨msg, op⟩ := c
  cases op with
  | executeMatch buy punkIndex => simp [Op.callsOut] at hop
  | withdrawFees recipient => simp [Op.callsOut] at hop
  | cancelBid bid =>
    change Finishes _ (cancelBid msg bid w)
    rw [cancelBid_eq]
    exact finishes_cancelBids fun t ht ↦ .cancel (.inr ⟨bid, rfl, rfl⟩) ht
  | cancelBids bids => exact finishes_cancelBids fun t ht ↦ .cancel (.inl rfl) ht
  | incrementNonce => exact finishes_incrementNonce fun n hn ↦ .nonce rfl hn
  | setFeeRate feeRate =>
    refine finishes_onlyOwner (finishes_require fun hle ↦ finishes_ret ?_)
    exact .admin hop ⟨rfl, rfl, rfl, .inr (Nat.le_of_not_gt hle), .inl rfl⟩ rfl rfl rfl
  | setLocalFeeRate localFeeRate =>
    refine finishes_onlyOwner (finishes_require fun hle ↦ finishes_ret ?_)
    exact .admin hop ⟨rfl, rfl, rfl, .inl rfl, .inr (Nat.le_of_not_gt hle)⟩ rfl rfl rfl
  | pause =>
    refine finishes_onlyOwner (finishes_whenNotPaused (finishes_ret ?_))
    exact .admin hop ⟨rfl, rfl, rfl, .inl rfl, .inl rfl⟩ rfl rfl rfl
  | unpause =>
    refine finishes_onlyOwner (finishes_whenPaused (finishes_ret ?_))
    exact .admin hop ⟨rfl, rfl, rfl, .inl rfl, .inl rfl⟩ rfl rfl rfl
  | transferOwnership newOwner =>
    refine finishes_onlyOwner (finishes_ret ?_)
    exact .admin hop ⟨rfl, rfl, rfl, .inl rfl, .inl rfl⟩ rfl rfl rfl
  | acceptOwnership =>
    refine finishes_require fun _ ↦ finishes_transferOwnershipTo fun e hs hi ↦ ?_
    exact .admin hop ⟨rfl, rfl, rfl, .inl rfl, .inl rfl⟩ hs hi rfl
  | renounceOwnership =>
    refine finishes_onlyOwner (finishes_transferOwnershipTo fun e hs hi ↦ ?_)
    exact .admin hop ⟨rfl, rfl, rfl, .inl rfl, .inl rfl⟩ hs hi rfl
  | receive value => exact finishes_ret (.receive rfl)

/-! ### Calls that hand over control -/

section CallsOut

variable {net : Network Ω} {msg : Msg} {ι δ : Type} {i : ι}
  {callee : Ext → World Ω → Option (World Ω × List (Entry ι δ (World Ω)))} {w t : World Ω}
  {es : List (Entry ι δ (World Ω))}

theorem trace_executeMatch {buy : Input} {punkIndex : Uint256}
    (h : (executeMatch net msg buy punkIndex w).trace i callee w = some (t, es)) :
    ∃ sale, Accepted net msg w buy punkIndex sale ∧
      (settle net buy punkIndex (w.store.bidHash buy.bid) sale
        (w.withStore (Store.flag (w.store.bidHash buy.bid)))).trace i callee w = some (t, es) := by
  rcases executeMatch_cases net msg buy punkIndex w with ⟨sale, hacc, hrun⟩ | ⟨⟨e, hrev⟩, -⟩
  · exact ⟨sale, hacc, hrun ▸ h⟩
  · rw [hrev] at h
    simp at h

/-- `withdrawFees`: the owner sends everything there is, and logs it. -/
theorem trace_withdrawFees {recipient : Address} :
    (withdrawFees msg recipient w).trace i callee w = some (t, es) ↔
      w.store.owner = msg.sender ∧ ∃ w' es',
        callee (.pay recipient w.balance) (w.send w.balance) = some (w', es') ∧
        t = w'.log (.feesWithdrawn recipient w.balance) ∧
        es = .own i w (w.send w.balance) :: (es' ++ [.own i w' t]) := by
  rw [withdrawFees, onlyOwner, bind_assoc, Tx.storage_bind]
  by_cases ho : w.store.owner = msg.sender
  · rw [Tx.require_bind_of ho, Prog.get_bind, trace_callWithValue]
    simp only [Tx.emit_apply, trace_ret, Option.some_inj, Prod.mk.injEq]
    constructor
    · rintro ⟨-, w', es', es₂, hcall, ⟨rfl, rfl⟩, rfl⟩
      exact ⟨ho, w', es', hcall, rfl, rfl⟩
    · rintro ⟨-, w', es', hcall, rfl, rfl⟩
      exact ⟨Nat.le_refl _, w', es', _, hcall, ⟨rfl, rfl⟩, rfl⟩
  · rw [Tx.require_bind_of_not ho]
    simp [ho]

end CallsOut

theorem stretches_settle {net : Network Ω} {buy : Input} {punkIndex : Uint256} {bidHash : Bytes32}
    {sale : Sale} {c : Call} (hop : c.op = .executeMatch buy punkIndex) {p w : World Ω}
    (h : OwnStep net c p w) :
    (settle net buy punkIndex bidHash sale w).Stretches (OwnStep net c) p := by
  have hout : c.op.callsOut = true := by rw [hop]; rfl
  simp only [settle, executeWETHTransfer, executeBuyPunk, bind_assoc, stretches_callOrRevert,
    stretches_callWithValue, Tx.emit_apply, stretches_ret]
  exact ⟨h, fun w₁ ↦ ⟨.pass hout, fun w₂ hle ↦ ⟨.send hout hle, fun w₃ ↦ ⟨.pass hout,
    fun w₄ ↦ .report hout⟩⟩⟩⟩

/-- **Everything the contract's own code does is an `OwnStep`.** -/
theorem call_stretches (net : Network Ω) (c : Call) (w : World Ω) :
    (call net c w).Stretches (OwnStep net c) w := by
  by_cases hop : c.op.callsOut = true
  swap
  · rcases call_finishes net c w (by simpa using hop) with ⟨t, ht, hret⟩ | ⟨e, hrev⟩
    · rw [hret]
      exact ht
    · rw [hrev]
      trivial
  obtain ⟨msg, op⟩ := c
  cases op with
  | executeMatch buy punkIndex =>
    change (executeMatch net msg buy punkIndex w).Stretches _ w
    rcases executeMatch_cases net msg buy punkIndex w with ⟨sale, hacc, hrun⟩ | ⟨⟨e, hrev⟩, -⟩
    · rw [hrun]
      exact stretches_settle rfl (.accept rfl hacc)
    · rw [hrev]
      trivial
  | withdrawFees recipient =>
    change (withdrawFees msg recipient w).Stretches _ w
    rw [withdrawFees, onlyOwner, bind_assoc, Tx.storage_bind, stretches_require]
    intro _
    rw [Prog.get_bind, stretches_callWithValue]
    exact fun hle ↦ ⟨.send rfl hle, fun w' ↦ .report rfl⟩
  | _ => simp [Op.callsOut] at hop

end PunksBids
