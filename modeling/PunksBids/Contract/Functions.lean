import PunksBids.Contract.EIP712
import PunksBids.Contract.Matching
import PunksBids.Contract.OpenZeppelin

/-!
# `PunksBids.sol`

The constructor and the external functions.  `Op` lists the functions with their arguments, `Call`
adds what the chain supplies, and `call` is the program a call runs; `deploy` is the world the
constructor leaves.  Functions that only read storage are left out, and so is ETH sent to a function
that does not accept it: such a call reverts before its body.
-/

set_option autoImplicit false

namespace PunksBids

open Evm OpenCalls

variable {Ω : Type}

/-! ## Construction -/

/-- What the constructor leaves: the fee rates of the declarations, the domain separator of the
chain it runs on, the deployer as owner.  The address may have been sent ETH before. -/
def deploy (chainid : Uint256) (self deployer : Address) (balance : Nat) (ω : Ω) : World Ω where
  store :=
    { domainSeparator := hashDomain (deploymentDomain chainid self)
      paused := false
      owner := deployer
      pendingOwner := 0
      cancelledOrFilled := fun _ ↦ false
      nonces := fun _ ↦ 0
      feeRate := 10
      localFeeRate := 5 }
  balance := balance
  logs := [.ownershipTransferred 0 deployer]
  outside := ω

/-! ## `executeMatch` -/

/-- `_validateBidParameters`. -/
def validateBidParameters (msg : Msg) (store : Store) (bid : Bid) (bidHash : Bytes32) : Bool :=
  bid.bidder ≠ 0 && !store.cancelledOrFilled bidHash && decide (bid.listingTime < msg.timestamp) &&
    decide (msg.timestamp < bid.expirationTime)

/-- `_validateSignature`. -/
def validateSignature (net : Network Ω) (msg : Msg) (store : Store) (input : Input)
    (bidHash : Bytes32) : Except Error Bool :=
  if input.bid.bidder = msg.sender then
    return true
  else do
    let hash := hashToSign store.domainSeparator bidHash
    return decide (input.bid.bidder = (← ECDSA.recover net.ecrecover hash input.v input.r input.s))

/-- `_executeWETHTransfer`. -/
def executeWETHTransfer (net : Network Ω) (bidder : Address) (price : Nat) : Tx Ω Unit := do
  Tx.callOrRevert (.transferFrom bidder net.self price) .passedOn
  Tx.callOrRevert (.withdraw price) .passedOn

/-- `_executeBuyPunk`. -/
def executeBuyPunk (bidder : Address) (punkIndex : Uint256) (punkPrice : Nat) : Tx Ω Unit := do
  let bought ← Tx.callWithValue (.buyPunk punkIndex punkPrice) punkPrice
  Tx.require (bought = true) (.buyPunkFailed punkIndex)
  Tx.callOrRevert (.transferPunk bidder punkIndex) (.transferPunkFailed punkIndex)

/-- Set the flag of a bid hash. -/
def Store.flag (hash : Bytes32) (st : Store) : Store :=
  { st with cancelledOrFilled := Function.update st.cancelledOrFilled hash true }

@[simp] theorem Store.flag_self (st : Store) (hash : Bytes32) :
    (st.flag hash).cancelledOrFilled hash = true :=
  Function.update_self _ _ _

theorem Store.flag_of_ne {hash hash' : Bytes32} (h : hash' ≠ hash) (st : Store) :
    (st.flag hash).cancelledOrFilled hash' = st.cancelledOrFilled hash' :=
  Function.update_of_ne h _ _

/-- A flag that `flag` has raised is the one it was told to. -/
theorem Store.eq_of_flag {st : Store} {hash hash' : Bytes32}
    (h : st.cancelledOrFilled hash' = false) (h' : (st.flag hash).cancelledOrFilled hash' = true) :
    hash' = hash := by
  by_contra hne
  rw [Store.flag_of_ne hne, h] at h'
  exact Bool.false_ne_true h'

theorem Store.flag_comm (st : Store) (hash hash' : Bytes32) :
    (st.flag hash).flag hash' = (st.flag hash').flag hash := by
  have hflags : Function.update (Function.update st.cancelledOrFilled hash true) hash' true =
      Function.update (Function.update st.cancelledOrFilled hash' true) hash true := by
    funext h
    simp only [Function.update_apply]
    split <;> split <;> rfl
  simp only [Store.flag, hflags]

/-- Match a bid with a Punk offered for sale. -/
def executeMatch (net : Network Ω) (msg : Msg) (buy : Input) (punkIndex : Uint256) : Tx Ω Unit := do
  whenNotPaused
  let w ← Prog.get
  let bidHash := hashBid buy.bid (w.store.nonces buy.bid.bidder)
  Tx.require (validateBidParameters msg w.store buy.bid bidHash = true)
    (.invalidBidParameters buy.bid)
  let signed ← Prog.lift (validateSignature net msg w.store buy bidHash)
  Tx.require (signed = true) (.invalidSignature buy)
  let sale ← Prog.lift (canMatchBidAndPunk net msg.memory w.store w.outside buy.bid punkIndex)
  Tx.write (Store.flag bidHash)
  executeWETHTransfer net buy.bid.bidder sale.price
  executeBuyPunk buy.bid.bidder punkIndex sale.punkPrice
  Tx.emit (.bidMatched buy.bid.bidder sale.seller buy.bid sale.price bidHash)

/-! ## Cancelling -/

/-- Cancel a bid, preventing it from being matched. -/
def cancelBid (msg : Msg) (bid : Bid) : Tx Ω Unit := do
  Tx.require (¬ msg.sender ≠ bid.bidder) (.senderNotBidder msg.sender bid.bidder)
  let store ← Tx.storage
  let hash := hashBid bid (store.nonces bid.bidder)
  Tx.require (¬ store.cancelledOrFilled hash = true) (.bidAlreadyCancelledOrFilled bid)
  Tx.write (Store.flag hash)
  Tx.emit (.bidCancelled hash)

/-- Cancel multiple bids. -/
def cancelBids (msg : Msg) : List Bid → Tx Ω Unit
  | [] => return ()
  | bid :: bids => do
    cancelBid msg bid
    cancelBids msg bids

/-- Set the nonce of an account. -/
def Store.setNonce (a : Address) (n : Uint256) (st : Store) : Store :=
  { st with nonces := Function.update st.nonces a n }

/-- Cancel all current bids for a user. -/
def incrementNonce (msg : Msg) : Tx Ω Unit := do
  let store ← Tx.storage
  let next ← Prog.lift ((checkedAdd (store.nonces msg.sender).toNat 1).mapError Error.panic)
  Tx.write (Store.setNonce msg.sender (BitVec.ofNat 256 next))
  Tx.emit (.nonceIncremented msg.sender (BitVec.ofNat 256 next))

/-! ## Administration -/

def unpause (msg : Msg) : Tx Ω Unit := do
  onlyOwner msg
  whenPaused
  Tx.write fun st ↦ { st with paused := false }
  Tx.emit (.unpaused msg.sender)

def pause (msg : Msg) : Tx Ω Unit := do
  onlyOwner msg
  whenNotPaused
  Tx.write fun st ↦ { st with paused := true }
  Tx.emit (.paused msg.sender)

/-- Sets a new fee rate. -/
def setFeeRate (msg : Msg) (feeRate : Uint256) : Tx Ω Unit := do
  onlyOwner msg
  Tx.require (¬ feeRate.toNat > maxFeeRate) (.feeRateTooHigh feeRate)
  Tx.write fun st ↦ { st with feeRate := feeRate }
  let store ← Tx.storage
  Tx.emit (.feeRateUpdated store.feeRate)

/-- Sets a new local fee rate. -/
def setLocalFeeRate (msg : Msg) (localFeeRate : Uint256) : Tx Ω Unit := do
  onlyOwner msg
  Tx.require (¬ localFeeRate.toNat > maxFeeRate) (.feeRateTooHigh localFeeRate)
  Tx.write fun st ↦ { st with localFeeRate := localFeeRate }
  let store ← Tx.storage
  Tx.emit (.localFeeRateUpdated store.localFeeRate)

/-- Withdraw accumulated ETH fees. -/
def withdrawFees (msg : Msg) (recipient : Address) : Tx Ω Unit := do
  onlyOwner msg
  let w ← Prog.get
  let amount := w.balance
  let success ← Tx.callWithValue (.pay recipient amount) amount
  Tx.require (success = true) (.ethTransferFailed recipient)
  Tx.emit (.feesWithdrawn recipient amount)

/-- `receive` and `fallback`: an empty body, run after the value has arrived. -/
def receive (value : Nat) : Tx Ω Unit := Prog.modify fun w ↦ { w with balance := w.balance + value }

/-! ## Calls -/

/-- The functions of the contract that are not views, with their arguments. -/
inductive Op where
  | executeMatch (buy : Input) (punkIndex : Uint256)
  | cancelBid (bid : Bid)
  | cancelBids (bids : List Bid)
  | incrementNonce
  | setFeeRate (feeRate : Uint256)
  | setLocalFeeRate (localFeeRate : Uint256)
  | withdrawFees (recipient : Address)
  | pause
  | unpause
  | transferOwnership (newOwner : Address)
  | acceptOwnership
  | renounceOwnership
  /-- A call without data, or with data that fits no function. -/
  | receive (value : Nat)

/-- A call of the contract. -/
structure Call where
  msg : Msg
  op : Op

/-- The program a call runs. -/
def call (net : Network Ω) (c : Call) : Tx Ω Unit :=
  match c.op with
  | .executeMatch buy punkIndex => executeMatch net c.msg buy punkIndex
  | .cancelBid bid => cancelBid c.msg bid
  | .cancelBids bids => cancelBids c.msg bids
  | .incrementNonce => incrementNonce c.msg
  | .setFeeRate feeRate => setFeeRate c.msg feeRate
  | .setLocalFeeRate localFeeRate => setLocalFeeRate c.msg localFeeRate
  | .withdrawFees recipient => withdrawFees c.msg recipient
  | .pause => pause c.msg
  | .unpause => unpause c.msg
  | .transferOwnership newOwner => transferOwnership c.msg newOwner
  | .acceptOwnership => acceptOwnership c.msg
  | .renounceOwnership => renounceOwnership c.msg
  | .receive value => receive value

/-- What happens without a call of the contract: the rest of the world changes, and ETH may reach
the contract without its code being run. -/
structure Deed (Ω : Type) where
  change : Ω → Ω
  /-- ETH forced onto the contract. -/
  forced : Nat

/-- The effect of a deed. -/
def Deed.run (d : Deed Ω) (w : World Ω) : World Ω :=
  { w with balance := w.balance + d.forced, outside := d.change w.outside }

end PunksBids
