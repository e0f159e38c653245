import PunksBids.Runs.Basic

/-!
# WETH9 and the marketplace

For most of what the contract promises it does not matter what its callees do.  For money and Punks
it does, so here two of them are given: `Externals` is what WETH9 and the CryptoPunks marketplace
keep and what their functions do when the contract calls them.  Neither is part of the repository,
so both are parameters, and what a theorem relies on is a hypothesis about them
(`Externals.FrameLaws`, `WethLaws`, `MarketLaws`, `LocalLaws`).

`Externals.call` is the program of a call with these callees in place.  A match then runs through
in one go, and `call_executeMatch_cases` says when it does and what it leaves (`Filled`).  The
recipient of the fees stays what it was, code that may do anything.
-/

set_option autoImplicit false

namespace PunksBids

open Evm OpenCalls

variable {Ω : Type}

/-- What WETH9 and the marketplace keep, and what they do when the contract calls them; a call that
reverts returns nothing. -/
structure Externals (Ω : Type) where
  /-- `balanceOf`, of WETH9. -/
  balanceOf : Ω → Address → Nat
  /-- The allowance of the contract, by account. -/
  allowance : Ω → Address → Uint256
  transferFrom : Address → Address → Nat → Ω → Option Ω
  withdraw : Nat → Ω → Option Ω
  /-- `punkIndexToAddress`, of the marketplace. -/
  owner : Ω → Uint256 → Address
  /-- `pendingWithdrawals`. -/
  credit : Ω → Address → Nat
  /-- What an account has bid for a Punk on the marketplace itself. -/
  standingBid : Ω → Uint256 → Address → Nat
  buyPunk : Uint256 → Nat → Ω → Option Ω
  transferPunk : Address → Uint256 → Ω → Option Ω

namespace Externals

variable (env : Externals Ω) (net : Network Ω)

/-! ## Calls with these callees -/

/-- What an external call does to the world.  WETH9 sends what is withdrawn to the contract, whose
`receive` does nothing; what is sent to the marketplace has left the contract with the call. -/
def answer : Ext → Option (World Ω → Option (World Ω))
  | .transferFrom src dst wad => some fun w ↦
    (env.transferFrom src dst wad w.outside).map fun ω ↦ { w with outside := ω }
  | .withdraw amount => some fun w ↦
    (env.withdraw amount w.outside).map fun ω ↦
      { w with balance := w.balance + amount, outside := ω }
  | .buyPunk punkIndex value => some fun w ↦
    (env.buyPunk punkIndex value w.outside).map fun ω ↦ { w with outside := ω }
  | .transferPunk recipient punkIndex => some fun w ↦
    (env.transferPunk recipient punkIndex w.outside).map fun ω ↦ { w with outside := ω }
  | .pay _ _ => none

/-- The program a call runs. -/
def call (c : Call) : Tx Ω Unit := (PunksBids.call net c).resolve env.answer

/-- The behaviour `x` takes `w` to `t`, with the entries `es`. -/
def Runs (x : Behaviour Ω) (w t : World Ω) (es : Trace Ω) : Prop :=
  x.exec (env.call net) Deed.run w = some (t, es)

/-- The four calls of a match, from one state of the outside to another. -/
def Settles (bidder : Address) (punkIndex : Uint256) (sale : Sale) (ω ω' : Ω) : Prop :=
  ∃ ω₁ ω₂ ω₃, env.transferFrom bidder net.self sale.price ω = some ω₁ ∧
    env.withdraw sale.price ω₁ = some ω₂ ∧ env.buyPunk punkIndex sale.punkPrice ω₂ = some ω₃ ∧
    env.transferPunk bidder punkIndex ω₃ = some ω'

/-- A match that succeeds: what was checked, what was called, and what has changed. -/
structure Filled (msg : Msg) (buy : Input) (punkIndex : Uint256) (sale : Sale) (w t : World Ω) :
    Prop where
  accepted : Accepted net msg w buy punkIndex sale
  settles : env.Settles net buy.bid.bidder punkIndex sale w.outside t.outside
  funded : sale.punkPrice ≤ w.balance + sale.price
  store : t.store = w.store.flag (w.store.bidHash buy.bid)
  balance : t.balance = w.balance + sale.price - sale.punkPrice
  logs : t.logs = w.logs ++ [.bidMatched buy.bid.bidder sale.seller buy.bid sale.price
    (w.store.bidHash buy.bid)]

/-! ## What is relied on -/

/-- A call that touches nothing of the marketplace. -/
structure SparesMarket (ω ω' : Ω) : Prop where
  owner : env.owner ω' = env.owner ω
  credit : env.credit ω' = env.credit ω
  standingBid : env.standingBid ω' = env.standingBid ω
  offers : net.punksOfferedForSale ω' = net.punksOfferedForSale ω
  attributes : net.punkAttributes ω' = net.punkAttributes ω

/-- A call that touches nothing of WETH9. -/
structure SparesWeth (ω ω' : Ω) : Prop where
  balanceOf : env.balanceOf ω' = env.balanceOf ω
  allowance : env.allowance ω' = env.allowance ω
  attributes : net.punkAttributes ω' = net.punkAttributes ω

/-- WETH9 and the marketplace have nothing to do with each other, nor with the attributes. -/
structure FrameLaws : Prop where
  transferFrom : ∀ {src dst wad ω ω'}, env.transferFrom src dst wad ω = some ω' →
    env.SparesMarket net ω ω'
  withdraw : ∀ {wad ω ω'}, env.withdraw wad ω = some ω' → env.SparesMarket net ω ω'
  buyPunk : ∀ {punkIndex value ω ω'}, env.buyPunk punkIndex value ω = some ω' →
    env.SparesWeth net ω ω'
  transferPunk : ∀ {recipient punkIndex ω ω'}, env.transferPunk recipient punkIndex ω = some ω' →
    env.SparesWeth net ω ω'

/-- The balances after `balanceOf[src] -= wad; balanceOf[dst] += wad`. -/
def moved (balanceOf : Address → Nat) (src dst : Address) (wad : Nat) : Address → Nat :=
  let taken := Function.update balanceOf src (balanceOf src - wad)
  Function.update taken dst (taken dst + wad)

/-- WETH9: `transferFrom` and `withdraw` move exactly the amount. -/
structure WethLaws : Prop where
  transferFrom_balanceOf : ∀ {src dst wad ω ω'}, env.transferFrom src dst wad ω = some ω' →
    wad ≤ env.balanceOf ω src ∧ env.balanceOf ω' = moved (env.balanceOf ω) src dst wad
  withdraw_balanceOf : ∀ {wad ω ω'}, env.withdraw wad ω = some ω' →
    wad ≤ env.balanceOf ω net.self ∧
      env.balanceOf ω' = Function.update (env.balanceOf ω) net.self (env.balanceOf ω net.self - wad)

/-- The marketplace: a Punk is bought from its owner, the value is credited to the seller, and
whoever receives a Punk gets back what they have bid for it themselves; so no owner has a bid for
the own Punk. -/
structure MarketLaws : Prop where
  buyPunk_owner : ∀ {punkIndex value ω ω'}, env.buyPunk punkIndex value ω = some ω' →
    env.owner ω' = Function.update (env.owner ω) punkIndex net.self
  buyPunk_credit : ∀ {punkIndex value ω ω' offer}, env.buyPunk punkIndex value ω = some ω' →
    net.punksOfferedForSale ω punkIndex = some offer →
    offer.seller = env.owner ω punkIndex ∧
      ∀ a, env.credit ω' a = env.credit ω a + (if a = offer.seller then value else 0) +
        if a = net.self then env.standingBid ω punkIndex a else 0
  buyPunk_standingBid : ∀ {punkIndex value ω ω' a}, env.buyPunk punkIndex value ω = some ω' →
    a ≠ net.self → env.standingBid ω' punkIndex a = env.standingBid ω punkIndex a
  transferPunk_owner : ∀ {recipient punkIndex ω ω'},
    env.transferPunk recipient punkIndex ω = some ω' →
    env.owner ω' = Function.update (env.owner ω) punkIndex recipient
  transferPunk_credit : ∀ {recipient punkIndex ω ω'},
    env.transferPunk recipient punkIndex ω = some ω' → ∀ a, env.credit ω' a =
      env.credit ω a + if a = recipient then env.standingBid ω punkIndex a else 0
  owner_standingBid : ∀ ω punkIndex, env.standingBid ω punkIndex (env.owner ω punkIndex) = 0

/-! ### What is relied on for the order of matches -/

/-- The records of a Punk are the same. -/
structure SamePunk (punkIndex : Uint256) (ω ω' : Ω) : Prop where
  owner : env.owner ω' punkIndex = env.owner ω punkIndex
  standingBid : env.standingBid ω' punkIndex = env.standingBid ω punkIndex
  offer : net.punksOfferedForSale ω' punkIndex = net.punksOfferedForSale ω punkIndex

/-- A call on one Punk reads and changes the records of that Punk, and otherwise only adds to
credits, by amounts that depend on those records. -/
structure Local (punkIndex : Uint256) (act : Ω → Option Ω) : Prop where
  others : ∀ {ω ω'}, act ω = some ω' → ∀ k, k ≠ punkIndex → env.SamePunk net k ω ω'
  again : ∀ {ω ω' ψ}, act ω = some ω' → env.SamePunk net punkIndex ω ψ →
    ∃ ψ', act ψ = some ψ' ∧ env.SamePunk net punkIndex ω' ψ' ∧
      ∀ a, env.credit ψ' a + env.credit ω a = env.credit ψ a + env.credit ω' a

/-- The allowance that is not reduced: `type(uint256).max`. -/
def unlimited : Uint256 := BitVec.allOnes 256

/-- What an allowance is for. -/
def Allows (ω : Ω) (src : Address) (wad : Nat) : Prop :=
  env.allowance ω src = unlimited ∨ wad ≤ (env.allowance ω src).toNat

/-- WETH9 asks for enough balance and enough allowance and for nothing else, and an allowance is
reduced by exactly the amount unless it is unlimited; the marketplace is local. -/
structure LocalLaws : Prop where
  transferFrom_iff : ∀ {src wad ω}, src ≠ net.self →
    ((∃ ω', env.transferFrom src net.self wad ω = some ω') ↔
      wad ≤ env.balanceOf ω src ∧ env.Allows ω src wad)
  transferFrom_allowance : ∀ {src wad ω ω'}, src ≠ net.self →
    env.transferFrom src net.self wad ω = some ω' →
    (env.allowance ω' src).toNat + (if env.allowance ω src = unlimited then 0 else wad) =
        (env.allowance ω src).toNat ∧
      ∀ a, a ≠ src → env.allowance ω' a = env.allowance ω a
  withdraw_iff : ∀ {wad ω}, (∃ ω', env.withdraw wad ω = some ω') ↔ wad ≤ env.balanceOf ω net.self
  withdraw_allowance : ∀ {wad ω ω'}, env.withdraw wad ω = some ω' →
    env.allowance ω' = env.allowance ω
  buyPunk_local : ∀ punkIndex value, env.Local net punkIndex (env.buyPunk punkIndex value)
  transferPunk_local : ∀ recipient punkIndex,
    env.Local net punkIndex (env.transferPunk recipient punkIndex)

/-! ## Answered calls -/

variable {env} {w : World Ω}

theorem resolve_callOrRevert_some {k : Ext} {g : World Ω → Option (World Ω)} {e : Error}
    {F : Unit → Tx Ω Unit} (w' : World Ω) (h : env.answer k = some g) (hg : g w = some w') :
    ((Tx.callOrRevert k e >>= F) w).resolve env.answer = (F () w').resolve env.answer := by
  rw [Tx.callOrRevert, bind_assoc, Run.resolve_call_some h hg]
  rfl

theorem resolve_callOrRevert_none {k : Ext} {g : World Ω → Option (World Ω)} {e : Error}
    {F : Unit → Tx Ω Unit} (h : env.answer k = some g) (hg : g w = none) :
    ((Tx.callOrRevert k e >>= F) w).resolve env.answer = .revert e := by
  rw [Tx.callOrRevert, bind_assoc, Run.resolve_call_none h hg]
  rfl

end Externals

end PunksBids
