import PunksBids.Market.Bazaar

/-!
# What a bidder pays, and gets

A match is one stretch of its own, so what it does to money and Punks is read off its four calls:
WETH goes from the bidder to the contract and is unwrapped, the Punk goes from the seller to the
contract and on to the bidder (`Filled.balanceOf`, `Filled.owner`, `Filled.credit`).  The price is
between the value of the offer and the amount of the bid, because it was checked against the one
and computed from the other.

Everything else the contract does, for anybody and in any order, leaves the outside alone.
-/

set_option autoImplicit false

namespace PunksBids

open Evm OpenCalls

variable {Ω : Type} {env : Externals Ω} {net : Network Ω}

namespace Externals

variable {msg : Msg} {buy : Input} {punkIndex : Uint256} {sale : Sale} {w t : World Ω}

theorem moved_of_ne {balanceOf : Address → Nat} {src dst a : Address} {wad : Nat} (hsrc : a ≠ src)
    (hdst : a ≠ dst) : moved balanceOf src dst wad a = balanceOf a := by
  rw [moved, Function.update_of_ne hdst, Function.update_of_ne hsrc]

/-- The WETH balances after a match: first moved to the contract, then unwrapped. -/
theorem Filled.balanceOf_eq (hframe : env.FrameLaws net) (hweth : env.WethLaws net)
    (h : env.Filled net msg buy punkIndex sale w t) :
    sale.price ≤ env.balanceOf w.outside buy.bid.bidder ∧
      env.balanceOf t.outside = Function.update
        (moved (env.balanceOf w.outside) buy.bid.bidder net.self sale.price) net.self
        (moved (env.balanceOf w.outside) buy.bid.bidder net.self sale.price net.self -
          sale.price) := by
  obtain ⟨ω₁, ω₂, ω₃, h₁, h₂, h₃, h₄⟩ := h.settles
  obtain ⟨hle, hmove⟩ := hweth.transferFrom_balanceOf h₁
  obtain ⟨-, hdraw⟩ := hweth.withdraw_balanceOf h₂
  rw [(hframe.transferPunk h₄).balanceOf, (hframe.buyPunk h₃).balanceOf, hdraw, hmove]
  exact ⟨hle, rfl⟩

/-- Whoever neither bids nor is the contract keeps their WETH. -/
theorem Filled.balanceOf_of_ne (hframe : env.FrameLaws net) (hweth : env.WethLaws net)
    (h : env.Filled net msg buy punkIndex sale w t) {a : Address} (ha : a ≠ buy.bid.bidder)
    (hself : a ≠ net.self) : env.balanceOf t.outside a = env.balanceOf w.outside a := by
  rw [(h.balanceOf_eq hframe hweth).2, Function.update_of_ne hself, moved_of_ne ha hself]

/-- **The bidder pays the price, in WETH, and nobody's WETH changes otherwise.** -/
theorem Filled.balanceOf (hframe : env.FrameLaws net) (hweth : env.WethLaws net)
    (h : env.Filled net msg buy punkIndex sale w t) (hself : buy.bid.bidder ≠ net.self) :
    env.balanceOf t.outside buy.bid.bidder + sale.price =
        env.balanceOf w.outside buy.bid.bidder ∧
      ∀ a, a ≠ buy.bid.bidder → env.balanceOf t.outside a = env.balanceOf w.outside a := by
  obtain ⟨hle, heq⟩ := h.balanceOf_eq hframe hweth
  refine ⟨?_, ?_⟩
  · rw [heq, Function.update_of_ne hself, moved, Function.update_of_ne hself, Function.update_self]
    omega
  · intro a ha
    by_cases haself : a = net.self
    · rw [heq, haself, Function.update_self, moved, Function.update_self,
        Function.update_of_ne (Ne.symm hself)]
      omega
    · exact h.balanceOf_of_ne hframe hweth ha haself

/-- **The bidder owns the Punk, and no other Punk has changed hands.** -/
theorem Filled.owner (hframe : env.FrameLaws net) (hmarket : env.MarketLaws net)
    (h : env.Filled net msg buy punkIndex sale w t) :
    env.owner t.outside punkIndex = buy.bid.bidder ∧
      ∀ k, k ≠ punkIndex → env.owner t.outside k = env.owner w.outside k := by
  obtain ⟨ω₁, ω₂, ω₃, h₁, h₂, h₃, h₄⟩ := h.settles
  rw [hmarket.transferPunk_owner h₄, hmarket.buyPunk_owner h₃, (hframe.withdraw h₂).owner,
    (hframe.transferFrom h₁).owner]
  refine ⟨Function.update_self _ _ _, ?_⟩
  intro k hk
  rw [Function.update_of_ne hk, Function.update_of_ne hk]

/-- **The seller is credited what the offer asks for.**  No refund comes on top, even if the seller
is the bidder or the contract: the seller owns the Punk, and has not bid for it. -/
theorem Filled.credit (hframe : env.FrameLaws net) (hmarket : env.MarketLaws net)
    (h : env.Filled net msg buy punkIndex sale w t) (hself : buy.bid.bidder ≠ net.self) :
    env.credit t.outside sale.seller = env.credit w.outside sale.seller + sale.punkPrice := by
  obtain ⟨ω₁, ω₂, ω₃, h₁, h₂, h₃, h₄⟩ := h.settles
  obtain ⟨offer, hoffer, -, hseller, -⟩ := h.accepted.offer
  have hm₁ := hframe.transferFrom h₁
  have hm₂ := hframe.withdraw h₂
  rw [← hm₁.offers, ← hm₂.offers] at hoffer
  obtain ⟨howner, hcredit⟩ := hmarket.buyPunk_credit h₃ hoffer
  have hnone : env.standingBid ω₂ punkIndex offer.seller = 0 := by
    rw [howner]
    exact hmarket.owner_standingBid ω₂ punkIndex
  have hbidder : sale.seller = buy.bid.bidder → env.standingBid ω₃ punkIndex offer.seller = 0 := by
    intro hs
    rw [hmarket.buyPunk_standingBid h₃ (by rwa [← hseller, hs]), hnone]
  rw [hmarket.transferPunk_credit h₄, hcredit, hm₂.credit, hm₁.credit]
  simp only [hseller, hnone, if_true, ite_self, Nat.add_zero] at hbidder ⊢
  split
  · next hs => rw [hbidder hs, Nat.add_zero]
  · rfl

/-! ## Bidder protection -/

/-- **Bidder protection.**  Over any run from the constructor, whatever others do meanwhile: the
contract lowers the WETH balance of an account other than itself only in a match of a bid of that
account that returns; and such a match runs unpaused and in the time window of the bid, takes one
price between the value of the offer and the amount of the bid, leaves the Punk with the bidder
and the value of the offer with the seller, and changes no other WETH balance and no other owner. -/
theorem bidder_is_protected (env : Externals Ω) (net : Network Ω) (hframe : env.FrameLaws net)
    (hweth : env.WethLaws net) (hmarket : env.MarketLaws net) (chainid : Uint256)
    (deployer : Address) (balance : Nat) (ω : Ω) (x : Behaviour Ω) (t : World Ω) (es : Trace Ω)
    (h : env.Runs net x (deploy chainid net.self deployer balance ω) t es) (a : Address)
    (ha : a ≠ net.self) :
    (∀ c u v, .own c u v ∈ es → env.balanceOf v.outside a < env.balanceOf u.outside a →
      (∃ buy punkIndex, c.op = .executeMatch buy punkIndex ∧ buy.bid.bidder = a) ∧
        .returned c u v ∈ es) ∧
    ∀ msg buy punkIndex u v, .returned ⟨msg, .executeMatch buy punkIndex⟩ u v ∈ es →
      buy.bid.bidder = a →
      u.store.paused = false ∧ buy.bid.listingTime < msg.timestamp ∧
      msg.timestamp < buy.bid.expirationTime ∧
      ∃ offer price, net.punksOfferedForSale u.outside punkIndex = some offer ∧
        offer.minValue.toNat ≤ price ∧ price ≤ buy.bid.amount.toNat ∧
        env.balanceOf v.outside a + price = env.balanceOf u.outside a ∧
        env.owner v.outside punkIndex = a ∧
        env.credit v.outside offer.seller =
          env.credit u.outside offer.seller + offer.minValue.toNat ∧
        (∀ b, b ≠ a → env.balanceOf v.outside b = env.balanceOf u.outside b) ∧
        (∀ k, k ≠ punkIndex → env.owner v.outside k = env.owner u.outside k) ∧
        env.balanceOf v.outside net.self = env.balanceOf u.outside net.self ∧
        env.owner v.outside punkIndex ≠ net.self := by
  refine ⟨?_, ?_⟩
  · intro c u v hmem hlt
    rcases Script.exec_own (O := fun c u v ↦ _) (call_stretches env net) x h hmem with
      ⟨buy, punkIndex, sale, hop, hfill⟩ | hout
    swap
    · rw [hout] at hlt
      exact absurd hlt (Nat.lt_irrefl _)
    obtain ⟨msg, op⟩ := c
    obtain rfl : op = .executeMatch buy punkIndex := hop
    refine ⟨⟨buy, punkIndex, rfl, ?_⟩, h.returned_of_own hmem⟩
    by_contra hne
    rw [hfill.balanceOf_of_ne hframe hweth (Ne.symm hne) ha] at hlt
    exact Nat.lt_irrefl _ hlt
  · rintro msg buy punkIndex u v hmem rfl
    obtain ⟨sale, hfill⟩ := h.filled hmem
    obtain ⟨offer, hoffer, hpunk, hseller, hle, hle'⟩ := hfill.accepted.offer
    obtain ⟨hpays, hothers⟩ := hfill.balanceOf hframe hweth ha
    obtain ⟨howns, hpunks⟩ := hfill.owner hframe hmarket
    have hcredit := hfill.credit hframe hmarket ha
    rw [hseller, hpunk] at hcredit
    exact ⟨hfill.accepted.unpaused, hfill.accepted.listed, hfill.accepted.unexpired, offer,
      sale.price, hoffer, hpunk ▸ hle, hle', hpays, howns, hcredit, hothers, hpunks,
      hothers _ (Ne.symm ha), howns ▸ ha⟩

/-- The account 3 gets the Punk 5. -/
theorem bidder_is_protected_fair :
    ∃ t es, bazaar.Runs bazaarNetwork (plainMatch fairMsg (fairInput 0) 5) fairWorld t es ∧
      bazaar.balanceOf t.outside 3 + 990 ≤ 2000 ∧ bazaar.owner t.outside 5 = 3 ∧
      bazaar.credit t.outside 4 = 990 := by
  obtain ⟨t, hfill⟩ := filled_fairWorld 0
  refine ⟨t, _, hfill.runs, ?_⟩
  obtain ⟨-, -, -, offer, price, hoffer, hle, -, hpays, howns, hcredit, -⟩ :=
    (bidder_is_protected bazaar bazaarNetwork bazaar_frameLaws bazaar_wethLaws bazaar_marketLaws
      1 7 0 fair _ t _ hfill.runs 3 (by decide)).2 fairMsg (fairInput 0) 5 fairWorld t (by simp) rfl
  obtain rfl : fairOffer 5 = offer := Option.some_inj.mp hoffer
  have hpays : bazaar.balanceOf t.outside 3 + price = 2000 := hpays
  have hle : 990 ≤ price := hle
  exact ⟨by omega, howns, hcredit⟩

end Externals

end PunksBids
