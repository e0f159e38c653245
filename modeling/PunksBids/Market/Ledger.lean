import PunksBids.Lib.Drift
import PunksBids.Market.Exposure

/-!
# The books balance

The WETH of an account and the owner of a Punk can be changed by anybody, and over a run of the
contract they are.  What the contract itself does to them can be told from the log: an account has
the WETH that others have left it with, less the prices that the log says it has paid, to the wei
and for every account, the contract included.  A Punk that has changed hands did so outside, or in
a match that returned, where the new owner is the bidder and the old one the seller of an offer that
the contract may take.

So nothing is stranded: as long as the contract does not bid, its WETH and its Punks are what others
have given it.
-/

set_option autoImplicit false

namespace PunksBids

open Evm OpenCalls

variable {Ω : Type} {env : Externals Ω} {net : Network Ω}

/-! ## What the log says was paid -/

/-- The price that an event says `a` has paid. -/
def Event.paidBy (a : Address) : Event → Nat
  | .bidMatched maker _ _ price _ => if maker = a then price else 0
  | _ => 0

/-- What the log says `a` has paid. -/
def paid (a : Address) (logs : List Event) : Nat := (logs.map (Event.paidBy a)).sum

section Paid

variable {a : Address} {c : Call} {w : World Ω}

theorem paid_append (a : Address) (logs logs' : List Event) :
    paid a (logs ++ logs') = paid a logs + paid a logs' := by
  simp [paid]

theorem paid_eq_zero {logs : List Event} (h : ∀ e ∈ logs, e.paidBy a = 0) : paid a logs = 0 := by
  refine List.sum_eq_zero fun n hn ↦ ?_
  obtain ⟨e, he, rfl⟩ := List.mem_map.mp hn
  exact h e he

/-- Only the bidder of a match pays. -/
theorem paidBy_of_mem_reports (h : ∀ buy punkIndex, c.op = .executeMatch buy punkIndex →
    buy.bid.bidder ≠ a) {e : Event} (he : e ∈ reports net w c) : e.paidBy a = 0 := by
  obtain ⟨msg, op⟩ := c
  cases op with
  | executeMatch buy punkIndex =>
    simp only [reports] at he
    split at he
    · obtain rfl := List.mem_singleton.mp he
      exact if_neg (h buy punkIndex rfl)
    · simp at he
  | receive value => simp [reports] at he
  | cancelBid bid =>
    obtain ⟨hash, -, rfl⟩ := List.mem_map.mp he
    rfl
  | cancelBids bids =>
    obtain ⟨hash, -, rfl⟩ := List.mem_map.mp he
    rfl
  | _ =>
    obtain rfl := List.mem_singleton.mp he
    rfl

end Paid

namespace Externals

/-! ## WETH -/

/-- The WETH of `a`. -/
def wethOf (env : Externals Ω) (a : Address) (w : World Ω) : Int := env.balanceOf w.outside a

/-- The WETH that others have given to `a` and not taken from it. -/
def given (env : Externals Ω) (a : Address) (es : Trace Ω) : Int :=
  (es.map (drift (env.wethOf a))).sum

/-- What `a` has, and has paid. -/
def funds (env : Externals Ω) (a : Address) (w : World Ω) : Int :=
  env.wethOf a w + paid a w.logs

section Match

variable {msg : Msg} {buy : Input} {punkIndex : Uint256} {sale : Sale} {w t : World Ω}

/-- **A match takes from every account what it logs**, from the contract as from any other. -/
theorem Filled.funds (hframe : env.FrameLaws net) (hweth : env.WethLaws net)
    (h : env.Filled net msg buy punkIndex sale w t) (a : Address) :
    env.funds a t = env.funds a w := by
  have hbalance : env.balanceOf t.outside a + (if buy.bid.bidder = a then sale.price else 0) =
      env.balanceOf w.outside a := by
    by_cases hb : buy.bid.bidder = a
    · rw [if_pos hb]
      by_cases hself : buy.bid.bidder = net.self
      · obtain ⟨hle, heq⟩ := h.balanceOf_eq hframe hweth
        rw [hb] at hle heq
        rw [heq, ← hb, hself, Function.update_self, moved, Function.update_self,
          Function.update_self]
        rw [← hb, hself] at hle
        omega
      · exact hb ▸ (h.balanceOf hframe hweth hself).1
    · rw [if_neg hb, Nat.add_zero]
      by_cases hself : buy.bid.bidder = net.self
      · exact h.balanceOf_of_ne hframe hweth (Ne.symm hb) (hself ▸ Ne.symm hb)
      · exact (h.balanceOf hframe hweth hself).2 a (Ne.symm hb)
  have hlogs : paid a t.logs =
      paid a w.logs + if buy.bid.bidder = a then sale.price else 0 := by
    rw [h.logs, paid_append]
    simp [paid, Event.paidBy]
  simp only [Externals.funds, wethOf, hlogs]
  omega

/-- The Punk is bought from its owner. -/
theorem Filled.seller_eq (hframe : env.FrameLaws net) (hmarket : env.MarketLaws net)
    (h : env.Filled net msg buy punkIndex sale w t) :
    sale.seller = env.owner w.outside punkIndex := by
  obtain ⟨ω₁, ω₂, ω₃, h₁, h₂, h₃, -⟩ := h.settles
  obtain ⟨offer, hoffer, -, hseller, -⟩ := h.accepted.offer
  have hm₁ := hframe.transferFrom h₁
  have hm₂ := hframe.withdraw h₂
  rw [← hm₁.offers, ← hm₂.offers] at hoffer
  rw [hseller, (hmarket.buyPunk_credit h₃ hoffer).1, hm₂.owner, hm₁.owner]

/-- Unless the seller is the bidder, no refund comes on top of the value of the offer. -/
theorem Filled.credited (hframe : env.FrameLaws net) (hmarket : env.MarketLaws net)
    (h : env.Filled net msg buy punkIndex sale w t) (hne : sale.seller ≠ buy.bid.bidder) :
    env.credit t.outside sale.seller = env.credit w.outside sale.seller + sale.punkPrice := by
  by_cases hself : buy.bid.bidder = net.self
  swap
  · exact h.credit hframe hmarket hself
  have hnotself : sale.seller ≠ net.self := hself ▸ hne
  obtain ⟨ω₁, ω₂, ω₃, h₁, h₂, h₃, h₄⟩ := h.settles
  obtain ⟨offer, hoffer, -, hseller, -⟩ := h.accepted.offer
  have hm₁ := hframe.transferFrom h₁
  have hm₂ := hframe.withdraw h₂
  rw [← hm₁.offers, ← hm₂.offers] at hoffer
  rw [hmarket.transferPunk_credit h₄, if_neg hne, (hmarket.buyPunk_credit h₃ hoffer).2,
    if_pos hseller, if_neg hnotself, hm₂.credit, hm₁.credit, Nat.add_zero]

end Match

/-! ## Calls -/

section Calls

variable {c : Call} {w t : World Ω} {es : Trace Ω}

/-- A call that hands over no control leaves everybody's funds alone. -/
theorem quiet_funds (hop : c.op.callsOut = false) (hret : PunksBids.call net c w = .ret () t)
    (a : Address) : env.funds a t = env.funds a w := by
  rcases call_quiet net c w hop with ⟨-, hret'⟩ | ⟨-, e, hrev⟩
  swap
  · simp [hrev] at hret
  obtain rfl : (w.report (reports net w c)).deposit c.op.value = t := by
    simpa [hret'] using hret
  have hnone : paid a (reports net w c) = 0 := paid_eq_zero fun e he ↦
    paidBy_of_mem_reports (fun buy punkIndex hmatch ↦ by simp [hmatch, Op.callsOut] at hop) he
  simp [funds, wethOf, World.report, World.deposit, paid_append, hnone]

/-- **A call drifts as its callees do.** -/
theorem call_drifts (hframe : env.FrameLaws net) (hweth : env.WethLaws net) (a : Address)
    {callee : Ext → World Ω → Option (World Ω × Trace Ω)}
    (hcallee : ∀ k s t es, callee k s = some (t, es) →
      Drifts (env.funds a) (env.wethOf a) s es t)
    (h : (env.call net c w).trace c callee w = some (t, es)) :
    Drifts (env.funds a) (env.wethOf a) w es t := by
  have hclosed := drifts_closed (ι := Call) (δ := Deed Ω) (env.funds a) (env.wethOf a)
  rcases trace_call_cases h with ⟨msg, buy, punkIndex, sale, rfl, hfill, rfl⟩ |
    ⟨msg, recipient, w', es', rfl, -, hpay, rfl, rfl⟩ | ⟨hop, -, hret, rfl⟩
  · exact .own (hfill.funds hframe hweth a)
  · have hsend : env.funds a (w.send w.balance) = env.funds a w := rfl
    have hlog : env.funds a (w'.log (.feesWithdrawn recipient w.balance)) = env.funds a w' := by
      simp [funds, wethOf, World.log, paid, Event.paidBy]
    exact hclosed.append (.own hsend) (hclosed.append (hcallee _ _ _ _ hpay) (.own hlog))
  · exact .own (quiet_funds hop hret a)

end Calls

/-! ## Runs -/

section Runs

variable {x : Behaviour Ω} {w t : World Ω} {es : Trace Ω}

theorem Runs.drifts (hframe : env.FrameLaws net) (hweth : env.WethLaws net) (a : Address)
    (h : env.Runs net x w t es) : Drifts (env.funds a) (env.wethOf a) w es t := by
  refine Script.exec_drifts (fun d s ↦ ?_)
    (fun c callee hk s t es ht ↦ call_drifts hframe hweth a hk ht) x h
  simp [funds, Deed.run]

/-- What became true of the outside became true in a match that was filled, or outside. -/
theorem Runs.cause (h : env.Runs net x w t es) {A : Ω → Prop} (hw : ¬ A w.outside)
    (ht : A t.outside) :
    (∃ msg buy punkIndex sale u v, .returned ⟨msg, .executeMatch buy punkIndex⟩ u v ∈ es ∧
      env.Filled net msg buy punkIndex sale u v ∧ ¬ A u.outside ∧ A v.outside) ∨
    ∃ d u v, .other d u v ∈ es ∧ ¬ A u.outside ∧ A v.outside := by
  rcases Script.exec_cause (A := fun w ↦ A w.outside) x h hw ht with ⟨c, u, v, hm, hu, hv⟩ | hd
  · rcases Script.exec_own (call_steps env net) x h hm with
      ⟨msg, buy, punkIndex, sale, rfl, hfill⟩ | ⟨-, hown⟩
    · exact .inl ⟨msg, buy, punkIndex, sale, u, v, h.returned_of_own hm, hfill, hu, hv⟩
    · rw [hown.outside] at hv
      exact absurd hv hu
  · exact .inr hd

/-- Where no match has the bidder `a`, nothing is logged that `a` has paid. -/
theorem Runs.paid_eq (h : env.Runs net x w t es) {a : Address}
    (hno : ∀ msg buy punkIndex u v, .returned ⟨msg, .executeMatch buy punkIndex⟩ u v ∈ es →
      buy.bid.bidder ≠ a) : paid a t.logs = paid a w.logs := by
  obtain ⟨y, es', h', hcalls⟩ := h.imitated
  rw [h'.journaled.logs, paid_append, Nat.add_eq_left]
  refine paid_eq_zero fun e he ↦ ?_
  obtain ⟨entry, hm, he⟩ := List.mem_flatMap.mp he
  cases entry with
  | returned c p q =>
    refine paidBy_of_mem_reports (fun buy punkIndex hop ↦ ?_) he
    obtain ⟨msg, op⟩ := c
    obtain rfl : op = .executeMatch buy punkIndex := hop
    exact hno msg buy punkIndex p q ((mem_iff_of_calls_eq hcalls rfl).mp hm)
  | _ => simp [reported] at he

/-- A match whose bidder is nobody that signs or calls does not return. -/
theorem Runs.bidder_ne (h : env.Runs net x w t es) {a : Address}
    (hkey : ∀ d v r s, ECDSA.recover net.ecrecover d v r s ≠ .ok a)
    (hcaller : ∀ msg buy punkIndex p, .entered ⟨msg, .executeMatch buy punkIndex⟩ p ∈ es →
      msg.sender ≠ a) {msg : Msg} {buy : Input} {punkIndex : Uint256} {u v : World Ω}
    (hmem : .returned ⟨msg, .executeMatch buy punkIndex⟩ u v ∈ es) : buy.bid.bidder ≠ a := by
  rintro rfl
  obtain ⟨sale, hfill⟩ := h.filled hmem
  rcases hfill.accepted.signed with hsender | hrec
  · exact hcaller msg buy punkIndex u (Script.exec_entered x h hmem) hsender.symm
  · exact hkey _ _ _ _ hrec

/-- **A new owner** is one outside, or the bidder of a match that returned. -/
theorem Runs.gained (hframe : env.FrameLaws net) (hmarket : env.MarketLaws net)
    (h : env.Runs net x w t es) {k : Uint256} {b : Address} (hw : env.owner w.outside k ≠ b)
    (ht : env.owner t.outside k = b) :
    (∃ msg buy u v, .returned ⟨msg, .executeMatch buy k⟩ u v ∈ es ∧ buy.bid.bidder = b) ∨
    ∃ d u v, .other d u v ∈ es ∧ env.owner u.outside k ≠ b ∧ env.owner v.outside k = b := by
  refine (h.cause (A := fun ω ↦ env.owner ω k = b) hw ht).imp_left ?_
  rintro ⟨msg, buy, punkIndex, sale, u, v, hmem, hfill, hu, hv⟩
  obtain ⟨howns, hothers⟩ := hfill.owner hframe hmarket
  by_cases hk : k = punkIndex
  · subst hk
    exact ⟨msg, buy, u, v, hmem, howns.symm.trans hv⟩
  · exact absurd ((hothers k hk).symm.trans hv) hu

/-- **An old owner** has lost the Punk outside, or was the seller of a match that returned. -/
theorem Runs.lost (hframe : env.FrameLaws net) (hmarket : env.MarketLaws net)
    (h : env.Runs net x w t es) {k : Uint256} {b : Address} (hw : env.owner w.outside k = b)
    (ht : env.owner t.outside k ≠ b) :
    (∃ msg buy u v offer, .returned ⟨msg, .executeMatch buy k⟩ u v ∈ es ∧
      net.punksOfferedForSale u.outside k = some offer ∧ offer.isForSale = true ∧
      (offer.onlySellTo = 0 ∨ offer.onlySellTo = net.self) ∧ offer.seller = b ∧
      env.credit v.outside b = env.credit u.outside b + offer.minValue.toNat) ∨
    ∃ d u v, .other d u v ∈ es ∧ env.owner u.outside k = b ∧ env.owner v.outside k ≠ b := by
  rcases h.cause (A := fun ω ↦ env.owner ω k ≠ b) (not_not.mpr hw) ht with
    ⟨msg, buy, punkIndex, sale, u, v, hmem, hfill, hu, hv⟩ | ⟨d, u, v, hmem, hu, hv⟩
  swap
  · exact .inr ⟨d, u, v, hmem, not_not.mp hu, hv⟩
  left
  have hu : env.owner u.outside k = b := not_not.mp hu
  obtain ⟨howns, hothers⟩ := hfill.owner hframe hmarket
  obtain rfl : k = punkIndex := by
    by_contra hk
    exact hv ((hothers k hk).trans hu)
  have hseller : sale.seller = b := (hfill.seller_eq hframe hmarket).trans hu
  have hcredit := hfill.credited hframe hmarket (by rw [hseller, ← howns]; exact Ne.symm hv)
  obtain ⟨offer, hoffer, hsale, hto, -, -, hpunk, hfrom⟩ :=
    canBuyPunk_eq_ok.mp (canBuyPunk_of_canMatch hfill.accepted.matched)
  rw [hseller, hpunk] at hcredit
  exact ⟨msg, buy, u, v, offer, hmem, hoffer, hsale, hto, hfrom.symm.trans hseller, hcredit⟩

end Runs

/-- **The books balance.**  Over any run, whatever others do: every account has the WETH that others
have left it with, less what the log says it has paid meanwhile; a Punk has a new owner only if that
was brought about outside or in a match that returned, of a bid of the new owner; and an old owner
has lost a Punk only outside or in a match that returned, of an offer of theirs that the contract
may take, for which they are credited what it asks.  If nobody signs for the contract, and it calls
for no match itself, then its WETH and its Punks are what others have given it. -/
theorem books_balance (env : Externals Ω) (net : Network Ω) (hframe : env.FrameLaws net)
    (hweth : env.WethLaws net) (hmarket : env.MarketLaws net) (x : Behaviour Ω) (w t : World Ω)
    (es : Trace Ω) (h : env.Runs net x w t es) :
    (∀ a, (env.balanceOf t.outside a : Int) + paid a t.logs =
      env.balanceOf w.outside a + paid a w.logs + env.given a es) ∧
    (∀ k b, env.owner w.outside k ≠ b → env.owner t.outside k = b →
      (∃ msg buy u v, .returned ⟨msg, .executeMatch buy k⟩ u v ∈ es ∧ buy.bid.bidder = b) ∨
      ∃ d u v, .other d u v ∈ es ∧ env.owner u.outside k ≠ b ∧ env.owner v.outside k = b) ∧
    (∀ k b, env.owner w.outside k = b → env.owner t.outside k ≠ b →
      (∃ msg buy u v offer, .returned ⟨msg, .executeMatch buy k⟩ u v ∈ es ∧
        net.punksOfferedForSale u.outside k = some offer ∧ offer.isForSale = true ∧
        (offer.onlySellTo = 0 ∨ offer.onlySellTo = net.self) ∧ offer.seller = b ∧
        env.credit v.outside b = env.credit u.outside b + offer.minValue.toNat) ∨
      ∃ d u v, .other d u v ∈ es ∧ env.owner u.outside k = b ∧ env.owner v.outside k ≠ b) ∧
    ((∀ d v r s, ECDSA.recover net.ecrecover d v r s ≠ .ok net.self) →
      (∀ msg buy punkIndex p, .entered ⟨msg, .executeMatch buy punkIndex⟩ p ∈ es →
        msg.sender ≠ net.self) →
      (env.balanceOf t.outside net.self : Int) =
        env.balanceOf w.outside net.self + env.given net.self es ∧
      ∀ k, env.owner t.outside k = net.self → env.owner w.outside k = net.self ∨
        ∃ d u v, .other d u v ∈ es ∧ env.owner u.outside k ≠ net.self ∧
          env.owner v.outside k = net.self) := by
  have hweths (a : Address) : (env.balanceOf t.outside a : Int) + paid a t.logs =
      env.balanceOf w.outside a + paid a w.logs + env.given a es := h.drifts hframe hweth a
  refine ⟨hweths, fun k b ↦ h.gained hframe hmarket, fun k b ↦ h.lost hframe hmarket,
    fun hkey hcaller ↦ ⟨?_, fun k ht ↦ ?_⟩⟩
  · have hpaid := h.paid_eq fun msg buy punkIndex u v hmem ↦ h.bidder_ne hkey hcaller hmem
    have hself := hweths net.self
    rw [hpaid] at hself
    omega
  · by_cases hw : env.owner w.outside k = net.self
    · exact .inl hw
    · refine .inr ((h.gained hframe hmarket hw ht).resolve_left ?_)
      rintro ⟨msg, buy, u, v, hmem, hb⟩
      exact h.bidder_ne hkey hcaller hmem hb

/-- The account 3 has paid for the Punk 5 what it has less, and the contract has kept nothing. -/
theorem books_balance_fair :
    ∃ t es, bazaar.Runs bazaarNetwork (plainMatch fairMsg (fairInput 0) 5) fairWorld t es ∧
      (bazaar.balanceOf t.outside 3 : Int) + paid 3 t.logs = 2000 ∧
      (bazaar.balanceOf t.outside bazaarNetwork.self : Int) = 0 := by
  obtain ⟨t, hfill⟩ := filled_fairWorld 0
  refine ⟨t, _, hfill.runs, ?_⟩
  obtain ⟨hweths, -, -, hself⟩ := books_balance bazaar bazaarNetwork bazaar_frameLaws
    bazaar_wethLaws bazaar_marketLaws _ fairWorld t _ hfill.runs
  have hgiven (a : Address) :
      bazaar.given a [.entered ⟨fairMsg, .executeMatch (fairInput 0) 5⟩ fairWorld,
        .own ⟨fairMsg, .executeMatch (fairInput 0) 5⟩ fairWorld t,
        .returned ⟨fairMsg, .executeMatch (fairInput 0) 5⟩ fairWorld t] = 0 := rfl
  have hkey : ∀ d v r s,
      ECDSA.recover bazaarNetwork.ecrecover d v r s ≠ .ok bazaarNetwork.self := by
    intro d v r s hd
    obtain ⟨-, heq, hne⟩ := (ECDSA.recover_eq_ok _).mp hd
    exact hne heq.symm
  have hbidder := hweths 3
  obtain ⟨hkept, -⟩ := hself hkey fun msg buy punkIndex p hmem ↦ by
    simp only [List.mem_cons, Entry.entered.injEq, Call.mk.injEq, reduceCtorEq,
      List.not_mem_nil, or_false] at hmem
    rw [hmem.1.1]
    decide
  rw [hgiven] at hbidder hkept
  exact ⟨hbidder, hkept⟩

end Externals

end PunksBids
