import PunksBids.Market.Protection

/-!
# The order of two matches

Two matches of different Punks may share everything else: the bidder and the allowance, the seller,
the balance of the contract.  They commute all the same, because what one needs of the shared parts
is a bound and what it takes from them is an amount (`Filled.pays`, `Filled.spends`), while of the
rest it reads and changes only its own flag and its own Punk.

`Filled.again` is the one lemma this rests on: a match goes through, with the same outcome for its
Punk and the same additions to the credits, in any world that agrees on its Punk and has the means.
It is used once to bring the second match forward and once to put the first one after it.
-/

set_option autoImplicit false

namespace PunksBids

open Evm OpenCalls

variable {Ω : Type} {env : Externals Ω} {net : Network Ω}

/-- What `executeMatch` reads of the storage besides the flags. -/
structure Store.SameRules (st st' : Store) : Prop where
  paused : st'.paused = st.paused
  domainSeparator : st'.domainSeparator = st.domainSeparator
  nonces : st'.nonces = st.nonces
  feeRate : st'.feeRate = st.feeRate
  localFeeRate : st'.localFeeRate = st.localFeeRate

theorem Store.sameRules_flag (st : Store) (hash : Bytes32) : st.SameRules (st.flag hash) :=
  ⟨rfl, rfl, rfl, rfl, rfl⟩

theorem Store.SameRules.symm {st st' : Store} (h : st.SameRules st') : st'.SameRules st :=
  ⟨h.paused.symm, h.domainSeparator.symm, h.nonces.symm, h.feeRate.symm, h.localFeeRate.symm⟩

theorem Store.SameRules.bidHash {st st' : Store} (h : st.SameRules st') (bid : Bid) :
    st'.bidHash bid = st.bidHash bid := by
  rw [Store.bidHash, Store.bidHash, h.nonces]

/-- A bid that is accepted is accepted in any world with the same rules, the same offer and
attributes and no flag. -/
theorem Accepted.again {msg : Msg} {w u : World Ω} {buy : Input} {punkIndex : Uint256} {sale : Sale}
    (h : Accepted net msg w buy punkIndex sale) (hrules : w.store.SameRules u.store)
    (hflag : u.store.cancelledOrFilled (w.store.bidHash buy.bid) = false)
    (hoffer : net.punksOfferedForSale u.outside punkIndex =
      net.punksOfferedForSale w.outside punkIndex)
    (hattributes : net.punkAttributes u.outside = net.punkAttributes w.outside) :
    Accepted net msg u buy punkIndex sale where
  unpaused := hrules.paused.trans h.unpaused
  bidder_ne_zero := h.bidder_ne_zero
  unflagged := by rw [hrules.bidHash, hflag]
  listed := h.listed
  unexpired := h.unexpired
  signed := by
    rw [hrules.bidHash, hrules.domainSeparator]
    exact h.signed
  matched := by
    rw [canMatchBidAndPunk_congr hrules.feeRate hrules.localFeeRate hoffer hattributes]
    exact h.matched

namespace Externals

/-! ## One Punk -/

theorem SamePunk.symm {k : Uint256} {ω ω' : Ω} (h : env.SamePunk net k ω ω') :
    env.SamePunk net k ω' ω :=
  ⟨h.owner.symm, h.standingBid.symm, h.offer.symm⟩

theorem SamePunk.trans {k : Uint256} {ω ω' ω'' : Ω} (h : env.SamePunk net k ω ω')
    (h' : env.SamePunk net k ω' ω'') : env.SamePunk net k ω ω'' :=
  ⟨h'.owner.trans h.owner, h'.standingBid.trans h.standingBid, h'.offer.trans h.offer⟩

theorem SparesMarket.samePunk {ω ω' : Ω} (h : env.SparesMarket net ω ω') (k : Uint256) :
    env.SamePunk net k ω ω' :=
  ⟨congrFun h.owner k, congrFun h.standingBid k, congrFun h.offers k⟩

/-! ## What a match takes, and what it leaves alone -/

variable {msg : Msg} {buy : Input} {punkIndex : Uint256} {sale : Sale} {w t u : World Ω}

theorem Filled.sameRules (h : env.Filled net msg buy punkIndex sale w t) :
    w.store.SameRules t.store := by
  rw [h.store]
  exact w.store.sameRules_flag _

theorem Filled.others (hframe : env.FrameLaws net) (hlocal : env.LocalLaws net)
    (h : env.Filled net msg buy punkIndex sale w t) {k : Uint256} (hk : k ≠ punkIndex) :
    env.SamePunk net k w.outside t.outside := by
  obtain ⟨ω₁, ω₂, ω₃, h₁, h₂, h₃, h₄⟩ := h.settles
  have hweth := ((hframe.transferFrom h₁).samePunk k).trans ((hframe.withdraw h₂).samePunk k)
  exact (hweth.trans ((hlocal.buyPunk_local _ _).others h₃ k hk)).trans
    ((hlocal.transferPunk_local _ _).others h₄ k hk)

theorem Filled.attributes (hframe : env.FrameLaws net)
    (h : env.Filled net msg buy punkIndex sale w t) :
    net.punkAttributes t.outside = net.punkAttributes w.outside := by
  obtain ⟨ω₁, ω₂, ω₃, h₁, h₂, h₃, h₄⟩ := h.settles
  rw [(hframe.transferPunk h₄).attributes, (hframe.buyPunk h₃).attributes,
    (hframe.withdraw h₂).attributes, (hframe.transferFrom h₁).attributes]

/-- The means a match needs. -/
theorem Filled.means (hlocal : env.LocalLaws net) (h : env.Filled net msg buy punkIndex sale w t)
    (hself : buy.bid.bidder ≠ net.self) :
    sale.price ≤ env.balanceOf w.outside buy.bid.bidder ∧
      env.Allows w.outside buy.bid.bidder sale.price := by
  obtain ⟨ω₁, -, -, h₁, -⟩ := h.settles
  exact (hlocal.transferFrom_iff hself).mp ⟨ω₁, h₁⟩

/-- What a match takes of the balances. -/
theorem Filled.pays (hframe : env.FrameLaws net) (hweth : env.WethLaws net)
    (h : env.Filled net msg buy punkIndex sale w t) (hself : buy.bid.bidder ≠ net.self)
    (a : Address) : env.balanceOf t.outside a + (if a = buy.bid.bidder then sale.price else 0) =
      env.balanceOf w.outside a := by
  obtain ⟨hpays, hothers⟩ := h.balanceOf hframe hweth hself
  split
  · next ha => rw [ha, hpays]
  · next ha => exact hothers a ha

/-- What a match takes of the allowances. -/
theorem Filled.spends (hframe : env.FrameLaws net) (hlocal : env.LocalLaws net)
    (h : env.Filled net msg buy punkIndex sale w t) (hself : buy.bid.bidder ≠ net.self)
    (a : Address) : (env.allowance t.outside a).toNat +
        (if a = buy.bid.bidder ∧ env.allowance w.outside a ≠ unlimited then sale.price else 0) =
      (env.allowance w.outside a).toNat := by
  obtain ⟨ω₁, ω₂, ω₃, h₁, h₂, h₃, h₄⟩ := h.settles
  obtain ⟨hspends, hothers⟩ := hlocal.transferFrom_allowance hself h₁
  rw [(hframe.transferPunk h₄).allowance, (hframe.buyPunk h₃).allowance,
    hlocal.withdraw_allowance h₂]
  by_cases ha : a = buy.bid.bidder
  · rw [ha, ← hspends]
    by_cases hu : env.allowance w.outside buy.bid.bidder = unlimited <;> simp [hu]
  · rw [hothers a ha, if_neg fun hb ↦ ha hb.1, Nat.add_zero]

theorem toNat_lt_unlimited {x : Uint256} (h : x ≠ unlimited) : x.toNat < unlimited.toNat := by
  refine Nat.lt_of_le_of_ne ?_ fun he ↦ h (BitVec.toNat_inj.mp he)
  have hlt := x.isLt
  rw [unlimited, BitVec.toNat_allOnes]
  omega

/-- An allowance is unlimited after a match exactly if it was before. -/
theorem Filled.unlimited_iff (hframe : env.FrameLaws net) (hlocal : env.LocalLaws net)
    (h : env.Filled net msg buy punkIndex sale w t) (hself : buy.bid.bidder ≠ net.self)
    (a : Address) :
    env.allowance t.outside a = unlimited ↔ env.allowance w.outside a = unlimited := by
  have hspends := h.spends hframe hlocal hself a
  constructor
  · intro ht
    by_contra hw
    have hlt := toNat_lt_unlimited hw
    rw [ht] at hspends
    omega
  · intro hw
    rw [if_neg fun hb ↦ hb.2 hw, Nat.add_zero] at hspends
    exact (BitVec.toNat_inj.mp hspends).trans hw

/-! ## The same match in another world -/

/-- **A match goes through again**, with the same outcome for its Punk and the same additions to
the credits, wherever the rules, its Punk and the attributes are the same, its flag is clear and
the means suffice. -/
theorem Filled.again (hframe : env.FrameLaws net) (hweth : env.WethLaws net)
    (hlocal : env.LocalLaws net) (h : env.Filled net msg buy punkIndex sale w t)
    (hself : buy.bid.bidder ≠ net.self) (hrules : w.store.SameRules u.store)
    (hflag : u.store.cancelledOrFilled (w.store.bidHash buy.bid) = false)
    (hpunk : env.SamePunk net punkIndex w.outside u.outside)
    (hattributes : net.punkAttributes u.outside = net.punkAttributes w.outside)
    (hmoney : sale.price ≤ env.balanceOf u.outside buy.bid.bidder)
    (hallows : env.Allows u.outside buy.bid.bidder sale.price) :
    ∃ v, env.Filled net msg buy punkIndex sale u v ∧
      env.SamePunk net punkIndex t.outside v.outside ∧
      ∀ a, env.credit v.outside a + env.credit w.outside a =
        env.credit u.outside a + env.credit t.outside a := by
  obtain ⟨ω₁, ω₂, ω₃, h₁, h₂, h₃, h₄⟩ := h.settles
  have hmarket := ((hframe.transferFrom h₁).samePunk punkIndex).trans
    ((hframe.withdraw h₂).samePunk punkIndex)
  -- The WETH is there.
  obtain ⟨ψ₁, hψ₁⟩ := (hlocal.transferFrom_iff hself).mpr ⟨hmoney, hallows⟩
  obtain ⟨ψ₂, hψ₂⟩ : ∃ ψ₂, env.withdraw sale.price ψ₁ = some ψ₂ := by
    rw [hlocal.withdraw_iff, (hweth.transferFrom_balanceOf hψ₁).2, moved, Function.update_self]
    omega
  have hmarket' := ((hframe.transferFrom hψ₁).samePunk punkIndex).trans
    ((hframe.withdraw hψ₂).samePunk punkIndex)
  -- The Punk is the one it was.
  have hsame₂ := (hmarket.symm.trans hpunk).trans hmarket'
  obtain ⟨ψ₃, hψ₃, hsame₃, hcredit₃⟩ := (hlocal.buyPunk_local _ _).again h₃ hsame₂
  obtain ⟨ψ₄, hψ₄, hsame₄, hcredit₄⟩ := (hlocal.transferPunk_local _ _).again h₄ hsame₃
  obtain ⟨-, -, -, -, hle, -⟩ := h.accepted.offer
  let v : World Ω := (u.withStore (Store.flag (u.store.bidHash buy.bid))).settled sale ψ₄
    (.bidMatched buy.bid.bidder sale.seller buy.bid sale.price (u.store.bidHash buy.bid))
  refine ⟨v, ?_, hsame₄, ?_⟩
  · exact ⟨h.accepted.again hrules hflag hpunk.offer hattributes,
      ⟨ψ₁, ψ₂, ψ₃, hψ₁, hψ₂, hψ₃, hψ₄⟩, by omega, rfl, rfl, rfl⟩
  · intro a
    have ha₃ := hcredit₃ a
    have ha₄ := hcredit₄ a
    rw [(hframe.withdraw h₂).credit, (hframe.transferFrom h₁).credit, (hframe.withdraw hψ₂).credit,
      (hframe.transferFrom hψ₁).credit] at ha₃
    change env.credit ψ₄ a + _ = _
    omega

/-! ## The two orders -/

/-- The two worlds agree in everything but the order of the logs. -/
structure Agree (env : Externals Ω) (net : Network Ω) (w w' : World Ω) : Prop where
  store : w'.store = w.store
  balance : w'.balance = w.balance
  balanceOf : env.balanceOf w'.outside = env.balanceOf w.outside
  allowance : env.allowance w'.outside = env.allowance w.outside
  credit : env.credit w'.outside = env.credit w.outside
  owner : env.owner w'.outside = env.owner w.outside
  standingBid : env.standingBid w'.outside = env.standingBid w.outside
  offers : net.punksOfferedForSale w'.outside = net.punksOfferedForSale w.outside

section Orders

variable {msg₁ msg₂ : Msg} {buy₁ buy₂ : Input} {punk₁ punk₂ : Uint256} {sale₁ sale₂ : Sale}
  {w₁ w₂ : World Ω}

/-- The flags of two matches in a row are different ones. -/
theorem Filled.bidHash_ne (h₁ : env.Filled net msg₁ buy₁ punk₁ sale₁ w w₁)
    (h₂ : env.Filled net msg₂ buy₂ punk₂ sale₂ w₁ t) :
    w.store.bidHash buy₁.bid ≠ w.store.bidHash buy₂.bid := by
  intro he
  have hflag := h₂.accepted.unflagged
  rw [h₁.sameRules.bidHash, h₁.store, ← he, Store.flag_self] at hflag
  cases hflag

/-- **The second match can come first.** -/
theorem Filled.bring_forward (hframe : env.FrameLaws net) (hweth : env.WethLaws net)
    (hlocal : env.LocalLaws net) (hself₁ : buy₁.bid.bidder ≠ net.self)
    (hself₂ : buy₂.bid.bidder ≠ net.self) (hpunk : punk₁ ≠ punk₂)
    (h₁ : env.Filled net msg₁ buy₁ punk₁ sale₁ w w₁)
    (h₂ : env.Filled net msg₂ buy₂ punk₂ sale₂ w₁ t) :
    ∃ v, env.Filled net msg₂ buy₂ punk₂ sale₂ w v ∧
      env.SamePunk net punk₂ t.outside v.outside ∧
      ∀ a, env.credit v.outside a + env.credit w₁.outside a =
        env.credit w.outside a + env.credit t.outside a := by
  have hne := h₁.bidHash_ne h₂
  have hflag := h₂.accepted.unflagged
  obtain ⟨hmoney, hallows⟩ := h₂.means hlocal hself₂
  refine h₂.again hframe hweth hlocal hself₂ h₁.sameRules.symm ?_
    (h₁.others hframe hlocal (Ne.symm hpunk)).symm (h₁.attributes hframe).symm ?_ ?_
  · rwa [h₁.sameRules.bidHash, h₁.store, Store.flag_of_ne (Ne.symm hne), ← h₁.sameRules.bidHash]
      at hflag
  · have hpays := h₁.pays hframe hweth hself₁ buy₂.bid.bidder
    omega
  · rcases hallows with hu | hle
    · exact .inl ((h₁.unlimited_iff hframe hlocal hself₁ _).mp hu)
    · have hspends := h₁.spends hframe hlocal hself₁ buy₂.bid.bidder
      exact .inr (by omega)

/-- After the second match there is still the WETH for the first: if both are of one bidder, there
was enough for both. -/
theorem Filled.money_left (hframe : env.FrameLaws net) (hweth : env.WethLaws net)
    (hlocal : env.LocalLaws net) (hself₁ : buy₁.bid.bidder ≠ net.self)
    (hself₂ : buy₂.bid.bidder ≠ net.self) (h₁ : env.Filled net msg₁ buy₁ punk₁ sale₁ w w₁)
    (h₂ : env.Filled net msg₂ buy₂ punk₂ sale₂ w₁ t)
    (h₂' : env.Filled net msg₂ buy₂ punk₂ sale₂ w w₂) :
    sale₁.price ≤ env.balanceOf w₂.outside buy₁.bid.bidder := by
  have hmoney₁ := (h₁.means hlocal hself₁).1
  have hmoney₂ := (h₂.means hlocal hself₂).1
  have hpays := h₂'.pays hframe hweth hself₂ buy₁.bid.bidder
  by_cases hb : buy₁.bid.bidder = buy₂.bid.bidder
  · have hpays₁ := h₁.pays hframe hweth hself₁ buy₁.bid.bidder
    rw [if_pos hb] at hpays
    rw [if_pos rfl] at hpays₁
    rw [← hb] at hmoney₂
    omega
  · rw [if_neg hb] at hpays
    omega

/-- And the allowance. -/
theorem Filled.allowance_left (hframe : env.FrameLaws net) (hlocal : env.LocalLaws net)
    (hself₁ : buy₁.bid.bidder ≠ net.self) (hself₂ : buy₂.bid.bidder ≠ net.self)
    (h₁ : env.Filled net msg₁ buy₁ punk₁ sale₁ w w₁)
    (h₂ : env.Filled net msg₂ buy₂ punk₂ sale₂ w₁ t)
    (h₂' : env.Filled net msg₂ buy₂ punk₂ sale₂ w w₂) :
    env.Allows w₂.outside buy₁.bid.bidder sale₁.price := by
  by_cases hu : env.allowance w.outside buy₁.bid.bidder = unlimited
  · exact .inl ((h₂'.unlimited_iff hframe hlocal hself₂ _).mpr hu)
  right
  have hle₁ := (h₁.means hlocal hself₁).2.resolve_left hu
  have hspends := h₂'.spends hframe hlocal hself₂ buy₁.bid.bidder
  by_cases hb : buy₁.bid.bidder = buy₂.bid.bidder
  · have hspends₁ := h₁.spends hframe hlocal hself₁ buy₁.bid.bidder
    have hu₁ := mt (h₁.unlimited_iff hframe hlocal hself₁ buy₁.bid.bidder).mp hu
    have hallows₂ := (h₂.means hlocal hself₂).2
    rw [← hb] at hallows₂
    have hle₂ := hallows₂.resolve_left hu₁
    rw [if_pos ⟨hb, hu⟩] at hspends
    rw [if_pos ⟨rfl, hu⟩] at hspends₁
    omega
  · rw [if_neg fun hc ↦ hb hc.1] at hspends
    omega

/-- **The first match can come second.** -/
theorem Filled.put_off (hframe : env.FrameLaws net) (hweth : env.WethLaws net)
    (hlocal : env.LocalLaws net) (hself₁ : buy₁.bid.bidder ≠ net.self)
    (hself₂ : buy₂.bid.bidder ≠ net.self) (hpunk : punk₁ ≠ punk₂)
    (h₁ : env.Filled net msg₁ buy₁ punk₁ sale₁ w w₁)
    (h₂ : env.Filled net msg₂ buy₂ punk₂ sale₂ w₁ t)
    (h₂' : env.Filled net msg₂ buy₂ punk₂ sale₂ w w₂) :
    ∃ v, env.Filled net msg₁ buy₁ punk₁ sale₁ w₂ v ∧
      env.SamePunk net punk₁ w₁.outside v.outside ∧
      ∀ a, env.credit v.outside a + env.credit w.outside a =
        env.credit w₂.outside a + env.credit w₁.outside a := by
  refine h₁.again hframe hweth hlocal hself₁ h₂'.sameRules ?_ (h₂'.others hframe hlocal hpunk)
    (h₂'.attributes hframe) (h₁.money_left hframe hweth hlocal hself₁ hself₂ h₂ h₂')
    (h₁.allowance_left hframe hlocal hself₁ hself₂ h₂ h₂')
  rw [h₂'.store, Store.flag_of_ne (h₁.bidHash_ne h₂)]
  exact h₁.accepted.unflagged

/-- Both orders take the same from the balances. -/
theorem Filled.balanceOf_comm (hframe : env.FrameLaws net) (hweth : env.WethLaws net)
    (hself₁ : buy₁.bid.bidder ≠ net.self) (hself₂ : buy₂.bid.bidder ≠ net.self) {t' : World Ω}
    (h₁ : env.Filled net msg₁ buy₁ punk₁ sale₁ w w₁)
    (h₂ : env.Filled net msg₂ buy₂ punk₂ sale₂ w₁ t)
    (h₂' : env.Filled net msg₂ buy₂ punk₂ sale₂ w w₂)
    (h₁' : env.Filled net msg₁ buy₁ punk₁ sale₁ w₂ t') :
    env.balanceOf t'.outside = env.balanceOf t.outside := by
  funext a
  have ha₁ := h₁.pays hframe hweth hself₁ a
  have ha₂ := h₂.pays hframe hweth hself₂ a
  have hb₂ := h₂'.pays hframe hweth hself₂ a
  have hb₁ := h₁'.pays hframe hweth hself₁ a
  omega

/-- Both orders take the same from the allowances. -/
theorem Filled.allowance_comm (hframe : env.FrameLaws net) (hlocal : env.LocalLaws net)
    (hself₁ : buy₁.bid.bidder ≠ net.self) (hself₂ : buy₂.bid.bidder ≠ net.self) {t' : World Ω}
    (h₁ : env.Filled net msg₁ buy₁ punk₁ sale₁ w w₁)
    (h₂ : env.Filled net msg₂ buy₂ punk₂ sale₂ w₁ t)
    (h₂' : env.Filled net msg₂ buy₂ punk₂ sale₂ w w₂)
    (h₁' : env.Filled net msg₁ buy₁ punk₁ sale₁ w₂ t') :
    env.allowance t'.outside = env.allowance t.outside := by
  funext a
  have ha₁ := h₁.spends hframe hlocal hself₁ a
  have ha₂ := h₂.spends hframe hlocal hself₂ a
  have hb₂ := h₂'.spends hframe hlocal hself₂ a
  have hb₁ := h₁'.spends hframe hlocal hself₁ a
  simp only [ne_eq, h₁.unlimited_iff hframe hlocal hself₁,
    h₂'.unlimited_iff hframe hlocal hself₂] at ha₁ ha₂ hb₁ hb₂
  refine BitVec.toNat_inj.mp ?_
  omega

/-- In both orders each Punk has been through the same: its own match, and for the rest nothing. -/
theorem Filled.samePunk_comm (hframe : env.FrameLaws net) (hlocal : env.LocalLaws net)
    (hpunk : punk₁ ≠ punk₂) {t' : World Ω} (h₁ : env.Filled net msg₁ buy₁ punk₁ sale₁ w w₁)
    (h₂ : env.Filled net msg₂ buy₂ punk₂ sale₂ w₁ t)
    (h₂' : env.Filled net msg₂ buy₂ punk₂ sale₂ w w₂)
    (h₁' : env.Filled net msg₁ buy₁ punk₁ sale₁ w₂ t')
    (hsame₁ : env.SamePunk net punk₁ w₁.outside t'.outside)
    (hsame₂ : env.SamePunk net punk₂ t.outside w₂.outside) (k : Uint256) :
    env.SamePunk net k t.outside t'.outside := by
  by_cases hk₁ : k = punk₁
  · rw [hk₁]
    exact (h₂.others hframe hlocal hpunk).symm.trans hsame₁
  by_cases hk₂ : k = punk₂
  · rw [hk₂]
    exact hsame₂.trans (h₁'.others hframe hlocal (Ne.symm hpunk))
  have hfirst := (h₁.others hframe hlocal hk₁).trans (h₂.others hframe hlocal hk₂)
  have hsecond := (h₂'.others hframe hlocal hk₂).trans (h₁'.others hframe hlocal hk₁)
  exact hfirst.symm.trans hsecond

/-- Both orders leave the same balance. -/
theorem Filled.balance_comm {t' : World Ω} (h₁ : env.Filled net msg₁ buy₁ punk₁ sale₁ w w₁)
    (h₂ : env.Filled net msg₂ buy₂ punk₂ sale₂ w₁ t)
    (h₂' : env.Filled net msg₂ buy₂ punk₂ sale₂ w w₂)
    (h₁' : env.Filled net msg₁ buy₁ punk₁ sale₁ w₂ t') : t'.balance = t.balance := by
  obtain ⟨-, -, -, -, hle₁, -⟩ := h₁.accepted.offer
  obtain ⟨-, -, -, -, hle₂, -⟩ := h₂.accepted.offer
  rw [h₁'.balance, h₂'.balance, h₂.balance, h₁.balance]
  omega

/-- Both orders set the same flags. -/
theorem Filled.store_comm {t' : World Ω} (h₁ : env.Filled net msg₁ buy₁ punk₁ sale₁ w w₁)
    (h₂ : env.Filled net msg₂ buy₂ punk₂ sale₂ w₁ t)
    (h₂' : env.Filled net msg₂ buy₂ punk₂ sale₂ w w₂)
    (h₁' : env.Filled net msg₁ buy₁ punk₁ sale₁ w₂ t') : t'.store = t.store := by
  rw [h₁'.store, h₂.store, h₁.sameRules.bidHash, h₂'.sameRules.bidHash, h₁.store, h₂'.store,
    Store.flag_comm]

end Orders

/-- **Independent fills commute.**  Two matches of different Punks by bidders other than the
contract, one after the other, go through in the other order too, each at the same price and with
the same seller, and the two worlds they end in agree.  That the bid hashes differ need not be
assumed: of two matches with one hash only one goes through. -/
theorem fills_commute (env : Externals Ω) (net : Network Ω) (hframe : env.FrameLaws net)
    (hweth : env.WethLaws net) (hlocal : env.LocalLaws net) (w w₁ t : World Ω) (msg₁ msg₂ : Msg)
    (buy₁ buy₂ : Input) (punk₁ punk₂ : Uint256) (hself₁ : buy₁.bid.bidder ≠ net.self)
    (hself₂ : buy₂.bid.bidder ≠ net.self) (hpunk : punk₁ ≠ punk₂)
    (hcall₁ : env.call net ⟨msg₁, .executeMatch buy₁ punk₁⟩ w = .ret () w₁)
    (hcall₂ : env.call net ⟨msg₂, .executeMatch buy₂ punk₂⟩ w₁ = .ret () t) :
    ∃ w₂ t', env.call net ⟨msg₂, .executeMatch buy₂ punk₂⟩ w = .ret () w₂ ∧
      env.call net ⟨msg₁, .executeMatch buy₁ punk₁⟩ w₂ = .ret () t' ∧ env.Agree net t t' ∧
      ∃ seller₁ price₁ seller₂ price₂,
        let e₁ := .bidMatched buy₁.bid.bidder seller₁ buy₁.bid price₁ (w.store.bidHash buy₁.bid)
        let e₂ := .bidMatched buy₂.bid.bidder seller₂ buy₂.bid price₂ (w.store.bidHash buy₂.bid)
        t.logs = w.logs ++ [e₁, e₂] ∧ t'.logs = w.logs ++ [e₂, e₁] := by
  obtain ⟨sale₁, h₁⟩ := call_executeMatch_eq_ret.mp hcall₁
  obtain ⟨sale₂, h₂⟩ := call_executeMatch_eq_ret.mp hcall₂
  obtain ⟨w₂, h₂', hpunk₂, hcredit₂⟩ :=
    h₁.bring_forward hframe hweth hlocal hself₁ hself₂ hpunk h₂
  obtain ⟨t', h₁', hpunk₁, hcredit₁⟩ :=
    h₁.put_off hframe hweth hlocal hself₁ hself₂ hpunk h₂ h₂'
  have hpunks := h₁.samePunk_comm hframe hlocal hpunk h₂ h₂' h₁' hpunk₁ hpunk₂
  have hcredit : env.credit t'.outside = env.credit t.outside := by
    funext a
    have ha₁ := hcredit₁ a
    have ha₂ := hcredit₂ a
    omega
  have hagree : env.Agree net t t' :=
    ⟨h₁.store_comm h₂ h₂' h₁', h₁.balance_comm h₂ h₂' h₁',
      h₁.balanceOf_comm hframe hweth hself₁ hself₂ h₂ h₂' h₁',
      h₁.allowance_comm hframe hlocal hself₁ hself₂ h₂ h₂' h₁', hcredit,
      funext fun k ↦ (hpunks k).owner, funext fun k ↦ (hpunks k).standingBid,
      funext fun k ↦ (hpunks k).offer⟩
  refine ⟨w₂, t', call_executeMatch_eq_ret.mpr ⟨sale₂, h₂'⟩,
    call_executeMatch_eq_ret.mpr ⟨sale₁, h₁'⟩, hagree, sale₁.seller, sale₁.price, sale₂.seller,
    sale₂.price, ?_, ?_⟩
  · rw [h₂.logs, h₁.logs, h₁.sameRules.bidHash, List.append_assoc]
    rfl
  · rw [h₁'.logs, h₂'.logs, h₂'.sameRules.bidHash, List.append_assoc]
    rfl

set_option maxRecDepth 4096 in
/-- The salt makes two bids of one. -/
theorem hashBid_fairInput_ne : hashBid (fairInput 0).bid 0 ≠ hashBid (fairInput 1).bid 0 := by
  decide +kernel

/-- The account 3 gets the Punks 5 and 15, with two bids that together use up its allowance. -/
theorem fills_commute_fair :
    ∃ w₂ t', bazaar.call bazaarNetwork ⟨fairMsg, .executeMatch (fairInput 1) 15⟩ fairWorld =
        .ret () w₂ ∧
      bazaar.call bazaarNetwork ⟨fairMsg, .executeMatch (fairInput 0) 5⟩ w₂ = .ret () t' := by
  obtain ⟨w₁, h₁⟩ := filled_fairWorld 0
  obtain ⟨t, h₂⟩ :
      ∃ t, bazaar.Filled bazaarNetwork fairMsg (fairInput 1) 15 ⟨1000, 990, 4⟩ w₁ t := by
    have hpays := h₁.pays bazaar_frameLaws bazaar_wethLaws (by decide) 3
    have hspends := h₁.spends bazaar_frameLaws bazaar_localLaws (by decide) 3
    have hpunk := h₁.others bazaar_frameLaws bazaar_localLaws (show (15 : Uint256) ≠ 5 by decide)
    refine filled_fairInput h₁.sameRules.paused h₁.sameRules.feeRate ?_ hpunk
      (validatePunkIndex_eq_ok.mp rfl) ?_ ?_
    · have hne : fairWorld.store.bidHash (fairInput 1).bid ≠
          fairWorld.store.bidHash (fairInput 0).bid := Ne.symm hashBid_fairInput_ne
      rw [h₁.sameRules.bidHash, h₁.store, Store.flag_of_ne hne]
      rfl
    · change w₁.outside.weth 3 + 1000 = 2000 at hpays
      omega
    · change (w₁.outside.allowance 3).toNat + 1000 = 2000 at hspends
      omega
  obtain ⟨w₂, t', hcall₂, hcall₁, -⟩ := fills_commute bazaar bazaarNetwork bazaar_frameLaws
    bazaar_wethLaws bazaar_localLaws fairWorld w₁ t fairMsg fairMsg (fairInput 0) (fairInput 1) 5 15
    (by decide) (by decide) (by decide) (call_executeMatch_eq_ret.mpr ⟨_, h₁⟩)
    (call_executeMatch_eq_ret.mpr ⟨_, h₂⟩)
  exact ⟨w₂, t', hcall₂, hcall₁⟩

end Externals

end PunksBids
