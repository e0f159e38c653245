import PunksBids.Matching.Criterion

/-!
# The price with the fee

`_canBuyPunk` grosses the value of the offer up with the rate that applies to it.  In a world that
is reachable no rate is above `MAX_FEE_RATE` (`Reachable.ratesBounded`), so the divisor is positive
and the one way to fail is the multiplication (`priceWithFee_of_rate_le`); what comes out is the
total of the library (`Shares.grossUp`), whose share is exact.
-/

set_option autoImplicit false

namespace PunksBids

open Evm Shares

variable {Ω : Type} {net : Network Ω}

/-! ## One price -/

/-- `price` is `punkPrice` with the fee of `rate` per mille on top. -/
structure WithFee (punkPrice rate price : Nat) : Prop where
  covers : punkPrice ≤ price
  fee_eq : price - punkPrice = rate * price / 1000
  fee_le : price - punkPrice ≤ punkPrice / 9

theorem withFee_grossUp (punkPrice : Nat) {rate : Nat} (h : rate ≤ maxFeeRate) :
    WithFee punkPrice rate (grossUp inverseBasisPoint rate punkPrice) := by
  have hrate : rate ≤ 100 := h
  have hlt : rate < inverseBasisPoint := Nat.lt_of_le_of_lt hrate (by decide)
  have hten : (9 + 1) * rate ≤ inverseBasisPoint := by rw [inverseBasisPoint]; omega
  exact ⟨le_grossUp _ hlt, grossUp_sub_eq _ hlt, grossUp_sub_le _ (by decide) hten (by decide)⟩

/-- The price computation, at a rate within the bound. -/
theorem priceWithFee_of_rate_le (punkPrice : Nat) {rate : Nat} (h : rate ≤ maxFeeRate) :
    priceWithFee punkPrice rate =
      if 1000 * punkPrice < wordSize then .ok (grossUp inverseBasisPoint rate punkPrice)
      else .error .arithmetic := by
  have hlt : rate < inverseBasisPoint := Nat.lt_of_le_of_lt h (by decide)
  split
  · next hfits => exact priceWithFee_eq_ok.mpr ⟨hfits, hlt, rfl⟩
  · next hfits =>
    have hmul : checkedMul inverseBasisPoint punkPrice = .error .arithmetic := if_neg hfits
    rw [priceWithFee, hmul]
    rfl

/-- The price grows with what the Punk costs and with the rate. -/
theorem priceWithFee_mono {punkPrice punkPrice' rate rate' price' : Nat}
    (hpunk : punkPrice ≤ punkPrice') (hrate : rate ≤ rate')
    (h : priceWithFee punkPrice' rate' = .ok price') :
    ∃ price, priceWithFee punkPrice rate = .ok price ∧ price ≤ price' := by
  obtain ⟨hfits, hlt, rfl⟩ := priceWithFee_eq_ok.mp h
  have hscaled := Nat.mul_le_mul_left inverseBasisPoint hpunk
  exact ⟨_, priceWithFee_eq_ok.mpr ⟨by omega, by omega, rfl⟩, grossUp_mono hpunk hrate hlt⟩

/-! ## The price of an offer -/

/-- The price computation of `_canBuyPunk` for an offer. -/
def offerPrice (net : Network Ω) (store : Store) (offer : Offer) : Except Panic Nat :=
  priceWithFee offer.minValue.toNat (currentFeeRate net store offer).toNat

theorem offerPrice_eq {store : Store} (h : RatesBounded store) (offer : Offer) :
    offerPrice net store offer =
      if 1000 * offer.minValue.toNat < wordSize then
        .ok (grossUp inverseBasisPoint (currentFeeRate net store offer).toNat offer.minValue.toNat)
      else .error .arithmetic :=
  priceWithFee_of_rate_le _ (h.currentFeeRate_le offer)

theorem offerPrice_eq_error {store : Store} (h : RatesBounded store) (offer : Offer) {e : Panic} :
    offerPrice net store offer = .error e ↔
      e = .arithmetic ∧ 2 ^ 256 ≤ 1000 * offer.minValue.toNat := by
  rw [offerPrice_eq h]
  split
  · next hfits => exact ⟨fun h ↦ by simp at h, fun h ↦ absurd h.2 (Nat.not_le.mpr hfits)⟩
  · next hfits =>
    rw [Except.error.injEq, eq_comm]
    exact (and_iff_left (Nat.le_of_not_lt hfits)).symm

theorem returned_ne_panic {α : Type} (x : Option α) (e : Panic) :
    returned x ≠ .error (.panic e) := by
  cases x <;> simp [returned]

/-- `_canBuyPunk` panics where its price computation does, once the offer is one that may be
taken. -/
theorem canBuyPunk_eq_panic {store : Store} {ω : Ω} {bid : Bid} {punkIndex : Uint256}
    {offer : Offer} (hoffer : net.punksOfferedForSale ω punkIndex = some offer) {e : Panic} :
    canBuyPunk net store ω bid punkIndex = .error (.panic e) ↔
      offer.isForSale = true ∧ (offer.onlySellTo = 0 ∨ offer.onlySellTo = net.self) ∧
        offerPrice net store offer = .error e := by
  have hto : ¬ (offer.onlySellTo ≠ 0 ∧ offer.onlySellTo ≠ net.self) ↔
      offer.onlySellTo = 0 ∨ offer.onlySellTo = net.self := by
    rw [not_and_or, not_not, not_not]
  -- Every other step that fails has an error of its own.
  simp only [canBuyPunk, hoffer, offerPrice, Except.bind_eq_error, returned_ne_panic,
    returned_eq_ok, require_eq_error, require_eq_ok, Except.mapError_eq_error, Except.pure_def,
    Option.some_inj, Error.panic.injEq, reduceCtorEq, hto, false_or, or_false, and_false,
    exists_false, exists_const, exists_eq_left', exists_eq_right]

/-- **Fee arithmetic in every reachable world.**  Both rates are within the bound.  Whatever the
offer, its price computation panics exactly if `1000 * minValue` is not a `uint256`, and else it
gives the value of the offer with the exact fee on top; the price grows with the value and with the
rate.  And this is what `_canBuyPunk` makes of the offer: its panics are these and its price is
this one. -/
theorem fee_arithmetic (net : Network Ω) (chainid : Uint256) (w : World Ω)
    (hw : Reachable net chainid w) :
    w.store.feeRate.toNat ≤ 100 ∧ w.store.localFeeRate.toNat ≤ 100 ∧
    (∀ offer : Offer,
      (∀ e, offerPrice net w.store offer = .error e ↔
        e = .arithmetic ∧ 2 ^ 256 ≤ 1000 * offer.minValue.toNat) ∧
      (1000 * offer.minValue.toNat < 2 ^ 256 → ∃ price,
        offerPrice net w.store offer = .ok price ∧
        WithFee offer.minValue.toNat
          (if offer.onlySellTo = net.self then w.store.localFeeRate
            else w.store.feeRate).toNat price)) ∧
    (∀ punkPrice punkPrice' rate rate' price', punkPrice ≤ punkPrice' → rate ≤ rate' →
      priceWithFee punkPrice' rate' = .ok price' →
        ∃ price, priceWithFee punkPrice rate = .ok price ∧ price ≤ price') ∧
    ∀ (ω : Ω) (bid : Bid) (punkIndex : Uint256) (offer : Offer),
      net.punksOfferedForSale ω punkIndex = some offer →
      (∀ e, canBuyPunk net w.store ω bid punkIndex = .error (.panic e) ↔
        e = .arithmetic ∧ offer.isForSale = true ∧
          (offer.onlySellTo = 0 ∨ offer.onlySellTo = net.self) ∧
          2 ^ 256 ≤ 1000 * offer.minValue.toNat) ∧
      ∀ sale, canBuyPunk net w.store ω bid punkIndex = .ok sale →
        offerPrice net w.store offer = .ok sale.price ∧
          sale.punkPrice = offer.minValue.toNat := by
  have hrates := hw.ratesBounded
  refine ⟨hrates.feeRate, hrates.localFeeRate,
    fun offer ↦ ⟨fun e ↦ offerPrice_eq_error hrates offer, fun hfits ↦ ?_⟩,
    fun _ _ _ _ _ ↦ priceWithFee_mono, fun ω bid punkIndex offer hoffer ↦ ⟨fun e ↦ ?_, ?_⟩⟩
  · refine ⟨_, (offerPrice_eq hrates offer).trans (if_pos hfits), ?_⟩
    exact withFee_grossUp _ (hrates.currentFeeRate_le offer)
  · rw [canBuyPunk_eq_panic hoffer, offerPrice_eq_error hrates]
    tauto
  · intro sale hsale
    obtain ⟨offer', hoffer', -, -, hok, -, hpunk, -⟩ := canBuyPunk_eq_ok.mp hsale
    obtain rfl : offer = offer' := Option.some.inj (hoffer.symm.trans hoffer')
    exact ⟨hok, hpunk⟩

/-- At the rate of the constructor, a Punk for 990 costs 1000. -/
theorem fee_arithmetic_deploy : ∃ price,
    offerPrice idleNetwork (deploy 1 1 7 0 ()).store
      { isForSale := true, punkIndex := 5, seller := 4, minValue := 990, onlySellTo := 0 } =
        .ok price ∧ price - 990 = 10 * price / 1000 := by
  have hw : Reachable idleNetwork 1 (deploy 1 1 7 0 ()) := ⟨7, 0, (), .done, [], rfl⟩
  obtain ⟨price, hprice, hfee⟩ := ((fee_arithmetic idleNetwork 1 _ hw).2.2.1
    { isForSale := true, punkIndex := 5, seller := 4, minValue := 990, onlySellTo := 0 }).2
      (by decide)
  exact ⟨price, hprice, hfee.fee_eq⟩

end PunksBids
