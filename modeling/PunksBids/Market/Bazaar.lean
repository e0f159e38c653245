import PunksBids.Market.Settlement

/-!
# A marketplace

The laws of `Externals` can be kept: `bazaar` keeps them.  It does what WETH9 and the CryptoPunks
marketplace are documented to do when PunksBids calls them, standing bids and their refunds
included.  That no owner has bid for the own Punk is a field of `Punk`, so there is no state of the
marketplace in which it fails.

At the end one bid is followed through, as the run on which the theorems about money and Punks are
tried.
-/

set_option autoImplicit false

namespace PunksBids

open Evm OpenCalls

/-- What the marketplace keeps of a Punk. -/
structure Punk where
  owner : Address
  offer : Offer
  /-- The highest bid for the Punk, with the bidder. -/
  bid : Option (Address × Nat)
  bid_ne_owner : ∀ b ∈ bid, b.1 ≠ owner

/-- What the account has bid for the Punk. -/
def Punk.bidOf (p : Punk) (a : Address) : Nat := (p.bid.filter fun b ↦ b.1 = a).elim 0 Prod.snd

/-- The Punk changes hands; a bid of the new owner ends. -/
def Punk.give (p : Punk) (a : Address) (offer : Offer) : Punk where
  owner := a
  offer := offer
  bid := p.bid.filter fun b ↦ b.1 ≠ a
  bid_ne_owner := by
    intro b hb
    simpa using (Option.mem_filter_iff.mp hb).2

@[simp] theorem Punk.give_owner (p : Punk) (a : Address) (offer : Offer) :
    (p.give a offer).owner = a := rfl

@[simp] theorem Punk.give_offer (p : Punk) (a : Address) (offer : Offer) :
    (p.give a offer).offer = offer := rfl

theorem Punk.bidOf_owner (p : Punk) : p.bidOf p.owner = 0 := by
  have hnone : (p.bid.filter fun b ↦ b.1 = p.owner) = none := by
    rw [Option.filter_eq_none_iff]
    intro b hb
    simpa using p.bid_ne_owner b hb
  rw [bidOf, hnone]
  rfl

theorem Punk.bidOf_give (p : Punk) (a : Address) (offer : Offer) (a' : Address) :
    (p.give a offer).bidOf a' = if a' = a then 0 else p.bidOf a' := by
  split
  · next h => exact h ▸ (p.give a offer).bidOf_owner
  · next h =>
    cases hb : p.bid with
    | none => simp [bidOf, give, hb]
    | some b => by_cases hba : b.1 = a <;> simp [bidOf, give, hb, Option.filter, hba, Ne.symm h]

/-- The state of WETH9 and the marketplace. -/
structure Bazaar where
  weth : Address → Nat
  allowance : Address → Uint256
  punks : Uint256 → Punk
  credit : Address → Nat

namespace Bazaar

/-- The address of PunksBids. -/
def self : Address := 1

def transferFrom (src dst : Address) (wad : Nat) (b : Bazaar) : Option Bazaar :=
  if wad ≤ b.weth src ∧
      (src = self ∨ b.allowance src = Externals.unlimited ∨ wad ≤ (b.allowance src).toNat) then
    some { b with
      weth := Externals.moved b.weth src dst wad
      allowance := if src = self ∨ b.allowance src = Externals.unlimited then b.allowance
        else Function.update b.allowance src (b.allowance src - BitVec.ofNat 256 wad) }
  else
    none

def withdraw (wad : Nat) (b : Bazaar) : Option Bazaar :=
  if wad ≤ b.weth self then
    some { b with weth := Function.update b.weth self (b.weth self - wad) }
  else
    none

/-- An offer that is over: `punkNoLongerForSale`. -/
def noLongerForSale (punkIndex : Uint256) : Offer where
  isForSale := false
  punkIndex := punkIndex
  seller := self
  minValue := 0
  onlySellTo := 0

def buyPunk (punkIndex : Uint256) (value : Nat) (b : Bazaar) : Option Bazaar :=
  let p := b.punks punkIndex
  if p.offer.isForSale = true ∧ (p.offer.onlySellTo = 0 ∨ p.offer.onlySellTo = self) ∧
      p.offer.minValue.toNat ≤ value ∧ p.offer.seller = p.owner then
    some { b with
      punks := Function.update b.punks punkIndex (p.give self (noLongerForSale punkIndex))
      credit := fun a ↦ b.credit a + (if a = p.offer.seller then value else 0) +
        if a = self then p.bidOf a else 0 }
  else
    none

def transferPunk (recipient : Address) (punkIndex : Uint256) (b : Bazaar) : Option Bazaar :=
  let p := b.punks punkIndex
  if p.owner = self then
    some { b with
      punks := Function.update b.punks punkIndex (p.give recipient
        (if p.offer.isForSale = true then noLongerForSale punkIndex else p.offer))
      credit := fun a ↦ b.credit a + if a = recipient then p.bidOf a else 0 }
  else
    none

end Bazaar

/-- WETH9 and the marketplace. -/
def bazaar : Externals Bazaar where
  balanceOf b := b.weth
  allowance b := b.allowance
  transferFrom := Bazaar.transferFrom
  withdraw := Bazaar.withdraw
  owner b punkIndex := (b.punks punkIndex).owner
  credit b := b.credit
  standingBid b punkIndex := (b.punks punkIndex).bidOf
  buyPunk := Bazaar.buyPunk
  transferPunk := Bazaar.transferPunk

/-- The surroundings, in which every Punk is a hat-wearing ape and nobody signs anything. -/
def bazaarNetwork : Network Bazaar where
  self := Bazaar.self
  ecrecover _ _ _ _ := 0
  punksOfferedForSale b punkIndex := some (b.punks punkIndex).offer
  punkAttributes _ _ := some apeAttributes

/-! ## The laws -/

namespace Bazaar

variable {b b' c : Bazaar} {src dst recipient : Address} {wad value : Nat} {punkIndex : Uint256}

theorem transferFrom_eq_some : bazaar.transferFrom src dst wad b = some b' ↔
    (wad ≤ b.weth src ∧
      (src = self ∨ b.allowance src = Externals.unlimited ∨ wad ≤ (b.allowance src).toNat)) ∧
    { b with
      weth := Externals.moved b.weth src dst wad
      allowance := if src = self ∨ b.allowance src = Externals.unlimited then b.allowance
        else Function.update b.allowance src (b.allowance src - BitVec.ofNat 256 wad) } = b' := by
  simp only [bazaar, transferFrom, Option.ite_none_right_eq_some, Option.some_inj]

theorem withdraw_eq_some : bazaar.withdraw wad b = some b' ↔ wad ≤ b.weth self ∧
    { b with weth := Function.update b.weth self (b.weth self - wad) } = b' := by
  simp only [bazaar, withdraw, Option.ite_none_right_eq_some, Option.some_inj]

theorem buyPunk_eq_some : bazaar.buyPunk punkIndex value b = some b' ↔
    ((b.punks punkIndex).offer.isForSale = true ∧
      ((b.punks punkIndex).offer.onlySellTo = 0 ∨ (b.punks punkIndex).offer.onlySellTo = self) ∧
      (b.punks punkIndex).offer.minValue.toNat ≤ value ∧
      (b.punks punkIndex).offer.seller = (b.punks punkIndex).owner) ∧
    { b with
      punks := Function.update b.punks punkIndex
        ((b.punks punkIndex).give self (noLongerForSale punkIndex))
      credit := fun a ↦ b.credit a + (if a = (b.punks punkIndex).offer.seller then value else 0) +
        if a = self then (b.punks punkIndex).bidOf a else 0 } = b' := by
  simp only [bazaar, buyPunk, Option.ite_none_right_eq_some, Option.some_inj]

theorem transferPunk_eq_some : bazaar.transferPunk recipient punkIndex b = some b' ↔
    (b.punks punkIndex).owner = self ∧
    { b with
      punks := Function.update b.punks punkIndex ((b.punks punkIndex).give recipient
        (if (b.punks punkIndex).offer.isForSale = true then noLongerForSale punkIndex
          else (b.punks punkIndex).offer))
      credit := fun a ↦
        b.credit a + if a = recipient then (b.punks punkIndex).bidOf a else 0 } = b' := by
  simp only [bazaar, transferPunk, Option.ite_none_right_eq_some, Option.some_inj]

theorem owner_update (punks : Uint256 → Punk) (punkIndex : Uint256) (p : Punk) :
    (fun k ↦ (Function.update punks punkIndex p k).owner) =
      Function.update (fun k ↦ (punks k).owner) punkIndex p.owner :=
  funext fun k ↦ Function.apply_update (fun _ q ↦ q.owner) punks punkIndex p k

/-- Other Punks are as they were. -/
theorem samePunk_update (p : Punk) (credit : Address → Nat) {k : Uint256} (hk : k ≠ punkIndex) :
    bazaar.SamePunk bazaarNetwork k b
      { b with punks := Function.update b.punks punkIndex p, credit := credit } := by
  have hp : Function.update b.punks punkIndex p k = b.punks k := Function.update_of_ne hk _ _
  exact ⟨congrArg Punk.owner hp, congrArg Punk.bidOf hp,
    congrArg (fun q ↦ some (Punk.offer q)) hp⟩

/-- What is the same of a Punk is the same after it has been given to somebody. -/
theorem samePunk_give {credit credit' : Address → Nat} {offer offer' : Offer}
    (h : (c.punks punkIndex).bidOf = (b.punks punkIndex).bidOf) (hoffer : offer' = offer)
    (a : Address) :
    bazaar.SamePunk bazaarNetwork punkIndex
      { b with
        punks := Function.update b.punks punkIndex ((b.punks punkIndex).give a offer)
        credit := credit }
      { c with
        punks := Function.update c.punks punkIndex ((c.punks punkIndex).give a offer')
        credit := credit' } := by
  subst hoffer
  refine ⟨?_, ?_, ?_⟩
  · simp [bazaar]
  · funext a'
    simp only [bazaar, Function.update_self, Punk.bidOf_give, h]
  · simp [bazaarNetwork]

/-- The records of a Punk, one by one. -/
theorem samePunk_iff : bazaar.SamePunk bazaarNetwork punkIndex b c ↔
    (c.punks punkIndex).owner = (b.punks punkIndex).owner ∧
    (c.punks punkIndex).bidOf = (b.punks punkIndex).bidOf ∧
    (c.punks punkIndex).offer = (b.punks punkIndex).offer :=
  ⟨fun h ↦ ⟨h.owner, h.standingBid, Option.some_inj.mp h.offer⟩,
    fun h ↦ ⟨h.1, h.2.1, congrArg some h.2.2⟩⟩

theorem buyPunk_isLocal (punkIndex : Uint256) (value : Nat) :
    bazaar.Local bazaarNetwork punkIndex (bazaar.buyPunk punkIndex value) where
  others := by
    intro b b' h k hk
    obtain ⟨-, rfl⟩ := buyPunk_eq_some.mp h
    exact samePunk_update _ _ hk
  again := by
    intro b b' c h hsame
    obtain ⟨hok, rfl⟩ := buyPunk_eq_some.mp h
    obtain ⟨howner, hbid, hoffer⟩ := samePunk_iff.mp hsame
    refine ⟨_, buyPunk_eq_some.mpr ⟨by rwa [hoffer, howner], rfl⟩, samePunk_give hbid rfl _, ?_⟩
    intro a
    simp only [bazaar, hoffer, hbid]
    omega

theorem transferPunk_isLocal (recipient : Address) (punkIndex : Uint256) :
    bazaar.Local bazaarNetwork punkIndex (bazaar.transferPunk recipient punkIndex) where
  others := by
    intro b b' h k hk
    obtain ⟨-, rfl⟩ := transferPunk_eq_some.mp h
    exact samePunk_update _ _ hk
  again := by
    intro b b' c h hsame
    obtain ⟨hok, rfl⟩ := transferPunk_eq_some.mp h
    obtain ⟨howner, hbid, hoffer⟩ := samePunk_iff.mp hsame
    refine ⟨_, transferPunk_eq_some.mpr ⟨howner.trans hok, rfl⟩,
      samePunk_give hbid (by rw [hoffer]) _, ?_⟩
    intro a
    simp only [bazaar, hbid]
    omega

/-- What is taken from an allowance that is not unlimited. -/
theorem toNat_allowance_sub {x : Uint256} (h : wad ≤ x.toNat) :
    (x - BitVec.ofNat 256 wad).toNat = x.toNat - wad := by
  have hlt := x.isLt
  have hwad : (BitVec.ofNat 256 wad).toNat = wad := by
    rw [BitVec.toNat_ofNat, Nat.mod_eq_of_lt (by omega)]
  rw [BitVec.toNat_sub_of_le (by rw [BitVec.le_def, hwad]; exact h), hwad]

end Bazaar

open Bazaar

theorem bazaar_frameLaws : bazaar.FrameLaws bazaarNetwork where
  transferFrom := by
    intro src dst wad b b' h
    obtain ⟨-, rfl⟩ := transferFrom_eq_some.mp h
    exact ⟨rfl, rfl, rfl, rfl, rfl⟩
  withdraw := by
    intro wad b b' h
    obtain ⟨-, rfl⟩ := withdraw_eq_some.mp h
    exact ⟨rfl, rfl, rfl, rfl, rfl⟩
  buyPunk := by
    intro punkIndex value b b' h
    obtain ⟨-, rfl⟩ := buyPunk_eq_some.mp h
    exact ⟨rfl, rfl, rfl⟩
  transferPunk := by
    intro recipient punkIndex b b' h
    obtain ⟨-, rfl⟩ := transferPunk_eq_some.mp h
    exact ⟨rfl, rfl, rfl⟩

theorem bazaar_wethLaws : bazaar.WethLaws bazaarNetwork where
  transferFrom_balanceOf := by
    intro src dst wad b b' h
    obtain ⟨⟨hle, -⟩, rfl⟩ := transferFrom_eq_some.mp h
    exact ⟨hle, rfl⟩
  withdraw_balanceOf := by
    intro wad b b' h
    obtain ⟨hle, rfl⟩ := withdraw_eq_some.mp h
    exact ⟨hle, rfl⟩

theorem bazaar_marketLaws : bazaar.MarketLaws bazaarNetwork where
  buyPunk_owner := by
    intro punkIndex value b b' h
    obtain ⟨-, rfl⟩ := buyPunk_eq_some.mp h
    exact owner_update _ _ _
  buyPunk_credit := by
    intro punkIndex value b b' offer h hoffer
    obtain ⟨⟨-, -, -, hseller⟩, rfl⟩ := buyPunk_eq_some.mp h
    obtain rfl := Option.some_inj.mp hoffer
    exact ⟨hseller, fun _ ↦ rfl⟩
  buyPunk_standingBid := by
    intro punkIndex value b b' a h ha
    obtain ⟨-, rfl⟩ := buyPunk_eq_some.mp h
    have ha : a ≠ self := ha
    simp only [bazaar, Function.update_self, Punk.bidOf_give, if_neg ha]
  transferPunk_owner := by
    intro recipient punkIndex b b' h
    obtain ⟨-, rfl⟩ := transferPunk_eq_some.mp h
    exact owner_update _ _ _
  transferPunk_credit := by
    intro recipient punkIndex b b' h
    obtain ⟨-, rfl⟩ := transferPunk_eq_some.mp h
    exact fun _ ↦ rfl
  owner_standingBid := fun b punkIndex ↦ (b.punks punkIndex).bidOf_owner

theorem bazaar_localLaws : bazaar.LocalLaws bazaarNetwork where
  transferFrom_iff := by
    intro src wad b hsrc
    have hsrc : ¬ src = self := hsrc
    simp only [transferFrom_eq_some, exists_and_left, exists_eq', and_true, hsrc, false_or]
    rfl
  transferFrom_allowance := by
    intro src wad b b' hsrc h
    have hsrc : ¬ src = self := hsrc
    obtain ⟨⟨-, hallows⟩, rfl⟩ := transferFrom_eq_some.mp h
    simp only [hsrc, false_or] at hallows ⊢
    by_cases hu : b.allowance src = Externals.unlimited
    · simp [bazaar, hu]
    · have hwhole : (if bazaar.allowance b src = Externals.unlimited then 0 else wad) = wad :=
        if_neg hu
      rw [hwhole]
      have hle := hallows.resolve_left hu
      simp only [bazaar, if_neg hu, Function.update_self]
      refine ⟨?_, fun a ha ↦ Function.update_of_ne ha _ _⟩
      rw [toNat_allowance_sub hle]
      omega
  withdraw_iff := by
    intro wad b
    simp only [withdraw_eq_some, exists_and_left, exists_eq', and_true]
    rfl
  withdraw_allowance := by
    intro wad b b' h
    obtain ⟨-, rfl⟩ := withdraw_eq_some.mp h
    rfl
  buyPunk_local := buyPunk_isLocal
  transferPunk_local := transferPunk_isLocal

/-! ## Bids that are filled -/

/-- The offer of a Punk to anybody, for a price of 1000. -/
def fairOffer (punkIndex : Uint256) : Offer where
  isForSale := true
  punkIndex := punkIndex
  seller := 4
  minValue := 990
  onlySellTo := 0

/-- Every Punk is offered.  The account 3 has, and allows, what two of them cost. -/
def fair : Bazaar where
  weth := Function.update 0 3 2000
  allowance := Function.update 0 3 2000
  punks punkIndex := ⟨4, fairOffer punkIndex, none, by simp⟩
  credit := 0

/-- The contract as deployed there. -/
def fairWorld : World Bazaar := deploy 1 bazaarNetwork.self 7 0 fair

/-- A bid for an ape, which needs no signature if its bidder is the caller. -/
def fairInput (salt : Uint256) : Input := ⟨{ apeBid with salt := salt }, 0, 0, 0⟩

/-- A call of the bidder. -/
def fairMsg : Msg := { idleMsg with sender := apeBid.bidder }

theorem accepted_fairInput {w : World Bazaar} {salt punkIndex : Uint256}
    (hpaused : w.store.paused = false) (hrate : w.store.feeRate = 10)
    (hflag : w.store.cancelledOrFilled (w.store.bidHash (fairInput salt).bid) = false)
    (hpunk : bazaar.SamePunk bazaarNetwork punkIndex fair w.outside)
    (hindex : IndexFits apeBid (toUint16 punkIndex)) :
    Accepted bazaarNetwork fairMsg w (fairInput salt) punkIndex ⟨1000, 990, 4⟩ := by
  have hcurrent : currentFeeRate bazaarNetwork w.store (fairOffer punkIndex) = 10 := by
    rw [currentFeeRate, if_neg (by exact show (0 : Address) ≠ 1 by decide), hrate]
  have hoffer : bazaarNetwork.punksOfferedForSale w.outside punkIndex =
      some (fairOffer punkIndex) := hpunk.offer
  have hbuy : canBuyPunk bazaarNetwork w.store w.outside (fairInput salt).bid punkIndex =
      .ok ⟨1000, 990, 4⟩ := by
    rw [canBuyPunk_eq_ok_of_offer hoffer (by rw [hcurrent]; decide), hcurrent]
    exact ⟨rfl, .inl rfl, show 1000 * (990 : Uint256).toNat < 2 ^ 256 by decide,
      show 1000 * (990 : Uint256).toNat / (1000 - (10 : Uint256).toNat) ≤ (2000 : Uint256).toNat by
        decide,
      show Sale.mk 1000 990 4 =
        ⟨1000 * (990 : Uint256).toNat / (1000 - (10 : Uint256).toNat), (990 : Uint256).toNat, 4⟩ by
        decide⟩
  refine ⟨hpaused, show (3 : Address) ≠ 0 by decide, hflag, show (50 : Uint256) < 100 by decide,
    show (100 : Uint256) < 200 by decide, .inl rfl, ?_⟩
  exact (canMatchBidAndPunk_eq_ok (s := apeAttributes) idleMsg.memory.property rfl
    (by decide) (by decide)).mpr ⟨hbuy, hindex, apeBid_attributesFit.baseType,
      apeBid_attributesFit.attributesCount, apeBid_attributesFit.attributes⟩

/-- Each callee agrees with what the one before has left. -/
theorem settles_fair {b : Bazaar} {punkIndex : Uint256}
    (hpunk : bazaar.SamePunk bazaarNetwork punkIndex fair b) (hmoney : 1000 ≤ b.weth 3)
    (hallows : 1000 ≤ (b.allowance 3).toNat) :
    ∃ b', bazaar.Settles bazaarNetwork 3 punkIndex ⟨1000, 990, 4⟩ b b' := by
  have howner : (b.punks punkIndex).owner = 4 := hpunk.owner
  have hoffer : (b.punks punkIndex).offer = fairOffer punkIndex := Option.some_inj.mp hpunk.offer
  refine ⟨_, _, _, _, transferFrom_eq_some.mpr ⟨⟨hmoney, .inr (.inr hallows)⟩, rfl⟩,
    withdraw_eq_some.mpr ⟨?_, rfl⟩, buyPunk_eq_some.mpr ⟨?_, rfl⟩,
    transferPunk_eq_some.mpr ⟨?_, rfl⟩⟩
  · simp [bazaarNetwork, Externals.moved]
  · rw [hoffer, howner]
    exact ⟨rfl, .inl rfl, show (990 : Uint256).toNat ≤ 990 by decide, rfl⟩
  · simp

/-- **Such a bid is filled** for as long as its flag is clear, the Punk is offered and the means
suffice. -/
theorem filled_fairInput {w : World Bazaar} {salt punkIndex : Uint256}
    (hpaused : w.store.paused = false) (hrate : w.store.feeRate = 10)
    (hflag : w.store.cancelledOrFilled (w.store.bidHash (fairInput salt).bid) = false)
    (hpunk : bazaar.SamePunk bazaarNetwork punkIndex fair w.outside)
    (hindex : IndexFits apeBid (toUint16 punkIndex)) (hmoney : 1000 ≤ w.outside.weth 3)
    (hallows : 1000 ≤ (w.outside.allowance 3).toNat) :
    ∃ t, bazaar.Filled bazaarNetwork fairMsg (fairInput salt) punkIndex ⟨1000, 990, 4⟩ w t := by
  obtain ⟨b, hsettles⟩ := settles_fair hpunk hmoney hallows
  let e : Event := .bidMatched 3 4 (fairInput salt).bid 1000 (w.store.bidHash (fairInput salt).bid)
  let u : World Bazaar := w.withStore (Store.flag (w.store.bidHash (fairInput salt).bid))
  exact ⟨u.settled ⟨1000, 990, 4⟩ b e, accepted_fairInput hpaused hrate hflag hpunk hindex,
    hsettles, Nat.le_add_left_of_le (by decide), rfl, rfl, rfl⟩

/-- The first of them, for the Punk 5. -/
theorem filled_fairWorld (salt : Uint256) :
    ∃ t, bazaar.Filled bazaarNetwork fairMsg (fairInput salt) 5 ⟨1000, 990, 4⟩ fairWorld t :=
  filled_fairInput rfl rfl rfl ⟨rfl, rfl, rfl⟩ (validatePunkIndex_eq_ok.mp rfl)
    (show 1000 ≤ 2000 by decide) (show 1000 ≤ (2000 : Uint256).toNat by decide)

end PunksBids
