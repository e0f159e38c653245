import PunksBids.Market.Exposure
import PunksBids.Matching.Verdict
import PunksBids.Runs.Isolation

/-!
# Orders stay open

A bid is signed once and may be matched much later, by anybody.  Whether it still can be is asked
here of a world at the end of a run: apart from the flag, everything that a match needs is something
that the bidder can look up (`Executable`), with the signature judged by the storage under which it
was made.  `call_executeMatch_iff` says that this is what a match needs, and
`orders_stay_open` that no run in which the bidder is silent can take the order off the market,
except by filling it.

Of the marketplace one more thing has to be known for that, when it sells (`SaleLaws`).
-/

set_option autoImplicit false

namespace PunksBids

open Evm OpenCalls StringUtils

variable {Ω : Type}

namespace Externals

section Laws

variable (env : Externals Ω) (net : Network Ω)

/-- The marketplace sells a Punk for its owner, to whom it is offered, for the value asked for or
more; and only the owner can give it away. -/
structure SaleLaws : Prop where
  buyPunk_iff : ∀ {punkIndex value ω offer}, net.punksOfferedForSale ω punkIndex = some offer →
    ((∃ ω', env.buyPunk punkIndex value ω = some ω') ↔
      offer.isForSale = true ∧ (offer.onlySellTo = 0 ∨ offer.onlySellTo = net.self) ∧
        offer.minValue.toNat ≤ value ∧ offer.seller = env.owner ω punkIndex)
  transferPunk_iff : ∀ {recipient punkIndex ω},
    (∃ ω', env.transferPunk recipient punkIndex ω = some ω') ↔ env.owner ω punkIndex = net.self

/-- The bidder can pay, and the one who is paid has the Punk. -/
structure Payable (bidder : Address) (punkIndex : Uint256) (sale : Sale) (ω : Ω) : Prop where
  affordable : sale.price ≤ env.balanceOf ω bidder
  allowed : env.Allows ω bidder sale.price
  owned : sale.seller = env.owner ω punkIndex

/-- What a match needs of the world `w` beside a clear flag, if the bid was signed under the
storage `st`. -/
structure Executable (msg : Msg) (st : Store) (w : World Ω) (buy : Input) (punkIndex : Uint256) :
    Prop where
  unpaused : w.store.paused = false
  bidder_ne_zero : buy.bid.bidder ≠ 0
  listed : buy.bid.listingTime < msg.timestamp
  unexpired : msg.timestamp < buy.bid.expirationTime
  signed : buy.bid.bidder = msg.sender ∨
    ECDSA.recover net.ecrecover (hashToSign st.domainSeparator (st.bidHash buy.bid))
      buy.v buy.r buy.s = .ok buy.bid.bidder
  payable : ∃ sale, canMatchVerdict net w.store w.outside buy.bid punkIndex = .ok sale ∧
    env.Payable buy.bid.bidder punkIndex sale w.outside

end Laws

variable {env : Externals Ω} {net : Network Ω} {msg : Msg} {buy : Input} {punkIndex : Uint256}
  {sale : Sale} {w t : World Ω} {ω ω' : Ω}

/-! ## When a match succeeds -/

/-- **The four calls of a match go through exactly if it is payable.** -/
theorem exists_settles_iff (hframe : env.FrameLaws net) (hweth : env.WethLaws net)
    (hmarket : env.MarketLaws net) (hlocal : env.LocalLaws net) (hsale : env.SaleLaws net)
    {store : Store} {bid : Bid} (hb : bid.bidder ≠ net.self)
    (hcan : canBuyPunk net store ω bid punkIndex = .ok sale) :
    (∃ ω', env.Settles net bid.bidder punkIndex sale ω ω') ↔
      env.Payable bid.bidder punkIndex sale ω := by
  obtain ⟨offer, hoffer, hfor, hto, -, -, hpunk, hseller⟩ := canBuyPunk_eq_ok.mp hcan
  constructor
  · rintro ⟨ω', ω₁, ω₂, ω₃, h₁, h₂, h₃, -⟩
    obtain ⟨hle, hallows⟩ := (hlocal.transferFrom_iff hb).mp ⟨ω₁, h₁⟩
    have hspare₁ := hframe.transferFrom h₁
    have hspare₂ := hframe.withdraw h₂
    have hoffer₂ : net.punksOfferedForSale ω₂ punkIndex = some offer := by
      rw [hspare₂.offers, hspare₁.offers, hoffer]
    obtain ⟨-, -, -, howner⟩ := (hsale.buyPunk_iff hoffer₂).mp ⟨ω₃, h₃⟩
    refine ⟨hle, hallows, ?_⟩
    rw [hseller, howner, hspare₂.owner, hspare₁.owner]
  · intro h
    -- Each callee agrees with what the one before has left.
    obtain ⟨ω₁, h₁⟩ := (hlocal.transferFrom_iff hb).mpr ⟨h.affordable, h.allowed⟩
    have hspare₁ := hframe.transferFrom h₁
    have hmoney : sale.price ≤ env.balanceOf ω₁ net.self := by
      rw [(hweth.transferFrom_balanceOf h₁).2]
      simp [moved]
    obtain ⟨ω₂, h₂⟩ := hlocal.withdraw_iff.mpr hmoney
    have hspare₂ := hframe.withdraw h₂
    have hoffer₂ : net.punksOfferedForSale ω₂ punkIndex = some offer := by
      rw [hspare₂.offers, hspare₁.offers, hoffer]
    have howner : offer.seller = env.owner ω₂ punkIndex := by
      rw [hspare₂.owner, hspare₁.owner, ← hseller, h.owned]
    obtain ⟨ω₃, h₃⟩ := (hsale.buyPunk_iff hoffer₂).mpr ⟨hfor, hto, Nat.le_of_eq hpunk.symm, howner⟩
    have hbought : env.owner ω₃ punkIndex = net.self := by
      rw [hmarket.buyPunk_owner h₃, Function.update_self]
    obtain ⟨ω₄, h₄⟩ := hsale.transferPunk_iff.mpr hbought
    exact ⟨ω₄, ω₁, ω₂, ω₃, h₁, h₂, h₃, h₄⟩

/-- **When a match succeeds.** -/
theorem call_executeMatch_iff (hframe : env.FrameLaws net) (hweth : env.WethLaws net)
    (hmarket : env.MarketLaws net) (hlocal : env.LocalLaws net) (hsale : env.SaleLaws net)
    (hb : buy.bid.bidder ≠ net.self) (hshort : ShortAttributes net w.outside punkIndex) :
    (∃ t, env.call net ⟨msg, .executeMatch buy punkIndex⟩ w = .ret () t) ↔
      w.store.cancelledOrFilled (w.store.bidHash buy.bid) = false ∧
        env.Executable net msg w.store w buy punkIndex := by
  have hmatch : canMatchBidAndPunk net msg.memory.val w.store w.outside buy.bid punkIndex =
      canMatchVerdict net w.store w.outside buy.bid punkIndex :=
    canMatchBidAndPunk_eq msg.memory.property hshort
  constructor
  · rintro ⟨t, ht⟩
    obtain ⟨sale, h⟩ := call_executeMatch_eq_ret.mp ht
    have hacc := h.accepted
    have hpay := (exists_settles_iff hframe hweth hmarket hlocal hsale hb
      (canBuyPunk_of_canMatch hacc.matched)).mp ⟨_, h.settles⟩
    exact ⟨hacc.unflagged, hacc.unpaused, hacc.bidder_ne_zero, hacc.listed, hacc.unexpired,
      hacc.signed, sale, hmatch ▸ hacc.matched, hpay⟩
  · rintro ⟨hflag, h⟩
    obtain ⟨sale, hm, hpay⟩ := h.payable
    have hacc : Accepted net msg w buy punkIndex sale := ⟨h.unpaused, h.bidder_ne_zero, hflag,
      h.listed, h.unexpired, h.signed, hmatch.trans hm⟩
    obtain ⟨ω', hω'⟩ := (exists_settles_iff hframe hweth hmarket hlocal hsale hb
      (canBuyPunk_of_canMatch hacc.matched)).mpr hpay
    obtain ⟨-, -, -, -, hle, -⟩ := hacc.offer
    rcases call_executeMatch_cases env net msg buy punkIndex w with ⟨_, t, -, ht⟩ | ⟨-, hno⟩
    · exact ⟨t, ht⟩
    · refine absurd ?_ (hno sale ((w.withStore (Store.flag (w.store.bidHash buy.bid))).settled sale
        ω' (.bidMatched buy.bid.bidder sale.seller buy.bid sale.price (w.store.bidHash buy.bid))))
      exact ⟨hacc, hω', Nat.le_add_left_of_le hle, rfl, rfl, rfl⟩

/-! ## While the bidder is silent -/

section Silent

variable {x : Behaviour Ω} {es : Trace Ω} {b : Bid}

/-- The nonce of an account that calls nothing. -/
theorem Runs.nonce_of_silent (h : env.Runs net x w t es) {a : Address}
    (hsilent : ∀ c p, .entered c p ∈ es → c.msg.sender ≠ a) :
    t.store.nonces a = w.store.nonces a := by
  obtain ⟨y, es', h', hcalls⟩ := h.imitated
  exact h'.nonce_of_silent fun c p hmem ↦ hsilent c p ((mem_iff_of_calls_eq hcalls rfl).mp hmem)

/-- In `es` a call raised the flag of `hash` with the bid `bid`, whose hash it is at the nonce `n`
that the bidder had. -/
def Raised (es : Trace Ω) (hash : Bytes32) (bid : Bid) (n : Uint256) : Prop :=
  hashBid bid n = hash ∧ ∃ c u v, .own c u v ∈ es ∧ c.Closes bid ∧
    u.store.nonces bid.bidder = n ∧ u.store.cancelledOrFilled hash = false ∧
    v.store.cancelledOrFilled hash = true

/-- **A flag that rose while the bidder was silent** is that of an order that was filled, or a
string hashed for it collides with one hashed for the bid that raised it. -/
theorem Runs.filled_of_flagged (h : env.Runs net x w t es)
    (hsilent : ∀ c p, .entered c p ∈ es → c.msg.sender ≠ b.bidder)
    (hw : w.store.cancelledOrFilled (w.store.bidHash b) = false)
    (ht : t.store.cancelledOrFilled (w.store.bidHash b) = true) :
    w.store.ticket b ∈ filledOrders b.bidder es ∨
      ∃ bid n, Raised es (w.store.bidHash b) bid n ∧
        Collision (bidMessages b (w.store.nonces b.bidder)) (bidMessages bid n) := by
  obtain ⟨c, u, v, hmem, hu, hv⟩ := exec_raised h hw ht
  obtain ⟨p, -, hin, -⟩ := Script.exec_called x h hmem
  obtain ⟨bid, hcloses, hhash⟩ : ∃ bid, c.Closes bid ∧ w.store.bidHash b = u.store.bidHash bid := by
    rcases Script.exec_own (call_steps env net) x h hmem with
      ⟨msg, buy, punkIndex, sale, rfl, hfill⟩ | ⟨-, hown⟩
    · exact ⟨buy.bid, .matched rfl rfl, Store.eq_of_flag hu (hfill.store ▸ hv)⟩
    · exact hown.culprit hu hv
  rcases hcloses.matched_or_collision (hsilent c p hin) hhash with
    ⟨buy, punkIndex, hop, rfl, hsame, hn⟩ | hcol
  · left
    obtain ⟨msg, op⟩ := c
    obtain rfl : op = .executeMatch buy punkIndex := hop
    have hticket : w.store.ticket b = u.store.ticket buy.bid := by
      rw [Store.ticket, Store.ticket, hn, ← hsame]
    rw [hticket, hsame.bidder_eq]
    exact ticket_mem_filledOrders hmem
  · exact .inr ⟨bid, _, ⟨hhash.symm, c, u, v, hmem, hcloses, rfl, hu, hv⟩, hcol⟩

end Silent

/-! ## The order book is open -/

/-- **Orders stay open.**  After a run in which the bidder made no call, whatever others did in it,
a match of an order that was open at the beginning succeeds exactly if it is executable and the
order has not been filled in the run, unless its flag was raised in the run with another bid and a
string hashed for the order collides with one hashed for that bid.  Whether it is executable is a
matter of the time, the caller being the bidder or having the signature of the beginning, the pause,
the fee rates, and the means of the bidder and the offer as they are now. -/
theorem orders_stay_open (env : Externals Ω) (net : Network Ω) (hframe : env.FrameLaws net)
    (hweth : env.WethLaws net) (hmarket : env.MarketLaws net) (hlocal : env.LocalLaws net)
    (hsale : env.SaleLaws net) (w t : World Ω) (x : Behaviour Ω) (es : Trace Ω)
    (h : env.Runs net x w t es) (buy : Input) (hb : buy.bid.bidder ≠ net.self)
    (hopen : w.store.cancelledOrFilled (w.store.bidHash buy.bid) = false)
    (hsilent : ∀ c p, .entered c p ∈ es → c.msg.sender ≠ buy.bid.bidder) (msg : Msg)
    (punkIndex : Uint256) (hshort : ShortAttributes net t.outside punkIndex) :
    ((∃ t', env.call net ⟨msg, .executeMatch buy punkIndex⟩ t = .ret () t') →
      env.Executable net msg w.store t buy punkIndex ∧
        w.store.ticket buy.bid ∉ filledOrders buy.bid.bidder es) ∧
    (env.Executable net msg w.store t buy punkIndex →
      w.store.ticket buy.bid ∉ filledOrders buy.bid.bidder es →
      (∃ t', env.call net ⟨msg, .executeMatch buy punkIndex⟩ t = .ret () t') ∨
        ∃ bid n, Raised es (w.store.bidHash buy.bid) bid n ∧
          Collision (bidMessages buy.bid (w.store.nonces buy.bid.bidder)) (bidMessages bid n)) := by
  have hhash : t.store.bidHash buy.bid = w.store.bidHash buy.bid := by
    rw [Store.bidHash, Store.bidHash, h.nonce_of_silent hsilent]
  have hdom : t.store.domainSeparator = w.store.domainSeparator := by
    obtain ⟨y, es', h', -⟩ := h.imitated
    exact h'.domainSeparator
  have hexec : env.Executable net msg t.store t buy punkIndex ↔
      env.Executable net msg w.store t buy punkIndex := by
    constructor
    · rintro ⟨hp, hne, hl, he, hs, hpay⟩
      exact ⟨hp, hne, hl, he, by rwa [hhash, hdom] at hs, hpay⟩
    · rintro ⟨hp, hne, hl, he, hs, hpay⟩
      exact ⟨hp, hne, hl, he, by rwa [hhash, hdom], hpay⟩
  rw [call_executeMatch_iff hframe hweth hmarket hlocal hsale hb hshort, hhash, hexec]
  constructor
  · rintro ⟨hflag, hex⟩
    refine ⟨hex, fun hfilled ↦ ?_⟩
    have hset := (h.spends hframe hweth hb).set _ hfilled
    rw [← Store.bidHash_eq, hflag] at hset
    exact Bool.false_ne_true hset
  · intro hex hno
    by_cases hflag : t.store.cancelledOrFilled (w.store.bidHash buy.bid) = true
    · exact .inr ((h.filled_of_flagged hsilent hopen hflag).resolve_left hno)
    · exact .inl ⟨(Bool.not_eq_true _).mp hflag, hex⟩

open Bazaar in
theorem bazaar_saleLaws : bazaar.SaleLaws bazaarNetwork where
  buyPunk_iff := by
    intro punkIndex value b offer hoffer
    obtain rfl := Option.some_inj.mp hoffer
    simp only [buyPunk_eq_some, exists_and_left, exists_eq', and_true]
    rfl
  transferPunk_iff := by
    intro recipient punkIndex b
    simp only [transferPunk_eq_some, exists_and_left, exists_eq', and_true]
    rfl

/-- A run of the theorem in which somebody else increments a nonce: the order can still be
filled. -/
theorem orders_stay_open_incrementNonce :
    ∃ t', bazaar.call bazaarNetwork ⟨fairMsg, .executeMatch (fairInput 0) 5⟩
      (fairWorld.report [.nonceIncremented 2 1]) = .ret () t' := by
  let t := fairWorld.report [.nonceIncremented 2 1]
  let c : Call := ⟨idleMsg, .incrementNonce⟩
  let es : Trace Bazaar := [.entered c fairWorld, .own c fairWorld t, .returned c fairWorld t]
  have hpermitted : Permitted bazaarNetwork fairWorld c := show 0 + 1 < wordSize by decide
  have hret : bazaar.call bazaarNetwork c fairWorld = .ret () t := by
    rw [call_of_ne (by simp [c])]
    exact call_of_permitted rfl hpermitted
  have htrace : (bazaar.call bazaarNetwork c fairWorld).trace c
      (fun _ ↦ (Script.done : Behaviour Bazaar).exec (bazaar.call bazaarNetwork) Deed.run)
        fairWorld = some (t, [.own c fairWorld t]) := by
    rw [hret, trace_ret]
  have hrun : bazaar.Runs bazaarNetwork (inTurn [c]) fairWorld t es := Script.exec_call_done htrace
  have hsilent : ∀ c' p, .entered c' p ∈ es → c'.msg.sender ≠ (fairInput 0).bid.bidder := by
    intro c' p hmem
    obtain ⟨rfl, -⟩ : c' = c ∧ p = fairWorld := by simpa [es] using hmem
    exact show (2 : Address) ≠ 3 by decide
  have hacc : Accepted bazaarNetwork fairMsg t (fairInput 0) 5 ⟨1000, 990, 4⟩ :=
    accepted_fairInput rfl rfl rfl ⟨rfl, rfl, rfl⟩ (validatePunkIndex_eq_ok.mp rfl)
  have hshort : ShortAttributes bazaarNetwork t.outside 5 := by
    rintro s hs
    obtain rfl : apeAttributes = s := Option.some_inj.mp hs
    decide
  have hpay : bazaar.Payable 3 5 ⟨1000, 990, 4⟩ t.outside :=
    ⟨show 1000 ≤ 2000 by decide, .inr (show 1000 ≤ (2000 : Uint256).toNat by decide), rfl⟩
  have hopen := (orders_stay_open bazaar bazaarNetwork bazaar_frameLaws bazaar_wethLaws
    bazaar_marketLaws bazaar_localLaws bazaar_saleLaws fairWorld t _ es hrun (fairInput 0)
    (by decide) rfl hsilent fairMsg 5 hshort).2
    ⟨hacc.unpaused, hacc.bidder_ne_zero, hacc.listed, hacc.unexpired, hacc.signed, _,
      (canMatchBidAndPunk_eq fairMsg.memory.property hshort).symm.trans hacc.matched, hpay⟩
    (by simp [es, filledOrders, c])
  refine hopen.resolve_right ?_
  -- The one call of the run closes no bid.
  rintro ⟨bid, n, ⟨-, c', u, v, hmem, hcloses, -⟩, -⟩
  obtain ⟨rfl, -⟩ : c' = c ∧ _ := by simpa [es] using hmem
  cases hcloses with
  | matched hop => cases hop
  | cancelled hmem => simp [c, Op.cancels] at hmem

end Externals

end PunksBids
