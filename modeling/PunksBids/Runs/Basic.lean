import PunksBids.Contract.Steps

/-!
# Runs of the contract

A run is a script of calls and deeds, executed on a world: any callers, any block times, and in the
middle of `executeMatch` and `withdrawFees` any calls back to any depth.  `Runs net x w t es` says
that the script `x` takes `w` to `t` and leaves the entries `es`.  A world is `Reachable` if a run
from the constructor ends in it.

The facts here are the ones all later results share: what storage an `OwnStep` touches.
-/

set_option autoImplicit false

namespace PunksBids

open Evm OpenCalls

variable {Ω : Type}

/-- What callers, callees and everybody else do. -/
abbrev Behaviour (Ω : Type) := Script Call Ext (Deed Ω)

/-- What is left of a run. -/
abbrev Trace (Ω : Type) := List (Entry Call (Deed Ω) (World Ω))

/-- The behaviour `x` takes `w` to `t`, with the entries `es`. -/
def Runs (net : Network Ω) (x : Behaviour Ω) (w t : World Ω) (es : Trace Ω) : Prop :=
  x.exec (call net) Deed.run w = some (t, es)

/-- A world that the deployment on the chain `chainid` can come to. -/
def Reachable (net : Network Ω) (chainid : Uint256) (w : World Ω) : Prop :=
  ∃ deployer balance ω x es, Runs net x (deploy chainid net.self deployer balance ω) w es

/-- Surroundings in which nothing is for sale and no signature is valid. -/
def idleNetwork : Network Unit where
  self := 1
  ecrecover _ _ _ _ := 0
  punksOfferedForSale _ _ := none
  punkAttributes _ _ := none

/-- A message there. -/
def idleMsg : Msg where
  sender := 2
  timestamp := 100
  chainid := 1
  memory := ⟨{ byte := fun _ ↦ 0, free := 0x80 }, by decide⟩

variable {net : Network Ω} {c : Call} {w t : World Ω}

/-! ## What a step touches -/

theorem Cancels.store {msg : Msg} {bids : List Bid} (h : Cancels msg bids w t) :
    t.store.domainSeparator = w.store.domainSeparator ∧ t.store.nonces = w.store.nonces ∧
      t.store.feeRate = w.store.feeRate ∧ t.store.localFeeRate = w.store.localFeeRate ∧
      t.balance = w.balance ∧ t.outside = w.outside := by
  induction h with
  | nil w => exact ⟨rfl, rfl, rfl, rfl, rfl, rfl⟩
  | cons _ _ ih => exact ih

theorem OwnStep.domainSeparator (h : OwnStep net c w t) :
    t.store.domainSeparator = w.store.domainSeparator := by
  cases h with
  | cancel _ hc => exact hc.store.1
  | admin _ ha => exact ha.domainSeparator
  | _ => rfl

/-- The contract's own code changes nothing outside. -/
theorem OwnStep.outside (h : OwnStep net c w t) : t.outside = w.outside := by
  cases h with
  | cancel _ hc =>
    obtain ⟨-, -, -, -, -, hout⟩ := hc.store
    exact hout
  | _ => rfl

/-- **What no step loses is kept along a run**, if the outside's deeds do not lose it either. -/
theorem Runs.along {P : World Ω → World Ω → Prop} {x : Behaviour Ω} {es : Trace Ω}
    (h : Runs net x w t es) (hrefl : ∀ u, P u u) (htrans : ∀ {u v y}, P u v → P v y → P u y)
    (hdeed : ∀ (d : Deed Ω) u, P u (d.run u)) (hown : ∀ {c u v}, OwnStep net c u v → P u v) :
    Along P w es t :=
  Script.exec_along hrefl htrans hdeed
    (fun c u ↦ (call_stretches net c u).mono fun _ _ ↦ hown) x h

/-! ## The domain separator -/

/-- **The domain separator is the one of the constructor**, wherever the run has come. -/
theorem Runs.domainSeparator {x : Behaviour Ω} {es : Trace Ω} (h : Runs net x w t es) :
    t.store.domainSeparator = w.store.domainSeparator := by
  let P (u v : World Ω) : Prop := v.store.domainSeparator = u.store.domainSeparator
  have hdeed : ∀ (d : Deed Ω) (u : World Ω), P u (d.run u) := fun _ _ ↦ rfl
  exact (h.along (P := P) (fun _ ↦ rfl) (fun h h' ↦ h'.trans h) hdeed
    OwnStep.domainSeparator).whole

theorem Reachable.domainSeparator {chainid : Uint256} (h : Reachable net chainid w) :
    w.store.domainSeparator = hashDomain (deploymentDomain chainid net.self) := by
  obtain ⟨deployer, balance, ω, x, es, h⟩ := h
  exact h.domainSeparator

/-! ## The fee rates -/

/-- No fee rate is above `MAX_FEE_RATE`. -/
structure RatesBounded (store : Store) : Prop where
  feeRate : store.feeRate.toNat ≤ maxFeeRate
  localFeeRate : store.localFeeRate.toNat ≤ maxFeeRate

theorem OwnStep.ratesBounded (h : OwnStep net c w t) (hw : RatesBounded w.store) :
    RatesBounded t.store := by
  cases h with
  | cancel _ hc =>
    obtain ⟨-, -, hfee, hlocal, -⟩ := hc.store
    exact ⟨hfee ▸ hw.feeRate, hlocal ▸ hw.localFeeRate⟩
  | admin _ ha =>
    refine ⟨?_, ?_⟩
    · exact ha.feeRate.elim (fun he ↦ he ▸ hw.feeRate) id
    · exact ha.localFeeRate.elim (fun he ↦ he ▸ hw.localFeeRate) id
  | _ => exact ⟨hw.feeRate, hw.localFeeRate⟩

theorem Runs.ratesBounded {x : Behaviour Ω} {es : Trace Ω} (h : Runs net x w t es)
    (hw : RatesBounded w.store) : RatesBounded t.store := by
  let P (u v : World Ω) : Prop := RatesBounded u.store → RatesBounded v.store
  have hdeed : ∀ (d : Deed Ω) (u : World Ω), P u (d.run u) := fun _ _ h ↦ h
  exact (h.along (P := P) (fun _ h ↦ h) (fun h h' ↦ h' ∘ h) hdeed OwnStep.ratesBounded).whole hw

theorem Reachable.ratesBounded {chainid : Uint256} (h : Reachable net chainid w) :
    RatesBounded w.store := by
  obtain ⟨deployer, balance, ω, x, es, h⟩ := h
  exact h.ratesBounded ⟨show 10 ≤ 100 by decide, show 5 ≤ 100 by decide⟩

theorem RatesBounded.currentFeeRate_le {store : Store} (h : RatesBounded store) (offer : Offer) :
    (currentFeeRate net store offer).toNat ≤ maxFeeRate := by
  rw [currentFeeRate]
  split
  · exact h.localFeeRate
  · exact h.feeRate

/-! ## Calls that returned -/

/-- A match that returned passed its checks, under the domain separator the run began with. -/
theorem Runs.returned_executeMatch {x : Behaviour Ω} {es : Trace Ω} (h : Runs net x w t es)
    {msg : Msg} {buy : Input} {punkIndex : Uint256} {p q : World Ω}
    (hmem : .returned ⟨msg, .executeMatch buy punkIndex⟩ p q ∈ es) :
    p.store.domainSeparator = w.store.domainSeparator ∧
      ∃ sale, Accepted net msg p buy punkIndex sale := by
  let I (u : World Ω) : Prop := u.store.domainSeparator = w.store.domainSeparator
  let T (c : Call) (u _v : World Ω) : Prop := ∀ buy punkIndex,
    c.op = .executeMatch buy punkIndex → ∃ sale, Accepted net c.msg u buy punkIndex sale
  have hdeed : ∀ (d : Deed Ω) (u : World Ω), I u → I (d.run u) := fun _ _ h ↦ h
  have hcall : ∀ (c : Call) (u : World Ω), (call net c u).Stretches (fun u v ↦ I u → I v) u :=
    fun c u ↦ (call_stretches net c u).mono fun _ _ h hI ↦ h.domainSeparator.trans hI
  have hT : ∀ (c : Call) (callee : Ext → World Ω → Option (World Ω × Trace Ω)) u v es,
      (call net c u).trace c callee u = some (v, es) → T c u v := by
    rintro ⟨msg, op⟩ callee u v es ht buy punkIndex rfl
    obtain ⟨sale, hacc, -⟩ := trace_executeMatch ht
    exact ⟨sale, hacc⟩
  obtain ⟨hI, hacc⟩ := Script.exec_returned (I := I) (T := T) hdeed hcall hT x h rfl hmem
  exact ⟨hI, hacc buy punkIndex rfl⟩

/-- A nonce that was incremented went up by one. -/
theorem Runs.returned_incrementNonce {x : Behaviour Ω} {es : Trace Ω} (h : Runs net x w t es)
    {msg : Msg} {p q : World Ω} (hmem : .returned ⟨msg, .incrementNonce⟩ p q ∈ es) :
    (q.store.nonces msg.sender).toNat = (p.store.nonces msg.sender).toNat + 1 := by
  let T (c : Call) (u v : World Ω) : Prop := c.op = .incrementNonce →
    (v.store.nonces c.msg.sender).toNat = (u.store.nonces c.msg.sender).toNat + 1
  have hT : ∀ (c : Call) (callee : Ext → World Ω → Option (World Ω × Trace Ω)) u v es,
      (call net c u).trace c callee u = some (v, es) → T c u v := by
    rintro ⟨msg, op⟩ callee u v es ht rfl
    have hfin : Finishes (fun v ↦ (v.store.nonces msg.sender).toNat =
        (u.store.nonces msg.sender).toNat + 1) (incrementNonce msg u) := by
      refine finishes_incrementNonce fun n hn ↦ ?_
      simpa [World.log, World.withStore, Store.setNonce] using hn
    change (incrementNonce msg u).trace _ callee u = _ at ht
    rcases hfin with ⟨v', hv, hret⟩ | ⟨e, hrev⟩
    · rw [hret, trace_ret, Option.some_inj, Prod.mk.injEq] at ht
      exact ht.1 ▸ hv
    · simp [hrev] at ht
  exact Script.exec_returned_call (T := T) hT x h hmem rfl

/-! ## A match, step by step -/

/-- What a match leaves in the trace: from `w` it comes to `w₀` and calls, its callees leave the
worlds `w₁` to `w₄`, a value is sent between the second and the third, and it returns in `t`. -/
def matchTrace (c : Call) (w w₀ w₁ w₂ w₂' w₃ w₄ t : World Ω) (es₁ es₂ es₃ es₄ : Trace Ω) :
    Trace Ω :=
  .entered c w :: ((.own c w w₀ :: (es₁ ++ .own c w₁ w₁ :: (es₂ ++ .own c w₂ w₂' ::
    (es₃ ++ .own c w₃ w₃ :: (es₄ ++ [.own c w₄ t]))))) ++ [.returned c w t])

/-- A match that is accepted and whose callees return. -/
theorem runs_match {msg : Msg} {buy : Input} {punkIndex : Uint256} {sale : Sale}
    {callees : Ext → Behaviour Ω} {w w₁ w₂ w₃ w₄ : World Ω} {es₁ es₂ es₃ es₄ : Trace Ω}
    (h : Accepted net msg w buy punkIndex sale)
    (h₁ : Runs net (callees (.transferFrom buy.bid.bidder net.self sale.price))
      (w.withStore (Store.flag (w.store.bidHash buy.bid))) w₁ es₁)
    (h₂ : Runs net (callees (.withdraw sale.price)) w₁ w₂ es₂) (hle : sale.punkPrice ≤ w₂.balance)
    (h₃ : Runs net (callees (.buyPunk punkIndex sale.punkPrice)) (w₂.send sale.punkPrice) w₃ es₃)
    (h₄ : Runs net (callees (.transferPunk buy.bid.bidder punkIndex)) w₃ w₄ es₄) :
    let c : Call := ⟨msg, .executeMatch buy punkIndex⟩
    let t := w₄.log (.bidMatched buy.bid.bidder sale.seller buy.bid sale.price
      (w.store.bidHash buy.bid))
    Runs net (.call c callees .done) w t
      (matchTrace c w (w.withStore (Store.flag (w.store.bidHash buy.bid))) w₁ w₂
        (w₂.send sale.punkPrice) w₃ w₄ t es₁ es₂ es₃ es₄) := by
  intro c t
  rcases executeMatch_cases net msg buy punkIndex w with ⟨sale', h', hrun⟩ | ⟨-, hno⟩
  swap
  · exact absurd h (hno sale)
  obtain rfl : sale' = sale := Except.ok.inj (h'.matched.symm.trans h.matched)
  refine Script.exec_call_done ?_
  change (executeMatch net msg buy punkIndex w).trace c _ w = _
  rw [hrun]
  exact trace_settle.mpr ⟨_, _, _, _, _, _, _, _, h₁, h₂, hle, h₃, h₄, rfl, rfl⟩

/-- A match whose callees do nothing. -/
def plainMatch (msg : Msg) (buy : Input) (punkIndex : Uint256) : Behaviour Ω :=
  .call ⟨msg, .executeMatch buy punkIndex⟩ (fun _ ↦ .done) .done

/-- Its run: the flag is set, there is no other call, and no nonce moves. -/
theorem runs_plainMatch {msg : Msg} {w : World Ω} {buy : Input} {punkIndex : Uint256} {sale : Sale}
    (h : Accepted net msg w buy punkIndex sale) (hle : sale.punkPrice ≤ w.balance) :
    ∃ t es, Runs net (plainMatch msg buy punkIndex) w t es ∧
      .returned ⟨msg, .executeMatch buy punkIndex⟩ w t ∈ es ∧
      (∀ c p, .entered c p ∈ es → c.msg = msg) ∧
      t.store = w.store.flag (w.store.bidHash buy.bid) ∧
      ∀ c u v, .own c u v ∈ es → c = ⟨msg, .executeMatch buy punkIndex⟩ ∧
        u.store.nonces = w.store.nonces := by
  refine ⟨_, _, runs_match h rfl rfl hle rfl rfl, by simp [matchTrace], fun c p hmem ↦ ?_, rfl,
    fun c u v hmem ↦ ?_⟩
  · have hcp : c = ⟨msg, .executeMatch buy punkIndex⟩ ∧ p = w := by
      simpa [matchTrace] using hmem
    rw [hcp.1]
  · simp only [matchTrace, List.nil_append, List.cons_append, List.mem_cons, reduceCtorEq,
      Entry.own.injEq, List.not_mem_nil, or_false, false_or] at hmem
    rcases hmem with ⟨rfl, rfl, -⟩ | ⟨rfl, rfl, -⟩ | ⟨rfl, rfl, -⟩ | ⟨rfl, rfl, -⟩ | ⟨rfl, rfl, -⟩
    all_goals exact ⟨rfl, rfl⟩

end PunksBids
