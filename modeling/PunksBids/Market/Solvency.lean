import PunksBids.Market.Bazaar

/-!
# Where the ETH of the contract comes from

The contract does not keep a balance, it has one.  Every entry of a trace changes it by a known
amount: a match adds the difference between the price and what the Punk costs, a deposit its value,
a withdrawal takes what there is.  The recipient of a withdrawal may do anything while it is being
paid; its own calls are entries like any others, and since the amount is what the balance was
before, the sums still agree (`Balanced`).
-/

set_option autoImplicit false

namespace PunksBids

open Evm OpenCalls

variable {Ω : Type} {env : Externals Ω} {net : Network Ω}

/-! ## The sums -/

/-- The fee of a match that returned. -/
def fee (net : Network Ω) : Entry Call (Deed Ω) (World Ω) → Nat
  | .returned ⟨msg, .executeMatch buy punkIndex⟩ pre _ =>
    match canMatchBidAndPunk net msg.memory pre.store pre.outside buy.bid punkIndex with
    | .ok sale => sale.price - sale.punkPrice
    | .error _ => 0
  | _ => 0

/-- The ETH that reached the contract other than by unwrapping: with a call, or forced. -/
def deposited : Entry Call (Deed Ω) (World Ω) → Nat
  | .returned c _ _ => c.op.value
  | .other d _ _ => d.forced
  | _ => 0

/-- The amount of a withdrawal that returned. -/
def withdrawn : Entry Call (Deed Ω) (World Ω) → Nat
  | .returned ⟨_, .withdrawFees _⟩ pre _ => pre.balance
  | _ => 0

/-- The sum over the entries of a trace. -/
def total (f : Entry Call (Deed Ω) (World Ω) → Nat) (es : Trace Ω) : Nat := (es.map f).sum

@[simp] theorem total_nil (f : Entry Call (Deed Ω) (World Ω) → Nat) : total f [] = 0 := rfl

@[simp] theorem total_cons (f : Entry Call (Deed Ω) (World Ω) → Nat)
    (e : Entry Call (Deed Ω) (World Ω)) (es : Trace Ω) : total f (e :: es) = f e + total f es := by
  simp [total]

@[simp] theorem total_append (f : Entry Call (Deed Ω) (World Ω) → Nat) (es es' : Trace Ω) :
    total f (es ++ es') = total f es + total f es' := by
  simp [total]

/-! ## The balance -/

/-- The balance has changed by what came and went, and no match has lowered it. -/
structure Balanced (net : Network Ω) (s : World Ω) (es : Trace Ω) (t : World Ω) : Prop where
  sum : t.balance + total withdrawn es = s.balance + total (fee net) es + total deposited es
  matches_raise : ∀ msg buy punkIndex u v,
    .returned ⟨msg, .executeMatch buy punkIndex⟩ u v ∈ es → u.balance ≤ v.balance

theorem balanced_closed : TraceClosed (Balanced net) where
  nil s := ⟨rfl, by simp⟩
  append h h' := by
    refine ⟨?_, fun msg buy punkIndex u v hmem ↦ ?_⟩
    · have hs := h.sum
      have hs' := h'.sum
      simp only [total_append]
      omega
    · rcases List.mem_append.mp hmem with hmem | hmem
      · exact h.matches_raise msg buy punkIndex u v hmem
      · exact h'.matches_raise msg buy punkIndex u v hmem

theorem OwnStep.balance {c : Call} {w t : World Ω} (h : OwnStep net c w t)
    (hop : c.op.callsOut = false) : t.balance = w.balance + c.op.value := by
  cases h with
  | pass hop' => simp [hop'] at hop
  | accept hop' => simp [hop', Op.callsOut] at hop
  | send hop' => simp [hop'] at hop
  | report hop' => simp [hop'] at hop
  | cancel hop' hc =>
    have hv : c.op.value = 0 := by
      rcases hop' with hop' | ⟨bid, hop', -⟩ <;> rw [hop'] <;> rfl
    obtain ⟨-, -, -, -, hb, -⟩ := hc.store
    rw [hb, hv, Nat.add_zero]
  | nonce hop' =>
    rw [hop']
    rfl
  | admin _ _ _ _ hv =>
    rw [hv]
    rfl
  | receive hop' =>
    rw [hop']
    rfl

namespace Externals

/-- The fee of a match is the price without the cost of the Punk. -/
theorem Filled.fee_eq {msg : Msg} {buy : Input} {punkIndex : Uint256} {sale : Sale} {w t : World Ω}
    (h : env.Filled net msg buy punkIndex sale w t) :
    fee net (.returned ⟨msg, .executeMatch buy punkIndex⟩ w t) = sale.price - sale.punkPrice := by
  simp only [fee, h.accepted.matched]

/-- **A call balances if its callees do.** -/
theorem call_balanced {c : Call} {callee : Ext → World Ω → Option (World Ω × Trace Ω)}
    (hcallee : ∀ k s t es, callee k s = some (t, es) → Balanced net s es t) {w t : World Ω}
    {es : Trace Ω} (h : (env.call net c w).trace c callee w = some (t, es)) :
    Balanced net w (.entered c w :: (es ++ [.returned c w t])) t := by
  rcases trace_call_cases h with ⟨msg, buy, punkIndex, sale, rfl, hfill, rfl⟩ |
    ⟨msg, recipient, w', es', rfl, -, hpay, rfl, rfl⟩ | ⟨hop, hstep, -, rfl⟩
  · have hb := hfill.balance
    obtain ⟨-, -, -, -, hle, -⟩ := hfill.accepted.offer
    refine ⟨?_, ?_⟩
    · simp only [total_cons, total_append, total_nil, hfill.fee_eq]
      simp [fee, deposited, withdrawn, Op.value]
      omega
    · intro msg' buy' punkIndex' u v hmem
      simp at hmem
      obtain ⟨-, rfl, rfl⟩ := hmem
      omega
  · have hin := hcallee _ _ _ _ hpay
    have hsum := hin.sum
    refine ⟨?_, ?_⟩
    · simp [fee, deposited, withdrawn, Op.value, World.send, World.log] at hsum ⊢
      omega
    · intro msg' buy punkIndex u v hmem
      simp at hmem
      exact hin.matches_raise _ _ _ _ _ hmem
  · have hb := hstep.balance hop
    obtain ⟨msg, op⟩ := c
    refine ⟨?_, ?_⟩
    · cases op <;> simp_all [fee, deposited, withdrawn, Op.callsOut]
    · intro msg' buy punkIndex u v hmem
      simp only [List.cons_append, List.nil_append, List.mem_cons, reduceCtorEq, false_or,
        Entry.returned.injEq, Call.mk.injEq, List.not_mem_nil, or_false] at hmem
      obtain ⟨⟨-, rfl⟩, -⟩ := hmem
      simp [Op.callsOut] at hop

theorem Runs.balanced {x : Behaviour Ω} {w t : World Ω} {es : Trace Ω}
    (h : env.Runs net x w t es) : Balanced net w es t := by
  refine Script.exec_induct balanced_closed (fun d s ↦ ?_) (fun c callee hk s t es ht ↦ ?_) x h
  · refine ⟨?_, by simp⟩
    simp [fee, deposited, withdrawn, Deed.run]
  · exact call_balanced hk ht

/-- A withdrawal that returned has logged its amount. -/
theorem Runs.feesWithdrawn {x : Behaviour Ω} {w t : World Ω} {es : Trace Ω}
    (h : env.Runs net x w t es) {msg : Msg} {recipient : Address} {u v : World Ω}
    (hmem : .returned ⟨msg, .withdrawFees recipient⟩ u v ∈ es) :
    .feesWithdrawn recipient u.balance ∈ v.logs := by
  let T (c : Call) (u v : World Ω) : Prop := ∀ recipient, c.op = .withdrawFees recipient →
    .feesWithdrawn recipient u.balance ∈ v.logs
  have hcall : ∀ (c : Call) (callee : Ext → World Ω → Option (World Ω × Trace Ω)) u v es,
      (env.call net c u).trace c callee u = some (v, es) → T c u v := by
    intro c callee u v es ht recipient hop
    rcases trace_call_cases ht with ⟨_, _, _, _, rfl, -⟩ | ⟨_, _, w', _, rfl, -, -, rfl, -⟩ |
      ⟨hout, -⟩
    · cases hop
    · cases hop
      simp [World.log]
    · simp [hop, Op.callsOut] at hout
  exact Script.exec_returned_call (T := T) hcall x h hmem _ rfl

/-- **Solvency.**  Over any run from the constructor, whoever is paid fees and whatever they do
then: the balance is what was there, plus the fees of all matches that returned, plus what was
deposited, less what was withdrawn; no match lowers it; and no more is ever withdrawn than came in
as fees and deposits. -/
theorem balance_is_fees_and_deposits (env : Externals Ω) (net : Network Ω) (chainid : Uint256)
    (deployer : Address) (balance : Nat) (ω : Ω) (x : Behaviour Ω) (t : World Ω) (es : Trace Ω)
    (h : env.Runs net x (deploy chainid net.self deployer balance ω) t es) :
    t.balance + total withdrawn es = balance + total (fee net) es + total deposited es ∧
    (∀ msg buy punkIndex u v, .returned ⟨msg, .executeMatch buy punkIndex⟩ u v ∈ es →
      u.balance ≤ v.balance ∧ ∃ offer price,
        net.punksOfferedForSale u.outside punkIndex = some offer ∧
        .bidMatched buy.bid.bidder offer.seller buy.bid price (u.store.bidHash buy.bid) ∈ v.logs ∧
        fee net (.returned ⟨msg, .executeMatch buy punkIndex⟩ u v) =
          price - offer.minValue.toNat ∧ offer.minValue.toNat ≤ price) ∧
    (∀ msg recipient u v, .returned ⟨msg, .withdrawFees recipient⟩ u v ∈ es →
      .feesWithdrawn recipient u.balance ∈ v.logs) ∧
    total withdrawn es ≤ balance + total (fee net) es + total deposited es := by
  have hsum : t.balance + total withdrawn es = balance + total (fee net) es + total deposited es :=
    h.balanced.sum
  refine ⟨hsum, fun msg buy punkIndex u v hmem ↦ ?_, fun _ _ _ _ hmem ↦ h.feesWithdrawn hmem,
    by omega⟩
  obtain ⟨sale, hfill⟩ := h.filled hmem
  obtain ⟨offer, hoffer, hpunk, hseller, hle, -⟩ := hfill.accepted.offer
  refine ⟨h.balanced.matches_raise _ _ _ _ _ hmem, offer, sale.price, hoffer, ?_, ?_, hpunk ▸ hle⟩
  · rw [hfill.logs, ← hseller]
    simp
  · rw [hfill.fee_eq, hpunk]

/-- The fee for the Punk 5 stays with the contract. -/
theorem balance_is_fees_and_deposits_fair :
    ∃ t es, bazaar.Runs bazaarNetwork (plainMatch fairMsg (fairInput 0) 5) fairWorld t es ∧
      t.balance = 10 := by
  obtain ⟨t, hfill⟩ := filled_fairWorld 0
  refine ⟨t, _, hfill.runs, ?_⟩
  have hsum := (balance_is_fees_and_deposits bazaar bazaarNetwork 1 7 0 fair _ t _ hfill.runs).1
  simp only [total_cons, total_nil, hfill.fee_eq] at hsum
  simpa [fee, deposited, withdrawn, Op.value] using hsum

end Externals

end PunksBids
