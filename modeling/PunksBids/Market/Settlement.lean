import PunksBids.Market.Externals
import PunksBids.Matching.Criterion

/-!
# A match, all in one

With WETH9 and the marketplace in place a match makes no call that is still open: it reverts, or it
returns in a world that `Filled` describes (`call_executeMatch_cases`).  A call of any other
function does not depend on these callees at all (`call_of_ne`), and its own code changes nothing
outside (`call_stretches`).
-/

set_option autoImplicit false

namespace PunksBids

open Evm OpenCalls

variable {Ω : Type}

/-- A world after the four calls of a match and its event. -/
def World.settled (w : World Ω) (sale : Sale) (ω : Ω) (e : Event) : World Ω where
  store := w.store
  balance := w.balance + sale.price - sale.punkPrice
  logs := w.logs ++ [e]
  outside := ω

/-- The sale parameters of a match that was accepted. -/
theorem Accepted.offer {net : Network Ω} {msg : Msg} {w : World Ω} {buy : Input}
    {punkIndex : Uint256} {sale : Sale} (h : Accepted net msg w buy punkIndex sale) :
    ∃ offer, net.punksOfferedForSale w.outside punkIndex = some offer ∧
      sale.punkPrice = offer.minValue.toNat ∧ sale.seller = offer.seller ∧
      sale.punkPrice ≤ sale.price ∧ sale.price ≤ buy.bid.amount.toNat := by
  obtain ⟨offer, hoffer, -, -, hprice, hle, hpunk, hseller⟩ :=
    canBuyPunk_eq_ok.mp (canBuyPunk_of_canMatch h.matched)
  exact ⟨offer, hoffer, hpunk, hseller, hpunk ▸ punkPrice_le_price hprice, hle⟩

namespace Externals

variable {env : Externals Ω} {net : Network Ω} {msg : Msg} {buy : Input} {punkIndex : Uint256}
  {sale sale' : Sale} {bidHash : Bytes32} {w w' t t' : World Ω} {ω : Ω}

/-! ## The four calls -/

/-- **The four calls go through** if each callee agrees and the money suffices. -/
theorem resolve_settle_of (h : env.Settles net buy.bid.bidder punkIndex sale w.outside ω)
    (hfunded : sale.punkPrice ≤ w.balance + sale.price) :
    (settle net buy punkIndex bidHash sale w).resolve env.answer =
      .ret () (w.settled sale ω
        (.bidMatched buy.bid.bidder sale.seller buy.bid sale.price bidHash)) := by
  obtain ⟨ω₁, ω₂, ω₃, h₁, h₂, h₃, h₄⟩ := h
  let w₁ : World Ω := { w with outside := ω₁ }
  let w₂ : World Ω := { w with balance := w.balance + sale.price, outside := ω₂ }
  let w₃ : World Ω := { w with balance := w.balance + sale.price - sale.punkPrice, outside := ω₃ }
  let w₄ : World Ω := { w with balance := w.balance + sale.price - sale.punkPrice, outside := ω }
  have hfunded' : sale.punkPrice ≤ w₂.balance := hfunded
  simp only [settle, executeWETHTransfer, executeBuyPunk, bind_assoc]
  rw [resolve_callOrRevert_some w₁ rfl (by simp [h₁, w₁]),
    resolve_callOrRevert_some w₂ rfl (by simp [h₂, w₁, w₂]), callWithValue_bind,
    if_pos hfunded', resolve_callOrRevert_some w₃ rfl (by simp [h₃, w₂, w₃, World.send]),
    resolve_callOrRevert_some w₄ rfl (by simp [h₄, w₃, w₄])]
  rfl

/-- If not, the match reverts. -/
theorem resolve_settle_of_not
    (h : ∀ ω, env.Settles net buy.bid.bidder punkIndex sale w.outside ω →
      ¬ sale.punkPrice ≤ w.balance + sale.price) :
    ∃ e, (settle net buy punkIndex bidHash sale w).resolve env.answer = .revert e := by
  simp only [settle, executeWETHTransfer, executeBuyPunk, bind_assoc]
  cases h₁ : env.transferFrom buy.bid.bidder net.self sale.price w.outside with
  | none => exact ⟨_, resolve_callOrRevert_none rfl (by simp [h₁])⟩
  | some ω₁ =>
  let w₁ : World Ω := { w with outside := ω₁ }
  rw [resolve_callOrRevert_some w₁ rfl (by simp [h₁, w₁])]
  cases h₂ : env.withdraw sale.price ω₁ with
  | none => exact ⟨_, resolve_callOrRevert_none rfl (by simp [h₂, w₁])⟩
  | some ω₂ =>
  let w₂ : World Ω := { w with balance := w.balance + sale.price, outside := ω₂ }
  rw [resolve_callOrRevert_some w₂ rfl (by simp [h₂, w₁, w₂]), callWithValue_bind]
  by_cases hfunded : sale.punkPrice ≤ w₂.balance
  swap
  · exact ⟨_, by rw [if_neg hfunded]; rfl⟩
  rw [if_pos hfunded]
  cases h₃ : env.buyPunk punkIndex sale.punkPrice ω₂ with
  | none => exact ⟨_, resolve_callOrRevert_none rfl (by simp [h₃, w₂, World.send])⟩
  | some ω₃ =>
  let w₃ : World Ω := { w with balance := w.balance + sale.price - sale.punkPrice, outside := ω₃ }
  rw [resolve_callOrRevert_some w₃ rfl (by simp [h₃, w₂, w₃, World.send])]
  cases h₄ : env.transferPunk buy.bid.bidder punkIndex ω₃ with
  | none => exact ⟨_, resolve_callOrRevert_none rfl (by simp [h₄, w₃])⟩
  | some ω₄ => exact absurd hfunded (h ω₄ ⟨ω₁, ω₂, ω₃, h₁, h₂, h₃, h₄⟩)

/-! ## A whole match -/

theorem Settles.unique {bidder : Address} {ω₀ ω ω' : Ω}
    (h : env.Settles net bidder punkIndex sale ω₀ ω)
    (h' : env.Settles net bidder punkIndex sale ω₀ ω') : ω = ω' := by
  obtain ⟨ω₁, ω₂, ω₃, h₁, h₂, h₃, h₄⟩ := h
  obtain ⟨ω₁', ω₂', ω₃', h₁', h₂', h₃', h₄'⟩ := h'
  obtain rfl := Option.some_inj.mp (h₁.symm.trans h₁')
  obtain rfl := Option.some_inj.mp (h₂.symm.trans h₂')
  obtain rfl := Option.some_inj.mp (h₃.symm.trans h₃')
  exact Option.some_inj.mp (h₄.symm.trans h₄')

/-- A match has one outcome. -/
theorem Filled.unique (h : env.Filled net msg buy punkIndex sale w t)
    (h' : env.Filled net msg buy punkIndex sale' w t') : sale = sale' ∧ t = t' := by
  obtain rfl : sale = sale' := Except.ok.inj (h.accepted.matched.symm.trans h'.accepted.matched)
  refine ⟨rfl, ?_⟩
  ext1
  · rw [h.store, h'.store]
  · rw [h.balance, h'.balance]
  · rw [h.logs, h'.logs]
  · exact h.settles.unique h'.settles

/-- **A match either is filled or reverts.** -/
theorem call_executeMatch_cases (env : Externals Ω) (net : Network Ω) (msg : Msg) (buy : Input)
    (punkIndex : Uint256) (w : World Ω) :
    (∃ sale t, env.Filled net msg buy punkIndex sale w t ∧
      env.call net ⟨msg, .executeMatch buy punkIndex⟩ w = .ret () t) ∨
    (∃ e, env.call net ⟨msg, .executeMatch buy punkIndex⟩ w = .revert e) ∧
      ∀ sale t, ¬ env.Filled net msg buy punkIndex sale w t := by
  have hcall : env.call net ⟨msg, .executeMatch buy punkIndex⟩ w =
      (executeMatch net msg buy punkIndex w).resolve env.answer := rfl
  rw [hcall]
  rcases executeMatch_cases net msg buy punkIndex w with ⟨sale, hacc, hrun⟩ | ⟨⟨e, hrev⟩, hno⟩
  swap
  · exact .inr ⟨⟨e, by rw [hrev]; rfl⟩, fun sale t h ↦ hno sale h.accepted⟩
  rw [hrun]
  by_cases hok : (∃ ω, env.Settles net buy.bid.bidder punkIndex sale w.outside ω) ∧
      sale.punkPrice ≤ w.balance + sale.price
  · obtain ⟨⟨ω, hω⟩, hfunded⟩ := hok
    refine .inl ⟨sale, _, ?_, resolve_settle_of (w := w.withStore _) hω hfunded⟩
    exact ⟨hacc, hω, hfunded, rfl, rfl, rfl⟩
  · refine .inr ⟨resolve_settle_of_not (w := w.withStore _) fun ω hω hle ↦ hok ⟨⟨ω, hω⟩, hle⟩, ?_⟩
    intro sale' t h
    obtain rfl : sale' = sale := Except.ok.inj (h.accepted.matched.symm.trans hacc.matched)
    exact hok ⟨⟨_, h.settles⟩, h.funded⟩

theorem call_executeMatch_eq_ret :
    env.call net ⟨msg, .executeMatch buy punkIndex⟩ w = .ret () t ↔
      ∃ sale, env.Filled net msg buy punkIndex sale w t := by
  rcases call_executeMatch_cases env net msg buy punkIndex w with
    ⟨sale, t', h, hret⟩ | ⟨⟨e, hrev⟩, hno⟩
  · rw [hret]
    constructor
    · intro ht
      cases ht
      exact ⟨sale, h⟩
    · rintro ⟨sale', h'⟩
      rw [(h.unique h').2]
  · rw [hrev]
    constructor
    · intro ht
      cases ht
    · rintro ⟨sale, h⟩
      exact absurd h (hno sale t)

/-! ## The other functions -/

/-- `withdrawFees` calls nobody but the recipient of the fees. -/
theorem resolve_withdrawFees (recipient : Address) :
    (withdrawFees msg recipient w).resolve env.answer = withdrawFees msg recipient w := by
  rw [withdrawFees, onlyOwner, bind_assoc, Tx.storage_bind]
  by_cases ho : w.store.owner = msg.sender
  · rw [Tx.require_bind_of ho, Prog.get_bind, callWithValue_bind]
    split
    · rw [Tx.callOrRevert, bind_assoc, Run.resolve_call_open rfl]
      exact Prog.call_bind_congr _ (fun _ ↦ rfl) rfl
    · rfl
  · rw [Tx.require_bind_of_not ho]
    rfl

/-- **Only a match depends on WETH9 and the marketplace.** -/
theorem call_of_ne {c : Call} (h : ∀ buy punkIndex, c.op ≠ .executeMatch buy punkIndex) :
    env.call net c w = PunksBids.call net c w := by
  change (PunksBids.call net c w).resolve env.answer = _
  by_cases hop : c.op.callsOut = true
  · obtain ⟨msg, op⟩ := c
    cases op with
    | executeMatch buy punkIndex => exact absurd rfl (h buy punkIndex)
    | withdrawFees recipient => exact resolve_withdrawFees recipient
    | _ => simp [Op.callsOut] at hop
  · rcases call_finishes net c w (by simpa using hop) with ⟨t, -, hret⟩ | ⟨e, hrev⟩
    · rw [hret]
      rfl
    · rw [hrev]
      rfl

/-! ## Runs -/

/-- **What a call that returned has done**: it is a match that was filled, a withdrawal, or a single
step of its own code. -/
theorem trace_call_cases {c : Call} {callee : Ext → World Ω → Option (World Ω × Trace Ω)}
    {es : Trace Ω} (h : (env.call net c w).trace c callee w = some (t, es)) :
    (∃ msg buy punkIndex sale, c = ⟨msg, .executeMatch buy punkIndex⟩ ∧
      env.Filled net msg buy punkIndex sale w t ∧ es = [.own c w t]) ∨
    (∃ msg recipient w' es', c = ⟨msg, .withdrawFees recipient⟩ ∧ w.store.owner = msg.sender ∧
      callee (.pay recipient w.balance) (w.send w.balance) = some (w', es') ∧
      t = w'.log (.feesWithdrawn recipient w.balance) ∧
      es = .own c w (w.send w.balance) :: (es' ++ [.own c w' t])) ∨
    c.op.callsOut = false ∧ OwnStep net c w t ∧ PunksBids.call net c w = .ret () t ∧
      es = [.own c w t] := by
  obtain ⟨msg, op⟩ := c
  by_cases hop : op.callsOut = true
  swap
  · right; right
    have hop : op.callsOut = false := by simpa using hop
    have hne : ∀ buy punkIndex, op ≠ .executeMatch buy punkIndex := by
      rintro buy punkIndex rfl
      simp [Op.callsOut] at hop
    rw [call_of_ne hne] at h
    rcases call_finishes net ⟨msg, op⟩ w hop with ⟨t', hstep, hret⟩ | ⟨e, hrev⟩
    swap
    · simp [hrev] at h
    rw [hret, trace_ret, Option.some_inj, Prod.mk.injEq] at h
    obtain ⟨rfl, rfl⟩ := h
    exact ⟨hop, hstep, hret, rfl⟩
  cases op with
  | executeMatch buy punkIndex =>
    rcases call_executeMatch_cases env net msg buy punkIndex w with
      ⟨sale, t', hfill, hret⟩ | ⟨⟨e, hrev⟩, -⟩
    swap
    · simp [hrev] at h
    rw [hret, trace_ret, Option.some_inj, Prod.mk.injEq] at h
    obtain ⟨rfl, rfl⟩ := h
    exact .inl ⟨msg, buy, punkIndex, sale, rfl, hfill, rfl⟩
  | withdrawFees recipient =>
    rw [call_of_ne (by simp)] at h
    obtain ⟨howner, w', es', hpay, rfl, rfl⟩ := trace_withdrawFees.mp h
    exact .inr (.inl ⟨msg, recipient, w', es', rfl, howner, hpay, rfl, rfl⟩)
  | _ => simp [Op.callsOut] at hop

/-- **Only a match changes what is outside.** -/
theorem call_stretches (env : Externals Ω) (net : Network Ω) (c : Call) (w : World Ω) :
    (env.call net c w).Stretches
      (fun u v ↦ (∃ buy punkIndex sale, c.op = .executeMatch buy punkIndex ∧
        env.Filled net c.msg buy punkIndex sale u v) ∨ v.outside = u.outside) w := by
  by_cases hop : ∃ buy punkIndex, c.op = .executeMatch buy punkIndex
  · obtain ⟨msg, op⟩ := c
    obtain ⟨buy, punkIndex, rfl⟩ := hop
    rcases call_executeMatch_cases env net msg buy punkIndex w with
      ⟨sale, t, h, hret⟩ | ⟨⟨e, hrev⟩, -⟩
    · rw [hret]
      exact .inl ⟨buy, punkIndex, sale, rfl, h⟩
    · rw [hrev]
      trivial
  · rw [call_of_ne fun buy punkIndex h ↦ hop ⟨buy, punkIndex, h⟩]
    exact (PunksBids.call_stretches net c w).mono fun u v h ↦ .inr h.outside

/-- A match is a single stretch. -/
theorem Runs.returned_of_own {x : Behaviour Ω} {es : Trace Ω} (h : env.Runs net x w t es)
    {u v : World Ω} (hmem : .own ⟨msg, .executeMatch buy punkIndex⟩ u v ∈ es) :
    .returned ⟨msg, .executeMatch buy punkIndex⟩ u v ∈ es := by
  refine Script.exec_returned_of_own (fun s ↦ ?_) x h hmem
  rcases call_executeMatch_cases env net msg buy punkIndex s with ⟨_, t, -, hret⟩ | ⟨hrev, -⟩
  · exact .inl ⟨t, hret⟩
  · exact .inr hrev

/-- A match on its own is a run. -/
theorem Filled.runs (h : env.Filled net msg buy punkIndex sale w t) :
    let c : Call := ⟨msg, .executeMatch buy punkIndex⟩
    env.Runs net (plainMatch msg buy punkIndex) w t
      [.entered c w, .own c w t, .returned c w t] := by
  intro c
  have htrace : (env.call net c w).trace c
      (fun _ ↦ (Script.done : Behaviour Ω).exec (env.call net) Deed.run) w =
        some (t, [.own c w t]) := by
    rw [call_executeMatch_eq_ret.mpr ⟨sale, h⟩, trace_ret]
  exact Script.exec_call_done htrace

/-- A match that returned was filled. -/
theorem Runs.filled {x : Behaviour Ω} {es : Trace Ω} (h : env.Runs net x w t es) {u v : World Ω}
    (hmem : .returned ⟨msg, .executeMatch buy punkIndex⟩ u v ∈ es) :
    ∃ sale, env.Filled net msg buy punkIndex sale u v := by
  let T (c : Call) (u v : World Ω) : Prop := ∀ buy punkIndex, c.op = .executeMatch buy punkIndex →
    ∃ sale, env.Filled net c.msg buy punkIndex sale u v
  have hcall : ∀ (c : Call) (callee : Ext → World Ω → Option (World Ω × Trace Ω)) u v es,
      (env.call net c u).trace c callee u = some (v, es) → T c u v := by
    intro c callee u v es ht buy punkIndex hop
    rcases trace_call_cases ht with ⟨msg, buy', punkIndex', sale, rfl, hfill, -⟩ |
      ⟨_, _, _, _, rfl, -⟩ | ⟨hout, -⟩
    · cases hop
      exact ⟨sale, hfill⟩
    · cases hop
    · simp [hop, Op.callsOut] at hout
  exact Script.exec_returned_call (T := T) hcall x h hmem _ _ rfl

end Externals

end PunksBids
