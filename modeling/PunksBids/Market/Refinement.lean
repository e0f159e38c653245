import PunksBids.Market.Settlement

/-!
# The market is one of many outsides

What is proved of `Runs` holds whatever the callees do, so it must hold with WETH9 and the
marketplace in place.  `Externals.Runs.imitated` says so: every run of the contract with these
callees is a run of the contract among arbitrary ones, to the same world and with the same calls.
The script of the second run is that of the first with the four callees of each match written out,
each as a deed that leaves the outside as the callee does (`matchCallees`).

So what holds of the storage and the log at the end of any run, or of any call that returned in it,
holds here too; the domain separator, the nonce of an account that calls nothing and the entries of
the log are taken over in this way.
-/

set_option autoImplicit false

namespace PunksBids

open Evm OpenCalls

variable {Ω : Type} {env : Externals Ω} {net : Network Ω}

/-- A callee that sends `value` and leaves the outside as `ω`. -/
def leave (ω : Ω) (value : Nat) : Behaviour Ω := .act ⟨fun _ ↦ ω, value⟩ .done

/-- The callees of a match that leave one state of the outside after the other. -/
def matchCallees (ω₁ ω₂ ω₃ ω₄ : Ω) : Ext → Behaviour Ω
  | .transferFrom _ _ _ => leave ω₁ 0
  | .withdraw amount => leave ω₂ amount
  | .buyPunk _ _ => leave ω₃ 0
  | .transferPunk _ _ => leave ω₄ 0
  | .pay _ _ => .fail

namespace Externals

/-- **A match that is filled can be filled by callees that know nothing.** -/
theorem Filled.imitated {msg : Msg} {buy : Input} {punkIndex : Uint256} {sale : Sale}
    {w t : World Ω} (h : env.Filled net msg buy punkIndex sale w t) :
    let c : Call := ⟨msg, .executeMatch buy punkIndex⟩
    ∃ (callees : Ext → Behaviour Ω) (es : Trace Ω),
      (PunksBids.call net c w).trace c
        (fun k ↦ (callees k).exec (PunksBids.call net) Deed.run) w = some (t, es) ∧
      calls es = [] := by
  intro c
  obtain ⟨ω₁, ω₂, ω₃, -⟩ := h.settles
  rcases executeMatch_cases net msg buy punkIndex w with ⟨sale', hacc, hrun⟩ | ⟨-, hno⟩
  swap
  · exact absurd h.accepted (hno sale)
  obtain rfl : sale' = sale := Except.ok.inj (hacc.matched.symm.trans h.accepted.matched)
  have hend : t = (w.withStore (Store.flag (w.store.bidHash buy.bid))).settled sale' t.outside
      (.bidMatched buy.bid.bidder sale'.seller buy.bid sale'.price (w.store.bidHash buy.bid)) :=
    World.ext h.store h.balance h.logs rfl
  have hcall : PunksBids.call net c w = settle net buy punkIndex (w.store.bidHash buy.bid) sale'
      (w.withStore (Store.flag (w.store.bidHash buy.bid))) := hrun
  rw [hcall]
  exact ⟨matchCallees ω₁ ω₂ ω₃ t.outside, _, trace_settle.mpr ⟨_, _, _, _, _, _, _, _, rfl, rfl,
    h.funded, rfl, rfl, hend, rfl⟩, rfl⟩

/-- A call with these callees can be imitated by a call with others. -/
theorem call_imitated (c : Call) {callee : Ext → World Ω → Option (World Ω × Trace Ω)}
    (hcallee : ∀ k s t es, callee k s = some (t, es) →
      Imitated (PunksBids.call net) Deed.run s es t) {w t : World Ω} {es : Trace Ω}
    (h : (env.call net c w).trace c callee w = some (t, es)) :
    ∃ (callees : Ext → Behaviour Ω) (es' : Trace Ω),
      (PunksBids.call net c w).trace c
        (fun k ↦ (callees k).exec (PunksBids.call net) Deed.run) w = some (t, es') ∧
      calls es' = calls es := by
  rcases trace_call_cases h with ⟨msg, buy, punkIndex, sale, rfl, hfill, rfl⟩ |
    ⟨msg, recipient, w', es', rfl, howner, hpay, rfl, rfl⟩ | ⟨-, -, hret, rfl⟩
  · exact hfill.imitated
  · obtain ⟨y, es₁, hy, hcalls⟩ := hcallee _ _ _ _ hpay
    refine ⟨fun _ ↦ y, _, trace_withdrawFees.mpr ⟨howner, w', es₁, hy, rfl, rfl⟩, ?_⟩
    simp [hcalls]
  · exact ⟨fun _ ↦ .done, [.own c w t], by rw [hret, trace_ret], rfl⟩

/-- **Refinement**: a run with these callees is a run with arbitrary ones. -/
theorem Runs.imitated {x : Behaviour Ω} {w t : World Ω} {es : Trace Ω}
    (h : env.Runs net x w t es) :
    ∃ y es', PunksBids.Runs net y w t es' ∧ calls es' = calls es :=
  Script.exec_refine (fun c _ hcallee _ _ _ ht ↦ call_imitated c hcallee ht) x h

end Externals

end PunksBids
