import PunksBids.Runs.Authority

/-!
# At most one outcome per bid

Flags and events are kept in step, but not at every moment: `executeMatch` sets the flag before its
external calls and logs the match after them, and whatever its callees do in between happens in a
world where the two disagree.  So the invariant is not that they agree.  It is `Accounted`: over any
stretch of a run, a hash gains as many outcomes in the log as its flag rises, and an account gains
as many `NonceIncremented` events as its nonce rises.  A call is accounted for as soon as its
callees are, because the rise of its own flag comes before them and its own event after them; and
rolled back frames leave no trace in either.

Counting from the constructor, where there is nothing, gives the two counts themselves.
-/

set_option autoImplicit false

namespace PunksBids

open Evm OpenCalls

variable {Ω : Type}

/-! ## Counting events -/

/-- A `BidMatched` event with this hash. -/
def Event.fills (hash : Bytes32) : Event → Bool
  | .bidMatched _ _ _ _ bidHash => bidHash = hash
  | _ => false

/-- A `BidCancelled` event with this hash. -/
def Event.cancels (hash : Bytes32) : Event → Bool
  | .bidCancelled hash' => hash' = hash
  | _ => false

/-- The number of times a bid hash was filled. -/
def filledCount (hash : Bytes32) (logs : List Event) : Nat := logs.countP (Event.fills hash)

/-- The number of times a bid hash was cancelled. -/
def cancelledCount (hash : Bytes32) (logs : List Event) : Nat := logs.countP (Event.cancels hash)

/-- The number of outcomes of a bid hash. -/
def outcomeCount (hash : Bytes32) (logs : List Event) : Nat :=
  logs.countP fun e ↦ e.settles = some hash

/-- The number of `NonceIncremented` events of this account. -/
def incrementCount (a : Address) (logs : List Event) : Nat :=
  logs.countP fun e ↦ e.increments = some a

theorem outcomeCount_eq (hash : Bytes32) (logs : List Event) :
    outcomeCount hash logs = filledCount hash logs + cancelledCount hash logs := by
  induction logs with
  | nil => rfl
  | cons e logs ih =>
    have he : (if e.settles = some hash then 1 else 0) =
        (if e.fills hash = true then 1 else 0) + if e.cancels hash = true then 1 else 0 := by
      cases e <;> simp [Event.settles, Event.fills, Event.cancels]
    simp only [outcomeCount, filledCount, cancelledCount, List.countP_cons,
      decide_eq_true_eq] at ih ⊢
    rw [he, ih]
    omega

theorem outcomeCount_concat (hash : Bytes32) (logs : List Event) (e : Event) :
    outcomeCount hash (logs ++ [e]) =
      outcomeCount hash logs + if e.settles = some hash then 1 else 0 := by
  simp [outcomeCount, List.countP_append, List.countP_cons]

theorem incrementCount_concat (a : Address) (logs : List Event) (e : Event) :
    incrementCount a (logs ++ [e]) =
      incrementCount a logs + if e.increments = some a then 1 else 0 := by
  simp [incrementCount, List.countP_append, List.countP_cons]

/-! ## The account -/

/-- From `s` to `t`, flags and outcomes rise alike, and nonces and their events. -/
structure Accounted (s t : World Ω) : Prop where
  flags : ∀ hash, (t.store.cancelledOrFilled hash).toNat + outcomeCount hash s.logs =
    (s.store.cancelledOrFilled hash).toNat + outcomeCount hash t.logs
  nonces : ∀ a, (t.store.nonces a).toNat + incrementCount a s.logs =
    (s.store.nonces a).toNat + incrementCount a t.logs

theorem Accounted.refl (s : World Ω) : Accounted s s := ⟨fun _ ↦ rfl, fun _ ↦ rfl⟩

theorem Accounted.trans {s t u : World Ω} (h : Accounted s t) (h' : Accounted t u) :
    Accounted s u := by
  refine ⟨fun hash ↦ ?_, fun a ↦ ?_⟩
  · have := h.flags hash
    have := h'.flags hash
    omega
  · have := h.nonces a
    have := h'.nonces a
    omega

theorem accounted_closed :
    TraceClosed fun (s : World Ω) (_ : Trace Ω) (t : World Ω) ↦ Accounted s t :=
  ⟨Accounted.refl, fun h h' ↦ h.trans h'⟩

/-- Nothing that is counted has changed. -/
theorem Accounted.of_eq {s t : World Ω}
    (hf : t.store.cancelledOrFilled = s.store.cancelledOrFilled)
    (hn : t.store.nonces = s.store.nonces) (hl : t.logs = s.logs) : Accounted s t := by
  refine ⟨fun hash ↦ ?_, fun a ↦ ?_⟩
  · rw [hf, hl]
  · rw [hn, hl]

/-- The value of a flag after one is set. -/
theorem toNat_flag (st : Store) {hash : Bytes32} (h : st.cancelledOrFilled hash = false)
    (hash' : Bytes32) :
    ((st.flag hash).cancelledOrFilled hash').toNat =
      (st.cancelledOrFilled hash').toNat + if some hash = some hash' then 1 else 0 := by
  by_cases he : hash' = hash
  · subst he
    simp [h]
  · simp [Store.flag_of_ne he, Ne.symm he]

/-- **A flag that is set, then any calls that are accounted for, then its event.** -/
theorem Accounted.of_flag {s t : World Ω} {hash : Bytes32} {e : Event}
    (hs : s.store.cancelledOrFilled hash = false) (he : e.settles = some hash)
    (hi : e.increments = none) (h : Accounted (s.withStore (Store.flag hash)) t) :
    Accounted s (t.log e) := by
  refine ⟨fun hash' ↦ ?_, fun a ↦ ?_⟩
  · have hflag := h.flags hash'
    rw [show (s.withStore (Store.flag hash)).store = s.store.flag hash from rfl,
      toNat_flag _ hs] at hflag
    rw [show (t.log e).logs = t.logs ++ [e] from rfl, outcomeCount_concat, he]
    change _ + outcomeCount hash' s.logs = _ at hflag
    change (t.store.cancelledOrFilled hash').toNat + _ = _
    omega
  · have hnonce := h.nonces a
    rw [show (t.log e).logs = t.logs ++ [e] from rfl, incrementCount_concat, hi]
    exact hnonce

theorem Cancels.accounted {msg : Msg} {bids : List Bid} {w t : World Ω}
    (h : Cancels msg bids w t) : Accounted w t := by
  induction h with
  | nil w => exact .refl w
  | cons hc _ ih => exact (Accounted.of_flag hc.2 rfl rfl (.refl _)).trans ih

/-- A call that never hands over control is accounted for. -/
theorem OwnStep.accounted {net : Network Ω} {c : Call} {w t : World Ω} (h : OwnStep net c w t)
    (hop : c.op.callsOut = false) : Accounted w t := by
  cases h with
  | pass hop' => exact .refl _
  | accept hop' => simp [hop', Op.callsOut] at hop
  | send hop' => simp [hop'] at hop
  | report hop' => simp [hop'] at hop
  | cancel _ hc => exact hc.accounted
  | @nonce n _ hn =>
    refine ⟨fun hash ↦ ?_, fun a ↦ ?_⟩
    · change _ = _ + outcomeCount hash (w.logs ++ [_])
      rw [outcomeCount_concat]
      rfl
    · change (Function.update w.store.nonces c.msg.sender n a).toNat + _ =
        _ + incrementCount a (w.logs ++ [_])
      rw [incrementCount_concat]
      by_cases ha : a = c.msg.sender
      · subst ha
        simp [Event.increments, hn]
        omega
      · simp [Event.increments, ha, Ne.symm ha]
  | admin _ ha hs hi =>
    refine ⟨fun hash ↦ ?_, fun a ↦ ?_⟩
    · change _ = _ + outcomeCount hash (w.logs ++ [_])
      rw [outcomeCount_concat, hs, World.log, World.withStore, ha.cancelledOrFilled]
      simp
    · change _ = _ + incrementCount a (w.logs ++ [_])
      rw [incrementCount_concat, hi, World.log, World.withStore, ha.nonces]
      simp
  | receive => exact .of_eq rfl rfl rfl

/-- **A call is accounted for if its callees are.** -/
theorem call_accounted {net : Network Ω} {c : Call}
    {callee : Ext → World Ω → Option (World Ω × Trace Ω)}
    (hcallee : ∀ k s t es, callee k s = some (t, es) → Accounted s t) {w t : World Ω} {es : Trace Ω}
    (h : (call net c w).trace c callee w = some (t, es)) : Accounted w t := by
  by_cases hop : c.op.callsOut = true
  swap
  · have hop : c.op.callsOut = false := by simpa using hop
    rcases call_finishes net c w hop with ⟨t', hstep, hret⟩ | ⟨e, hrev⟩
    · rw [hret, trace_ret, Option.some_inj, Prod.mk.injEq] at h
      exact h.1 ▸ hstep.accounted hop
    · simp [hrev] at h
  obtain ⟨msg, op⟩ := c
  cases op with
  | executeMatch buy punkIndex =>
    obtain ⟨sale, hacc, hs⟩ := trace_executeMatch h
    obtain ⟨w₁, w₂, w₃, w₄, es₁, es₂, es₃, es₄, h₁, h₂, -, h₃, h₄, rfl, -⟩ := trace_settle.mp hs
    have hsend : Accounted w₂ (w₂.send sale.punkPrice) := .of_eq rfl rfl rfl
    have hout := (((hcallee _ _ _ _ h₁).trans (hcallee _ _ _ _ h₂)).trans hsend).trans
      ((hcallee _ _ _ _ h₃).trans (hcallee _ _ _ _ h₄))
    exact .of_flag hacc.unflagged rfl rfl hout
  | withdrawFees recipient =>
    obtain ⟨-, w', es', hpay, rfl, -⟩ := trace_withdrawFees.mp h
    have hsend : Accounted w (w.send w.balance) := .of_eq rfl rfl rfl
    refine (hsend.trans (hcallee _ _ _ _ hpay)).trans ⟨fun hash ↦ ?_, fun a ↦ ?_⟩
    · rw [World.log, outcomeCount_concat]
      rfl
    · rw [World.log, incrementCount_concat]
      rfl
  | _ => simp [Op.callsOut] at hop

/-- Every run is accounted for. -/
theorem Runs.accounted {net : Network Ω} {x : Behaviour Ω} {w t : World Ω} {es : Trace Ω}
    (h : Runs net x w t es) : Accounted w t := by
  have hdeed : ∀ (d : Deed Ω) (u : World Ω), Accounted u (d.run u) := fun _ _ ↦ .of_eq rfl rfl rfl
  exact Script.exec_induct accounted_closed hdeed
    (fun _ _ hk _ _ _ ht ↦ call_accounted hk ht) x h

/-! ## Nothing is taken back -/

/-- Flags stay set and logs stay logged. -/
structure Grows (s t : World Ω) : Prop where
  flags : ∀ hash, s.store.cancelledOrFilled hash = true → t.store.cancelledOrFilled hash = true
  logs : s.logs <+: t.logs

theorem Grows.refl (s : World Ω) : Grows s s := ⟨fun _ h ↦ h, List.prefix_refl _⟩

theorem Grows.trans {s t u : World Ω} (h : Grows s t) (h' : Grows t u) : Grows s u :=
  ⟨fun hash hs ↦ h'.flags hash (h.flags hash hs), h.logs.trans h'.logs⟩

theorem grows_flag (w : World Ω) (hash : Bytes32) : Grows w (w.withStore (Store.flag hash)) := by
  refine ⟨fun hash' h ↦ ?_, List.prefix_refl _⟩
  change Function.update w.store.cancelledOrFilled hash true hash' = true
  rw [Function.update_apply]
  split
  · rfl
  · exact h

theorem grows_log (w : World Ω) (e : Event) : Grows w (w.log e) :=
  ⟨fun _ h ↦ h, List.prefix_append _ _⟩

theorem Cancels.grows {msg : Msg} {bids : List Bid} {w t : World Ω}
    (h : Cancels msg bids w t) : Grows w t := by
  induction h with
  | nil w => exact .refl w
  | cons _ _ ih =>
    exact ((grows_flag _ _).trans (grows_log _ _)).trans ih

theorem OwnStep.grows {net : Network Ω} {c : Call} {w t : World Ω} (h : OwnStep net c w t) :
    Grows w t := by
  cases h with
  | pass => exact .refl _
  | accept => exact grows_flag _ _
  | report => exact grows_log _ _
  | cancel _ hc => exact hc.grows
  | admin _ ha =>
    refine ⟨fun hash h ↦ ?_, List.prefix_append _ _⟩
    rw [World.log, World.withStore, ha.cancelledOrFilled]
    exact h
  | _ => exact ⟨fun _ h ↦ h, by simp [World.send, World.log, World.withStore]⟩

theorem Runs.grows {net : Network Ω} {x : Behaviour Ω} {w t : World Ω} {es : Trace Ω}
    (h : Runs net x w t es) : Grows w t := by
  have hdeed : ∀ (d : Deed Ω) (u : World Ω), Grows u (d.run u) :=
    fun _ _ ↦ ⟨fun _ h ↦ h, List.prefix_refl _⟩
  exact (h.along Grows.refl Grows.trans hdeed OwnStep.grows).whole

/-! ## The counts -/

/-- **At most one outcome per bid.**  However often callees call back, and whatever is rolled back:
a flag is set exactly if the log has one outcome of its hash, and clear exactly if it has none; the
two kinds of outcome exclude each other; nonces count the `NonceIncremented` events; and no
continuation of the run takes any of it back. -/
theorem one_outcome_per_bid (net : Network Ω) (chainid : Uint256) (deployer : Address)
    (balance : Nat) (ω : Ω) (x : Behaviour Ω) (t : World Ω) (es : Trace Ω)
    (h : Runs net x (deploy chainid net.self deployer balance ω) t es) :
    (∀ hash,
      (t.store.cancelledOrFilled hash = true ↔
        filledCount hash t.logs + cancelledCount hash t.logs = 1) ∧
      (t.store.cancelledOrFilled hash = false ↔
        filledCount hash t.logs + cancelledCount hash t.logs = 0)) ∧
    (∀ a, (t.store.nonces a).toNat = incrementCount a t.logs) ∧
    ∀ (y : Behaviour Ω) (u : World Ω) (es' : Trace Ω), Runs net y t u es' →
      (∀ hash, t.store.cancelledOrFilled hash = true → u.store.cancelledOrFilled hash = true) ∧
      t.logs <+: u.logs := by
  have hacc := h.accounted
  refine ⟨fun hash ↦ ?_, fun a ↦ ?_, fun y u es' hy ↦ ⟨hy.grows.flags, hy.grows.logs⟩⟩
  · have hflags : (t.store.cancelledOrFilled hash).toNat + 0 = 0 + outcomeCount hash t.logs :=
      hacc.flags hash
    rw [outcomeCount_eq] at hflags
    cases hf : t.store.cancelledOrFilled hash <;> rw [hf] at hflags <;> simp at hflags ⊢ <;> omega
  · have hnonces : (t.store.nonces a).toNat + 0 = 0 + incrementCount a t.logs := hacc.nonces a
    omega

/-- The run of the theorem in which a match is called back: one outcome of the bid, and one
increment of the two that were made. -/
theorem one_outcome_per_bid_nested :
    ∃ t es, Runs signedNetwork nestedMatch (deploy 1 signedNetwork.self 7 0 ()) t es ∧
      filledCount (hashBid apeBid 0) t.logs + cancelledCount (hashBid apeBid 0) t.logs = 1 ∧
      incrementCount 2 t.logs = 1 := by
  obtain ⟨t, es, hrun, hstore, -⟩ := runs_nestedMatch
  obtain ⟨hflags, hnonces, -⟩ := one_outcome_per_bid signedNetwork 1 7 0 () _ t es hrun
  refine ⟨t, es, hrun, (hflags _).1.mp ?_, ?_⟩
  · rw [hstore]
    exact Store.flag_self _ _
  · rw [← hnonces 2, hstore]
    rfl

end PunksBids
