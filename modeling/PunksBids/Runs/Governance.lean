import PunksBids.Runs.Journal

/-!
# Who governs

Five variables of the storage are about governance rather than about bids: the owner, the nominee,
the pause and the two fee rates.  `Office` is that part, and `Office.Move` the whole of what can
happen to it, and through whom; the functions of the contract make these moves and no others
(`call_moves`).

A value of the office at any point of a run is therefore the one of the beginning or was set by a
move before (`Script.exec_traced`).  Applied twice, to the owner and to the nominee, and then to the
owner who nominated, this leads back to the constructor: whoever acts as the owner has a `Title`, a
chain of nominations and acceptances that begins with the deployer.

Nobody can call from the zero address, which is what an empty office names as owner and nominee;
that enters as a hypothesis where it is needed.
-/

set_option autoImplicit false

namespace PunksBids

open Evm OpenCalls Replay

variable {Ω : Type}

/-! ## The office -/

/-- What the owner decides about, and who that is. -/
structure Office where
  owner : Address
  pendingOwner : Address
  paused : Bool
  feeRate : Uint256
  localFeeRate : Uint256
  deriving DecidableEq

/-- The office in the storage. -/
def Store.office (st : Store) : Office where
  owner := st.owner
  pendingOwner := st.pendingOwner
  paused := st.paused
  feeRate := st.feeRate
  localFeeRate := st.localFeeRate

/-- A move of the account `a`, by a call of the function given. -/
inductive Office.Move (a : Address) (o : Office) : Op → Office → Prop where
  | setFeeRate {rate : Uint256} (h : o.owner = a) (hle : rate.toNat ≤ maxFeeRate) :
      Move a o (.setFeeRate rate) { o with feeRate := rate }
  | setLocalFeeRate {rate : Uint256} (h : o.owner = a) (hle : rate.toNat ≤ maxFeeRate) :
      Move a o (.setLocalFeeRate rate) { o with localFeeRate := rate }
  | pause (h : o.owner = a) (hp : o.paused = false) : Move a o .pause { o with paused := true }
  | unpause (h : o.owner = a) (hp : o.paused = true) : Move a o .unpause { o with paused := false }
  /-- The owner nominates, and stays in office. -/
  | nominate {newOwner : Address} (h : o.owner = a) :
      Move a o (.transferOwnership newOwner) { o with pendingOwner := newOwner }
  /-- The nominee takes over. -/
  | accept (h : o.pendingOwner = a) :
      Move a o .acceptOwnership { o with owner := a, pendingOwner := 0 }
  /-- The owner leaves, and the nomination lapses. -/
  | renounce (h : o.owner = a) :
      Move a o .renounceOwnership { o with owner := 0, pendingOwner := 0 }

/-- Only the owner gets through with these. -/
def Op.ownerOnly : Op → Bool
  | .setFeeRate _ | .setLocalFeeRate _ | .withdrawFees _ | .pause | .unpause
  | .transferOwnership _ | .renounceOwnership => true
  | _ => false

namespace Office.Move

variable {a : Address} {o o' : Office} {op : Op}

/-- A move is the owner's, or the nominee's. -/
theorem by_owner_or_nominee (h : Office.Move a o op o') : o.owner = a ∨ o.pendingOwner = a := by
  cases h with
  | accept h => exact .inr h
  | _ => exact .inl ‹_›

/-- The functions that move hand over no control and take no ETH. -/
theorem quiet (h : Office.Move a o op o') : op.callsOut = false ∧ op.value = 0 := by
  cases h <;> exact ⟨rfl, rfl⟩

/-- The owner changes by an acceptance, or by leaving. -/
theorem owner_ne (h : Office.Move a o op o') (hne : o.owner ≠ o'.owner) :
    op = .acceptOwnership ∧ o.pendingOwner = a ∧ o'.owner = a ∨ o'.owner = 0 := by
  cases h with
  | accept h => exact .inl ⟨rfl, h, rfl⟩
  | renounce => exact .inr rfl
  | _ => exact absurd rfl hne

/-- The nominee changes by a nomination of the owner, or lapses. -/
theorem pendingOwner_ne (h : Office.Move a o op o') (hne : o.pendingOwner ≠ o'.pendingOwner) :
    op = .transferOwnership o'.pendingOwner ∧ o.owner = a ∨ o'.pendingOwner = 0 := by
  cases h with
  | nominate h => exact .inl ⟨rfl, h⟩
  | accept => exact .inr rfl
  | renounce => exact .inr rfl
  | _ => exact absurd rfl hne

/-- The pause ends by the owner's hand. -/
theorem unpauses (h : Office.Move a o op o') (hp : o.paused = true) (hp' : o'.paused = false) :
    op = .unpause ∧ o.owner = a := by
  cases h with
  | unpause h => exact ⟨rfl, h⟩
  | pause => simp at hp'
  | _ => simp [hp] at hp'

end Office.Move

/-! ## The contract makes these moves only -/

section Steps

variable {net : Network Ω} {c : Call} {u v w t : World Ω} {x : Behaviour Ω} {es : Trace Ω}

/-- What a stretch does to the office: nothing, or a move of the caller. -/
def Governed (c : Call) (u v : World Ω) : Prop :=
  v.store.office = u.store.office ∨ u.store.office.Move c.msg.sender c.op v.store.office

theorem foldl_bidCancelled_office (hashes : List Bytes32) (st : Store) :
    ((hashes.map Event.bidCancelled).foldl Store.apply st).office = st.office := by
  induction hashes generalizing st with
  | nil => rfl
  | cons hash hashes ih => exact ih (st.flag hash)

/-- A permitted call that hands over no control moves as its function says. -/
theorem Permitted.governed (h : Permitted net u c) (hop : c.op.callsOut = false) :
    Governed c u ((u.report (reports net u c)).deposit c.op.value) := by
  obtain ⟨msg, op⟩ := c
  cases op with
  | executeMatch buy punkIndex => simp [Op.callsOut] at hop
  | withdrawFees recipient => simp [Op.callsOut] at hop
  | cancelBid bid => exact .inl (foldl_bidCancelled_office _ _)
  | cancelBids bids => exact .inl (foldl_bidCancelled_office _ _)
  | incrementNonce => exact .inl rfl
  | receive value => exact .inl rfl
  | setFeeRate rate => exact .inr (.setFeeRate h.1 h.2)
  | setLocalFeeRate rate => exact .inr (.setLocalFeeRate h.1 h.2)
  | pause => exact .inr (.pause h.1 h.2)
  | unpause => exact .inr (.unpause h.1 h.2)
  | transferOwnership newOwner => exact .inr (.nominate h)
  | acceptOwnership => exact .inr (.accept h)
  | renounceOwnership => exact .inr (.renounce h)

/-- A call that hands over control leaves the office alone. -/
theorem OwnStep.office (h : OwnStep net c u v) (hop : c.op.callsOut = true) :
    v.store.office = u.store.office := by
  rcases h.store_cases hop with hsame | ⟨buy, punkIndex, sale, -, -, rfl⟩
  · rw [hsame]
  · rfl

/-- **Every stretch of the contract's code is governed.** -/
theorem call_moves (net : Network Ω) (c : Call) (w : World Ω) :
    (call net c w).Stretches (Governed c) w := by
  by_cases hop : c.op.callsOut = true
  · exact (call_stretches net c w).mono fun u v h ↦ .inl (h.office hop)
  · have hop : c.op.callsOut = false := by simpa using hop
    rcases call_quiet net c w hop with ⟨hp, hret⟩ | ⟨-, e, hrev⟩
    · rw [hret]
      exact hp.governed hop
    · rw [hrev]
      trivial

theorem Runs.governed (h : Runs net x w t es) (hmem : .own c u v ∈ es) : Governed c u v :=
  Script.exec_own (call_moves net) x h hmem

/-- Every part of the office, at any point of a run, comes from somewhere before. -/
theorem Runs.traced {β : Type} (h : Runs net x w t es) (f : Office → β) :
    Traced (fun u : World Ω ↦ f u.store.office) w es t := by
  have hdeed : ∀ (d : Deed Ω) (u : World Ω), f (d.run u).store.office = f u.store.office :=
    fun _ _ ↦ rfl
  exact Script.exec_traced hdeed x h

/-- What an owner-only call needs. -/
theorem Permitted.owner_eq (h : Permitted net u c) (hop : c.op.ownerOnly = true) :
    u.store.owner = c.msg.sender := by
  obtain ⟨msg, op⟩ := c
  cases op with
  | setFeeRate rate => exact h.1
  | setLocalFeeRate rate => exact h.1
  | withdrawFees recipient => exact h
  | pause => exact h.1
  | unpause => exact h.1
  | transferOwnership newOwner => exact h
  | renounceOwnership => exact h
  | _ => simp [Op.ownerOnly] at hop

end Steps

/-! ## Titles -/

section Titles

variable {net : Network Ω} {w t : World Ω} {x : Behaviour Ω} {es : Trace Ω}

/-- A title to the office: `first` has one from the start, and whoever was nominated by the holder
of a title, and accepted later, has one from then on.  A call that hands over no control is a single
stretch, so its `own` entry stands for the call. -/
inductive Title (first : Address) : Trace Ω → Address → Prop where
  | first (es : Trace Ω) : Title first es first
  | handover {es es' es'' : Trace Ω} {msg msg' : Msg} {u v u' v' : World Ω}
      (h : Title first es msg.sender) :
      Title first (es ++ .own ⟨msg, .transferOwnership msg'.sender⟩ u v ::
        (es' ++ .own ⟨msg', .acceptOwnership⟩ u' v' :: es'')) msg'.sender

/-- Who held the nomination was nominated by the owner of that moment. -/
theorem Runs.nominated (h : Runs net x w t es) (hw : w.store.pendingOwner = 0) {es₁ es₂ : Trace Ω}
    {e : Entry Call (Deed Ω) (World Ω)} (hes : es = es₁ ++ e :: es₂)
    (hne : e.before.store.pendingOwner ≠ 0) :
    ∃ es₃ es₄ msg u v, es₁ = es₃ ++ .own ⟨msg, .transferOwnership e.before.store.pendingOwner⟩ u v
      :: es₄ ∧ u.store.owner = msg.sender := by
  rcases (h.traced Office.pendingOwner).before es₁ e es₂ hes with
    hw' | ⟨⟨msg, op⟩, u, v, hm, hu, hv⟩
  · exact absurd (hw'.trans hw) hne
  obtain ⟨es₃, es₄, rfl⟩ := List.append_of_mem hm
  have hmem : .own ⟨msg, op⟩ u v ∈ es := by simp [hes]
  have hv : v.store.office.pendingOwner = e.before.store.pendingOwner := hv
  rcases h.governed hmem with heq | hmove
  · exact absurd (congrArg Office.pendingOwner heq).symm hu
  rcases hmove.pendingOwner_ne hu with ⟨hop, howner⟩ | hzero
  · obtain rfl : op = _ := hop
    exact ⟨es₃, es₄, msg, u, v, by rw [hv], howner⟩
  · exact absurd (hv.symm.trans hzero) hne

/-- **Every owner has a title**, at any point of a run that begins with a single office holder and
no nominee. -/
theorem Runs.title (h : Runs net x w t es) (hw : w.store.pendingOwner = 0)
    (hcallers : ∀ c p, .entered c p ∈ es → c.msg.sender ≠ 0) {es₁ es₂ : Trace Ω}
    {e : Entry Call (Deed Ω) (World Ω)} (hes : es = es₁ ++ e :: es₂)
    (hne : e.before.store.owner ≠ 0) : Title w.store.owner es₁ e.before.store.owner := by
  -- The owner who nominated held the office at an earlier point.
  induction hn : es₁.length using Nat.strong_induction_on generalizing es₁ e es₂ with
  | _ n ih =>
  rcases (h.traced Office.owner).before es₁ e es₂ hes with
    hw' | ⟨⟨msg', op⟩, u', v', hm, hu, hv⟩
  · have hw' : e.before.store.owner = w.store.owner := hw'
    rw [hw']
    exact .first es₁
  obtain ⟨es₃, es'', rfl⟩ := List.append_of_mem hm
  have hes' : es = es₃ ++ .own ⟨msg', op⟩ u' v' :: (es'' ++ e :: es₂) := by simp [hes]
  have hmem : .own ⟨msg', op⟩ u' v' ∈ es := by simp [hes']
  have hv : v'.store.office.owner = e.before.store.owner := hv
  rcases h.governed hmem with heq | hmove
  · exact absurd (congrArg Office.owner heq).symm hu
  rcases hmove.owner_ne hu with ⟨hop, hpending, howner⟩ | hzero
  swap
  · exact absurd (hv.symm.trans hzero) hne
  obtain rfl : op = _ := hop
  have hsender : msg'.sender = e.before.store.owner := howner.symm.trans hv
  have hpending : u'.store.pendingOwner = msg'.sender := hpending
  obtain ⟨p, -, hin, -⟩ := Script.exec_called x h hmem
  obtain ⟨es₀, es', msg, u, v, rfl, hnominator⟩ :=
    h.nominated hw hes' (e := .own ⟨msg', .acceptOwnership⟩ u' v')
      (hpending ▸ hcallers _ _ hin)
  have hmem : .own ⟨msg, .transferOwnership msg'.sender⟩ u v ∈ es := by
    simp [hes', Entry.before, hpending]
  obtain ⟨p, -, hin, -⟩ := Script.exec_called x h hmem
  have hes₀ : es = es₀ ++ .own ⟨msg, .transferOwnership msg'.sender⟩ u v ::
      (es' ++ .own ⟨msg', .acceptOwnership⟩ u' v' :: (es'' ++ e :: es₂)) := by
    simp [hes', Entry.before, hpending]
  have htitle : Title w.store.owner es₀ u.store.owner :=
    ih es₀.length (by simp [← hn]) hes₀ (fun h0 ↦ hcallers _ _ hin (hnominator.symm.trans h0)) rfl
  rw [hnominator] at htitle
  rw [← hsender]
  simpa [Entry.before, hpending] using Title.handover htitle

end Titles

/-! ## Offices nobody holds, and silent ones -/

section Silent

variable {net : Network Ω} {w t : World Ω} {x : Behaviour Ω} {es : Trace Ω}

/-- While `o` is the office and neither its owner nor its nominee calls, it stays the office. -/
theorem Runs.office_along (h : Runs net x w t es) (o : Office)
    (hsilent : ∀ c p, .entered c p ∈ es → c.msg.sender ≠ o.owner ∧ c.msg.sender ≠ o.pendingOwner) :
    Along (fun u v : World Ω ↦ u.store.office = o → v.store.office = o) w es t := by
  let P (u v : World Ω) : Prop := u.store.office = o → v.store.office = o
  let C (c : Call) : Prop := c.msg.sender ≠ o.owner ∧ c.msg.sender ≠ o.pendingOwner
  have hdeed : ∀ (d : Deed Ω) (u : World Ω), P u (d.run u) := fun _ _ hu ↦ hu
  have hcall : ∀ c, C c → ∀ u, (call net c u).Stretches P u := by
    intro c hc u
    refine (call_moves net c u).mono fun u v hgov hu ↦ ?_
    rcases hgov with heq | hmove
    · exact heq.trans hu
    · rw [hu] at hmove
      rcases hmove.by_owner_or_nominee with ho | ho
      · exact absurd ho.symm hc.1
      · exact absurd ho.symm hc.2
  exact Script.exec_along_of (P := P) (C := C) (fun _ hu ↦ hu) (fun h h' hu ↦ h' (h hu)) hdeed
    hcall x h hsilent

/-- After a call that renounced, the office is empty. -/
theorem Runs.returned_renounceOwnership (h : Runs net x w t es) {msg : Msg} {p q : World Ω}
    (hmem : .returned ⟨msg, .renounceOwnership⟩ p q ∈ es) :
    q.store.office = { p.store.office with owner := 0, pendingOwner := 0 } := by
  rw [h.returned_quiet hmem rfl]
  rfl

end Silent

/-! ## Governance as a whole -/

/-- **The chain of custody.**  In any run from the constructor in which nobody calls from the zero
address: the office changes only by a move, of the caller, and in a call that returned and did
nothing else; a call of an owner-only function returns only for the owner of the moment it began,
and that account has a title, which leads from the deployer through nominations and acceptances that
precede the call; and as long as neither the owner nor the nominee of now calls, a continuation
leaves the office as it is, at every point. -/
theorem chain_of_custody (net : Network Ω) (chainid : Uint256) (deployer : Address) (balance : Nat)
    (ω : Ω) (x : Behaviour Ω) (t : World Ω) (es : Trace Ω)
    (h : Runs net x (deploy chainid net.self deployer balance ω) t es)
    (hcallers : ∀ c p, .entered c p ∈ es → c.msg.sender ≠ 0) :
    (∀ c u v, .own c u v ∈ es → v.store.office ≠ u.store.office →
      u.store.office.Move c.msg.sender c.op v.store.office ∧ .returned c u v ∈ es ∧
        v = u.report (reports net u c)) ∧
    (∀ es₁ es₂ c p q, es = es₁ ++ .entered c p :: es₂ → .returned c p q ∈ es →
      c.op.ownerOnly = true →
      p.store.owner = c.msg.sender ∧ Title deployer es₁ c.msg.sender) ∧
    ∀ (y : Behaviour Ω) (u : World Ω) (es' : Trace Ω), Runs net y t u es' →
      (∀ c p, .entered c p ∈ es' →
        c.msg.sender ≠ t.store.owner ∧ c.msg.sender ≠ t.store.pendingOwner) →
      u.store.office = t.store.office ∧ ∀ e ∈ es', e.now.store.office = t.store.office := by
  refine ⟨fun c u v hmem hne ↦ ?_, fun es₁ es₂ c p q hes hret hop ↦ ?_,
    fun y u es' hy hsilent ↦ ?_⟩
  · have hmove := (h.governed hmem).resolve_left hne
    have hout := hmove.quiet
    have hret : .returned c u v ∈ es := by
      refine Script.exec_returned_of_own (fun s ↦ ?_) x h hmem
      rcases call_quiet net c s hout.1 with ⟨-, hret⟩ | ⟨-, hrev⟩
      · exact .inl ⟨_, hret⟩
      · exact .inr hrev
    refine ⟨hmove, hret, ?_⟩
    rw [h.returned_quiet hret hout.1, hout.2]
    rfl
  · have howner : p.store.owner = c.msg.sender := (h.permitted hret).owner_eq hop
    have hne : p.store.owner ≠ 0 := howner ▸ hcallers c p (by simp [hes])
    exact ⟨howner, howner ▸ h.title rfl hcallers hes hne⟩
  · have hoffice := hy.office_along t.store.office hsilent
    exact ⟨hoffice.whole rfl, fun e he ↦ hoffice.before e he rfl⟩

/-- A message from the account `a`. -/
def msgFrom (a : Address) : Msg := { idleMsg with sender := a }

/-- A run of the theorem in which the office is handed over, and the contract is paused. -/
theorem chain_of_custody_handover :
    ∃ x t es₁ es₂ p, Runs idleNetwork x (deploy 1 idleNetwork.self 7 0 ()) t
      (es₁ ++ .entered ⟨msgFrom 8, .pause⟩ p :: es₂) ∧ Title 7 es₁ 8 := by
  let w₁ := deploy 1 idleNetwork.self 7 0 ()
  let w₂ := w₁.report [.ownershipTransferStarted 7 8]
  let w₃ := w₂.report [.ownershipTransferred 7 8]
  let w₄ := w₃.report [.paused 8]
  let c₁ : Call := ⟨msgFrom 7, .transferOwnership 8⟩
  let c₂ : Call := ⟨msgFrom 8, .acceptOwnership⟩
  let c₃ : Call := ⟨msgFrom 8, .pause⟩
  let es₁ := single c₁ w₁ w₂ ++ (single c₂ w₂ w₃ ++ (single c₃ w₃ w₄ ++ []))
  have h₁ : Runs idleNetwork (inTurn [c₁, c₂, c₃]) w₁ w₄ es₁ := by
    refine runs_inTurn_cons rfl rfl
      (runs_inTurn_cons rfl rfl (runs_inTurn_cons rfl rfl rfl ?_) ?_) ?_
    · exact ⟨rfl, rfl⟩
    · rfl
    · rfl
  have hcallers : ∀ c p, .entered c p ∈ es₁ → c.msg.sender ≠ 0 := fun c p hin ↦ by
    simp only [es₁, single, List.cons_append, List.nil_append, List.mem_cons,
      Entry.entered.injEq, reduceCtorEq, false_or, or_false, List.not_mem_nil] at hin
    rcases hin with ⟨rfl, -⟩ | ⟨rfl, -⟩ | ⟨rfl, -⟩
    all_goals decide
  refine ⟨_, w₄, [_, _, _, _, _, _], [_, _], w₃, h₁, ?_⟩
  exact ((chain_of_custody idleNetwork 1 7 0 () _ w₄ es₁ h₁ hcallers).2.1 [_, _, _, _, _, _] [_, _]
    c₃ w₃ w₄ rfl (by simp [es₁, single]) rfl).2

/-- **Renouncing is final.**  Once `renounceOwnership` has returned, in any run in which nobody
calls from the zero address, the office is empty and stays exactly as it was left: no later call of
an owner-only function and no later acceptance returns, the fee rate of every offer is what it was,
and if the contract was paused then no later match returns. -/
theorem renouncing_is_final (net : Network Ω) (w : World Ω) (x : Behaviour Ω) (t : World Ω)
    (es es₁ es₂ : Trace Ω) (msg : Msg) (p q : World Ω) (h : Runs net x w t es)
    (hcallers : ∀ c p, .entered c p ∈ es → c.msg.sender ≠ 0)
    (hes : es = es₁ ++ .returned ⟨msg, .renounceOwnership⟩ p q :: es₂) :
    (∀ e ∈ es₂, e.now.store.office = { p.store.office with owner := 0, pendingOwner := 0 }) ∧
    t.store.office = { p.store.office with owner := 0, pendingOwner := 0 } ∧
    ∀ c p' q', .entered c p' ∈ es₂ → .returned c p' q' ∈ es →
      c.op.ownerOnly = false ∧ c.op ≠ .acceptOwnership ∧
      (∀ offer, currentFeeRate net p'.store offer = currentFeeRate net p.store offer) ∧
      (p.store.paused = true → ∀ buy punkIndex, c.op ≠ .executeMatch buy punkIndex) := by
  let o : Office := { p.store.office with owner := 0, pendingOwner := 0 }
  have hmem : .returned ⟨msg, .renounceOwnership⟩ p q ∈ es := by simp [hes]
  have hq : q.store.office = o := h.returned_renounceOwnership hmem
  have halong := h.office_along o fun c p hin ↦ ⟨hcallers c p hin, hcallers c p hin⟩
  have hlater : ∀ e ∈ es₂, e.now.store.office = o := by
    have hpw := halong.between
    rw [hes] at hpw
    exact fun e he ↦ List.rel_of_pairwise_cons (List.pairwise_append.mp hpw).2.1 he hq
  refine ⟨hlater, halong.after _ hmem hq, fun c p' q' hin hret ↦ ?_⟩
  have hp' : p'.store.office = o := hlater _ hin
  have hsender : c.msg.sender ≠ 0 := hcallers c p' (by simp [hes, hin])
  have hpermitted := h.permitted hret
  refine ⟨?_, fun hop ↦ ?_, fun offer ↦ ?_, fun hpaused buy punkIndex hop ↦ ?_⟩
  · by_contra hop
    have howner := hpermitted.owner_eq (by simpa using hop)
    exact hsender (howner.symm.trans (congrArg Office.owner hp'))
  · obtain ⟨msg', op⟩ := c
    obtain rfl : op = _ := hop
    have hpending : p'.store.pendingOwner = msg'.sender := hpermitted
    exact hsender (hpending.symm.trans (congrArg Office.pendingOwner hp'))
  · have hfee : p'.store.feeRate = p.store.feeRate := congrArg Office.feeRate hp'
    have hlocal : p'.store.localFeeRate = p.store.localFeeRate := congrArg Office.localFeeRate hp'
    rw [currentFeeRate, currentFeeRate, hfee, hlocal]
  · obtain ⟨msg', op⟩ := c
    obtain rfl : op = _ := hop
    obtain ⟨sale, hacc⟩ := hpermitted
    have hpaused' : p'.store.paused = p.store.paused := congrArg Office.paused hp'
    simpa [hpaused', hpaused] using hacc.unpaused

/-- The run of the theorem in which the deployer renounces and somebody increments a nonce. -/
theorem renouncing_is_final_incrementNonce :
    ∃ x t es, Runs idleNetwork x (deploy 1 idleNetwork.self 7 0 ()) t es ∧
      t.store.owner = 0 ∧ t.store.feeRate = 10 := by
  let w₁ := deploy 1 idleNetwork.self 7 0 ()
  let w₂ := w₁.report [.ownershipTransferred 7 0]
  let w₃ := w₂.report [.nonceIncremented 2 1]
  let c₁ : Call := ⟨msgFrom 7, .renounceOwnership⟩
  let c₂ : Call := ⟨msgFrom 2, .incrementNonce⟩
  let es₁ := single c₁ w₁ w₂ ++ (single c₂ w₂ w₃ ++ [])
  have h₁ : Runs idleNetwork (inTurn [c₁, c₂]) w₁ w₃ es₁ := by
    refine runs_inTurn_cons rfl rfl (runs_inTurn_cons rfl rfl rfl ?_) ?_
    · exact show 0 + 1 < wordSize by decide
    · rfl
  have hcallers : ∀ c p, .entered c p ∈ es₁ → c.msg.sender ≠ 0 := fun c p hin ↦ by
    simp only [es₁, single, List.cons_append, List.nil_append, List.mem_cons,
      Entry.entered.injEq, reduceCtorEq, false_or, or_false, List.not_mem_nil] at hin
    rcases hin with ⟨rfl, -⟩ | ⟨rfl, -⟩
    all_goals decide
  have hoffice := (renouncing_is_final idleNetwork w₁ _ w₃ es₁ [_, _] [_, _, _] (msgFrom 7) w₁ w₂
    h₁ hcallers rfl).2.1
  exact ⟨_, w₃, _, h₁, congrArg Office.owner hoffice, congrArg Office.feeRate hoffice⟩

/-! ## The pause -/

/-- Whether a call returns depends on the pause. -/
def Op.minds : Op → Bool
  | .executeMatch _ _ | .pause | .unpause => true
  | _ => false

/-- A world in which the contract is paused, or is not. -/
def World.setPaused (w : World Ω) (b : Bool) : World Ω :=
  w.withStore fun st ↦ { st with paused := b }

/-- The functions that do not mind the pause are permitted alike and report alike. -/
theorem permitted_setPaused (net : Network Ω) (w : World Ω) {c : Call} (hop : c.op.minds = false)
    (b : Bool) : (Permitted net (w.setPaused b) c ↔ Permitted net w c) ∧
      reports net (w.setPaused b) c = reports net w c := by
  obtain ⟨msg, op⟩ := c
  cases op with
  | executeMatch buy punkIndex => simp [Op.minds] at hop
  | pause => simp [Op.minds] at hop
  | unpause => simp [Op.minds] at hop
  | cancelBid bid => exact ⟨⟨fun h ↦ ⟨h.1, h.2, h.3⟩, fun h ↦ ⟨h.1, h.2, h.3⟩⟩, rfl⟩
  | cancelBids bids => exact ⟨⟨fun h ↦ ⟨h.1, h.2, h.3⟩, fun h ↦ ⟨h.1, h.2, h.3⟩⟩, rfl⟩
  | _ => exact ⟨Iff.rfl, rfl⟩

section Pause

variable {net : Network Ω} {w t : World Ω} {x : Behaviour Ω} {es : Trace Ω}

/-- A stretch that ends the pause is a call of `unpause` by the owner. -/
theorem Runs.unpauser (h : Runs net x w t es) {c : Call} {u v : World Ω} (hmem : .own c u v ∈ es)
    (hne : u.store.office.paused ≠ v.store.office.paused) (hv : v.store.paused = false) :
    c.op = .unpause ∧ u.store.owner = c.msg.sender := by
  have hu : u.store.office.paused = true := by
    rw [show v.store.office.paused = false from hv] at hne
    simpa using hne
  have hmove := (h.governed hmem).resolve_left fun hsame ↦ hne (congrArg Office.paused hsame).symm
  exact hmove.unpauses hu hv

/-- Where the contract is not paused any more, the owner had unpaused it. -/
theorem Runs.unpaused_by (h : Runs net x w t es) (hw : w.store.paused = true) {es₁ es₂ : Trace Ω}
    {e : Entry Call (Deed Ω) (World Ω)} (hes : es = es₁ ++ e :: es₂)
    (he : e.before.store.paused = false) :
    ∃ msg u v, .own ⟨msg, .unpause⟩ u v ∈ es₁ ∧ u.store.owner = msg.sender := by
  rcases (h.traced Office.paused).before es₁ e es₂ hes with
    heq | ⟨⟨msg, op⟩, u, v, hm, hne, hv⟩
  · have heq : e.before.store.paused = w.store.paused := heq
    simp [heq, hw] at he
  · have hmem : .own ⟨msg, op⟩ u v ∈ es := by simp [hes, hm]
    obtain ⟨rfl, howner⟩ := h.unpauser hmem hne (hv.trans he)
    exact ⟨msg, u, v, hm, howner⟩

/-- Only a match that returned reports a match. -/
theorem returned_of_bidMatched {entry : Entry Call (Deed Ω) (World Ω)} {maker taker : Address}
    {bid : Bid} {price : Nat} {bidHash : Bytes32}
    (h : .bidMatched maker taker bid price bidHash ∈ reported net entry) :
    ∃ msg buy punkIndex p q, entry = .returned ⟨msg, .executeMatch buy punkIndex⟩ p q := by
  cases entry with
  | returned c p q =>
    obtain ⟨msg, op⟩ := c
    cases op with
    | executeMatch buy punkIndex => exact ⟨msg, buy, punkIndex, p, q, rfl⟩
    | _ => simp [reported, reports] at h
  | _ => simp [reported] at h

end Pause

/-- **A pause stops matches, nothing else, and only the owner ends it.**  In a run that begins
paused, a match that returned began after a call of `unpause` by the owner of that moment; without
such a call the contract stays paused and logs no match; and whatever is not a match and does not
change the pause is permitted as if there were no pause, and reports the same. -/
theorem pause_stops_matches_only (net : Network Ω) (w : World Ω) (x : Behaviour Ω) (t : World Ω)
    (es : Trace Ω) (h : Runs net x w t es) (hw : w.store.paused = true) :
    (∀ es₁ es₂ msg buy punkIndex p q,
      es = es₁ ++ .entered ⟨msg, .executeMatch buy punkIndex⟩ p :: es₂ →
      .returned ⟨msg, .executeMatch buy punkIndex⟩ p q ∈ es →
      ∃ msg' u v, .own ⟨msg', .unpause⟩ u v ∈ es₁ ∧ u.store.owner = msg'.sender) ∧
    ((∀ msg p, .entered ⟨msg, .unpause⟩ p ∉ es) → t.store.paused = true ∧
      ∀ e ∈ t.logs.drop w.logs.length, ∀ maker taker bid price bidHash,
        e ≠ .bidMatched maker taker bid price bidHash) ∧
    ∀ c u b, c.op.minds = false → (Permitted net (u.setPaused b) c ↔ Permitted net u c) ∧
      reports net (u.setPaused b) c = reports net u c := by
  refine ⟨fun es₁ es₂ msg buy punkIndex p q hes hret ↦ ?_, fun hnone ↦ ?_, fun c u b hop ↦
    permitted_setPaused net u hop b⟩
  · obtain ⟨sale, hacc⟩ : ∃ sale, Accepted net msg p buy punkIndex sale := h.permitted hret
    exact h.unpaused_by hw hes hacc.unpaused
  have hstill : ∀ msg u v, .own ⟨msg, .unpause⟩ u v ∉ es := by
    intro msg u v hmem
    obtain ⟨p, -, hin, -⟩ := Script.exec_called x h hmem
    exact hnone msg p hin
  refine ⟨?_, fun e he maker taker bid price bidHash heq ↦ ?_⟩
  · by_contra ht
    have ht : t.store.paused = false := (Bool.not_eq_true _).mp ht
    rcases (h.traced Office.paused).whole with heq | ⟨⟨msg, op⟩, u, v, hm, hne, hv⟩
    · have heq : t.store.paused = w.store.paused := heq
      simp [heq, hw] at ht
    · obtain ⟨rfl, -⟩ := h.unpauser hm hne (hv.trans ht)
      exact hstill msg u v hm
  · subst heq
    rw [h.journaled.logs, List.drop_left, List.mem_flatMap] at he
    obtain ⟨entry, hmem, he⟩ := he
    obtain ⟨msg, buy, punkIndex, p, q, rfl⟩ := returned_of_bidMatched he
    obtain ⟨sale, hacc⟩ : ∃ sale, Accepted net msg p buy punkIndex sale := h.permitted hmem
    obtain ⟨es₁, es₂, hes⟩ := List.append_of_mem (Script.exec_entered x h hmem)
    obtain ⟨msg', u, v, hm, -⟩ := h.unpaused_by hw hes hacc.unpaused
    exact hstill msg' u v (by simp [hes, hm])

/-- The run of the theorem in which the bid for an ape is matched during the pause, in vain, and
once more after the owner has ended it. -/
theorem pause_stops_matches_only_ape :
    ∃ p t es, Runs signedNetwork
        (inTurn [⟨apeMsg 1, .executeMatch apeInput 5⟩, ⟨msgFrom 7, .unpause⟩,
          ⟨apeMsg 1, .executeMatch apeInput 5⟩])
        ((deploy 1 1 7 0 ()).setPaused true) t es ∧
      .returned ⟨apeMsg 1, .executeMatch apeInput 5⟩ p t ∈ es ∧
      ∃ msg u v, .own ⟨msg, .unpause⟩ u v ∈ es ∧ u.store.owner = msg.sender := by
  let w₁ := (deploy 1 1 7 0 ()).setPaused true
  let w₂ := w₁.report [.unpaused 7]
  let c : Call := ⟨apeMsg 1, .executeMatch apeInput 5⟩
  have hrefused : ∃ e, call signedNetwork c w₁ = .revert e := by
    rcases executeMatch_cases signedNetwork (apeMsg 1) apeInput 5 w₁ with ⟨_, h, -⟩ | ⟨hrev, -⟩
    · exact absurd h.unpaused Bool.true_eq_false.mp
    · exact hrev
  obtain ⟨t, es, hmatch, hret, -⟩ :=
    runs_plainMatch (w := w₂) (accepted_apeInput 1 rfl) (Nat.zero_le 0)
  obtain ⟨es₁, es₂, rfl⟩ := List.append_of_mem (Script.exec_entered _ hmatch hret)
  let unpause : Call := ⟨msgFrom 7, .unpause⟩
  let unpausing := single unpause w₁ w₂
  have hrun : Runs signedNetwork (inTurn [c, unpause, c]) w₁ t
      ((unpausing ++ es₁) ++ .entered c w₂ :: es₂) := by
    have hpermitted : Permitted signedNetwork w₁ unpause := ⟨rfl, rfl⟩
    rw [List.append_assoc]
    exact runs_reverted hrefused _ (runs_quiet rfl hpermitted _ rfl hmatch)
  have hret : .returned c w₂ t ∈ (unpausing ++ es₁) ++ .entered c w₂ :: es₂ := by
    rw [List.append_assoc]
    exact List.mem_append_right _ hret
  obtain ⟨msg, u, v, hmem, howner⟩ :=
    (pause_stops_matches_only signedNetwork w₁ _ t _ hrun rfl).1 _ _ _ _ _ _ _ rfl hret
  exact ⟨w₂, t, _, hrun, hret, msg, u, v, List.mem_append_left _ hmem, howner⟩

end PunksBids
