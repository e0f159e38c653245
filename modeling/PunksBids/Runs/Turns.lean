import PunksBids.Lib.Shuffle
import PunksBids.Runs.Journal

/-!
# Calls in turn

Calls that hand over no control are served one after the other (`serve`), and a run of them is a
fold (`Runs.served`).  What such a call depends on and what it changes is little: the reports of a
call touch the nonce of its sender and flags of bids of its sender (`mem_reports_increments`,
`mem_reports_settles`), and what is asked of a public call is a matter of that nonce and of the
flags of the bids that it is to cancel (`permitted_congr`).  So the nonce of an account is the same
whatever others do in between (`foldl_serve_nonces`).
-/

set_option autoImplicit false

namespace PunksBids

open Evm OpenCalls Shuffle

variable {Ω : Type} {net : Network Ω}

/-- The functions that are there for every account, and hand over no control. -/
def Op.isPublic : Op → Bool
  | .cancelBid _ | .cancelBids _ | .incrementNonce | .receive _ => true
  | _ => false

/-- The caller. -/
def Call.sender (c : Call) : Address := c.msg.sender

theorem Op.callsOut_of_isPublic {op : Op} (h : op.isPublic = true) : op.callsOut = false := by
  cases op with
  | executeMatch _ _ => simp [Op.isPublic] at h
  | withdrawFees _ => simp [Op.isPublic] at h
  | _ => rfl

/-! ## Calls one after the other -/

/-- The world after a call that hands over no control and returns. -/
def World.after (net : Network Ω) (w : World Ω) (c : Call) : World Ω :=
  (w.report (reports net w c)).deposit c.op.value

section After

variable (net : Network Ω) (w : World Ω) (c : Call)

@[simp] theorem World.after_store :
    (w.after net c).store = (reports net w c).foldl Store.apply w.store := rfl

@[simp] theorem World.after_balance : (w.after net c).balance = w.balance + c.op.value := rfl

@[simp] theorem World.after_logs : (w.after net c).logs = w.logs ++ reports net w c := rfl

@[simp] theorem World.after_outside : (w.after net c).outside = w.outside := rfl

end After

/-- A call is made; what is kept is the world and the calls that returned. -/
def serve (net : Network Ω) (s : World Ω × List Call) (c : Call) : World Ω × List Call :=
  match call net c s.1 with
  | .ret _ t => (t, s.2 ++ [c])
  | _ => s

/-- The calls that returned. -/
def served (es : Trace Ω) : List Call :=
  es.filterMap fun
    | .returned c _ _ => some c
    | _ => none

section Serve

variable {w t : World Ω} {c : Call} {cs done : List Call} {es : Trace Ω}

theorem serve_of_permitted (hop : c.op.callsOut = false) (h : Permitted net w c) :
    serve net (w, done) c = (w.after net c, done ++ [c]) := by
  rw [serve, call_of_permitted hop h]
  rfl

theorem serve_of_not (hop : c.op.callsOut = false) (h : ¬ Permitted net w c) :
    serve net (w, done) c = (w, done) := by
  obtain ⟨e, hrev⟩ := call_of_not_permitted hop h
  rw [serve, hrev]

/-- The first of some calls in turn is permitted and returns, or it leaves no trace. -/
theorem Runs.cons_quiet (hop : c.op.callsOut = false) (h : Runs net (inTurn (c :: cs)) w t es) :
    (Permitted net w c ∧ ∃ es', es = single c w (w.after net c) ++ es' ∧
      Runs net (inTurn cs) (w.after net c) t es') ∨
    ¬ Permitted net w c ∧ Runs net (inTurn cs) w t es := by
  by_cases hp : Permitted net w c
  · left
    have hret := call_of_permitted hop hp
    simp only [Runs, inTurn, Script.exec, hret, trace_ret, Option.map_eq_some_iff] at h
    obtain ⟨⟨t', es'⟩, hnext, heq⟩ := h
    obtain ⟨rfl, rfl⟩ := Prod.mk.injEq .. ▸ heq
    exact ⟨hp, es', rfl, hnext⟩
  · right
    obtain ⟨e, hrev⟩ := call_of_not_permitted hop hp
    simp only [Runs, inTurn, Script.exec, hrev, trace_revert] at h
    exact ⟨hp, h⟩

/-- **Calls in turn are served one after the other.** -/
theorem Runs.served (done : List Call) (hcs : ∀ c ∈ cs, c.op.callsOut = false)
    (h : Runs net (inTurn cs) w t es) :
    (t, done ++ PunksBids.served es) = cs.foldl (serve net) (w, done) := by
  induction cs generalizing w es done with
  | nil =>
    obtain ⟨rfl, rfl⟩ := Prod.mk.injEq .. ▸ Option.some_inj.mp h
    simp [PunksBids.served]
  | cons c cs ih =>
    have hop := hcs c List.mem_cons_self
    have hrest : ∀ c ∈ cs, c.op.callsOut = false := fun c hc ↦ hcs c (List.mem_cons_of_mem _ hc)
    rw [List.foldl_cons]
    rcases h.cons_quiet hop with ⟨hp, es', rfl, hnext⟩ | ⟨hp, hnext⟩
    · rw [serve_of_permitted hop hp, ← ih _ hrest hnext]
      simp [PunksBids.served, single]
    · rw [serve_of_not hop hp]
      exact ih _ hrest hnext

/-- A run of calls in turn, cut in two. -/
theorem Runs.cut {cs' : List Call} (hcs : ∀ c ∈ cs, c.op.callsOut = false)
    (h : Runs net (inTurn (cs ++ cs')) w t es) :
    ∃ u es₁ es₂, Runs net (inTurn cs) w u es₁ ∧ Runs net (inTurn cs') u t es₂ ∧
      es = es₁ ++ es₂ := by
  induction cs generalizing w es with
  | nil => exact ⟨w, [], es, rfl, h, rfl⟩
  | cons c cs ih =>
    have hop := hcs c List.mem_cons_self
    have hrest : ∀ c ∈ cs, c.op.callsOut = false := fun c hc ↦ hcs c (List.mem_cons_of_mem _ hc)
    rcases h.cons_quiet hop with ⟨hp, es', rfl, hnext⟩ | ⟨hp, hnext⟩
    · obtain ⟨u, es₁, es₂, h₁, h₂, rfl⟩ := ih hrest hnext
      exact ⟨u, _, es₂, runs_inTurn_cons hop rfl h₁ hp, h₂, (List.append_assoc ..).symm⟩
    · obtain ⟨u, es₁, es₂, h₁, h₂, rfl⟩ := ih hrest hnext
      exact ⟨u, es₁, es₂, runs_reverted (call_of_not_permitted hop hp) _ h₁, h₂, rfl⟩

/-- The world in which a call is made, and the trace it leaves if it returns. -/
theorem Runs.reaches {cs' : List Call} (hcs : ∀ d ∈ cs ++ c :: cs', d.op.callsOut = false)
    (h : Runs net (inTurn (cs ++ c :: cs')) w t es) :
    ∃ u es₁, Runs net (inTurn cs) w u es₁ ∧ u = (cs.foldl (serve net) (w, [])).1 ∧
      (Permitted net u c → .returned c u (u.after net c) ∈ es) := by
  have hquiet : ∀ d ∈ cs, d.op.callsOut = false := fun d hd ↦ hcs d (List.mem_append_left _ hd)
  obtain ⟨u, es₁, es₂, h₁, h₂, rfl⟩ := h.cut hquiet
  refine ⟨u, es₁, h₁, congrArg Prod.fst (h₁.served [] hquiet), fun hp ↦ ?_⟩
  rcases h₂.cons_quiet (hcs c (by simp)) with ⟨-, es', rfl, -⟩ | ⟨hno, -⟩
  · simp [single]
  · exact absurd hp hno

end Serve

/-! ## What a call touches -/

section Touches

variable {w : World Ω} {c : Call} {e : Event} {st st' : Store}

/-- A call increments no nonce but that of its sender. -/
theorem mem_reports_increments (hop : c.op.callsOut = false) (he : e ∈ reports net w c)
    {a : Address} (h : e.increments = some a) : c.op = .incrementNonce ∧ a = c.sender := by
  obtain ⟨msg, op⟩ := c
  cases op with
  | executeMatch buy punkIndex => simp [Op.callsOut] at hop
  | incrementNonce =>
    obtain rfl : e = .nonceIncremented msg.sender (w.store.nonces msg.sender + 1) := by
      simpa [reports] using he
    exact ⟨rfl, (Option.some_inj.mp h).symm⟩
  | receive value => simp [reports] at he
  | cancelBid bid =>
    obtain ⟨hash, -, rfl⟩ := List.mem_map.mp he
    cases h
  | cancelBids bids =>
    obtain ⟨hash, -, rfl⟩ := List.mem_map.mp he
    cases h
  | _ =>
    obtain rfl := List.mem_singleton.mp he
    cases h

theorem mem_cancelled {sender : Address} {bids : List Bid} (h : BatchCancellable w sender bids)
    (he : e ∈ (w.batchHashes sender bids).map .bidCancelled) {hash : Bytes32}
    (hhash : e.settles = some hash) :
    ∃ bid ∈ bids, bid.bidder = sender ∧ hash = w.store.bidHash bid := by
  obtain ⟨_, hmem, rfl⟩ := List.mem_map.mp he
  obtain ⟨bid, hbid, rfl⟩ := List.mem_map.mp hmem
  have hbidder := h.bidder_eq bid hbid
  exact ⟨bid, hbid, hbidder, by rw [← Option.some_inj.mp hhash, Store.bidHash, hbidder]⟩

/-- A call that is permitted sets no flags but those of bids of its sender. -/
theorem mem_reports_settles (hop : c.op.callsOut = false) (hp : Permitted net w c)
    (he : e ∈ reports net w c) {hash : Bytes32} (h : e.settles = some hash) :
    ∃ bid ∈ c.op.cancels, bid.bidder = c.sender ∧ hash = w.store.bidHash bid := by
  obtain ⟨msg, op⟩ := c
  cases op with
  | executeMatch buy punkIndex => simp [Op.callsOut] at hop
  | receive value => simp [reports] at he
  | cancelBid bid => exact mem_cancelled hp he h
  | cancelBids bids => exact mem_cancelled hp he h
  | _ =>
    obtain rfl := List.mem_singleton.mp he
    cases h

/-- Events that increment other nonces leave a nonce alone. -/
theorem foldl_apply_nonces {es : List Event} {a : Address} (h : ∀ e ∈ es, e.increments ≠ some a) :
    (es.foldl Store.apply st).nonces a = st.nonces a := by
  induction es generalizing st with
  | nil => rfl
  | cons e es ih =>
    rw [List.foldl_cons, ih fun e' he' ↦ h e' (List.mem_cons_of_mem _ he')]
    cases e with
    | nonceIncremented bidder n =>
      have hne : bidder ≠ a := fun heq ↦ h _ List.mem_cons_self (congrArg some heq)
      exact Function.update_of_ne (Ne.symm hne) _ _
    | _ => rfl

/-- Events that settle other hashes leave a flag alone. -/
theorem foldl_apply_flags {es : List Event} {hash : Bytes32}
    (h : ∀ e ∈ es, e.settles ≠ some hash) :
    (es.foldl Store.apply st).cancelledOrFilled hash = st.cancelledOrFilled hash := by
  induction es generalizing st with
  | nil => rfl
  | cons e es ih =>
    rw [List.foldl_cons, ih fun e' he' ↦ h e' (List.mem_cons_of_mem _ he')]
    have hne (hash' : Bytes32) (heq : e.settles = some hash') : hash ≠ hash' :=
      fun hh ↦ h _ List.mem_cons_self (hh ▸ heq)
    cases e with
    | bidMatched _ _ _ _ hash' => exact Store.flag_of_ne (hne hash' rfl) st
    | bidCancelled hash' => exact Store.flag_of_ne (hne hash' rfl) st
    | _ => rfl

/-- What an event does to a nonce depends on nothing else. -/
theorem apply_nonces_congr {a : Address} (h : st.nonces a = st'.nonces a) (e : Event) :
    (st.apply e).nonces a = (st'.apply e).nonces a := by
  cases e with
  | nonceIncremented bidder n =>
    by_cases ha : a = bidder
    · simp [Store.apply, Store.setNonce, ha]
    · simp [Store.apply, Store.setNonce, ha, h]
  | _ => exact h

/-- What an event does to a flag depends on nothing else. -/
theorem apply_flags_congr {hash : Bytes32}
    (h : st.cancelledOrFilled hash = st'.cancelledOrFilled hash) (e : Event) :
    (st.apply e).cancelledOrFilled hash = (st'.apply e).cancelledOrFilled hash := by
  have hflag (hash' : Bytes32) :
      (st.flag hash').cancelledOrFilled hash = (st'.flag hash').cancelledOrFilled hash := by
    by_cases heq : hash = hash'
    · simp [heq]
    · simp [Store.flag_of_ne heq, h]
  cases e with
  | bidMatched _ _ _ _ hash' => exact hflag hash'
  | bidCancelled hash' => exact hflag hash'
  | _ => exact h

theorem World.batchHashes_congr {w' : World Ω} {sender : Address}
    (hn : w'.store.nonces sender = w.store.nonces sender) (bids : List Bid) :
    w'.batchHashes sender bids = w.batchHashes sender bids := by
  rw [World.batchHashes, World.batchHashes, hn]

theorem Store.bidHash_congr {bid : Bid} (h : st'.nonces bid.bidder = st.nonces bid.bidder) :
    st'.bidHash bid = st.bidHash bid := by
  rw [Store.bidHash, Store.bidHash, h]

/-- Whether a batch can be cancelled depends on the nonce of the sender and the flags of its
bids. -/
theorem BatchCancellable.congr {w' : World Ω} {sender : Address} {bids : List Bid}
    (h : BatchCancellable w sender bids) (hn : w'.store.nonces sender = w.store.nonces sender)
    (hf : ∀ bid ∈ bids, bid.bidder = sender → w'.store.cancelledOrFilled (w.store.bidHash bid) =
      w.store.cancelledOrFilled (w.store.bidHash bid)) :
    BatchCancellable w' sender bids := by
  obtain ⟨hb, hdistinct, hfree⟩ := h
  have hhashes := World.batchHashes_congr hn bids
  refine ⟨hb, by rwa [hhashes], fun hash hmem ↦ ?_⟩
  rw [hhashes] at hmem
  obtain ⟨bid, hbid, rfl⟩ := List.mem_map.mp hmem
  have hsame := hf bid hbid (hb bid hbid)
  rw [Store.bidHash, hb bid hbid] at hsame
  exact hsame.trans (hfree _ hmem)

/-- **What is asked of a public call and what it reports** depends on the nonce of its sender and on
the flags of the bids of its sender that are to be cancelled. -/
theorem permitted_congr {w' : World Ω} (hop : c.op.isPublic = true)
    (hn : w'.store.nonces c.sender = w.store.nonces c.sender)
    (hf : ∀ bid ∈ c.op.cancels, bid.bidder = c.sender →
      w'.store.cancelledOrFilled (w.store.bidHash bid) =
        w.store.cancelledOrFilled (w.store.bidHash bid)) :
    (Permitted net w' c ↔ Permitted net w c) ∧ reports net w' c = reports net w c := by
  obtain ⟨msg, op⟩ := c
  have hnonce : w'.store.nonces msg.sender = w.store.nonces msg.sender := hn
  have hhashes := World.batchHashes_congr hnonce
  have hbatch (bids : List Bid) (hf : ∀ bid ∈ bids, bid.bidder = msg.sender →
      w'.store.cancelledOrFilled (w.store.bidHash bid) =
        w.store.cancelledOrFilled (w.store.bidHash bid)) :
      BatchCancellable w' msg.sender bids ↔ BatchCancellable w msg.sender bids := by
    refine ⟨fun h ↦ h.congr hnonce.symm fun bid hbid hb ↦ ?_, fun h ↦ h.congr hnonce hf⟩
    rw [Store.bidHash_congr (hb ▸ hnonce)]
    exact (hf bid hbid hb).symm
  cases op with
  | cancelBid bid => exact ⟨hbatch [bid] hf, by simp only [reports, hhashes]⟩
  | cancelBids bids => exact ⟨hbatch bids hf, by simp only [reports, hhashes]⟩
  | incrementNonce => exact ⟨by simp only [Permitted, hnonce], by simp only [reports, hnonce]⟩
  | receive value => exact ⟨Iff.rfl, rfl⟩
  | _ => simp [Op.isPublic] at hop

end Touches

/-! ## The nonce of an account -/

section Nonces

variable {c : Call} {l : List Call} {a : Address} {s s' : World Ω × List Call}

/-- A call that does not increment a nonce leaves it alone. -/
theorem serve_nonces_of_not (hop : c.op.callsOut = false)
    (hno : ¬ (c.op = .incrementNonce ∧ a = c.sender)) :
    (serve net s c).1.store.nonces a = s.1.store.nonces a := by
  obtain ⟨w, done⟩ := s
  by_cases hp : Permitted net w c
  · rw [serve_of_permitted hop hp]
    exact foldl_apply_nonces fun e he heq ↦ hno (mem_reports_increments hop he heq)
  · rw [serve_of_not hop hp]

/-- What a call does to a nonce depends on nothing else. -/
theorem serve_nonces_congr (hop : c.op.callsOut = false)
    (hn : s.1.store.nonces a = s'.1.store.nonces a) :
    (serve net s c).1.store.nonces a = (serve net s' c).1.store.nonces a := by
  by_cases hinc : c.op = .incrementNonce ∧ a = c.sender
  swap
  · rw [serve_nonces_of_not hop hinc, serve_nonces_of_not hop hinc, hn]
  obtain ⟨w, done⟩ := s
  obtain ⟨w', done'⟩ := s'
  obtain ⟨msg, op⟩ := c
  obtain ⟨rfl, rfl⟩ := hinc
  obtain ⟨hp, hreports⟩ : (Permitted net w ⟨msg, .incrementNonce⟩ ↔
      Permitted net w' ⟨msg, .incrementNonce⟩) ∧
      reports net w ⟨msg, .incrementNonce⟩ = reports net w' ⟨msg, .incrementNonce⟩ :=
    permitted_congr rfl hn (by simp [Op.cancels])
  by_cases hw : Permitted net w ⟨msg, .incrementNonce⟩
  · rw [serve_of_permitted hop hw, serve_of_permitted hop (hp.mp hw)]
    simp only [World.after_store, hreports]
    exact foldl_congr (f := Store.apply) (P := fun _ ↦ True)
      (R := fun st st' : Store ↦ st.nonces msg.sender = st'.nonces msg.sender)
      (fun _ h ↦ apply_nonces_congr h _) (fun _ _ ↦ trivial) hn
  · rw [serve_of_not hop hw, serve_of_not hop (mt hp.mpr hw)]
    exact hn

/-- **The nonce of an account depends on its own calls only.** -/
theorem foldl_serve_nonces (hl : ∀ c ∈ l, c.op.callsOut = false)
    (hn : s.1.store.nonces a = s'.1.store.nonces a) :
    (l.foldl (serve net) s).1.store.nonces a =
      ((share Call.sender a l).foldl (serve net) s').1.store.nonces a := by
  refine foldl_share (f := serve net)
    (V := fun s s' : World Ω × List Call ↦ s.1.store.nonces a = s'.1.store.nonces a) ?_ ?_ hn
  · rintro m c r rfl hne hsame
    rw [serve_nonces_of_not (hl c (by simp)) fun hinc ↦ hne hinc.2.symm, hsame]
  · rintro m c r rfl _ hsame
    exact serve_nonces_congr (hl c (by simp)) hsame

end Nonces

end PunksBids
