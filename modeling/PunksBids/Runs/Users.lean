import PunksBids.Runs.Authority
import PunksBids.Runs.Turns

/-!
# Users do not race

Who comes first is decided by whoever builds the block.  For what an account may do on its own, to
cancel bids, to increment its nonce and to send ETH, that is no power: however the calls of
different accounts are shuffled, the same calls return and the storage comes out the same
(`users_do_not_race`).  And an account need not even know of the others: what it sees of the
contract, its nonce, the flags of its bids and which of its own calls return, is what it would be if
nobody else had called, the owner included (`strangers_are_not_noticed`).

Two accounts could meet only in a bid hash that is a hash of bids of both, at the nonces they have
by then.  These nonces do not depend on the order either (`foldl_serve_nonces`), so the two bids can
be named in one of the runs (`ToCancel`, `Cancelled`), and strings that are hashed for them collide.
-/

set_option autoImplicit false

namespace PunksBids

open Evm OpenCalls Shuffle

variable {Ω : Type} {net : Network Ω}

/-! ## Calls of two accounts -/

/-- In the storage `st`, no bid that the one call is to cancel for its caller has the hash of a bid
that the other is to cancel for its caller. -/
def Apart (st : Store) (c c' : Call) : Prop :=
  ∀ b ∈ c.op.cancels, b.bidder = c.sender → ∀ b' ∈ c'.op.cancels, b'.bidder = c'.sender →
    st.bidHash b ≠ st.bidHash b'

section Two

variable {w : World Ω} {c c' : Call}

theorem Apart.symm {st : Store} (h : Apart st c c') : Apart st c' c :=
  fun b hb hown b' hb' hown' ↦ (h b' hb' hown' b hb hown).symm

/-- **A call changes nothing that a call of another account depends on.** -/
theorem permitted_after (hop : c.op.isPublic = true) (hop' : c'.op.callsOut = false)
    (hne : c.sender ≠ c'.sender) (hapart : Apart w.store c c') (hp : Permitted net w c') :
    (Permitted net (w.after net c') c ↔ Permitted net w c) ∧
      reports net (w.after net c') c = reports net w c := by
  refine permitted_congr hop ?_ fun bid hbid hb ↦ ?_
  · exact foldl_apply_nonces fun e he heq ↦ hne (mem_reports_increments hop' he heq).2
  · refine foldl_apply_flags fun e he heq ↦ ?_
    obtain ⟨bid', hbid', hb', hhash⟩ := mem_reports_settles hop' hp he heq
    exact hapart bid hbid hb bid' hbid' hb' hhash

/-- The events of a public call. -/
theorem mem_reports_public (hop : c.op.isPublic = true) {e : Event} (he : e ∈ reports net w c) :
    (∃ hash, e = .bidCancelled hash) ∨ ∃ n, e = .nonceIncremented c.sender n := by
  obtain ⟨msg, op⟩ := c
  cases op with
  | cancelBid bid =>
    obtain ⟨hash, -, rfl⟩ := List.mem_map.mp he
    exact .inl ⟨hash, rfl⟩
  | cancelBids bids =>
    obtain ⟨hash, -, rfl⟩ := List.mem_map.mp he
    exact .inl ⟨hash, rfl⟩
  | incrementNonce => exact .inr ⟨_, List.mem_singleton.mp he⟩
  | receive value => simp [reports] at he
  | _ => simp [Op.isPublic] at hop

/-- **The reports of two accounts may change places.** -/
theorem foldl_apply_comm (hop : c.op.isPublic = true) (hop' : c'.op.isPublic = true)
    (hne : c.sender ≠ c'.sender) (st : Store) :
    (reports net w c').foldl Store.apply ((reports net w c).foldl Store.apply st) =
      (reports net w c).foldl Store.apply ((reports net w c').foldl Store.apply st) := by
  refine foldl_swap (P := fun _ ↦ True) eq_equivalence (fun _ h ↦ h ▸ rfl) (fun _ _ ↦ trivial)
    (fun _ _ ↦ trivial) (fun e he e' he' st ↦ ?_) st
  rcases mem_reports_public hop he with ⟨hash, rfl⟩ | ⟨n, rfl⟩
  · rcases mem_reports_public hop' he' with ⟨hash', rfl⟩ | ⟨n', rfl⟩
    · exact st.flag_comm hash hash'
    · rfl
  · rcases mem_reports_public hop' he' with ⟨hash', rfl⟩ | ⟨n', rfl⟩
    · rfl
    · simp only [Store.apply, Store.setNonce, Function.update_comm hne]

end Two

/-! ## Bids that are to be cancelled -/

/-- In the sequence `l`, made in turn from `w`, a call is to cancel `bid` for its caller, who has
the nonce `n` by then. -/
def ToCancel (net : Network Ω) (w : World Ω) (l : List Call) (bid : Bid) (n : Uint256) : Prop :=
  ∃ m c r u es, l = m ++ c :: r ∧ Runs net (inTurn m) w u es ∧ bid ∈ c.op.cancels ∧
    bid.bidder = c.sender ∧ u.store.nonces bid.bidder = n

/-- The nonce at which a bid is to be cancelled is the same in every order. -/
theorem toCancel_of_alike {w t : World Ω} {c : Call} {l : List Call} {es : Trace Ω}
    (hl : ∀ c ∈ l, c.op.callsOut = false) (h : Runs net (inTurn l) w t es)
    {m r : List Call} (halike : Alike Call.sender l (m ++ c :: r)) {bid : Bid}
    (hmem : bid ∈ c.op.cancels) (hown : bid.bidder = c.sender) :
    ToCancel net w l bid ((m.foldl (serve net) (w, [])).1.store.nonces bid.bidder) := by
  have hm : ∀ d ∈ m, d.op.callsOut = false :=
    fun d hd ↦ hl d (halike.mem_iff.mpr (List.mem_append_left _ hd))
  obtain ⟨p, q, rfl, hshare⟩ := halike.before
  obtain ⟨u, es₁, hu, rfl, -⟩ := h.reaches hl
  refine ⟨p, c, q, _, es₁, rfl, hu, hmem, hown, ?_⟩
  rw [hown, foldl_serve_nonces (fun d hd ↦ hl d (List.mem_append_left _ hd)) rfl,
    foldl_serve_nonces hm rfl, hshare]

/-! ## Any order -/

/-- The storage, the ETH and the outside are the same, the same has been logged and the same calls
of each account have returned. -/
structure SameBooks (s s' : World Ω × List Call) : Prop where
  store : s.1.store = s'.1.store
  balance : s.1.balance = s'.1.balance
  outside : s.1.outside = s'.1.outside
  logs : s.1.logs.Perm s'.1.logs
  served : Alike Call.sender s.2 s'.2

theorem sameBooks_equivalence : Equivalence (SameBooks : World Ω × List Call → _ → Prop) where
  refl _ := ⟨rfl, rfl, rfl, .refl _, fun _ ↦ rfl⟩
  symm h := ⟨h.store.symm, h.balance.symm, h.outside.symm, h.logs.symm, fun k ↦ (h.served k).symm⟩
  trans h h' := ⟨h.store.trans h'.store, h.balance.trans h'.balance, h.outside.trans h'.outside,
    h.logs.trans h'.logs, fun k ↦ (h.served k).trans (h'.served k)⟩

section Order

variable {w : World Ω} {c c' : Call} {s s' : World Ω × List Call}

/-- Serving a call respects what is the same. -/
theorem SameBooks.serve (hop : c.op.isPublic = true) (h : SameBooks s s') :
    SameBooks (serve net s c) (PunksBids.serve net s' c) := by
  obtain ⟨w, done⟩ := s
  obtain ⟨w', done'⟩ := s'
  have hquiet := Op.callsOut_of_isPublic hop
  have hstore : w.store = w'.store := h.store
  obtain ⟨hp, hreports⟩ : (Permitted net w' c ↔ Permitted net w c) ∧
      reports net w' c = reports net w c := permitted_congr hop
    (by rw [hstore]) (fun _ _ _ ↦ by rw [hstore])
  by_cases hw : Permitted net w c
  · rw [serve_of_permitted hquiet hw, serve_of_permitted hquiet (hp.mpr hw)]
    refine ⟨?_, ?_, h.outside, ?_, fun k ↦ ?_⟩
    · simp only [World.after_store, hreports, hstore]
    · exact congrArg (· + c.op.value) h.balance
    · simp only [World.after_logs, hreports]
      exact h.logs.append_right _
    · rw [share_append, share_append, h.served k]
  · rw [serve_of_not hquiet hw, serve_of_not hquiet (mt hp.mp hw)]
    exact h

/-- **Calls of two accounts may change places.** -/
theorem serve_comm (hop : c.op.isPublic = true) (hop' : c'.op.isPublic = true)
    (hne : c.sender ≠ c'.sender) (s : World Ω × List Call) (hapart : Apart s.1.store c c') :
    SameBooks (serve net (serve net s c) c') (serve net (serve net s c') c) := by
  obtain ⟨w, done⟩ := s
  have hquiet := Op.callsOut_of_isPublic hop
  have hquiet' := Op.callsOut_of_isPublic hop'
  by_cases hp : Permitted net w c
  · obtain ⟨hiff', hreports'⟩ := permitted_after hop' hquiet (Ne.symm hne) hapart.symm hp
    rw [serve_of_permitted hquiet hp]
    by_cases hp' : Permitted net w c'
    · obtain ⟨hiff, hreports⟩ := permitted_after hop hquiet' hne hapart hp'
      rw [serve_of_permitted hquiet' hp', serve_of_permitted hquiet' (hiff'.mpr hp'),
        serve_of_permitted hquiet (hiff.mpr hp)]
      refine ⟨?_, ?_, ?_, ?_, fun k ↦ ?_⟩
      · simp only [World.after_store, hreports, hreports']
        exact foldl_apply_comm hop hop' hne w.store
      · simp only [World.after_balance, Nat.add_right_comm]
      · simp only [World.after_outside]
      · simp only [World.after_logs, hreports, hreports', List.append_assoc]
        exact List.Perm.append_left _ List.perm_append_comm
      · by_cases hk : c.sender = k
        · simp [share, hk, show c'.sender ≠ k from hk ▸ Ne.symm hne]
        · simp [share, hk, List.filter_cons]
    · rw [serve_of_not hquiet' hp', serve_of_not hquiet' (mt hiff'.mp hp'),
        serve_of_permitted hquiet hp]
      exact sameBooks_equivalence.refl _
  · rw [serve_of_not hquiet hp]
    by_cases hp' : Permitted net w c'
    · obtain ⟨hiff, -⟩ := permitted_after hop hquiet' hne hapart hp'
      rw [serve_of_permitted hquiet' hp', serve_of_not hquiet (mt hiff.mp hp)]
      exact sameBooks_equivalence.refl _
    · rw [serve_of_not hquiet' hp', serve_of_not hquiet hp]
      exact sameBooks_equivalence.refl _

end Order

/-- **Users do not race.**  Two sequences of public calls in which every account makes the same
calls in the same order come to the same, from whatever world: the same storage, ETH and outside,
the same events but for their order, and for every account the same calls that return; or two bids
that different bidders are to cancel, at the nonces they have by then, have strings that collide. -/
theorem users_do_not_race (net : Network Ω) (w : World Ω) (l l' : List Call)
    (hl : ∀ c ∈ l, c.op.isPublic = true) (halike : Alike Call.sender l l') (t t' : World Ω)
    (es es' : Trace Ω) (h : Runs net (inTurn l) w t es) (h' : Runs net (inTurn l') w t' es') :
    (t.store = t'.store ∧ t.balance = t'.balance ∧ t.outside = t'.outside ∧
      t.logs.Perm t'.logs ∧
      ∀ a, share Call.sender a (served es) = share Call.sender a (served es')) ∨
    ∃ b n b' n', ToCancel net w l b n ∧ ToCancel net w l b' n' ∧ b.bidder ≠ b'.bidder ∧
      Collision (bidMessages b n) (bidMessages b' n') := by
  rw [or_iff_not_imp_right]
  intro hno
  have hquiet : ∀ c ∈ l, c.op.callsOut = false := fun c hc ↦ Op.callsOut_of_isPublic (hl c hc)
  have hapart : ∀ {m c c' r r'}, Alike Call.sender l (m ++ c :: r) →
      Alike Call.sender l (m ++ c' :: r') → c.sender ≠ c'.sender →
      Apart (m.foldl (serve net) (w, [])).1.store c c' := by
    intro m c c' r r' hm hm' hne b hb hown b' hb' hown' heq
    rcases hashBid_inj heq with ⟨hsame, -⟩ | hcol
    · exact hne (hown.symm.trans (hsame.bidder_eq.trans hown'))
    · exact hno ⟨b, _, b', _, toCancel_of_alike hquiet h hm hb hown,
        toCancel_of_alike hquiet h hm' hb' hown', by rwa [hown, hown'], hcol⟩
  have hserved := h.served [] hquiet
  have hserved' := h'.served [] fun c hc ↦ hquiet c (halike.mem_iff.mpr hc)
  have hsame : SameBooks (t, [] ++ served es) (t', [] ++ served es') := by
    rw [hserved, hserved']
    refine halike.foldl (f := serve net) (P := (· ∈ l)) sameBooks_equivalence
      (fun hc h ↦ h.serve (hl _ hc)) (fun hm hm' hne ↦ ?_) fun _ hc ↦ hc
    exact serve_comm (hl _ (hm.mem_iff.mpr (by simp))) (hl _ (hm'.mem_iff.mpr (by simp))) hne _
      (hapart hm hm' hne)
  exact ⟨hsame.store, hsame.balance, hsame.outside, hsame.logs, hsame.served⟩

/-- The bidder cancels the bid for an ape. -/
def cancelApe : Call := ⟨{ idleMsg with sender := 3 }, .cancelBid apeBid⟩

/-- The same bid, of the stranger. -/
def strangersBid : Bid := { apeBid with bidder := 2 }

/-- The stranger cancels it. -/
def cancelStrangers : Call := ⟨idleMsg, .cancelBid strangersBid⟩

theorem permitted_cancelBid {w : World Unit} {msg : Msg} {bid : Bid} (hb : bid.bidder = msg.sender)
    (hw : w.store.cancelledOrFilled (w.store.bidHash bid) = false) :
    Permitted idleNetwork w ⟨msg, .cancelBid bid⟩ := by
  refine ⟨by simpa using hb, List.nodup_singleton _, fun hash hmem ↦ ?_⟩
  obtain rfl := List.mem_singleton.mp hmem
  rwa [Store.bidHash, hb] at hw

theorem permitted_strangersCall {w : World Unit} (hw : w.store.nonces 2 = 0) :
    Permitted idleNetwork w strangersCall := by
  have hlt : (w.store.nonces 2).toNat + 1 < wordSize := by
    rw [hw]
    decide
  exact hlt

set_option maxRecDepth 4096 in
theorem hashBid_strangersBid_ne : hashBid strangersBid 0 ≠ hashBid apeBid 0 := by
  decide +kernel

/-- The two bids have no strings that collide. -/
theorem no_collision_strangersBid :
    ¬ Collision (bidMessages apeBid 0) (bidMessages strangersBid 0) := by
  rintro ⟨p, hp, hne, heq⟩
  simp only [bidMessages, List.zip_cons_cons, List.zip_nil_right, List.mem_cons,
    List.not_mem_nil, or_false] at hp
  rcases hp with rfl | rfl | rfl | rfl | rfl
  · exact hne rfl
  · exact hne rfl
  · exact hne rfl
  · exact hne rfl
  · exact hashBid_strangersBid_ne heq.symm

/-- The bidder and the stranger cancel, and the stranger increments the nonce. -/
theorem runs_strangers : ∃ t es, Runs idleNetwork
    (inTurn [cancelApe, cancelStrangers, strangersCall]) (deploy 1 1 7 0 ()) t es :=
  ⟨_, _, runs_inTurn_cons rfl rfl (runs_inTurn_cons rfl rfl
    (runs_inTurn_cons rfl rfl rfl (permitted_strangersCall rfl))
    (permitted_cancelBid rfl (Store.flag_of_ne hashBid_strangersBid_ne _)))
    (permitted_cancelBid rfl rfl)⟩

/-- Both bids are to be cancelled at the nonce 0. -/
theorem toCancel_strangers {w : World Unit} (hw : ∀ a, w.store.nonces a = 0) {bid : Bid}
    {n : Uint256}
    (h : ToCancel idleNetwork w [cancelApe, cancelStrangers, strangersCall] bid n) :
    n = 0 ∧ (bid = apeBid ∨ bid = strangersBid) := by
  obtain ⟨m, c, r, u, es, hl, hu, hmem, hown, rfl⟩ := h
  match m with
  | [] =>
    obtain ⟨rfl, -⟩ : cancelApe = c ∧ _ := List.cons.inj hl
    obtain ⟨rfl, rfl⟩ := Prod.mk.injEq .. ▸ Option.some_inj.mp hu
    exact ⟨hw _, .inl (List.mem_singleton.mp hmem)⟩
  | [d] =>
    obtain ⟨rfl, htail⟩ : cancelApe = d ∧ _ := List.cons.inj hl
    obtain ⟨rfl, -⟩ : cancelStrangers = c ∧ _ := List.cons.inj htail
    obtain rfl := List.mem_singleton.mp hmem
    have hquiet : ∀ c ∈ [cancelApe], c.op.callsOut = false := by decide
    have hnonce : ([cancelApe].foldl (serve idleNetwork) (w, [])).1.store.nonces 2 =
        w.store.nonces 2 := foldl_serve_nonces hquiet rfl
    rw [← hu.served [] hquiet] at hnonce
    exact ⟨hnonce.trans (hw 2), .inr rfl⟩
  | d :: d' :: m =>
    have hc : c ∈ [strangersCall] := by
      obtain ⟨-, htail⟩ := List.cons.inj hl
      obtain ⟨-, htail⟩ := List.cons.inj htail
      simp [htail]
    obtain rfl := List.mem_singleton.mp hc
    cases hmem

/-- The three calls, in two orders. -/
theorem users_do_not_race_cancelApe :
    ∃ t t' es es', Runs idleNetwork
        (inTurn [cancelApe, cancelStrangers, strangersCall]) (deploy 1 1 7 0 ()) t es ∧
      Runs idleNetwork
        (inTurn [cancelStrangers, strangersCall, cancelApe]) (deploy 1 1 7 0 ()) t' es' ∧
      t.store = t'.store := by
  obtain ⟨t, es, h⟩ := runs_strangers
  have h' : Runs idleNetwork (inTurn [cancelStrangers, strangersCall, cancelApe])
      (deploy 1 1 7 0 ()) _ _ :=
    runs_inTurn_cons rfl rfl (runs_inTurn_cons rfl rfl (runs_inTurn_cons rfl rfl rfl
      (permitted_cancelBid rfl (Store.flag_of_ne (Ne.symm hashBid_strangersBid_ne) _)))
      (permitted_strangersCall rfl))
      (permitted_cancelBid rfl rfl)
  have halike : Alike Call.sender [cancelApe, cancelStrangers, strangersCall]
      [cancelStrangers, strangersCall, cancelApe] :=
    alike_move (p := [cancelStrangers, strangersCall]) (by decide)
  refine ⟨t, _, es, _, h, h', ?_⟩
  refine ((users_do_not_race idleNetwork _ _ _ (by decide) halike _ _ _ _ h h').resolve_right ?_).1
  rintro ⟨b, n, b', n', hb, hb', hne, hcol⟩
  obtain ⟨rfl, hbid⟩ := toCancel_strangers (fun _ ↦ rfl) hb
  obtain ⟨rfl, hbid'⟩ := toCancel_strangers (fun _ ↦ rfl) hb'
  rcases hbid with rfl | rfl <;> rcases hbid' with rfl | rfl
  · exact hne rfl
  · exact no_collision_strangersBid hcol
  · exact no_collision_strangersBid hcol.symm
  · exact hne rfl

/-! ## Alone -/

/-- A call in `es` that returned has cancelled `bid` for its caller, who had the nonce `n`. -/
def Cancelled (es : Trace Ω) (bid : Bid) (n : Uint256) : Prop :=
  ∃ c p q, .returned c p q ∈ es ∧ bid ∈ c.op.cancels ∧ bid.bidder = c.sender ∧
    p.store.nonces bid.bidder = n

/-- A bid that somebody else has cancelled in `es` and `bid` have strings that collide. -/
def Clash (es : Trace Ω) (bid : Bid) (n : Uint256) : Prop :=
  ∃ b n', b.bidder ≠ bid.bidder ∧ Cancelled es b n' ∧
    Collision (bidMessages bid n) (bidMessages b n')

/-- What the account `a` sees is the same: which of its calls have returned, and the flags of its
bids but for those that clash. -/
structure SeesAlike (es : Trace Ω) (a : Address) (s s' : World Ω × List Call) : Prop where
  served : share Call.sender a s.2 = share Call.sender a s'.2
  flags : ∀ bid n, bid.bidder = a →
    s.1.store.cancelledOrFilled (hashBid bid n) = s'.1.store.cancelledOrFilled (hashBid bid n) ∨
      Clash es bid n

/-- What a call of a sequence has cancelled, it was to cancel. -/
theorem Cancelled.toCancel {l : List Call} {w t : World Ω} {es : Trace Ω} {bid : Bid} {n : Uint256}
    (hl : ∀ c ∈ l, c.op.callsOut = false) (h : Runs net (inTurn l) w t es)
    (hbid : Cancelled es bid n) : ToCancel net w l bid n := by
  obtain ⟨c, p, q, hret, hmem, hown, rfl⟩ := hbid
  suffices hat : ∃ m r es₁, l = m ++ c :: r ∧ Runs net (inTurn m) w p es₁ by
    obtain ⟨m, r, es₁, heq, hm⟩ := hat
    exact ⟨m, c, r, p, es₁, heq, hm, hmem, hown, rfl⟩
  clear hmem hown
  induction l generalizing w es with
  | nil =>
    obtain ⟨-, rfl⟩ := Prod.mk.injEq .. ▸ Option.some_inj.mp h
    cases hret
  | cons d l ih =>
    have hop := hl d List.mem_cons_self
    have hrest : ∀ c ∈ l, c.op.callsOut = false := fun c hc ↦ hl c (List.mem_cons_of_mem _ hc)
    rcases h.cons_quiet hop with ⟨hp, es', rfl, hnext⟩ | ⟨hno, hnext⟩
    · rcases List.mem_append.mp hret with hd | hret
      · obtain ⟨rfl, rfl, -⟩ : c = d ∧ p = w ∧ q = w.after net d := by simpa [single] using hd
        exact ⟨[], l, [], rfl, rfl⟩
      · obtain ⟨m, r, es₁, rfl, hm⟩ := ih hrest hnext hret
        exact ⟨d :: m, r, _, rfl, runs_inTurn_cons hop rfl hm hp⟩
    · obtain ⟨m, r, es₁, rfl, hm⟩ := ih hrest hnext hret
      exact ⟨d :: m, r, es₁, rfl, runs_reverted (call_of_not_permitted hop hno) _ hm⟩

section Alone

variable {a : Address} {c : Call} {s s' : World Ω × List Call} {es : Trace Ω}

/-- **A call of somebody else is not noticed**, but for bids that clash. -/
theorem SeesAlike.others (hop : c.op.callsOut = false) (hne : c.sender ≠ a)
    (hret : Permitted net s.1 c → .returned c s.1 (s.1.after net c) ∈ es)
    (h : SeesAlike es a s s') : SeesAlike es a (serve net s c) s' := by
  obtain ⟨w, done⟩ := s
  by_cases hp : Permitted net w c
  swap
  · rw [serve_of_not hop hp]
    exact h
  rw [serve_of_permitted hop hp]
  refine ⟨?_, fun bid n hb ↦ ?_⟩
  · rw [share_append, share_cons_of_ne hne, ← h.served]
    exact List.append_nil _
  by_cases hclash : ∃ e ∈ reports net w c, e.settles = some (hashBid bid n)
  · obtain ⟨e, he, hsettles⟩ := hclash
    obtain ⟨b, hmem, hown, hhash⟩ := mem_reports_settles hop hp he hsettles
    have hbidder : b.bidder ≠ bid.bidder := by
      rw [hown, hb]
      exact hne
    rcases hashBid_inj hhash with ⟨hsame, -⟩ | hcol
    · exact absurd hsame.bidder_eq.symm hbidder
    · exact .inr ⟨b, _, hbidder, ⟨c, w, _, hret hp, hmem, hown, rfl⟩, hcol⟩
  · refine (h.flags bid n hb).imp_left fun hsame ↦ ?_
    rw [← hsame]
    exact foldl_apply_flags fun e he heq ↦ hclash ⟨e, he, heq⟩

/-- A call of the account itself does the same wherever it sees the same, if none of the bids that
it is to cancel clashes. -/
theorem SeesAlike.own (hop : c.op.isPublic = true) (hc : c.sender = a)
    (hn : s.1.store.nonces a = s'.1.store.nonces a)
    (hno : ∀ bid ∈ c.op.cancels, bid.bidder = a → ¬ Clash es bid (s.1.store.nonces bid.bidder))
    (h : SeesAlike es a s s') : SeesAlike es a (serve net s c) (serve net s' c) := by
  obtain ⟨w, done⟩ := s
  obtain ⟨w', done'⟩ := s'
  have hn : w.store.nonces a = w'.store.nonces a := hn
  have hquiet := Op.callsOut_of_isPublic hop
  obtain ⟨hp, hreports⟩ : (Permitted net w c ↔ Permitted net w' c) ∧
      reports net w c = reports net w' c := by
    refine permitted_congr hop (hc ▸ hn) fun bid hbid hb ↦ ?_
    have hb : bid.bidder = a := hb.trans hc
    have hhash : w'.store.bidHash bid = hashBid bid (w.store.nonces bid.bidder) := by
      rw [Store.bidHash, hb, hn]
    rw [hhash]
    exact (h.flags bid _ hb).resolve_right (hno bid hbid hb)
  by_cases hw : Permitted net w c
  swap
  · rw [serve_of_not hquiet hw, serve_of_not hquiet (mt hp.mpr hw)]
    exact h
  rw [serve_of_permitted hquiet hw, serve_of_permitted hquiet (hp.mp hw)]
  refine ⟨?_, fun bid n hb ↦ (h.flags bid n hb).imp_left fun hsame ↦ ?_⟩
  · rw [share_append, share_append, h.served]
  · simp only [World.after_store, hreports]
    exact foldl_congr (f := Store.apply) (P := fun _ ↦ True) (R := fun st st' : Store ↦
        st.cancelledOrFilled (hashBid bid n) = st'.cancelledOrFilled (hashBid bid n))
      (fun _ h ↦ apply_flags_congr h _) (fun _ _ ↦ trivial) hsame

end Alone

/-- **Strangers are not noticed.**  Of a sequence of calls that hand over no control, in which the
account `a` makes public calls only and others make any, the account sees what it would have seen if
they had not been made.  Its nonce is the same; and so is which of its calls return, and the flag of
each of its bids at each nonce, unless that bid clashes with one that somebody else has cancelled in
the run.  The exception is a bid that clashes and that the account itself is to cancel. -/
theorem strangers_are_not_noticed (net : Network Ω) (w : World Ω) (l : List Call)
    (hl : ∀ c ∈ l, c.op.callsOut = false) (a : Address)
    (hown : ∀ c ∈ l, c.sender = a → c.op.isPublic = true) (t t' : World Ω) (es es' : Trace Ω)
    (h : Runs net (inTurn l) w t es)
    (h' : Runs net (inTurn (share Call.sender a l)) w t' es') :
    t.store.nonces a = t'.store.nonces a ∧
    ((share Call.sender a (served es) = share Call.sender a (served es') ∧
      ∀ bid n, bid.bidder = a → t.store.cancelledOrFilled (hashBid bid n) =
        t'.store.cancelledOrFilled (hashBid bid n) ∨ Clash es bid n) ∨
    ∃ bid n, bid.bidder = a ∧ ToCancel net w l bid n ∧ Clash es bid n) := by
  have hserved := h.served [] hl
  have hserved' := h'.served [] fun c hc ↦ hl c (List.mem_of_mem_filter hc)
  refine ⟨?_, ?_⟩
  · have hnonce : (l.foldl (serve net) (w, [])).1.store.nonces a = _ := foldl_serve_nonces hl rfl
    rw [← hserved] at hnonce
    exact hnonce.trans (congrArg (·.1.store.nonces a) hserved').symm
  rw [or_iff_not_imp_right]
  intro hno
  have hsame : SeesAlike es a (t, [] ++ served es) (t', [] ++ served es') := by
    rw [hserved, hserved']
    refine foldl_share (f := serve net) ?_ ?_ ⟨rfl, fun _ _ _ ↦ .inl rfl⟩
    · rintro m c r rfl hne hm
      obtain ⟨u, -, -, rfl, hret⟩ := h.reaches hl
      exact hm.others (hl c (by simp)) hne hret
    · rintro m c r rfl hc hm
      have hquiet : ∀ d ∈ m, d.op.callsOut = false := fun d hd ↦ hl d (by simp [hd])
      refine hm.own (hown c (by simp) hc) hc (foldl_serve_nonces hquiet rfl) ?_
      intro bid hbid hb hclash
      have hto := toCancel_of_alike hl h (fun _ ↦ rfl) hbid (hb.trans hc.symm)
      exact hno ⟨bid, _, hb, hto, hclash⟩
  exact ⟨hsame.served, hsame.flags⟩

/-- The bidder does not notice that the stranger cancels and increments. -/
theorem strangers_are_not_noticed_cancelApe :
    ∃ t t' es es', Runs idleNetwork
        (inTurn [cancelApe, cancelStrangers, strangersCall]) (deploy 1 1 7 0 ()) t es ∧
      Runs idleNetwork (inTurn [cancelApe]) (deploy 1 1 7 0 ()) t' es' ∧
      share Call.sender 3 (served es) = share Call.sender 3 (served es') ∧
      t.store.cancelledOrFilled (hashBid apeBid 0) =
        t'.store.cancelledOrFilled (hashBid apeBid 0) := by
  obtain ⟨t, es, h⟩ := runs_strangers
  have h' : Runs idleNetwork (inTurn [cancelApe]) (deploy 1 1 7 0 ()) _ _ :=
    runs_inTurn_cons rfl rfl rfl (permitted_cancelBid rfl rfl)
  refine ⟨t, _, es, _, h, h', ?_⟩
  have hclash : ¬ Clash es apeBid 0 := by
    rintro ⟨b, n', hne, hcan, hcol⟩
    obtain ⟨rfl, rfl | rfl⟩ := toCancel_strangers (fun _ ↦ rfl) (hcan.toCancel (by decide) h)
    · exact hne rfl
    · exact no_collision_strangersBid hcol
  obtain ⟨-, ⟨hserved, hflags⟩ | ⟨bid, n, hb, hbid, hno⟩⟩ :=
    strangers_are_not_noticed idleNetwork _ _ (by decide) 3 (by decide) _ _ _ _ h h'
  · exact ⟨hserved, (hflags apeBid 0 rfl).resolve_right hclash⟩
  · obtain ⟨rfl, rfl | rfl⟩ := toCancel_strangers (fun _ ↦ rfl) hbid
    · exact absurd hno hclash
    · exact absurd hb (by decide)

end PunksBids
