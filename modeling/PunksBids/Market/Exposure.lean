import Mathlib.Algebra.Order.BigOperators.Group.List
import Mathlib.Data.List.Perm.Subperm
import PunksBids.Market.Protection
import PunksBids.Market.Refinement
import PunksBids.Market.Solvency
import PunksBids.Runs.OrderBook
import PunksBids.Runs.Outcome

/-!
# How much a bidder can lose

Bids are signed and handed around, and a bidder cannot know which of them will be matched, nor how
often anybody will try.  What can be known beforehand is a bound: the contract takes from an account
at most the sum of the amounts of the orders it has signed, each counted once.

Over a stretch of a run this is `Spends`: what is taken is covered by the orders that were filled,
and these are different orders, since each needs a clear flag and leaves it set.  What was signed is
a book of mandates, for any chains and contracts; that all the orders are in it, and signed for this
deployment, is the binding of the digest again (`digest_inj`).
-/

set_option autoImplicit false

namespace PunksBids

open Evm OpenCalls

variable {Ω : Type} {env : Externals Ω} {net : Network Ω}

/-- A list without repetitions weighs no more than one that contains it. -/
theorem sum_le_of_nodup_of_subset {α : Type} (f : α → Nat) {l l' : List α} (hl : l.Nodup)
    (hsub : l ⊆ l') : (l.map f).sum ≤ (l'.map f).sum := by
  obtain ⟨k, hperm, hk⟩ := hl.subperm hsub
  rw [← (hperm.map f).sum_eq]
  exact (hk.map f).sum_le_sum fun _ _ ↦ Nat.zero_le _

/-- The orders of `a` that were filled. -/
def filledOrders (a : Address) (es : Trace Ω) : List Bid :=
  es.filterMap fun
    | .own ⟨_, .executeMatch buy _⟩ u _ =>
      if buy.bid.bidder = a then some (u.store.ticket buy.bid) else none
    | _ => none

/-- The sum of the amounts of orders. -/
def worth (orders : List Bid) : Nat := (orders.map fun o ↦ o.amount.toNat).sum

/-- The orders of a book that are for the deployment at `self` on the chain `chainId`. -/
def ordersFor (chainId : Uint256) (self : Address) (book : List Mandate) : List Bid :=
  (book.filter fun m ↦ m.chainId = chainId ∧ m.self = self).map Mandate.bid

theorem mem_ordersFor {book : List Mandate} {m : Mandate} (h : m ∈ book) :
    m.bid ∈ ordersFor m.chainId m.self book :=
  List.mem_map_of_mem (List.mem_filter.mpr ⟨h, by simp⟩)

@[simp] theorem filledOrders_append (a : Address) (es es' : Trace Ω) :
    filledOrders a (es ++ es') = filledOrders a es ++ filledOrders a es' :=
  List.filterMap_append

@[simp] theorem worth_append (orders orders' : List Bid) :
    worth (orders ++ orders') = worth orders + worth orders' := by
  simp [worth]

namespace Externals

/-- The WETH that a stretch of the contract's code takes from `a`. -/
def taken (env : Externals Ω) (a : Address) : Entry Call (Deed Ω) (World Ω) → Nat
  | .own _ u v => env.balanceOf u.outside a - env.balanceOf v.outside a
  | _ => 0

/-- What is taken from `a` is covered by orders whose flags were clear and are set. -/
structure Spends (env : Externals Ω) (a : Address) (s : World Ω) (es : Trace Ω) (t : World Ω) :
    Prop where
  covered : total (env.taken a) es ≤ worth (filledOrders a es)
  nodup : (filledOrders a es).Nodup
  clear : ∀ o ∈ filledOrders a es, s.store.cancelledOrFilled o.hash = false
  set : ∀ o ∈ filledOrders a es, t.store.cancelledOrFilled o.hash = true
  grows : Grows s t

variable {a : Address}

/-- Nothing is taken, and no order filled. -/
theorem Spends.of_grows {s t : World Ω} {es : Trace Ω} (hgrows : Grows s t)
    (htaken : total (env.taken a) es = 0) (hnone : filledOrders a es = []) :
    env.Spends a s es t := by
  refine ⟨?_, ?_, ?_, ?_, hgrows⟩
  all_goals simp [htaken, hnone]

/-- A flag that is set later was clear before only if the order is a different one. -/
theorem spends_closed (env : Externals Ω) (a : Address) : TraceClosed (env.Spends a) where
  nil s := .of_grows (.refl s) rfl rfl
  append {s t u es es'} h h' := by
    have hclear : ∀ o : Bid, t.store.cancelledOrFilled o.hash = false →
        s.store.cancelledOrFilled o.hash = false := by
      intro o ht
      by_contra hs
      have hset := h.grows.flags o.hash (by simpa using hs)
      simp [ht] at hset
    refine ⟨?_, ?_, fun o ho ↦ ?_, fun o ho ↦ ?_, h.grows.trans h'.grows⟩
    · have hcov := h.covered
      have hcov' := h'.covered
      simp only [total_append, filledOrders_append, worth_append]
      omega
    · rw [filledOrders_append]
      refine List.nodup_append.mpr ⟨h.nodup, h'.nodup, fun o ho o' ho' heq ↦ ?_⟩
      have hset := h.set o ho
      have hfree := h'.clear o' ho'
      simp [← heq, hset] at hfree
    · rw [filledOrders_append] at ho
      exact (List.mem_append.mp ho).elim (h.clear o) fun ho' ↦ hclear o (h'.clear o ho')
    · rw [filledOrders_append] at ho
      exact (List.mem_append.mp ho).elim (fun ho ↦ h'.grows.flags _ (h.set o ho)) (h'.set o)

/-! ## One stretch -/

section Stretch

variable {c : Call} {u v w : World Ω}

/-- With these callees a call is a match that is filled in one stretch, or takes steps of its own
that leave the outside alone. -/
theorem call_steps (env : Externals Ω) (net : Network Ω) (c : Call) (w : World Ω) :
    (env.call net c w).Stretches
      (fun u v ↦ (∃ msg buy punkIndex sale, c = ⟨msg, .executeMatch buy punkIndex⟩ ∧
        env.Filled net msg buy punkIndex sale u v) ∨
        (∀ buy punkIndex, c.op ≠ .executeMatch buy punkIndex) ∧ OwnStep net c u v) w := by
  by_cases hop : ∃ buy punkIndex, c.op = .executeMatch buy punkIndex
  · obtain ⟨msg, op⟩ := c
    obtain ⟨buy, punkIndex, rfl⟩ := hop
    rcases call_executeMatch_cases env net msg buy punkIndex w with
      ⟨sale, t, h, hret⟩ | ⟨⟨e, hrev⟩, -⟩
    · rw [hret]
      exact .inl ⟨msg, buy, punkIndex, sale, rfl, h⟩
    · rw [hrev]
      trivial
  · have hop : ∀ buy punkIndex, c.op ≠ .executeMatch buy punkIndex :=
      fun buy punkIndex h ↦ hop ⟨buy, punkIndex, h⟩
    rw [call_of_ne hop]
    exact (PunksBids.call_stretches net c w).mono fun u v h ↦ .inr ⟨hop, h⟩

theorem Filled.grows {msg : Msg} {buy : Input} {punkIndex : Uint256} {sale : Sale}
    (h : env.Filled net msg buy punkIndex sale u v) : Grows u v := by
  refine ⟨fun hash hu ↦ ?_, by rw [h.logs]; exact List.prefix_append _ _⟩
  rw [h.store]
  exact (grows_flag u _).flags hash hu

/-- **A match that is filled spends its order.** -/
theorem Filled.spends_order {msg : Msg} {buy : Input} {punkIndex : Uint256} {sale : Sale}
    (hframe : env.FrameLaws net) (hweth : env.WethLaws net) (ha : a ≠ net.self)
    (h : env.Filled net msg buy punkIndex sale u v) :
    env.Spends a u [.own ⟨msg, .executeMatch buy punkIndex⟩ u v] v := by
  by_cases hb : buy.bid.bidder = a
  · subst hb
    obtain ⟨hpays, -⟩ := h.balanceOf hframe hweth ha
    obtain ⟨-, -, -, -, -, hle⟩ := h.accepted.offer
    have horders : filledOrders buy.bid.bidder [.own ⟨msg, .executeMatch buy punkIndex⟩ u v] =
        [u.store.ticket buy.bid] := by
      simp [filledOrders]
    refine ⟨?_, ?_, ?_, ?_, h.grows⟩
    · rw [horders]
      simp only [total_cons, total_nil, taken, worth, List.map_cons, List.map_nil, List.sum_cons,
        List.sum_nil, Store.ticket]
      omega
    · rw [horders]
      exact List.nodup_singleton _
    · rw [horders]
      intro o ho
      rw [List.mem_singleton.mp ho, ← Store.bidHash_eq]
      exact h.accepted.unflagged
    · rw [horders]
      intro o ho
      rw [List.mem_singleton.mp ho, ← Store.bidHash_eq, h.store]
      exact Store.flag_self _ _
  · have hkeeps := h.balanceOf_of_ne hframe hweth (Ne.symm hb) ha
    exact .of_grows h.grows (by simp [taken, hkeeps]) (by simp [filledOrders, hb])

/-- Every other stretch spends nothing. -/
theorem OwnStep.spends_nothing (h : OwnStep net c u v)
    (hop : ∀ buy punkIndex, c.op ≠ .executeMatch buy punkIndex) :
    env.Spends a u [.own c u v] v := by
  refine .of_grows h.grows (by simp [taken, h.outside]) ?_
  obtain ⟨msg, op⟩ := c
  cases op with
  | executeMatch buy punkIndex => exact absurd rfl (hop buy punkIndex)
  | _ => rfl

end Stretch

/-! ## Runs -/

section Runs

variable {x : Behaviour Ω} {w t : World Ω} {es : Trace Ω}

theorem Runs.spends (hframe : env.FrameLaws net) (hweth : env.WethLaws net) (ha : a ≠ net.self)
    (h : env.Runs net x w t es) : env.Spends a w es t := by
  have hclosed := spends_closed env a
  have hmark (e : Entry Call (Deed Ω) (World Ω)) (s : World Ω) (htaken : env.taken a e = 0)
      (hnone : filledOrders a [e] = []) : env.Spends a s [e] s :=
    .of_grows (.refl s) (by simp [htaken]) hnone
  refine Script.exec_stretches hclosed (fun d s ↦ ?_) (fun c s ↦ ?_) (fun c s t es hes ↦ ?_) x h
  · exact .of_grows ⟨fun _ h ↦ h, List.prefix_refl _⟩ rfl rfl
  · refine (call_steps env net c s).mono fun u v hstep ↦ ?_
    rcases hstep with ⟨msg, buy, punkIndex, sale, rfl, hfill⟩ | ⟨hop, hown⟩
    · exact hfill.spends_order hframe hweth ha
    · exact OwnStep.spends_nothing hown hop
  · exact hclosed.append (hmark (.entered c s) s rfl rfl)
      (hclosed.append hes (hmark (.returned c s t) t rfl rfl))

/-- The match behind a filled order. -/
theorem mem_filledOrders {o : Bid} (h : o ∈ filledOrders a es) :
    ∃ msg buy punkIndex u v, .own ⟨msg, .executeMatch buy punkIndex⟩ u v ∈ es ∧
      buy.bid.bidder = a ∧ o = u.store.ticket buy.bid := by
  obtain ⟨e, hmem, he⟩ := List.mem_filterMap.mp h
  cases e with
  | own c u v =>
    obtain ⟨msg, op⟩ := c
    cases op with
    | executeMatch buy punkIndex =>
      simp only [Option.ite_none_right_eq_some, Option.some_inj] at he
      exact ⟨msg, buy, punkIndex, u, v, hmem, he.1, he.2.symm⟩
    | _ => simp at he
  | _ => simp at he

theorem ticket_mem_filledOrders {msg : Msg} {buy : Input} {punkIndex : Uint256} {u v : World Ω}
    (h : .own ⟨msg, .executeMatch buy punkIndex⟩ u v ∈ es) :
    u.store.ticket buy.bid ∈ filledOrders buy.bid.bidder es :=
  List.mem_filterMap.mpr ⟨_, h, if_pos rfl⟩

/-- A match that returned passed its checks under the domain separator of the beginning. -/
theorem Runs.accepted (h : env.Runs net x w t es) {msg : Msg} {buy : Input} {punkIndex : Uint256}
    {u v : World Ω} (hmem : .returned ⟨msg, .executeMatch buy punkIndex⟩ u v ∈ es) :
    u.store.domainSeparator = w.store.domainSeparator ∧
      ∃ sale, Accepted net msg u buy punkIndex sale := by
  obtain ⟨y, es', h', hcalls⟩ := h.imitated
  exact h'.returned_executeMatch ((mem_iff_of_calls_eq hcalls rfl).mpr hmem)

/-- **A filled order is one that was signed**, or that its maker brought to the contract; or a
string hashed for it collides with one hashed for a mandate that was signed. -/
theorem Runs.order_signed {Signed : Address → Bytes32 → Prop}
    (hsigned : ∀ d v r s a, ECDSA.recover net.ecrecover d v r s = .ok a → Signed a d)
    {chainid : Uint256}
    (hdom : w.store.domainSeparator = hashDomain (deploymentDomain chainid net.self))
    (h : env.Runs net x w t es) {book : List Mandate}
    (hbook : ∀ d, Signed a d → ∃ m ∈ book, d = m.digest)
    (hown : ∀ msg buy punkIndex p, .entered ⟨msg, .executeMatch buy punkIndex⟩ p ∈ es →
      msg.sender = a → buy.bid.bidder = a →
      p.store.ticket buy.bid ∈ ordersFor chainid net.self book)
    {o : Bid} (ho : o ∈ filledOrders a es) :
    o ∈ ordersFor chainid net.self book ∨
      ∃ m ∈ book, Collision (digestMessages chainid net.self o o.nonce) m.messages := by
  obtain ⟨msg, buy, punkIndex, u, v, hmem, rfl, rfl⟩ := mem_filledOrders ho
  have hret := h.returned_of_own hmem
  by_cases hsender : msg.sender = buy.bid.bidder
  · exact .inl (hown msg buy punkIndex u (Script.exec_entered x h hret) hsender rfl)
  obtain ⟨hdom', sale, hacc⟩ := h.accepted hret
  have hrec := hacc.recovers (hdom'.trans hdom) hsender
  obtain ⟨m, hm, hd⟩ := hbook _ (hsigned _ _ _ _ _ hrec)
  rcases digest_inj hd with ⟨rfl, hself, hn, hsame⟩ | hcol
  · have hticket : u.store.ticket buy.bid = m.bid := by
      rw [Store.ticket, hn]
      exact hsame
    rw [hticket, hself]
    exact .inl (mem_ordersFor hm)
  · exact .inr ⟨m, hm, hcol⟩

end Runs

/-- **Exposure is bounded by what was signed.**  Over any run from the constructor, whatever others
do with the signatures: what the contract takes from an account is covered by the orders of that
account that were filled, and no order is filled twice; and if the account has signed no digests but
those of the mandates in `book`, and has brought only orders of the book to the contract itself,
then all of them are orders that the book has for this deployment and at most the sum of the amounts
of these is taken, or a string hashed for one of them collides with one hashed for a mandate in the
book. -/
theorem exposure_is_bounded (env : Externals Ω) (net : Network Ω) (hframe : env.FrameLaws net)
    (hweth : env.WethLaws net) (Signed : Address → Bytes32 → Prop)
    (hsigned : ∀ d v r s a, ECDSA.recover net.ecrecover d v r s = .ok a → Signed a d)
    (chainid : Uint256) (deployer : Address) (balance : Nat) (ω : Ω) (x : Behaviour Ω) (t : World Ω)
    (es : Trace Ω) (h : env.Runs net x (deploy chainid net.self deployer balance ω) t es)
    (a : Address) (ha : a ≠ net.self) :
    total (env.taken a) es ≤ worth (filledOrders a es) ∧ (filledOrders a es).Nodup ∧
    ∀ book : List Mandate, (∀ d, Signed a d → ∃ m ∈ book, d = m.digest) →
      (∀ msg buy punkIndex p, .entered ⟨msg, .executeMatch buy punkIndex⟩ p ∈ es →
        msg.sender = a → buy.bid.bidder = a →
        p.store.ticket buy.bid ∈ ordersFor chainid net.self book) →
      (filledOrders a es ⊆ ordersFor chainid net.self book ∧
        total (env.taken a) es ≤ worth (ordersFor chainid net.self book)) ∨
      ∃ o ∈ filledOrders a es, ∃ m ∈ book,
        Collision (digestMessages chainid net.self o o.nonce) m.messages := by
  have hspends := h.spends hframe hweth ha
  refine ⟨hspends.covered, hspends.nodup, fun book hbook hown ↦ ?_⟩
  by_cases hsub : filledOrders a es ⊆ ordersFor chainid net.self book
  · have hworth := sum_le_of_nodup_of_subset (fun o ↦ o.amount.toNat) hspends.nodup hsub
    exact .inl ⟨hsub, Nat.le_trans hspends.covered hworth⟩
  · obtain ⟨o, ho, hnot⟩ : ∃ o ∈ filledOrders a es, o ∉ ordersFor chainid net.self book := by
      simpa [List.subset_def] using hsub
    exact .inr ⟨o, ho, (h.order_signed hsigned rfl hbook hown ho).resolve_left hnot⟩

/-! ## A signature that is used -/

/-- The marketplace, where the account 3 has signed the bid for an ape. -/
def signedBazaar : Network Bazaar := { bazaarNetwork with ecrecover := signedNetwork.ecrecover }

theorem signedBazaar_frameLaws : bazaar.FrameLaws signedBazaar where
  transferFrom h := { bazaar_frameLaws.transferFrom h with }
  withdraw h := { bazaar_frameLaws.withdraw h with }
  buyPunk h := { bazaar_frameLaws.buyPunk h with }
  transferPunk h := { bazaar_frameLaws.transferPunk h with }

theorem signedBazaar_wethLaws : bazaar.WethLaws signedBazaar := { bazaar_wethLaws with }

/-- The account 5 brings that bid, and it is filled. -/
theorem filled_signedBazaar :
    ∃ t, bazaar.Filled signedBazaar (apeMsg 1) apeInput 5 ⟨1000, 990, 4⟩ fairWorld t := by
  obtain ⟨t, h⟩ := filled_fairWorld 0
  have hrec : ECDSA.recover signedNetwork.ecrecover (digest 1 1 apeBid 0) 27 11 12 =
      .ok apeBid.bidder := signedNetwork_recover.mpr ⟨⟨rfl, rfl, rfl, rfl⟩, rfl⟩
  have hacc := h.accepted
  exact ⟨t, ⟨hacc.unpaused, hacc.bidder_ne_zero, hacc.unflagged, hacc.listed, hacc.unexpired,
    .inr hrec, hacc.matched⟩, h.settles, h.funded, h.store, h.balance, h.logs⟩

/-- The account 3 has signed one bid, somebody else brings it, and at most its amount is taken. -/
theorem exposure_is_bounded_ape :
    ∃ t es, bazaar.Runs signedBazaar (plainMatch (apeMsg 1) apeInput 5) fairWorld t es ∧
      filledOrders 3 es = [apeBid] ∧ total (bazaar.taken 3) es ≤ 2000 := by
  obtain ⟨t, hfill⟩ := filled_signedBazaar
  let c : Call := ⟨apeMsg 1, .executeMatch apeInput 5⟩
  let es : Trace Bazaar := [.entered c fairWorld, .own c fairWorld t, .returned c fairWorld t]
  have hsigned : ∀ d v r s a,
      ECDSA.recover signedBazaar.ecrecover d v r s = .ok a → ApeSigned a d := by
    intro d v r s a hd
    obtain ⟨⟨hd', -⟩, ha⟩ := signedNetwork_recover.mp hd
    exact ⟨hd', ha⟩
  have hbrought : ∀ msg buy punkIndex p, .entered ⟨msg, .executeMatch buy punkIndex⟩ p ∈ es →
      msg.sender = 3 → buy.bid.bidder = 3 →
      p.store.ticket buy.bid ∈ ordersFor 1 signedBazaar.self [⟨1, 1, apeBid⟩] := by
    intro msg buy punkIndex p hmem hsender
    simp only [es, c, List.mem_cons, Entry.entered.injEq, Call.mk.injEq, reduceCtorEq,
      List.not_mem_nil, or_false] at hmem
    rw [hmem.1.1] at hsender
    exact absurd hsender (show (5 : Address) ≠ 3 by decide)
  have horders : filledOrders 3 es = [apeBid] := rfl
  refine ⟨t, es, hfill.runs, horders, ?_⟩
  obtain ⟨-, -, hbound⟩ := exposure_is_bounded bazaar signedBazaar signedBazaar_frameLaws
    signedBazaar_wethLaws ApeSigned hsigned 1 7 0 fair _ t es hfill.runs 3 (by decide)
  rcases hbound [⟨1, 1, apeBid⟩] (fun d hd ↦ ⟨_, List.mem_singleton_self _, hd.1⟩) hbrought with
    ⟨-, hle⟩ | ⟨o, ho, m, hm, hcol⟩
  · exact hle
  · rw [horders] at ho
    obtain rfl := List.mem_singleton.mp ho
    obtain rfl := List.mem_singleton.mp hm
    exact absurd hcol (not_collision_self _)

end Externals

end PunksBids
