import PunksBids.Matching.Fees

/-!
# Which check fails

`_canMatchBidAndPunk` works on strings in memory, with slices, masked words and cursors.  Here is
what it comes to, on texts (`canMatchVerdict`): the checks in the order in which they are made, each
with its own error.  The two agree for every memory (`canMatchBidAndPunk_eq`), not only where the
checks pass but also in the error of the first one that fails; so the caller of `executeMatch`
learns which check it was, the memory the call happens to find has no say in it, and the checks on
strings never panic.

As everywhere, the components of the Punk's string are at most a word long; how many there are
makes no difference here, since the count is compared as the contract compares it, modulo `2 ^ 8`.
-/

set_option autoImplicit false

namespace PunksBids

open Evm OpenCalls StringUtils

variable {Ω : Type} {net : Network Ω}

/-! ## The verdict -/

/-- What is said of a bid and the attributes of a Punk, the first of which is its base type. -/
def attributesVerdict (bid : Bid) (punkAttributes : List Bytes) : Except Error Unit := do
  let punkAttributesCount := UInt8.ofNat (punkAttributes.length - 1)
  require (bid.baseType.val = [] ∨ bid.baseType.val <:+: punkAttributes.headD [])
    .invalidPunkBaseType
  require (bid.attributesCountEnabled = true → punkAttributesCount = bid.attributesCount)
    (.invalidPunkAttributesCount punkAttributesCount bid.attributesCount)
  require (bid.attributes.val = [] ∨
      (Text.split attributesSeparator bid.attributes.val).Sublist punkAttributes.tail)
    .punkMissingAttributes

/-- What is said of a bid and a Punk. -/
def canMatchVerdict (net : Network Ω) (store : Store) (ω : Ω) (bid : Bid) (punkIndex : Uint256) :
    Except Error Sale := do
  let sale ← canBuyPunk net store ω bid punkIndex
  let valid ← validatePunkIndex bid (toUint16 punkIndex)
  require (valid = true) (.invalidPunkIndex punkIndex)
  let punkAttributesString ← returned (net.punkAttributes ω (toUint16 punkIndex))
  attributesVerdict bid (Text.split attributesSeparator punkAttributesString.val)
  return sale

/-- What is said of a match. -/
def matchVerdict (net : Network Ω) (msg : Msg) (store : Store) (ω : Ω) (buy : Input)
    (punkIndex : Uint256) : Except Error Sale := do
  require (store.paused = false) (.message "Pausable: paused")
  require (validateBidParameters msg store buy.bid (store.bidHash buy.bid) = true)
    (.invalidBidParameters buy.bid)
  let signed ← validateSignature net msg store buy (store.bidHash buy.bid)
  require (signed = true) (.invalidSignature buy)
  canMatchVerdict net store ω buy.bid punkIndex

/-! ## The checks on strings -/

section Attributes

variable {m : Memory} {punk : List Slice} {texts : List Bytes}

/-- `contains` never panics, for slices that end before the last address and where one of the two
is at most a word long. -/
theorem contains_ok (m : Memory) {self : Slice} (needle : Slice)
    (hend : self.ptr + self.len < wordSize) (hshort : self.len ≤ 32) :
    ∃ b, contains m self needle = .ok b := by
  have hfits : needle.len ≤ 32 ∨ self.len < needle.len ∨ 0 < self.ptr := by omega
  obtain ⟨q, hq⟩ := rfindPtr_ok m needle.ptr hend hfits
  exact ⟨_, by rw [contains, hq, Except.ok_bind]; rfl⟩

/-- The base type fails by its own error, and by no other. -/
theorem checkBaseType_eq_error (h : Scannable m punk texts) (hne : punk ≠ [])
    (hfree : m.free < 2 ^ 100) {bid : Bid} (hno : ∀ m', checkBaseType m bid punk ≠ .ok m') :
    checkBaseType m bid punk = .error .invalidPunkBaseType := by
  obtain ⟨first, rest, rfl⟩ := List.exists_cons_of_ne_nil hne
  have hin := h.parts.le_free first List.mem_cons_self
  have hshort : first.len ≤ 32 := by
    rw [← Slice.length_text (m := m)]
    refine h.short _ ?_
    rw [← h.parts.texts_eq]
    exact List.mem_map_of_mem List.mem_cons_self
  have hend : first.ptr + first.len < wordSize := by
    rw [wordSize]
    omega
  obtain ⟨b, hb⟩ := contains_ok (m.allocString bid.baseType.val).2
    (toSlice (m.allocString bid.baseType.val).2 (m.allocString bid.baseType.val).1) hend hshort
  rw [checkBaseType] at hno ⊢
  split at hno
  · next hlen =>
    rw [if_pos hlen]
    simp only [List.getElem?_cons_zero, hb, Except.mapError, Except.ok_bind] at hno ⊢
    cases b with
    | false => rfl
    | true => exact absurd rfl (hno _)
  · exact absurd rfl (hno m)

theorem checkAttributesCount_eq (hne : punk ≠ []) (bid : Bid) :
    checkAttributesCount bid punk =
      require (bid.attributesCountEnabled = true →
          UInt8.ofNat (punk.length - 1) = bid.attributesCount)
        (.invalidPunkAttributesCount (UInt8.ofNat (punk.length - 1)) bid.attributesCount) := by
  have hpos := List.length_pos_iff.mpr hne
  rw [checkAttributesCount]
  split
  · next henabled =>
    rw [checkedSub_ok hpos, Except.mapError, Except.ok_bind]
    simp only [henabled, forall_const]
  · next henabled => simp [Evm.require, henabled, Except.pure_def]

/-- **The checks on strings are the checks on texts**, errors included. -/
theorem checkPunkAttributes_eq (hfree : m.free < 2 ^ 64) (bid : Bid) {s : Str}
    (hshort : ∀ t ∈ Text.split attributesSeparator s.val, t.length ≤ 32) :
    checkPunkAttributes m bid s =
      attributesVerdict bid (Text.split attributesSeparator s.val) := by
  have hlen := s.property
  obtain ⟨p, m₁, halloc, hext, hstr, hle⟩ := allocString_spec m s
  obtain ⟨punk, m₂, hparts, hext', hhas, hle'⟩ :=
    getAttributesStringToSliceArray_eq hstr (by rw [wordSize]; omega)
  simp only [checkPunkAttributes, halloc, hparts, Except.mapError, Except.ok_bind]
  have hscan : Scannable m₂ punk _ := ⟨hhas.of_extends hext', hshort, by omega⟩
  have hne := Text.split_ne_nil attributesSeparator s.val
  have hpunk : punk ≠ [] := by
    rintro rfl
    exact hne (by rw [← hhas.texts_eq, List.map_nil])
  rw [attributesVerdict, hscan.parts.length_eq]
  rcases checkBaseType_cases hscan hne (by omega) bid with
    ⟨hbase, m₃, hok, hext'', hle''⟩ | ⟨hbase, hno⟩
  · have hscan' := hscan.of_extends hext'' (by omega)
    have hbase : require _ Error.invalidPunkBaseType = .ok () := require_eq_ok.mpr hbase
    rw [hok, Except.ok_bind, checkAttributesCount_eq hpunk, hbase, Except.ok_bind]
    refine congrArg _ (funext fun _ ↦ ?_)
    by_cases ha : bid.attributes.val = []
    · simp [checkAttributes, ha, Evm.require, Except.pure_def]
    · rw [checkAttributes_eq hscan' (by omega) ha]
      simp only [Evm.require, ha, false_or]
  · have hbase : require _ Error.invalidPunkBaseType = .error .invalidPunkBaseType :=
      require_eq_error.mpr ⟨hbase, rfl⟩
    rw [checkBaseType_eq_error hscan hpunk (by omega) hno, hbase]
    rfl

end Attributes

/-! ## The whole -/

/-- The components of the attributes of a Punk, if there are any, are at most a word long. -/
def ShortAttributes (net : Network Ω) (ω : Ω) (punkIndex : Uint256) : Prop :=
  ∀ s, net.punkAttributes ω (toUint16 punkIndex) = some s →
    ∀ t ∈ Text.split attributesSeparator s.val, t.length ≤ 32

section Whole

variable {m : Memory} {store : Store} {ω : Ω} {bid : Bid} {punkIndex : Uint256}

/-- **`_canMatchBidAndPunk` is its verdict**, whatever is in memory. -/
theorem canMatchBidAndPunk_eq (hfree : m.free < 2 ^ 64) (hshort : ShortAttributes net ω punkIndex) :
    canMatchBidAndPunk net m store ω bid punkIndex =
      canMatchVerdict net store ω bid punkIndex := by
  rw [canMatchBidAndPunk, canMatchVerdict]
  refine congrArg _ (funext fun sale ↦ congrArg _ (funext fun valid ↦
    congrArg _ (funext fun _ ↦ ?_)))
  cases hs : net.punkAttributes ω (toUint16 punkIndex) with
  | none => rfl
  | some s => simp only [returned, Except.ok_bind, checkPunkAttributes_eq hfree bid (hshort s hs)]

/-- **`executeMatch` is its verdict**: the error of the first check that fails, and if there is none
the settlement with the flag set. -/
theorem executeMatch_eq {msg : Msg} {w : World Ω} {buy : Input}
    (hshort : ShortAttributes net w.outside punkIndex) :
    executeMatch net msg buy punkIndex w =
      match matchVerdict net msg w.store w.outside buy punkIndex with
      | .ok sale => settle net buy punkIndex (w.store.bidHash buy.bid) sale
          (w.withStore (Store.flag (w.store.bidHash buy.bid)))
      | .error e => .revert e := by
  have hhash : hashBid buy.bid (w.store.nonces buy.bid.bidder) = w.store.bidHash buy.bid := rfl
  simp only [executeMatch, whenNotPaused, bind_assoc, Tx.storage_bind, matchVerdict]
  by_cases hp : w.store.paused = false
  swap
  · rw [Tx.require_bind_of_not hp, Evm.require, if_neg hp]
    rfl
  rw [Tx.require_bind_of hp, Evm.require, if_pos hp, Prog.get_bind, hhash, Except.ok_bind]
  by_cases hv : validateBidParameters msg w.store buy.bid (w.store.bidHash buy.bid) = true
  swap
  · rw [Tx.require_bind_of_not hv, Evm.require, if_neg hv]
    rfl
  rw [Tx.require_bind_of hv, Evm.require, if_pos hv, Except.ok_bind]
  cases validateSignature net msg w.store buy (w.store.bidHash buy.bid) with
  | error e => rfl
  | ok signed =>
  cases signed with
  | false => rfl
  | true =>
  rw [Prog.lift_ok_bind, Tx.require_bind_of rfl, Except.ok_bind, Evm.require, if_pos rfl,
    Except.ok_bind, canMatchBidAndPunk_eq msg.memory.property hshort]
  cases canMatchVerdict net w.store w.outside buy.bid punkIndex with
  | error e => rfl
  | ok sale => rfl

/-- The verdict looks at the time of the call, and at whether the caller is the bidder. -/
theorem matchVerdict_congr {msg msg' : Msg} {buy : Input}
    (hsender : buy.bid.bidder = msg'.sender ↔ buy.bid.bidder = msg.sender)
    (htime : msg'.timestamp = msg.timestamp) :
    matchVerdict net msg' store ω buy punkIndex = matchVerdict net msg store ω buy punkIndex := by
  have hparams : validateBidParameters msg' store buy.bid (store.bidHash buy.bid) =
      validateBidParameters msg store buy.bid (store.bidHash buy.bid) := by
    rw [validateBidParameters, validateBidParameters, htime]
  have hsigned : validateSignature net msg' store buy (store.bidHash buy.bid) =
      validateSignature net msg store buy (store.bidHash buy.bid) := by
    rw [validateSignature, validateSignature]
    by_cases hb : buy.bid.bidder = msg.sender
    · rw [if_pos hb, if_pos (hsender.mpr hb)]
    · rw [if_neg hb, if_neg (mt hsender.mp hb)]
  rw [matchVerdict, matchVerdict, hparams, hsigned]

/-! ### Panics -/

/-- The checks on texts never panic. -/
theorem attributesVerdict_ne_panic (punkAttributes : List Bytes) (p : Panic) :
    attributesVerdict bid punkAttributes ≠ .error (.panic p) := by
  simp [attributesVerdict, Except.bind_eq_error]

theorem validatePunkIndex_ne_panic (i : UInt16) (p : Panic) :
    validatePunkIndex bid i ≠ .error (.panic p) := by
  rw [validatePunkIndex]
  split
  · split
    · simp [Except.pure_def]
    · simp [throw, throwThe, MonadExceptOf.throw]
  · simp [Except.bind_eq_error, Except.pure_def]

theorem validateSignature_ne_panic {msg : Msg} {buy : Input} {bidHash : Bytes32} (p : Panic) :
    validateSignature net msg store buy bidHash ≠ .error (.panic p) := by
  have hthrow (e : ECDSA.RecoverError) : ECDSA.throwRecoverError e ≠ .error (.panic p) := by
    cases e <;> simp [ECDSA.throwRecoverError]
  rw [validateSignature]
  split
  · simp [Except.pure_def]
  · simp [Except.bind_eq_error, Except.pure_def, ECDSA.recover, hthrow]

/-- A match panics only in `_canBuyPunk`. -/
theorem matchVerdict_eq_panic {msg : Msg} {buy : Input} {p : Panic}
    (h : matchVerdict net msg store ω buy punkIndex = .error (.panic p)) :
    canBuyPunk net store ω buy.bid punkIndex = .error (.panic p) := by
  simp [matchVerdict, canMatchVerdict, Except.bind_eq_error, validateSignature_ne_panic,
    validatePunkIndex_ne_panic, attributesVerdict_ne_panic, returned_ne_panic,
    Except.pure_def] at h
  obtain ⟨-, -, -, hbuy⟩ := h
  exact hbuy

end Whole

/-! ## Refusals -/

/-- **Which check fails, and nothing else.**  In a reachable world, for a Punk with short
attributes: `executeMatch` reverts with the error of the first check of the verdict that fails, and
settles with the parameters of the verdict if none does; the memory of the call has no say in it,
nor who calls, but for whether it is the bidder; and the only panic is that of a price that is too
high to be computed, for an offer that is otherwise acceptable. -/
theorem refusals_are_exact (net : Network Ω) (chainid : Uint256) (w : World Ω)
    (hw : Reachable net chainid w) (msg : Msg) (buy : Input) (punkIndex : Uint256)
    (hshort : ShortAttributes net w.outside punkIndex) :
    (∀ e, matchVerdict net msg w.store w.outside buy punkIndex = .error e →
      executeMatch net msg buy punkIndex w = .revert e) ∧
    (∀ sale, matchVerdict net msg w.store w.outside buy punkIndex = .ok sale →
      executeMatch net msg buy punkIndex w =
        settle net buy punkIndex (w.store.bidHash buy.bid) sale
          (w.withStore (Store.flag (w.store.bidHash buy.bid)))) ∧
    (∀ msg' : Msg, (buy.bid.bidder = msg'.sender ↔ buy.bid.bidder = msg.sender) →
      msg'.timestamp = msg.timestamp →
      executeMatch net msg' buy punkIndex w = executeMatch net msg buy punkIndex w) ∧
    ∀ p, executeMatch net msg buy punkIndex w = .revert (.panic p) → p = .arithmetic ∧
      ∃ offer, net.punksOfferedForSale w.outside punkIndex = some offer ∧
        offer.isForSale = true ∧ (offer.onlySellTo = 0 ∨ offer.onlySellTo = net.self) ∧
        2 ^ 256 ≤ 1000 * offer.minValue.toNat := by
  refine ⟨fun e he ↦ ?_, fun sale hsale ↦ ?_, fun msg' hsender htime ↦ ?_, fun p hp ↦ ?_⟩
  · rw [executeMatch_eq hshort, he]
  · rw [executeMatch_eq hshort, hsale]
  · rw [executeMatch_eq hshort, executeMatch_eq hshort, matchVerdict_congr hsender htime]
  · rw [executeMatch_eq hshort] at hp
    cases hv : matchVerdict net msg w.store w.outside buy punkIndex with
    | ok sale =>
      rw [hv] at hp
      cases hp
    | error e =>
      rw [hv] at hp
      obtain rfl : e = .panic p := by simpa using hp
      have hbuy := matchVerdict_eq_panic hv
      obtain ⟨offer, hoffer⟩ :
          ∃ offer, net.punksOfferedForSale w.outside punkIndex = some offer := by
        cases ho : net.punksOfferedForSale w.outside punkIndex with
        | none => simp [canBuyPunk, ho, returned, bind, Except.bind] at hbuy
        | some offer => exact ⟨offer, rfl⟩
      obtain ⟨hsale, hto, hprice⟩ := (canBuyPunk_eq_panic hoffer).mp hbuy
      obtain ⟨rfl, hle⟩ := (offerPrice_eq_error hw.ratesBounded offer).mp hprice
      exact ⟨rfl, offer, hoffer, hsale, hto, hle⟩

/-- A bid for zombies, and the ape that is offered. -/
theorem refusals_are_exact_zombie :
    executeMatch (apeNetwork fun _ _ _ _ ↦ 0) { idleMsg with sender := 3 }
      ⟨{ apeBid with baseType := ⟨utf8 "Zombie", by decide⟩ }, 0, 0, 0⟩ 5 (deploy 1 1 7 0 ()) =
        .revert .invalidPunkBaseType := by
  have hw : Reachable (apeNetwork fun _ _ _ _ ↦ 0) 1 (deploy 1 1 7 0 ()) :=
    ⟨7, 0, (), .done, [], rfl⟩
  refine (refusals_are_exact _ 1 _ hw { idleMsg with sender := 3 } _ 5 ?_).1 _ ?_
  · rintro s hs
    obtain rfl : apeAttributes = s := Option.some_inj.mp hs
    decide
  · rfl

end PunksBids
