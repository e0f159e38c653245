import PunksBids.Lib.Shares
import PunksBids.Matching.AttributeLists
import PunksBids.Matching.Equality
import PunksBids.Runs.Basic

/-!
# When a bid and a Punk match

`_canMatchBidAndPunk` checks the offer, the index and the attributes in turn, and each check is
characterised here by what it asks for: `canBuyPunk_eq_ok`, `validatePunkIndex_eq_ok` and, for the
string of attributes, `checkPunkAttributes_eq_ok`.

The last one is about texts only.  With every component of the Punk's string at most one word long,
the masked comparison is equality (`equals_eq`), and the nested loops with their one cursor are the
greedy way to look for a subsequence: taking the first component that fits can only leave more for
the rest, so the loops fail only if there is none (`findAttributes_eq`).
-/

set_option autoImplicit false

namespace PunksBids

open Evm StringUtils

variable {Ω : Type} {net : Network Ω}

/-! ## The offer -/

theorem priceWithFee_eq_ok {punkPrice rate price : Nat} :
    priceWithFee punkPrice rate = .ok price ↔
      inverseBasisPoint * punkPrice < wordSize ∧ rate < inverseBasisPoint ∧
        inverseBasisPoint * punkPrice / (inverseBasisPoint - rate) = price := by
  simp only [priceWithFee, Except.bind_eq_ok, checkedMul_eq_ok, checkedSub_eq_ok, checkedDiv_eq_ok]
  constructor
  · rintro ⟨_, ⟨hlt, rfl⟩, _, ⟨hle, rfl⟩, hne, rfl⟩
    exact ⟨hlt, by omega, rfl⟩
  · rintro ⟨hlt, hrate, rfl⟩
    exact ⟨_, ⟨hlt, rfl⟩, _, ⟨by omega, rfl⟩, by omega, rfl⟩

/-- The bidder pays at least what the Punk costs. -/
theorem punkPrice_le_price {punkPrice rate price : Nat}
    (h : priceWithFee punkPrice rate = .ok price) : punkPrice ≤ price := by
  obtain ⟨-, hrate, rfl⟩ := priceWithFee_eq_ok.mp h
  exact Shares.le_grossUp _ hrate

theorem returned_eq_ok {α : Type} {x : Option α} {a : α} : returned x = .ok a ↔ x = some a := by
  cases x <;> simp [returned]

/-- **When a Punk can be bought for a bid, and at which price.** -/
theorem canBuyPunk_eq_ok {store : Store} {ω : Ω} {bid : Bid} {punkIndex : Uint256} {sale : Sale} :
    canBuyPunk net store ω bid punkIndex = .ok sale ↔
      ∃ offer, net.punksOfferedForSale ω punkIndex = some offer ∧ offer.isForSale = true ∧
        (offer.onlySellTo = 0 ∨ offer.onlySellTo = net.self) ∧
        priceWithFee offer.minValue.toNat (currentFeeRate net store offer).toNat = .ok sale.price ∧
        sale.price ≤ bid.amount.toNat ∧
        sale.punkPrice = offer.minValue.toNat ∧ sale.seller = offer.seller := by
  simp only [canBuyPunk, Except.bind_eq_ok, returned_eq_ok, require_eq_ok, Except.mapError_eq_ok,
    Except.pure_eq_ok]
  constructor
  · rintro ⟨offer, hoffer, -, hsale, -, hto, price, hprice, -, hle, rfl⟩
    refine ⟨offer, hoffer, hsale, ?_, hprice, Nat.le_of_not_gt hle, rfl, rfl⟩
    rw [not_and_or, not_not, not_not] at hto
    exact hto
  · rintro ⟨offer, hoffer, hsale, hto, hprice, hle, hp, hs⟩
    refine ⟨offer, hoffer, (), hsale, (), ?_, _, hprice, (), Nat.not_lt.mpr hle, ?_⟩
    · rw [not_and_or, not_not, not_not]
      exact hto
    · cases sale
      simp_all

/-- The same for an offer that is known, at a fee rate within the bound. -/
theorem canBuyPunk_eq_ok_of_offer {store : Store} {ω : Ω} {bid : Bid} {punkIndex : Uint256}
    {sale : Sale} {offer : Offer} (hoffer : net.punksOfferedForSale ω punkIndex = some offer)
    (hrate : (currentFeeRate net store offer).toNat ≤ maxFeeRate) :
    canBuyPunk net store ω bid punkIndex = .ok sale ↔
      offer.isForSale = true ∧ (offer.onlySellTo = 0 ∨ offer.onlySellTo = net.self) ∧
        1000 * offer.minValue.toNat < 2 ^ 256 ∧
        1000 * offer.minValue.toNat / (1000 - (currentFeeRate net store offer).toNat) ≤
          bid.amount.toNat ∧
        sale = ⟨1000 * offer.minValue.toNat / (1000 - (currentFeeRate net store offer).toNat),
          offer.minValue.toNat, offer.seller⟩ := by
  have hlt : (currentFeeRate net store offer).toNat < inverseBasisPoint :=
    Nat.lt_of_le_of_lt hrate (by decide)
  obtain ⟨price, punkPrice, seller⟩ := sale
  rw [canBuyPunk_eq_ok]
  simp only [hoffer, Option.some_inj, exists_eq_left', priceWithFee_eq_ok, Sale.mk.injEq]
  constructor
  · rintro ⟨hsale, hto, ⟨hfits, -, rfl⟩, hle, rfl, rfl⟩
    exact ⟨hsale, hto, hfits, hle, rfl, rfl, rfl⟩
  · rintro ⟨hsale, hto, hfits, hle, rfl, rfl, rfl⟩
    exact ⟨hsale, hto, ⟨hfits, hlt, rfl⟩, hle, rfl, rfl⟩

/-! ## The index -/

/-- What a bid asks of the index. -/
def IndexFits (bid : Bid) (punkIndex : UInt16) : Prop :=
  if bid.indexes ≠ [] then punkIndex ∈ bid.indexes
  else punkIndex ∉ bid.excludedIndexes ∧ (bid.maxIndex = 0 ∨ punkIndex ≤ bid.maxIndex) ∧
    (bid.modulo = 0 ∨ punkIndex % bid.modulo = 0)

theorem validatePunkIndex_eq_ok {bid : Bid} {punkIndex : UInt16} :
    validatePunkIndex bid punkIndex = .ok true ↔ IndexFits bid punkIndex := by
  rw [validatePunkIndex, IndexFits]
  by_cases h : bid.indexes = []
  · rw [if_neg (by simp [h]), if_neg (by simp [h]), Except.bind_eq_ok]
    simp only [require_eq_ok, Except.pure_eq_ok, exists_const]
    simp
  · have hlen : bid.indexes.length ≠ 0 := by simpa using h
    rw [if_pos hlen, if_pos h]
    split
    · next hany => simpa using hany
    · next hany => simpa using hany

/-! ## Looking for one attribute -/

section Attributes

variable {m : Memory} {punk : List Slice} {texts : List Bytes}

/-- What the scan needs of memory: the parts are at most a word long, and addresses are small. -/
structure Scannable (m : Memory) (punk : List Slice) (texts : List Bytes) : Prop where
  parts : HasParts m punk texts
  short : ∀ t ∈ texts, t.length ≤ 32
  free_lt : m.free < 2 ^ 200

theorem HasParts.length_eq (h : HasParts m punk texts) : texts.length = punk.length := by
  rw [← h.texts_eq, List.length_map]

theorem HasParts.drop_eq (h : HasParts m punk texts) {j : Nat} (hj : j < punk.length) :
    texts.drop j = punk[j].text m :: texts.drop (j + 1) := by
  have hj' : j < texts.length := h.length_eq ▸ hj
  rw [List.drop_eq_getElem_cons hj']
  simp only [← h.texts_eq, List.getElem_map]

/-- **The greedy step**: the cursor moves past the first component that fits, and the attribute and
any others are a subsequence from `j` on exactly if the others are one from there on. -/
theorem findAttribute_eq (h : Scannable m punk texts) {a : Slice} (ha : a.ptr + a.len ≤ m.free)
    (j : Nat) :
    ∃ r, findAttribute m a punk j = .ok r ∧
      ∀ l, (a.text m :: l).Sublist (texts.drop j) ↔ ∃ k, r = some k ∧ l.Sublist (texts.drop k) := by
  induction hn : punk.length - j using Nat.strongRecOn generalizing j with
  | _ n ih =>
  have hfree := h.free_lt
  rw [findAttribute]
  by_cases hj : j < punk.length
  · have hle := h.parts.le_free punk[j] (List.getElem_mem hj)
    have hshort : punk[j].len ≤ 32 := by
      rw [← Slice.length_text (m := m)]
      refine h.short _ ?_
      rw [← h.parts.texts_eq]
      exact List.mem_map_of_mem (List.getElem_mem hj)
    rw [dif_pos hj, equals_eq (.inr hshort) (by omega) (by omega) (by rw [wordSize]; omega)
      (by rw [wordSize]; omega), Except.ok_bind, h.parts.drop_eq hj]
    by_cases heq : a.text m = punk[j].text m
    · refine ⟨some (j + 1), by rw [if_pos (decide_eq_true heq)]; rfl, fun l ↦ ?_⟩
      rw [heq, List.cons_sublist_cons]
      simp
    · obtain ⟨r, hr, hiff⟩ := ih (punk.length - (j + 1)) (by omega) (j + 1) rfl
      refine ⟨r, by rw [if_neg (by simpa using heq), hr], fun l ↦ ?_⟩
      rw [← hiff l]
      exact ⟨fun hs ↦ hs.of_cons_of_ne heq, fun hs ↦ hs.cons _⟩
  · refine ⟨none, by rw [dif_neg hj]; rfl, fun l ↦ ?_⟩
    rw [List.drop_eq_nil_of_le (by rw [h.parts.length_eq]; omega)]
    simp

/-- **The nested loops decide the subsequence relation.** -/
theorem findAttributes_eq (h : Scannable m punk texts) {bidAttributes : List Slice}
    (hle : ∀ a ∈ bidAttributes, a.ptr + a.len ≤ m.free) (j : Nat) :
    findAttributes m punk bidAttributes j =
      if (bidAttributes.map (Slice.text m)).Sublist (texts.drop j) then .ok ()
      else .error .punkMissingAttributes := by
  induction bidAttributes generalizing j with
  | nil => simp [findAttributes, Except.pure_def]
  | cons a rest ih =>
    obtain ⟨r, hr, hiff⟩ := findAttribute_eq h (hle a List.mem_cons_self) j
    rw [findAttributes, hr, Except.mapError, Except.ok_bind, List.map_cons]
    simp only [hiff]
    cases r with
    | none =>
      rw [if_neg (by simp)]
      rfl
    | some k =>
      have hrest := ih (fun b hb ↦ hle b (List.mem_cons_of_mem _ hb)) k
      simp only [hrest, Option.some_inj, exists_eq_left']

end Attributes

/-! ## The attributes of a Punk -/

/-- What a bid asks of the attributes of a Punk, the first of which is its base type. -/
structure AttributesFit (bid : Bid) (punkAttributes : List Bytes) : Prop where
  baseType : bid.baseType.val = [] ∨ bid.baseType.val <:+: punkAttributes.headD []
  attributesCount : bid.attributesCountEnabled = true →
    punkAttributes.length - 1 = bid.attributesCount.toNat
  attributes : bid.attributes.val = [] ∨
    (Text.split attributesSeparator bid.attributes.val).Sublist punkAttributes.tail

section Attributes

variable {m : Memory} {punk : List Slice} {texts : List Bytes}

theorem Scannable.of_extends {m' : Memory} (h : Scannable m punk texts) (he : m.Extends m')
    (hfree : m'.free < 2 ^ 200) : Scannable m' punk texts :=
  ⟨h.parts.of_extends he, h.short, hfree⟩

/-- A string that is allocated, with what is known of the memory after it. -/
theorem allocString_spec (m : Memory) (s : Str) :
    ∃ p m', m.allocString s.val = (p, m') ∧ m.Extends m' ∧ m'.HasString p s.val ∧
      m'.free ≤ m.free + 64 + 2 ^ 64 := by
  have hfree := free_allocString_le m s.val
  have hlen := s.property
  refine ⟨(m.allocString s.val).1, (m.allocString s.val).2, rfl, m.extends_allocString _,
    m.hasString_allocString ?_, by omega⟩
  rw [wordSize]
  omega

/-- The check of the base type asks whether it occurs in the first component. -/
theorem checkBaseType_cases (h : Scannable m punk texts) (hne : texts ≠ [])
    (hfree : m.free < 2 ^ 100) (bid : Bid) :
    ((bid.baseType.val = [] ∨ bid.baseType.val <:+: texts.headD []) ∧
      ∃ m', checkBaseType m bid punk = .ok m' ∧ m.Extends m' ∧ m'.free ≤ m.free + 64 + 2 ^ 64) ∨
    ¬ (bid.baseType.val = [] ∨ bid.baseType.val <:+: texts.headD []) ∧
      ∀ m', checkBaseType m bid punk ≠ .ok m' := by
  by_cases hb : bid.baseType.val = []
  · refine .inl ⟨.inl hb, m, ?_, .refl m, by omega⟩
    rw [checkBaseType, if_neg (by simp [hb])]
    rfl
  obtain ⟨first, rest, rfl⟩ : ∃ first rest, punk = first :: rest := by
    refine List.exists_cons_of_ne_nil fun hnil ↦ hne ?_
    rw [← h.parts.texts_eq, hnil, List.map_nil]
  obtain ⟨p, m', halloc, hext, hstr, hle⟩ := allocString_spec m bid.baseType
  have hhead : texts.headD [] = first.text m := by rw [← h.parts.texts_eq]; rfl
  have hin := h.parts.le_free first List.mem_cons_self
  have hshort : first.len ≤ 32 := by
    rw [← Slice.length_text (m := m)]
    refine h.short _ ?_
    rw [← h.parts.texts_eq]
    exact List.mem_map_of_mem List.mem_cons_self
  have hpos : 0 < bid.baseType.val.length := List.length_pos_iff.mpr hb
  rw [hhead, ← Slice.text_of_extends hext hin]
  simp only [checkBaseType, if_pos (Nat.ne_of_gt hpos), List.getElem?_cons_zero, halloc]
  have hslice : toSlice m' p = ⟨bid.baseType.val.length, p + 32⟩ :=
    toSlice_eq hstr (by have := hstr.le_free; rw [wordSize]; omega)
  have hs : Searchable bid.baseType.val (first.text m') := by
    by_cases h32 : bid.baseType.val.length ≤ 32
    · exact searchable_of_le h32
    · exact searchable_of_lt (by rw [Slice.length_text]; omega)
  rw [← text_toSlice hstr] at hs
  have hcontains : contains m' first ⟨bid.baseType.val.length, p + 32⟩ = _ :=
    contains_eq (by rw [wordSize]; omega) (by simp only; omega) hpos hs
  rw [text_toSlice hstr] at hcontains
  simp only [hslice, hcontains, Except.mapError, Except.ok_bind]
  by_cases hocc : bid.baseType.val <:+: first.text m'
  · exact .inl ⟨.inr hocc, m', by simp [hocc, Evm.require, Except.pure_def], hext, hle⟩
  · exact .inr ⟨by simp [hb, hocc], by simp [hocc, Evm.require, bind, Except.bind]⟩

/-- The check of the attributes count compares it with the number of components less one. -/
theorem checkAttributesCount_eq_ok (hne : punk ≠ []) (hmany : punk.length ≤ 256) {bid : Bid} :
    checkAttributesCount bid punk = .ok () ↔
      (bid.attributesCountEnabled = true → punk.length - 1 = bid.attributesCount.toNat) := by
  have hpos := List.length_pos_iff.mpr hne
  have hcast : UInt8.ofNat (punk.length - 1) = bid.attributesCount ↔
      punk.length - 1 = bid.attributesCount.toNat := by
    rw [← UInt8.toNat_inj, UInt8.toNat_ofNat', Nat.mod_eq_of_lt (by omega)]
  rw [checkAttributesCount]
  split
  · next henabled =>
    rw [checkedSub_ok hpos, Except.mapError, Except.ok_bind, require_eq_ok, hcast]
    simp [henabled]
  · next henabled => simp [henabled, Except.pure_def]

/-- The comparison of the attributes asks whether those of the bid are a subsequence. -/
theorem checkAttributes_eq (h : Scannable m punk texts) (hfree : m.free < 2 ^ 100) {bid : Bid}
    (ha : bid.attributes.val ≠ []) :
    checkAttributes m bid punk =
      if (Text.split attributesSeparator bid.attributes.val).Sublist texts.tail then .ok ()
      else .error .punkMissingAttributes := by
  have hlen := bid.attributes.property
  have hpos : bid.attributes.val.length ≠ 0 := by simpa using ha
  obtain ⟨p, m₁, halloc, hext, hstr, hle⟩ := allocString_spec m bid.attributes
  obtain ⟨parts, m₂, hparts, hext', hhas, hle'⟩ :=
    getAttributesStringToSliceArray_eq hstr (by rw [wordSize]; omega)
  have hscan : Scannable m₂ punk texts := h.of_extends (hext.trans hext') (by omega)
  have hhas' := hhas.of_extends hext'
  simp only [checkAttributes, if_pos hpos, halloc, hparts, Except.mapError, Except.ok_bind]
  rw [findAttributes_eq hscan hhas'.le_free, hhas'.texts_eq, List.drop_one]

theorem checkAttributes_eq_ok (h : Scannable m punk texts) (hfree : m.free < 2 ^ 100) {bid : Bid} :
    checkAttributes m bid punk = .ok () ↔ bid.attributes.val = [] ∨
      (Text.split attributesSeparator bid.attributes.val).Sublist texts.tail := by
  by_cases ha : bid.attributes.val = []
  · simp [checkAttributes, ha, Except.pure_def]
  · rw [checkAttributes_eq h hfree ha]
    simp [ha]

/-- **What `_canMatchBidAndPunk` asks of the attributes**, for components of at most a word and few
enough to be counted. -/
theorem checkPunkAttributes_eq_ok {bid : Bid} {s : Str} (hfree : m.free < 2 ^ 64)
    (hshort : ∀ t ∈ Text.split attributesSeparator s.val, t.length ≤ 32)
    (hmany : (Text.split attributesSeparator s.val).length ≤ 256) :
    checkPunkAttributes m bid s = .ok () ↔
      AttributesFit bid (Text.split attributesSeparator s.val) := by
  have hlen := s.property
  obtain ⟨p, m₁, halloc, hext, hstr, hle⟩ := allocString_spec m s
  obtain ⟨punk, m₂, hparts, hext', hhas, hle'⟩ :=
    getAttributesStringToSliceArray_eq hstr (by rw [wordSize]; omega)
  simp only [checkPunkAttributes, halloc, hparts, Except.mapError, Except.ok_bind]
  have hscan : Scannable m₂ punk _ := ⟨hhas.of_extends hext', hshort, by omega⟩
  have hne := Text.split_ne_nil attributesSeparator s.val
  have hpunk : punk ≠ [] := by
    rintro rfl
    exact hne (by rw [← hhas.texts_eq, List.map_nil])
  rcases checkBaseType_cases hscan hne (by omega) bid with
    ⟨hbase, m₃, hok, hext'', hle''⟩ | ⟨hbase, hno⟩
  · rw [hok, Except.ok_bind, Except.bind_eq_ok,
      checkAttributes_eq_ok (hscan.of_extends hext'' (by omega)) (by omega)]
    simp only [checkAttributesCount_eq_ok hpunk (hscan.parts.length_eq ▸ hmany),
      ← hscan.parts.length_eq, exists_const]
    constructor
    · rintro ⟨hcount, hattr⟩
      exact ⟨hbase, hcount, hattr⟩
    · intro hfit
      exact ⟨hfit.attributesCount, hfit.attributes⟩
  · refine ⟨fun hok ↦ ?_, fun hfit ↦ absurd hfit.baseType hbase⟩
    obtain ⟨m₃, hm₃, -⟩ := Except.bind_eq_ok.mp hok
    exact absurd hm₃ (hno m₃)

end Attributes

/-! ## The whole -/

/-- **When `_canMatchBidAndPunk` returns, and what.** -/
theorem canMatchBidAndPunk_eq_ok {m : Memory} (hfree : m.free < 2 ^ 64) {store : Store} {ω : Ω}
    {bid : Bid} {punkIndex : Uint256} {s : Str}
    (hattributes : net.punkAttributes ω (toUint16 punkIndex) = some s)
    (hshort : ∀ t ∈ Text.split attributesSeparator s.val, t.length ≤ 32)
    (hmany : (Text.split attributesSeparator s.val).length ≤ 256) {sale : Sale} :
    canMatchBidAndPunk net m store ω bid punkIndex = .ok sale ↔
      canBuyPunk net store ω bid punkIndex = .ok sale ∧ IndexFits bid (toUint16 punkIndex) ∧
        AttributesFit bid (Text.split attributesSeparator s.val) := by
  simp only [canMatchBidAndPunk, Except.bind_eq_ok, require_eq_ok, Except.pure_eq_ok, hattributes,
    returned_eq_ok, Option.some_inj]
  constructor
  · rintro ⟨sale', hbuy, valid, hvalid, -, rfl, _, rfl, _, hattr, rfl⟩
    exact ⟨hbuy, validatePunkIndex_eq_ok.mp hvalid,
      (checkPunkAttributes_eq_ok hfree hshort hmany).mp hattr⟩
  · rintro ⟨hbuy, hindex, hattr⟩
    exact ⟨sale, hbuy, true, validatePunkIndex_eq_ok.mpr hindex, (), rfl, s, rfl, (),
      (checkPunkAttributes_eq_ok hfree hshort hmany).mpr hattr, rfl⟩

/-- The sale parameters are those of `_canBuyPunk`. -/
theorem canBuyPunk_of_canMatch {m : Memory} {store : Store} {ω : Ω} {bid : Bid}
    {punkIndex : Uint256} {sale : Sale}
    (h : canMatchBidAndPunk net m store ω bid punkIndex = .ok sale) :
    canBuyPunk net store ω bid punkIndex = .ok sale := by
  rw [canMatchBidAndPunk, Except.bind_eq_ok] at h
  obtain ⟨sale', hbuy, hrest⟩ := h
  simp only [Except.bind_eq_ok, Except.pure_eq_ok] at hrest
  obtain ⟨-, -, -, -, -, -, -, -, rfl⟩ := hrest
  exact hbuy

/-- What is read besides the storage decides the outcome only through the offer and the attributes
of the Punk. -/
theorem canMatchBidAndPunk_congr {m : Memory} {store store' : Store} {ω ω' : Ω} {bid : Bid}
    {punkIndex : Uint256} (hfee : store'.feeRate = store.feeRate)
    (hlocal : store'.localFeeRate = store.localFeeRate)
    (hoffer : net.punksOfferedForSale ω' punkIndex = net.punksOfferedForSale ω punkIndex)
    (hattributes : net.punkAttributes ω' = net.punkAttributes ω) :
    canMatchBidAndPunk net m store' ω' bid punkIndex =
      canMatchBidAndPunk net m store ω bid punkIndex := by
  simp only [canMatchBidAndPunk, canBuyPunk, currentFeeRate, hfee, hlocal, hoffer, hattributes]

/-- The criterion, for a Punk with this offer and these attributes. -/
structure Matches (net : Network Ω) (store : Store) (offer : Offer) (punkAttributes : List Bytes)
    (bid : Bid) (punkIndex : Nat) : Prop where
  isForSale : offer.isForSale = true
  onlySellTo : offer.onlySellTo = 0 ∨ offer.onlySellTo = net.self
  fits : 1000 * offer.minValue.toNat < 2 ^ 256
  affordable : 1000 * offer.minValue.toNat /
    (1000 - (if offer.onlySellTo = net.self then store.localFeeRate else store.feeRate).toNat) ≤
      bid.amount.toNat
  index : if bid.indexes ≠ [] then ∃ i ∈ bid.indexes, i.toNat = punkIndex
    else (∀ i ∈ bid.excludedIndexes, i.toNat ≠ punkIndex) ∧
      (bid.maxIndex = 0 ∨ punkIndex ≤ bid.maxIndex.toNat) ∧
      (bid.modulo = 0 ∨ bid.modulo.toNat ∣ punkIndex)
  attributes : AttributesFit bid punkAttributes

/-- An index that is small is not changed by the cast. -/
theorem indexFits_iff {bid : Bid} {punkIndex : Uint256} (h : punkIndex.toNat < 2 ^ 16) :
    IndexFits bid (toUint16 punkIndex) ↔
      if bid.indexes ≠ [] then ∃ i ∈ bid.indexes, i.toNat = punkIndex.toNat
      else (∀ i ∈ bid.excludedIndexes, i.toNat ≠ punkIndex.toNat) ∧
        (bid.maxIndex = 0 ∨ punkIndex.toNat ≤ bid.maxIndex.toNat) ∧
        (bid.modulo = 0 ∨ bid.modulo.toNat ∣ punkIndex.toNat) := by
  have hcast : (toUint16 punkIndex).toNat = punkIndex.toNat := by
    rw [toUint16, UInt16.toNat_ofNat', Nat.mod_eq_of_lt h]
  have hmem : ∀ l : List UInt16, toUint16 punkIndex ∈ l ↔ ∃ i ∈ l, i.toNat = punkIndex.toNat := by
    intro l
    rw [← hcast]
    simp only [UInt16.toNat_inj, exists_eq_right]
  rw [IndexFits]
  split
  · exact hmem _
  · have hmod : toUint16 punkIndex % bid.modulo = 0 ↔ bid.modulo.toNat ∣ punkIndex.toNat := by
      rw [← UInt16.toNat_inj, UInt16.toNat_mod, hcast, Nat.dvd_iff_mod_eq_zero]
      rfl
    rw [hmem, UInt16.le_iff_toNat_le, hcast, hmod]
    simp

/-- **The exact matching criterion.**  In the storage of a reachable world, whatever the offer is,
and if the attributes of the Punk are at most 256 of at most 32 bytes each: `_canMatchBidAndPunk`
returns exactly if the bid and the Punk match, and then it returns the price with the fee on top,
the value of the offer and its seller. -/
theorem canMatch_iff_matches (net : Network Ω) (chainid : Uint256) (w : World Ω)
    (hw : Reachable net chainid w) (m : Scratch) (ω : Ω) (bid : Bid) (punkIndex : Uint256)
    (hindex : punkIndex.toNat < 10000) (offer : Offer)
    (hoffer : net.punksOfferedForSale ω punkIndex = some offer) (s : Str)
    (hattributes : net.punkAttributes ω (toUint16 punkIndex) = some s)
    (hshort : ∀ t ∈ Text.split attributesSeparator s.val, t.length ≤ 32)
    (hmany : (Text.split attributesSeparator s.val).length ≤ 256) :
    ((∃ sale, canMatchBidAndPunk net m.val w.store ω bid punkIndex = .ok sale) ↔
      Matches net w.store offer (Text.split attributesSeparator s.val) bid punkIndex.toNat) ∧
    ∀ sale, canMatchBidAndPunk net m.val w.store ω bid punkIndex = .ok sale →
      sale.price = 1000 * offer.minValue.toNat /
        (1000 - (if offer.onlySellTo = net.self then w.store.localFeeRate
          else w.store.feeRate).toNat) ∧
      sale.punkPrice = offer.minValue.toNat ∧ sale.seller = offer.seller := by
  have hrate : (currentFeeRate net w.store offer).toNat ≤ maxFeeRate :=
    hw.ratesBounded.currentFeeRate_le offer
  simp only [canMatchBidAndPunk_eq_ok m.property hattributes hshort hmany,
    canBuyPunk_eq_ok_of_offer hoffer hrate]
  refine ⟨⟨?_, fun h ↦ ?_⟩, ?_⟩
  · rintro ⟨_, ⟨hsale, hto, hfits, hle, rfl⟩, hindex', hattr⟩
    exact ⟨hsale, hto, hfits, hle, (indexFits_iff (by omega)).mp hindex', hattr⟩
  · exact ⟨_, ⟨h.isForSale, h.onlySellTo, h.fits, h.affordable, rfl⟩,
      (indexFits_iff (by omega)).mpr h.index, h.attributes⟩
  · rintro _ ⟨⟨-, -, -, -, rfl⟩, -, -⟩
    exact ⟨rfl, rfl, rfl⟩

/-- The attributes of an ape with a hat. -/
def apeAttributes : Str := ⟨utf8 "Ape, Hat", by decide⟩

/-- Surroundings in which every Punk is a hat-wearing ape, for sale to anybody for nothing. -/
def apeNetwork (ecrecover : Bytes32 → UInt8 → Bytes32 → Bytes32 → Address) : Network Unit where
  self := 1
  ecrecover := ecrecover
  punksOfferedForSale _ punkIndex := some
    { isForSale := true, punkIndex := punkIndex, seller := 4, minValue := 0, onlySellTo := 0 }
  punkAttributes _ _ := some apeAttributes

/-- A bid for an ape with a hat and nothing else. -/
def apeBid : Bid where
  bidder := 3
  attributesCountEnabled := true
  attributesCount := 1
  modulo := 5
  maxIndex := 0
  indexes := []
  excludedIndexes := [10]
  baseType := ⟨utf8 "Ape", by decide⟩
  attributes := ⟨utf8 "Hat", by decide⟩
  amount := 2000
  listingTime := 50
  expirationTime := 200
  salt := 0
  nonce := 0

theorem apeBid_attributesFit :
    AttributesFit apeBid (Text.split attributesSeparator apeAttributes.val) where
  baseType := .inr (by decide)
  attributesCount _ := by decide
  attributes := .inr (by decide)

/-- The ape at index 5 is one the bid matches. -/
theorem canMatch_iff_matches_ape :
    ∃ sale, canMatchBidAndPunk (apeNetwork fun _ _ _ _ ↦ 0) idleMsg.memory.val
      (deploy 1 1 7 0 ()).store () apeBid 5 = .ok sale := by
  have hw : Reachable (apeNetwork fun _ _ _ _ ↦ 0) 1 (deploy 1 1 7 0 ()) :=
    ⟨7, 0, (), .done, [], rfl⟩
  refine (canMatch_iff_matches _ 1 _ hw idleMsg.memory () apeBid 5 (by decide) _ rfl _ rfl
    (by decide) (by decide)).1.mpr ⟨rfl, .inl rfl, by decide, by decide, ?_, apeBid_attributesFit⟩
  exact (indexFits_iff (by decide)).mp (validatePunkIndex_eq_ok.mp rfl)

end PunksBids
