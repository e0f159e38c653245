import PunksBids.Contract.Matching
import PunksBids.Matching.Splitting

/-!
# The attribute lists

`_getAttributesStringToSliceArray` sizes its array with `count` and fills it with `split`.  Since
both follow the same calls, the array is filled exactly (`getAttributesStringToSliceArray_spec`);
and since the separator does not overlap itself, the array and the string determine each other.
The slices stay what they are however memory grows.
-/

set_option autoImplicit false

namespace PunksBids

open Evm Text

/-! ## The array -/

open StringUtils

variable {m : Memory}

/-- **`split`, called once more than it finds the needle, returns the tokens in order.** -/
theorem splitParts_of_splits {delim s left : Slice} {tokens : List Slice}
    (h : Splits m delim s tokens left) (hc : Cuttable m delim s)
    (hnone : ∀ i, ¬ OccursAt (delim.text m) (left.text m) i) :
    splitParts m delim (tokens.length + 1) s = .ok (tokens ++ [left]) := by
  induction h with
  | nil s =>
    rw [List.length_nil, Nat.zero_add, splitParts, StringUtils.split_of_none hc hnone,
      Except.ok_bind]
    rfl
  | cons h _ ih =>
    obtain ⟨i, hi, rfl, rfl⟩ := h.cases hc
    have hparts := ih (hc.rest (le_of_firstAt hi)) hnone
    rw [List.length_cons, splitParts, h.split_eq, Except.ok_bind]
    simp only [hparts, Except.ok_bind]
    rfl

/-! ### Slices and strings as memory grows -/

theorem Slice.text_of_extends {m' : Memory} (he : m.Extends m') {s : Slice}
    (h : s.ptr + s.len ≤ m.free) : s.text m' = s.text m :=
  he.read_eq h

/-- The slices are allocated, and these are their texts. -/
structure HasParts (m : Memory) (parts : List Slice) (texts : List Bytes) : Prop where
  texts_eq : parts.map (Slice.text m) = texts
  le_free : ∀ part ∈ parts, part.ptr + part.len ≤ m.free

theorem HasParts.of_extends {m' : Memory} {parts : List Slice} {texts : List Bytes}
    (h : HasParts m parts texts) (he : m.Extends m') : HasParts m' parts texts := by
  refine ⟨?_, fun part hmem ↦ Nat.le_trans (h.le_free part hmem) he.free_le⟩
  rw [← h.texts_eq]
  exact List.map_congr_left fun part hmem ↦ Slice.text_of_extends he (h.le_free part hmem)

/-- The slice of a string in memory. -/
theorem toSlice_eq {p : Nat} {t : Bytes} (h : m.HasString p t) (hlt : p + 32 < wordSize) :
    toSlice m p = ⟨t.length, p + 32⟩ := by
  rw [toSlice, h.length_eq, Nat.mod_eq_of_lt hlt]

theorem text_toSlice {p : Nat} {t : Bytes} (h : m.HasString p t) :
    Slice.text m ⟨t.length, p + 32⟩ = t := h.read_eq

theorem free_allocString_le (m : Memory) (t : Bytes) :
    (m.allocString t).2.free ≤ m.free + 64 + t.length := by
  simp only [Memory.allocString, Memory.free_reserve, Memory.free_write]
  omega

/-! ### What is returned -/

theorem attributesSeparator_ne_nil : attributesSeparator ≠ [] := by decide

theorem unbordered_attributesSeparator : Unbordered attributesSeparator := by decide

/-- The slices `parts` are the string `t` at the address `p`, cut at the separators: they lie one
after the other in it, their texts are the parts, and the separators are between them and nowhere
else. -/
structure CutsString (m : Memory) (p : Nat) (t : Bytes) (parts : List Slice) : Prop where
  consecutive : Consecutive attributesSeparator.length (p + 32 + t.length) (p + 32) parts
  texts_eq : parts.map (Slice.text m) = Text.split attributesSeparator t
  occursAt_iff : ∀ j, OccursAt attributesSeparator t j ↔
    ∃ part ∈ parts.dropLast, part.ptr + part.len = p + 32 + j

/-- **The array holds the parts of the string**, in memory that only grew by what is allocated. -/
theorem getAttributesStringToSliceArray_spec {p : Nat} {t : Bytes} (h : m.HasString p t)
    (hend : p + 32 + t.length + 2 < wordSize) (hfree : m.free + 32 < wordSize) :
    ∃ parts m', getAttributesStringToSliceArray m p = .ok (parts, m') ∧ m.Extends m' ∧
      CutsString m' p t parts ∧ m'.free = m.free + 224 + 160 * parts.length := by
  have hsep : attributesSeparator.length = 2 := rfl
  have hlen := length_split_le attributesSeparator t
  have hfree₁ : (m.allocString attributesSeparator).2.free = m.free + 64 := rfl
  have hext := Memory.extends_allocString m attributesSeparator
  have hdelim :=
    Memory.hasString_allocString m (show attributesSeparator.length < wordSize by decide)
  have hq : (m.allocString attributesSeparator).1 = m.free := rfl
  rw [getAttributesStringToSliceArray, toSlice_eq h (by omega)]
  generalize m.allocString attributesSeparator = a at hfree₁ hext hdelim hq ⊢
  obtain ⟨q, m₁⟩ := a
  obtain rfl : q = m.free := hq
  replace hfree₁ : m₁.free = m.free + 64 := hfree₁
  let s : Slice := ⟨t.length, p + 32⟩
  let delim : Slice := ⟨2, m.free + 32⟩
  have hs : s.text m₁ = t := text_toSlice (h.of_extends hext)
  have hd : delim.text m₁ = attributesSeparator := text_toSlice hdelim
  have hdslice : toSlice m₁ m.free = delim := toSlice_eq hdelim hfree
  have hc : Cuttable m₁ delim s :=
    ⟨Nat.succ_pos 1, show p + 32 + t.length < wordSize by omega,
      searchable_of_le (by rw [hd]; decide)⟩
  obtain ⟨tokens, left, hsplits, hnone⟩ := exists_splits hc
  have htexts := hsplits.texts hc hnone
  have hcount : count m₁ s delim = _ := count_eq hc hend
  have hocc := hsplits.occursAt_iff hc (by rw [hd]; exact unbordered_attributesSeparator) hnone
  have hconsec := hsplits.consecutive hc
  have hparts := splitParts_of_splits hsplits hc hnone
  rw [hs, hd] at htexts hocc
  have hn : (Text.split attributesSeparator t).length = tokens.length + 1 := by
    rw [← htexts, List.length_map, List.length_append, List.length_singleton]
  rw [hs, hd, hn, Nat.add_sub_cancel] at hcount
  simp only [hdslice]
  rw [hcount, Except.ok_bind, checkedAdd_ok (by omega), Except.ok_bind, hparts, Except.ok_bind]
  refine ⟨tokens ++ [left], _, rfl, hext.trans (Memory.extends_reserve _ _), ⟨hconsec, ?_, ?_⟩, ?_⟩
  · exact htexts
  · intro j
    rw [hocc j, List.dropLast_concat]
  · rw [Memory.free_reserve, List.length_append, List.length_singleton]
    omega

/-- The same with bounds that are easy to carry along. -/
theorem getAttributesStringToSliceArray_eq {p : Nat} {t : Bytes} (h : m.HasString p t)
    (hfree : m.free + 200 * t.length + 1000 < wordSize) :
    ∃ parts m', getAttributesStringToSliceArray m p = .ok (parts, m') ∧ m.Extends m' ∧
      HasParts m parts (Text.split attributesSeparator t) ∧
      m'.free ≤ m.free + 200 * t.length + 1000 := by
  have hle := h.le_free
  obtain ⟨parts, m', hok, hext, hcut, hfree'⟩ :=
    getAttributesStringToSliceArray_spec h (by omega) (by omega)
  have hin (part : Slice) (hmem : part ∈ parts) : part.ptr + part.len ≤ m.free :=
    Nat.le_trans (hcut.consecutive.within part hmem).le_hi hle
  have hlen := length_split_le attributesSeparator t
  rw [← hcut.texts_eq, List.length_map] at hlen
  refine ⟨parts, m', hok, hext, ⟨?_, hin⟩, by omega⟩
  rw [← hcut.texts_eq]
  exact List.map_congr_left fun part hmem ↦ (Slice.text_of_extends hext (hin part hmem)).symm

/-- **Splitting and joining are inverse.**  For every string in memory the array is returned: it is
not empty, its slices lie in the string one after the other, separated exactly by the occurrences
of the separator; their texts, joined with it, are the string, and none of them contains it.  And
if the string is a join of texts that do not contain it, these are the texts.  The last bound says
that there is an address for the separator, which is put into memory too. -/
theorem attributeLists_inverse (m : Memory) (p : Nat) (t : Bytes) (h : m.HasString p t)
    (hend : p + 32 + t.length + 2 < 2 ^ 256) (hfree : m.free + 32 < 2 ^ 256) :
    ∃ parts m', getAttributesStringToSliceArray m p = .ok (parts, m') ∧ m.Extends m' ∧
      parts ≠ [] ∧
      (∀ part ∈ parts, part.Within (p + 32) (p + 32 + t.length)) ∧
      Consecutive 2 (p + 32 + t.length) (p + 32) parts ∧
      (∀ j, OccursAt (utf8 ", ") t j ↔
        ∃ part ∈ parts.dropLast, part.ptr + part.len = p + 32 + j) ∧
      (utf8 ", ").intercalate (parts.map (Slice.text m')) = t ∧
      (∀ part ∈ parts, ¬ utf8 ", " <:+: part.text m') ∧
      ∀ l : List Bytes, l ≠ [] → (∀ a ∈ l, ¬ utf8 ", " <:+: a) →
        (utf8 ", ").intercalate l = t → parts.map (Slice.text m') = l := by
  obtain ⟨parts, m', hok, hext, hcut, -⟩ := getAttributesStringToSliceArray_spec h hend hfree
  have hne := attributesSeparator_ne_nil
  refine ⟨parts, m', hok, hext, ?_, hcut.consecutive.within, hcut.consecutive, hcut.occursAt_iff,
    ?_, fun part hmem ↦ ?_, fun l hl hfree' hjoin ↦ ?_⟩
  · rintro rfl
    exact split_ne_nil attributesSeparator t hcut.texts_eq.symm
  · rw [hcut.texts_eq]
    exact intercalate_split hne t
  · refine not_infix_of_mem_split hne t _ ?_
    rw [← hcut.texts_eq]
    exact List.mem_map_of_mem hmem
  · rw [hcut.texts_eq, ← hjoin]
    exact split_intercalate hne unbordered_attributesSeparator hl hfree'

/-- A comma at the end of a name, a name that is empty and a space at the start are kept apart. -/
theorem attributeLists_inverse_commas : ∃ parts m',
    getAttributesStringToSliceArray (allA.allocString (utf8 "Cap,, ,  Hat")).2 0x80 =
      .ok (parts, m') ∧ parts.map (Slice.text m') = [utf8 "Cap,", [], utf8 " Hat"] := by
  obtain ⟨parts, m', hok, -, -, -, -, -, -, -, hback⟩ :=
    attributeLists_inverse (allA.allocString (utf8 "Cap,, ,  Hat")).2 0x80 (utf8 "Cap,, ,  Hat")
      (allA.hasString_allocString (by decide)) (by decide) (by decide)
  exact ⟨parts, m', hok, hback _ (by decide) (by decide) (by decide)⟩

end PunksBids
