import Mathlib.Data.List.Lex
import Mathlib.Data.List.Sort
import Mathlib.Order.Basic
import PunksBids.Matching.Criterion

/-!
# One cursor for all attributes

The scan for one attribute begins after the attribute found before it.  A component that was found
is never found again, so what is found is a subsequence of the components, with everything as often
as it is asked for (`findAttributes_eq`).  Looking for each attribute in the whole list would ask
for less; but in lists that are in the same strict order it asks for the same, whatever the order
is (`sublist_iff_of_ordered`).
-/

set_option autoImplicit false

namespace PunksBids

open Evm StringUtils

/-- In lists that are strictly increasing, to be a subsequence is to be a subset. -/
theorem sublist_iff_of_ordered {α : Type} [LinearOrder α] {l l' : List α}
    (h : l.Pairwise (· < ·)) (h' : l'.Pairwise (· < ·)) : l.Sublist l' ↔ ∀ a ∈ l, a ∈ l' := by
  refine ⟨fun hs a ha ↦ hs.subset ha, fun hsub ↦ ?_⟩
  have hnodup : l.Nodup := h.imp fun hlt ↦ ne_of_lt hlt
  exact List.sublist_of_subperm_of_pairwise (List.subperm_of_subset hnodup hsub) h h'

/-- The components of a string of attributes. -/
def components (s : Str) : List Bytes := Text.split attributesSeparator s.val

/-- The attributes of a Punk, put into memory and cut. -/
theorem scannable_components (m : Scratch) (s : Str)
    (hshort : ∀ t ∈ components s, t.length ≤ 32) :
    ∃ punk m₁, getAttributesStringToSliceArray (m.val.allocString s.val).2
        (m.val.allocString s.val).1 = .ok (punk, m₁) ∧
      Scannable m₁ punk (components s) ∧ m₁.free + 64 + 2 ^ 64 < 2 ^ 100 := by
  have hlen := s.property
  have hfree := m.property
  obtain ⟨p, m₀, halloc, hext, hstr, hle⟩ := allocString_spec m.val s
  rw [halloc]
  obtain ⟨punk, m₁, hparts, hext', hhas, hle'⟩ :=
    getAttributesStringToSliceArray_eq hstr (by rw [wordSize]; omega)
  exact ⟨punk, m₁, hparts, ⟨hhas.of_extends hext', hshort, by omega⟩, by omega⟩

/-- **The scan with one cursor, against membership.**  For the attributes of a Punk whose
components are at most 32 bytes long, and a bid that asks for some: when the base type has passed,
the nested loops end, with nothing missing or with that error.  If nothing is missing, every name
is among the components after the first at least as often as in the list of the bid; and for every
order in which both lists are strictly increasing, nothing is missing exactly if every name is among
these components. -/
theorem scan_agrees_with_membership (m : Scratch) (s : Str)
    (hshort : ∀ t ∈ components s, t.length ≤ 32) (bid : Bid) (hne : bid.attributes.val ≠ []) :
    ∃ punk m₁, getAttributesStringToSliceArray (m.val.allocString s.val).2
        (m.val.allocString s.val).1 = .ok (punk, m₁) ∧
      ∀ m₂, checkBaseType m₁ bid punk = .ok m₂ →
        (checkAttributes m₂ bid punk = .ok () ∨
          checkAttributes m₂ bid punk = .error .punkMissingAttributes) ∧
        (checkAttributes m₂ bid punk = .ok () → ∀ name,
          (components bid.attributes).count name ≤ (components s).tail.count name) ∧
        ∀ o : LinearOrder Bytes, (components bid.attributes).Pairwise o.lt →
          (components s).tail.Pairwise o.lt →
          (checkAttributes m₂ bid punk = .ok () ↔
            ∀ name ∈ components bid.attributes, name ∈ (components s).tail) := by
  obtain ⟨punk, m₁, hparts, hscan, hfree⟩ := scannable_components m s hshort
  refine ⟨punk, m₁, hparts, fun m₂ hbase ↦ ?_⟩
  obtain ⟨m', hm', hext₂, hle₂⟩ : ∃ m', checkBaseType m₁ bid punk = .ok m' ∧ m₁.Extends m' ∧
      m'.free ≤ m₁.free + 64 + 2 ^ 64 := by
    rcases checkBaseType_cases hscan (Text.split_ne_nil _ _) (by omega) bid with
      ⟨-, hok⟩ | ⟨-, hno⟩
    · exact hok
    · exact absurd hbase (hno m₂)
  obtain rfl : m₂ = m' := Except.ok.inj (hbase.symm.trans hm')
  have hscan₂ : Scannable m₂ punk (components s) := hscan.of_extends hext₂ (by omega)
  have hok : checkAttributes m₂ bid punk = .ok () ↔
      (components bid.attributes).Sublist (components s).tail := by
    rw [checkAttributes_eq_ok hscan₂ (by omega)]
    exact or_iff_right hne
  refine ⟨?_, fun h name ↦ (hok.mp h).count_le name, fun o hb hs ↦ ?_⟩
  · rw [checkAttributes_eq hscan₂ (by omega) hne]
    split
    · exact .inl rfl
    · exact .inr rfl
  · rw [hok]
    exact sublist_iff_of_ordered hb hs

/-- Names in the order of their bytes. -/
@[reducible] def bytesOrder : LinearOrder Bytes :=
  LinearOrder.lift' (List.map UInt8.toNat) (List.map_injective_iff.mpr fun _ _ ↦ UInt8.toNat_inj.mp)

/-- The ape's hat is found. -/
theorem scan_agrees_with_membership_ape : ∃ punk m₁ m₂,
    getAttributesStringToSliceArray (idleMsg.memory.val.allocString apeAttributes.val).2
      (idleMsg.memory.val.allocString apeAttributes.val).1 = .ok (punk, m₁) ∧
    checkBaseType m₁ apeBid punk = .ok m₂ ∧ checkAttributes m₂ apeBid punk = .ok () := by
  have hshort : ∀ t ∈ components apeAttributes, t.length ≤ 32 := by decide
  obtain ⟨punk, m₁, hparts, h⟩ :=
    scan_agrees_with_membership idleMsg.memory apeAttributes hshort apeBid (by decide)
  obtain ⟨punk', m₁', hparts', hscan, hfree⟩ :=
    scannable_components idleMsg.memory apeAttributes hshort
  obtain ⟨rfl, rfl⟩ := Prod.mk.inj (Except.ok.inj (hparts.symm.trans hparts'))
  obtain ⟨m₂, hbase⟩ : ∃ m₂, checkBaseType m₁ apeBid punk = .ok m₂ := by
    rcases checkBaseType_cases hscan (Text.split_ne_nil _ _) (by omega) apeBid with
      ⟨-, m₂, hbase, -⟩ | ⟨hno, -⟩
    · exact ⟨m₂, hbase⟩
    · exact absurd apeBid_attributesFit.baseType hno
  exact ⟨punk, m₁, m₂, hparts, hbase, ((h m₂ hbase).2.2 bytesOrder (List.pairwise_singleton _ _)
    (List.pairwise_singleton _ _)).mpr (by decide)⟩

end PunksBids
