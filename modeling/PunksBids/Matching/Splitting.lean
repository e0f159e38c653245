import PunksBids.Lib.Parts
import PunksBids.Matching.Search

/-!
# Splitting and counting

`split` cuts a slice at the first occurrence of a needle, and `count` looks for one occurrence after
another without cutting, two loops over the same text that keep their place in different ways.  Both
follow the parts of `Text.split`: `Splits` is what happens when `split` is called as long as it
finds the needle, its tokens and what is left are the parts (`Splits.texts`), and `count` finds one
needle less than there are parts (`count_eq`).  So they agree, and on a number that does not depend
on the order of the search (`count_eq_splits`).
-/

set_option autoImplicit false

namespace PunksBids

open Evm Text

namespace StringUtils

variable {m : Memory} {self needle : Slice}

/-- What is left of a slice after its first `k` bytes. -/
def Slice.rest (s : Slice) (k : Nat) : Slice where
  len := s.len - k
  ptr := s.ptr + k

@[simp] theorem Slice.rest_len (s : Slice) (k : Nat) : (s.rest k).len = s.len - k := rfl

@[simp] theorem Slice.rest_ptr (s : Slice) (k : Nat) : (s.rest k).ptr = s.ptr + k := rfl

theorem Slice.text_rest {s : Slice} {k : Nat} (h : k ≤ s.len) :
    (s.rest k).text m = (s.text m).drop k :=
  (m.read_drop h).symm

theorem Slice.text_take {s : Slice} {k : Nat} (h : k ≤ s.len) :
    (Slice.text m ⟨k, s.ptr⟩) = (s.text m).take k :=
  (m.read_take h).symm

theorem Slice.text_ne_nil {s : Slice} (h : 0 < s.len) : s.text m ≠ [] := by
  rw [← List.length_pos_iff, Slice.length_text]
  exact h

/-! ## `split` -/

/-- What the searches for `needle` in a slice, and in what is left of it, rest on. -/
structure Cuttable (m : Memory) (needle s : Slice) : Prop where
  needle_pos : 0 < needle.len
  end_lt : s.ptr + s.len < wordSize
  searchable : Searchable (needle.text m) (s.text m)

theorem Cuttable.rest (h : Cuttable m needle self) {k : Nat} (hk : k ≤ self.len) :
    Cuttable m needle (self.rest k) where
  needle_pos := h.needle_pos
  end_lt := by
    have := h.end_lt
    rw [Slice.rest_len, Slice.rest_ptr]
    omega
  searchable := by
    rw [Slice.text_rest hk]
    exact h.searchable.mono (List.drop_suffix _ _).isInfix

theorem le_of_firstAt {i : Nat} (h : FirstAt (needle.text m) (self.text m) i) :
    i + needle.len ≤ self.len := by
  simpa only [Slice.length_text] using h.le_length

/-- **`split` cuts at the first occurrence.** -/
theorem split_of_first {i : Nat} (hc : Cuttable m needle self)
    (h : FirstAt (needle.text m) (self.text m) i) :
    split m self needle = .ok (⟨i, self.ptr⟩, self.rest (i + needle.len)) := by
  have hle := le_of_firstAt h
  have hpos := hc.needle_pos
  have hend := hc.end_lt
  have hlen : checkedSub (self.ptr + i) self.ptr = .ok i :=
    checkedSub_eq_ok.mpr ⟨Nat.le_add_right _ _, Nat.add_sub_cancel_left _ _⟩
  rw [split, findPtr_of_first hend hc.searchable h, Except.ok_bind, hlen, Except.ok_bind,
    checkedAdd_ok hend, Except.ok_bind, if_neg (by omega),
    checkedAdd_ok (show i + needle.len < wordSize by omega), Except.ok_bind, checkedSub_ok hle,
    Except.ok_bind, checkedAdd_ok (by omega), Except.ok_bind, Nat.add_assoc]
  rfl

/-- Without an occurrence everything is split off. -/
theorem split_of_none (hc : Cuttable m needle self)
    (h : ∀ i, ¬ OccursAt (needle.text m) (self.text m) i) :
    split m self needle = .ok (self, { self with len := 0 }) := by
  rw [split, findPtr_of_none hc.end_lt hc.searchable h, Except.ok_bind, checkedSub_ok (by omega),
    Except.ok_bind, checkedAdd_ok hc.end_lt, Except.ok_bind, if_pos rfl, Nat.add_sub_cancel_left]
  rfl

/-! ### One call after another -/

/-- A call of `split` that finds the needle. -/
structure Finds (m : Memory) (needle s token rest : Slice) : Prop where
  split_eq : split m s needle = .ok (token, rest)
  found : findPtr m s.len s.ptr needle.len needle.ptr ≠ .ok (s.ptr + s.len)

/-- A call of `split` that does not find it. -/
structure Misses (m : Memory) (needle s token rest : Slice) : Prop where
  split_eq : split m s needle = .ok (token, rest)
  missed : findPtr m s.len s.ptr needle.len needle.ptr = .ok (s.ptr + s.len)

theorem finds_of_first {i : Nat} (hc : Cuttable m needle self)
    (h : FirstAt (needle.text m) (self.text m) i) :
    Finds m needle self ⟨i, self.ptr⟩ (self.rest (i + needle.len)) where
  split_eq := split_of_first hc h
  found := by
    have hle := le_of_firstAt h
    have hpos := hc.needle_pos
    rw [findPtr_of_first hc.end_lt hc.searchable h, Ne, Except.ok.injEq]
    omega

theorem misses_of_none (hc : Cuttable m needle self)
    (h : ∀ i, ¬ OccursAt (needle.text m) (self.text m) i) :
    Misses m needle self self { self with len := 0 } where
  split_eq := split_of_none hc h
  missed := findPtr_of_none hc.end_lt hc.searchable h

/-- What a call that finds the needle does. -/
theorem Finds.cases {token rest : Slice} (hc : Cuttable m needle self)
    (h : Finds m needle self token rest) :
    ∃ i, FirstAt (needle.text m) (self.text m) i ∧ token = ⟨i, self.ptr⟩ ∧
      rest = self.rest (i + needle.len) := by
  by_cases hocc : ∃ i, OccursAt (needle.text m) (self.text m) i
  · obtain ⟨i, hi⟩ := exists_firstAt hocc
    have heq := Except.ok.inj (h.split_eq.symm.trans (split_of_first hc hi))
    exact ⟨i, hi, congrArg Prod.fst heq, congrArg Prod.snd heq⟩
  · exact absurd (findPtr_of_none hc.end_lt hc.searchable (not_exists.mp hocc)) h.found

/-- Successive calls of `split` that find the needle: their tokens, and what is left. -/
inductive Splits (m : Memory) (needle : Slice) : Slice → List Slice → Slice → Prop
  | nil (self : Slice) : Splits m needle self [] self
  | cons {self token rest left : Slice} {tokens : List Slice}
      (h : Finds m needle self token rest) (tail : Splits m needle rest tokens left) :
      Splits m needle self (token :: tokens) left

section Splits

variable {left : Slice} {tokens : List Slice}

/-- The calls find the needle until it is not there. -/
theorem exists_splits (hc : Cuttable m needle self) :
    ∃ tokens left, Splits m needle self tokens left ∧
      ∀ i, ¬ OccursAt (needle.text m) (left.text m) i := by
  induction hn : self.len using Nat.strongRecOn generalizing self with
  | _ n ih =>
  by_cases hocc : ∃ i, OccursAt (needle.text m) (self.text m) i
  · obtain ⟨i, hi⟩ := exists_firstAt hocc
    have hle := le_of_firstAt hi
    have hpos := hc.needle_pos
    obtain ⟨tokens, left, hsplits, hnone⟩ :=
      ih (self.rest (i + needle.len)).len (by rw [Slice.rest_len]; omega) (hc.rest hle) rfl
    exact ⟨_, left, .cons (finds_of_first hc hi) hsplits, hnone⟩
  · exact ⟨[], self, .nil self, not_exists.mp hocc⟩

theorem Splits.cuttable (h : Splits m needle self tokens left) (hc : Cuttable m needle self) :
    Cuttable m needle left := by
  induction h with
  | nil self => exact hc
  | cons h _ ih =>
    obtain ⟨i, hi, -, rfl⟩ := h.cases hc
    exact ih (hc.rest (le_of_firstAt hi))

/-- The calls come to the same as `Text.split`. -/
theorem Splits.texts (h : Splits m needle self tokens left) (hc : Cuttable m needle self)
    (hnone : ∀ i, ¬ OccursAt (needle.text m) (left.text m) i) :
    (tokens ++ [left]).map (Slice.text m) = Text.split (needle.text m) (self.text m) := by
  induction h with
  | nil self => rw [Text.split_of_none hnone]; rfl
  | cons h _ ih =>
    obtain ⟨i, hi, rfl, rfl⟩ := h.cases hc
    have hle := le_of_firstAt hi
    rw [List.cons_append, List.map_cons, ih (hc.rest hle) hnone,
      Text.split_of_first (Slice.text_ne_nil hc.needle_pos) hi, Slice.length_text,
      Slice.text_rest hle, Slice.text_take (by omega)]

/-- Calls that find the needle are the first of those before it is missed. -/
theorem Splits.isPrefix {left' token rest : Slice} {tokens' : List Slice}
    (h' : Splits m needle self tokens' left') (h : Splits m needle self tokens left)
    (hmiss : Misses m needle left token rest) : tokens' <+: tokens := by
  induction h' generalizing tokens with
  | nil self => exact List.nil_prefix
  | cons hfind _ ih =>
    cases h with
    | nil => exact absurd hmiss.missed hfind.found
    | cons hfind' tail =>
      have heq := Except.ok.inj (hfind.split_eq.symm.trans hfind'.split_eq)
      obtain ⟨rfl, rfl⟩ := Prod.mk.inj heq
      exact List.cons_prefix_cons.mpr ⟨rfl, ih tail⟩

/-! ### Where the tokens are -/

/-- Slices one after the other from `lo` on up to `hi`, with `gap` bytes between two of them. -/
inductive Consecutive (gap hi : Nat) : Nat → List Slice → Prop
  | last {s : Slice} (h : s.ptr + s.len = hi) : Consecutive gap hi s.ptr [s]
  | cons {s : Slice} {rest : List Slice} (h : Consecutive gap hi (s.ptr + s.len + gap) rest) :
      Consecutive gap hi s.ptr (s :: rest)

theorem Consecutive.lo_le {gap hi lo : Nat} {parts : List Slice}
    (h : Consecutive gap hi lo parts) : lo ≤ hi := by
  induction h with
  | last h => omega
  | cons _ ih => omega

theorem Consecutive.within {gap hi lo : Nat} {parts : List Slice}
    (h : Consecutive gap hi lo parts) : ∀ part ∈ parts, part.Within lo hi := by
  induction h with
  | last h => simpa using ⟨Nat.le_refl _, Nat.le_of_eq h⟩
  | cons h ih =>
    have hle := h.lo_le
    rintro part (_ | ⟨_, hmem⟩)
    · exact ⟨Nat.le_refl _, by omega⟩
    · have hin := ih part hmem
      exact ⟨Nat.le_trans (by omega) hin.lo_le, hin.le_hi⟩

theorem Splits.consecutive (h : Splits m needle self tokens left) (hc : Cuttable m needle self) :
    Consecutive needle.len (self.ptr + self.len) self.ptr (tokens ++ [left]) := by
  induction h with
  | nil self => exact .last rfl
  | @cons self token rest left tokens h _ ih =>
    obtain ⟨i, hi, rfl, rfl⟩ := h.cases hc
    have hle := le_of_firstAt hi
    have htail := ih (hc.rest hle)
    rw [Slice.rest_ptr, Slice.rest_len, Nat.add_assoc, Nat.add_sub_cancel' hle, ← Nat.add_assoc]
      at htail
    exact .cons (s := ⟨i, self.ptr⟩) htail

/-- The needle lies after every token and, if it cannot overlap itself, nowhere else. -/
theorem Splits.occursAt_iff (h : Splits m needle self tokens left) (hc : Cuttable m needle self)
    (hb : Unbordered (needle.text m))
    (hnone : ∀ i, ¬ OccursAt (needle.text m) (left.text m) i) (j : Nat) :
    OccursAt (needle.text m) (self.text m) j ↔
      ∃ token ∈ tokens, token.ptr + token.len = self.ptr + j := by
  induction h generalizing j with
  | nil self => simpa using hnone j
  | @cons self token rest left tokens h tail ih =>
    obtain ⟨i, hi, rfl, rfl⟩ := h.cases hc
    have hle := le_of_firstAt hi
    have hwithin := (tail.consecutive (hc.rest hle)).within
    have hrest := ih (hc.rest hle) hnone
    rw [Slice.text_rest hle] at hrest
    rw [occursAt_iff_of_first hb hi, Slice.length_text]
    simp only [hrest, List.exists_mem_cons_iff, Slice.rest_ptr]
    constructor
    · rintro (rfl | ⟨k, rfl, token, hmem, heq⟩)
      · exact .inl rfl
      · exact .inr ⟨token, hmem, by omega⟩
    · rintro (heq | ⟨token, hmem, heq⟩)
      · exact .inl (Nat.add_left_cancel heq).symm
      · have hlo := (hwithin token (List.mem_append_left _ hmem)).lo_le
        rw [Slice.rest_ptr] at hlo
        exact .inr ⟨token.ptr + token.len - self.ptr - (i + needle.len), by omega, token, hmem,
          by omega⟩

end Splits

/-! ## `count` -/

/-- The loop of `count` stops past the end. -/
theorem countLoop_stop {cnt ptr : Nat} (hend : self.ptr + self.len < wordSize)
    (hptr : self.ptr + self.len < ptr) : countLoop m self needle cnt ptr = .ok cnt := by
  rw [countLoop, checkedAdd_ok hend, Except.ok_bind, dif_neg (by omega)]
  rfl

/-- **One round of the loop**: it counts, and goes on behind the place where the search of what is
left has ended. -/
theorem countLoop_step (m : Memory) (cnt ptr : Nat)
    (hend : self.ptr + self.len + needle.len < wordSize) (hpos : 0 < needle.len)
    (hlo : self.ptr ≤ ptr) (hle : ptr ≤ self.ptr + self.len) (hcnt : self.ptr + cnt ≤ ptr) :
    ∃ q, findPtr m (self.len - (ptr - self.ptr)) ptr needle.len needle.ptr = .ok q ∧ ptr ≤ q ∧
      q ≤ self.ptr + self.len ∧
      countLoop m self needle cnt ptr = countLoop m self needle (cnt + 1) (q + needle.len) := by
  obtain ⟨q, hq, hge, hq'⟩ : ∃ q, findPtr m (self.len - (ptr - self.ptr)) ptr needle.len
      needle.ptr = .ok q ∧ ptr ≤ q ∧ q ≤ ptr + (self.len - (ptr - self.ptr)) :=
    findPtr_ok m needle.len needle.ptr (by omega)
  refine ⟨q, hq, hge, by omega, ?_⟩
  rw [countLoop, checkedAdd_ok (by omega), Except.ok_bind, dif_pos hle, checkedAdd_ok (by omega),
    Except.ok_bind, checkedSub_ok hlo, Except.ok_bind, checkedSub_ok (by omega), Except.ok_bind,
    hq, Except.ok_bind, checkedAdd_ok (by omega), Except.ok_bind, dif_pos (by omega)]

/-- The loop of `count` ends, whatever the hashes are. -/
theorem countLoop_ok {cnt ptr : Nat} (hend : self.ptr + self.len + needle.len < wordSize)
    (hpos : 0 < needle.len) (hlo : self.ptr ≤ ptr) (hcnt : self.ptr + cnt ≤ ptr) :
    ∃ n, countLoop m self needle cnt ptr = .ok n := by
  induction hn : self.ptr + self.len + 1 - ptr using Nat.strongRecOn generalizing cnt ptr with
  | _ n ih =>
  by_cases hle : ptr ≤ self.ptr + self.len
  · obtain ⟨q, -, hge, hq, hstep⟩ := countLoop_step m cnt ptr hend hpos hlo hle hcnt
    rw [hstep]
    exact ih _ (by omega) (by omega) (by omega) rfl
  · exact ⟨cnt, countLoop_stop (by omega) (by omega)⟩

/-- **`count` ends.** -/
theorem count_ok (m : Memory) (hend : self.ptr + self.len + needle.len < wordSize)
    (hpos : 0 < needle.len) : ∃ n, count m self needle = .ok n := by
  obtain ⟨q, hq, hge, hle⟩ := findPtr_ok m needle.len needle.ptr
    (show self.ptr + self.len < wordSize by omega)
  rw [count, hq, Except.ok_bind, checkedAdd_ok (by omega), Except.ok_bind]
  exact countLoop_ok hend hpos (by omega) (by omega)

/-- The loop of `count`, after the search of the rest from position `k` on has returned `q`: it goes
on to count the separators of the rest. -/
theorem countLoop_eq {cnt k q : Nat} (hc : Cuttable m needle self)
    (hend : self.ptr + self.len + needle.len < wordSize) (hk : k ≤ self.len) (hcnt : cnt ≤ k)
    (hq : findPtr m (self.rest k).len (self.rest k).ptr needle.len needle.ptr = .ok q) :
    countLoop m self needle cnt (q + needle.len) =
      .ok (cnt + ((Text.split (needle.text m) ((self.rest k).text m)).length - 1)) := by
  induction hn : self.len - k using Nat.strongRecOn generalizing cnt k q with
  | _ n ih =>
  have hpos := hc.needle_pos
  have hrest := hc.rest hk
  by_cases hocc : ∃ i, OccursAt (needle.text m) ((self.rest k).text m) i
  · obtain ⟨i, hi⟩ := exists_firstAt hocc
    have hle := le_of_firstAt hi
    rw [Slice.rest_len] at hle
    have hqi : q = self.ptr + k + i :=
      Except.ok.inj (hq.symm.trans (findPtr_of_first hrest.end_lt hrest.searchable hi))
    have hptr : q + needle.len = self.ptr + (k + (i + needle.len)) := by omega
    obtain ⟨q', hq', -, -, hstep⟩ := countLoop_step m cnt
      (self.ptr + (k + (i + needle.len))) hend hpos (by omega) (by omega) (by omega)
    rw [Nat.add_sub_cancel_left] at hq'
    have hcount : countLoop m self needle (cnt + 1) (q' + needle.len) = _ :=
      ih (self.len - (k + (i + needle.len))) (by omega) (by omega) (by omega) hq' rfl
    have htext : (self.rest (k + (i + needle.len))).text m =
        ((self.rest k).text m).drop (i + needle.len) := by
      rw [Slice.text_rest (by omega), Slice.text_rest hk, List.drop_drop]
    have hparts := List.length_pos_iff.mpr
      (split_ne_nil (needle.text m) (((self.rest k).text m).drop (i + needle.len)))
    rw [hptr, hstep, hcount, htext, Text.split_of_first (Slice.text_ne_nil hpos) hi,
      Slice.length_text, List.length_cons]
    exact congrArg Except.ok (by omega)
  · have hnone := not_exists.mp hocc
    have hqe : q = self.ptr + k + (self.len - k) :=
      Except.ok.inj (hq.symm.trans (findPtr_of_none hrest.end_lt hrest.searchable hnone))
    rw [countLoop_stop (by omega) (by omega), Text.split_of_none hnone]
    rfl

/-- **`count` counts the separators**: one less than there are parts. -/
theorem count_eq (hc : Cuttable m needle self)
    (hend : self.ptr + self.len + needle.len < wordSize) :
    count m self needle = .ok ((Text.split (needle.text m) (self.text m)).length - 1) := by
  obtain ⟨q, hq, -, hle⟩ := findPtr_ok m needle.len needle.ptr hc.end_lt
  rw [count, hq, Except.ok_bind, checkedAdd_ok (by omega), Except.ok_bind]
  have hloop : countLoop m self needle 0 (q + needle.len) = _ :=
    countLoop_eq (k := 0) hc hend (Nat.zero_le _) (Nat.le_refl _) hq
  rwa [show self.rest 0 = self from rfl, Nat.zero_add] at hloop

/-! ## The two agree -/

/-- One call of `split`: it returns the text before the first occurrence and leaves the text after
it, or returns everything if there is none. -/
def CutsFirst (m : Memory) (needle self : Slice) : Prop :=
  (∃ i token rest, FirstAt (needle.text m) (self.text m) i ∧ Finds m needle self token rest ∧
    i + needle.len ≤ self.len ∧ token.text m = (self.text m).take i ∧
    rest.text m = (self.text m).drop (i + needle.len)) ∨
  (∀ i, ¬ OccursAt (needle.text m) (self.text m) i) ∧
    Misses m needle self self { self with len := 0 }

theorem cutsFirst_of_cuttable (hc : Cuttable m needle self) : CutsFirst m needle self := by
  by_cases hocc : ∃ i, OccursAt (needle.text m) (self.text m) i
  · obtain ⟨i, hi⟩ := exists_firstAt hocc
    have hle := le_of_firstAt hi
    exact .inl ⟨i, _, _, hi, finds_of_first hc hi, hle, Slice.text_take (by omega),
      Slice.text_rest hle⟩
  · exact .inr ⟨not_exists.mp hocc, misses_of_none hc (not_exists.mp hocc)⟩

/-- **`count` and `split` agree.**  For every slice and every needle that is not empty, `count`
returns.  And it returns the number of calls of `split` that find the needle before one misses it,
which is the greatest number of occurrences that do not overlap; every one of these calls cuts at
the first occurrence in what the calls before it have left, and the tokens, joined with the needle,
are the text.  This holds unless the needle is longer than a word and some other part of the text
has its hash. -/
theorem count_eq_splits (m : Memory) (self needle : Slice) (hpos : 0 < needle.len)
    (hend : self.ptr + self.len + needle.len < wordSize) :
    (∃ n, count m self needle = .ok n) ∧
    ((∃ tokens left last rest, Splits m needle self tokens left ∧ Misses m needle left last rest ∧
        count m self needle = .ok tokens.length ∧
        IsGreatest {n | ∃ ps, NonOverlapping (needle.text m) (self.text m) ps ∧ ps.card = n}
          tokens.length ∧
        (needle.text m).intercalate ((tokens ++ [last]).map (Slice.text m)) = self.text m ∧
        ∀ tokens' left', Splits m needle self tokens' left' →
          tokens' <+: tokens ∧ CutsFirst m needle left') ∨
     32 < needle.len ∧ ∃ part, part <:+: self.text m ∧ Collision [needle.text m] [part]) := by
  refine ⟨count_ok m hend hpos, ?_⟩
  rcases searchable_or_collision (needle.text m) (self.text m) with hs | ⟨hlong, hcoll⟩
  swap
  · rw [Slice.length_text] at hlong
    exact .inr ⟨hlong, hcoll⟩
  have hc : Cuttable m needle self := ⟨hpos, by omega, hs⟩
  have hsep := Slice.text_ne_nil (m := m) hpos
  obtain ⟨tokens, left, hsplits, hnone⟩ := exists_splits hc
  have hmiss := misses_of_none (hsplits.cuttable hc) hnone
  have htexts := hsplits.texts hc hnone
  have hlen : (Text.split (needle.text m) (self.text m)).length - 1 = tokens.length := by
    rw [← htexts, List.length_map, List.length_append, List.length_singleton, Nat.add_sub_cancel]
  refine .inl ⟨tokens, left, left, _, hsplits, hmiss, ?_, ?_, ?_, fun tokens' left' h ↦ ⟨?_, ?_⟩⟩
  · rw [count_eq hc hend, hlen]
  · rw [← hlen]
    exact isGreatest_length_split hsep _
  · rw [htexts, intercalate_split hsep]
  · exact h.isPrefix hsplits hmiss
  · exact cutsFirst_of_cuttable (h.cuttable hc)

/-- In `aaa` there is room for one `aa` only. -/
theorem count_eq_splits_allA : ∃ tokens left, Splits allA ⟨2, 0x40⟩ ⟨3, 0x20⟩ tokens left ∧
    count allA ⟨3, 0x20⟩ ⟨2, 0x40⟩ = .ok tokens.length := by
  have h := (count_eq_splits allA ⟨3, 0x20⟩ ⟨2, 0x40⟩ (by decide) (by decide)).2
  obtain ⟨tokens, left, _, _, hsplits, -, hcount, -⟩ :=
    h.resolve_right fun hlong ↦ absurd hlong.1 (by decide)
  exact ⟨tokens, left, hsplits, hcount⟩

end StringUtils

end PunksBids
