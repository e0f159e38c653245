import Mathlib.Data.List.Nodup
import Mathlib.Logic.Function.Basic

/-!
# An order book that remembers only what is over

Orders are made and handed around outside, and nobody registers them.  Every order is stamped by its
maker with an epoch, and the book keeps two things: the epoch each maker is in, and the orders that
are closed.  There are two actions.  An order that carries the epoch its maker is in, and is not
closed, may be closed; and a maker may advance to the next epoch, which strands every order of the
epochs before.

`Book.Step` is one action and `Book.Steps` a list of them, one after the other.  What follows for
any list: an epoch is the number of advances (`Steps.epoch`); no order occurs in the list twice
(`Steps.nodup`); and an order is closed after exactly as many advances of its maker as its stamp
says (`Steps.stamp_eq`).
-/

set_option autoImplicit false

namespace OrderBook

variable {K M O : Type}

/-- The epochs of the makers and the orders that are closed. -/
structure Book (M O : Type) where
  epoch : M → Nat
  closed : O → Prop

/-- The book at the beginning. -/
def Book.empty : Book M O where
  epoch _ := 0
  closed _ := False

/-- What happens to a book.  An order may be closed in several ways, which make no difference to the
book. -/
inductive Act (K M O : Type) where
  | close (how : K) (o : O)
  | advance (m : M)

/-- The order an action closes. -/
def Act.closes : Act K M O → Option O
  | .close _ o => some o
  | .advance _ => none

@[simp] theorem closes_close (how : K) (o : O) : (Act.close how o : Act K M O).closes = some o :=
  rfl

@[simp] theorem closes_advance (m : M) : (Act.advance m : Act K M O).closes = none := rfl

section

variable [DecidableEq M]

/-- How often `m` advances. -/
def advances (m : M) (acts : List (Act K M O)) : Nat :=
  acts.countP fun
    | .advance m' => m' = m
    | .close _ _ => false

@[simp] theorem advances_nil (m : M) : advances m ([] : List (Act K M O)) = 0 := rfl

@[simp] theorem advances_close (m : M) (how : K) (o : O) (acts : List (Act K M O)) :
    advances m (.close how o :: acts) = advances m acts := by
  simp [advances]

@[simp] theorem advances_advance (m m' : M) (acts : List (Act K M O)) :
    advances m (.advance m' :: acts) = advances m acts + if m' = m then 1 else 0 := by
  simp [advances, List.countP_cons]

@[simp] theorem advances_append (m : M) (acts acts' : List (Act K M O)) :
    advances m (acts ++ acts') = advances m acts + advances m acts' :=
  List.countP_append

variable (maker : O → M) (stamp : O → Nat)

/-- One action. -/
inductive Book.Step (b : Book M O) : Act K M O → Book M O → Prop where
  /-- An order is closed in the epoch it is stamped with, and only if it is not closed. -/
  | close {how : K} {o : O} (hstamp : stamp o = b.epoch (maker o)) (hopen : ¬ b.closed o) :
      Step b (.close how o) { b with closed := fun o' ↦ o' = o ∨ b.closed o' }
  | advance {m : M} :
      Step b (.advance m) { b with epoch := Function.update b.epoch m (b.epoch m + 1) }

/-- Actions one after the other. -/
inductive Book.Steps : Book M O → List (Act K M O) → Book M O → Prop where
  | nil (b : Book M O) : Steps b [] b
  | cons {b b' b'' : Book M O} {act : Act K M O} {acts : List (Act K M O)}
      (h : b.Step maker stamp act b') (hrest : Steps b' acts b'') : Steps b (act :: acts) b''

end

variable [DecidableEq M] {maker : O → M} {stamp : O → Nat} {b b' b'' : Book M O}
  {acts acts' : List (Act K M O)} {how : K} {o : O} {m : M}

namespace Book.Steps

theorem append (h : b.Steps maker stamp acts b') (h' : b'.Steps maker stamp acts' b'') :
    b.Steps maker stamp (acts ++ acts') b'' := by
  induction h with
  | nil => exact h'
  | cons hstep _ ih => exact .cons hstep (ih h')

theorem singleton {act : Act K M O} (h : b.Step maker stamp act b') :
    b.Steps maker stamp [act] b' :=
  .cons h (.nil b')

/-- A list of actions comes apart at any point. -/
theorem split (h : b.Steps maker stamp (acts ++ acts') b'') :
    ∃ b', b.Steps maker stamp acts b' ∧ b'.Steps maker stamp acts' b'' := by
  induction acts generalizing b with
  | nil => exact ⟨b, .nil b, h⟩
  | cons act acts ih =>
    obtain _ | ⟨hstep, hrest⟩ := h
    obtain ⟨b', hl, hr⟩ := ih hrest
    exact ⟨b', .cons hstep hl, hr⟩

/-- An epoch is the number of advances. -/
theorem epoch (h : b.Steps maker stamp acts b') (m : M) :
    b'.epoch m = b.epoch m + advances m acts := by
  induction h with
  | nil => simp
  | cons hstep _ ih =>
    cases hstep with
    | close => rw [ih, advances_close]
    | @advance m' =>
      rw [ih, advances_advance]
      by_cases hm : m' = m
      · subst hm
        simp
        omega
      · simp [Function.update_of_ne (Ne.symm hm), hm]

/-- What is closed is not closed again. -/
theorem notMem_of_closed (h : b.Steps maker stamp acts b') (ho : b.closed o) :
    o ∉ acts.filterMap Act.closes := by
  induction h with
  | nil => simp
  | cons hstep _ ih =>
    cases hstep with
    | close _ hopen =>
      rw [List.filterMap_cons, closes_close, List.mem_cons, not_or]
      exact ⟨fun heq ↦ hopen (heq ▸ ho), ih (.inr ho)⟩
    | advance => exact ih ho

/-- **No order is closed twice.** -/
theorem nodup (h : b.Steps maker stamp acts b') : (acts.filterMap Act.closes).Nodup := by
  induction h with
  | nil => simp
  | cons hstep hrest ih =>
    cases hstep with
    | close =>
      rw [List.filterMap_cons, closes_close]
      exact List.nodup_cons.mpr ⟨hrest.notMem_of_closed (.inl rfl), ih⟩
    | advance => exact ih

/-- **An order is closed in its epoch**: after as many advances of its maker as its stamp says. -/
theorem stamp_eq (h : b.Steps maker stamp (acts ++ .close how o :: acts') b') :
    stamp o = b.epoch (maker o) + advances (maker o) acts := by
  obtain ⟨b₁, hl, hr⟩ := h.split
  obtain _ | ⟨hstep, -⟩ := hr
  cases hstep with
  | close hstamp _ => rw [hstamp, hl.epoch]

end Book.Steps

end OrderBook
