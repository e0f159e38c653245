import Mathlib.Data.List.Induction

/-!
# Actions of several actors, in any order

Actors act on one state, and somebody else decides in what order.  What an actor does is a list of
actions (`share`); two sequences are `Alike` if every actor does the same in both, in the same
order, however the actors take turns.

Two facts about such sequences.  If actions of different actors commute, up to a relation that the
actions respect, alike sequences come to the same (`Alike.foldl`).  And if no action of others
changes what an actor sees of the state, the actor sees what it would have seen alone
(`foldl_share`).  Neither asks for more than is needed: actions have to commute, or to go unnoticed,
only in the states in which they can come to be made.
-/

set_option autoImplicit false

namespace Shuffle

variable {α κ σ ν : Type} [DecidableEq κ]

/-- The actions of `k`. -/
def share (who : α → κ) (k : κ) (l : List α) : List α := l.filter fun a ↦ who a = k

/-- Every actor does the same in both sequences. -/
def Alike (who : α → κ) (l l' : List α) : Prop := ∀ k, share who k l = share who k l'

variable {who : α → κ} {l l' p q : List α} {a : α} {k : κ}

theorem share_append (l l' : List α) : share who k (l ++ l') = share who k l ++ share who k l' :=
  List.filter_append l l'

theorem share_cons_of_eq (h : who a = k) : share who k (a :: l) = a :: share who k l :=
  List.filter_cons_of_pos (by simpa using h)

theorem share_cons_of_ne (h : who a ≠ k) : share who k (a :: l) = share who k l :=
  List.filter_cons_of_neg (by simpa using h)

/-- The same actions are in both. -/
theorem Alike.mem_iff (h : Alike who l l') : a ∈ l ↔ a ∈ l' := by
  have hshare (l : List α) : a ∈ l ↔ a ∈ share who (who a) l := by
    simp [share]
  rw [hshare, h, ← hshare]

theorem Alike.symm (h : Alike who l l') : Alike who l' l := fun k ↦ (h k).symm

theorem Alike.trans {l'' : List α} (h : Alike who l l') (h' : Alike who l' l'') :
    Alike who l l'' := fun k ↦ (h k).trans (h' k)

theorem Alike.cons (h : Alike who l l') (a : α) : Alike who (a :: l) (a :: l') := by
  intro k
  by_cases hk : who a = k
  · rw [share_cons_of_eq hk, share_cons_of_eq hk, h k]
  · rw [share_cons_of_ne hk, share_cons_of_ne hk, h k]

/-- An action of one sequence is in every alike one, where its actor has done the same before. -/
theorem Alike.before (h : Alike who l (p ++ a :: q)) :
    ∃ p' q', l = p' ++ a :: q' ∧ share who (who a) p' = share who (who a) p := by
  have ha := h (who a)
  rw [share_append, share_cons_of_eq rfl] at ha
  obtain ⟨l₁, l₂, rfl, hp, hl₂⟩ := List.filter_eq_append_iff.mp ha
  obtain ⟨l₃, l₄, rfl, hnone, -, -⟩ := List.filter_eq_cons_iff.mp hl₂
  refine ⟨l₁ ++ l₃, l₄, by simp, ?_⟩
  rw [share_append, show share who (who a) l₃ = [] from List.filter_eq_nil_iff.mpr hnone,
    List.append_nil]
  exact hp

/-- An action may be moved across actions of others. -/
theorem alike_move (h : ∀ b ∈ p, who b ≠ who a) : Alike who (a :: (p ++ q)) (p ++ a :: q) := by
  intro k
  by_cases hk : who a = k
  · subst hk
    have hnone : share who (who a) p = [] := List.filter_eq_nil_iff.mpr (by simpa using h)
    rw [share_cons_of_eq rfl, share_append, share_append, share_cons_of_eq rfl, hnone]
    rfl
  · rw [share_cons_of_ne hk, share_append, share_append, share_cons_of_ne hk]

/-- The first action of the one sequence is in the other, where only others act before it. -/
theorem Alike.split (h : Alike who (a :: l) l') :
    ∃ p q, l' = p ++ a :: q ∧ (∀ b ∈ p, who b ≠ who a) ∧ Alike who l (p ++ q) := by
  obtain ⟨p, q, rfl, hp⟩ := (show Alike who l' ([] ++ a :: l) from h.symm).before
  have hne : ∀ b ∈ p, who b ≠ who a := by simpa using List.filter_eq_nil_iff.mp hp
  refine ⟨p, q, rfl, hne, fun k ↦ ?_⟩
  have hsame := (h.trans (alike_move hne).symm) k
  by_cases hk : who a = k
  · rw [share_cons_of_eq hk, share_cons_of_eq hk] at hsame
    exact (List.cons.inj hsame).2
  · rwa [share_cons_of_ne hk, share_cons_of_ne hk] at hsame

theorem Alike.nil (h : Alike who [] l) : l = [] := by
  cases l with
  | nil => rfl
  | cons a l =>
    have ha := h (who a)
    rw [share_cons_of_eq rfl] at ha
    cases ha

/-! ## Actions that commute -/

section Commute

variable {f : σ → α → σ} {R : σ → σ → Prop} {P : α → Prop}

theorem foldl_congr (hcongr : ∀ {a s s'}, P a → R s s' → R (f s a) (f s' a))
    (hl : ∀ a ∈ l, P a) {s s' : σ} (h : R s s') : R (l.foldl f s) (l.foldl f s') := by
  induction l generalizing s s' with
  | nil => exact h
  | cons a l ih =>
    exact ih (fun b hb ↦ hl b (List.mem_cons_of_mem _ hb)) (hcongr (hl a List.mem_cons_self) h)

/-- An action may be put off until those it commutes with are done. -/
theorem foldl_put_off (hR : Equivalence R)
    (hcongr : ∀ {a s s'}, P a → R s s' → R (f s a) (f s' a)) (hl : ∀ b ∈ l, P b) {s : σ}
    (hcomm : ∀ q b r, l = q ++ b :: r →
      R (f (f (q.foldl f s) a) b) (f (f (q.foldl f s) b) a)) :
    R (l.foldl f (f s a)) (f (l.foldl f s) a) := by
  induction l generalizing s with
  | nil => exact hR.refl _
  | cons b l ih =>
    have hrest : ∀ c ∈ l, P c := fun c hc ↦ hl c (List.mem_cons_of_mem _ hc)
    exact hR.trans (foldl_congr hcongr hrest (hcomm [] b l rfl))
      (ih hrest fun q c r h ↦ hcomm (b :: q) c r (congrArg (List.cons b) h))

/-- Two sequences may change places if every action of the one commutes with every action of the
other. -/
theorem foldl_swap (hR : Equivalence R)
    (hcongr : ∀ {a s s'}, P a → R s s' → R (f s a) (f s' a)) (hl : ∀ a ∈ l, P a)
    (hl' : ∀ b ∈ l', P b)
    (hcomm : ∀ a ∈ l, ∀ b ∈ l', ∀ s, R (f (f s a) b) (f (f s b) a)) (s : σ) :
    R (l'.foldl f (l.foldl f s)) (l.foldl f (l'.foldl f s)) := by
  induction l generalizing s with
  | nil => exact hR.refl _
  | cons a l ih =>
    have hrest : ∀ c ∈ l, P c := fun c hc ↦ hl c (List.mem_cons_of_mem _ hc)
    have hput := foldl_put_off hR hcongr hl' (s := s) fun q b r hq ↦
      hcomm a List.mem_cons_self b (by simp [hq]) (q.foldl f s)
    exact hR.trans (ih hrest (fun c hc ↦ hcomm c (List.mem_cons_of_mem _ hc)) _)
      (foldl_congr hcongr hrest hput)

/-- **Alike sequences come to the same**, if actions of different actors commute wherever some alike
sequence may go on with either of them. -/
theorem Alike.foldl (hR : Equivalence R)
    (hcongr : ∀ {a s s'}, P a → R s s' → R (f s a) (f s' a)) {s : σ}
    (hcomm : ∀ {m a b u v}, Alike who l (m ++ a :: u) → Alike who l (m ++ b :: v) →
      who a ≠ who b → R (f (f (m.foldl f s) a) b) (f (f (m.foldl f s) b) a))
    (hl : ∀ a ∈ l, P a) (h : Alike who l l') : R (l.foldl f s) (l'.foldl f s) := by
  induction l generalizing l' s with
  | nil =>
    rw [h.nil]
    exact hR.refl _
  | cons a l ih =>
    obtain ⟨p, q, rfl, hne, hrest⟩ := h.split
    have hpq : ∀ b, b ∈ p ++ a :: q → P b := fun b hb ↦ hl b (h.mem_iff.mpr hb)
    have hp : ∀ b ∈ p, P b := fun b hb ↦ hpq b (List.mem_append_left _ hb)
    have hq : ∀ b ∈ q, P b := fun b hb ↦ hpq b (by simp [hb])
    have hfirst : R (l.foldl f (f s a)) ((p ++ q).foldl f (f s a)) :=
      ih (fun hm hm' ↦ hcomm (m := a :: _) (hm.cons a) (hm'.cons a))
        (fun b hb ↦ hl b (List.mem_cons_of_mem _ hb)) hrest
    -- The actions before `a` in the other sequence are of others, and `a` might come before each.
    have hput : R (p.foldl f (f s a)) (f (p.foldl f s) a) := by
      refine foldl_put_off hR hcongr hp ?_
      rintro m b r rfl
      have hm : ∀ c ∈ m, who c ≠ who a := fun c hc ↦ hne c (List.mem_append_left _ hc)
      refine hcomm (u := b :: r ++ q) (v := r ++ a :: q) ?_ ?_ (Ne.symm (hne b (by simp)))
      · have hmove := alike_move (q := b :: r ++ q) hm
        exact (hrest.cons a).trans (by simpa using hmove)
      · simpa using h
    have hlast := foldl_congr hcongr hq hput
    rw [List.foldl_append] at hfirst
    rw [List.foldl_append, List.foldl_cons]
    exact hR.trans hfirst hlast

end Commute

/-! ## What an actor sees -/

/-- **An actor sees what it would have seen alone**: `V` says that two states look the same to it,
which the actions of others do not change where they are made. -/
theorem foldl_share {f : σ → α → σ} {V : σ → σ → Prop} {s s' : σ}
    (hothers : ∀ {m a r}, l = m ++ a :: r → who a ≠ k →
      V (m.foldl f s) ((share who k m).foldl f s') →
      V (f (m.foldl f s) a) ((share who k m).foldl f s'))
    (hown : ∀ {m a r}, l = m ++ a :: r → who a = k →
      V (m.foldl f s) ((share who k m).foldl f s') →
      V (f (m.foldl f s) a) (f ((share who k m).foldl f s') a))
    (h : V s s') : V (l.foldl f s) ((share who k l).foldl f s') := by
  have hbegin (m r : List α) (hl : l = m ++ r) :
      V (m.foldl f s) ((share who k m).foldl f s') := by
    induction m using List.reverseRecOn generalizing r with
    | nil => exact h
    | append_singleton m a ih =>
      have hl : l = m ++ a :: r := by simpa using hl
      have hm := ih (a :: r) hl
      rw [List.foldl_append, share_append]
      by_cases hk : who a = k
      · rw [share_cons_of_eq hk, List.foldl_append]
        exact hown hl hk hm
      · rw [share_cons_of_ne hk]
        simpa [share] using hothers hl hk hm
  exact hbegin l [] (List.append_nil l).symm

end Shuffle
