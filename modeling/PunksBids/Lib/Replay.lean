import Mathlib.Data.List.Basic

/-!
# A state and the log of its changes

A system that logs what it does can be followed from outside: whoever starts from the state at some
point and applies the events logged since, one after the other, should have the state of now.
`Recorded` says so of two points of an execution.

An effect that is logged at once is recorded at once (`Recorded.event`).  One that is logged only
later is not recorded in between, and other effects may come first in the log although they came
second; that does no harm if the order makes no difference (`Floats`), and then it is recorded as
soon as it is logged (`Recorded.ahead`).
-/

set_option autoImplicit false

namespace Replay

variable {σ ε W : Type}

section

variable (apply : σ → ε → σ) (state : W → σ) (log : W → List ε)

/-- From `s` to `t`, the state has changed as the events logged meanwhile say. -/
def Recorded (s t : W) : Prop :=
  ∃ es, log t = log s ++ es ∧ state t = es.foldl apply (state s)

/-- The effect of `e` may come before or after that of any other event. -/
def Floats (e : ε) : Prop := ∀ s e', apply (apply s e') e = apply (apply s e) e'

end

variable {apply : σ → ε → σ} {state : W → σ} {log : W → List ε} {s t u : W} {e : ε}

theorem Recorded.of_eq (hstate : state t = state s) (hlog : log t = log s) :
    Recorded apply state log s t :=
  ⟨[], by simp [hlog], hstate⟩

theorem Recorded.trans (h : Recorded apply state log s t) (h' : Recorded apply state log t u) :
    Recorded apply state log s u := by
  obtain ⟨es, hlog, hstate⟩ := h
  obtain ⟨es', hlog', hstate'⟩ := h'
  refine ⟨es ++ es', ?_, ?_⟩
  · rw [hlog', hlog, List.append_assoc]
  · rw [hstate', hstate, List.foldl_append]

/-- An effect that is logged at once. -/
theorem Recorded.event (hstate : state t = apply (state s) e) (hlog : log t = log s ++ [e]) :
    Recorded apply state log s t :=
  ⟨[e], hlog, hstate⟩

/-- An effect that floats may as well come last. -/
theorem Floats.foldl (he : Floats apply e) (s : σ) (es : List ε) :
    es.foldl apply (apply s e) = apply (es.foldl apply s) e :=
  List.foldl_hom (apply · e) fun s e' ↦ (he s e').symm

/-- **An effect that comes ahead of its event**: whatever is recorded in between, the event makes
up for it. -/
theorem Recorded.ahead {s' t' : W} (h : Recorded apply state log s' t) (he : Floats apply e)
    (hstate : state s' = apply (state s) e) (hlog : log s' = log s) (hstate' : state t' = state t)
    (hlog' : log t' = log t ++ [e]) : Recorded apply state log s t' := by
  obtain ⟨es, hes, ht⟩ := h
  refine ⟨es ++ [e], ?_, ?_⟩
  · rw [hlog', hes, hlog, List.append_assoc]
  · rw [hstate', ht, hstate, he.foldl, List.foldl_append]
    rfl

end Replay
