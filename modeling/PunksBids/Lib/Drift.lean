import Mathlib.Algebra.BigOperators.Group.List.Basic
import PunksBids.Lib.Stretches

/-!
# The share of the outside

A program and the outside change one state, and an execution interleaves what they do.  Two rules
tell their shares apart.  A quantity that every call conserves changes over an execution by what the
outside adds to it, and by nothing else (`Script.exec_drifts`).  And what became true became true at
a stretch of the program or at an action of the outside (`Script.exec_cause`), where nothing is
known of either.
-/

set_option autoImplicit false

namespace OpenCalls

variable {ε κ σ ι δ G : Type} [AddCommGroup G] {prog : ι → Prog ε κ σ Unit} {deed : δ → σ → σ}

/-- What an action of the outside adds to `g`. -/
def drift (g : σ → G) : Entry ι δ σ → G
  | .other _ u v => g v - g u
  | _ => 0

/-- From `s` to `t`, the value of `f` has changed by what the outside has added to `g`. -/
def Drifts (f g : σ → G) (s : σ) (es : List (Entry ι δ σ)) (t : σ) : Prop :=
  f t = f s + (es.map (drift g)).sum

section Drifts

variable {f g : σ → G} {s t u v : σ} {es : List (Entry ι δ σ)} {i : ι} {d : δ}

theorem drifts_closed (f g : σ → G) :
    TraceClosed (Drifts f g : σ → List (Entry ι δ σ) → σ → Prop) where
  nil s := by simp [Drifts]
  append h h' := by
    rw [Drifts, h', h, List.map_append, List.sum_append, add_assoc]

theorem Drifts.own (h : f v = f u) : Drifts f g u ([.own i u v] : List (Entry ι δ σ)) v := by
  simp [Drifts, drift, h]

theorem Drifts.other (h : f v - f u = g v - g u) :
    Drifts f g u ([.other d u v] : List (Entry ι δ σ)) v := by
  simp [Drifts, drift, ← h]

theorem Drifts.call (h : Drifts f g s es t) :
    Drifts f g s (.entered i s :: (es ++ [.returned i s t])) t := by
  simpa [Drifts, drift] using h

/-- **What calls conserve only drifts**: if `f` is for the outside what `g` is, and a call drifts as
its callees do, then so does every execution. -/
theorem Script.exec_drifts (hdeed : ∀ d s, f (deed d s) - f s = g (deed d s) - g s)
    (hcall : ∀ i (callee : κ → σ → Option (σ × List (Entry ι δ σ))),
      (∀ k s t es, callee k s = some (t, es) → Drifts f g s es t) →
      ∀ s t es, (prog i s).trace i callee s = some (t, es) → Drifts f g s es t)
    (x : Script ι κ δ) (h : x.exec prog deed s = some (t, es)) : Drifts f g s es t :=
  Script.exec_induct (drifts_closed f g) (fun d s ↦ .other (hdeed d s))
    (fun i callee hk s t es ht ↦ (hcall i callee hk s t es ht).call) x h

end Drifts

/-- **What became true became true somewhere.** -/
theorem Script.exec_cause {A : σ → Prop} (x : Script ι κ δ) {s t : σ} {es : List (Entry ι δ σ)}
    (h : x.exec prog deed s = some (t, es)) (hs : ¬ A s) (ht : A t) :
    (∃ i u v, .own i u v ∈ es ∧ ¬ A u ∧ A v) ∨ ∃ d u v, .other d u v ∈ es ∧ ¬ A u ∧ A v := by
  have hclosed : TraceClosed fun (s : σ) (es : List (Entry ι δ σ)) (t : σ) ↦
      ¬ A s → A t → ∃ e ∈ es, ¬ A e.before ∧ A e.now := by
    refine ⟨fun s hs ht ↦ absurd ht hs, fun {s t u es es'} h h' hs hu ↦ ?_⟩
    by_cases ht : A t
    · obtain ⟨e, hm, he⟩ := h hs ht
      exact ⟨e, List.mem_append_left _ hm, he⟩
    · obtain ⟨e, hm, he⟩ := h' ht hu
      exact ⟨e, List.mem_append_right _ hm, he⟩
  obtain ⟨e, hm, hbefore, hnow⟩ : ∃ e ∈ es, ¬ A e.before ∧ A e.now := by
    refine Script.exec_stretches hclosed (fun d s hs ht ↦ ⟨_, List.mem_singleton_self _, hs, ht⟩)
      (fun i s ↦ Run.stretches_of_forall (fun u v hu hv ↦ ?_) _ _) (fun i s t es hes hs ht ↦ ?_)
      x h hs ht
    · exact ⟨_, List.mem_singleton_self _, hu, hv⟩
    · obtain ⟨e, hm, he⟩ := hes hs ht
      exact ⟨e, by simp [hm], he⟩
  cases e with
  | own i u v => exact .inl ⟨i, u, v, hm, hbefore, hnow⟩
  | other d u v => exact .inr ⟨d, u, v, hm, hbefore, hnow⟩
  | entered => exact absurd hnow hbefore
  | returned => exact absurd hnow hbefore

end OpenCalls
