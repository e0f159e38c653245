import PunksBids.Lib.Checked

/-!
# Programs that call out, and callees that call back

A contract does not run alone: in the middle of a function it may hand control to code it knows
nothing about, and that code may call any function of the contract again before it returns.  This
file is the vocabulary for that, for an arbitrary state, arbitrary entry points and arbitrary
external calls.

* `Run` is what is left of an execution: a result, a revert, or an external call together with
  the state it is made in and the rest of the program, waiting for the state the callee leaves
  (or for the news that the callee reverted).  `Prog` is the state monad over it, in which
  programs are written with `do`.
* `Script` is what the outside does: actions of its own, calls into the program by any caller,
  inner frames that may be rolled back.  Each call carries a script for every external call it
  may make, so a script is a whole tree of nested calls of any depth.  Scripts are finite data
  and are quantified over; nothing is assumed of them.
* `Script.exec` runs one.  A frame that fails leaves neither its state nor its entries behind;
  what does persist is listed as `Entry`s, in order.

The rule to use is `Script.exec_induct`.  A relation between a state, the entries of a stretch of
execution and the state after it, closed under concatenation, holds of every execution as soon as
it holds of the outside's own actions and of each entry point *given* that it holds of whatever
that entry point calls.  `Script.exec_invariant` is the special case of an invariant together
with a property of every entry.

`Run.resolve` answers some of the external calls of a program by a fixed function, for callees
whose behaviour is known.  `Script.exec_refine` is the rule for comparing two systems: if each call
of the one can be imitated by a call of the other, with other callees, then so can every execution,
and the same calls begin and return in it.
-/

set_option autoImplicit false

namespace OpenCalls

variable {ε κ σ α β γ ι δ : Type}

/-! ## Programs -/

/-- What is left of an execution that may revert with an `ε`, makes external calls named by `κ`,
works on states `σ` and returns an `α`. -/
inductive Run (ε κ σ α : Type) where
  /-- The program returned `a` in state `s`. -/
  | ret (a : α) (s : σ)
  /-- The program reverted. -/
  | revert (e : ε)
  /-- The program calls `k` in state `s`, and goes on from the state the call leaves behind, or
  from `none` if the call reverted. -/
  | ext (k : κ) (s : σ) (resume : Option σ → Run ε κ σ α)

/-- Sequential composition. -/
def Run.bind : Run ε κ σ α → (α → σ → Run ε κ σ β) → Run ε κ σ β
  | .ret a s, f => f a s
  | .revert e, _ => .revert e
  | .ext k s resume, f => .ext k s fun r ↦ (resume r).bind f

theorem Run.bind_ret (r : Run ε κ σ α) : r.bind .ret = r := by
  induction r with
  | ret a s => rfl
  | revert e => rfl
  | ext k s resume ih => exact congrArg (Run.ext k s) (funext ih)

theorem Run.bind_assoc (r : Run ε κ σ α) (f : α → σ → Run ε κ σ β) (g : β → σ → Run ε κ σ γ) :
    (r.bind f).bind g = r.bind fun a s ↦ (f a s).bind g := by
  induction r with
  | ret a s => rfl
  | revert e => rfl
  | ext k s resume ih => exact congrArg (Run.ext k s) (funext ih)

/-- A program: what it does from each state. -/
def Prog (ε κ σ α : Type) := σ → Run ε κ σ α

namespace Prog

instance : Monad (Prog ε κ σ) where
  pure a := fun s ↦ .ret a s
  bind x f := fun s ↦ (x s).bind f

/-- Stop and roll back. -/
def revert (e : ε) : Prog ε κ σ α := fun _ ↦ .revert e

/-- Read the state. -/
def get : Prog ε κ σ σ := fun s ↦ .ret s s

/-- Change the state. -/
def modify (f : σ → σ) : Prog ε κ σ Unit := fun s ↦ .ret () (f s)

/-- A computation that only reads its arguments. -/
def lift : Except ε α → Prog ε κ σ α
  | .ok a => fun s ↦ .ret a s
  | .error e => fun _ ↦ .revert e

/-- Make the external call `k`; `false` says it reverted and changed nothing. -/
def call (k : κ) : Prog ε κ σ Bool := fun s ↦ .ext k s fun
  | some s' => .ret true s'
  | none => .ret false s

instance : LawfulMonad (Prog ε κ σ) :=
  LawfulMonad.mk' _
    (fun x ↦ funext fun s ↦ Run.bind_ret (x s))
    (fun _ _ ↦ rfl)
    (fun x f g ↦ funext fun s ↦ Run.bind_assoc (x s) f g)

/-! Running a program from a state, step by step. -/

variable (s : σ) (g : α → Prog ε κ σ β)

@[simp] theorem revert_bind (e : ε) : (revert e >>= g) s = .revert e := rfl

@[simp] theorem get_bind (g : σ → Prog ε κ σ β) : (get >>= g) s = g s s := rfl

@[simp] theorem modify_bind (f : σ → σ) (g : Unit → Prog ε κ σ β) :
    (modify f >>= g) s = g () (f s) := rfl

@[simp] theorem lift_ok_bind (a : α) : (lift (.ok a) >>= g) s = g a s := rfl

@[simp] theorem lift_error_bind (e : ε) : (lift (.error e) >>= g) s = .revert e := rfl

/-- What follows a call matters only in the worlds it leaves. -/
theorem call_bind_congr {k : κ} {f g : Bool → Prog ε κ σ β}
    (htrue : ∀ s', f true s' = g true s') (hfalse : f false s = g false s) :
    (call k >>= f) s = (call k >>= g) s :=
  congrArg (Run.ext k s) (funext fun r ↦ match r with
    | some s' => htrue s'
    | none => hfalse)

end Prog

/-! ## Callees whose behaviour is known -/

/-- Answer the external calls that `f` knows by what `f` says; leave the others open. -/
def Run.resolve (f : κ → Option (σ → Option σ)) : Run ε κ σ α → Run ε κ σ α
  | .ret a s => .ret a s
  | .revert e => .revert e
  | .ext k s resume =>
    match f k with
    | some g => (resume (g s)).resolve f
    | none => .ext k s fun r ↦ (resume r).resolve f

/-- `Run.resolve` on programs. -/
def Prog.resolve (f : κ → Option (σ → Option σ)) (x : Prog ε κ σ α) : Prog ε κ σ α :=
  fun s ↦ (x s).resolve f

variable {f : κ → Option (σ → Option σ)}

/-- A call that is answered goes on from the answer. -/
theorem Run.resolve_call_some {k : κ} {g : σ → Option σ} (h : f k = some g)
    {F : Bool → Prog ε κ σ β} {s s' : σ} (hg : g s = some s') :
    ((Prog.call k >>= F) s).resolve f = (F true s').resolve f := by
  change (Run.ext k s _).resolve f = _
  rw [Run.resolve, h]
  change (Run.resolve f (Run.bind _ F)) = _
  rw [hg]
  rfl

/-- A call whose answer is that it reverts. -/
theorem Run.resolve_call_none {k : κ} {g : σ → Option σ} (h : f k = some g)
    {F : Bool → Prog ε κ σ β} {s : σ} (hg : g s = none) :
    ((Prog.call k >>= F) s).resolve f = (F false s).resolve f := by
  change (Run.ext k s _).resolve f = _
  rw [Run.resolve, h]
  change (Run.resolve f (Run.bind _ F)) = _
  rw [hg]
  rfl

/-- A call that is left open. -/
theorem Run.resolve_call_open {k : κ} (h : f k = none) {F : Bool → Prog ε κ σ β} {s : σ} :
    ((Prog.call k >>= F) s).resolve f = (Prog.call k >>= fun ok ↦ (F ok).resolve f) s := by
  change (Run.ext k s _).resolve f = Run.ext k s _
  rw [Run.resolve, h]
  refine congrArg (Run.ext k s) (funext fun r ↦ ?_)
  cases r <;> rfl

/-! ## Traces and scripts -/

/-- What an execution leaves behind, with the states it went from and to. -/
inductive Entry (ι δ σ : Type) where
  /-- The call `i` began. -/
  | entered (i : ι) (pre : σ)
  /-- A stretch of the call `i`'s own code, up to its end or to its next external call. -/
  | own (i : ι) (pre post : σ)
  /-- The call `i` returned; `pre` is the state it began in. -/
  | returned (i : ι) (pre post : σ)
  /-- The outside's own action `d`. -/
  | other (d : δ) (pre post : σ)

/-- What the outside does. -/
inductive Script (ι κ δ : Type) where
  /-- Nothing more: the current frame returns. -/
  | done
  /-- The current frame reverts. -/
  | fail
  /-- An action of its own. -/
  | act (d : δ) (next : Script ι κ δ)
  /-- The call `i`, whose external calls are answered by `callees`.  A call that reverts changes
  nothing, and the caller goes on. -/
  | call (i : ι) (callees : κ → Script ι κ δ) (next : Script ι κ δ)
  /-- A frame of some other code, kept if it returns and rolled back if it reverts. -/
  | frame (body next : Script ι κ δ)

/-- Run the program of the call `i`, the current stretch of which began in the state given first.
An external call is answered by `callee`, which returns the state it leaves and its entries. -/
def Run.trace (i : ι) (callee : κ → σ → Option (σ × List (Entry ι δ σ))) :
    σ → Run ε κ σ α → Option (σ × List (Entry ι δ σ))
  | p, .ret _ s => some (s, [.own i p s])
  | _, .revert _ => none
  | p, .ext k s resume =>
    match callee k s with
    | some (s', es) =>
      (Run.trace i callee s' (resume (some s'))).map fun r ↦ (r.1, .own i p s :: (es ++ r.2))
    | none => (Run.trace i callee s (resume none)).map fun r ↦ (r.1, .own i p s :: r.2)

variable (prog : ι → Prog ε κ σ Unit) (deed : δ → σ → σ)

/-- Run a script: the state it ends in and the entries that persist, or `none` if it reverts. -/
def Script.exec : Script ι κ δ → σ → Option (σ × List (Entry ι δ σ))
  | .done, s => some (s, [])
  | .fail, _ => none
  | .act d next, s =>
    (next.exec (deed d s)).map fun r ↦ (r.1, .other d s (deed d s) :: r.2)
  | .call i callees next, s =>
    match Run.trace i (fun k ↦ (callees k).exec) s (prog i s) with
    | some (s', es) =>
      (next.exec s').map fun r ↦ (r.1, .entered i s :: (es ++ .returned i s s' :: r.2))
    | none => next.exec s
  | .frame body next, s =>
    match body.exec s with
    | some (s', es) => (next.exec s').map fun r ↦ (r.1, es ++ r.2)
    | none => next.exec s

/-! ## The rules -/

/-- A relation between a state, the entries of a stretch of execution and the state after it,
that may be established piece by piece. -/
structure TraceClosed (R : σ → List (Entry ι δ σ) → σ → Prop) : Prop where
  /-- It holds of doing nothing. -/
  nil : ∀ s, R s [] s
  /-- It holds of two stretches in a row if it holds of each. -/
  append : ∀ {s t u es es'}, R s es t → R t es' u → R s (es ++ es') u

variable {prog deed}

/-- One call and nothing else. -/
theorem Script.exec_call_done {i : ι} {callees : κ → Script ι κ δ} {s t : σ}
    {es : List (Entry ι δ σ)}
    (h : (prog i s).trace i (fun k ↦ (callees k).exec prog deed) s = some (t, es)) :
    (Script.call i callees .done).exec prog deed s =
      some (t, .entered i s :: (es ++ [.returned i s t])) := by
  rw [Script.exec, h]
  rfl

/-- **The rule for executions**: a closed relation holds of every execution if it holds of the
outside's actions and, given that it holds of its callees, of every call. -/
theorem Script.exec_induct {R : σ → List (Entry ι δ σ) → σ → Prop} (hR : TraceClosed R)
    (hdeed : ∀ d s, R s [.other d s (deed d s)] (deed d s))
    (hcall : ∀ i (callee : κ → σ → Option (σ × List (Entry ι δ σ))),
      (∀ k s t es, callee k s = some (t, es) → R s es t) →
      ∀ s t es, (prog i s).trace i callee s = some (t, es) →
        R s (.entered i s :: (es ++ [.returned i s t])) t)
    (x : Script ι κ δ) {s t : σ} {es : List (Entry ι δ σ)}
    (h : x.exec prog deed s = some (t, es)) : R s es t := by
  induction x generalizing s t es with
  | done =>
    simp only [Script.exec, Option.some_inj, Prod.mk.injEq] at h
    obtain ⟨rfl, rfl⟩ := h
    exact hR.nil s
  | fail => simp [Script.exec] at h
  | act d next ih =>
    simp only [Script.exec, Option.map_eq_some_iff, Prod.mk.injEq] at h
    obtain ⟨⟨t', es'⟩, hx, rfl, rfl⟩ := h
    exact hR.append (hdeed d s) (ih hx)
  | call i callees next ihc ih =>
    rw [Script.exec] at h
    split at h
    · next s' es' ht =>
      simp only [Option.map_eq_some_iff, Prod.mk.injEq] at h
      obtain ⟨⟨t', es''⟩, hx, rfl, rfl⟩ := h
      have hc := hcall i _ (fun k _ _ _ hk ↦ ihc k hk) s s' es' ht
      simpa using hR.append hc (ih hx)
    · exact ih h
  | frame body next ihb ih =>
    rw [Script.exec] at h
    split at h
    · next s' es' hb =>
      simp only [Option.map_eq_some_iff, Prod.mk.injEq] at h
      obtain ⟨⟨t', es''⟩, hx, rfl, rfl⟩ := h
      exact hR.append (ihb hb) (ih hx)
    · exact ih h

/-- The relation behind `Script.exec_invariant`. -/
def Keeps (I : σ → Prop) (Q : Entry ι δ σ → Prop) (s : σ) (es : List (Entry ι δ σ)) (t : σ) :
    Prop :=
  I s → I t ∧ ∀ e ∈ es, Q e

theorem keeps_closed (I : σ → Prop) (Q : Entry ι δ σ → Prop) : TraceClosed (Keeps I Q) where
  nil _ hs := ⟨hs, by simp⟩
  append h h' hs := by
    obtain ⟨ht, hes⟩ := h hs
    obtain ⟨hu, hes'⟩ := h' ht
    refine ⟨hu, fun e he ↦ ?_⟩
    rcases List.mem_append.mp he with he | he
    · exact hes e he
    · exact hes' e he

/-- **Invariants of executions**: an invariant of the state and a property of every entry. -/
theorem Script.exec_invariant {I : σ → Prop} {Q : Entry ι δ σ → Prop}
    (hdeed : ∀ d s, I s → I (deed d s) ∧ Q (.other d s (deed d s)))
    (hcall : ∀ i (callee : κ → σ → Option (σ × List (Entry ι δ σ))),
      (∀ k s t es, callee k s = some (t, es) → Keeps I Q s es t) →
      ∀ s t es, (prog i s).trace i callee s = some (t, es) → I s →
        I t ∧ (∀ e ∈ es, Q e) ∧ Q (.entered i s) ∧ Q (.returned i s t))
    (x : Script ι κ δ) {s t : σ} {es : List (Entry ι δ σ)}
    (h : x.exec prog deed s = some (t, es)) (hs : I s) : I t ∧ ∀ e ∈ es, Q e := by
  refine Script.exec_induct (R := Keeps I Q) (keeps_closed I Q) (fun d s hs ↦ ?_) ?_ x h hs
  · simpa using hdeed d s hs
  · intro i callee hk s t es ht hs
    obtain ⟨hI, hQ, hin, hout⟩ := hcall i callee hk s t es ht hs
    refine ⟨hI, fun e he ↦ ?_⟩
    simp only [List.mem_cons, List.mem_append, List.not_mem_nil, or_false] at he
    rcases he with rfl | he | rfl
    · exact hin
    · exact hQ e he
    · exact hout

/-! ## Refinement -/

/-- The entry is about a call as a whole. -/
def Entry.isCall : Entry ι δ σ → Bool
  | .entered _ _ | .returned _ _ _ => true
  | .own _ _ _ | .other _ _ _ => false

/-- The calls that began and returned. -/
def calls (es : List (Entry ι δ σ)) : List (Entry ι δ σ) := es.filter Entry.isCall

@[simp] theorem calls_nil : calls ([] : List (Entry ι δ σ)) = [] := rfl

@[simp] theorem calls_append (es es' : List (Entry ι δ σ)) :
    calls (es ++ es') = calls es ++ calls es' := List.filter_append es es'

@[simp] theorem calls_entered (i : ι) (p : σ) (es : List (Entry ι δ σ)) :
    calls (.entered i p :: es) = .entered i p :: calls es := rfl

@[simp] theorem calls_own (i : ι) (p q : σ) (es : List (Entry ι δ σ)) :
    calls (.own i p q :: es) = calls es := rfl

@[simp] theorem calls_returned (i : ι) (p q : σ) (es : List (Entry ι δ σ)) :
    calls (.returned i p q :: es) = .returned i p q :: calls es := rfl

@[simp] theorem calls_other (d : δ) (p q : σ) (es : List (Entry ι δ σ)) :
    calls (.other d p q :: es) = calls es := rfl

/-- Traces with the same calls agree on where calls begin and return. -/
theorem mem_iff_of_calls_eq {es es' : List (Entry ι δ σ)} (h : calls es = calls es')
    {e : Entry ι δ σ} (he : e.isCall = true) : e ∈ es ↔ e ∈ es' := by
  have hmem (l : List (Entry ι δ σ)) : e ∈ l ↔ e ∈ calls l := by simp [calls, he]
  rw [hmem es, h, ← hmem es']

/-- Some script takes `s` to `t`, and the calls in it are those in `es`. -/
def Imitated (prog : ι → Prog ε κ σ Unit) (deed : δ → σ → σ) (s : σ) (es : List (Entry ι δ σ))
    (t : σ) : Prop :=
  ∃ y : Script ι κ δ, ∃ es', y.exec prog deed s = some (t, es') ∧ calls es' = calls es

/-- **The rule for refinement**: every execution can be imitated if every call can, given that
whatever it calls can be. -/
theorem Script.exec_refine {prog' : ι → Prog ε κ σ Unit}
    (hcall : ∀ i (callee : κ → σ → Option (σ × List (Entry ι δ σ))),
      (∀ k s t es, callee k s = some (t, es) → Imitated prog' deed s es t) →
      ∀ s t es, (prog i s).trace i callee s = some (t, es) →
        ∃ (callees : κ → Script ι κ δ) (es' : List (Entry ι δ σ)),
          (prog' i s).trace i (fun k ↦ (callees k).exec prog' deed) s = some (t, es') ∧
            calls es' = calls es)
    (x : Script ι κ δ) {s t : σ} {es : List (Entry ι δ σ)}
    (h : x.exec prog deed s = some (t, es)) : Imitated prog' deed s es t := by
  induction x generalizing s t es with
  | done => exact ⟨.done, es, h, rfl⟩
  | fail => simp [Script.exec] at h
  | act d next ih =>
    simp only [Script.exec, Option.map_eq_some_iff, Prod.mk.injEq] at h
    obtain ⟨⟨t', es'⟩, hx, rfl, rfl⟩ := h
    obtain ⟨y, es₁, hy, hcalls⟩ := ih hx
    exact ⟨.act d y, .other d s (deed d s) :: es₁, by rw [Script.exec, hy]; rfl, by simp [hcalls]⟩
  | call i callees next ihc ih =>
    rw [Script.exec] at h
    split at h
    · next s' es' ht =>
      simp only [Option.map_eq_some_iff, Prod.mk.injEq] at h
      obtain ⟨⟨t', es''⟩, hx, rfl, rfl⟩ := h
      obtain ⟨callees', es₁, ht', hcalls⟩ := hcall i _ (fun k _ _ _ hk ↦ ihc k hk) s s' es' ht
      obtain ⟨y, es₂, hy, hcalls'⟩ := ih hx
      refine ⟨.call i callees' y, .entered i s :: (es₁ ++ .returned i s s' :: es₂), ?_, ?_⟩
      · rw [Script.exec, ht']
        simp [hy]
      · simp [hcalls, hcalls']
    · exact ih h
  | frame body next ihb ih =>
    rw [Script.exec] at h
    split at h
    · next s' es' hb =>
      simp only [Option.map_eq_some_iff, Prod.mk.injEq] at h
      obtain ⟨⟨t', es''⟩, hx, rfl, rfl⟩ := h
      obtain ⟨y, es₁, hy, hcalls⟩ := ihb hb
      obtain ⟨y', es₂, hy', hcalls'⟩ := ih hx
      refine ⟨.frame y y', es₁ ++ es₂, ?_, ?_⟩
      · rw [Script.exec, hy]
        simp [hy']
      · simp [hcalls, hcalls']
    · exact ih h

end OpenCalls
