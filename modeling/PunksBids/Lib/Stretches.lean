import PunksBids.Lib.OpenCalls

/-!
# Reasoning about executions stretch by stretch

`Script.exec_induct` asks for the whole of a call at once.  Most properties need less: they are
about what a program's own code can do between two points where it hands over control, and hold of
an execution because they hold of every such stretch.  `Run.Stretches O` says that every stretch of
a program, whatever its callees do in between, is an `O`.

From it follow, for every script:

* `Script.exec_own`: every stretch that is left in the trace is an `O`;
* `Script.exec_along`: a preorder that no stretch and no outside action leaves is kept from any
  point of the trace to any later one;
* `Script.exec_traced`: a value that the outside leaves alone is the first one or was set by an
  earlier stretch;
* `Script.exec_culprit`: what became true and is not made true by the outside was made true by
  some stretch, of a call that began and returned (`Script.exec_called`);
* `Script.exec_returned`: an invariant of every stretch holds where any call began.

The lemmas on `Prog.call` step through a program, for `Run.Stretches` and for `Run.trace` alike.
-/

set_option autoImplicit false

namespace OpenCalls

variable {ε κ σ α β ι δ : Type}

/-! ## Stepping through a program -/

/-- Every stretch of own code, the first of which begins in the given state, is an `O`. -/
def Run.Stretches (O : σ → σ → Prop) : σ → Run ε κ σ α → Prop
  | p, .ret _ s => O p s
  | _, .revert _ => True
  | p, .ext _ s resume =>
    O p s ∧ (∀ s', Run.Stretches O s' (resume (some s'))) ∧ Run.Stretches O s (resume none)

theorem Run.Stretches.mono {O O' : σ → σ → Prop} (hO : ∀ u v, O u v → O' u v)
    {r : Run ε κ σ α} {p : σ} (h : r.Stretches O p) : r.Stretches O' p := by
  induction r generalizing p with
  | ret a s => exact hO p s h
  | revert e => trivial
  | ext k s resume ih =>
    obtain ⟨hown, hsome, hnone⟩ := h
    exact ⟨hO p s hown, fun s' ↦ ih _ (hsome s'), ih _ hnone⟩

theorem Run.stretches_of_forall {O : σ → σ → Prop} (hO : ∀ u v, O u v) (r : Run ε κ σ α) (p : σ) :
    r.Stretches O p := by
  induction r generalizing p with
  | ret a s => exact hO p s
  | revert e => trivial
  | ext k s resume ih => exact ⟨hO p s, fun s' ↦ ih _ s', ih _ s⟩

section Steps

variable {O : σ → σ → Prop} {p s : σ} {i : ι}
  {callee : κ → σ → Option (σ × List (Entry ι δ σ))}

@[simp] theorem stretches_ret (a : α) : (Run.ret a s : Run ε κ σ α).Stretches O p ↔ O p s :=
  Iff.rfl

@[simp] theorem stretches_revert (e : ε) : (Run.revert e : Run ε κ σ α).Stretches O p ↔ True :=
  Iff.rfl

theorem stretches_call {k : κ} {f : Bool → Prog ε κ σ β} :
    ((Prog.call k >>= f) s).Stretches O p ↔
      O p s ∧ (∀ s', (f true s').Stretches O s') ∧ (f false s).Stretches O s :=
  Iff.rfl

@[simp] theorem trace_ret (a : α) :
    (Run.ret a s : Run ε κ σ α).trace i callee p = some (s, [.own i p s]) := rfl

@[simp] theorem trace_revert (e : ε) :
    (Run.revert e : Run ε κ σ α).trace i callee p = none := rfl

/-- An external call after which the program goes on only if the call returned. -/
theorem trace_call {k : κ} {f : Bool → Prog ε κ σ β} {t : σ} {es : List (Entry ι δ σ)}
    (hf : ∀ s, (f false s).trace i callee s = none) :
    ((Prog.call k >>= f) s).trace i callee p = some (t, es) ↔
      ∃ s' es₁ es₂, callee k s = some (s', es₁) ∧
        (f true s').trace i callee s' = some (t, es₂) ∧ es = .own i p s :: (es₁ ++ es₂) := by
  change Run.trace i callee p (.ext k s _) = _ ↔ _
  rw [Run.trace]
  cases hk : callee k s with
  | none =>
    change Option.map _ ((f false s).trace i callee s) = _ ↔ _
    simp [hf]
  | some r =>
    obtain ⟨s', es₁⟩ := r
    change Option.map _ ((f true s').trace i callee s') = _ ↔ _
    simp only [Option.map_eq_some_iff, Prod.mk.injEq, Option.some_inj]
    constructor
    · rintro ⟨⟨t', es₂⟩, h, rfl, rfl⟩
      exact ⟨s', es₁, es₂, ⟨rfl, rfl⟩, h, rfl⟩
    · rintro ⟨s'', es₁', es₂, ⟨rfl, rfl⟩, h, rfl⟩
      exact ⟨⟨t, es₂⟩, h, rfl, rfl⟩

end Steps

/-! ## Traces of one call -/

section Trace

variable {i : ι} {callee : κ → σ → Option (σ × List (Entry ι δ σ))}

/-- A closed relation of the stretches and the callees of a call is one of the call. -/
theorem Run.trace_induct {R : σ → List (Entry ι δ σ) → σ → Prop} (hR : TraceClosed R)
    (hcallee : ∀ k s t es, callee k s = some (t, es) → R s es t)
    {r : Run ε κ σ α} {p t : σ} {es : List (Entry ι δ σ)}
    (hr : r.Stretches (fun u v ↦ R u [.own i u v] v) p) (h : r.trace i callee p = some (t, es)) :
    R p es t := by
  induction r generalizing p t es with
  | ret a s =>
    simp only [Run.trace, Option.some_inj, Prod.mk.injEq] at h
    obtain ⟨rfl, rfl⟩ := h
    exact hr
  | revert e => simp [Run.trace] at h
  | ext k s resume ih =>
    obtain ⟨hown, hsome, hnone⟩ := hr
    rw [Run.trace] at h
    split at h
    · next s' es' hk =>
      simp only [Option.map_eq_some_iff, Prod.mk.injEq] at h
      obtain ⟨⟨t', es''⟩, hx, rfl, rfl⟩ := h
      exact hR.append hown (hR.append (hcallee k s s' es' hk) (ih _ (hsome s') hx))
    · simp only [Option.map_eq_some_iff, Prod.mk.injEq] at h
      obtain ⟨⟨t', es''⟩, hx, rfl, rfl⟩ := h
      exact hR.append hown (ih _ hnone hx)

end Trace

/-! ## The rules -/

variable {prog : ι → Prog ε κ σ Unit} {deed : δ → σ → σ}

/-- **The rule for stretches**: a closed relation that holds of every stretch, of the outside's
actions and of the marks at the beginning and the end of a call holds of every execution. -/
theorem Script.exec_stretches {R : σ → List (Entry ι δ σ) → σ → Prop} (hR : TraceClosed R)
    (hdeed : ∀ d s, R s [.other d s (deed d s)] (deed d s))
    (hprog : ∀ i s, (prog i s).Stretches (fun u v ↦ R u [.own i u v] v) s)
    (hmark : ∀ i s t es, R s es t → R s (.entered i s :: (es ++ [.returned i s t])) t)
    (x : Script ι κ δ) {s t : σ} {es : List (Entry ι δ σ)}
    (h : x.exec prog deed s = some (t, es)) : R s es t :=
  Script.exec_induct hR hdeed
    (fun i _ hk s t es ht ↦ hmark i s t es (Run.trace_induct hR hk (hprog i s) ht)) x h

/-- A property of every entry is a closed relation. -/
theorem forall_mem_closed (Q : Entry ι δ σ → Prop) :
    TraceClosed fun (_ : σ) (es : List (Entry ι δ σ)) (_ : σ) ↦ ∀ e ∈ es, Q e where
  nil _ := by simp
  append h h' e he := (List.mem_append.mp he).elim (h e) (h' e)

/-- **Every stretch in a trace** is a stretch of the program it belongs to. -/
theorem Script.exec_own {O : ι → σ → σ → Prop} (hprog : ∀ i s, (prog i s).Stretches (O i) s)
    (x : Script ι κ δ) {s t : σ} {es : List (Entry ι δ σ)}
    (h : x.exec prog deed s = some (t, es)) {i : ι} {u v : σ} (hmem : .own i u v ∈ es) :
    O i u v := by
  have hall : ∀ e ∈ es, ∀ i u v, e = .own i u v → O i u v := by
    refine Script.exec_stretches (forall_mem_closed _) (by simp) (fun i s ↦ ?_)
      (fun j s t es hes e he ↦ ?_) x h
    · refine (hprog i s).mono fun u v huv e he j u' v' hj ↦ ?_
      obtain rfl := List.mem_singleton.mp he
      cases hj
      exact huv
    · rcases List.mem_cons.mp he with rfl | he
      · rintro _ _ _ ⟨⟩
      · rcases List.mem_append.mp he with he | he
        · exact hes e he
        · obtain rfl := List.mem_singleton.mp he
          rintro _ _ _ ⟨⟩
  exact hall _ hmem i u v rfl

/-! ### Calls that began and returned -/

/-- The call `i` began and returned. -/
def Called (i : ι) (es : List (Entry ι δ σ)) : Prop :=
  ∃ p q, .entered i p ∈ es ∧ .returned i p q ∈ es

theorem Called.mono {i : ι} {es es' : List (Entry ι δ σ)} (h : Called i es) (hsub : es ⊆ es') :
    Called i es' := by
  obtain ⟨p, q, hp, hq⟩ := h
  exact ⟨p, q, hsub hp, hsub hq⟩

theorem called_closed (C : ι → Prop) :
    TraceClosed fun (_ : σ) (es : List (Entry ι δ σ)) (_ : σ) ↦
      ∀ i u v, .own i u v ∈ es → C i ∨ Called i es where
  nil _ := by simp
  append h h' i u v hm := by
    rcases List.mem_append.mp hm with hm | hm
    · exact (h i u v hm).imp_right fun hc ↦ hc.mono (List.subset_append_left _ _)
    · exact (h' i u v hm).imp_right fun hc ↦ hc.mono (List.subset_append_right _ _)

/-- A stretch is in the trace only if the call it belongs to began and returned. -/
theorem Script.exec_called (x : Script ι κ δ) {s t : σ} {es : List (Entry ι δ σ)}
    (h : x.exec prog deed s = some (t, es)) {i : ι} {u v : σ} (hmem : .own i u v ∈ es) :
    Called i es := by
  have hall : ∀ i u v, .own i u v ∈ es → False ∨ Called i es := by
    refine Script.exec_induct (called_closed fun _ ↦ False) (by simp)
      (fun j callee hk s t es ht i u v hm ↦ .inr ?_) x h
    have hes : ∀ i u v, .own i u v ∈ es → i = j ∨ Called i es := by
      refine Run.trace_induct (i := j) (called_closed (· = j)) (fun k s t es hk' i u v hm ↦ ?_)
        (Run.stretches_of_forall (fun u v i u' v' hm ↦ ?_) _ _) ht
      · exact .inr ((hk k s t es hk' i u v hm).resolve_left id)
      · cases List.mem_singleton.mp hm
        exact .inl rfl
    have hm : .own i u v ∈ es := by simpa using hm
    rcases hes i u v hm with rfl | hc
    · exact ⟨s, t, by simp, by simp⟩
    · exact hc.mono fun e he ↦ by simp [he]
  exact (hall i u v hmem).resolve_left id

/-- Every call that returned began. -/
theorem Script.exec_entered (x : Script ι κ δ) {s t : σ} {es : List (Entry ι δ σ)}
    (h : x.exec prog deed s = some (t, es)) {i : ι} {p q : σ} (hmem : .returned i p q ∈ es) :
    .entered i p ∈ es := by
  have hclosed : TraceClosed fun (_ : σ) (es : List (Entry ι δ σ)) (_ : σ) ↦
      ∀ i p q, .returned i p q ∈ es → .entered i p ∈ es := by
    refine ⟨by simp, fun h h' i p q hm ↦ ?_⟩
    rcases List.mem_append.mp hm with hm | hm
    · exact List.mem_append_left _ (h i p q hm)
    · exact List.mem_append_right _ (h' i p q hm)
  refine Script.exec_stretches hclosed (by simp)
    (fun i s ↦ Run.stretches_of_forall (by simp) _ _) (fun j s t es hes i p q hm ↦ ?_)
    x h i p q hmem
  simp only [List.mem_cons, List.mem_append, List.not_mem_nil, or_false, reduceCtorEq,
    false_or] at hm
  rcases hm with hm | heq
  · exact List.mem_cons_of_mem _ (List.mem_append_left _ (hes i p q hm))
  · cases heq
    exact List.mem_cons_self

/-! ### Preorders -/

/-- Where an entry stands in the run. -/
def Entry.now : Entry ι δ σ → σ
  | .entered _ pre => pre
  | .own _ _ post => post
  | .returned _ _ post => post
  | .other _ _ post => post

/-- `P` holds from every point of a trace to every later one. -/
structure Along (P : σ → σ → Prop) (s : σ) (es : List (Entry ι δ σ)) (t : σ) : Prop where
  whole : P s t
  before : ∀ e ∈ es, P s e.now
  after : ∀ e ∈ es, P e.now t
  between : es.Pairwise fun e e' ↦ P e.now e'.now

variable {P : σ → σ → Prop}

theorem along_closed (hrefl : ∀ s, P s s) (htrans : ∀ {s t u}, P s t → P t u → P s u) :
    TraceClosed (Along P : σ → List (Entry ι δ σ) → σ → Prop) where
  nil s := ⟨hrefl s, by simp, by simp, .nil⟩
  append h h' := by
    refine ⟨htrans h.whole h'.whole, fun e he ↦ ?_, fun e he ↦ ?_, ?_⟩
    · rcases List.mem_append.mp he with he | he
      · exact h.before e he
      · exact htrans h.whole (h'.before e he)
    · rcases List.mem_append.mp he with he | he
      · exact htrans (h.after e he) h'.whole
      · exact h'.after e he
    · exact List.pairwise_append.mpr ⟨h.between, h'.between,
        fun e he e' he' ↦ htrans (h.after e he) (h'.before e' he')⟩

theorem along_singleton (hrefl : ∀ s, P s s) {s t : σ} (h : P s t) {e : Entry ι δ σ}
    (he : e.now = t) : Along P s [e] t := by
  subst he
  exact ⟨h, by simpa using h, by simpa using hrefl _, List.pairwise_singleton _ _⟩

/-- **What some calls do not lose is kept where only they are called.** -/
theorem Script.exec_along_of {C : ι → Prop} (hrefl : ∀ s, P s s)
    (htrans : ∀ {s t u}, P s t → P t u → P s u) (hdeed : ∀ d s, P s (deed d s))
    (hprog : ∀ i, C i → ∀ s, (prog i s).Stretches P s) (x : Script ι κ δ) {s t : σ}
    {es : List (Entry ι δ σ)} (h : x.exec prog deed s = some (t, es))
    (hC : ∀ i p, .entered i p ∈ es → C i) : Along P s es t := by
  have hclosed := along_closed (ι := ι) (δ := δ) hrefl htrans
  have hmark : ∀ (e : Entry ι δ σ), Along P e.now [e] e.now :=
    fun e ↦ along_singleton hrefl (hrefl e.now) rfl
  refine Script.exec_stretches
    (R := fun s es t ↦ (∀ i u v, .own i u v ∈ es → C i) → Along P s es t)
    ⟨fun s _ ↦ hclosed.nil s, fun h h' hC ↦ ?_⟩
    (fun d s _ ↦ along_singleton hrefl (hdeed d s) rfl) (fun i s ↦ ?_)
    (fun i s t es hes hC ↦ ?_) x h ?_
  · exact hclosed.append (h fun i u v hm ↦ hC i u v (List.mem_append_left _ hm))
      (h' fun i u v hm ↦ hC i u v (List.mem_append_right _ hm))
  · by_cases hi : C i
    · refine (hprog i hi s).mono fun u v huv _ ↦ ?_
      exact along_singleton hrefl huv rfl
    · exact Run.stretches_of_forall (fun u v hC ↦ absurd (hC i u v (by simp)) hi) _ _
  · have hes := hes fun j u v hm ↦ hC j u v (by simp [hm])
    exact hclosed.append (hmark (.entered i s)) (hclosed.append hes (hmark (.returned i s t)))
  · intro i u v hm
    obtain ⟨p, -, hin, -⟩ := Script.exec_called x h hm
    exact hC i p hin

/-- **What no stretch loses is kept**: a preorder that holds of every stretch and of the outside's
actions holds from every point of a trace to every later one. -/
theorem Script.exec_along (hrefl : ∀ s, P s s) (htrans : ∀ {s t u}, P s t → P t u → P s u)
    (hdeed : ∀ d s, P s (deed d s)) (hprog : ∀ i s, (prog i s).Stretches P s)
    (x : Script ι κ δ) {s t : σ} {es : List (Entry ι δ σ)}
    (h : x.exec prog deed s = some (t, es)) : Along P s es t :=
  Script.exec_along_of (C := fun _ ↦ True) hrefl htrans hdeed (fun i _ ↦ hprog i) x h
    fun _ _ _ ↦ trivial

/-! ### Where a value comes from -/

/-- The state just before an entry. -/
def Entry.before : Entry ι δ σ → σ
  | .entered _ pre => pre
  | .own _ pre _ => pre
  | .returned _ _ post => post
  | .other _ pre _ => pre

/-- The value `b` of `f` is the one in the state `s`, or a stretch in `es` has set it. -/
def Origin (f : σ → β) (s : σ) (es : List (Entry ι δ σ)) (b : β) : Prop :=
  b = f s ∨ ∃ i u v, .own i u v ∈ es ∧ f u ≠ f v ∧ f v = b

/-- Every value of `f` along a trace has its origin in what precedes. -/
structure Traced (f : σ → β) (s : σ) (es : List (Entry ι δ σ)) (t : σ) : Prop where
  whole : Origin f s es (f t)
  before : ∀ es₁ e es₂, es = es₁ ++ e :: es₂ → Origin f s es₁ (f e.before)

variable {f : σ → β}

theorem Origin.append_right {s : σ} {es : List (Entry ι δ σ)} {b : β} (h : Origin f s es b)
    (es' : List (Entry ι δ σ)) : Origin f s (es ++ es') b := by
  rcases h with h | ⟨i, u, v, hm, h⟩
  · exact .inl h
  · exact .inr ⟨i, u, v, List.mem_append_left _ hm, h⟩

theorem Origin.append {s t : σ} {es es' : List (Entry ι δ σ)} {b : β}
    (h : Origin f s es (f t)) (h' : Origin f t es' b) : Origin f s (es ++ es') b := by
  rcases h' with rfl | ⟨i, u, v, hm, h'⟩
  · exact h.append_right es'
  · exact .inr ⟨i, u, v, List.mem_append_right _ hm, h'⟩

theorem traced_closed (f : σ → β) :
    TraceClosed (Traced f : σ → List (Entry ι δ σ) → σ → Prop) where
  nil s := ⟨.inl rfl, by simp⟩
  append {s t u es es'} h h' := by
    refine ⟨h.whole.append h'.whole, fun es₁ e es₂ heq ↦ ?_⟩
    rcases List.append_eq_append_iff.mp heq with ⟨as, rfl, hes'⟩ | ⟨bs, hes, hes'⟩
    · exact h.whole.append (h'.before as e es₂ hes')
    · cases bs with
      | nil =>
        rw [List.append_nil] at hes
        subst hes
        simpa using h.whole.append (h'.before [] e es₂ hes'.symm)
      | cons b bs =>
        obtain ⟨rfl, -⟩ := List.cons.inj hes'
        exact h.before es₁ e bs hes

theorem traced_singleton {s t : σ} {e : Entry ι δ σ} (h : Origin f s [e] (f t))
    (he : e.before = s) : Traced f s [e] t := by
  subst he
  refine ⟨h, fun es₁ e' es₂ heq ↦ ?_⟩
  cases es₁ with
  | nil =>
    obtain ⟨rfl, -⟩ := List.cons.inj heq
    exact .inl rfl
  | cons e₁ es₁ => simp at heq

/-- **Every value comes from somewhere**: if the outside's actions leave `f` alone, then at any
point of a trace its value is the one of the beginning or was set by an earlier stretch. -/
theorem Script.exec_traced (hdeed : ∀ d s, f (deed d s) = f s) (x : Script ι κ δ) {s t : σ}
    {es : List (Entry ι δ σ)} (h : x.exec prog deed s = some (t, es)) : Traced f s es t := by
  have hclosed := traced_closed (ι := ι) (δ := δ) f
  refine Script.exec_stretches hclosed (fun d s ↦ traced_singleton (.inl (hdeed d s)) rfl)
    (fun i s ↦ Run.stretches_of_forall (fun u v ↦ ?_) _ _) (fun i s t es hes ↦ ?_) x h
  · refine traced_singleton ?_ rfl
    by_cases huv : f u = f v
    · exact .inl huv.symm
    · exact .inr ⟨i, u, v, by simp, huv, rfl⟩
  · have hmark : ∀ (e : Entry ι δ σ), e.now = e.before → Traced f e.before [e] e.now :=
      fun e he ↦ traced_singleton (.inl (congrArg f he)) rfl
    exact hclosed.append (hmark (.entered i s) rfl)
      (hclosed.append hes (hmark (.returned i s t) rfl))

/-! ### Blame -/

/-- **What became true was made true by someone**: if the outside's actions never make `A` true and
it became true, a stretch in the trace made it true. -/
theorem Script.exec_culprit {A : σ → Prop} (hdeed : ∀ d s, A (deed d s) → A s)
    (x : Script ι κ δ) {s t : σ} {es : List (Entry ι δ σ)}
    (h : x.exec prog deed s = some (t, es)) (hs : ¬ A s) (ht : A t) :
    ∃ i u v, .own i u v ∈ es ∧ ¬ A u ∧ A v := by
  classical
  refine Script.exec_stretches
    (R := fun s es t ↦ ¬ A s → A t → ∃ i u v, .own i u v ∈ es ∧ ¬ A u ∧ A v)
    ⟨fun s hs ht ↦ absurd ht hs, ?_⟩ (fun d s hs ht ↦ absurd (hdeed d s ht) hs)
    (fun i s ↦ Run.stretches_of_forall (fun u v hu hv ↦ ⟨i, u, v, by simp, hu, hv⟩) _ _)
    (fun i s t es hes hs ht ↦ ?_) x h hs ht
  · intro s t u es es' h h' hs hu
    by_cases ht : A t
    · obtain ⟨i, v, w, hm, hvw⟩ := h hs ht
      exact ⟨i, v, w, List.mem_append_left _ hm, hvw⟩
    · obtain ⟨i, v, w, hm, hvw⟩ := h' ht hu
      exact ⟨i, v, w, List.mem_append_right _ hm, hvw⟩
  · obtain ⟨i', v, w, hm, hvw⟩ := hes hs ht
    exact ⟨i', v, w, by simp [hm], hvw⟩

/-! ### Calls and the state they began in -/

/-- **What held where a call began**: an invariant of the stretches and the outside's actions holds
where any call in the trace began, and what is known of a call that returns is known of it. -/
theorem Script.exec_returned {I : σ → Prop} {T : ι → σ → σ → Prop}
    (hdeed : ∀ d s, I s → I (deed d s))
    (hprog : ∀ i s, (prog i s).Stretches (fun u v ↦ I u → I v) s)
    (hcall : ∀ i (callee : κ → σ → Option (σ × List (Entry ι δ σ))) s t es,
      (prog i s).trace i callee s = some (t, es) → T i s t)
    (x : Script ι κ δ) {s t : σ} {es : List (Entry ι δ σ)}
    (h : x.exec prog deed s = some (t, es)) (hs : I s) {i : ι} {p q : σ}
    (hmem : .returned i p q ∈ es) : I p ∧ T i p q := by
  have hall := (Script.exec_invariant (I := I)
    (Q := fun e ↦ ∀ i p q, e = .returned i p q → I p ∧ T i p q)
    (fun d s hs ↦ ⟨hdeed d s hs, by simp⟩) (fun i callee hk s t es ht hs ↦ ?_) x h hs).2
  · exact hall _ hmem i p q rfl
  · have hclosed := keeps_closed (ι := ι) (δ := δ) I
      (fun e ↦ ∀ i p q, e = .returned i p q → I p ∧ T i p q)
    obtain ⟨hI, hQ⟩ := Run.trace_induct hclosed hk ((hprog i s).mono fun u v huv hu ↦
      ⟨huv hu, by simp⟩) ht hs
    refine ⟨hI, hQ, by simp, ?_⟩
    rintro i' p q ⟨⟩
    exact ⟨hs, hcall i callee s t es ht⟩

/-- **What is known of a call that returns** is known of every call that returned. -/
theorem Script.exec_returned_call {T : ι → σ → σ → Prop}
    (hcall : ∀ i (callee : κ → σ → Option (σ × List (Entry ι δ σ))) s t es,
      (prog i s).trace i callee s = some (t, es) → T i s t)
    (x : Script ι κ δ) {s t : σ} {es : List (Entry ι δ σ)}
    (h : x.exec prog deed s = some (t, es)) {i : ι} {p q : σ}
    (hmem : .returned i p q ∈ es) : T i p q :=
  (Script.exec_returned (I := fun _ ↦ True) (fun _ _ h ↦ h)
    (fun _ _ ↦ Run.stretches_of_forall (fun _ _ h ↦ h) _ _) hcall x h trivial hmem).2

/-- A call that never hands over control is a single stretch, and it is in the trace only if the
call returned. -/
theorem Script.exec_returned_of_own {i : ι}
    (hi : ∀ s, (∃ t, prog i s = .ret () t) ∨ ∃ e, prog i s = .revert e) (x : Script ι κ δ) {s t : σ}
    {es : List (Entry ι δ σ)} (h : x.exec prog deed s = some (t, es)) {u v : σ}
    (hmem : .own i u v ∈ es) : .returned i u v ∈ es := by
  have hclosed : TraceClosed fun (_ : σ) (es : List (Entry ι δ σ)) (_ : σ) ↦
      ∀ u v, .own i u v ∈ es → .returned i u v ∈ es := by
    refine ⟨by simp, fun h h' u v hm ↦ ?_⟩
    rcases List.mem_append.mp hm with hm | hm
    · exact List.mem_append_left _ (h u v hm)
    · exact List.mem_append_right _ (h' u v hm)
  refine Script.exec_induct hclosed (by simp) (fun j callee hk s t es ht ↦ ?_) x h u v hmem
  by_cases hij : i = j
  · subst hij
    rcases hi s with ⟨t', hret⟩ | ⟨e, hrev⟩
    · rw [hret, trace_ret, Option.some_inj, Prod.mk.injEq] at ht
      obtain ⟨rfl, rfl⟩ := ht
      simp
    · simp [hrev] at ht
  · have hes : ∀ u v, .own i u v ∈ es → .returned i u v ∈ es := by
      refine Run.trace_induct hclosed hk (Run.stretches_of_forall (fun u v ↦ ?_) _ _) ht
      simp [hij]
    intro u v hm
    have hm : .own i u v ∈ es := by simpa using hm
    simp [hes u v hm]

end OpenCalls
