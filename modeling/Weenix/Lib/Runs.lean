import Mathlib.Data.List.Basic
/-!
# Runs of a partial step function

A system is a step function from a state and an event to the next state and
an outcome. `none` means that the event cannot be taken there, or that taking
it does not return. A `Run` is a finite sequence of steps from `s₀`, each of
which meets the side condition `ok`; its trace lists the events with their
outcomes.

`Run.inv` is the invariant rule. `Run.follows` is the refinement rule: when
every step of the system is matched by a step of an abstract system, the trace
of every run is a trace of the abstract system.
-/

namespace Weenix.Lib

variable {σ ε ω α : Type}

/-- Runs from `s₀` whose steps all meet `ok`: the state reached and the trace. -/
inductive Run (step : σ → ε → Option (σ × ω)) (ok : σ → ε → Prop) (s₀ : σ) : σ → List (ε × ω) → Prop
  | nil : Run step ok s₀ s₀ []
  | snoc {s s' tr e w} : Run step ok s₀ s tr → ok s e → step s e = some (s', w) →
      Run step ok s₀ s' (tr ++ [(e, w)])

/-- The abstract state after a trace, when the abstract system allows it. -/
def follow (next : α → ε → ω → Option α) : α → List (ε × ω) → Option α
  | a, [] => some a
  | a, (e, w) :: tr => (next a e w).bind (follow next · tr)

variable {step : σ → ε → Option (σ × ω)} {ok ok' : σ → ε → Prop} {s₀ : σ}

theorem follow_append (next : α → ε → ω → Option α) (a : α) (l l' : List (ε × ω)) :
    follow next a (l ++ l') = (follow next a l).bind (follow next · l') := by
  induction l generalizing a with
  | nil => rfl
  | cons x l ih =>
    simp only [List.cons_append, follow]
    cases next a x.1 x.2 with
    | none => rfl
    | some b => exact ih b

/-- An invariant that holds at the start and is kept by every admissible step
holds in every state reached. -/
theorem Run.inv (I : σ → Prop) (h0 : I s₀)
    (hs : ∀ s e s' w, I s → ok s e → step s e = some (s', w) → I s') {s tr}
    (h : Run step ok s₀ s tr) : I s := by
  induction h with
  | nil => exact h0
  | snoc _ hok hst ih => exact hs _ _ _ _ ih hok hst

/-- The invariant rule with the trace so far. -/
theorem Run.inv_trace (I : σ → List (ε × ω) → Prop) (h0 : I s₀ [])
    (hs : ∀ s tr e s' w, I s tr → ok s e → step s e = some (s', w) → I s' (tr ++ [(e, w)])) {s tr}
    (h : Run step ok s₀ s tr) : I s tr := by
  induction h with
  | nil => exact h0
  | snoc _ hok hst ih => exact hs _ _ _ _ _ ih hok hst

/-- Weakening the side condition. -/
theorem Run.mono (hok : ∀ s e, ok s e → ok' s e) {s tr} (h : Run step ok s₀ s tr) : Run step ok' s₀ s tr := by
  induction h with
  | nil => exact .nil
  | snoc _ h1 h2 ih => exact .snoc ih (hok _ _ h1) h2

/-- Refinement: `abs` maps every admissible step to an abstract step with the
same event and outcome, so every run's trace is an abstract trace. -/
theorem Run.follows (I : σ → Prop) (abs : σ → α) (next : α → ε → ω → Option α) (h0 : I s₀)
    (hs : ∀ s e s' w, I s → ok s e → step s e = some (s', w) → I s' ∧ next (abs s) e w = some (abs s'))
    {s tr} (h : Run step ok s₀ s tr) : follow next (abs s₀) tr = some (abs s) := by
  have hI : ∀ {s tr}, Run step ok s₀ s tr → I s := fun h =>
    h.inv I h0 (fun s e s' w hi hk hst => (hs s e s' w hi hk hst).1)
  induction h with
  | nil => rfl
  | snoc hr hok hst ih =>
    rw [follow_append, ih]
    simp [follow, (hs _ _ _ _ (hI hr) hok hst).2]

/-! ## Runs on given events -/

/-- Take the events in order, as long as `okb` allows them; the result also
has the trace. -/
def exec (step : σ → ε → Option (σ × ω)) (okb : σ → ε → Bool) : σ → List ε → Option (σ × List (ε × ω))
  | s, [] => some (s, [])
  | s, e :: es =>
    if okb s e then
      (step s e).bind fun (s', w) => (exec step okb s' es).map fun (t, tr) => (t, (e, w) :: tr)
    else none

/-- Runs that go on from a state reached. -/
theorem Run.append {s t tr tr'} (h : Run step ok s₀ s tr) (h' : Run step ok s t tr') :
    Run step ok s₀ t (tr ++ tr') := by
  induction h' with
  | nil => simpa using h
  | snoc _ hok hst ih => rw [← List.append_assoc]; exact ih.snoc hok hst

theorem Run.of_exec {okb : σ → ε → Bool} (hok : ∀ s e, okb s e = true → ok s e) {es : List ε} :
    ∀ {s t : σ} {tr : List (ε × ω)}, exec step okb s es = some (t, tr) → Run step ok s t tr := by
  induction es with
  | nil =>
    intro s t tr h
    simp only [exec, Option.some.injEq, Prod.mk.injEq] at h
    obtain ⟨rfl, rfl⟩ := h
    exact .nil
  | cons e es ih =>
    intro s t tr h
    simp only [exec] at h
    split at h
    next hb =>
      simp only [Option.bind_eq_some_iff, Option.map_eq_some_iff, Prod.mk.injEq, Prod.exists] at h
      obtain ⟨s', w, hst, t', tr', hex, rfl, rfl⟩ := h
      exact (Run.snoc .nil (hok _ _ hb) hst).append (ih hex)
    next => cases h

end Weenix.Lib
