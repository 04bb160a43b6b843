import Mathlib.Data.List.Induction

/-!
# Runs of a machine

A machine is a partial step function on states and events. A run takes events from a start state on;
which events may happen in which states is a parameter, so that a property can be stated for the runs
that avoid some of them.

## Main results

* `Run.invariant` — what holds at the start and is kept by every allowed step holds in every run
* `Run.foldlM`, `Run.exists_of_any` — a list of events that can all happen is a run
* `exists_foldlM_of_prefixes` — an invariant of what has been read so far
-/

namespace Auos

variable {σ ε : Type*}

/-- The states reached from `s₀` by events that are `allowed` in the states they happen in. -/
inductive Run (step : σ → ε → Option σ) (allowed : σ → ε → Prop) (s₀ : σ) : σ → Prop
  | init : Run step allowed s₀ s₀
  | step {s s' : σ} {event : ε} : Run step allowed s₀ s → allowed s event →
      step s event = some s' → Run step allowed s₀ s'

namespace Run

variable {step : σ → ε → Option σ} {allowed : σ → ε → Prop} {s₀ s s' : σ}

/-- **The invariant rule.** -/
theorem invariant {P : σ → Prop} (hinit : P s₀)
    (hstep : ∀ s event s', P s → allowed s event → step s event = some s' → P s')
    (run : Run step allowed s₀ s) : P s := by
  induction run with
  | init => exact hinit
  | step _ hallowed hs ih => exact hstep _ _ _ ih hallowed hs

/-- A list of events that can all happen, one after the other. -/
theorem foldlM {events : List ε} (run : Run step allowed s₀ s)
    (hall : ∀ event ∈ events, ∀ s, allowed s event) (h : events.foldlM step s = some s') :
    Run step allowed s₀ s' := by
  induction events generalizing s with
  | nil => exact Option.some.inj h ▸ run
  | cons event events ih =>
    rw [List.foldlM_cons] at h
    obtain ⟨s₁, hs, hrest⟩ := Option.bind_eq_some_iff.mp h
    exact ih (run.step (hall event List.mem_cons_self s) hs)
      (fun e he => hall e (List.mem_cons_of_mem event he)) hrest

/-- A list of events, and a test of the state they end in. -/
theorem exists_of_any {events : List ε} {p : σ → Bool}
    (hall : ∀ event ∈ events, ∀ s, allowed s event) (h : (events.foldlM step s₀).any p = true) :
    ∃ s, Run step allowed s₀ s ∧ p s = true := by
  obtain ⟨s, hs, hp⟩ := (Option.any_eq_true _ _).mp h
  exact ⟨s, Run.init.foldlM hall hs, hp⟩

end Run

/-- **The invariant rule for a sequence of events**: what holds at the start, and is kept by every
event of the sequence, holds after every part of it. The invariant can speak of the events so far. -/
theorem exists_foldlM_of_prefixes {step : σ → ε → Option σ} {inv : List ε → σ → Prop} {s₀ : σ}
    {text : List ε} (hinit : inv [] s₀)
    (hstep : ∀ (part : List ε) (event : ε) (s : σ), part ++ [event] <+: text → inv part s →
      ∃ s', step s event = some s' ∧ inv (part ++ [event]) s')
    (part : List ε) (hpart : part <+: text) : ∃ s, part.foldlM step s₀ = some s ∧ inv part s := by
  induction part using List.reverseRecOn with
  | nil => exact ⟨s₀, rfl, hinit⟩
  | append_singleton part event ih =>
    obtain ⟨s, hs, hinv⟩ := ih ((List.prefix_append part [event]).trans hpart)
    obtain ⟨s', hs', hinv'⟩ := hstep part event s hpart hinv
    refine ⟨s', ?_, hinv'⟩
    rw [List.foldlM_append, hs]
    simp [hs']

end Auos
