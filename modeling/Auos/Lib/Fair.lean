import Mathlib.Data.Nat.Init

/-!
# Fair executions

A machine takes one event after the other, for ever. The events are of several kinds, and an execution is
fair if events of every kind come again and again. What then must happen is shown with a rank: no event
makes it larger, and in every state some kind of event makes it smaller and stays the one that helps
until it comes.

## Main definitions

* `execution` — the states of a machine along a sequence of events
* `AllRecur` — events of every kind come again and again

## Main results

* `execution_invariant` — what every event keeps holds for ever
* `AllRecur.exists_rank_zero` — the rank becomes zero
-/

namespace Auos

variable {σ ε ι : Type*} {step : σ → ε → σ} {s₀ : σ} {events : ℕ → ε} {kind : ι → ε → Prop}

/-- The state after `n` events. -/
def execution (step : σ → ε → σ) (s₀ : σ) (events : ℕ → ε) : ℕ → σ
  | 0 => s₀
  | n + 1 => step (execution step s₀ events n) (events n)

/-- Events of every kind come again and again. -/
def AllRecur (kind : ι → ε → Prop) (events : ℕ → ε) : Prop := ∀ i n, ∃ m, n ≤ m ∧ kind i (events m)

theorem execution_invariant {inv : σ → Prop} (hinit : inv s₀) (hstep : ∀ s e, inv s → inv (step s e))
    (n : ℕ) : inv (execution step s₀ events n) := by
  induction n with
  | zero => exact hinit
  | succ n ih => exact hstep _ _ ih

/-- **The rank becomes zero** in every fair execution, again and again, if no event makes it larger or
takes away what helps without making it smaller, and while it is not zero the events of some kind make
it smaller. -/
theorem AllRecur.exists_rank_zero {inv : σ → Prop} {rank : σ → ℕ} {helps : σ → ι} (h : AllRecur kind events)
    (hinit : inv s₀) (hstep : ∀ s e, inv s → inv (step s e))
    (hrank : ∀ s e, inv s →
      rank (step s e) < rank s ∨ rank (step s e) = rank s ∧ helps (step s e) = helps s)
    (hhelps : ∀ s e, inv s → rank s ≠ 0 → kind (helps s) e → rank (step s e) < rank s) (n : ℕ) :
    ∃ m, n ≤ m ∧ rank (execution step s₀ events m) = 0 := by
  induction hr : rank (execution step s₀ events n) using Nat.strong_induction_on generalizing n with
  | _ r ih =>
    by_cases hzero : r = 0
    · exact ⟨n, Nat.le_refl n, hr.trans hzero⟩
    -- until the rank gets smaller, the same kind of event helps
    have hwait : ∀ k, (∃ m, n ≤ m ∧ rank (execution step s₀ events m) < r) ∨
        rank (execution step s₀ events (n + k)) = r ∧
          helps (execution step s₀ events (n + k)) = helps (execution step s₀ events n) := by
      intro k
      induction k with
      | zero => exact Or.inr ⟨hr, rfl⟩
      | succ k ihk =>
        rcases ihk with hless | ⟨hsame, hhelp⟩
        · exact Or.inl hless
        rcases hrank _ (events (n + k)) (execution_invariant hinit hstep (n + k)) with hlt | ⟨heq, hkeep⟩
        · exact Or.inl ⟨n + k + 1, by omega, hsame ▸ hlt⟩
        · exact Or.inr ⟨heq.trans hsame, hkeep.trans hhelp⟩
    have hless : ∃ m, n ≤ m ∧ rank (execution step s₀ events m) < r := by
      obtain ⟨m, hm, hkind⟩ := h (helps (execution step s₀ events n)) n
      obtain ⟨k, rfl⟩ := Nat.exists_eq_add_of_le hm
      rcases hwait k with hless | ⟨hsame, hhelp⟩
      · exact hless
      · refine ⟨n + k + 1, by omega, ?_⟩
        have hdone := hhelps _ (events (n + k)) (execution_invariant hinit hstep (n + k))
          (by rw [hsame]; exact hzero) (by rw [hhelp]; exact hkind)
        exact hsame ▸ hdone
    obtain ⟨m, hm, hlt⟩ := hless
    obtain ⟨m', hm', hdone⟩ := ih _ hlt m rfl
    exact ⟨m', Nat.le_trans hm hm', hdone⟩

end Auos
