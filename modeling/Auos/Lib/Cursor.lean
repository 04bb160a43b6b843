import Mathlib.Algebra.BigOperators.Intervals
import Mathlib.Data.Fintype.EquivFin
import Mathlib.Data.Nat.ModEq
import Mathlib.Dynamics.PeriodicPts.Defs

/-!
# Cursors that move by what they read

A cursor walks over data in an address space of `N` addresses. Where it stands it reads how far to
move, so nothing but the data decides whether it ever gets to the address `stop` where the walk ends.
If it does not, it comes back to an address where it has been before, since there are only `N` of
them, and then the steps in between add up to a multiple of `N`.

## Main definitions

* `Cursor.next`, `Cursor.pos` — one step, and the position after `n` steps
* `Cursor.Going` — the walk has not ended after `n` steps

## Main results

* `Cursor.pos_eq_sum` — a position is the sum of the steps before it
* `Cursor.ends_iff` — a walk ends exactly if no steps in a row add up to a multiple of `N`
* `Cursor.ends_iff_ne_zero` — the same for a walk that does not wrap: no step is zero
* `Cursor.ends_within_iff` — the loop of a program that moves as the cursor does
-/

namespace Auos

namespace Cursor

open Finset

variable {N : ℕ} {d : ℕ → ℕ} {x stop m n : ℕ}

/-- One step of the cursor. -/
def next (N : ℕ) (d : ℕ → ℕ) (x : ℕ) : ℕ := (x + d x) % N

/-- The position after `n` steps from `x`. -/
def pos (N : ℕ) (d : ℕ → ℕ) (x n : ℕ) : ℕ := (next N d)^[n] x

/-- The walk from `x` has not ended after `n` steps. -/
def Going (N : ℕ) (d : ℕ → ℕ) (stop x n : ℕ) : Prop := ∀ k ≤ n, pos N d x k < stop

@[simp] theorem pos_zero : pos N d x 0 = x := rfl

theorem pos_succ : pos N d x (n + 1) = next N d (pos N d x n) := Function.iterate_succ_apply' _ _ _

/-- The walk goes on from its first step. -/
theorem pos_succ' : pos N d x (n + 1) = pos N d (next N d x) n := Function.iterate_succ_apply _ _ _

theorem pos_lt (hx : x < N) (n : ℕ) : pos N d x n < N := by
  cases n with
  | zero => exact hx
  | succ n =>
    rw [pos_succ]
    exact Nat.mod_lt _ (Nat.zero_lt_of_lt hx)

theorem Going.mono (h : Going N d stop x n) (hmn : m ≤ n) : Going N d stop x m :=
  fun k hk => h k (hk.trans hmn)

/-- A walk of one more step. -/
theorem going_succ : Going N d stop x (n + 1) ↔ Going N d stop x n ∧ pos N d x (n + 1) < stop := by
  constructor
  · exact fun h => ⟨h.mono (Nat.le_succ n), h (n + 1) le_rfl⟩
  · rintro ⟨h, hlast⟩ k hk
    rcases Nat.eq_or_lt_of_le hk with rfl | hlt
    · exact hlast
    · exact h k (Nat.le_of_lt_succ hlt)

/-- A walk of one more step, by its first step. -/
theorem going_succ' :
    Going N d stop x (n + 1) ↔ x < stop ∧ Going N d stop (next N d x) n := by
  constructor
  · intro h
    exact ⟨h 0 (Nat.zero_le _), fun k hk => pos_succ' ▸ h (k + 1) (Nat.succ_le_succ hk)⟩
  · rintro ⟨hfirst, hrest⟩ k hk
    cases k with
    | zero => exact hfirst
    | succ k =>
      rw [pos_succ']
      exact hrest k (Nat.le_of_succ_le_succ hk)

/-- **A position is the sum of the steps before it.** -/
theorem pos_eq_sum (hx : x < N) (hmn : m ≤ n) :
    pos N d x n = (pos N d x m + ∑ k ∈ Ico m n, d (pos N d x k)) % N := by
  induction n, hmn using Nat.le_induction with
  | base => rw [Ico_self, sum_empty, Nat.add_zero, Nat.mod_eq_of_lt (pos_lt hx m)]
  | succ n hmn ih =>
    have hmod := Nat.mod_add_mod (pos N d x m + ∑ k ∈ Ico m n, d (pos N d x k)) N (d (pos N d x n))
    rw [← ih] at hmod
    rw [pos_succ, next, sum_Ico_succ_top hmn, ← Nat.add_assoc]
    exact hmod

/-- The cursor comes back to a position exactly if the steps in between add up to a multiple of the
size of the address space. -/
theorem pos_eq_iff_dvd (hx : x < N) (hmn : m ≤ n) :
    pos N d x m = pos N d x n ↔ N ∣ ∑ k ∈ Ico m n, d (pos N d x k) := by
  have hself : pos N d x m % N = pos N d x m := Nat.mod_eq_of_lt (pos_lt hx m)
  rw [pos_eq_sum hx hmn]
  constructor
  · intro h
    have hmod : pos N d x m + 0 ≡ pos N d x m + ∑ k ∈ Ico m n, d (pos N d x k) [MOD N] := by
      rw [Nat.ModEq, Nat.add_zero, hself]
      exact h
    exact (Nat.modEq_zero_iff_dvd).mp (Nat.ModEq.add_left_cancel' _ hmod).symm
  · intro h
    rw [Nat.add_mod, Nat.mod_eq_zero_of_dvd h, Nat.add_zero, Nat.mod_mod, hself]

/-- A cursor that has come back while it was going is going for ever. -/
theorem going_of_pos_eq (hmn : m < n) (heq : pos N d x m = pos N d x n)
    (hgoing : Going N d stop x n) (k : ℕ) : pos N d x k < stop := by
  rcases Nat.lt_or_ge k m with hk | hk
  · exact hgoing k (hk.le.trans hmn.le)
  obtain ⟨i, rfl⟩ := Nat.exists_eq_add_of_le hk
  -- from `m` on the walk has the period `n - m`
  have hperiod : Function.IsPeriodicPt (next N d) (n - m) (pos N d x m) := by
    rw [Function.IsPeriodicPt, Function.IsFixedPt, pos, ← Function.iterate_add_apply,
      Nat.sub_add_cancel hmn.le]
    exact heq.symm
  have hmod : pos N d x (m + i) = pos N d x (m + i % (n - m)) := by
    rw [pos, pos, Nat.add_comm m i, Nat.add_comm m, Function.iterate_add_apply,
      Function.iterate_add_apply]
    exact (hperiod.iterate_mod_apply i).symm
  have hlt : i % (n - m) < n - m := Nat.mod_lt _ (by omega)
  rw [hmod]
  exact hgoing _ (by omega)

/-- **A walk ends exactly if no steps in a row add up to a multiple of the size of the address
space**, as long as it is going. -/
theorem ends_iff (hx : x < N) :
    (∃ n, stop ≤ pos N d x n) ↔
      ∀ m n, m < n → Going N d stop x n → ¬ N ∣ ∑ k ∈ Ico m n, d (pos N d x k) := by
  constructor
  · rintro ⟨k, hk⟩ m n hmn hgoing hdvd
    have heq := (pos_eq_iff_dvd hx hmn.le).mpr hdvd
    exact absurd (going_of_pos_eq hmn heq hgoing k) (Nat.not_lt.mpr hk)
  · intro h
    by_contra hno
    push Not at hno
    -- one of the `N` positions occurs twice
    obtain ⟨m, n, hne, heq⟩ :=
      Finite.exists_ne_map_eq_of_infinite fun n => (⟨pos N d x n, pos_lt hx n⟩ : Fin N)
    have heq' : pos N d x m = pos N d x n := Fin.mk.inj heq
    rcases Nat.lt_or_gt_of_ne hne with hlt | hlt
    · exact h m n hlt (fun k _ => hno k) ((pos_eq_iff_dvd hx hlt.le).mp heq')
    · exact h n m hlt (fun k _ => hno k) ((pos_eq_iff_dvd hx hlt.le).mp heq'.symm)

/-- A step that does not wrap. -/
theorem next_of_lt (h : x + d x < N) : next N d x = x + d x := Nat.mod_eq_of_lt h

/-- **A walk that does not wrap ends exactly if no step is zero.** -/
theorem ends_iff_ne_zero (hx : x < N) (hd : ∀ y < stop, y + d y < N) :
    (∃ n, stop ≤ pos N d x n) ↔ ∀ n, Going N d stop x n → d (pos N d x n) ≠ 0 := by
  constructor
  · rintro hends n hgoing hzero
    have hsame : pos N d x (n + 1) = pos N d x n := by
      rw [pos_succ, next_of_lt (hd _ (hgoing n le_rfl)), hzero, Nat.add_zero]
    have hgoing' : Going N d stop x (n + 1) :=
      going_succ.mpr ⟨hgoing, hsame.trans_lt (hgoing n le_rfl)⟩
    refine (ends_iff hx).mp hends n (n + 1) (Nat.lt_succ_self n) hgoing' ?_
    rw [Nat.Ico_succ_singleton, sum_singleton, hzero]
    exact dvd_zero N
  · intro h
    by_contra hno
    push Not at hno
    have hle : ∀ n, x + n ≤ pos N d x n := by
      intro n
      induction n with
      | zero => exact le_rfl
      | succ n ih =>
        have hpos := Nat.pos_of_ne_zero (h n fun k _ => hno k)
        rw [pos_succ, next_of_lt (hd _ (hno n))]
        omega
    have hlast := hle stop
    have hlt := hno stop
    omega

/-! ### Loops with a bound -/

/-- A loop that is cut off ends for some bound exactly if it ends at all. -/
theorem exists_bound_iff {P : ℕ → Prop} : (∃ fuel, ∃ n < fuel, P n) ↔ ∃ n, P n := by
  constructor
  · rintro ⟨fuel, n, -, h⟩
    exact ⟨n, h⟩
  · rintro ⟨n, h⟩
    exact ⟨n + 1, n, Nat.lt_succ_self n, h⟩

section Loop

variable {σ : Type*} {Inv : σ → Prop} {Ends : ℕ → ℕ → σ → Prop} {bound : ℕ} {s : σ}

/-- **A loop that moves as the cursor does ends within its bound exactly if the cursor gets to the end
in fewer steps.** `Ends bound x s` is that the loop ends from the address `x` and the state `s` on. -/
theorem ends_within_iff (hzero : ∀ x s, ¬ Ends 0 x s)
    (hstop : ∀ bound x s, stop ≤ x → Ends (bound + 1) x s)
    (hstep : ∀ x s, x < stop → Inv s →
      ∃ s', Inv s' ∧ ∀ bound, Ends (bound + 1) x s ↔ Ends bound (next N d x) s') (hs : Inv s) :
    Ends bound x s ↔ ∃ n < bound, stop ≤ pos N d x n := by
  induction bound generalizing x s with
  | zero => exact iff_of_false (hzero x s) fun ⟨n, hn, _⟩ => absurd hn (Nat.not_lt_zero n)
  | succ bound ih =>
    rw [Nat.exists_lt_succ_left]
    rcases Nat.lt_or_ge x stop with hlt | hge
    · obtain ⟨s', hs', hnext⟩ := hstep x s hlt hs
      rw [hnext, ih hs']
      simp only [pos_zero, Nat.not_le.mpr hlt, false_or, pos_succ']
    · exact iff_of_true (hstop bound x s hge) (Or.inl hge)

end Loop

end Cursor

end Auos
