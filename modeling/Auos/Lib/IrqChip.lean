import Mathlib.Data.List.Range
import Mathlib.Logic.Function.Basic

/-!
# Interrupt controllers with fixed priorities

A chip has lines, the first of which has the highest priority. A line may be requested, masked, and in
service; a line in service holds back the requests of itself and of all lines behind it until it is
taken out of service. A chip passes on its first unmasked request, unless that is held back.

## Main definitions

* `IrqChip`, `IrqChip.next`

## Main results

* `IrqChip.next_eq_some_iff` — the line that is passed on
* `IrqChip.next_eq_none_iff` — with nothing in service, every unmasked request is passed on
-/

namespace Auos

/-- A chip: the lines that are requested, masked and in service. -/
structure IrqChip where
  irr : ℕ → Bool
  imr : ℕ → Bool
  isr : ℕ → Bool

namespace IrqChip

/-- The line that is passed on, of the first `n` ones. -/
def next (c : IrqChip) (n : ℕ) : Option ℕ :=
  ((List.range n).find? fun i => c.irr i && !c.imr i).filter fun i =>
    (List.range (i + 1)).all fun j => !c.isr j

variable {c : IrqChip} {n i : ℕ}

/-- **The line that is passed on** is the first unmasked request, and no line up to it is in service. -/
theorem next_eq_some_iff : c.next n = some i ↔ i < n ∧ c.irr i = true ∧ c.imr i = false ∧
    (∀ j < i, c.irr j = true → c.imr j = true) ∧ ∀ j ≤ i, c.isr j = false := by
  rw [next, Option.filter_eq_some_iff, List.find?_range_eq_some]
  simp only [List.all_eq_true, List.mem_range, Bool.and_eq_true, Bool.not_eq_true', Nat.lt_succ_iff,
    Bool.and_eq_false_iff, Bool.not_eq_false']
  constructor
  · rintro ⟨⟨⟨hreq, hmask⟩, hi, hfirst⟩, hserved⟩
    refine ⟨hi, hreq, hmask, fun j hj hjreq => ?_, hserved⟩
    exact (hfirst j hj).resolve_left (by simp [hjreq])
  · rintro ⟨hi, hreq, hmask, hfirst, hserved⟩
    refine ⟨⟨⟨hreq, hmask⟩, hi, fun j hj => ?_⟩, hserved⟩
    cases hjreq : c.irr j with
    | false => exact Or.inl rfl
    | true => exact Or.inr (hfirst j hj hjreq)

/-- **With nothing in service no request is held back.** -/
theorem next_eq_none_iff (hidle : ∀ j < n, c.isr j = false) :
    c.next n = none ↔ ∀ i < n, c.irr i = true → c.imr i = true := by
  constructor
  · intro hnone i
    -- the first unmasked request would be passed on
    induction i using Nat.strong_induction_on with
    | _ i ih =>
      intro hi hreq
      cases hmask : c.imr i with
      | true => rfl
      | false =>
        have hsome : c.next n = some i := next_eq_some_iff.mpr
          ⟨hi, hreq, hmask, fun j hj hjreq => ih j hj (hj.trans hi) hjreq,
            fun j hj => hidle j (hj.trans_lt hi)⟩
        cases hnone.symm.trans hsome
  · intro hall
    rw [Option.eq_none_iff_forall_ne_some]
    intro i hsome
    obtain ⟨hi, hreq, hmask, -⟩ := next_eq_some_iff.mp hsome
    cases (hall i hi hreq).symm.trans hmask

end IrqChip

end Auos
