import Mathlib.Data.Finset.Card
import Mathlib.Data.Nat.Bitwise

/-!
# Bitmaps stored in words

A set of naturals stored as a list of words of `w` bits: bit `n` is bit `n % w` of word `n / w`. Words
are naturals, and nothing is assumed about bits above the width.

## Main definitions

* `bitAt`, `setBits` — one bit, and the set of bits that are set

## Main results

* `setBits_set_true`, `setBits_set_false` — writing a word in which one bit has changed
* `exists_testBit_eq_false` — a word that is not full has a clear bit
-/

namespace Auos

variable {w i j m n x : ℕ} {B : List ℕ}

/-- Bit `n` of a bitmap in words of `w` bits; bits past the end are clear. -/
def bitAt (w : ℕ) (B : List ℕ) (n : ℕ) : Bool := (B.getD (n / w) 0).testBit (n % w)

/-- The bits that are set. -/
def setBits (w : ℕ) (B : List ℕ) : Finset ℕ :=
  (Finset.range (w * B.length)).filter fun n => bitAt w B n = true

theorem lt_of_bitAt (hw : 0 < w) (h : bitAt w B n = true) : n < w * B.length := by
  by_contra hge
  have hlen : B.length ≤ n / w := by
    rw [Nat.le_div_iff_mul_le hw, Nat.mul_comm]
    omega
  rw [bitAt, List.getD_eq_default _ _ hlen, Nat.zero_testBit] at h
  cases h

theorem mem_setBits (hw : 0 < w) : n ∈ setBits w B ↔ bitAt w B n = true := by
  rw [setBits, Finset.mem_filter, Finset.mem_range]
  exact ⟨And.right, fun h => ⟨lt_of_bitAt hw h, h⟩⟩

theorem setBits_replicate_zero (hw : 0 < w) (n : ℕ) : setBits w (List.replicate n 0) = ∅ := by
  ext m
  rw [mem_setBits hw, bitAt, List.getD_eq_getElem?_getD, List.getElem?_replicate]
  split <;> simp

/-! ### Words -/

theorem testBit_or_one_shiftLeft (x j m : ℕ) :
    (x ||| 1 <<< j).testBit m = if m = j then true else x.testBit m := by
  rw [Nat.testBit_or, Nat.one_shiftLeft, Nat.testBit_two_pow]
  by_cases h : m = j
  · simp [h]
  · simp [h, Ne.symm h]

theorem testBit_and_not_one_shiftLeft (hj : j < w) (hm : m < w) (x : ℕ) :
    (x &&& (2 ^ w - 1 - 1 <<< j)).testBit m = if m = j then false else x.testBit m := by
  have hpow : 2 ^ j < 2 ^ w := Nat.pow_lt_pow_right (by omega) hj
  rw [Nat.testBit_and, Nat.one_shiftLeft, show 2 ^ w - 1 - 2 ^ j = 2 ^ w - (2 ^ j + 1) by omega,
    Nat.testBit_two_pow_sub_succ hpow, Nat.testBit_two_pow]
  by_cases h : m = j
  · simp [h]
  · simp [h, hm, Ne.symm h]

/-- A word that is not full has a clear bit. -/
theorem exists_testBit_eq_false (hx : x < 2 ^ w) (hne : x ≠ 2 ^ w - 1) :
    ∃ j < w, x.testBit j = false := by
  by_contra hno
  push Not at hno
  refine hne (Nat.eq_of_testBit_eq ?_)
  intro j
  rw [Nat.testBit_two_pow_sub_one]
  by_cases hj : j < w
  · simpa [hj] using hno j hj
  · simpa [hj] using
      Nat.testBit_lt_two_pow (hx.trans_le (Nat.pow_le_pow_right (by omega) (not_lt.mp hj)))

/-! ### Writing a word -/

/-- Writing a word that differs in bit `j` only changes bit `i * w + j` of the bitmap only. -/
theorem bitAt_set {v : Bool} (hi : i < B.length) (hj : j < w)
    (hx : ∀ m < w, x.testBit m = if m = j then v else (B.getD i 0).testBit m) :
    bitAt w (B.set i x) n = if n = i * w + j then v else bitAt w B n := by
  have hw : 0 < w := by omega
  have hmod := Nat.mod_lt n hw
  have hdiv : n / w * w + n % w = n := Nat.div_add_mod' n w
  rw [bitAt, bitAt, List.getD_eq_getElem?_getD, List.getElem?_set]
  by_cases hword : i = n / w
  · rw [if_pos hword, if_pos hi, Option.getD_some, hx _ hmod, hword]
    have hiff : n % w = j ↔ n = n / w * w + j := by omega
    simp only [hiff]
  · have hne : n ≠ i * w + j := by
      rintro rfl
      exact hword (by rw [Nat.mul_comm, Nat.mul_add_div hw, Nat.div_eq_of_lt hj, Nat.add_zero])
    rw [if_neg hword, if_neg hne, List.getD_eq_getElem?_getD]

theorem setBits_set_true (hi : i < B.length) (hj : j < w)
    (hx : ∀ m < w, x.testBit m = if m = j then true else (B.getD i 0).testBit m) :
    setBits w (B.set i x) = insert (i * w + j) (setBits w B) := by
  have hw : 0 < w := by omega
  ext n
  rw [mem_setBits hw, Finset.mem_insert, mem_setBits hw, bitAt_set hi hj hx]
  split <;> simp_all

theorem setBits_set_false (hi : i < B.length) (hj : j < w)
    (hx : ∀ m < w, x.testBit m = if m = j then false else (B.getD i 0).testBit m) :
    setBits w (B.set i x) = (setBits w B).erase (i * w + j) := by
  have hw : 0 < w := by omega
  ext n
  rw [mem_setBits hw, Finset.mem_erase, mem_setBits hw, bitAt_set hi hj hx]
  split <;> simp_all

end Auos
