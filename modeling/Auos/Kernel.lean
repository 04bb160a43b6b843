import Mathlib.Data.Nat.Bitwise
import Mathlib.Tactic.Ring

/-!
# 32-bit arithmetic and the constants of the memory map

The helpers of `kernel.h` and the constants of `asm/memory.h`. The kernel is built for 32-bit x86, so
`unsigned`, `unsigned long`, `size_t` and `uintptr_t` are 32 bits wide and `uintmax_t` is 64 bits
wide. A machine word is a natural number; an operation that can leave the range of its type reduces
its result explicitly.

## Main results

* `alignUp_eq` — `align_up` to a power of two that does not wrap rounds up
* `dvd_alignUp` — the result is aligned even when the addition wraps
* `alignUp_of_wrap` — where it wraps, to `0`
-/

namespace Auos

/-! ### Words -/

/-- Conversion to a 32-bit unsigned type. -/
def wrap (x : ℕ) : ℕ := x % 2 ^ 32

/-- 32-bit addition. -/
def wadd (x y : ℕ) : ℕ := wrap (x + y)

/-- 32-bit subtraction. -/
def wsub (x y : ℕ) : ℕ := wrap (x + (2 ^ 32 - y))

/-- 32-bit multiplication. -/
def wmul (x y : ℕ) : ℕ := wrap (x * y)

/-- 32-bit complement. -/
def wnot (x : ℕ) : ℕ := 2 ^ 32 - 1 - x

theorem wrap_lt (x : ℕ) : wrap x < 2 ^ 32 := Nat.mod_lt _ (Nat.two_pow_pos 32)

theorem wrap_of_lt {x : ℕ} (h : x < 2 ^ 32) : wrap x = x := Nat.mod_eq_of_lt h

theorem wadd_of_lt {x y : ℕ} (h : x + y < 2 ^ 32) : wadd x y = x + y := wrap_of_lt h

theorem wadd_lt (x y : ℕ) : wadd x y < 2 ^ 32 := wrap_lt _

theorem wadd_zero {x : ℕ} (h : x < 2 ^ 32) : wadd x 0 = x := wadd_of_lt h

theorem wadd_wadd (x y z : ℕ) : wadd (wadd x y) z = wadd x (y + z) := by
  unfold wadd wrap
  omega

theorem wmul_of_lt {x y : ℕ} (h : x * y < 2 ^ 32) : wmul x y = x * y := wrap_of_lt h

/-- An index computed row by row. -/
theorem wmul_wadd_of_lt {x y n m : ℕ} (hm : 0 < m) (h : (x + y * n) * m < 2 ^ 32) :
    wmul (wadd x (wmul y n)) m = (x + y * n) * m := by
  have hsum : x + y * n < 2 ^ 32 := (Nat.le_mul_of_pos_right _ hm).trans_lt h
  rw [wmul_of_lt (show y * n < _ by omega), wadd_of_lt hsum, wmul_of_lt h]

theorem wsub_of_le {x y : ℕ} (h : y ≤ x) (hx : x < 2 ^ 32) : wsub x y = x - y := by
  rw [wsub, wrap, show x + (2 ^ 32 - y) = x - y + 2 ^ 32 by omega, Nat.add_mod_right]
  exact Nat.mod_eq_of_lt (by omega)

/-! ### `kernel.h` -/

/-- `minu`. -/
def minu (x y : ℕ) : ℕ := if x < y then x else y

/-- `maxu`. -/
def maxu (x y : ℕ) : ℕ := if x > y then x else y

@[simp] theorem minu_eq (x y : ℕ) : minu x y = min x y := by
  unfold minu; split <;> omega

@[simp] theorem maxu_eq (x y : ℕ) : maxu x y = max x y := by
  unfold maxu; split <;> omega

/-- `align_mask`. -/
def alignMask (x m : ℕ) : ℕ := wadd x m &&& wnot m

/-- `align_up`. -/
def alignUp (x a : ℕ) : ℕ := alignMask x (wsub a 1)

/-- Masking off the low `k` bits of a word. -/
theorem and_wnot {y k : ℕ} (hy : y < 2 ^ 32) (hk : k ≤ 32) :
    y &&& wnot (2 ^ k - 1) = y / 2 ^ k * 2 ^ k := by
  have hpow : 2 ^ k ≤ 2 ^ 32 := Nat.pow_le_pow_right (by omega) hk
  have hpos : 0 < 2 ^ k := Nat.two_pow_pos k
  have hnot : wnot (2 ^ k - 1) = 2 ^ 32 - (2 ^ k - 1 + 1) := by unfold wnot; omega
  apply Nat.eq_of_testBit_eq
  intro i
  rw [hnot, Nat.testBit_and, Nat.testBit_two_pow_sub_succ (by omega), Nat.testBit_two_pow_sub_one,
    Nat.testBit_mul_two_pow, Nat.testBit_div_two_pow]
  by_cases hik : k ≤ i
  · rw [Nat.sub_add_cancel hik]
    by_cases hi : i < 32
    · simp [hi, hik]
    · have hyi : y.testBit i = false :=
        Nat.testBit_lt_two_pow (hy.trans_le (Nat.pow_le_pow_right (by omega) (by omega)))
      simp [hyi]
  · simp [hik, Nat.not_le.mp hik]

theorem alignUp_two_pow {x k : ℕ} (hk : k < 32) :
    alignUp x (2 ^ k) = wadd x (2 ^ k - 1) / 2 ^ k * 2 ^ k := by
  have hpow : 2 ^ k < 2 ^ 32 := Nat.pow_lt_pow_right (by omega) hk
  rw [alignUp, wsub_of_le Nat.one_le_two_pow hpow, alignMask]
  exact and_wnot (wrap_lt _) hk.le

/-- The result of `align_up` is aligned, even when the addition wraps. -/
theorem dvd_alignUp {x k : ℕ} (hk : k < 32) : 2 ^ k ∣ alignUp x (2 ^ k) := by
  rw [alignUp_two_pow hk]
  exact Nat.dvd_mul_left _ _

/-- When the addition does not wrap, `align_up` rounds up to a multiple of `2 ^ k`. -/
theorem alignUp_eq {x k : ℕ} (hk : k < 32) (hx : x + (2 ^ k - 1) < 2 ^ 32) :
    alignUp x (2 ^ k) = (x + (2 ^ k - 1)) / 2 ^ k * 2 ^ k := by
  rw [alignUp_two_pow hk, wadd_of_lt hx]

theorem le_alignUp {x k : ℕ} (hk : k < 32) (hx : x + (2 ^ k - 1) < 2 ^ 32) :
    x ≤ alignUp x (2 ^ k) := by
  have hpos : 0 < 2 ^ k := Nat.two_pow_pos k
  have := Nat.div_add_mod (x + (2 ^ k - 1)) (2 ^ k)
  have := Nat.mod_lt (x + (2 ^ k - 1)) hpos
  rw [alignUp_eq hk hx, Nat.mul_comm]
  omega

theorem alignUp_le {x k : ℕ} (hk : k < 32) (hx : x + (2 ^ k - 1) < 2 ^ 32) :
    alignUp x (2 ^ k) ≤ x + (2 ^ k - 1) := by
  rw [alignUp_eq hk hx]
  exact Nat.div_mul_le_self _ _

/-- Above the last multiple of `2 ^ k` the addition wraps, and `align_up` goes to `0`. -/
theorem alignUp_of_wrap {x k : ℕ} (hk : k < 32) (hx : x < 2 ^ 32) (hwrap : 2 ^ 32 - 2 ^ k < x) :
    alignUp x (2 ^ k) = 0 := by
  have hpos : 0 < 2 ^ k := Nat.two_pow_pos k
  have hpow : 2 ^ k < 2 ^ 32 := Nat.pow_lt_pow_right (by omega) hk
  have hsum : wadd x (2 ^ k - 1) = x + (2 ^ k - 1) - 2 ^ 32 := by
    rw [wadd, wrap, Nat.mod_eq_sub_mod (by omega), Nat.mod_eq_of_lt (by omega)]
  rw [alignUp_two_pow hk, hsum, Nat.div_eq_of_lt (by omega), Nat.zero_mul]

/-! ### Bytes in memory -/

/-- Memory as the kernel addresses it. -/
abbrev Memory := ℕ → UInt8

/-- The unsigned integer stored in the `n` bytes from `addr` on, lowest byte first. -/
def readLE (mem : Memory) (addr : ℕ) : ℕ → ℕ
  | 0 => 0
  | n + 1 => (mem addr).toNat + 256 * readLE mem (wadd addr 1) n

theorem readLE_lt (mem : Memory) (addr n : ℕ) : readLE mem addr n < 256 ^ n := by
  induction n generalizing addr with
  | zero => exact Nat.one_pos
  | succ n ih =>
    have hbyte := (mem addr).toNat_lt
    have hrest := ih (wadd addr 1)
    rw [readLE, Nat.pow_succ]
    omega

/-! ### `asm/memory.h` -/

/-- `PHYS_MEM_MAX`. -/
abbrev physMemMax : ℕ := 0xFFFFFFFF

/-- `PAGE_OFFSET`. -/
abbrev pageOffset : ℕ := 0xC0000000

/-- `PAGE_SHIFT`. -/
abbrev pageShift : ℕ := 12

/-- `PAGE_SIZE`, which is `1 << PAGE_SHIFT`. -/
abbrev pageSize : ℕ := 4096

/-- `LOWMEM_PAGE_FRAMES`: the frames below `KMAP_OFFSET - PAGE_OFFSET`. -/
abbrev lowmemPageFrames : ℕ := 0x38000

/-- `phys_addr`. -/
def physAddr (x : ℕ) : ℕ := wsub x pageOffset

/-- `virt_addr`. -/
def virtAddr (x : ℕ) : ℕ := wadd x pageOffset

end Auos
