import Auos.Kernel

/-!
# Filling and copying memory

`memset` and `memcpy` of `utility.c`. Pointers wrap around at the end of the address space, and both
loops go on there. `memset` counts by comparing pointers, `memcpy` by its size; both return the pointer
that they were given.

`memcpy` copies upwards, byte by byte. Where the destination starts inside the source it reads what it
has already written, and repeats the bytes before the overlap.

## Main definitions

* `memset`, `memcpy`

## Main results

* `memset_spec` — `memset` ends, and fills exactly its range
* `memcpy_effect` — what `memcpy` leaves for any two ranges, and when it is a copy
-/

namespace Auos

/-- The loop of `memset`, with the number of tests left. -/
def memsetLoop (value : UInt8) (stop : ℕ) : ℕ → Memory → ℕ → Option Memory
  | 0, _, _ => none
  | n + 1, mem, ptr =>
    if ptr ≠ stop then memsetLoop value stop n (Function.update mem ptr value) (wadd ptr 1)
    else some mem

/-- `memset`, with enough tests for the range. The value is converted to a character. -/
def memset (mem : Memory) (ptr : ℕ) (value : ℤ) (size : ℕ) : Option Memory :=
  memsetLoop (UInt8.ofNat (value % 256).toNat) (wadd ptr size) (size + 1) mem ptr

/-- The loop of `memcpy`. -/
def memcpyLoop : ℕ → Memory → ℕ → ℕ → Memory
  | 0, mem, _, _ => mem
  | size + 1, mem, dst, src =>
    memcpyLoop size (Function.update mem dst (mem src)) (wadd dst 1) (wadd src 1)

/-- `memcpy`. -/
def memcpy (mem : Memory) (dst src size : ℕ) : Memory := memcpyLoop size mem dst src

variable {mem : Memory} {ptr dst src size n i b : ℕ} {value : UInt8}

/-! ### Addresses -/

theorem wadd_injective {x i j : ℕ} (hi : i < 2 ^ 32) (hj : j < 2 ^ 32) (h : wadd x i = wadd x j) :
    i = j := by
  unfold wadd wrap at h
  omega

/-- Where one range runs into another. -/
theorem wadd_eq_wadd_iff {x y i j : ℕ} (hy : y < 2 ^ 32) (hi : i < 2 ^ 32)
    (hj : j < 2 ^ 32) (hle : j ≤ i) : wadd y i = wadd x j ↔ i = wsub x y + j := by
  unfold wadd wsub wrap
  omega

/-! ### `memset` -/

/-- The loop fills what is left of the range. -/
theorem memsetLoop_spec (hptr : ptr < 2 ^ 32) (hsize : size < n) (hn : n ≤ 2 ^ 32) :
    ∃ mem', memsetLoop value (wadd ptr size) n mem ptr = some mem' ∧
      (∀ i < size, mem' (wadd ptr i) = value) ∧
      ∀ b, (∀ i < size, b ≠ wadd ptr i) → mem' b = mem b := by
  induction size generalizing mem ptr n with
  | zero =>
    obtain ⟨n, rfl⟩ : ∃ k, n = k + 1 := ⟨n - 1, by omega⟩
    exact ⟨mem, by rw [memsetLoop, wadd_zero hptr, if_neg (by simp)], by simp, fun _ _ => rfl⟩
  | succ size ih =>
    obtain ⟨n, rfl⟩ : ∃ k, n = k + 1 := ⟨n - 1, by omega⟩
    have hne : ptr ≠ wadd ptr (size + 1) := fun heq => by
      have := wadd_injective (x := ptr) (i := 0) (by omega) (by omega) ((wadd_zero hptr).trans heq)
      omega
    have hstop : wadd ptr (size + 1) = wadd (wadd ptr 1) size := by rw [wadd_wadd, Nat.add_comm]
    have hnext : ∀ i, wadd (wadd ptr 1) i = wadd ptr (i + 1) := fun i => by
      rw [wadd_wadd, Nat.add_comm]
    obtain ⟨mem', hrun, hset, hframe⟩ := @ih (Function.update mem ptr value) _ _
      (wadd_lt ptr 1) (show size < n by omega) (by omega)
    refine ⟨mem', by rw [memsetLoop, if_pos hne, hstop]; exact hrun, ?_, ?_⟩
    · intro i hi
      cases i with
      | zero =>
        rw [wadd_zero hptr, hframe ptr fun i hi heq => ?_, Function.update_self]
        rw [hnext] at heq
        have := wadd_injective (x := ptr) (i := 0) (by omega) (by omega) ((wadd_zero hptr).trans heq)
        omega
      | succ i =>
        rw [← hnext]
        exact hset i (by omega)
    · intro b hb
      rw [hframe b fun i hi => by rw [hnext]; exact hb (i + 1) (by omega)]
      refine Function.update_of_ne ?_ _ _
      have h0 := hb 0 (by omega)
      rwa [wadd_zero hptr] at h0

/-- **`memset` ends and fills exactly its range**, also where the range wraps around. -/
theorem memset_spec (mem : Memory) (hptr : ptr < 2 ^ 32) (value : ℤ) (hsize : size < 2 ^ 32) :
    ∃ mem', memset mem ptr value size = some mem' ∧
      (∀ i < size, mem' (wadd ptr i) = UInt8.ofNat (value % 256).toNat) ∧
      ∀ b, (∀ i < size, b ≠ wadd ptr i) → mem' b = mem b :=
  memsetLoop_spec hptr (Nat.lt_succ_self size) hsize

/-! ### `memcpy` -/

/-- The last round of `memcpy`. -/
theorem memcpy_succ (mem : Memory) (hdst : dst < 2 ^ 32) (hsrc : src < 2 ^ 32) (n : ℕ) :
    memcpy mem dst src (n + 1) = Function.update (memcpy mem dst src n) (wadd dst n)
      (memcpy mem dst src n (wadd src n)) := by
  induction n generalizing mem dst src with
  | zero =>
    rw [wadd_zero hdst, wadd_zero hsrc]
    rfl
  | succ n ih =>
    have hstep : ∀ k, memcpy mem dst src (k + 1) =
        memcpy (Function.update mem dst (mem src)) (wadd dst 1) (wadd src 1) k := fun _ => rfl
    rw [hstep, ih _ (wadd_lt _ _) (wadd_lt _ _), ← hstep, wadd_wadd, wadd_wadd, Nat.add_comm 1 n]

theorem memcpy_of_ne (mem : Memory) (hdst : dst < 2 ^ 32) (hsrc : src < 2 ^ 32)
    (hb : ∀ i < n, b ≠ wadd dst i) : memcpy mem dst src n b = mem b := by
  induction n with
  | zero => rfl
  | succ n ih =>
    rw [memcpy_succ mem hdst hsrc, Function.update_of_ne (hb n (Nat.lt_succ_self n)),
      ih fun i hi => hb i (by omega)]

/-- The byte at the offset `i` comes from the source, counted modulo the distance of the two ranges. -/
theorem memcpy_apply (mem : Memory) (hdst : dst < 2 ^ 32) (hsrc : src < 2 ^ 32) (hn : n < 2 ^ 32)
    (hi : i < n) : memcpy mem dst src n (wadd dst i) = mem (wadd src (i % wsub dst src)) := by
  induction n generalizing i with
  | zero => omega
  | succ n ih =>
    rw [memcpy_succ mem hdst hsrc]
    rcases Nat.lt_succ_iff_lt_or_eq.mp hi with hlt | rfl
    · have hne : wadd dst i ≠ wadd dst n := fun heq =>
        absurd (wadd_injective (by omega) (by omega) heq) (by omega)
      rw [Function.update_of_ne hne, ih (by omega) hlt]
    · rw [Function.update_self]
      rcases Nat.eq_zero_or_pos (wsub dst src) with hzero | hpos
      · -- the ranges are the same: what the round reads was not written before
        rw [hzero, Nat.mod_zero]
        refine memcpy_of_ne mem hdst hsrc fun j hj heq => ?_
        have := (wadd_eq_wadd_iff hsrc (by omega) (by omega) hj.le).mp heq
        omega
      · rcases Nat.lt_or_ge i (wsub dst src) with hbelow | hover
        · rw [Nat.mod_eq_of_lt hbelow]
          refine memcpy_of_ne mem hdst hsrc fun j hj heq => ?_
          have := (wadd_eq_wadd_iff hsrc (by omega) (by omega) hj.le).mp heq
          omega
        · -- the round reads a byte that an earlier one wrote
          have hread : wadd src i = wadd dst (i - wsub dst src) :=
            (wadd_eq_wadd_iff hsrc (by omega) (by omega) (Nat.sub_le _ _)).mpr (by omega)
          rw [hread, ih (by omega) (by omega), ← Nat.mod_eq_sub_mod hover]

/-- **What `memcpy` does**: for any two ranges, overlapping or not, the byte at an offset is the byte of
the source at that offset modulo the distance from source to destination, and no other byte changes.
So it copies, whatever memory holds, exactly if the destination does not start inside the source behind
its first byte. -/
theorem memcpy_effect (hdst : dst < 2 ^ 32) (hsrc : src < 2 ^ 32) (hsize : size < 2 ^ 32) :
    (∀ mem i, i < size →
      memcpy mem dst src size (wadd dst i) = mem (wadd src (i % wsub dst src))) ∧
    (∀ mem b, (∀ i < size, b ≠ wadd dst i) → memcpy mem dst src size b = mem b) ∧
    ((∀ mem i, i < size → memcpy mem dst src size (wadd dst i) = mem (wadd src i)) ↔
      ¬(0 < wsub dst src ∧ wsub dst src < size)) := by
  refine ⟨fun mem i hi => memcpy_apply mem hdst hsrc hsize hi,
    fun mem b hb => memcpy_of_ne mem hdst hsrc hb, ?_⟩
  constructor
  · rintro hcopies ⟨hpos, hlt⟩
    -- the first byte that is repeated, in a memory where it is different
    have happly := memcpy_apply (Function.update (fun _ => 0) src 1) hdst hsrc hsize hlt
    rw [hcopies _ _ hlt, Nat.mod_self, wadd_zero hsrc, Function.update_self,
      Function.update_of_ne fun heq => ?_] at happly
    · exact absurd happly (by decide)
    · have := wadd_injective (x := src) (j := 0) (by omega) (by omega) (heq.trans (wadd_zero hsrc).symm)
      omega
  · intro hapart mem i hi
    rw [memcpy_apply mem hdst hsrc hsize hi]
    rcases Nat.eq_zero_or_pos (wsub dst src) with hzero | hpos
    · rw [hzero, Nat.mod_zero]
    · rw [Nat.mod_eq_of_lt (by omega)]

/-- Four bytes one address up: the first is repeated. -/
theorem memcpy_effect_shifted :
    memcpy (Function.update (fun _ => 0) 0x1000 7) 0x1001 0x1000 4 0x1004 = 7 := by
  obtain ⟨hbytes, -⟩ := @memcpy_effect 0x1001 0x1000 4 (by decide) (by decide) (by decide)
  exact (hbytes _ 3 (by decide)).trans rfl

end Auos
