import Auos.Lib.Cursor
import Auos.SetupMemory
import Mathlib.Tactic.IntervalCases

/-!
# When the walk over the memory map ends

`init_phys_mem_map` moves from entry to entry by the size that each entry names plus the four bytes of
the size itself, in 32 bits. It does not look at the size. A size of `0xFFFFFFFC` leaves the cursor
where it is, and larger steps can bring it back to an entry where it has been.

## Main definitions

* `mmapStep`, `mmapPos` — how far the loop moves, and where the entries of a walk start

## Main results

* `initPhysMemMap_ends_iff` — when the walk ends
* `initPhysMemMap_ends_of_size` — entries that do not reach beyond the address space
-/

namespace Auos

open Finset

variable {mem : Memory} {mbi : MultibootInfo} {b : BootMem} {mmapEnd addr fuel size : ℕ}

/-- How far the loop moves over an entry. -/
def mmapStep (mem : Memory) (addr : ℕ) : ℕ := (readMmapEntry mem addr).size + 4

/-- The start of the `n`-th entry that the walk comes to. -/
def mmapPos (mem : Memory) (mbi : MultibootInfo) (n : ℕ) : ℕ :=
  Cursor.pos (2 ^ 32) (mmapStep mem) mbi.mmapAddr n

/-- The walk comes to `n + 1` entries at least. -/
def MmapGoing (mem : Memory) (mbi : MultibootInfo) (n : ℕ) : Prop :=
  Cursor.Going (2 ^ 32) (mmapStep mem) (wadd mbi.mmapAddr mbi.mmapLength) mbi.mmapAddr n

/-- The loop moves as the cursor does. -/
theorem next_mmapStep :
    Cursor.next (2 ^ 32) (mmapStep mem) addr = wadd addr (wadd (readMmapEntry mem addr).size 4) :=
  (Nat.add_mod_mod _ _ _).symm

/-- One round, over any entry: the tables stay sound, so the loop goes on. -/
theorem exists_initPhysMemMapLoop_succ (hlt : addr < mmapEnd) (hm : b.memory.Fits)
    (hr : b.reserved.Fits) (size : ℕ) :
    ∃ b' size', b'.memory.Fits ∧ b'.reserved.Fits ∧ ∀ fuel,
      initPhysMemMapLoop mem mmapEnd (fuel + 1) addr b size =
        initPhysMemMapLoop mem mmapEnd fuel (Cursor.next (2 ^ 32) (mmapStep mem) addr) b' size' := by
  generalize hentry : readMmapEntry mem addr = e
  have hround : ∀ fuel, initPhysMemMapLoop mem mmapEnd (fuel + 1) addr b size = _ :=
    fun fuel => if_pos hlt
  rw [next_mmapStep, hentry]
  simp only [hround, hentry]
  by_cases habove : e.addr > physMemMax
  · exact ⟨b, size, hm, hr, fun fuel => if_pos habove⟩
  generalize hbegin : wrap e.addr = beginAddr
  generalize hend : wrap (minu ((beginAddr + e.len) % 2 ^ 64) physMemMax) = endAddr
  by_cases htype : e.type = multibootAvailable
  · obtain ⟨ret, t', hadd, hf, -⟩ := exists_bootMemAddRange hm ⟨beginAddr, endAddr⟩
    refine ⟨{ b with memory := t' }, if endAddr > size then endAddr else size, hf, hr, fun fuel => ?_⟩
    rw [if_neg habove, if_pos htype, bootMemAdd, hadd]
    rfl
  · obtain ⟨ret, t', hadd, hf, -⟩ := exists_bootMemAddRange hr ⟨beginAddr, endAddr⟩
    refine ⟨{ b with reserved := t' }, size, hm, hf, fun fuel => ?_⟩
    rw [if_neg habove, if_neg htype, bootMemReserve, hadd]
    rfl

/-- The loop ends when the cursor has reached the end. -/
theorem isSome_initPhysMemMapLoop (hm : b.memory.Fits) (hr : b.reserved.Fits) :
    (initPhysMemMapLoop mem mmapEnd fuel addr b size).isSome ↔
      ∃ n < fuel, mmapEnd ≤ Cursor.pos (2 ^ 32) (mmapStep mem) addr n := by
  refine @Cursor.ends_within_iff (2 ^ 32) (mmapStep mem) addr mmapEnd (BootMem × ℕ)
    (fun s => s.1.memory.Fits ∧ s.1.reserved.Fits)
    (fun fuel addr s => (initPhysMemMapLoop mem mmapEnd fuel addr s.1 s.2).isSome) fuel (b, size)
    (fun _ _ => Bool.false_ne_true) ?_ ?_ ⟨hm, hr⟩
  · intro fuel addr s hge
    rw [initPhysMemMapLoop, if_neg (Nat.not_lt.mpr hge)]
    rfl
  · rintro addr ⟨b, size⟩ hlt ⟨hm, hr⟩
    obtain ⟨b', size', hm', hr', hround⟩ := exists_initPhysMemMapLoop_succ hlt hm hr size
    exact ⟨(b', size'), ⟨hm', hr'⟩, fun fuel => by rw [hround]⟩

theorem exists_isSome_initPhysMemMap (hm : b.memory.Fits) (hr : b.reserved.Fits) :
    (∃ fuel, (initPhysMemMap mem mbi fuel b).isSome) ↔
      ∃ n, wadd mbi.mmapAddr mbi.mmapLength ≤ mmapPos mem mbi n := by
  have hloop : ∀ fuel, (initPhysMemMap mem mbi fuel b).isSome =
      (initPhysMemMapLoop mem (wadd mbi.mmapAddr mbi.mmapLength) fuel mbi.mmapAddr b 0).isSome := by
    intro fuel
    rw [initPhysMemMap, Option.bind_eq_bind, Option.isSome_bind]
    exact Option.any_true
  simp only [hloop, isSome_initPhysMemMapLoop hm hr]
  exact Cursor.exists_bound_iff

/-- **The walk ends exactly if no steps in a row add up to a multiple of `2 ^ 32`**, among the entries
that it comes to. The size `0xFFFFFFFC` makes such a step by itself. -/
theorem initPhysMemMap_ends_iff (hwrap : mbi.mmapAddr + mbi.mmapLength < 2 ^ 32)
    (hm : b.memory.Fits) (hr : b.reserved.Fits) :
    (∃ fuel, (initPhysMemMap mem mbi fuel b).isSome) ↔
      ∀ m n, m < n → MmapGoing mem mbi n →
        ¬ 2 ^ 32 ∣ ∑ k ∈ Ico m n, ((readMmapEntry mem (mmapPos mem mbi k)).size + 4) := by
  rw [exists_isSome_initPhysMemMap hm hr]
  exact Cursor.ends_iff (show mbi.mmapAddr < 2 ^ 32 by omega)

/-- A map at `0x1000` of available memory, of reserved memory, and of an entry of another size whose
memory is not addressed by 32 bits. -/
def threeEntryMap : Memory := fun a =>
  if a = 0x1000 ∨ a = 0x1018 then 20 else if a = 0x1030 then 24 else if a = 0x100E then 0x10
  else if a = 0x1014 ∨ a = 0x1038 then 1 else if a = 0x101E then 0x20 else if a = 0x1025 then 0x10
  else if a = 0x102C then 2 else 0

theorem initPhysMemMap_ends_threeEntryMap :
    ∃ fuel, (initPhysMemMap threeEntryMap ⟨76, 0x1000⟩ fuel .empty).isSome := by
  refine (initPhysMemMap_ends_iff (by decide) fits_empty fits_empty).mpr fun m n hmn hgoing hdvd => ?_
  have hend : wadd 0x1000 76 ≤ mmapPos threeEntryMap ⟨76, 0x1000⟩ 3 := by decide
  have hn : n < 3 := by
    by_contra hge
    exact absurd (hgoing 3 (by omega)) (Nat.not_lt.mpr hend)
  revert hdvd
  interval_cases n <;> interval_cases m <;> decide

/-- Entries that start in the map and do not reach beyond the address space are walked over. -/
theorem initPhysMemMap_ends_of_size (hwrap : mbi.mmapAddr + mbi.mmapLength < 2 ^ 32)
    (hm : b.memory.Fits) (hr : b.reserved.Fits)
    (hsize : ∀ addr < mbi.mmapAddr + mbi.mmapLength, addr + mmapStep mem addr < 2 ^ 32) :
    ∃ fuel, (initPhysMemMap mem mbi fuel b).isSome := by
  rw [exists_isSome_initPhysMemMap hm hr, wadd_of_lt hwrap]
  exact (Cursor.ends_iff_ne_zero (by omega) hsize).mpr fun n _ => Nat.succ_ne_zero _

/-- A map at `0x1000` of one entry, of size `0xFFFFFFFC`. -/
def standingMap : Memory := fun a =>
  if a = 0x1000 then 0xFC else if a = 0x1001 ∨ a = 0x1002 ∨ a = 0x1003 then 0xFF else 0

/-- **The walk stays at an entry of size `0xFFFFFFFC`.** -/
theorem initPhysMemMap_never_ends :
    ¬ ∃ fuel, (initPhysMemMap standingMap ⟨24, 0x1000⟩ fuel .empty).isSome := by
  have hstep : Cursor.next (2 ^ 32) (mmapStep standingMap) 0x1000 = 0x1000 := by decide
  have hpos : ∀ n, mmapPos standingMap ⟨24, 0x1000⟩ n = 0x1000 :=
    Function.iterate_fixed hstep
  rw [exists_isSome_initPhysMemMap fits_empty fits_empty]
  rintro ⟨n, hle⟩
  rw [hpos] at hle
  exact absurd hle (by decide)

end Auos
