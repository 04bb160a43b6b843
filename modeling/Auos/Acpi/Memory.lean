import Auos.Paging.Walk

/-!
# Memory behind the page tables

The firmware names its tables by physical address, and the kernel reads them at `virt_addr`. What it
finds there is up to the page tables: `kernelMemory` is the memory that the processor sees once
`swapper_page_dir` is loaded and before anything is mapped in the window. A read of an address that is
not mapped is a page fault and is `none`.

Physical memory is addressed with 32 bits.

## Main definitions

* `VirtualMemory`, `loadLE`, `memcmp` — reading through the page tables
* `kernelMemory` — the memory that the kernel sees

## Main results

* `kernelMemory_virtAddr` — `virt_addr` reaches the memory below `KMAP_OFFSET - PAGE_OFFSET` only
* `loadLE_virtAddr` — reading bytes at a physical address
-/

namespace Auos

/-- The byte at each virtual address, or `none` where nothing is mapped. -/
abbrev VirtualMemory := ℕ → Option UInt8

/-- The end of the physical memory in the direct map, `KMAP_OFFSET - PAGE_OFFSET`. -/
abbrev lowmemEnd : ℕ := kmapOffset - pageOffset

/-- The unsigned integer stored in the `n` bytes from `addr` on, lowest byte first. -/
def loadLE (mem : VirtualMemory) (addr : ℕ) : ℕ → Option ℕ
  | 0 => some 0
  | n + 1 => do
    let byte ← mem addr
    let rest ← loadLE mem (wadd addr 1) n
    some (byte.toNat + 256 * rest)

/-- The loop of `memcmp` with `n` rounds left, on the bytes that two pointers find at the offset
`i`. -/
def memcmpLoop (l r : ℕ → Option UInt8) : ℕ → ℕ → Option ℤ
  | 0, _ => some 0
  | n + 1, i => do
    let x ← l i
    let y ← r i
    if x ≠ y then some (x.toBitVec.toInt - y.toBitVec.toInt) else memcmpLoop l r n (i + 1)

/-- The rounds that `memcmp` makes for a left pointer `l`: none if `l + size` wraps. -/
def memcmpRounds (l size : ℕ) : ℕ := if l < wadd l size then size else 0

/-- The bytes at a pointer. -/
def bytesAt (mem : VirtualMemory) (ptr i : ℕ) : Option UInt8 := mem (wadd ptr i)

/-- The bytes of a constant of the program. -/
def bytesOf (text : ℕ → UInt8) (i : ℕ) : Option UInt8 := some (text i)

/-- The memory that the kernel sees when `swapper_page_dir` is loaded. -/
def kernelMemory (L : Layout) (w : ℕ → ℕ) (phys : Memory) : VirtualMemory := fun v =>
  (pageWalk (L.start w) (physAddr L.swapperPageDir) v).map phys

variable {L : Layout} {w : ℕ → ℕ} {phys : Memory} {x n i : ℕ}

/-! ### Addresses -/

theorem virtAddr_of_lt (h : x < lowmemEnd) : virtAddr x = x + 0xC0000000 := by
  have h' : x < 0x38000000 := h
  exact wadd_of_lt (show x + 0xC0000000 < 2 ^ 32 by omega)

theorem wadd_virtAddr (x i : ℕ) : wadd (virtAddr x) i = virtAddr (wadd x i) := by
  unfold virtAddr wadd wrap
  omega

/-- Page tables without a mapping in the window. -/
theorem exists_window_nil {tables : ℕ} {words : ℕ → ℕ}
    (hzero : ∀ i, lowmemPageFrames ≤ i → i < kernelPageFrames → words (tables + 4 * i) = 0) :
    ∃ s : Kmap, s.words = words ∧ Window tables words s [] :=
  ⟨⟨words, lowmemPageFrames⟩, rfl, window_start hzero⟩

/-- **Where `virt_addr` of a physical address is mapped**: at the address, if it is in the direct map,
and nowhere otherwise. -/
theorem Layout.pageWalk_virtAddr (L : Layout) (w : ℕ → ℕ) (hx : x < 2 ^ 32) :
    pageWalk (L.start w) (physAddr L.swapperPageDir) (virtAddr x) =
      if x < lowmemEnd then some x else none := by
  obtain ⟨s, hwords, hwindow⟩ := exists_window_nil fun _ hle hi => L.start_window w hle hi
  have hdir : physAddr L.swapperPageDir = L.swapperDir := rfl
  rw [hdir, ← hwords]
  by_cases hlow : x < lowmemEnd
  · have hlow' : x < 0x38000000 := hlow
    have hphys : physAddr (x + 0xC0000000) = x := by
      rw [physAddr_of_le (by omega) (by omega), Nat.add_sub_cancel]
    have hwalk := Layout.pageWalk_directMap hwindow (Nat.le_add_left 0xC0000000 x)
      (show x + 0xC0000000 < 0xF8000000 by omega)
    rw [if_pos hlow, virtAddr_of_lt hlow, hwalk, hphys]
  rw [if_neg hlow]
  have hhigh : 0x38000000 ≤ x := Nat.le_of_not_lt hlow
  by_cases hwrap : x + 0xC0000000 < 2 ^ 32
  · -- the pointer is in the window, which is empty
    have hvirt : virtAddr x = x + 0xC0000000 := wadd_of_lt hwrap
    have hcases := Layout.pageWalk_window hwindow (show 0xF8000000 ≤ x + 0xC0000000 by omega) hwrap
    rw [hvirt]
    rcases hcases with ⟨m, hm, -⟩ | ⟨-, hnone⟩
    · cases hm
    · exact hnone
  · -- the sum wraps, and the pointer is below the kernel
    have hvirt : virtAddr x < 0xC0000000 := by
      unfold virtAddr wadd wrap
      show (x + 0xC0000000) % 2 ^ 32 < 0xC0000000
      omega
    exact Layout.pageWalk_user hwindow hvirt

/-- The byte that the kernel finds at `virt_addr` of a physical address. -/
theorem kernelMemory_virtAddr (hx : x < 2 ^ 32) :
    kernelMemory L w phys (virtAddr x) = if x < lowmemEnd then some (phys x) else none := by
  rw [kernelMemory, L.pageWalk_virtAddr w hx]
  split <;> rfl

/-! ### Reading -/

/-- The `n` bytes from the physical address `x` on are in the direct map. -/
def InLowmem (x n : ℕ) : Prop := ∀ k < n, wadd x k < lowmemEnd

theorem inLowmem_of_le (h : x + n ≤ lowmemEnd) : InLowmem x n := by
  intro k hk
  have h' : x + n ≤ 0x38000000 := h
  rw [wadd_of_lt (by omega)]
  omega

theorem inLowmem_succ (hx : x < 2 ^ 32) :
    InLowmem x (n + 1) ↔ x < lowmemEnd ∧ InLowmem (wadd x 1) n := by
  constructor
  · intro h
    refine ⟨?_, ?_⟩
    · have hzero := h 0 (Nat.succ_pos n)
      rwa [wadd_zero hx] at hzero
    · intro k hk
      rw [wadd_wadd, Nat.add_comm]
      exact h (k + 1) (Nat.succ_lt_succ hk)
  · rintro ⟨hzero, hrest⟩ k hk
    cases k with
    | zero => rwa [wadd_zero hx]
    | succ k =>
      have hnext := hrest k (Nat.lt_of_succ_lt_succ hk)
      rwa [wadd_wadd, Nat.add_comm] at hnext

instance (x n : ℕ) : Decidable (InLowmem x n) := by unfold InLowmem; infer_instance

/-- **Reading an integer at a physical address**: a page fault unless all its bytes are in the direct
map. -/
theorem loadLE_virtAddr (hx : x < 2 ^ 32) (n : ℕ) :
    loadLE (kernelMemory L w phys) (virtAddr x) n =
      if InLowmem x n then some (readLE phys x n) else none := by
  induction n generalizing x with
  | zero => simp [loadLE, readLE, InLowmem]
  | succ n ih =>
    rw [loadLE, kernelMemory_virtAddr hx, wadd_virtAddr, ih (wadd_lt x 1)]
    simp only [inLowmem_succ hx, readLE]
    by_cases hlow : x < lowmemEnd
    · by_cases hrest : InLowmem (wadd x 1) n
      · simp [hlow, hrest]
      · simp [hlow, hrest]
    · simp [hlow]

/-! ### Comparing -/

section Compare

variable {l r : ℕ → Option UInt8}

/-- Both pointers find the same byte at the offset `i`. -/
def AgreeAt (l r : ℕ → Option UInt8) (i : ℕ) : Prop := ∃ b, l i = some b ∧ r i = some b

/-- One round of `memcmp`. -/
theorem memcmpLoop_succ {x y : UInt8} (hl : l i = some x) (hr : r i = some y) :
    memcmpLoop l r (n + 1) i =
      if x ≠ y then some (x.toBitVec.toInt - y.toBitVec.toInt) else memcmpLoop l r n (i + 1) := by
  rw [memcmpLoop, hl, hr]
  rfl

/-- The difference of two different characters is not zero. -/
theorem toInt_sub_ne_zero {x y : UInt8} (h : x ≠ y) : x.toBitVec.toInt - y.toBitVec.toInt ≠ 0 := by
  intro hzero
  have heq : x.toBitVec = y.toBitVec := BitVec.eq_of_toInt_eq (by omega)
  exact h (UInt8.toBitVec_inj.mp heq)

/-- `memcmp` returns zero exactly if all bytes agree. -/
theorem memcmpLoop_eq_zero_iff :
    memcmpLoop l r n i = some 0 ↔ ∀ k < n, AgreeAt l r (i + k) := by
  induction n generalizing i with
  | zero => simp [memcmpLoop]
  | succ n ih =>
    have hsplit : (∀ k < n + 1, AgreeAt l r (i + k)) ↔
        AgreeAt l r i ∧ ∀ k < n, AgreeAt l r (i + 1 + k) := by
      rw [Nat.forall_lt_succ_left]
      simp only [Nat.add_zero, Nat.add_assoc, Nat.add_comm 1]
    rw [hsplit, ← ih]
    cases hl : l i with
    | none => simp [memcmpLoop, AgreeAt, hl]
    | some x =>
      cases hr : r i with
      | none => simp [memcmpLoop, AgreeAt, hl, hr]
      | some y =>
        rw [memcmpLoop_succ hl hr]
        by_cases hxy : x = y
        · simp [AgreeAt, hl, hr, hxy]
        · have hne := toInt_sub_ne_zero hxy
          have hyx : ¬ y = x := fun heq => hxy heq.symm
          simp [AgreeAt, hl, hr, hxy, hyx, hne]

/-- `memcmp` faults exactly if it comes to a byte that is not mapped: all bytes before it agree. -/
theorem memcmpLoop_eq_none_iff :
    memcmpLoop l r n i = none ↔
      ∃ k < n, (l (i + k) = none ∨ r (i + k) = none) ∧ ∀ m < k, AgreeAt l r (i + m) := by
  induction n generalizing i with
  | zero => simp [memcmpLoop]
  | succ n ih =>
    have hsplit : (∃ k < n + 1, (l (i + k) = none ∨ r (i + k) = none) ∧
          ∀ m < k, AgreeAt l r (i + m)) ↔
        (l i = none ∨ r i = none) ∨ AgreeAt l r i ∧ ∃ k < n,
          (l (i + 1 + k) = none ∨ r (i + 1 + k) = none) ∧ ∀ m < k, AgreeAt l r (i + 1 + m) := by
      rw [Nat.exists_lt_succ_left]
      simp only [Nat.forall_lt_succ_left, Nat.add_zero, Nat.add_assoc, Nat.add_comm 1]
      simp only [Nat.not_lt_zero, IsEmpty.forall_iff, implies_true, and_true]
      refine or_congr_right ⟨?_, ?_⟩
      · rintro ⟨k, hk, hnone, hfirst, hrest⟩
        exact ⟨hfirst, k, hk, hnone, hrest⟩
      · rintro ⟨hfirst, k, hk, hnone, hrest⟩
        exact ⟨k, hk, hnone, hfirst, hrest⟩
    rw [hsplit, ← ih]
    cases hl : l i with
    | none => simp [memcmpLoop, hl]
    | some x =>
      cases hr : r i with
      | none => simp [memcmpLoop, hl, hr]
      | some y =>
        rw [memcmpLoop_succ hl hr]
        by_cases hxy : x = y
        · simp [AgreeAt, hl, hr, hxy]
        · have hyx : ¬ y = x := fun heq => hxy heq.symm
          simp [AgreeAt, hl, hr, hxy, hyx]

end Compare

/-- The bytes at a physical address are those of `text`. -/
def TextAt (phys : Memory) (x : ℕ) (text : ℕ → UInt8) (n : ℕ) : Prop :=
  ∀ k < n, phys (wadd x k) = text k

/-- A byte that the kernel finds at `virt_addr` of a physical address. -/
theorem bytesAt_virtAddr (x i : ℕ) :
    bytesAt (kernelMemory L w phys) (virtAddr x) i =
      if wadd x i < lowmemEnd then some (phys (wadd x i)) else none := by
  rw [bytesAt, wadd_virtAddr, kernelMemory_virtAddr (wadd_lt x i)]

end Auos
