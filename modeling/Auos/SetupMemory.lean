import Auos.BootMem.Coverage

/-!
# The firmware's memory map

The kernel's `setup_memory.c`: `init_phys_mem_map` walks the memory map the boot loader left and adds
its entries to the boot allocator's tables, and `reserve_kernel_memory` reserves the kernel image. The
results of `boot_mem_add` and `boot_mem_reserve` are ignored, so a range a full table refuses is
dropped. `NothingLost` says when this does no harm.

The walk is cut off by `fuel`, since an entry may name any size and the loop need not end. For a map
of `n` entries of the usual size `n + 1` rounds are enough.

## Main definitions

* `initPhysMemMap`, `reserveKernelMemory` — the source
* `clipped` — the ranges a map asks for
* `refused`, `accepted`, `NothingLost` — what becomes of ranges added one after the other

## Main results

* `nothingLost_of_length_le` — few ranges are safe
* `initPhysMemMap_covers_iff` — the tables cover what the map says iff nothing is lost
* `initPhysMemMap_kernel_unreserved` — a map that leaves the kernel image unreserved
-/

namespace Auos

open BootMemType

/-! ### `setup_memory.c` -/

/-- `MULTIBOOT_AVAILABLE`. -/
abbrev multibootAvailable : ℕ := 1

/-- `struct multiboot_mmap_entry`. -/
structure MultibootMmapEntry where
  /-- The size of the rest of the entry. -/
  size : ℕ
  /-- The first address. -/
  addr : ℕ
  /-- The length in bytes. -/
  len : ℕ
  /-- `MULTIBOOT_AVAILABLE` or some other value. -/
  type : ℕ
  deriving DecidableEq

/-- The fields of `struct multiboot_info` that name the memory map. -/
structure MultibootInfo where
  /-- `mmap_length`. -/
  mmapLength : ℕ
  /-- `mmap_addr`. -/
  mmapAddr : ℕ

/-- The packed entry at an address. -/
def readMmapEntry (mem : Memory) (addr : ℕ) : MultibootMmapEntry where
  size := readLE mem addr 4
  addr := readLE mem (wadd addr 4) 8
  len := readLE mem (wadd addr 12) 8
  type := readLE mem (wadd addr 20) 4

/-- The state of `setup_memory.c`: the boot allocator and the two counts. -/
structure SetupMemory where
  /-- `boot_mem`. -/
  bootMem : BootMem
  /-- `page_frame_count`. -/
  pageFrameCount : ℕ
  /-- `lowmem_page_frame_count`. -/
  lowmemPageFrameCount : ℕ

/-- The loop of `init_phys_mem_map`, cut off after `fuel` rounds: the boot allocator and
`phys_mem_size`. The end of an entry is computed with 64 bits. -/
def initPhysMemMapLoop (mem : Memory) (mmapEnd : ℕ) : ℕ → ℕ → BootMem → ℕ → Option (BootMem × ℕ)
  | 0, _, _, _ => none
  | fuel + 1, mmapEntry, bootMem, physMemSize =>
    if mmapEntry < mmapEnd then
      let entry := readMmapEntry mem mmapEntry
      let mmapEntry := wadd mmapEntry (wadd entry.size 4)
      if entry.addr > physMemMax then
        initPhysMemMapLoop mem mmapEnd fuel mmapEntry bootMem physMemSize
      else
        let beginAddr := wrap entry.addr
        let endAddr := wrap (minu ((beginAddr + entry.len) % 2 ^ 64) physMemMax)
        if entry.type = multibootAvailable then do
          let physMemSize := if endAddr > physMemSize then endAddr else physMemSize
          let (_, bootMem) ← bootMemAdd bootMem beginAddr endAddr
          initPhysMemMapLoop mem mmapEnd fuel mmapEntry bootMem physMemSize
        else do
          let (_, bootMem) ← bootMemReserve bootMem beginAddr endAddr
          initPhysMemMapLoop mem mmapEnd fuel mmapEntry bootMem physMemSize
    else some (bootMem, physMemSize)

/-- `init_phys_mem_map`. -/
def initPhysMemMap (mem : Memory) (mbi : MultibootInfo) (fuel : ℕ) (bootMem : BootMem) :
    Option SetupMemory := do
  let mmapEnd := wadd mbi.mmapAddr mbi.mmapLength
  let (bootMem, physMemSize) ← initPhysMemMapLoop mem mmapEnd fuel mbi.mmapAddr bootMem 0
  let pageFrameCount := physMemSize >>> pageShift
  some ⟨bootMem, pageFrameCount, minu pageFrameCount lowmemPageFrames⟩

/-- `reserve_kernel_memory`, for a kernel linked at `[kernelBegin, kernelEnd)`. -/
def reserveKernelMemory (kernelBegin kernelEnd : ℕ) (s : SetupMemory) : Option SetupMemory := do
  let (_, bootMem) ← bootMemReserve s.bootMem (physAddr kernelBegin) (physAddr kernelEnd)
  some { s with bootMem }

/-! ### Ranges added one after the other -/

/-- The ranges a table refuses, each because the table is full when its turn comes. -/
def refused (capacity : ℕ) : List BootMemRange → List BootMemRange → List BootMemRange
  | _, [] => []
  | t, r :: rs =>
    match tableAdd capacity t r with
    | none => r :: refused capacity t rs
    | some t => refused capacity t rs

/-- The ranges a table does not refuse. -/
def accepted (capacity : ℕ) : List BootMemRange → List BootMemRange → List BootMemRange
  | _, [] => []
  | t, r :: rs =>
    match tableAdd capacity t r with
    | none => accepted capacity t rs
    | some t => r :: accepted capacity t rs

/-- The table after all of them. -/
def tableAddAll (capacity : ℕ) : List BootMemRange → List BootMemRange → List BootMemRange
  | t, [] => t
  | t, r :: rs => tableAddAll capacity ((tableAdd capacity t r).getD t) rs

/-- Whatever an initially empty table refuses is covered by the ranges it does not refuse. -/
def NothingLost (l : List BootMemRange) : Prop :=
  ∀ r ∈ refused bootMemRanges [] l, r.addrs ⊆ covered (accepted bootMemRanges [] l)

variable {capacity fuel n : ℕ} {t l : List BootMemRange} {r : BootMemRange} {b : BootMem}

theorem mem_refused_or_accepted : r ∈ l ↔ r ∈ refused capacity t l ∨ r ∈ accepted capacity t l := by
  induction l generalizing t with
  | nil => simp [refused, accepted]
  | cons a l ih =>
    rw [refused, accepted]
    cases htab : tableAdd capacity t a with
    | none => rw [List.mem_cons, List.mem_cons, ih, or_assoc]
    | some t' => rw [List.mem_cons, List.mem_cons, ih, or_left_comm]

/-- The table covers the ranges it did not refuse. -/
theorem covered_tableAddAll (h : Ordered t) :
    covered (tableAddAll capacity t l) = covered t ∪ covered (accepted capacity t l) := by
  induction l generalizing t with
  | nil => rw [tableAddAll, accepted, covered_nil, Set.union_empty]
  | cons a l ih =>
    rw [tableAddAll, accepted]
    cases htab : tableAdd capacity t a with
    | none => exact ih h
    | some t' =>
      obtain ⟨hord, hcov⟩ := tableAdd_spec h htab
      rw [Option.getD_some, ih hord, hcov, covered_cons, Set.union_assoc]

/-- A table covers all ranges added to it exactly when nothing is lost. -/
theorem covered_tableAddAll_eq_iff :
    covered (tableAddAll bootMemRanges [] l) = covered l ↔ NothingLost l := by
  have hcov : covered l =
      covered (refused bootMemRanges [] l) ∪ covered (accepted bootMemRanges [] l) := by
    ext x
    simp only [mem_covered, Set.mem_union, ← exists_or, ← or_and_right, ← mem_refused_or_accepted]
  rw [covered_tableAddAll ordered_nil, covered_nil, Set.empty_union, hcov, eq_comm,
    Set.union_eq_right]
  exact ⟨fun h r hr x hx => h ⟨r, hr, hx⟩, fun h x ⟨r, hr, hx⟩ => h r hr hx⟩

/-- A table grows by at most one range. -/
theorem length_tableAdd_le {t' : List BootMemRange} (h : tableAdd capacity t r = some t') :
    t'.length ≤ t.length + 1 := by
  by_cases hempty : r.endAddr ≤ r.beginAddr
  · rw [tableAdd, if_pos hempty] at h
    cases h
    exact Nat.le_succ _
  obtain ⟨pre, post, rfl, -, -, -, hcases⟩ := tableAdd_cases (not_le.mp hempty) h
  rcases hcases with ⟨post', hm, rfl⟩ | ⟨-, rfl⟩
  · obtain ⟨d, rest, rfl, -, ⟨rfl, -⟩ | ⟨n, rest, rfl, -, rfl⟩⟩ := tableMerge_cases hm
    · simp
    · simp
      omega
  · simp
    omega

/-- A table with room for one more range refuses none. -/
theorem tableAdd_ne_none (h : t.length < capacity) : tableAdd capacity t r ≠ none := by
  rw [tableAdd]
  split
  · simp
  · dsimp only
    split
    · simp
    · rw [if_neg h.ne]
      simp

theorem refused_eq_nil (h : t.length + l.length ≤ capacity) : refused capacity t l = [] := by
  induction l generalizing t with
  | nil => rfl
  | cons a l ih =>
    rw [List.length_cons] at h
    rw [refused]
    cases htab : tableAdd capacity t a with
    | none => exact absurd htab (tableAdd_ne_none (by omega))
    | some t' =>
      have hle := length_tableAdd_le htab
      exact ih (by omega)

/-- **Nothing is lost of at most `128` ranges.** -/
theorem nothingLost_of_length_le (h : l.length ≤ bootMemRanges) : NothingLost l := by
  have hnil : refused bootMemRanges [] l = [] := refused_eq_nil (by rwa [List.length_nil, Nat.zero_add])
  intro r hr
  rw [hnil] at hr
  cases hr

theorem tableAddAll_concat :
    tableAddAll capacity t (l ++ [r]) =
      (tableAdd capacity (tableAddAll capacity t l) r).getD (tableAddAll capacity t l) := by
  induction l generalizing t with
  | nil => rfl
  | cons a l ih => exact ih

/-- A range that lies beyond the whole table goes to its end. -/
theorem tableAdd_of_endsBefore (hr : r.beginAddr < r.endAddr)
    (h : ∀ a ∈ t, a.endAddr < r.beginAddr) :
    tableAdd capacity t r = if t.length = capacity then none else some (t ++ [r]) := by
  have hall : ∀ a ∈ t, a.endsBefore r.beginAddr = true := fun a ha => by
    simpa [BootMemRange.endsBefore] using h a ha
  rw [tableAdd, if_neg (not_le.mpr hr), List.takeWhile_eq_self_iff.mpr hall,
    List.dropWhile_eq_nil_iff.mpr hall]
  rfl

/-- Ranges that come in order and do not touch fill the table up; the rest is refused. -/
theorem accepted_refused_of_separated (hlen : t.length ≤ capacity)
    (h : (t ++ l).Pairwise fun a c => a.endAddr < c.beginAddr)
    (hne : ∀ r ∈ l, r.beginAddr < r.endAddr) :
    accepted capacity t l = l.take (capacity - t.length) ∧
      refused capacity t l = l.drop (capacity - t.length) := by
  induction l generalizing t with
  | nil => simp [accepted, refused]
  | cons a l ih =>
    have hends : ∀ c ∈ t, c.endAddr < a.beginAddr := fun c hc =>
      (List.pairwise_append.mp h).2.2 c hc a List.mem_cons_self
    rw [accepted, refused, tableAdd_of_endsBefore (hne a List.mem_cons_self) hends]
    have hne' : ∀ r ∈ l, r.beginAddr < r.endAddr := fun r hr => hne r (List.mem_cons_of_mem _ hr)
    by_cases hfull : t.length = capacity
    · have hsub : (t ++ l).Sublist (t ++ a :: l) :=
        (List.Sublist.refl t).append (List.sublist_cons_self a l)
      obtain ⟨hacc, href⟩ := ih hlen (h.sublist hsub) hne'
      rw [if_pos hfull, hfull, Nat.sub_self]
      rw [hfull, Nat.sub_self] at hacc href
      exact ⟨hacc, congrArg (a :: ·) href⟩
    · have hlen' : (t ++ [a]).length ≤ capacity := by
        rw [List.length_append, List.length_singleton]
        omega
      obtain ⟨hacc, href⟩ := ih hlen' (by rwa [List.append_assoc]) hne'
      obtain ⟨m, hm⟩ := Nat.exists_eq_succ_of_ne_zero (show capacity - t.length ≠ 0 by omega)
      have hm' : capacity - (t ++ [a]).length = m := by
        rw [List.length_append, List.length_singleton]
        omega
      rw [hm'] at hacc href
      rw [if_neg hfull, hm]
      exact ⟨congrArg (a :: ·) hacc, href⟩

/-! ### What the map asks for -/

/-- The first `n` entries of the usual size from `addr` on. -/
def mmapEntries (mem : Memory) : ℕ → ℕ → List MultibootMmapEntry
  | _, 0 => []
  | addr, n + 1 => readMmapEntry mem addr :: mmapEntries mem (addr + 24) n

/-- A map of `n` entries of the usual size that fill its length, lies in the address space and whose
entries end within 64 bits. -/
structure WellFormedMap (mem : Memory) (mbi : MultibootInfo) (n : ℕ) : Prop where
  length_eq : mbi.mmapLength = 24 * n
  end_lt : mbi.mmapAddr + 24 * n < 2 ^ 32
  size_eq : ∀ e ∈ mmapEntries mem mbi.mmapAddr n, e.size = 20
  end_lt' : ∀ e ∈ mmapEntries mem mbi.mmapAddr n, e.addr + e.len < 2 ^ 64

/-- The part of an entry below `PHYS_MEM_MAX`. -/
def MultibootMmapEntry.range (e : MultibootMmapEntry) : BootMemRange :=
  ⟨e.addr, min (e.addr + e.len) physMemMax⟩

/-- The ranges of the available, or of the other entries. An entry that begins above `PHYS_MEM_MAX`
has none. -/
def clipped (available : Bool) (l : List MultibootMmapEntry) : List BootMemRange :=
  (l.filter fun e => decide (e.addr ≤ physMemMax) &&
    (decide (e.type = multibootAvailable) == available)).map MultibootMmapEntry.range

/-- The addresses below `PHYS_MEM_MAX` that lie in an available, or in another entry. -/
def claimed (available : Bool) (l : List MultibootMmapEntry) : Set ℕ :=
  {x | x < physMemMax ∧ ∃ e ∈ l, decide (e.type = multibootAvailable) = available ∧
    e.addr ≤ x ∧ x < e.addr + e.len}

theorem covered_clipped (available : Bool) (l : List MultibootMmapEntry) :
    covered (clipped available l) = claimed available l := by
  ext x
  simp only [clipped, claimed, mem_covered, List.mem_map, List.mem_filter, Bool.and_eq_true,
    decide_eq_true_eq, beq_iff_eq, Set.mem_ofPred_eq, BootMemRange.mem_addrs]
  constructor
  · rintro ⟨_, ⟨e, ⟨he, -, htype⟩, rfl⟩, h₁, h₂⟩
    have hlt := lt_min_iff.mp h₂
    exact ⟨hlt.2, e, he, htype, h₁, hlt.1⟩
  · rintro ⟨hx, e, he, htype, h₁, h₂⟩
    exact ⟨e.range, ⟨e, ⟨he, by omega, htype⟩, rfl⟩, h₁, lt_min h₂ hx⟩

section Clipped

variable {e : MultibootMmapEntry} {available : Bool} {es : List MultibootMmapEntry}

theorem clipped_cons_of_gt (h : e.addr > physMemMax) :
    clipped available (e :: es) = clipped available es := by
  simp [clipped, not_le.mpr h]

theorem clipped_cons_self (h : ¬ e.addr > physMemMax)
    (htype : decide (e.type = multibootAvailable) = available) :
    clipped available (e :: es) = e.range :: clipped available es := by
  simp [clipped, not_lt.mp h, htype]

theorem clipped_cons_other (htype : decide (e.type = multibootAvailable) ≠ available) :
    clipped available (e :: es) = clipped available es := by
  simp [clipped, htype]

end Clipped

/-! ### The walk -/

theorem exists_bootMemAddRange {t : BootMemType capacity} (h : t.Fits) (r : BootMemRange) :
    ∃ ret t', bootMemAddRange t r.beginAddr r.endAddr = some (ret, t') ∧ t'.Fits ∧
      t'.contents = (tableAdd capacity t.contents r).getD t.contents := by
  rcases bootMemAddRange_eq h r.beginAddr r.endAddr with ⟨t', hret, hf, hadd⟩ | ⟨hret, hadd⟩
  · exact ⟨0, t', hret, hf, by rw [show tableAdd capacity t.contents r = _ from hadd]; rfl⟩
  · exact ⟨-1, t, hret, h, by rw [show tableAdd capacity t.contents r = _ from hadd]; rfl⟩

/-- One round, over an entry of the usual size that ends within 64 bits: nothing wraps. -/
theorem initPhysMemMapLoop_round {mem : Memory} {addr mmapEnd size : ℕ} {e : MultibootMmapEntry}
    (hentry : readMmapEntry mem addr = e) (hlt : addr < mmapEnd) (hwrap : addr + 24 < 2 ^ 32)
    (hsize : e.size = 20) (hlen : e.addr + e.len < 2 ^ 64) :
    initPhysMemMapLoop mem mmapEnd (fuel + 1) addr b size =
      if e.addr > physMemMax then initPhysMemMapLoop mem mmapEnd fuel (addr + 24) b size
      else if e.type = multibootAvailable then
        (bootMemAdd b e.range.beginAddr e.range.endAddr).bind fun a =>
          initPhysMemMapLoop mem mmapEnd fuel (addr + 24) a.2 (max size e.range.endAddr)
      else
        (bootMemReserve b e.range.beginAddr e.range.endAddr).bind fun a =>
          initPhysMemMapLoop mem mmapEnd fuel (addr + 24) a.2 size := by
  have hnext : wadd addr (wadd e.size 4) = addr + 24 := by
    rw [hsize, wadd_of_lt (show 20 + 4 < 2 ^ 32 by decide), wadd_of_lt hwrap]
  rw [initPhysMemMapLoop, if_pos hlt, hentry]
  dsimp only
  rw [hnext]
  by_cases habove : e.addr > physMemMax
  · rw [if_pos habove, if_pos habove]
  have hmaxVal : physMemMax = 2 ^ 32 - 1 := rfl
  have hbegin : wrap e.addr = e.range.beginAddr := wrap_of_lt (by omega)
  have hendAddr : wrap (minu ((e.range.beginAddr + e.len) % 2 ^ 64) physMemMax) =
      e.range.endAddr := by
    rw [minu_eq, show e.range.beginAddr = e.addr from rfl, Nat.mod_eq_of_lt hlen]
    exact wrap_of_lt (by omega)
  have hmax : (if e.range.endAddr > size then e.range.endAddr else size) =
      max size e.range.endAddr := by
    split <;> omega
  rw [if_neg habove, if_neg habove, hbegin, hendAddr, hmax]
  rfl

/-- `n + 1` rounds walk over `n` entries; every entry goes to the table of its kind. -/
theorem initPhysMemMapLoop_spec {mem : Memory} {addr size : ℕ}
    (hsize : ∀ e ∈ mmapEntries mem addr n, e.size = 20)
    (hlen : ∀ e ∈ mmapEntries mem addr n, e.addr + e.len < 2 ^ 64)
    (hend : addr + 24 * n < 2 ^ 32) (hfuel : n < fuel) (hm : b.memory.Fits)
    (hr : b.reserved.Fits) :
    ∃ b', initPhysMemMapLoop mem (addr + 24 * n) fuel addr b size =
        some (b', ((clipped true (mmapEntries mem addr n)).map (·.endAddr)).foldl max size) ∧
      b'.memory.Fits ∧ b'.reserved.Fits ∧
      b'.memory.contents = tableAddAll bootMemRanges b.memory.contents
        (clipped true (mmapEntries mem addr n)) ∧
      b'.reserved.contents = tableAddAll bootMemRanges b.reserved.contents
        (clipped false (mmapEntries mem addr n)) := by
  obtain ⟨fuel, rfl⟩ := Nat.exists_eq_succ_of_ne_zero (show fuel ≠ 0 by omega)
  induction n generalizing addr size b fuel with
  | zero =>
    refine ⟨b, ?_, hm, hr, rfl, rfl⟩
    rw [initPhysMemMapLoop, if_neg (by omega)]
    rfl
  | succ n ih =>
    obtain ⟨fuel, rfl⟩ := Nat.exists_eq_succ_of_ne_zero (show fuel ≠ 0 by omega)
    rw [mmapEntries] at hsize hlen ⊢
    generalize hentry : readMmapEntry mem addr = e at hsize hlen ⊢
    have hmem : e ∈ e :: mmapEntries mem (addr + 24) n := List.mem_cons_self
    rw [initPhysMemMapLoop_round hentry (by omega) (by omega) (hsize e hmem) (hlen e hmem),
      show addr + 24 * (n + 1) = addr + 24 + 24 * n by omega]
    have hrest := fun (b : BootMem) (size : ℕ) (hm : b.memory.Fits) (hr : b.reserved.Fits) =>
      @ih b (addr + 24) size (fun e he => hsize e (List.mem_cons_of_mem _ he))
        (fun e he => hlen e (List.mem_cons_of_mem _ he)) (by omega) hm hr fuel (by omega)
    by_cases habove : e.addr > physMemMax
    · rw [if_pos habove, clipped_cons_of_gt habove, clipped_cons_of_gt habove]
      exact hrest b size hm hr
    rw [if_neg habove]
    by_cases htype : e.type = multibootAvailable
    · obtain ⟨ret, t', hadd, hf, hcont⟩ := exists_bootMemAddRange hm e.range
      rw [if_pos htype, clipped_cons_self habove (by simp [htype]),
        clipped_cons_other (by simp [htype]), bootMemAdd, hadd]
      obtain ⟨b', hret, hm', hr', hmem', hres'⟩ := hrest { b with memory := t' }
        (max size e.range.endAddr) hf hr
      exact ⟨b', hret, hm', hr', by rw [hmem', hcont]; rfl, hres'⟩
    · obtain ⟨ret, t', hadd, hf, hcont⟩ := exists_bootMemAddRange hr e.range
      rw [if_neg htype, clipped_cons_other (by simp [htype]),
        clipped_cons_self habove (by simp [htype]), bootMemReserve, hadd]
      obtain ⟨b', hret, hm', hr', hmem', hres'⟩ := hrest { b with reserved := t' } size hm hf
      exact ⟨b', hret, hm', hr', hmem', by rw [hres', hcont]; rfl⟩

/-- The physical range of the kernel image. -/
def kernelRange (kernelBegin kernelEnd : ℕ) : BootMemRange :=
  ⟨physAddr kernelBegin, physAddr kernelEnd⟩

/-- The tables and the frame count after both functions. -/
theorem initPhysMemMap_spec {mem : Memory} {mbi : MultibootInfo} (h : WellFormedMap mem mbi n)
    (hfuel : n < fuel) (kernelBegin kernelEnd : ℕ) :
    ∃ s₀ s, initPhysMemMap mem mbi fuel .empty = some s₀ ∧
      reserveKernelMemory kernelBegin kernelEnd s₀ = some s ∧
      s.bootMem.memory.contents =
        tableAddAll bootMemRanges [] (clipped true (mmapEntries mem mbi.mmapAddr n)) ∧
      s.bootMem.reserved.contents = tableAddAll bootMemRanges []
        (clipped false (mmapEntries mem mbi.mmapAddr n) ++ [kernelRange kernelBegin kernelEnd]) ∧
      s.pageFrameCount =
        ((clipped true (mmapEntries mem mbi.mmapAddr n)).map (·.endAddr)).foldl max 0 >>>
          pageShift := by
  obtain ⟨b, hret, -, hr, hmem, hres⟩ := @initPhysMemMapLoop_spec fuel n .empty mem mbi.mmapAddr 0
    h.size_eq h.end_lt' h.end_lt hfuel fits_empty fits_empty
  obtain ⟨ret, t', hadd, -, hcont⟩ :=
    exists_bootMemAddRange hr (kernelRange kernelBegin kernelEnd)
  rw [BootMem.empty, contents_empty] at hmem hres
  generalize hsize : ((clipped true (mmapEntries mem mbi.mmapAddr n)).map (·.endAddr)).foldl max 0 =
    size at hret ⊢
  generalize hs₀ : SetupMemory.mk b (size >>> pageShift)
    (minu (size >>> pageShift) lowmemPageFrames) = s₀
  refine ⟨s₀, { s₀ with bootMem := { b with reserved := t' } }, ?_, ?_, hmem, ?_, by rw [← hs₀]⟩
  · rw [initPhysMemMap, h.length_eq, wadd_of_lt h.end_lt, hret, ← hs₀]
    rfl
  · have hb : s₀.bootMem = b := by rw [← hs₀]
    rw [reserveKernelMemory, bootMemReserve, hb, show bootMemAddRange b.reserved
      (physAddr kernelBegin) (physAddr kernelEnd) = some (ret, t') from hadd]
    rfl
  · rw [tableAddAll_concat, ← hres]
    exact hcont

/-- **The tables cover what the map says exactly when nothing is lost**: the memory table covers the
available entries below `PHYS_MEM_MAX`, the reserved table the other entries and the kernel image, and
`page_frames` is the largest end of an available entry in pages. -/
theorem initPhysMemMap_covers_iff {mem : Memory} {mbi : MultibootInfo} (h : WellFormedMap mem mbi n)
    (hfuel : n < fuel) (kernelBegin kernelEnd : ℕ) :
    ∃ s₀ s, initPhysMemMap mem mbi fuel .empty = some s₀ ∧
      reserveKernelMemory kernelBegin kernelEnd s₀ = some s ∧
      ((covered s.bootMem.memory.contents = claimed true (mmapEntries mem mbi.mmapAddr n) ∧
        covered s.bootMem.reserved.contents = claimed false (mmapEntries mem mbi.mmapAddr n) ∪
          Set.Ico (physAddr kernelBegin) (physAddr kernelEnd) ∧
        s.pageFrameCount =
          ((clipped true (mmapEntries mem mbi.mmapAddr n)).map (·.endAddr)).foldl max 0 >>>
            pageShift) ↔
      NothingLost (clipped true (mmapEntries mem mbi.mmapAddr n)) ∧
        NothingLost (clipped false (mmapEntries mem mbi.mmapAddr n) ++
          [kernelRange kernelBegin kernelEnd])) := by
  obtain ⟨s₀, s, h₀, h₁, hmem, hres, hcount⟩ := initPhysMemMap_spec h hfuel kernelBegin kernelEnd
  refine ⟨s₀, s, h₀, h₁, ?_⟩
  have hkernel : claimed false (mmapEntries mem mbi.mmapAddr n) ∪
      Set.Ico (physAddr kernelBegin) (physAddr kernelEnd) =
      covered (clipped false (mmapEntries mem mbi.mmapAddr n) ++
        [kernelRange kernelBegin kernelEnd]) := by
    rw [covered_append, covered_clipped, covered_cons, covered_nil, Set.union_empty]
    rfl
  rw [hmem, hres, hkernel, ← covered_clipped, covered_tableAddAll_eq_iff,
    covered_tableAddAll_eq_iff]
  exact ⟨fun h => ⟨h.1, h.2.1⟩, fun h => ⟨h.1, h.2, hcount⟩⟩

/-! ### A map that fills the table -/

/-- A map of `128` entries at `0x9000`, none of which is available: the `i`-th covers `16` bytes from
`32 * i` on. -/
def fullMap : Memory := fun p =>
  let i := (p - 0x9000) / 24
  match (p - 0x9000) % 24 with
  | 0 => 20
  | 4 => UInt8.ofNat (32 * i)
  | 5 => UInt8.ofNat (32 * i / 256)
  | 12 => 16
  | 20 => 2
  | _ => 0

theorem mmapEntries_fullMap : mmapEntries fullMap 0x9000 128 =
    (List.range 128).map fun i => ⟨20, 32 * i, 16, 2⟩ := by
  decide +kernel

theorem wellFormedMap_fullMap : WellFormedMap fullMap ⟨24 * 128, 0x9000⟩ 128 where
  length_eq := rfl
  end_lt := by decide
  size_eq := by
    rw [mmapEntries_fullMap]
    simp
  end_lt' := by
    rw [mmapEntries_fullMap]
    simp only [List.mem_map, List.mem_range]
    rintro _ ⟨i, hi, rfl⟩
    dsimp only
    omega

theorem initPhysMemMap_covers_iff_fullMap : ∃ s₀ s,
    initPhysMemMap fullMap ⟨24 * 128, 0x9000⟩ 129 .empty = some s₀ ∧
    reserveKernelMemory 0xC0100000 0xC0200000 s₀ = some s ∧
    ((covered s.bootMem.memory.contents = claimed true (mmapEntries fullMap 0x9000 128) ∧
      covered s.bootMem.reserved.contents = claimed false (mmapEntries fullMap 0x9000 128) ∪
        Set.Ico (physAddr 0xC0100000) (physAddr 0xC0200000) ∧
      s.pageFrameCount =
        ((clipped true (mmapEntries fullMap 0x9000 128)).map (·.endAddr)).foldl max 0 >>>
          pageShift) ↔
    NothingLost (clipped true (mmapEntries fullMap 0x9000 128)) ∧
      NothingLost (clipped false (mmapEntries fullMap 0x9000 128) ++
        [kernelRange 0xC0100000 0xC0200000])) :=
  initPhysMemMap_covers_iff wellFormedMap_fullMap (by decide) _ _

/-- **The kernel image stays unreserved.** The map is well formed, its `128` separate ranges fill the
reserved table, and the call that should reserve the kernel at `0x100000` is refused. -/
theorem initPhysMemMap_kernel_unreserved : ∃ s₀ s,
    WellFormedMap fullMap ⟨24 * 128, 0x9000⟩ 128 ∧
    initPhysMemMap fullMap ⟨24 * 128, 0x9000⟩ 129 .empty = some s₀ ∧
    reserveKernelMemory 0xC0100000 0xC0200000 s₀ = some s ∧
    0x100000 ∈ Set.Ico (physAddr 0xC0100000) (physAddr 0xC0200000) ∧
    0x100000 ∉ covered s.bootMem.reserved.contents := by
  obtain ⟨s₀, s, h₀, h₁, -, hres, -⟩ :=
    initPhysMemMap_spec wellFormedMap_fullMap (show 128 < 129 by decide) 0xC0100000 0xC0200000
  refine ⟨s₀, s, wellFormedMap_fullMap, h₀, h₁, by decide, ?_⟩
  have hkernel : kernelRange 0xC0100000 0xC0200000 = ⟨0x100000, 0x200000⟩ := by decide
  have hclipped : clipped false (mmapEntries fullMap 0x9000 128) =
      (List.range 128).map fun i => ⟨32 * i, 32 * i + 16⟩ := by
    rw [mmapEntries_fullMap]
    decide +kernel
  have hsep : ((List.range 128).map (fun i => BootMemRange.mk (32 * i) (32 * i + 16)) ++
      [BootMemRange.mk 0x100000 0x200000]).Pairwise fun a c => a.endAddr < c.beginAddr := by
    refine List.pairwise_append.mpr ⟨?_, List.pairwise_singleton _ _, ?_⟩
    · rw [List.pairwise_map]
      exact List.pairwise_lt_range.imp fun {i j} hij => by dsimp only; omega
    · simp only [List.mem_map, List.mem_range, List.mem_singleton]
      rintro _ ⟨i, hi, rfl⟩ _ rfl
      dsimp only
      omega
  have hne : ∀ r ∈ (List.range 128).map (fun i => BootMemRange.mk (32 * i) (32 * i + 16)) ++
      [BootMemRange.mk 0x100000 0x200000], r.beginAddr < r.endAddr := by
    simp only [List.mem_append, List.mem_map, List.mem_range, List.mem_singleton]
    rintro _ (⟨i, hi, rfl⟩ | rfl)
    · exact Nat.lt_add_of_pos_right (by decide)
    · decide
  have hacc := (accepted_refused_of_separated (t := []) (Nat.zero_le bootMemRanges)
    (by rwa [List.nil_append]) hne).1
  rw [List.length_nil, Nat.sub_zero, List.take_left' (by simp)] at hacc
  rw [hres, hkernel, hclipped, covered_tableAddAll ordered_nil, hacc, covered_nil, Set.empty_union]
  rintro ⟨r, hr, hx⟩
  simp only [List.mem_map, List.mem_range] at hr
  obtain ⟨i, hi, rfl⟩ := hr
  have := (BootMemRange.mem_addrs.mp hx).2
  dsimp only at this
  omega

end Auos
