import Auos.Paging.Boot

/-!
# The address space of the kernel

What the processor makes of a virtual address once `swapper_page_dir` is loaded: the walk through
the directory and the tables that the boot code, `remap_lower_memory` and `kmap` wrote.

## Main definitions

* `pageWalk` — the two-level walk of the processor
* `Layout.start` — memory when `swapper_page_dir` is loaded

## Main results

* `Layout.pageWalk_eq` — a kernel address is looked up in its entry of `kernel_page_tables`
* `directMap` — the direct map agrees with `phys_addr`, the window with the live mappings, and
  nothing else is mapped
-/

namespace Auos

/-- The physical address behind a virtual address, or `none` if it is not present. -/
def pageWalk (words : ℕ → ℕ) (cr3 v : ℕ) : Option ℕ :=
  let pde := words (pagePaddr cr3 + 4 * (v / 2 ^ 22))
  if IsPresent pde then
    let pte := words (pagePaddr pde + 4 * (v / 2 ^ 12 % 2 ^ 10))
    if IsPresent pte then some (pagePaddr pte + v % 2 ^ 12) else none
  else none

theorem entryOf_eq {v : ℕ} (hv : pageOffset ≤ v) (hlt : v < 2 ^ 32) :
    entryOf v = (v - 0xC0000000) / 2 ^ 12 := by
  rw [entryOf, wsub_of_le hv hlt]
  exact Nat.shiftRight_eq_div_pow _ 12

namespace Layout

variable (L : Layout)

/-- Memory when `remap_lower_memory` loads `cr3`. -/
def start (w : ℕ → ℕ) : ℕ → ℕ := L.remapLowerMemory (L.bootPageTables w)

theorem start_window (w : ℕ → ℕ) {i : ℕ} (hle : lowmemPageFrames ≤ i) (hi : i < kernelPageFrames) :
    L.start w (L.tables + 4 * i) = 0 := by
  rw [start, L.remap_tables _ hi, L.boot_window w hle hi]

section Run

variable {L} {w : ℕ → ℕ} {s : Kmap} {live : List Mapping}

/-- The entries of the directory, which no mapping changes. -/
theorem words_dir (h : Window L.tables (L.start w) s live) {k : ℕ} (hk : k < 1024) :
    s.words (L.swapperDir + 4 * k) = L.start w (L.swapperDir + 4 * k) := by
  have hteq := L.tables_eq
  have hseq := L.swapperDir_eq
  have := L.le_bss; have := L.tables_mem; have := L.swapper_mem; have := L.tables_swapper
  refine h.frame _ ?_
  intro i hle hi
  have hi' : i < 0x40000 := hi
  omega

/-- The entries of the direct map, which no mapping changes. -/
theorem pte_directMap (h : Window L.tables (L.start w) s live) {i : ℕ} (hi : i < lowmemPageFrames) :
    s.pte L.tables i = i * 4096 + 3 := by
  have hi' : i < kernelPageFrames := hi.trans (show (0x38000 : ℕ) < 0x40000 by decide)
  have hframe : s.words (L.tables + 4 * i) = L.start w (L.tables + 4 * i) :=
    h.frame _ fun j hle _ => by omega
  rw [Kmap.pte, hframe, start, L.remap_tables _ hi', L.boot_tables w hi]

theorem pagePaddr_swapperDir : pagePaddr L.swapperDir = L.swapperDir := by
  have hseq := L.swapperDir_eq
  have := L.le_bss; have := L.bss_le; have := L.swapper_mem; have := L.swapper_mod
  rw [pagePaddr_eq (by omega)]
  omega

/-- Nothing below the kernel is mapped. -/
theorem pageWalk_user (h : Window L.tables (L.start w) s live) {v : ℕ} (hv : v < pageOffset) :
    pageWalk s.words L.swapperDir v = none := by
  have hv' : v < 0xC0000000 := hv
  have hk : v / 2 ^ 22 < 0x300 := by omega
  have hpde : s.words (L.swapperDir + 4 * (v / 2 ^ 22)) = 0 := by
    rw [words_dir h (by omega), start, L.remap_swapperDir_low _ hk, L.boot_swapperDir w (by omega)]
  rw [pageWalk, pagePaddr_swapperDir, hpde]
  exact if_neg not_isPresent_zero

/-- **A kernel address** is looked up in its entry of `kernel_page_tables`. -/
theorem pageWalk_eq (h : Window L.tables (L.start w) s live) {v : ℕ} (hv : pageOffset ≤ v)
    (hlt : v < 2 ^ 32) :
    pageWalk s.words L.swapperDir v =
      if IsPresent (s.pte L.tables (entryOf v)) then
        some (pagePaddr (s.pte L.tables (entryOf v)) + v % 2 ^ 12)
      else none := by
  have hv' : 0xC0000000 ≤ v := hv
  have hteq := L.tables_eq
  have := L.le_bss; have := L.bss_le; have := L.tables_mem; have := L.tables_mod
  have hentry := entryOf_eq hv hlt
  obtain ⟨k, hk⟩ : ∃ k, v / 2 ^ 22 = 0x300 + k := ⟨v / 2 ^ 22 - 0x300, by omega⟩
  have hk' : k < kernelPageDirs := show k < 0x100 by omega
  have hpde : s.words (L.swapperDir + 4 * (v / 2 ^ 22)) = L.tables + k * 4096 + 3 := by
    rw [words_dir h (by omega), start, hk,
      show L.swapperDir + 4 * (0x300 + k) = L.swapperDir + 0xC00 + 4 * k by omega,
      L.remap_swapperDir _ hk', L.boot_initialDir w hk']
  have hpresent : IsPresent (L.tables + k * 4096 + 3) := by
    rw [isPresent_iff]
    omega
  have htable : pagePaddr (L.tables + k * 4096 + 3) = L.tables + k * 4096 := by
    rw [pagePaddr_eq (by omega)]
    omega
  have haddr : L.tables + k * 4096 + 4 * (v / 2 ^ 12 % 2 ^ 10) = L.tables + 4 * entryOf v := by
    rw [hentry]
    omega
  rw [pageWalk, pagePaddr_swapperDir, hpde]
  dsimp only
  rw [if_pos hpresent, htable, haddr]
  rfl

/-- The direct map. -/
theorem pageWalk_directMap (h : Window L.tables (L.start w) s live) {v : ℕ} (hv : pageOffset ≤ v)
    (hlt : v < kmapOffset) : pageWalk s.words L.swapperDir v = some (physAddr v) := by
  have hv' : 0xC0000000 ≤ v := hv
  have hlt' : v < 0xF8000000 := hlt
  have hentry := entryOf_eq hv (by omega)
  have hi : entryOf v < lowmemPageFrames := show entryOf v < 0x38000 by omega
  have hpresent : IsPresent (entryOf v * 4096 + 3) := by
    rw [isPresent_iff]
    omega
  rw [pageWalk_eq h hv (by omega), pte_directMap h hi, if_pos hpresent, pagePaddr_eq (by omega),
    physAddr_of_le hv (by omega)]
  exact congrArg some (by omega)

/-- The page of a mapping and its entry of the table. -/
theorem entryOf_eq_iff {m : Mapping} (hm : m.Holds L.tables s) {v : ℕ} (hv : kmapOffset ≤ v)
    (hlt : v < 2 ^ 32) : entryOf m.ptr = entryOf v ↔ m.ptr ≤ v ∧ v < m.ptr + pageSize := by
  have hv' : 0xF8000000 ≤ v := hv
  have hptr : m.ptr = 0xC0000000 + entryOf m.ptr * 2 ^ 12 := hm.ptr
  have hentry := entryOf_eq (show 0xC0000000 ≤ v by omega) hlt
  show _ ↔ m.ptr ≤ v ∧ v < m.ptr + 4096
  omega

/-- The window: the frame of the live mapping of the page, or nothing. -/
theorem pageWalk_window (h : Window L.tables (L.start w) s live) {v : ℕ} (hv : kmapOffset ≤ v)
    (hlt : v < 2 ^ 32) :
    (∃ m ∈ live, (m.ptr ≤ v ∧ v < m.ptr + pageSize) ∧
      pageWalk s.words L.swapperDir v = some (pagePaddr m.paddr + v % 2 ^ 12)) ∨
    (∀ m ∈ live, ¬(m.ptr ≤ v ∧ v < m.ptr + pageSize)) ∧
      pageWalk s.words L.swapperDir v = none := by
  have hv' : 0xF8000000 ≤ v := hv
  have hkernel : pageOffset ≤ v := show 0xC0000000 ≤ v by omega
  have hentry := entryOf_eq hkernel hlt
  rw [pageWalk_eq h hkernel hlt]
  by_cases hlive : ∃ m ∈ live, entryOf m.ptr = entryOf v
  · obtain ⟨m, hm, he⟩ := hlive
    have hmap := h.holds m hm
    refine Or.inl ⟨m, hm, (entryOf_eq_iff hmap hv hlt).mp he, ?_⟩
    rw [← he, if_pos hmap.isPresent, hmap.pte, pagePaddr_createTableEntry hmap.paddr]
  · push Not at hlive
    refine Or.inr ⟨?_, ?_⟩
    · intro m hm hpage
      exact hlive m hm ((entryOf_eq_iff (h.holds m hm) hv hlt).mpr hpage)
    · have hle : lowmemPageFrames ≤ entryOf v := show 0x38000 ≤ entryOf v by omega
      have hend : entryOf v < kernelPageFrames := show entryOf v < 0x40000 by omega
      rw [h.empty _ hle hend hlive]
      exact if_neg not_isPresent_zero

end Run

end Layout

/-- **The address space**: after the boot code, `remap_lower_memory` and any run of `kmap` and
`kunmap` in the window, nothing below `PAGE_OFFSET` is mapped, an address of the direct map is mapped
to its `phys_addr`, and an address of the window to the frame of the live mapping of its page, or
nowhere. -/
theorem directMap (L : Layout) (w : ℕ → ℕ) {s : Kmap} {live : List Mapping}
    (run : KmapRun L.tables HasRoom (L.start w) s live) :
    (∀ v < pageOffset, pageWalk s.words (physAddr L.swapperPageDir) v = none) ∧
    (∀ v, pageOffset ≤ v → v < kmapOffset →
      pageWalk s.words (physAddr L.swapperPageDir) v = some (physAddr v)) ∧
    ∀ v, kmapOffset ≤ v → v < 2 ^ 32 →
      (∃ m ∈ live, (m.ptr ≤ v ∧ v < m.ptr + pageSize) ∧
        pageWalk s.words (physAddr L.swapperPageDir) v = some (pagePaddr m.paddr + v % 2 ^ 12)) ∨
      (∀ m ∈ live, ¬(m.ptr ≤ v ∧ v < m.ptr + pageSize)) ∧
        pageWalk s.words (physAddr L.swapperPageDir) v = none := by
  have hw := run.window fun _ _ _ hroom => hroom
  exact ⟨fun v hv => Layout.pageWalk_user hw hv,
    fun v hv hlt => Layout.pageWalk_directMap hw hv hlt,
    fun v hv hlt => Layout.pageWalk_window hw hv hlt⟩

/-- A placement of the tables at the start of the section. -/
def sampleLayout : Layout where
  bssBegin := 0xC0200000
  bssEnd := 0xC0302000
  kernelPageTables := 0xC0200000
  initialPageDir := 0xC0300000
  swapperPageDir := 0xC0301000
  le_bss := by decide
  bss_le := by decide
  bss_mod := by decide
  bssEnd_mod := by decide
  tables_mod := by decide
  initial_mod := by decide
  swapper_mod := by decide
  tables_mem := by decide
  initial_mem := by decide
  swapper_mem := by decide
  tables_initial := by decide
  tables_swapper := by decide
  initial_swapper := by decide

/-- The text of the console, while the registers of an IO APIC are mapped. -/
theorem directMap_console : ∃ s live,
    KmapRun sampleLayout.tables HasRoom (sampleLayout.start fun _ => 0) s live ∧
      live.length = 1 ∧ pageWalk s.words (physAddr sampleLayout.swapperPageDir) 0xC00B8000 =
        some (physAddr 0xC00B8000) := by
  have run : KmapRun sampleLayout.tables HasRoom (sampleLayout.start fun _ => 0)
      ⟨sampleLayout.start fun _ => 0, lowmemPageFrames⟩ [] :=
    .start fun i hle hi => sampleLayout.start_window _ hle hi
  have hhigh : kmapOffset - pageOffset ≤ 0xFEC00000 := by decide
  have hroom : HasRoom ⟨sampleLayout.start fun _ => 0, lowmemPageFrames⟩ [] :=
    show (0x38000 : ℕ) < 0x40000 by decide
  have run' := run.map 2 hhigh (by decide) hroom
  exact ⟨_, _, run', rfl, (directMap sampleLayout _ run').2.1 0xC00B8000 (by decide) (by decide)⟩

end Auos
