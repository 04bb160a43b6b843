import Auos.Paging.Kmap

/-!
# The page tables of the boot code

The loops of `_start` in `boot.S` that clear the `.bss` section, fill `kernel_page_tables` and fill
`initial_page_dir`, and `remap_lower_memory` of `setup_memory.c`. Memory is the double word at each
physical address. The symbols are placed by the linker; what the code needs of their places is a
field of `Layout`.

A loop instruction runs its body before it tests the count, and all counts are positive constants.

## Main definitions

* `stosLoop`, `fillPageDir`, `copyWords` — the loops
* `Layout` — where the linker put the tables
* `bootPageTables`, `remapLowerMemory`

## Main results

* `Layout.boot_tables`, `Layout.boot_window` — the tables map the frames in order, the window is empty
* `Layout.remap_swapperDir`, `Layout.remap_swapperDir_low` — the kernel half of `swapper_page_dir`
  lists the tables, the user half is empty
-/

namespace Auos

/-! ### `boot.h` and `asm/memory.h` -/

/-- `PTE_INIT_ATTR`. -/
abbrev pteInitAttr : ℕ := 3

/-- `PDE_INIT_ATTR`. -/
abbrev pdeInitAttr : ℕ := 3

/-- `LOWMEM_PAGE_DIR`. -/
abbrev lowmemPageDir : ℕ := 0x300

/-- `KERNEL_PAGE_DIRS`. -/
abbrev kernelPageDirs : ℕ := 0x100

/-! ### The loops -/

/-- `stosl` and `addl $step, %eax`, repeated `ecx` times. -/
def stosLoop (step : ℕ) : ℕ → ℕ → ℕ → (ℕ → ℕ) → ℕ → ℕ
  | 0, _, _, w => w
  | ecx + 1, edi, eax, w =>
    stosLoop step ecx (wadd edi 4) (wadd eax step) (Function.update w edi eax)

/-- `rep stosl`. -/
def repStosl (ecx edi eax : ℕ) (w : ℕ → ℕ) : ℕ → ℕ := stosLoop 0 ecx edi eax w

/-- The loop that fills the page tables. -/
def fillPageTables (ecx edi eax : ℕ) (w : ℕ → ℕ) : ℕ → ℕ := stosLoop pageSize ecx edi eax w

/-- The loop that fills the page directory, twice at once. -/
def fillPageDir : ℕ → ℕ → ℕ → (ℕ → ℕ) → ℕ → ℕ
  | 0, _, _, w => w
  | ecx + 1, edx, esi, w =>
    let eax := wadd esi pdeInitAttr
    let w := Function.update w edx eax
    let w := Function.update w (wadd edx (lowmemPageDir <<< 2)) eax
    fillPageDir ecx (wadd edx 4) (wadd esi pageSize) w

/-- `memcpy` of `n` double words. -/
def copyWords : ℕ → ℕ → ℕ → (ℕ → ℕ) → ℕ → ℕ
  | 0, _, _, w => w
  | n + 1, dst, src, w => copyWords n (wadd dst 4) (wadd src 4) (Function.update w dst (w src))

section Loops

variable {step n edi edx esi eax dst src a : ℕ} {w : ℕ → ℕ}

theorem stosLoop_of_notMem (hedi : edi + 4 * n < 2 ^ 32) (ha : ∀ i < n, a ≠ edi + 4 * i) :
    stosLoop step n edi eax w a = w a := by
  induction n generalizing edi eax w with
  | zero => rfl
  | succ n ih =>
    have h0 : a ≠ edi := ha 0 (by omega)
    rw [stosLoop, wadd_of_lt (by omega), ih (by omega), Function.update_of_ne h0]
    intro i hi
    have := ha (i + 1) (by omega)
    omega

theorem stosLoop_add (hedi : edi + 4 * n < 2 ^ 32) (heax : eax + step * n < 2 ^ 32) {i : ℕ}
    (hi : i < n) : stosLoop step n edi eax w (edi + 4 * i) = eax + step * i := by
  induction n generalizing edi eax w i with
  | zero => omega
  | succ n ih =>
    rw [Nat.mul_succ] at heax
    rw [stosLoop, wadd_of_lt (by omega), wadd_of_lt (by omega)]
    cases i with
    | zero =>
      rw [stosLoop_of_notMem (by omega) (by omega)]
      exact Function.update_self _ _ _
    | succ i =>
      rw [show edi + 4 * (i + 1) = edi + 4 + 4 * i by omega, ih (by omega) (by omega) (by omega),
        Nat.mul_succ]
      omega

theorem fillPageDir_of_notMem (hedx : edx + 0xC00 + 4 * n < 2 ^ 32)
    (ha : ∀ i < n, a ≠ edx + 4 * i ∧ a ≠ edx + 0xC00 + 4 * i) :
    fillPageDir n edx esi w a = w a := by
  induction n generalizing edx esi w with
  | zero => rfl
  | succ n ih =>
    obtain ⟨h0, h1⟩ := ha 0 (by omega)
    have hhigh : wadd edx (lowmemPageDir <<< 2) = edx + 0xC00 :=
      wadd_of_lt (show edx + 0xC00 < 2 ^ 32 by omega)
    rw [fillPageDir, wadd_of_lt (show edx + 4 < 2 ^ 32 by omega), hhigh, ih (by omega)]
    · rw [Function.update_of_ne (by omega), Function.update_of_ne (by omega)]
    intro i hi
    have := ha (i + 1) (by omega)
    omega

/-- The upper of the two directories. -/
theorem fillPageDir_add (hedx : edx + 0xC00 + 4 * n < 2 ^ 32) (hesi : esi + n * 4096 < 2 ^ 32)
    (hn : n ≤ 0x300) {i : ℕ} (hi : i < n) :
    fillPageDir n edx esi w (edx + 0xC00 + 4 * i) = esi + i * 4096 + 3 := by
  induction n generalizing edx esi w i with
  | zero => omega
  | succ n ih =>
    have hhigh : wadd edx (lowmemPageDir <<< 2) = edx + 0xC00 :=
      wadd_of_lt (show edx + 0xC00 < 2 ^ 32 by omega)
    have hnext : wadd esi pageSize = esi + 4096 :=
      wadd_of_lt (show esi + 4096 < 2 ^ 32 by omega)
    rw [fillPageDir, wadd_of_lt (show edx + 4 < 2 ^ 32 by omega), hhigh, hnext,
      wadd_of_lt (show esi + 3 < 2 ^ 32 by omega)]
    cases i with
    | zero =>
      rw [fillPageDir_of_notMem (by omega) (by omega)]
      exact Function.update_self _ _ _
    | succ i =>
      rw [show edx + 0xC00 + 4 * (i + 1) = edx + 4 + 0xC00 + 4 * i by omega,
        ih (by omega) (by omega) (by omega) (by omega)]
      omega

theorem copyWords_of_notMem (hdst : dst + 4 * n < 2 ^ 32) (ha : ∀ i < n, a ≠ dst + 4 * i) :
    copyWords n dst src w a = w a := by
  induction n generalizing dst src w with
  | zero => rfl
  | succ n ih =>
    have h0 : a ≠ dst := ha 0 (by omega)
    rw [copyWords, wadd_of_lt (by omega), ih (by omega), Function.update_of_ne h0]
    intro i hi
    have := ha (i + 1) (by omega)
    omega

/-- Copying between ranges that do not overlap. -/
theorem copyWords_add (hdst : dst + 4 * n < 2 ^ 32) (hsrc : src + 4 * n < 2 ^ 32)
    (hdisj : dst + 4 * n ≤ src ∨ src + 4 * n ≤ dst) {i : ℕ} (hi : i < n) :
    copyWords n dst src w (dst + 4 * i) = w (src + 4 * i) := by
  induction n generalizing dst src w i with
  | zero => omega
  | succ n ih =>
    rw [copyWords, wadd_of_lt (show dst + 4 < 2 ^ 32 by omega),
      wadd_of_lt (show src + 4 < 2 ^ 32 by omega)]
    cases i with
    | zero =>
      rw [copyWords_of_notMem (by omega) (by omega)]
      exact Function.update_self _ _ _
    | succ i =>
      rw [show dst + 4 * (i + 1) = dst + 4 + 4 * i by omega,
        ih (by omega) (by omega) (by omega) (by omega),
        show src + 4 + 4 * i = src + 4 * (i + 1) by omega]
      exact Function.update_of_ne (by omega) _ _

end Loops

/-! ### The linker's placement -/

/-- The addresses of the symbols. The `.bss` section and the tables in it are aligned to pages, the
section is in the direct map, and the tables do not overlap. -/
structure Layout where
  /-- `__bss_begin`. -/
  bssBegin : ℕ
  /-- `__bss_end`. -/
  bssEnd : ℕ
  /-- `kernel_page_tables`. -/
  kernelPageTables : ℕ
  /-- `initial_page_dir`. -/
  initialPageDir : ℕ
  /-- `swapper_page_dir`. -/
  swapperPageDir : ℕ
  /-- The section starts in the direct map. -/
  le_bss : 0xC0000000 ≤ bssBegin
  /-- The section ends in the direct map. -/
  bss_le : bssEnd ≤ 0xF8000000
  /-- The section starts at a page. -/
  bss_mod : bssBegin % 4096 = 0
  /-- The section ends at a page. -/
  bssEnd_mod : bssEnd % 4096 = 0
  /-- The page tables are aligned. -/
  tables_mod : kernelPageTables % 4096 = 0
  /-- The first directory is aligned. -/
  initial_mod : initialPageDir % 4096 = 0
  /-- The second directory is aligned. -/
  swapper_mod : swapperPageDir % 4096 = 0
  /-- The page tables are in the section. -/
  tables_mem : bssBegin ≤ kernelPageTables ∧ kernelPageTables + 0x100000 ≤ bssEnd
  /-- The first directory is in the section. -/
  initial_mem : bssBegin ≤ initialPageDir ∧ initialPageDir + 4096 ≤ bssEnd
  /-- The second directory is in the section. -/
  swapper_mem : bssBegin ≤ swapperPageDir ∧ swapperPageDir + 4096 ≤ bssEnd
  /-- The first directory is not in the tables. -/
  tables_initial : kernelPageTables + 0x100000 ≤ initialPageDir ∨
    initialPageDir + 4096 ≤ kernelPageTables
  /-- The second directory is not in the tables. -/
  tables_swapper : kernelPageTables + 0x100000 ≤ swapperPageDir ∨
    swapperPageDir + 4096 ≤ kernelPageTables
  /-- The directories are different. -/
  initial_swapper : initialPageDir + 4096 ≤ swapperPageDir ∨ swapperPageDir + 4096 ≤ initialPageDir

namespace Layout

variable (L : Layout)

/-- The physical address of `kernel_page_tables`. -/
def tables : ℕ := physAddr L.kernelPageTables

/-- The physical address of `initial_page_dir`. -/
def initialDir : ℕ := physAddr L.initialPageDir

/-- The physical address of `swapper_page_dir`. -/
def swapperDir : ℕ := physAddr L.swapperPageDir

/-- `_start`: clear the section, fill the page tables, fill the page directory. -/
def bootPageTables (w : ℕ → ℕ) : ℕ → ℕ :=
  let w := repStosl (wsub (physAddr L.bssEnd) (physAddr L.bssBegin) >>> 2) (physAddr L.bssBegin) 0 w
  let w := fillPageTables lowmemPageFrames L.tables pteInitAttr w
  fillPageDir kernelPageDirs L.initialDir L.tables w

/-- `remap_lower_memory`, before it loads `cr3`. -/
def remapLowerMemory (w : ℕ → ℕ) : ℕ → ℕ :=
  copyWords kernelPageDirs (wadd L.swapperDir (4 * lowmemPageDir))
    (wadd L.initialDir (4 * lowmemPageDir)) w

theorem physAddr_of_le {x : ℕ} (h : 0xC0000000 ≤ x) (hx : x < 2 ^ 32) :
    physAddr x = x - 0xC0000000 := wsub_of_le h hx

theorem tables_eq : L.tables = L.kernelPageTables - 0xC0000000 := by
  have := L.tables_mem; have := L.le_bss; have := L.bss_le
  exact physAddr_of_le (by omega) (by omega)

theorem initialDir_eq : L.initialDir = L.initialPageDir - 0xC0000000 := by
  have := L.initial_mem; have := L.le_bss; have := L.bss_le
  exact physAddr_of_le (by omega) (by omega)

theorem swapperDir_eq : L.swapperDir = L.swapperPageDir - 0xC0000000 := by
  have := L.swapper_mem; have := L.le_bss; have := L.bss_le
  exact physAddr_of_le (by omega) (by omega)

/-! ### After the boot code -/

/-- The section is cleared. -/
theorem clear (w : ℕ → ℕ) {a : ℕ} (hle : L.bssBegin ≤ a + 0xC0000000)
    (hlt : a + 4 + 0xC0000000 ≤ L.bssEnd) (ha : a % 4 = 0) :
    repStosl (wsub (physAddr L.bssEnd) (physAddr L.bssBegin) >>> 2) (physAddr L.bssBegin) 0 w a =
      0 := by
  have hbegin := L.le_bss
  have hend := L.bss_le
  have hmod := L.bss_mod
  have hcount : wsub (physAddr L.bssEnd) (physAddr L.bssBegin) >>> 2 =
      (L.bssEnd - L.bssBegin) / 4 := by
    rw [physAddr_of_le (by omega) (by omega), physAddr_of_le (by omega) (by omega),
      wsub_of_le (by omega) (by omega), Nat.shiftRight_eq_div_pow]
    omega
  rw [hcount, physAddr_of_le (by omega) (by omega), repStosl]
  obtain ⟨i, hi⟩ : ∃ i, a = L.bssBegin - 0xC0000000 + 4 * i :=
    ⟨(a - (L.bssBegin - 0xC0000000)) / 4, by omega⟩
  rw [hi, stosLoop_add (by omega) (by omega) (by omega)]
  omega

/-- The tables map the low frames in order. -/
theorem boot_tables (w : ℕ → ℕ) {i : ℕ} (hi : i < lowmemPageFrames) :
    L.bootPageTables w (L.tables + 4 * i) = i * 4096 + 3 := by
  have hi' : i < 0x38000 := hi
  have htables := L.tables_eq
  have hdir := L.initialDir_eq
  have := L.le_bss; have := L.bss_le; have := L.tables_mem; have := L.initial_mem
  have := L.tables_initial
  have hframes : lowmemPageFrames = 0x38000 := rfl
  have hdirs : kernelPageDirs = 0x100 := rfl
  have hvalue : pteInitAttr + pageSize * i = i * 4096 + 3 := by
    rw [show pageSize = 4096 from rfl, Nat.mul_comm]
    exact Nat.add_comm _ _
  have hbound : pteInitAttr + pageSize * lowmemPageFrames < 2 ^ 32 := by decide
  unfold bootPageTables
  rw [fillPageDir_of_notMem (by omega) (by omega), fillPageTables,
    stosLoop_add (by omega) hbound hi, hvalue]

/-- Everything else in the section but the two halves of the directory is cleared. -/
theorem boot_clear (w : ℕ → ℕ) {a : ℕ} (hle : L.bssBegin ≤ a + 0xC0000000)
    (hlt : a + 4 + 0xC0000000 ≤ L.bssEnd) (ha : a % 4 = 0)
    (hdir : a < L.initialDir ∨ L.initialDir + 4096 ≤ a)
    (htables : a < L.tables ∨ L.tables + 0xE0000 ≤ a) : L.bootPageTables w a = 0 := by
  have hteq := L.tables_eq
  have hdeq := L.initialDir_eq
  have := L.le_bss; have := L.bss_le; have := L.tables_mem; have := L.initial_mem
  have hframes : lowmemPageFrames = 0x38000 := rfl
  have hdirs : kernelPageDirs = 0x100 := rfl
  unfold bootPageTables
  rw [fillPageDir_of_notMem (by omega) (by omega), fillPageTables,
    stosLoop_of_notMem (by omega) (by omega), L.clear w hle hlt ha]

/-- The window for temporary mappings is empty. -/
theorem boot_window (w : ℕ → ℕ) {i : ℕ} (hle : lowmemPageFrames ≤ i) (hi : i < kernelPageFrames) :
    L.bootPageTables w (L.tables + 4 * i) = 0 := by
  have hle' : 0x38000 ≤ i := hle
  have hi' : i < 0x40000 := hi
  have hteq := L.tables_eq
  have hdeq := L.initialDir_eq
  have := L.le_bss; have := L.tables_mem; have := L.initial_mem
  have := L.tables_mod; have := L.tables_initial
  exact L.boot_clear w (by omega) (by omega) (by omega) (by omega) (by omega)

/-- The kernel half of `initial_page_dir` lists the tables. -/
theorem boot_initialDir (w : ℕ → ℕ) {k : ℕ} (hk : k < kernelPageDirs) :
    L.bootPageTables w (L.initialDir + 0xC00 + 4 * k) = L.tables + k * 4096 + 3 := by
  have hk' : k < 0x100 := hk
  have hteq := L.tables_eq
  have hdeq := L.initialDir_eq
  have := L.le_bss; have := L.bss_le; have := L.tables_mem; have := L.initial_mem
  have hdirs : kernelPageDirs = 0x100 := rfl
  unfold bootPageTables
  rw [fillPageDir_add (by omega) (by omega) (by omega) hk, Nat.mul_comm]

/-- `swapper_page_dir` is empty. -/
theorem boot_swapperDir (w : ℕ → ℕ) {k : ℕ} (hk : k < 1024) :
    L.bootPageTables w (L.swapperDir + 4 * k) = 0 := by
  have hteq := L.tables_eq
  have hdeq := L.initialDir_eq
  have hseq := L.swapperDir_eq
  have := L.le_bss; have := L.tables_mem; have := L.initial_mem; have := L.swapper_mem
  have := L.swapper_mod; have := L.tables_swapper; have := L.initial_swapper
  exact L.boot_clear w (by omega) (by omega) (by omega) (by omega) (by omega)

/-! ### After `remap_lower_memory` -/

theorem remapLowerMemory_eq (w : ℕ → ℕ) :
    L.remapLowerMemory w =
      copyWords kernelPageDirs (L.swapperDir + 0xC00) (L.initialDir + 0xC00) w := by
  have hdeq := L.initialDir_eq
  have hseq := L.swapperDir_eq
  have := L.le_bss; have := L.bss_le; have := L.initial_mem; have := L.swapper_mem
  have hoff : 4 * lowmemPageDir = 0xC00 := rfl
  rw [remapLowerMemory, hoff, wadd_of_lt (by omega), wadd_of_lt (by omega)]

/-- The tables are not touched. -/
theorem remap_tables (w : ℕ → ℕ) {i : ℕ} (hi : i < kernelPageFrames) :
    L.remapLowerMemory w (L.tables + 4 * i) = w (L.tables + 4 * i) := by
  have hi' : i < 0x40000 := hi
  have hteq := L.tables_eq
  have hseq := L.swapperDir_eq
  have := L.le_bss; have := L.bss_le; have := L.tables_mem; have := L.swapper_mem
  have := L.tables_swapper
  have hdirs : kernelPageDirs = 0x100 := rfl
  rw [L.remapLowerMemory_eq]
  exact copyWords_of_notMem (by omega) (by omega)

/-- The user half of `swapper_page_dir` is not touched. -/
theorem remap_swapperDir_low (w : ℕ → ℕ) {k : ℕ} (hk : k < lowmemPageDir) :
    L.remapLowerMemory w (L.swapperDir + 4 * k) = w (L.swapperDir + 4 * k) := by
  have hk' : k < 0x300 := hk
  have hseq := L.swapperDir_eq
  have := L.le_bss; have := L.bss_le; have := L.swapper_mem
  have hdirs : kernelPageDirs = 0x100 := rfl
  rw [L.remapLowerMemory_eq]
  exact copyWords_of_notMem (by omega) (by omega)

/-- The kernel half of `swapper_page_dir` is that of `initial_page_dir`. -/
theorem remap_swapperDir (w : ℕ → ℕ) {k : ℕ} (hk : k < kernelPageDirs) :
    L.remapLowerMemory w (L.swapperDir + 0xC00 + 4 * k) = w (L.initialDir + 0xC00 + 4 * k) := by
  have hdeq := L.initialDir_eq
  have hseq := L.swapperDir_eq
  have := L.le_bss; have := L.bss_le; have := L.initial_mem; have := L.swapper_mem
  have := L.initial_swapper
  have hdirs : kernelPageDirs = 0x100 := rfl
  rw [L.remapLowerMemory_eq]
  exact copyWords_add (by omega) (by omega) (by omega) hk

end Layout

end Auos
