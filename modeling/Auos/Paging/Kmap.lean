import Auos.Kernel
import Mathlib.Data.List.Nodup
import Mathlib.Logic.Function.Basic

/-!
# Temporary mappings

`kmap` and `kunmap` of `kmap.c`. Memory is the double word at each physical address; `tables` is the
physical address of `kernel_page_tables`, and a pointer into the table is an index of it. The window
for mappings is the entries from `LOWMEM_PAGE_FRAMES` up to `KERNEL_PAGE_FRAMES`. `kmap` takes the
entry at the mark `kernel_map_top_unused` and `kunmap` lowers the mark over the holes below it, but
only when the entry just below the mark is unmapped. Nothing checks that the mark is below the end.

## Main definitions

* `kmap`, `kunmap`, `lowerTop`
* `Mapping` — a mapping that was made and not yet removed
* `KmapRun` — runs, with the mappings that are live
* `Window` — the invariant
* `StaysInWindow` — what a call of `kmap` must do

## Main results

* `Window.kmap`, `Window.kunmap` — one call
* `KmapRun.window` — the invariant holds in every reached state
* `KmapRun.staysInWindow_iff_lastFree` — when a call of `kmap` stays in the window
* `KmapRun.mappings_intact` — live mappings do not disturb each other
-/

namespace Auos

/-! ### `asm/memory.h` and `memory.h` -/

/-- `KMAP_OFFSET`. -/
abbrev kmapOffset : ℕ := 0xF8000000

/-- `KERNEL_PAGE_FRAMES`: the entries of `kernel_page_tables`. -/
abbrev kernelPageFrames : ℕ := 0x40000

/-- `KMAP_PAGE_FRAMES`: the entries of the window. -/
abbrev kmapPageFrames : ℕ := 0x8000

/-- `PAGE_OFFSET_MASK`. -/
abbrev pageOffsetMask : ℕ := 0xFFF

/-- `PTE_PRESENT`. -/
abbrev ptePresent : ℕ := 1

/-- `create_table_entry`. `create_dir_entry` is the same. -/
def createTableEntry (paddr flags : ℕ) : ℕ :=
  (paddr &&& wnot pageOffsetMask) ||| (flags &&& pageOffsetMask)

/-- `page_flags`. -/
def pageFlags (pte : ℕ) : ℕ := pte &&& pageOffsetMask

/-- `page_paddr`. -/
def pagePaddr (pte : ℕ) : ℕ := pte &&& wnot pageOffsetMask

/-- The test `page_flags(pte) & PTE_PRESENT`. -/
def IsPresent (pte : ℕ) : Prop := pageFlags pte &&& ptePresent ≠ 0

instance (pte : ℕ) : Decidable (IsPresent pte) := by unfold IsPresent; infer_instance

/-- What `kmap` and `kunmap` read and write. -/
structure Kmap where
  /-- The double word at a physical address. -/
  words : ℕ → ℕ
  /-- `kernel_map_top_unused`. -/
  topUnused : ℕ

section Code

variable (tables : ℕ)

/-- The entry `i` of the table. -/
def Kmap.pte (s : Kmap) (i : ℕ) : ℕ := s.words (tables + 4 * i)

/-- Write the entry `i` of the table. -/
def Kmap.setPte (s : Kmap) (i e : ℕ) : Kmap :=
  { s with words := Function.update s.words (tables + 4 * i) e }

/-- `kmap`. -/
def kmap (s : Kmap) (paddr flags : ℕ) : Kmap × ℕ :=
  if paddr < kmapOffset - pageOffset then (s, virtAddr paddr)
  else
    let pe := s.topUnused
    let s := { s with topUnused := pe + 1 }
    (s.setPte tables pe (createTableEntry paddr (flags ||| ptePresent)),
      wadd pageOffset (wrap (pe <<< pageShift)))

/-- The loop of `kunmap` from the entry `pe` down, with the final `pe + 1`. -/
def lowerTop (s : Kmap) : ℕ → ℕ
  | 0 => if IsPresent (s.pte tables 0) then 1 else 0
  | pe + 1 =>
    if IsPresent (s.pte tables (pe + 1)) then pe + 2
    else if pe < lowmemPageFrames then pe + 1
    else lowerTop s pe

/-- `kunmap`. -/
def kunmap (s : Kmap) (vaddr : ℕ) : Kmap :=
  if vaddr < kmapOffset then s
  else
    let pe := wsub vaddr pageOffset >>> pageShift
    let s := s.setPte tables pe (createTableEntry 0 0)
    if pe + 1 ≠ s.topUnused then s
    else { s with topUnused := lowerTop tables s pe }

end Code

/-! ### Table entries -/

theorem createTableEntry_eq {paddr : ℕ} (h : paddr < 2 ^ 32) (flags : ℕ) :
    createTableEntry paddr flags = paddr / 2 ^ 12 * 2 ^ 12 + flags % 2 ^ 12 := by
  have hpaddr : paddr &&& wnot pageOffsetMask = (paddr / 2 ^ 12) <<< 12 := by
    rw [Nat.shiftLeft_eq]
    exact and_wnot (k := 12) h (by decide)
  have hflags : flags &&& pageOffsetMask = flags % 2 ^ 12 := Nat.and_two_pow_sub_one_eq_mod flags 12
  rw [createTableEntry, hpaddr, hflags,
    ← Nat.shiftLeft_add_eq_or_of_lt (Nat.mod_lt _ (Nat.two_pow_pos 12)), Nat.shiftLeft_eq]

theorem createTableEntry_lt {paddr : ℕ} (h : paddr < 2 ^ 32) (flags : ℕ) :
    createTableEntry paddr flags < 2 ^ 32 := by
  rw [createTableEntry_eq h]
  omega

theorem pageFlags_eq (pte : ℕ) : pageFlags pte = pte % 2 ^ 12 :=
  Nat.and_two_pow_sub_one_eq_mod pte 12

theorem pagePaddr_eq {pte : ℕ} (h : pte < 2 ^ 32) : pagePaddr pte = pte / 2 ^ 12 * 2 ^ 12 :=
  and_wnot (k := 12) h (by decide)

theorem isPresent_iff (pte : ℕ) : IsPresent pte ↔ pte % 2 = 1 := by
  rw [IsPresent, pageFlags_eq, show ptePresent = 2 ^ 1 - 1 from rfl,
    Nat.and_two_pow_sub_one_eq_mod]
  omega

/-- The entry keeps the page frame. -/
theorem pagePaddr_createTableEntry {paddr : ℕ} (h : paddr < 2 ^ 32) (flags : ℕ) :
    pagePaddr (createTableEntry paddr flags) = pagePaddr paddr := by
  rw [pagePaddr_eq (createTableEntry_lt h flags), pagePaddr_eq h, createTableEntry_eq h]
  omega

/-- The entry keeps the flags. -/
theorem pageFlags_createTableEntry {paddr : ℕ} (h : paddr < 2 ^ 32) (flags : ℕ) :
    pageFlags (createTableEntry paddr flags) = pageFlags flags := by
  rw [pageFlags_eq, pageFlags_eq, createTableEntry_eq h]
  omega

/-- The entries that `kmap` makes are present. -/
theorem isPresent_createTableEntry {paddr : ℕ} (h : paddr < 2 ^ 32) (flags : ℕ) :
    IsPresent (createTableEntry paddr (flags ||| ptePresent)) := by
  have hor : (flags ||| ptePresent) % 2 = 1 := by simp
  rw [isPresent_iff, createTableEntry_eq h]
  omega

theorem createTableEntry_zero : createTableEntry 0 0 = 0 := by decide

theorem not_isPresent_zero : ¬IsPresent 0 := by decide

/-! ### The table -/

section Table

variable {tables : ℕ} {s : Kmap}

@[simp] theorem Kmap.setPte_topUnused (i e : ℕ) : (s.setPte tables i e).topUnused = s.topUnused :=
  rfl

@[simp] theorem Kmap.pte_setPte_self (i e : ℕ) : (s.setPte tables i e).pte tables i = e :=
  Function.update_self _ _ _

theorem Kmap.pte_setPte_of_ne {i j : ℕ} (h : j ≠ i) (e : ℕ) :
    (s.setPte tables i e).pte tables j = s.pte tables j :=
  Function.update_of_ne (by omega) _ _

/-- The mark that the loop finds: everything from it up to the start is a hole, and below it is a
present entry or the window's start. -/
theorem lowerTop_spec {pe : ℕ} (h : lowmemPageFrames ≤ pe) :
    lowmemPageFrames ≤ lowerTop tables s pe ∧ lowerTop tables s pe ≤ pe + 1 ∧
      (∀ i, lowerTop tables s pe ≤ i → i ≤ pe → ¬IsPresent (s.pte tables i)) ∧
      (lowerTop tables s pe = lowmemPageFrames ∨
        IsPresent (s.pte tables (lowerTop tables s pe - 1))) := by
  have hframes : lowmemPageFrames = 0x38000 := rfl
  induction pe with
  | zero => omega
  | succ pe ih =>
    rw [lowerTop]
    by_cases hp : IsPresent (s.pte tables (pe + 1))
    · rw [if_pos hp]
      exact ⟨by omega, le_rfl, by omega, Or.inr hp⟩
    rw [if_neg hp]
    by_cases hlow : pe < lowmemPageFrames
    · rw [if_pos hlow]
      refine ⟨h, by omega, ?_, Or.inl (by omega)⟩
      intro i hi hi'
      rwa [show i = pe + 1 by omega]
    · rw [if_neg hlow]
      obtain ⟨hle, hle', hholes, htop⟩ := ih (by omega)
      refine ⟨hle, by omega, ?_, htop⟩
      intro i hi hi'
      rcases Nat.lt_or_ge pe i with hlt | hge
      · rwa [show i = pe + 1 by omega]
      · exact hholes i hi hge

end Table

/-! ### The window -/

/-- A mapping of a high physical address: what `kmap` was asked for and the pointer it returned. -/
structure Mapping where
  /-- The pointer returned. -/
  ptr : ℕ
  /-- The physical address. -/
  paddr : ℕ
  /-- The flags. -/
  flags : ℕ
deriving DecidableEq

/-- The entry of the table that a pointer belongs to. -/
def entryOf (ptr : ℕ) : ℕ := wsub ptr pageOffset >>> pageShift

/-- The page behind an entry of the window. -/
theorem entryOf_page {i : ℕ} (h : i < kernelPageFrames) : entryOf (pageOffset + i * 2 ^ 12) = i := by
  have hi : i < 0x40000 := h
  have hsub : wsub (0xC0000000 + i * 2 ^ 12) 0xC0000000 = i * 2 ^ 12 := by
    rw [wsub_of_le (by omega) (by omega)]
    omega
  rw [entryOf, show pageOffset = 0xC0000000 from rfl, hsub, Nat.shiftRight_eq_div_pow]
  exact Nat.mul_div_cancel _ (Nat.two_pow_pos 12)

/-- The pointer that `kmap` returns for an entry of the table. -/
theorem kmap_ptr_eq {i : ℕ} (h : i < kernelPageFrames) :
    wadd pageOffset (wrap (i <<< pageShift)) = pageOffset + i * 2 ^ 12 := by
  have hi : i < 0x40000 := h
  have hshift : i <<< pageShift = i * 2 ^ 12 := Nat.shiftLeft_eq i 12
  rw [hshift, wrap_of_lt (by omega)]
  exact wadd_of_lt (show 0xC0000000 + i * 2 ^ 12 < 2 ^ 32 by omega)

/-- The mapping is the content of its entry, which is in the window below the mark `top`. -/
structure Mapping.Holds (tables : ℕ) (s : Kmap) (m : Mapping) : Prop where
  /-- The pointer is the page of its entry. -/
  ptr : m.ptr = pageOffset + entryOf m.ptr * 2 ^ 12
  /-- The entry is in the window. -/
  le : lowmemPageFrames ≤ entryOf m.ptr
  /-- The entry is below the mark. -/
  lt : entryOf m.ptr < s.topUnused
  /-- The physical address is a word. -/
  paddr : m.paddr < 2 ^ 32
  /-- The entry was made for the mapping. -/
  pte : s.pte tables (entryOf m.ptr) = createTableEntry m.paddr (m.flags ||| ptePresent)

/-- **The window**: each live mapping has an entry of its own, every other entry is empty, and the
mark is the start of the window or just above a live mapping. Nothing outside the window changed. -/
structure Window (tables : ℕ) (words : ℕ → ℕ) (s : Kmap) (live : List Mapping) : Prop where
  /-- The mark is not below the window. -/
  le_top : lowmemPageFrames ≤ s.topUnused
  /-- The mark has not passed the end. -/
  top_le : s.topUnused ≤ kernelPageFrames
  /-- The live mappings are in the table. -/
  holds : ∀ m ∈ live, m.Holds tables s
  /-- No two live mappings share an entry. -/
  nodup : (live.map fun m => entryOf m.ptr).Nodup
  /-- The other entries are empty. -/
  empty : ∀ i, lowmemPageFrames ≤ i → i < kernelPageFrames →
    (∀ m ∈ live, entryOf m.ptr ≠ i) → s.pte tables i = 0
  /-- The mark is just above a live mapping, or at the start. -/
  top : s.topUnused = lowmemPageFrames ∨ ∃ m ∈ live, entryOf m.ptr + 1 = s.topUnused
  /-- Nothing else was written. -/
  frame : ∀ a, (∀ i, lowmemPageFrames ≤ i → i < kernelPageFrames → a ≠ tables + 4 * i) →
    s.words a = words a

section Steps

variable {tables : ℕ} {words : ℕ → ℕ} {s : Kmap} {live : List Mapping}

theorem kmap_of_high {paddr : ℕ} (h : kmapOffset - pageOffset ≤ paddr) (flags : ℕ) :
    kmap tables s paddr flags =
      (({ s with topUnused := s.topUnused + 1 } : Kmap).setPte tables s.topUnused
          (createTableEntry paddr (flags ||| ptePresent)),
        wadd pageOffset (wrap (s.topUnused <<< pageShift))) := by
  rw [kmap, if_neg (Nat.not_lt.mpr h)]

/-- A physical address in the direct map is not given an entry. -/
theorem kmap_of_low {paddr : ℕ} (h : paddr < kmapOffset - pageOffset) (flags : ℕ) :
    kmap tables s paddr flags = (s, virtAddr paddr) := if_pos h

/-- Pointers below the window are left alone. -/
theorem kunmap_of_low {ptr : ℕ} (h : ptr < kmapOffset) : kunmap tables s ptr = s := if_pos h

theorem Mapping.Holds.isPresent {m : Mapping} (h : m.Holds tables s) :
    IsPresent (s.pte tables (entryOf m.ptr)) := by
  rw [h.pte]
  exact isPresent_createTableEntry h.paddr _

/-- The pointer is in the window. -/
theorem Mapping.Holds.kmapOffset_le {m : Mapping} (h : m.Holds tables s) : kmapOffset ≤ m.ptr := by
  have hptr : m.ptr = 0xC0000000 + entryOf m.ptr * 2 ^ 12 := h.ptr
  have hle : 0x38000 ≤ entryOf m.ptr := h.le
  show 0xF8000000 ≤ m.ptr
  omega

/-- The live mappings have entries of their own. -/
theorem Window.entryOf_inj (h : Window tables words s live) {m m' : Mapping} (hm : m ∈ live)
    (hm' : m' ∈ live) (he : entryOf m.ptr = entryOf m'.ptr) : m = m' :=
  List.inj_on_of_nodup_map h.nodup hm hm' he

/-- A present entry of the window belongs to a live mapping. -/
theorem Window.exists_of_isPresent (h : Window tables words s live) {i : ℕ}
    (hle : lowmemPageFrames ≤ i) (hlt : i < kernelPageFrames) (hp : IsPresent (s.pte tables i)) :
    ∃ m ∈ live, entryOf m.ptr = i := by
  by_contra hno
  push Not at hno
  rw [h.empty i hle hlt hno] at hp
  exact not_isPresent_zero hp

/-- **One `kmap`** of a high physical address, with room below the end. -/
theorem Window.kmap (h : Window tables words s live) {paddr : ℕ}
    (hhigh : kmapOffset - pageOffset ≤ paddr) (hword : paddr < 2 ^ 32)
    (hroom : s.topUnused < kernelPageFrames) (flags : ℕ) :
    Window tables words (kmap tables s paddr flags).1
      (⟨(kmap tables s paddr flags).2, paddr, flags⟩ :: live) := by
  rw [kmap_of_high hhigh, kmap_ptr_eq hroom]
  have hentry : entryOf (pageOffset + s.topUnused * 2 ^ 12) = s.topUnused := entryOf_page hroom
  refine
    { le_top := h.le_top.trans (Nat.le_succ _), top_le := hroom, holds := ?_, nodup := ?_
      empty := ?_, top := ?_, frame := ?_ }
  · intro m hm
    rcases List.mem_cons.mp hm with rfl | hm
    · exact
        { ptr := by dsimp only; rw [hentry]
          le := by dsimp only; rw [hentry]; exact h.le_top
          lt := by dsimp only; rw [hentry]; exact Nat.lt_succ_self _
          paddr := hword
          pte := by dsimp only; rw [hentry]; exact Kmap.pte_setPte_self _ _ }
    · have hold := h.holds m hm
      refine { hold with lt := hold.lt.trans (Nat.lt_succ_self _), pte := ?_ }
      rw [Kmap.pte_setPte_of_ne hold.lt.ne]
      exact hold.pte
  · rw [List.map_cons, List.nodup_cons, hentry]
    refine ⟨?_, h.nodup⟩
    intro hmem
    obtain ⟨m, hm, he⟩ := List.mem_map.mp hmem
    exact (h.holds m hm).lt.ne he
  · intro i hle hlt hno
    have hi : i ≠ s.topUnused := by
      rintro rfl
      exact hno _ List.mem_cons_self hentry
    rw [Kmap.pte_setPte_of_ne hi]
    exact h.empty i hle hlt fun m hm => hno m (List.mem_cons_of_mem _ hm)
  · exact Or.inr ⟨_, List.mem_cons_self, congrArg (· + 1) hentry⟩
  · intro a ha
    rw [← h.frame a ha]
    exact Function.update_of_ne (ha _ h.le_top hroom) _ _

/-- Emptying the entry of a live mapping and moving the mark to `t`. -/
theorem Window.erase (h : Window tables words s live) {m : Mapping} (hm : m ∈ live) {t : ℕ}
    (hle : lowmemPageFrames ≤ t) (hend : t ≤ kernelPageFrames)
    (hbelow : ∀ m' ∈ live.erase m, entryOf m'.ptr < t)
    (htop : t = lowmemPageFrames ∨ ∃ m' ∈ live.erase m, entryOf m'.ptr + 1 = t) :
    Window tables words { s.setPte tables (entryOf m.ptr) 0 with topUnused := t }
      (live.erase m) := by
  have hmap := h.holds m hm
  refine
    { le_top := hle, top_le := hend, holds := ?_, nodup := ?_, empty := ?_, top := htop
      frame := ?_ }
  · intro m' hm'
    obtain ⟨hne, hmem⟩ := (h.nodup.of_map _).mem_erase_iff.mp hm'
    have hold := h.holds m' hmem
    have hentry : entryOf m'.ptr ≠ entryOf m.ptr := fun e => hne (h.entryOf_inj hmem hm e)
    refine { hold with lt := hbelow m' hm', pte := ?_ }
    have hpte : (s.setPte tables (entryOf m.ptr) 0).pte tables (entryOf m'.ptr) = _ :=
      Kmap.pte_setPte_of_ne hentry 0
    exact hpte.trans hold.pte
  · exact h.nodup.sublist (List.erase_sublist.map _)
  · intro i hle hlt hno
    by_cases hi : i = entryOf m.ptr
    · subst hi
      exact Kmap.pte_setPte_self _ _
    · refine (Kmap.pte_setPte_of_ne hi 0).trans (h.empty i hle hlt ?_)
      intro m' hm' he
      have hne : m' ≠ m := by
        rintro rfl
        exact hi he.symm
      exact hno m' ((List.mem_erase_of_ne hne).mpr hm') he
  · intro a ha
    rw [← h.frame a ha]
    exact Function.update_of_ne (ha _ hmap.le (hmap.lt.trans_le h.top_le)) _ _

/-- The unmapped entry is a hole, the entries of the other live mappings are present. -/
theorem Window.isPresent_setPte_iff (h : Window tables words s live) {m : Mapping} (hm : m ∈ live)
    {i : ℕ} (hle : lowmemPageFrames ≤ i) (hlt : i < kernelPageFrames) :
    IsPresent ((s.setPte tables (entryOf m.ptr) 0).pte tables i) ↔
      ∃ m' ∈ live.erase m, entryOf m'.ptr = i := by
  by_cases hi : i = entryOf m.ptr
  · subst hi
    rw [Kmap.pte_setPte_self]
    refine iff_of_false not_isPresent_zero ?_
    rintro ⟨m', hm', he⟩
    obtain ⟨hne, hmem⟩ := (h.nodup.of_map _).mem_erase_iff.mp hm'
    exact hne (h.entryOf_inj hmem hm he)
  · rw [Kmap.pte_setPte_of_ne hi]
    constructor
    · intro hp
      obtain ⟨m', hm', he⟩ := h.exists_of_isPresent hle hlt hp
      have hne : m' ≠ m := by
        rintro rfl
        exact hi he.symm
      exact ⟨m', (List.mem_erase_of_ne hne).mpr hm', he⟩
    · rintro ⟨m', hm', rfl⟩
      exact (h.holds m' (List.mem_of_mem_erase hm')).isPresent

theorem kunmap_of_high {ptr : ℕ} (h : kmapOffset ≤ ptr) :
    kunmap tables s ptr =
      if entryOf ptr + 1 ≠ s.topUnused then s.setPte tables (entryOf ptr) 0 else
        { s.setPte tables (entryOf ptr) 0 with
          topUnused := lowerTop tables (s.setPte tables (entryOf ptr) 0) (entryOf ptr) } := by
  rw [kunmap, if_neg (Nat.not_lt.mpr h), createTableEntry_zero]
  rfl

/-- **One `kunmap`** of a live mapping. -/
theorem Window.kunmap (h : Window tables words s live) {m : Mapping} (hm : m ∈ live) :
    Window tables words (kunmap tables s m.ptr) (live.erase m) := by
  have hmap := h.holds m hm
  have hle := hmap.le
  have hlt := hmap.lt
  have htop := h.top_le
  have hbelow : ∀ m' ∈ live.erase m, entryOf m'.ptr < s.topUnused :=
    fun m' hm' => (h.holds m' (List.mem_of_mem_erase hm')).lt
  rw [kunmap_of_high hmap.kmapOffset_le]
  by_cases hedge : entryOf m.ptr + 1 ≠ s.topUnused
  · rw [if_pos hedge]
    refine h.erase hm h.le_top htop hbelow ?_
    rcases h.top with hlow | ⟨m', hm', he⟩
    · omega
    · have hne : m' ≠ m := by
        rintro rfl
        exact hedge he
      exact Or.inr ⟨m', (List.mem_erase_of_ne hne).mpr hm', he⟩
  · rw [if_neg hedge]
    obtain ⟨hlow, hup, hholes, hmark⟩ :=
      @lowerTop_spec tables (s.setPte tables (entryOf m.ptr) 0) _ hle
    refine h.erase hm hlow (by omega) ?_ ?_
    · -- The loop passes only holes, and a live mapping is none.
      intro m' hm'
      have hlt' := hbelow m' hm'
      by_contra hge
      refine hholes _ (Nat.not_lt.mp hge) (by omega) ?_
      have hle' := (h.holds m' (List.mem_of_mem_erase hm')).le
      exact (h.isPresent_setPte_iff hm hle' (by omega)).mpr ⟨m', hm', rfl⟩
    · rcases hmark with hstart | hpresent
      · exact Or.inl hstart
      by_cases hstart : lowerTop tables (s.setPte tables (entryOf m.ptr) 0) (entryOf m.ptr) =
          lowmemPageFrames
      · exact Or.inl hstart
      obtain ⟨m', hm', he⟩ := (h.isPresent_setPte_iff hm (by omega) (by omega)).mp hpresent
      exact Or.inr ⟨m', hm', by omega⟩

end Steps

/-! ### Runs -/

/-- A run from the empty window, with the mappings of high addresses that are live. Before each such
`kmap` the condition `guard` holds; only live mappings and pointers into the direct map are
unmapped. -/
inductive KmapRun (tables : ℕ) (guard : Kmap → List Mapping → Prop) (words : ℕ → ℕ) :
    Kmap → List Mapping → Prop
  /-- The window is empty. -/
  | start (hzero : ∀ i, lowmemPageFrames ≤ i → i < kernelPageFrames → words (tables + 4 * i) = 0) :
      KmapRun tables guard words ⟨words, lowmemPageFrames⟩ []
  /-- A high physical address is mapped. -/
  | map {s : Kmap} {live : List Mapping} (run : KmapRun tables guard words s live) {paddr : ℕ}
      (flags : ℕ) (hhigh : kmapOffset - pageOffset ≤ paddr) (hword : paddr < 2 ^ 32)
      (hguard : guard s live) :
      KmapRun tables guard words (kmap tables s paddr flags).1
        (⟨(kmap tables s paddr flags).2, paddr, flags⟩ :: live)
  /-- A physical address in the direct map is mapped. -/
  | mapLow {s : Kmap} {live : List Mapping} (run : KmapRun tables guard words s live) {paddr : ℕ}
      (flags : ℕ) (hlow : paddr < kmapOffset - pageOffset) :
      KmapRun tables guard words (kmap tables s paddr flags).1 live
  /-- A live mapping is unmapped. -/
  | unmap {s : Kmap} {live : List Mapping} (run : KmapRun tables guard words s live) {m : Mapping}
      (hm : m ∈ live) : KmapRun tables guard words (kunmap tables s m.ptr) (live.erase m)
  /-- A pointer into the direct map is unmapped. -/
  | unmapLow {s : Kmap} {live : List Mapping} (run : KmapRun tables guard words s live) {ptr : ℕ}
      (hptr : ptr < kmapOffset) : KmapRun tables guard words (kunmap tables s ptr) live

/-- The mark is below the end of the table. -/
def HasRoom (s : Kmap) (_live : List Mapping) : Prop := s.topUnused < kernelPageFrames

/-- No live mapping holds the last page of the window. -/
def LastFree (_s : Kmap) (live : List Mapping) : Prop := ∀ m ∈ live, m.ptr ≠ 0xFFFFF000

/-- A call of `kmap` writes one entry, in the window, and returns an address of the window. -/
def StaysInWindow (tables : ℕ) (s : Kmap) (paddr flags : ℕ) : Prop :=
  (∃ i, lowmemPageFrames ≤ i ∧ i < kernelPageFrames ∧
    (kmap tables s paddr flags).1.words = Function.update s.words (tables + 4 * i)
      (createTableEntry paddr (flags ||| ptePresent))) ∧
  kmapOffset ≤ (kmap tables s paddr flags).2 ∧ (kmap tables s paddr flags).2 < 2 ^ 32

section Runs

variable {tables : ℕ} {words : ℕ → ℕ} {guard : Kmap → List Mapping → Prop} {s : Kmap}
  {live : List Mapping}

theorem window_start
    (hzero : ∀ i, lowmemPageFrames ≤ i → i < kernelPageFrames → words (tables + 4 * i) = 0) :
    Window tables words ⟨words, lowmemPageFrames⟩ [] where
  le_top := le_rfl
  top_le := show (0x38000 : ℕ) ≤ 0x40000 by decide
  holds := by simp
  nodup := by simp
  empty := fun i hle hlt _ => hzero i hle hlt
  top := Or.inl rfl
  frame := fun _ _ => rfl

/-- **In every reached state** the window is intact, if each call of `kmap` found room. -/
theorem KmapRun.window (hroom : ∀ s live, Window tables words s live → guard s live → HasRoom s live)
    (run : KmapRun tables guard words s live) : Window tables words s live := by
  induction run with
  | start hzero => exact window_start hzero
  | map run flags hhigh hword hguard ih => exact ih.kmap hhigh hword (hroom _ _ ih hguard) flags
  | mapLow run flags hlow ih => rwa [kmap_of_low hlow]
  | unmap run hm ih => exact ih.kunmap hm
  | unmapLow run hptr ih => rwa [kunmap_of_low hptr]

/-- There is room exactly as long as the last page of the window is free. -/
theorem Window.hasRoom_iff (h : Window tables words s live) :
    HasRoom s live ↔ LastFree s live := by
  have hframes : kernelPageFrames = 0x40000 := rfl
  have hlow : lowmemPageFrames = 0x38000 := rfl
  have hend := h.top_le
  constructor
  · intro hroom m hm hlast
    have hlt := (h.holds m hm).lt
    have hentry : entryOf m.ptr = 0x3FFFF := by rw [hlast]; decide
    unfold HasRoom at hroom
    omega
  · intro hlast
    unfold HasRoom
    rcases h.top with hstart | ⟨m, hm, he⟩
    · omega
    · have hptr : m.ptr = 0xC0000000 + entryOf m.ptr * 2 ^ 12 := (h.holds m hm).ptr
      have hne := hlast m hm
      omega

/-- The pointer that `kmap` returns at the end of the table is null. -/
theorem kmap_ptr_end {paddr : ℕ} (h : kmapOffset - pageOffset ≤ paddr) (flags : ℕ)
    (hend : s.topUnused = kernelPageFrames) : (kmap tables s paddr flags).2 = 0 := by
  have hwrap : wadd pageOffset (wrap (kernelPageFrames <<< pageShift)) = 0 := by decide
  rw [kmap_of_high h, hend]
  exact hwrap

/-- A call of `kmap` stays in the window exactly if there is room. -/
theorem Window.staysInWindow_iff (h : Window tables words s live) {paddr : ℕ}
    (hhigh : kmapOffset - pageOffset ≤ paddr) (flags : ℕ) :
    StaysInWindow tables s paddr flags ↔ HasRoom s live := by
  constructor
  · rintro ⟨-, hptr, -⟩
    rcases Nat.lt_or_eq_of_le h.top_le with hlt | hend
    · exact hlt
    · rw [kmap_ptr_end hhigh flags hend] at hptr
      exact absurd hptr (by decide)
  · intro hroom
    rw [StaysInWindow, kmap_of_high hhigh, kmap_ptr_eq hroom]
    refine ⟨⟨s.topUnused, h.le_top, hroom, rfl⟩, ?_⟩
    have hlow : 0x38000 ≤ s.topUnused := h.le_top
    have htop : s.topUnused < 0x40000 := hroom
    show 0xF8000000 ≤ 0xC0000000 + s.topUnused * 2 ^ 12 ∧ 0xC0000000 + s.topUnused * 2 ^ 12 < 2 ^ 32
    omega

/-- **When `kmap` stays in the window**: in a run whose calls of `kmap` all found the last page of
the window free, the next one stays in the window exactly if it does too. -/
theorem KmapRun.staysInWindow_iff_lastFree (run : KmapRun tables LastFree words s live) {paddr : ℕ}
    (hhigh : kmapOffset - pageOffset ≤ paddr) (flags : ℕ) :
    StaysInWindow tables s paddr flags ↔ LastFree s live := by
  have hwindow := run.window fun s live hw hlast => hw.hasRoom_iff.mpr hlast
  rw [hwindow.staysInWindow_iff hhigh, hwindow.hasRoom_iff]

/-- The second one of three mappings is removed. -/
theorem exists_kmapRun_hole {guard : Kmap → List Mapping → Prop}
    (hguard : ∀ s live, s.topUnused < lowmemPageFrames + 3 →
      (∀ m ∈ live, entryOf m.ptr < lowmemPageFrames + 3) → guard s live) :
    ∃ s, KmapRun 0 guard (fun _ => 0) s
        [⟨0xF8002000, 0xFEC00400, 2⟩, ⟨0xF8000000, 0xFEC00000, 2⟩] ∧
      s.topUnused = lowmemPageFrames + 3 := by
  have run₁ := (@KmapRun.start 0 guard (fun _ => 0) fun _ _ _ => rfl).map 2
    (show kmapOffset - pageOffset ≤ 0xFEC00000 by decide) (by decide)
    (hguard _ _ (by decide) (by decide))
  have run₂ := run₁.map 2 (show kmapOffset - pageOffset ≤ 0xFEE00000 by decide) (by decide)
    (hguard _ _ (by decide) (by decide))
  have run₃ := run₂.map 2 (show kmapOffset - pageOffset ≤ 0xFEC00400 by decide) (by decide)
    (hguard _ _ (by decide) (by decide))
  have run₄ := run₃.unmap (List.mem_cons_of_mem _ List.mem_cons_self)
  exact ⟨_, run₄, by decide⟩

/-- A call with two mappings and a hole in between stays in the window. -/
theorem staysInWindow_hole : ∃ s, KmapRun 0 LastFree (fun _ => 0) s
    [⟨0xF8002000, 0xFEC00400, 2⟩, ⟨0xF8000000, 0xFEC00000, 2⟩] ∧
      s.topUnused = lowmemPageFrames + 3 ∧ StaysInWindow 0 s 0xFEE00000 0 := by
  have hguard : ∀ s live, s.topUnused < lowmemPageFrames + 3 →
      (∀ m ∈ live, entryOf m.ptr < lowmemPageFrames + 3) → LastFree s live := by
    intro s live _ hlive m hm heq
    exact absurd (heq ▸ hlive m hm) (by decide)
  obtain ⟨s, run, htop⟩ := exists_kmapRun_hole hguard
  exact ⟨s, run, htop, (run.staysInWindow_iff_lastFree (by decide) 0).mpr (by simp [LastFree])⟩

/-- The condition that at most `KMAP_PAGE_FRAMES` mappings are live after the call. -/
def FewLive (_s : Kmap) (live : List Mapping) : Prop := live.length < kmapPageFrames

/-- Mapping `n` pages in a row. -/
theorem exists_kmapRun_length {n : ℕ} (hn : n ≤ kmapPageFrames) :
    ∃ s live, KmapRun 0 FewLive (fun _ => 0) s live ∧ Window 0 (fun _ => 0) s live ∧
      live.length = n ∧ s.topUnused = lowmemPageFrames + n ∧
      (0 < n → ∃ m ∈ live, entryOf m.ptr = lowmemPageFrames) := by
  have hframes : kernelPageFrames = lowmemPageFrames + kmapPageFrames := rfl
  induction n with
  | zero =>
    exact ⟨_, _, .start fun _ _ _ => rfl, window_start fun _ _ _ => rfl, rfl, rfl, by simp⟩
  | succ n ih =>
    obtain ⟨s, live, run, hw, hlen, htop, hfirst⟩ := ih (by omega)
    have hhigh : kmapOffset - pageOffset ≤ 0xFEC00000 := by decide
    have hroom : HasRoom s live := by unfold HasRoom; omega
    have hfew : FewLive s live := by unfold FewLive; omega
    refine ⟨_, _, run.map 0 hhigh (by decide) hfew, hw.kmap hhigh (by decide) hroom 0, ?_, ?_, ?_⟩
    · rw [List.length_cons, hlen]
    · rw [kmap_of_high hhigh, Kmap.setPte_topUnused, htop, Nat.add_assoc]
    intro _
    rcases Nat.eq_zero_or_pos n with rfl | hpos
    · refine ⟨_, List.mem_cons_self, ?_⟩
      rw [kmap_of_high hhigh, kmap_ptr_eq hroom]
      exact (entryOf_page hroom).trans htop
    · obtain ⟨m, hm, he⟩ := hfirst hpos
      exact ⟨m, List.mem_cons_of_mem _ hm, he⟩

/-- Filling the window, unmapping its first page and mapping another page leaves the window, although
only as many mappings are live as it has pages. -/
theorem kmap_leaves_window : ∃ s live, KmapRun 0 FewLive (fun _ => 0) s live ∧ FewLive s live ∧
    ¬StaysInWindow 0 s 0xFEC00000 0 := by
  obtain ⟨s, live, run, hw, hlen, htop, hfirst⟩ := exists_kmapRun_length le_rfl
  obtain ⟨m, hm, he⟩ := hfirst (by decide)
  have hhigh : kmapOffset - pageOffset ≤ 0xFEC00000 := by decide
  have hend : s.topUnused = kernelPageFrames := htop
  refine ⟨_, _, run.unmap hm, ?_, ?_⟩
  · rw [FewLive, List.length_erase_of_mem hm, hlen]
    decide
  · have hne : entryOf m.ptr + 1 ≠ s.topUnused := by
      rw [he, hend]
      decide
    have htop' : (kunmap 0 s m.ptr).topUnused = kernelPageFrames := by
      rw [kunmap_of_high (hw.holds m hm).kmapOffset_le, if_pos hne, Kmap.setPte_topUnused, hend]
    rintro ⟨-, hptr, -⟩
    rw [kmap_ptr_end hhigh 0 htop'] at hptr
    exact absurd hptr (by decide)

/-- **Live mappings do not disturb each other**: they have pages of their own, and each entry still
holds the frame and the flags it was made with. No entry from the mark on is present, and the mark
is the start of the window or just above a present entry. -/
theorem KmapRun.mappings_intact (run : KmapRun tables HasRoom words s live) :
    (live.map fun m => pagePaddr m.ptr).Nodup ∧
    (∀ m ∈ live, kmapOffset ≤ m.ptr ∧ m.ptr < 2 ^ 32 ∧
      pagePaddr (s.pte tables (entryOf m.ptr)) = pagePaddr m.paddr ∧
      pageFlags (s.pte tables (entryOf m.ptr)) = pageFlags (m.flags ||| ptePresent) ∧
      IsPresent (s.pte tables (entryOf m.ptr))) ∧
    (∀ i, s.topUnused ≤ i → i < kernelPageFrames → ¬IsPresent (s.pte tables i)) ∧
    (s.topUnused = lowmemPageFrames ∨
      lowmemPageFrames < s.topUnused ∧ IsPresent (s.pte tables (s.topUnused - 1))) ∧
    ∀ ptr < kmapOffset, kunmap tables s ptr = s := by
  have hw := run.window fun _ _ _ hroom => hroom
  have hptr : ∀ m ∈ live, m.ptr < 2 ^ 32 ∧ pagePaddr m.ptr = m.ptr := by
    intro m hm
    have hlt : entryOf m.ptr < 0x40000 := (hw.holds m hm).lt.trans_le hw.top_le
    have heq : m.ptr = 0xC0000000 + entryOf m.ptr * 2 ^ 12 := (hw.holds m hm).ptr
    have hword : m.ptr < 2 ^ 32 := by omega
    exact ⟨hword, by rw [pagePaddr_eq hword]; omega⟩
  refine ⟨?_, ?_, ?_, ?_, fun ptr hlow => kunmap_of_low hlow⟩
  · refine List.Nodup.of_map entryOf ?_
    rw [List.map_map]
    refine (List.map_congr_left ?_) ▸ hw.nodup
    intro m hm
    rw [Function.comp_apply, (hptr m hm).2]
  · intro m hm
    have hmap := hw.holds m hm
    refine ⟨hmap.kmapOffset_le, (hptr m hm).1, ?_, ?_, hmap.isPresent⟩
    · rw [hmap.pte, pagePaddr_createTableEntry hmap.paddr]
    · rw [hmap.pte, pageFlags_createTableEntry hmap.paddr]
  · intro i hle hlt hp
    obtain ⟨m, hm, he⟩ := hw.exists_of_isPresent (hw.le_top.trans hle) hlt hp
    have := (hw.holds m hm).lt
    omega
  · rcases hw.top with hstart | ⟨m, hm, he⟩
    · exact Or.inl hstart
    · have hle := (hw.holds m hm).le
      refine Or.inr ⟨by omega, ?_⟩
      rw [show s.topUnused - 1 = entryOf m.ptr by omega]
      exact (hw.holds m hm).isPresent

/-- Two mappings with a hole in between. -/
theorem mappings_intact_hole : ∃ s, KmapRun 0 HasRoom (fun _ => 0) s
    [⟨0xF8002000, 0xFEC00400, 2⟩, ⟨0xF8000000, 0xFEC00000, 2⟩] ∧
      pagePaddr (s.pte 0 (entryOf 0xF8002000)) = 0xFEC00000 ∧
      pageFlags (s.pte 0 (entryOf 0xF8002000)) = 3 ∧
      pagePaddr (s.pte 0 (entryOf 0xF8000000)) = 0xFEC00000 ∧
      pageFlags (s.pte 0 (entryOf 0xF8000000)) = 3 ∧
      ∀ i, lowmemPageFrames + 3 ≤ i → i < kernelPageFrames → ¬IsPresent (s.pte 0 i) := by
  have hguard : ∀ s live, s.topUnused < lowmemPageFrames + 3 →
      (∀ m ∈ live, entryOf m.ptr < lowmemPageFrames + 3) → HasRoom s live :=
    fun s live hs _ => hs.trans (by decide)
  obtain ⟨s, run, htop⟩ := exists_kmapRun_hole hguard
  obtain ⟨-, hlive, hfree, -⟩ := run.mappings_intact
  obtain ⟨-, -, hpaddr, hflags, -⟩ := hlive _ List.mem_cons_self
  obtain ⟨-, -, hpaddr', hflags', -⟩ := hlive _ (List.mem_cons_of_mem _ List.mem_cons_self)
  exact ⟨s, run, hpaddr, hflags, hpaddr', hflags', htop ▸ hfree⟩

end Runs

end Auos
