import Auos.Paging.Walk

/-!
# The address that `kmap` maps

`kmap` returns a pointer that its callers dereference as it is. On the direct map the pointer is the
physical address moved by `PAGE_OFFSET`, with its offset in the page; in the window it is the start of
a page, because `create_table_entry` keeps the frame of the address only and the pointer is computed
from the index of the entry.

## Main results

* `Layout.pageWalk_kmap` — where the processor finds the pointer that `kmap` returns
* `kmap_translates_iff` — at the address asked for, exactly if it is low or the start of a page
-/

namespace Auos

variable {s : Kmap} {live : List Mapping} {paddr : ℕ}

namespace Layout

variable {L : Layout} {w : ℕ → ℕ}

/-- A low address is in the direct map, whatever its offset in the page. -/
theorem pageWalk_kmap_low (h : Window L.tables (L.start w) s live)
    (hlow : paddr < kmapOffset - pageOffset) (flags : ℕ) :
    pageWalk (kmap L.tables s paddr flags).1.words L.swapperDir (kmap L.tables s paddr flags).2 =
      some paddr := by
  have hlow' : paddr < 0x38000000 := hlow
  have hvirt : virtAddr paddr = paddr + 0xC0000000 :=
    wadd_of_lt (show paddr + 0xC0000000 < 2 ^ 32 by omega)
  have hphys : physAddr (virtAddr paddr) = paddr := by
    rw [hvirt, physAddr_of_le (by omega) (by omega), Nat.add_sub_cancel]
  rw [kmap_of_low hlow, pageWalk_directMap h, hphys]
  · exact hvirt ▸ Nat.le_add_left 0xC0000000 paddr
  · rw [hvirt]
    exact show paddr + 0xC0000000 < 0xF8000000 by omega

/-- A high address is mapped with its frame, and the pointer is the start of the page. -/
theorem pageWalk_kmap_high (h : Window L.tables (L.start w) s live)
    (hhigh : kmapOffset - pageOffset ≤ paddr) (hword : paddr < 2 ^ 32) (hroom : HasRoom s live)
    (flags : ℕ) :
    pageWalk (kmap L.tables s paddr flags).1.words L.swapperDir (kmap L.tables s paddr flags).2 =
      some (pagePaddr paddr) := by
  have hwindow := h.kmap hhigh hword hroom flags
  have hmap := hwindow.holds _ List.mem_cons_self
  have hptr : (kmap L.tables s paddr flags).2 = pageOffset + s.topUnused * 2 ^ 12 := by
    rw [kmap_of_high hhigh, kmap_ptr_eq hroom]
  have hend : s.topUnused < 0x40000 := hroom
  have hkernel : pageOffset ≤ (kmap L.tables s paddr flags).2 := hptr ▸ Nat.le_add_right _ _
  have hlt : (kmap L.tables s paddr flags).2 < 2 ^ 32 := by
    rw [hptr]
    exact show 0xC0000000 + s.topUnused * 2 ^ 12 < 2 ^ 32 by omega
  have hoff : (kmap L.tables s paddr flags).2 % 2 ^ 12 = 0 := by
    rw [hptr]
    exact show (0xC0000000 + s.topUnused * 2 ^ 12) % 2 ^ 12 = 0 by omega
  rw [pageWalk_eq hwindow hkernel hlt, if_pos hmap.isPresent, hmap.pte, hoff, Nat.add_zero,
    pagePaddr_createTableEntry hword]

/-- **Where the processor finds the pointer that `kmap` returns.** -/
theorem pageWalk_kmap (h : Window L.tables (L.start w) s live) (hword : paddr < 2 ^ 32)
    (hroom : HasRoom s live) (flags : ℕ) :
    pageWalk (kmap L.tables s paddr flags).1.words L.swapperDir (kmap L.tables s paddr flags).2 =
      some (if paddr < kmapOffset - pageOffset then paddr else pagePaddr paddr) := by
  by_cases hlow : paddr < kmapOffset - pageOffset
  · rw [if_pos hlow, pageWalk_kmap_low h hlow]
  · rw [if_neg hlow, pageWalk_kmap_high h (Nat.le_of_not_lt hlow) hword hroom]

end Layout

/-- **The pointer that `kmap` returns is mapped to the address asked for exactly if the address is in
the direct map or the start of a page**, in every state reached from the boot code that has an entry
left. -/
theorem kmap_translates_iff (L : Layout) (w : ℕ → ℕ)
    (run : KmapRun L.tables HasRoom (L.start w) s live) (hroom : HasRoom s live)
    (hword : paddr < 2 ^ 32) (flags : ℕ) :
    pageWalk (kmap L.tables s paddr flags).1.words (physAddr L.swapperPageDir)
        (kmap L.tables s paddr flags).2 = some paddr ↔
      paddr < kmapOffset - pageOffset ∨ paddr % pageSize = 0 := by
  have hwindow := run.window fun _ _ _ hroom => hroom
  have hwalk : pageWalk (kmap L.tables s paddr flags).1.words (physAddr L.swapperPageDir)
      (kmap L.tables s paddr flags).2 = _ := Layout.pageWalk_kmap hwindow hword hroom flags
  rw [hwalk, Option.some_inj]
  by_cases hlow : paddr < kmapOffset - pageOffset
  · rw [if_pos hlow]
    exact iff_of_true rfl (Or.inl hlow)
  · have hpage : paddr % pageSize = paddr % 2 ^ 12 := rfl
    rw [if_neg hlow, pagePaddr_eq hword, hpage]
    omega

/-- The state in which the first mapping is made. -/
def sampleKmap : Kmap := ⟨sampleLayout.start fun _ => 0, lowmemPageFrames⟩

theorem kmapRun_sampleKmap :
    KmapRun sampleLayout.tables HasRoom (sampleLayout.start fun _ => 0) sampleKmap [] :=
  .start fun _ hle hi => sampleLayout.start_window _ hle hi

theorem hasRoom_sampleKmap : HasRoom sampleKmap [] := show (0x38000 : ℕ) < 0x40000 by decide

/-- The registers of an IO APIC at the start of a page. -/
theorem kmap_translates_ioApic :
    pageWalk (kmap sampleLayout.tables sampleKmap 0xFEC00000 2).1.words
      (physAddr sampleLayout.swapperPageDir) (kmap sampleLayout.tables sampleKmap 0xFEC00000 2).2 =
        some 0xFEC00000 :=
  (kmap_translates_iff sampleLayout _ kmapRun_sampleKmap hasRoom_sampleKmap (by decide) 2).mpr
    (Or.inr rfl)

/-- **The registers of an IO APIC further in its page**: the pointer is mapped to the start of the
page. -/
theorem kmap_drops_offset :
    KmapRun sampleLayout.tables HasRoom (sampleLayout.start fun _ => 0) sampleKmap [] ∧
    HasRoom sampleKmap [] ∧
    pageWalk (kmap sampleLayout.tables sampleKmap 0xFEC00400 2).1.words
      (physAddr sampleLayout.swapperPageDir) (kmap sampleLayout.tables sampleKmap 0xFEC00400 2).2 =
        some 0xFEC00000 ∧
    pageWalk (kmap sampleLayout.tables sampleKmap 0xFEC00400 2).1.words
      (physAddr sampleLayout.swapperPageDir) (kmap sampleLayout.tables sampleKmap 0xFEC00400 2).2 ≠
        some 0xFEC00400 := by
  have hwindow := kmapRun_sampleKmap.window fun _ _ _ hroom => hroom
  have hframe : pagePaddr 0xFEC00400 = 0xFEC00000 := by decide
  have hhigh : kmapOffset - pageOffset ≤ 0xFEC00400 := by decide
  have hwalk := Layout.pageWalk_kmap_high hwindow hhigh (show 0xFEC00400 < 2 ^ 32 by decide)
    hasRoom_sampleKmap 2
  rw [hframe] at hwalk
  exact ⟨kmapRun_sampleKmap, hasRoom_sampleKmap, hwalk,
    fun h => absurd (hwalk.symm.trans h) (by decide)⟩

end Auos
