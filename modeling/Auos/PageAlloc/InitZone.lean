import Auos.PageAlloc.Runs
import Auos.BootMem.Runs

/-!
# The hand-over from the boot allocator

The last loop of `init_zone` asks the boot allocator about every frame of the zone and frees those it
says are free. It passes the address of the frame and the *size* of a frame, where
`boot_mem_is_free` expects the two ends of a range. So every frame but the first is asked about
through an empty or reversed range, and the answer does not depend on the tables.

## Main definitions

* `FrameAvailable` — the frame lies in a memory range and meets no reserved one
* `TreatedAsFree` — what the loop frees

## Main results

* `initZone_spec` — the frames that are free afterwards
* `initZone_available_iff` — when these are the available ones
* `initZone_frees_reserved` — a reserved frame on the free lists
-/

namespace Auos

open Block BootMemType

/-- The whole frame lies inside a memory range and meets no reserved range. -/
def FrameAvailable (b : BootMem) (pfn : ℕ) : Prop :=
  (∃ m ∈ b.memory.contents,
    m.beginAddr ≤ pfn * pageSize ∧ pfn * pageSize + pageSize ≤ m.endAddr) ∧
    Clear b.reserved.contents (pfn * pageSize) pageSize

/-- What the last loop of `init_zone` frees: everything but an available frame `0`. -/
def TreatedAsFree (b : BootMem) (pfn : ℕ) : Prop := ¬ (pfn = 0 ∧ FrameAvailable b 0)

variable {node s : PageListData} {zone : ZoneType} {b : BootMem} {startPfn endPfn pfn n : ℕ}
  {freed : Set ℕ}

/-- The tables of the boot allocator when their ranges do not overlap. -/
structure BootMem.Separate (b : BootMem) : Prop where
  memory_fits : b.memory.Fits
  memory_apart : Apart b.memory.contents
  reserved_fits : b.reserved.Fits
  reserved_apart : Apart b.reserved.contents

theorem wrap_frame (h : pfn < 2 ^ 20) : wrap (pfn <<< pageShift) = pfn * pageSize := by
  rw [Nat.shiftLeft_eq]
  exact wrap_of_lt (show pfn * 2 ^ 12 < 2 ^ 32 by omega)

/-- Asking about frame `0`, the only one whose address is below the size of a frame. -/
theorem bootMemIsFree_frame_zero (hb : b.Separate) :
    ∃ ret, bootMemIsFree b 0 pageSize = some ret ∧ (ret = true ↔ ¬ FrameAvailable b 0) := by
  obtain ⟨x, hfind, hfit⟩ := bootMemFind_spec hb.memory_fits hb.reserved_fits
    hb.memory_apart.ordered hb.reserved_apart.ordered (hb.memory_apart.cursorSafe _ _ _)
    (show 0 < 32 by decide) (show 0 < pageSize by decide) (Nat.zero_le pageSize) (by decide)
  refine ⟨decide (x ≠ 0), ?_, ?_⟩
  · rw [bootMemIsFree, wsub_of_le (Nat.zero_le _) (by decide), Nat.sub_zero,
      show 1 = 2 ^ 0 from rfl, hfind]
    rfl
  rw [decide_eq_true_iff]
  rcases hfit with ⟨rfl, hnone⟩ | ⟨hx, -⟩
  · refine iff_of_true (by decide) fun ⟨⟨m, hm, h₁, h₂⟩, hclear⟩ => hnone 0 ?_
    simp only [Nat.zero_mul, Nat.zero_add] at h₁ h₂ hclear
    exact ⟨one_dvd _, le_rfl, by simp, ⟨m, hm, h₁, by simpa using h₂⟩, hclear⟩
  · have hzero : x = 0 := by have := hx.le_to; omega
    subst hzero
    refine iff_of_false (not_not.mpr rfl) (not_not.mpr ⟨?_, ?_⟩)
    · simpa using hx.inside
    · simpa using hx.clear

/-- From frame `1` on the range asked about is empty or reversed. -/
theorem bootMemIsFree_frame_pos (b : BootMem) (h0 : pfn ≠ 0) (h : pfn < 2 ^ 20) :
    bootMemIsFree b (pfn * pageSize) pageSize = some true := by
  have hfind : bootMemFind b (wsub pageSize (pfn * pageSize)) 1 (pfn * pageSize) pageSize =
      some pageSize := by
    rcases Nat.lt_or_ge 1 pfn with hlt | hge
    · rw [bootMemFind, if_pos (Or.inl (show pfn * 4096 > 4096 by omega))]
    · obtain rfl : pfn = 1 := by omega
      rw [Nat.one_mul, wsub_of_le le_rfl (by decide), Nat.sub_self, bootMemFind, if_neg (by simp),
        if_pos rfl]
  rw [bootMemIsFree, hfind]
  rfl

theorem bootMemIsFree_frame (hb : b.Separate) (h : pfn < 2 ^ 20) :
    ∃ ret, bootMemIsFree b (wrap (pfn <<< pageShift)) pageSize = some ret ∧
      (ret = true ↔ TreatedAsFree b pfn) := by
  rw [wrap_frame h]
  rcases eq_or_ne pfn 0 with rfl | h0
  · rw [Nat.zero_mul]
    simpa [TreatedAsFree] using bootMemIsFree_frame_zero hb
  · exact ⟨true, bootMemIsFree_frame_pos b h0 h, by simp [TreatedAsFree, h0]⟩

/-- The last loop of `init_zone` is the first phase of a run. -/
theorem initZoneFree_spec (hb : b.Separate) (h0 : node.startPfn = 0) (hle : startPfn ≤ endPfn)
    (hend : endPfn ≤ 2 ^ 20) (h : FreshRun node zone startPfn endPfn freed s)
    (hfreed : ∀ q ∈ freed, q < pfn) (hpfn : startPfn ≤ pfn) (hn : pfn + n = endPfn) :
    ∃ s', initZoneFree b n s pfn = some s' ∧
      FreshRun node zone startPfn endPfn
        (freed ∪ {q | pfn ≤ q ∧ q < endPfn ∧ TreatedAsFree b q}) s' := by
  induction n generalizing freed s pfn with
  | zero =>
    have hnone : {q | pfn ≤ q ∧ q < endPfn ∧ TreatedAsFree b q} = ∅ := by
      ext q
      simp only [Set.mem_ofPred_eq, Set.mem_empty_iff_false, iff_false]
      omega
    exact ⟨s, rfl, by rwa [hnone, Set.union_empty]⟩
  | succ n ih =>
    obtain ⟨nodes, p, hs⟩ := h.accounts h0 hle (by omega)
    have hstart := hs.holds.node_start
    obtain ⟨ret, hret, hfree⟩ := bootMemIsFree_frame hb (show pfn < 2 ^ 20 by omega)
    rw [initZoneFree, hret, hstart, Option.bind_eq_bind, Option.bind_some, Nat.sub_zero]
    have hset : ∀ q, (pfn ≤ q ∧ q < endPfn ∧ TreatedAsFree b q) ↔
        (q = pfn ∧ TreatedAsFree b pfn) ∨ (pfn + 1 ≤ q ∧ q < endPfn ∧ TreatedAsFree b q) := by
      intro q
      rcases eq_or_ne q pfn with rfl | hne
      · simp only [le_refl, true_and]
        exact ⟨fun h => Or.inl h.2, fun h => ⟨by omega, h.resolve_right (by omega)⟩⟩
      · have : pfn ≤ q ↔ pfn + 1 ≤ q := by omega
        simp [hne, this]
    by_cases htreated : TreatedAsFree b pfn
    · rw [if_pos (hfree.mpr htreated)]
      have hnew : pfn ∉ freed := fun hmem => lt_irrefl pfn (hfreed pfn hmem)
      obtain ⟨s₁, -, -, hstep, -⟩ := hs.freeFrame ⟨hpfn, by omega⟩ hnew
      have hbelow : ∀ q ∈ insert pfn freed, q < pfn + 1 := by
        rintro q (rfl | hq)
        · exact Nat.lt_succ_self _
        · exact (hfreed q hq).trans (Nat.lt_succ_self _)
      obtain ⟨s', hs', hrun⟩ :=
        ih (h.free hpfn (by omega) hnew hstep) hbelow (by omega) (by omega)
      refine ⟨s', by dsimp only; rw [hstep]; exact hs', ?_⟩
      convert hrun using 1
      ext q
      simp only [Set.mem_union, Set.mem_insert_iff, Set.mem_ofPred_eq, hset q, htreated, and_true]
      rw [← or_assoc, @or_comm (q ∈ freed)]
    · rw [if_neg (mt hfree.mp htreated)]
      obtain ⟨s', hs', hrun⟩ := ih h (fun q hq => (hfreed q hq).trans (Nat.lt_succ_self _))
        (by omega) (by omega)
      refine ⟨s', hs', ?_⟩
      convert hrun using 1
      ext q
      simp only [Set.mem_union, Set.mem_ofPred_eq, hset q, htreated, and_false, false_or]

/-- After `init_zone` the free frames are those the loop takes for free. -/
theorem initZone_spec (hb : b.Separate) (zone : ZoneType) (h0 : node.startPfn = 0)
    (hle : startPfn ≤ endPfn) (hend : endPfn ≤ 2 ^ 20) :
    ∃ s, initZone b node zone startPfn endPfn = some s ∧
      freeFrames s zone = {q | startPfn ≤ q ∧ q < endPfn ∧ TreatedAsFree b q} := by
  have hfresh : FreshRun node zone startPfn endPfn ∅ _ := .init
  obtain ⟨s, hret, hrun⟩ := initZoneFree_spec hb h0 hle hend hfresh (by simp) le_rfl
    (show startPfn + (endPfn - startPfn) = endPfn by omega)
  obtain ⟨nodes, p, hs⟩ := hrun.accounts h0 hle (by omega)
  refine ⟨s, by rw [initZone, wsub_of_le hle (by omega)]; exact hret, ?_⟩
  rw [hs.freeFrames_eq, hs.cover_free]
  simp

/-- **The hand-over is right only where there is nothing to decide**: in an empty zone, and in a zone
without frame `0` all of whose frames are available. -/
theorem initZone_available_iff (hb : b.Separate) (zone : ZoneType) (h0 : node.startPfn = 0)
    (hle : startPfn ≤ endPfn) (hend : endPfn ≤ 2 ^ 20) :
    ∃ s, initZone b node zone startPfn endPfn = some s ∧
      (freeFrames s zone = {q | startPfn ≤ q ∧ q < endPfn ∧ FrameAvailable b q} ↔
        startPfn = endPfn ∨
          (0 < startPfn ∧ ∀ q, startPfn ≤ q → q < endPfn → FrameAvailable b q)) := by
  obtain ⟨s, hret, hfree⟩ := initZone_spec hb zone h0 hle hend
  refine ⟨s, hret, ?_⟩
  rw [hfree, Set.ext_iff]
  simp only [Set.mem_ofPred_eq, TreatedAsFree]
  constructor
  · intro h
    rcases Nat.eq_or_lt_of_le hle with heq | hlt
    · exact Or.inl heq
    have hpos : 0 < startPfn := by
      by_contra hzero
      obtain rfl : startPfn = 0 := by omega
      by_cases ha : FrameAvailable b 0
      · exact ((h 0).mpr ⟨le_rfl, hlt, ha⟩).2.2 ⟨rfl, ha⟩
      · exact ha ((h 0).mp ⟨le_rfl, hlt, fun e => ha e.2⟩).2.2
    exact Or.inr ⟨hpos, fun q h₁ h₂ => ((h q).mp ⟨h₁, h₂, fun e => by omega⟩).2.2⟩
  · rintro (rfl | ⟨hpos, hall⟩) q
    · exact iff_of_false (by omega) (by omega)
    · constructor
      · exact fun ⟨h₁, h₂, _⟩ => ⟨h₁, h₂, hall q h₁ h₂⟩
      · exact fun ⟨h₁, h₂, _⟩ => ⟨h₁, h₂, fun e => by omega⟩

/-- A memory range of two frames, the second of which is reserved. -/
theorem exists_separate : ∃ b₁ b, bootMemAdd .empty 0 8192 = some (0, b₁) ∧
    bootMemReserve b₁ 4096 8192 = some (0, b) ∧ b.Separate ∧
    b.memory.contents = [⟨0, 8192⟩] ∧ b.reserved.contents = [⟨4096, 8192⟩] := by
  have hone : 1 ≤ bootMemRanges := by decide
  refine ⟨_, _, rfl, rfl, ⟨hone, ?_, hone, ?_⟩, rfl, rfl⟩
  · exact apart_cons.mpr ⟨by decide, by simp, by simp, List.Pairwise.nil⟩
  · exact apart_cons.mpr ⟨by decide, by simp, by simp, List.Pairwise.nil⟩

theorem initZone_available_iff_two : ∃ b₁ b s, bootMemAdd .empty 0 8192 = some (0, b₁) ∧
    bootMemReserve b₁ 4096 8192 = some (0, b) ∧
    initZone b blankNode .normal 0 2 = some s ∧
    (freeFrames s .normal = {q | 0 ≤ q ∧ q < 2 ∧ FrameAvailable b q} ↔
      0 = 2 ∨ (0 < 0 ∧ ∀ q, 0 ≤ q → q < 2 → FrameAvailable b q)) := by
  obtain ⟨b₁, b, h₁, h₂, hb, -⟩ := exists_separate
  obtain ⟨s, hs⟩ :=
    initZone_available_iff hb .normal (show blankNode.startPfn = 0 from rfl) (Nat.zero_le 2)
      (by decide)
  exact ⟨b₁, b, s, h₁, h₂, hs⟩

/-- **A reserved frame ends up on the free lists.** With `[0, 8192)` in the memory table and
`[4096, 8192)` reserved, `init_zone` frees frame `1` and leaves frame `0` taken. -/
theorem initZone_frees_reserved : ∃ b₁ b s, bootMemAdd .empty 0 8192 = some (0, b₁) ∧
    bootMemReserve b₁ 4096 8192 = some (0, b) ∧ b.Separate ∧ blankNode.startPfn = 0 ∧
    initZone b blankNode .normal 0 2 = some s ∧
    1 ∈ freeFrames s .normal ∧ ¬ FrameAvailable b 1 ∧
    0 ∉ freeFrames s .normal ∧ FrameAvailable b 0 := by
  obtain ⟨b₁, b, h₁, h₂, hb, hmem, hres⟩ := exists_separate
  obtain ⟨s, hret, hfree⟩ :=
    initZone_spec hb .normal (show blankNode.startPfn = 0 from rfl) (Nat.zero_le 2) (by decide)
  have havail : FrameAvailable b 0 := by
    simp only [FrameAvailable, Clear, hmem, hres, List.mem_singleton, forall_eq, exists_eq_left]
    decide
  have htaken : ¬ FrameAvailable b 1 := by
    simp only [FrameAvailable, Clear, hmem, hres, List.mem_singleton, forall_eq, exists_eq_left]
    decide
  refine ⟨b₁, b, s, h₁, h₂, hb, rfl, hret, ?_, htaken, ?_, havail⟩
  · rw [hfree]
    simp [TreatedAsFree]
  · rw [hfree]
    simp [TreatedAsFree, havail]

end Auos
