import Auos.PageAlloc.Steps

/-!
# The start of a zone

What the first two loops of `init_zone` build out of an arbitrary node: empty free lists, and pages
that all belong to the zone and carry the order `-1` of a live single frame. Freeing starts here.

## Main results

* `holds_initZoneLists`
-/

namespace Auos

open Block

variable {s : PageListData} {zone : ZoneType} {startPfn endPfn pfn i n : ℕ}

/-- The heads that have been initialised are empty lists. -/
theorem rings_initZoneFreeArea
    (h : s.links.Rings {k | k < i} (ListNode.freeArea zone) fun _ => []) :
    (initZoneFreeArea zone n s i).links.Rings {k | k < i + n} (ListNode.freeArea zone)
      fun _ => [] := by
  induction n generalizing s i with
  | zero => exact h
  | succ n ih =>
    have hnew : ∀ j ∈ {k | k < i}, ListNode.freeArea zone i ∉ [ListNode.freeArea zone j] := by
      intro j hj hmem
      cases List.mem_singleton.mp hmem
      exact lt_irrefl i hj
    have hstep := Links.Rings.listInitHead h rfl hnew
    have hset : insert i {k | k < i} = {k | k < i + 1} := by
      ext k
      simp only [Set.mem_insert_iff, Set.mem_ofPred_eq]
      omega
    rw [hset] at hstep
    rw [initZoneFreeArea, show i + (n + 1) = i + 1 + n by omega]
    exact ih hstep

theorem initZoneFreeArea_frame (s : PageListData) (zone : ZoneType) (n i : ℕ) :
    (initZoneFreeArea zone n s i).zones = s.zones ∧
      (initZoneFreeArea zone n s i).startPfn = s.startPfn ∧
      (initZoneFreeArea zone n s i).pages = s.pages := by
  induction n generalizing s i with
  | zero => exact ⟨rfl, rfl, rfl⟩
  | succ n ih => exact ih _ _

/-- The loop over the pages touches no free list and sets every page of its range. -/
theorem initZonePages_spec (n pfn : ℕ) (h0 : s.startPfn = 0)
    (h : s.links.Rings {k | k < maxOrder} (ListNode.freeArea zone) fun _ => []) :
    (initZonePages zone n s pfn).zones = s.zones ∧ (initZonePages zone n s pfn).startPfn = 0 ∧
      (initZonePages zone n s pfn).links.Rings {k | k < maxOrder} (ListNode.freeArea zone)
        (fun _ => []) ∧
      (∀ q, q < pfn → (initZonePages zone n s pfn).pages q = s.pages q) ∧
      ∀ q, pfn ≤ q → q < pfn + n → (initZonePages zone n s pfn).pages q = ⟨zone, -1⟩ := by
  induction n generalizing s pfn with
  | zero => exact ⟨rfl, h0, h, fun _ _ => rfl, fun q h₁ h₂ => by omega⟩
  | succ n ih =>
    have hnew : ∀ k ∈ {k | k < maxOrder}, ListNode.chain pfn ∉ [ListNode.freeArea zone k] := by
      intro k _ hmem
      cases List.mem_singleton.mp hmem
    have hrings := h.listInitHead_of_notMem hnew
    rw [initZonePages]
    simp only [pfnToPage_eq h0, h0, Nat.sub_zero]
    obtain ⟨hz, hs, hr, hlow, hset⟩ := ih (s := { s.initHead (.chain pfn) with
      pages := Function.update s.pages pfn ⟨zone, -1⟩ }) (pfn + 1) h0 hrings
    refine ⟨hz, hs, hr, ?_, ?_⟩
    · intro q hq
      exact (hlow q (by omega)).trans (Function.update_of_ne (by omega) _ _)
    · intro q h₁ h₂
      rcases Nat.eq_or_lt_of_le h₁ with rfl | h₁
      · exact (hlow _ (Nat.lt_succ_self _)).trans (Function.update_self ..)
      · exact hset q h₁ (by omega)

/-- The loops of `init_zone` before the last one leave no free block and every frame live. -/
theorem holds_initZoneLists (node : PageListData) (zone : ZoneType) (h0 : node.startPfn = 0)
    (hle : startPfn ≤ endPfn) (hend : endPfn < 2 ^ 32) :
    Holds (initZoneLists node zone startPfn endPfn) zone startPfn endPfn (fun _ => []) ∅
      (single '' Set.Ico startPfn endPfn) := by
  rw [initZoneLists, wsub_of_le hle hend]
  generalize hnode : { node with zones := Function.update node.zones zone ⟨startPfn, endPfn⟩ } = s
  have hzero : s.startPfn = 0 := by rw [← hnode]; exact h0
  have hzone : s.zones zone = ⟨startPfn, endPfn⟩ := by rw [← hnode]; exact Function.update_self ..
  have hnone : s.links.Rings {k | k < 0} (ListNode.freeArea zone) fun _ => [] :=
    ⟨fun i hi => absurd hi (Nat.not_lt_zero i), fun i hi => absurd hi (Nat.not_lt_zero i)⟩
  have hrings := rings_initZoneFreeArea (n := maxOrder) hnone
  rw [Nat.zero_add] at hrings
  obtain ⟨hz, hs, -⟩ := initZoneFreeArea_frame s zone maxOrder 0
  obtain ⟨hz', hs', hr', -, hpages⟩ :=
    initZonePages_spec (endPfn - startPfn) startPfn (hs.trans hzero) hrings
  have hpage : ∀ q, startPfn ≤ q → q < endPfn → _ = Page.mk zone (-1) :=
    fun q h₁ h₂ => hpages q h₁ (by omega)
  refine ⟨hs', by rw [hz', hz, hzone], fun q h₁ h₂ => by rw [hpage q h₁ h₂], hr', by simp, by simp, ?_⟩
  rintro b ⟨q, hq, rfl⟩
  rw [base_single, hpage q hq.1 hq.2]
  rfl

end Auos
