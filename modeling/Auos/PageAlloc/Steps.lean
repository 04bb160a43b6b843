import Auos.PageAlloc.Holds

/-!
# The two operations on a zone

`free_pages` and `alloc_pages_node` refine the operations of a pool. Each has a loop whose invariant
is about one *loose* block that is neither free nor live: it is disjoint from the free blocks, and
with them it makes up a fixed set of points.

The test of the merge loop reads the `order` field of the sibling's first page. That page heads a
block (`head_of_sibling_base_mem`): every frame of the zone lies in a free block, a live block or the
loose one. So a field that agrees is that of the sibling itself, as a free block
(`Holds.order_eq_iff`).

## Main results

* `freePages_merge`, `freePages_spec` — freeing a live block
* `allocPagesNode_spec` — allocation, with the exact condition for failure
-/

namespace Auos

open Block

variable {s : PageListData} {zone : ZoneType} {startPfn endPfn k n : ℕ} {nodes : ℕ → List ListNode}
  {F L : Set Block} {P : Set ℕ} {b c : Block}

/-- A block beside coalesced free blocks, which together make up `P`. -/
structure Loose (P : Set ℕ) (F : Set Block) (b : Block) : Prop where
  buddy : IsBuddySet maxOrder F
  fresh : Disjoint b.points (cover F)
  cover_eq : cover F ∪ b.points = P

namespace Loose

theorem base_ne (h : Loose P F b) : ∀ c ∈ F, c.base ≠ b.base := base_ne_of_disjoint h.fresh

theorem points_subset (h : Loose P F b) : b.points ⊆ P := h.cover_eq ▸ Set.subset_union_right

/-- Blocks outside `P` have other first frames. -/
theorem base_ne_of_live (h : Loose P F b) (hP : Disjoint P (cover L)) : ∀ c ∈ L, c.base ≠ b.base :=
  base_ne_of_disjoint (hP.mono_left h.points_subset)

theorem merge (h : Loose P F b) (hs : b.sibling ∈ F) : Loose P (F \ {b.sibling}) b.parent := by
  obtain ⟨hbuddy, hfresh, hcov⟩ := h.buddy.merge h.fresh hs
  exact ⟨hbuddy, hfresh, hcov.trans h.cover_eq⟩

theorem split (h : Loose P F b) (h0 : b.order ≠ 0) (hk : b.order < maxOrder) :
    Loose P (insert b.upper F) b.lower := by
  obtain ⟨hbuddy, hfresh, hcov⟩ := h.buddy.split h.fresh h0 hk
  exact ⟨hbuddy, hfresh, hcov.trans h.cover_eq⟩

end Loose

/-! ### `free_pages` -/

/-- The test of the merge loop is exact: within the zone, the field agrees with the order of the
loose block exactly when its sibling is free. -/
theorem Holds.order_eq_iff (h : Holds s zone startPfn endPfn nodes F L) (hl : Loose P F b)
    (hP : Disjoint P (cover L)) (hS : P ∪ cover L = Set.Ico startPfn endPfn)
    (hzone : b.sibling.base ∈ Set.Ico startPfn endPfn) :
    (b.order : ℤ) = (s.pages b.sibling.base).order ↔ b.sibling ∈ F := by
  constructor
  · intro heq
    have hdisj : Disjoint b.points (cover (F ∪ L)) := by
      rw [cover_union]
      exact Set.disjoint_union_right.mpr ⟨hl.fresh, hP.mono_left hl.points_subset⟩
    have hmem : b.sibling.base ∈ cover (F ∪ L) := by
      rw [← hS, ← hl.cover_eq] at hzone
      rw [cover_union]
      rcases hzone with (hF | hb) | hL
      · exact Or.inl hF
      · exact absurd b.sibling.base_mem (Set.disjoint_left.mp b.disjoint_sibling hb)
      · exact Or.inr hL
    obtain ⟨c, hc, hbase, -⟩ := head_of_sibling_base_mem hdisj hmem
    rcases hc with hc | hc
    · have horder := h.free_order c hc
      rw [hbase, ← heq] at horder
      rwa [← eq_of_base_eq hbase (by rw [order_sibling]; exact_mod_cast horder.symm)]
    · have horder := h.live_order c hc
      rw [hbase, ← heq] at horder
      omega
  · intro hs
    exact (h.free_order _ hs).symm

/-- The merge loop ends with a loose block that has no free sibling to merge with. -/
theorem freePagesNodeLoop_spec (hP : Disjoint P (cover L))
    (hS : P ∪ cover L = Set.Ico startPfn endPfn) (h : Holds s zone startPfn endPfn nodes F L)
    (hl : Loose P F b) (hn : b.order + n = maxOrder - 1) :
    ∃ s' nodes' F' c,
      freePagesNodeLoop zone n s b.base b.base b.order = (s', c.base, c.order) ∧
      Holds s' zone startPfn endPfn nodes' F' L ∧ Loose P F' c ∧ c.order < maxOrder ∧
      (c.order + 1 < maxOrder → c.sibling ∉ F') ∧ b.points ⊆ c.points := by
  induction n generalizing s nodes F b with
  | zero =>
    have htop : maxOrder = 11 := rfl
    exact ⟨s, nodes, F, b, rfl, h, hl, by omega, fun hlt => by omega, le_rfl⟩
  | succ n ih =>
    have hstop : b.sibling ∉ F → ∃ s' nodes' F' c, (s, b.base, b.order) = (s', c.base, c.order) ∧
        Holds s' zone startPfn endPfn nodes' F' L ∧ Loose P F' c ∧ c.order < maxOrder ∧
        (c.order + 1 < maxOrder → c.sibling ∉ F') ∧ b.points ⊆ c.points :=
      fun hs => ⟨s, nodes, F, b, rfl, h, hl, by omega, fun _ => hs, le_rfl⟩
    rw [freePagesNodeLoop]
    simp only [buddyPfn_base, h.zone_eq, pfnToPage_eq h.node_start]
    by_cases hzone : b.sibling.base ≥ endPfn ∨ b.sibling.base < startPfn
    · -- the buddy is outside the zone, where no block is free
      rw [if_pos hzone]
      refine hstop ?_
      intro hs
      have hmem : b.sibling.base ∈ Set.Ico startPfn endPfn := by
        rw [← hS, ← hl.cover_eq]
        exact Or.inl (Or.inl (points_subset_cover hs b.sibling.base_mem))
      rcases hzone with hge | hlt
      · exact absurd hmem.2 (not_lt.mpr hge)
      · exact absurd hmem.1 (not_le.mpr hlt)
    rw [if_neg hzone]
    have hmem : b.sibling.base ∈ Set.Ico startPfn endPfn := by
      rw [Set.mem_Ico]
      omega
    have htest := h.order_eq_iff hl hP hS hmem
    by_cases horder : (b.order : ℤ) = (s.pages b.sibling.base).order
    swap
    · rw [if_pos horder]
      exact hstop fun hs => horder (htest.mpr hs)
    rw [if_neg (not_not.mpr horder)]
    have hs := htest.mp horder
    have hlt : b.sibling.order < maxOrder := by rw [order_sibling]; omega
    obtain ⟨s', nodes', F', c, hround, hs', hc, hck, hcs, hsub⟩ :=
      ih (h.remove hs hlt) (hl.merge hs) (by rw [order_parent]; omega)
    refine ⟨s', nodes', F', c, ?_, hs', hc, hck, hcs, b.points_subset_parent.trans hsub⟩
    -- the merged block starts at the lower of the two
    rw [base_parent, order_parent] at hround
    by_cases hlow : b.sibling.base < b.base
    · rw [if_pos hlow]
      rwa [min_eq_right hlow.le] at hround
    · rw [if_neg hlow]
      rwa [min_eq_left (not_lt.mp hlow)] at hround

/-- The merge loop writes no page. -/
theorem freePagesNodeLoop_pages (page pfn order : ℕ) :
    (freePagesNodeLoop zone n s page pfn order).1.pages = s.pages := by
  induction n generalizing s page pfn order with
  | zero => rfl
  | succ n ih =>
    rw [freePagesNodeLoop]
    dsimp only
    split_ifs
    · rfl
    · rfl
    · exact (ih _ _ _).trans remove_pages
    · exact (ih _ _ _).trans remove_pages

/-- What `free_pages` does with a live block: it merges it with free blocks into a last one, and
writes the `order` field of the last block's first page only. -/
theorem freePages_merge (p : Pool maxOrder (Set.Ico startPfn endPfn))
    (h : Holds s zone startPfn endPfn nodes p.free p.live) (hb : b ∈ p.live)
    (hk : b.order < maxOrder) :
    ∃ s' nodes' F' c, freePages s b.base b.order = some s' ∧
      IsBuddySet maxOrder (insert c F') ∧ cover (insert c F') = cover p.free ∪ b.points ∧
      b.points ⊆ c.points ∧ Holds s' zone startPfn endPfn nodes' (insert c F') (p.live \ {b}) ∧
      s'.pages = Function.update s.pages c.base { s.pages c.base with order := c.order } := by
  have horder := h.live_order b hb
  have hbase : b.base ∈ Set.Ico startPfn endPfn := by
    rw [← p.cover_eq]
    exact Or.inr (points_subset_cover hb b.base_mem)
  have hlive := cover_diff_singleton p.live_disjoint hb
  have hl : Loose (cover p.free ∪ b.points) p.free b := ⟨p.buddy, p.disjoint_of_mem_live hb, rfl⟩
  have hP : Disjoint (cover p.free ∪ b.points) (cover (p.live \ {b})) := by
    rw [hlive]
    exact Set.disjoint_union_left.mpr
      ⟨p.apart.symm.mono_right Set.sdiff_subset, Set.disjoint_sdiff_right⟩
  have hS : cover p.free ∪ b.points ∪ cover (p.live \ {b}) = Set.Ico startPfn endPfn := by
    rw [hlive, Set.union_assoc, Set.union_sdiff_cancel (points_subset_cover hb), p.cover_eq]
  obtain ⟨s', nodes', F', c, hloop, hs', hc, hck, hcs, hbc⟩ :=
    freePagesNodeLoop_spec hP hS (h.mono Set.sdiff_subset) hl
      (show b.order + (maxOrder - 1 - b.order) = maxOrder - 1 by omega)
  have hpages : s'.pages = s.pages := by
    rw [← @freePagesNodeLoop_pages s zone (maxOrder - 1 - b.order) b.base b.base b.order, hloop]
  refine ⟨_, _, F', c, ?_, hc.buddy.insert_last hc.fresh hck hcs, ?_, hbc,
    hs'.insert hc.base_ne (hc.base_ne_of_live hP) hck, ?_⟩
  · rw [freePages, h.page_zone _ hbase.1 hbase.2, horder, if_pos (by omega), freePagesNode,
      pageToPfn_eq h.node_start]
    simp only [hloop, hck, if_true]
  · rw [cover_insert, Set.union_comm, hc.cover_eq]
  · rw [insertBefore_pages, PageListData.setOrder, hpages]

/-- **`free_pages` releases a live block.** -/
theorem freePages_spec (p : Pool maxOrder (Set.Ico startPfn endPfn))
    (h : Holds s zone startPfn endPfn nodes p.free p.live) (hb : b ∈ p.live)
    (hk : b.order < maxOrder) :
    ∃ s' nodes' q, freePages s b.base b.order = some s' ∧ Pool.Release b p q ∧
      Holds s' zone startPfn endPfn nodes' q.free q.live := by
  obtain ⟨s', nodes', F', c, hret, hF, hcov, -, hs', -⟩ := freePages_merge p h hb hk
  exact ⟨s', nodes', p.release hb hF hcov, hret, p.release_spec hb hF hcov, hs'⟩

/-! ### `alloc_pages_node` -/

/-- The scan ends at the first order from `k` on whose list is not empty. -/
theorem allocPagesNodeScan_spec
    (hrings : s.links.Rings {k | k < maxOrder} (ListNode.freeArea zone) nodes)
    (hn : k + n = maxOrder) :
    k ≤ allocPagesNodeScan s zone n k ∧ allocPagesNodeScan s zone n k ≤ maxOrder ∧
      (∀ j, k ≤ j → j < allocPagesNodeScan s zone n k → nodes j = []) ∧
      (allocPagesNodeScan s zone n k < maxOrder → nodes (allocPagesNodeScan s zone n k) ≠ []) := by
  induction n generalizing k with
  | zero =>
    rw [allocPagesNodeScan]
    exact ⟨le_rfl, by omega, fun j h₁ h₂ => absurd h₁ (not_le.mpr h₂), fun hlt => by omega⟩
  | succ n ih =>
    have hk : k < maxOrder := by omega
    have hempty : listEmpty s.links (.freeArea zone k) = true ↔ nodes k = [] :=
      listEmpty_iff hrings hk
    rw [allocPagesNodeScan]
    by_cases hnil : nodes k = []
    · rw [if_neg (by simp [hempty.mpr hnil])]
      obtain ⟨h₁, h₂, h₃, h₄⟩ := ih (k := k + 1) (by omega)
      refine ⟨by omega, h₂, ?_, h₄⟩
      intro j hj hlt
      rcases Nat.eq_or_lt_of_le hj with rfl | hj
      · exact hnil
      · exact h₃ j hj hlt
    · rw [if_pos (by simp [mt hempty.mp hnil])]
      exact ⟨le_rfl, hk.le, fun j h₁ h₂ => absurd h₁ (not_le.mpr h₂), fun _ => hnil⟩

/-- The split loop frees the upper halves down to order `k`. -/
theorem allocPagesNodeSplit_spec (hP : Disjoint P (cover L))
    (h : Holds s zone startPfn endPfn nodes F L) (hl : Loose P F b) (hb : b.order < maxOrder)
    (hn : k + n = b.order) :
    ∃ nodes' F' c, Holds (allocPagesNodeSplit zone n s b.base b.order) zone startPfn endPfn nodes'
      F' L ∧ Loose P F' c ∧ c.base = b.base ∧ c.order = k ∧ c.points ⊆ b.points := by
  induction n generalizing s nodes F b with
  | zero => exact ⟨nodes, F, b, h, hl, rfl, by omega, le_rfl⟩
  | succ n ih =>
    have h0 : b.order ≠ 0 := by omega
    have hsplit := points_split h0
    have hup : b.upper.points ⊆ b.points := hsplit ▸ Set.subset_union_right
    have hupper : buddyPfn b.base (b.order - 1) = b.upper.base := by
      rw [← base_lower h0, ← order_lower, buddyPfn_base, upper]
    have hins := h.insert (base_ne_of_disjoint (hl.fresh.mono_left hup))
      (base_ne_of_disjoint (hP.mono_left (hup.trans hl.points_subset)))
      (show b.upper.order < maxOrder by rw [order_upper]; omega)
    obtain ⟨nodes', F', c, hret, hc, hbase, hck, hsub⟩ := ih hins (hl.split h0 hb)
      (by rw [order_lower]; omega) (by rw [order_lower]; omega)
    refine ⟨nodes', F', c, ?_, hc, by rw [hbase, base_lower h0], hck,
      hsub.trans (hsplit ▸ Set.subset_union_left)⟩
    rw [base_lower h0, order_lower, order_upper] at hret
    rw [allocPagesNodeSplit]
    simp only [pageToPfn_eq h.node_start, pfnToPage_eq h.node_start, hupper]
    exact hret

/-- **`alloc_pages_node` acquires a block**, or fails without a change when every free block is too
small. -/
theorem allocPagesNode_spec (p : Pool maxOrder (Set.Ico startPfn endPfn))
    (h : Holds s zone startPfn endPfn nodes p.free p.live) (hk : k < maxOrder) :
    (allocPagesNode s k zone = some (s, none) ∧ ∀ b ∈ p.free, b.order < k) ∨
    ∃ b s' nodes' q, allocPagesNode s k zone = some (s', some b.base) ∧ Pool.Acquire k b p q ∧
      Holds s' zone startPfn endPfn nodes' q.free q.live := by
  have hsum : k + (maxOrder - k) = maxOrder := by omega
  obtain ⟨hge, -, hbelow, hfound⟩ := allocPagesNodeScan_spec h.rings hsum
  rw [allocPagesNode]
  generalize allocPagesNodeScan s zone (maxOrder - k) k = corder at *
  by_cases hnone : corder ≥ maxOrder
  · refine Or.inl ⟨by rw [if_pos hnone], ?_⟩
    intro b hb
    by_contra hle
    have hbk := p.buddy.order_lt b hb
    have hmem := (h.mem_nodes _ hbk _).mpr ⟨b, hb, rfl, rfl⟩
    rw [hbelow b.order (by omega) (by omega)] at hmem
    simp at hmem
  have hc : corder < maxOrder := by omega
  obtain ⟨x, xs, hnodes⟩ := List.exists_cons_of_ne_nil (hfound hc)
  obtain ⟨b, hb, rfl, rfl⟩ := (h.mem_nodes corder hc x).mp (by simp [hnodes])
  have hnext : s.links.next (.freeArea zone b.order) = .chain b.base := h.rings.next_head hc hnodes
  have hsub : b.points ⊆ cover p.free := points_subset_cover hb
  have hcov := cover_diff_singleton p.buddy.disjoint hb
  have hl : Loose (cover p.free) (p.free \ {b}) b :=
    ⟨p.buddy.subset Set.sdiff_subset, hcov ▸ Set.disjoint_sdiff_right,
      by rw [hcov, Set.sdiff_union_of_subset hsub]⟩
  obtain ⟨nodes', F', c, hs', hcl, hbase, hck, hcb⟩ :=
    allocPagesNodeSplit_spec p.apart.symm (h.remove hb hc) hl hc
      (show k + (b.order - k) = b.order by omega)
  have hset := hs'.setLive hcl.base_ne (hcl.base_ne_of_live p.apart.symm)
  have hcov' : cover F' = cover p.free \ c.points := by
    rw [← hcl.cover_eq, Set.union_sdiff_right, sdiff_eq_left.mpr hcl.fresh.symm]
  refine Or.inr ⟨c, _, nodes', p.acquire hcl.points_subset hcl.buddy hcov', ?_,
    hck ▸ p.acquire_spec hcl.points_subset hcl.buddy hcov', hset⟩
  rw [if_neg hnone, hnext, containerOf, Option.bind_eq_bind, Option.bind_some, hbase, hck]

end Auos
