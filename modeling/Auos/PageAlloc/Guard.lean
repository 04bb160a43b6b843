import Auos.PageAlloc.Runs

/-!
# The assertion of `free_pages`

`free_pages` asserts that the page it is given carries the order it is given in the negative, which is
how an allocated block is marked. A block that is freed loses the mark when it becomes the first part
of the block it merges into, because `free_pages_node` writes the `order` field of that block's first
page. When it merges into a lower buddy, nothing is written to its own page, the mark stays, and the
assertion accepts a page that is free.

So the assertion is exact as long as every freed block stays at the front of what it merges into
(`StaysHead`). That is a condition on the free frames around the block. It is also necessary: the
assertion stops being exact with the first call that violates it.

## Main definitions

* `FreeGuard` — the assertion
* `GuardRun` — runs, with the blocks that are allocated
* `GuardExact`, `StaysHead`

## Main results

* `GuardRun.freeGuard_exact` — the assertion is exact in every state of a run that keeps its heads
* `freePages_accepts_free_page` — it is not in every run
-/

namespace Auos

open Block

/-- The assertion at the head of `free_pages`. -/
def FreeGuard (s : PageListData) (page order : ℕ) : Prop :=
  (s.pages page).order < 0 ∧ -(s.pages page).order - 1 = order

/-- A run from the state `init_zone` builds before its last loop, with the allocated blocks as pairs
of page and order: at first these are the single frames of the zone. Allocations and frees come in any
order; every call of `free_pages` meets `allowed`. -/
inductive GuardRun (allowed : PageListData → ℕ → ℕ → Prop) (node : PageListData) (zone : ZoneType)
    (startPfn endPfn : ℕ) : Set (ℕ × ℕ) → PageListData → Prop
  | init : GuardRun allowed node zone startPfn endPfn
      ((fun pfn => (pfn, 0)) '' Set.Ico startPfn endPfn) (initZoneLists node zone startPfn endPfn)
  | alloc {live : Set (ℕ × ℕ)} {s s' : PageListData} {order page : ℕ} :
      GuardRun allowed node zone startPfn endPfn live s → order < maxOrder →
      allocPagesNode s order zone = some (s', some page) →
      GuardRun allowed node zone startPfn endPfn (insert (page, order) live) s'
  | allocFail {live : Set (ℕ × ℕ)} {s s' : PageListData} {order : ℕ} :
      GuardRun allowed node zone startPfn endPfn live s → order < maxOrder →
      allocPagesNode s order zone = some (s', none) →
      GuardRun allowed node zone startPfn endPfn live s'
  | free {live : Set (ℕ × ℕ)} {s s' : PageListData} {page order : ℕ} :
      GuardRun allowed node zone startPfn endPfn live s → (page, order) ∈ live → allowed s page order →
      freePages s page order = some s' →
      GuardRun allowed node zone startPfn endPfn (live \ {(page, order)}) s'

/-- The assertion holds for the allocated blocks and for nothing else. -/
def GuardExact (s : PageListData) (startPfn endPfn : ℕ) (live : Set (ℕ × ℕ)) : Prop :=
  ∀ page ∈ Set.Ico startPfn endPfn, ∀ order < maxOrder, FreeGuard s page order ↔ (page, order) ∈ live

/-- The block stays at the front when it is freed: every aligned block below `MAX_ORDER` that is made
of it and of free frames starts at its first frame. -/
def StaysHead (zone : ZoneType) (s : PageListData) (page order : ℕ) : Prop :=
  ∀ pfn k, k < maxOrder → 2 ^ k ∣ pfn → frames (pageToPfn s page, order) ⊆ frames (pfn, k) →
    frames (pfn, k) ⊆ freeFrames s zone ∪ frames (pageToPfn s page, order) → pfn = pageToPfn s page

variable {allowed : PageListData → ℕ → ℕ → Prop} {node s s' : PageListData} {zone : ZoneType}
  {startPfn endPfn pfn page order n : ℕ} {live : Set (ℕ × ℕ)} {nodes : ℕ → List ListNode}
  {F L : Set Block} {b : Block} {p : Pool maxOrder (Set.Ico startPfn endPfn)}

/-! ### What is written -/

/-- Each round of the merge loop goes up one order. -/
theorem freePagesNodeLoop_order_le (pfn : ℕ) :
    (freePagesNodeLoop zone n s page pfn order).2.2 ≤ order + n := by
  induction n generalizing s page pfn order with
  | zero => exact le_rfl
  | succ n ih =>
    rw [freePagesNodeLoop]
    dsimp only
    split_ifs
    · exact Nat.le_add_right order (n + 1)
    · exact Nat.le_add_right order (n + 1)
    · exact (ih _).trans (by omega)
    · exact (ih _).trans (by omega)

/-- Nothing but the assertion stops `free_pages`. -/
theorem exists_freePages_iff (hk : order < maxOrder) :
    (∃ s', freePages s page order = some s') ↔ FreeGuard s page order := by
  rw [freePages, FreeGuard]
  constructor
  · rintro ⟨s', hret⟩
    split_ifs at hret with hguard
    exact hguard
  · intro hguard
    have htop : order + (maxOrder - 1 - order) < maxOrder := by
      rw [Nat.add_sub_of_le (Nat.le_sub_one_of_lt hk)]
      exact Nat.lt_succ_self 10
    rw [if_pos hguard, freePagesNode]
    dsimp only
    rw [if_pos ((freePagesNodeLoop_order_le _).trans_lt htop)]
    exact ⟨_, rfl⟩

/-- The split loop writes no negative order. -/
theorem allocPagesNodeSplit_order :
    (allocPagesNodeSplit zone n s page order).pages pfn = s.pages pfn ∨
      0 ≤ ((allocPagesNodeSplit zone n s page order).pages pfn).order := by
  induction n generalizing s order with
  | zero => exact Or.inl rfl
  | succ n ih =>
    rw [allocPagesNodeSplit]
    rcases ih with hsame | hpos
    · rw [hsame, insertBefore_pages]
      rcases eq_or_ne pfn (pfnToPage s (buddyPfn (pageToPfn s page) (order - 1))) with rfl | hne
      · right
        rw [setOrder_order_self]
        exact Int.natCast_nonneg _
      · exact Or.inl (setOrder_pages_of_ne hne)
    · exact Or.inr hpos

/-- Allocation makes no `order` field negative but that of the page it returns. -/
theorem allocPagesNode_order (h : allocPagesNode s order zone = some (s', some page))
    (hne : pfn ≠ page) : s'.pages pfn = s.pages pfn ∨ 0 ≤ (s'.pages pfn).order := by
  rw [allocPagesNode] at h
  dsimp only at h
  split_ifs at h with hfull
  · cases h
  obtain ⟨head, -, h⟩ := Option.bind_eq_some_iff.mp h
  cases h
  rw [setOrder_pages_of_ne hne]
  exact allocPagesNodeSplit_order

/-! ### The invariant -/

/-- The negative `order` fields of the zone are those of the live blocks. -/
def MarksLive (s : PageListData) (startPfn endPfn : ℕ) (L : Set Block) : Prop :=
  ∀ page ∈ Set.Ico startPfn endPfn, (s.pages page).order < 0 → ∃ b ∈ L, b.base = page

/-- The zone holds a pool whose live blocks are `live`. -/
structure Ledger (s : PageListData) (zone : ZoneType) (live : Set (ℕ × ℕ))
    (p : Pool maxOrder (Set.Ico startPfn endPfn)) (nodes : ℕ → List ListNode) : Prop where
  holds : Holds s zone startPfn endPfn nodes p.free p.live
  live_eq : live = toPair '' p.live
  order_lt : ∀ b ∈ p.live, b.order < maxOrder

namespace Ledger

theorem mem_live (h : Ledger s zone live p nodes) : b.toPair ∈ live ↔ b ∈ p.live := by
  rw [h.live_eq, toPair_injective.mem_set_image]

/-- An allocated block passes the assertion. -/
theorem freeGuard (h : Ledger s zone live p nodes) (hb : b ∈ p.live) :
    FreeGuard s b.base b.order := by
  have horder := h.holds.live_order b hb
  exact ⟨by omega, by omega⟩

theorem guardExact (h : Ledger s zone live p nodes) (hmarks : MarksLive s startPfn endPfn p.live) :
    GuardExact s startPfn endPfn live := by
  intro page hpage order _
  constructor
  · rintro ⟨hneg, horder⟩
    obtain ⟨b, hb, rfl⟩ := hmarks page hpage hneg
    have hlive := h.holds.live_order b hb
    obtain rfl : b.order = order := by omega
    exact h.mem_live.mpr hb
  · intro hmem
    rw [h.live_eq] at hmem
    obtain ⟨b, hb, hpair⟩ := hmem
    cases hpair
    exact h.freeGuard hb

/-- The free frames are those of the zone outside the allocated blocks. -/
theorem freeFrames_eq (h : Ledger s zone live p nodes) :
    freeFrames s zone = Set.Ico startPfn endPfn \ ⋃ a ∈ live, frames a := by
  have hcover : ⋃ a ∈ live, frames a = cover p.live := by
    rw [h.live_eq, Set.biUnion_image]
    exact Set.iUnion₂_congr fun b _ => frames_toPair b
  rw [h.holds.freeFrames_eq p.buddy.order_lt, hcover, p.cover_free]

/-- The condition in terms of the pool. -/
theorem staysHead_iff (h : Ledger s zone live p nodes) :
    StaysHead zone s b.base b.order ↔ ∀ d : Block, d.order < maxOrder → b.points ⊆ d.points →
      d.points ⊆ cover p.free ∪ b.points → d.base = b.base := by
  have hframes : frames (b.base, b.order) = b.points := frames_toPair b
  rw [StaysHead, pageToPfn_eq h.holds.node_start, hframes,
    h.holds.freeFrames_eq p.buddy.order_lt]
  constructor
  · intro hstays d hd hsub hfree
    rw [← frames_toPair d] at hsub hfree
    exact hstays d.base d.order hd d.dvd_base hsub hfree
  · intro hstays pfn k hk hdvd hsub hfree
    have hbase : (around k pfn).base = pfn := base_around hdvd
    have hpoints : frames (pfn, k) = (around k pfn).points := by
      rw [← frames_toPair, toPair, hbase, order_around]
    rw [hpoints] at hsub hfree
    rw [← hbase]
    exact hstays (around k pfn) hk hsub hfree

/-- **Freeing an allocated block.** If it stays at the front no mark is left behind; if not, its own
is. -/
theorem free (h : Ledger s zone live p nodes) (hb : b ∈ p.live) :
    ∃ s' nodes', ∃ q : Pool maxOrder (Set.Ico startPfn endPfn),
      freePages s b.base b.order = some s' ∧ Ledger s' zone (live \ {b.toPair}) q nodes' ∧
      (MarksLive s startPfn endPfn p.live → StaysHead zone s b.base b.order →
        MarksLive s' startPfn endPfn q.live) ∧
      (¬StaysHead zone s b.base b.order → FreeGuard s' b.base b.order) := by
  obtain ⟨s', nodes', F', c, hret, hF, hcov, hbc, hs', hpages⟩ :=
    freePages_merge p h.holds hb (h.order_lt b hb)
  -- the only page written is the head of the merged block
  have hhead : c.base = b.base ↔ StaysHead zone s b.base b.order := by
    rw [h.staysHead_iff, hF.base_eq_iff (Set.mem_insert c F') hbc, hcov]
  refine ⟨s', nodes', p.release hb hF hcov, hret, ⟨hs', ?_, fun d hd => h.order_lt d hd.1⟩, ?_, ?_⟩
  · show live \ {b.toPair} = toPair '' (p.live \ {b})
    rw [h.live_eq, Set.image_sdiff toPair_injective, Set.image_singleton]
  · intro hmarks hstays page hpage hneg
    have hne : page ≠ c.base := by
      rintro rfl
      rw [hpages, Function.update_self] at hneg
      exact absurd hneg (not_lt.mpr (Int.natCast_nonneg _))
    rw [hpages, Function.update_of_ne hne] at hneg
    obtain ⟨e, he, rfl⟩ := hmarks page hpage hneg
    refine ⟨e, ⟨he, ?_⟩, rfl⟩
    rintro rfl
    exact hne (hhead.mpr hstays).symm
  · intro hstays
    have hne : b.base ≠ c.base := fun heq => hstays (hhead.mp heq.symm)
    have hold := h.freeGuard hb
    rw [FreeGuard] at hold ⊢
    rwa [hpages, Function.update_of_ne hne]

/-- Allocation marks the block it hands out. -/
theorem alloc (h : Ledger s zone live p nodes) (hk : order < maxOrder) :
    allocPagesNode s order zone = some (s, none) ∨
    ∃ (b : Block) (s' : PageListData) (nodes' : ℕ → List ListNode),
      ∃ q : Pool maxOrder (Set.Ico startPfn endPfn),
        allocPagesNode s order zone = some (s', some b.base) ∧ b.order = order ∧
        Ledger s' zone (insert b.toPair live) q nodes' ∧
        (MarksLive s startPfn endPfn p.live → MarksLive s' startPfn endPfn q.live) := by
  rcases allocPagesNode_spec p h.holds hk with ⟨hnone, -⟩ | ⟨b, s', nodes', q, hret, hq, hs'⟩
  · exact Or.inl hnone
  refine Or.inr ⟨b, s', nodes', q, hret, hq.order_eq, ⟨hs', ?_, ?_⟩, ?_⟩
  · rw [hq.live_eq, Set.image_insert_eq, h.live_eq]
  · intro c hc
    rw [hq.live_eq] at hc
    rcases hc with rfl | hc
    · exact hq.order_eq ▸ hk
    · exact h.order_lt c hc
  · intro hmarks page hpage hneg
    rw [hq.live_eq]
    rcases eq_or_ne page b.base with rfl | hne
    · exact ⟨b, Set.mem_insert _ _, rfl⟩
    · rcases allocPagesNode_order hret hne with hsame | hpos
      · rw [hsame] at hneg
        obtain ⟨c, hc, hbase⟩ := hmarks page hpage hneg
        exact ⟨c, Set.mem_insert_of_mem _ hc, hbase⟩
      · omega

end Ledger

theorem ledger_initZoneLists (node : PageListData) (zone : ZoneType) (h0 : node.startPfn = 0)
    (hle : startPfn ≤ endPfn) (hend : endPfn < 2 ^ 32) :
    Ledger (initZoneLists node zone startPfn endPfn) zone
      ((fun pfn => (pfn, 0)) '' Set.Ico startPfn endPfn)
      (Pool.allLive maxOrder (Set.Ico startPfn endPfn)) fun _ => [] where
  holds := holds_initZoneLists node zone h0 hle hend
  live_eq := by
    rw [Pool.allLive, Set.image_image]
    simp only [toPair, base_single, order_single]
  order_lt := by
    rintro _ ⟨pfn, -, rfl⟩
    exact Nat.zero_lt_succ 10

/-- The invariant holds in every reached state, and no mark is left behind while the freed blocks
stay at the front. -/
theorem GuardRun.ledger (run : GuardRun allowed node zone startPfn endPfn live s)
    (h0 : node.startPfn = 0) (hle : startPfn ≤ endPfn) (hend : endPfn < 2 ^ 32) :
    ∃ nodes, ∃ p : Pool maxOrder (Set.Ico startPfn endPfn), Ledger s zone live p nodes ∧
      ((∀ s page order, allowed s page order → StaysHead zone s page order) →
        MarksLive s startPfn endPfn p.live) := by
  induction run with
  | init =>
    refine ⟨_, _, ledger_initZoneLists node zone h0 hle hend, ?_⟩
    exact fun _ page hpage _ => ⟨single page, ⟨page, hpage, rfl⟩, base_single page⟩
  | alloc _ hk hret ih =>
    obtain ⟨nodes, p, hs, hmarks⟩ := ih
    rcases hs.alloc hk with hnone | ⟨b, s', nodes', q, hsome, rfl, hs', hmarks'⟩
    · rw [hret] at hnone
      cases hnone
    · rw [hret] at hsome
      cases hsome
      exact ⟨nodes', q, hs', fun hcond => hmarks' (hmarks hcond)⟩
  | allocFail _ hk hret ih =>
    obtain ⟨nodes, p, hs, hmarks⟩ := ih
    rcases hs.alloc hk with hnone | ⟨b, s', nodes', q, hsome, -⟩
    · rw [hret] at hnone
      cases hnone
      exact ⟨nodes, p, hs, hmarks⟩
    · rw [hret] at hsome
      cases hsome
  | free _ hmem hcond hret ih =>
    obtain ⟨nodes, p, hs, hmarks⟩ := ih
    rw [hs.live_eq] at hmem
    obtain ⟨b, hb, hpair⟩ := hmem
    cases hpair
    obtain ⟨s', nodes', q, hret', hs', hmarks', -⟩ := hs.free hb
    obtain rfl := Option.some.inj (hret.symm.trans hret')
    exact ⟨nodes', q, hs', fun hall => hmarks' (hmarks hall) (hall _ _ _ hcond)⟩

/-! ### Exactness -/

/-- **The assertion of `free_pages` is exact while freed blocks stay at the front.** In every state of
a run in which they do, the assertion holds for the allocated blocks and no other page and order of
the zone, so `free_pages` accepts exactly these. Freeing one more keeps the assertion exact if and
only if that block stays at the front. -/
theorem GuardRun.freeGuard_exact (run : GuardRun (StaysHead zone) node zone startPfn endPfn live s)
    (h0 : node.startPfn = 0) (hle : startPfn ≤ endPfn) (hend : endPfn < 2 ^ 32) :
    GuardExact s startPfn endPfn live ∧
    (∀ page ∈ Set.Ico startPfn endPfn, ∀ order < maxOrder,
      (∃ s', freePages s page order = some s') ↔ (page, order) ∈ live) ∧
    ∀ page order s', (page, order) ∈ live → freePages s page order = some s' →
      (GuardExact s' startPfn endPfn (live \ {(page, order)}) ↔ StaysHead zone s page order) := by
  obtain ⟨nodes, p, hs, hmarks⟩ := run.ledger h0 hle hend
  have hmarks := hmarks fun _ _ _ hcond => hcond
  have hexact := hs.guardExact hmarks
  refine ⟨hexact, ?_, ?_⟩
  · intro page hpage order hk
    rw [exists_freePages_iff hk, hexact page hpage order hk]
  · intro page order s' hmem hret
    rw [hs.live_eq] at hmem
    obtain ⟨b, hb, hpair⟩ := hmem
    cases hpair
    obtain ⟨s'', nodes', q, hret', hs', hkeeps, hleft⟩ := hs.free hb
    obtain rfl := Option.some.inj (hret.symm.trans hret')
    constructor
    · intro hexact'
      by_contra hstays
      have hzone : b.base ∈ Set.Ico startPfn endPfn :=
        p.cover_eq ▸ Or.inr (points_subset_cover hb b.base_mem)
      have hmem := (hexact' b.base hzone b.order (hs.order_lt b hb)).mp (hleft hstays)
      exact hmem.2 rfl
    · exact fun hstays => hs'.guardExact (hkeeps hmarks hstays)

/-- A run that frees frame `0` first. -/
theorem exists_guardRun_blankNode (hall : ∀ s, StaysHead .normal s 0 0 → allowed s 0 0) :
    ∃ s, freePages (initZoneLists blankNode .normal 0 4) 0 0 = some s ∧
      GuardRun allowed blankNode .normal 0 4
        ((fun pfn => (pfn, 0)) '' Set.Ico 0 4 \ {(0, 0)}) s := by
  have h₀ := ledger_initZoneLists blankNode .normal rfl (Nat.zero_le 4) (by decide)
  have hmem : single 0 ∈ (Pool.allLive maxOrder (Set.Ico 0 4)).live := ⟨0, by simp, rfl⟩
  obtain ⟨s, -, -, hret, -⟩ := h₀.free hmem
  rw [base_single, order_single] at hret
  refine ⟨s, hret, GuardRun.init.free ⟨0, by simp, rfl⟩ (hall _ ?_) hret⟩
  -- no frame is free yet
  have hfree : freeFrames (initZoneLists blankNode .normal 0 4) .normal = ∅ := by
    rw [h₀.freeFrames_eq, Set.sdiff_eq_empty, Set.biUnion_image]
    exact fun pfn hpfn => Set.mem_biUnion hpfn ⟨le_rfl, Nat.lt_succ_self pfn⟩
  intro pfn k _ _ _ hsub
  rw [hfree, Set.empty_union, pageToPfn_eq h₀.holds.node_start] at hsub
  have hlow := (hsub ⟨le_rfl, Nat.lt_add_of_pos_right (Nat.two_pow_pos k)⟩).2
  rw [pageToPfn_eq h₀.holds.node_start]
  exact Nat.lt_one_iff.mp hlow

theorem freeGuard_exact_blankNode : ∃ s live, GuardRun (StaysHead .normal) blankNode .normal 0 4 live s ∧
    GuardExact s 0 4 live ∧
    (∀ page ∈ Set.Ico 0 4, ∀ order < maxOrder,
      (∃ s', freePages s page order = some s') ↔ (page, order) ∈ live) ∧
    ∀ page order s', (page, order) ∈ live → freePages s page order = some s' →
      (GuardExact s' 0 4 (live \ {(page, order)}) ↔ StaysHead .normal s page order) := by
  obtain ⟨s, -, run⟩ := @exists_guardRun_blankNode (StaysHead .normal) fun _ h => h
  exact ⟨s, _, run, run.freeGuard_exact rfl (Nat.zero_le 4) (by decide)⟩

/-- Frame `0` is freed, then frame `1`. Frame `1` merges into frame `0` and keeps its mark: the
assertion accepts a second free of it, although it is free. -/
theorem freePages_accepts_free_page : ∃ s₁ s₂ live,
    freePages (initZoneLists blankNode .normal 0 4) 0 0 = some s₁ ∧ freePages s₁ 1 0 = some s₂ ∧
    GuardRun (fun _ _ _ => True) blankNode .normal 0 4 live s₂ ∧ (1, 0) ∉ live ∧
    1 ∈ freeFrames s₂ .normal ∧ FreeGuard s₂ 1 0 ∧ ∃ s₃, freePages s₂ 1 0 = some s₃ := by
  obtain ⟨s, hfirst, run⟩ := @exists_guardRun_blankNode (fun _ _ _ => True) fun _ _ => trivial
  obtain ⟨nodes, p, hs, -⟩ := run.ledger rfl (Nat.zero_le 4) (by decide)
  have hmem : (single 1).toPair ∈ (fun pfn => (pfn, 0)) '' Set.Ico 0 4 \ {(0, 0)} :=
    ⟨⟨1, by simp, by simp [toPair]⟩, by simp [toPair]⟩
  obtain ⟨s', nodes', q, hret, hs', -, hleft⟩ := hs.free (hs.mem_live.mp hmem)
  have hpair : (single 1).toPair = (1, 0) := by simp [toPair]
  rw [hpair] at hmem hs'
  rw [base_single, order_single] at hret hleft
  have hguard : ¬StaysHead .normal s 1 0 := by
    intro hstays
    have hlow := hstays 0 1 (by decide) (Nat.dvd_zero _)
    rw [pageToPfn_eq hs.holds.node_start, hs.freeFrames_eq] at hlow
    refine absurd (hlow ?_ ?_) (by decide)
    · rintro n ⟨hlow, hhigh⟩
      exact ⟨Nat.zero_le n, by omega⟩
    · rintro n ⟨-, hhigh⟩
      have hn : n < 2 := hhigh
      rcases Nat.eq_or_lt_of_le (Nat.le_of_lt_succ hn) with rfl | hzero
      · exact Or.inr ⟨le_rfl, by decide⟩
      obtain rfl : n = 0 := Nat.lt_one_iff.mp hzero
      refine Or.inl ⟨by simp, ?_⟩
      simp only [Set.mem_iUnion, not_exists]
      rintro a ⟨⟨pfn, -, rfl⟩, hne⟩ ⟨hlow, -⟩
      exact hne (by rw [show pfn = 0 from Nat.le_zero.mp hlow]; rfl)
  refine ⟨s, s', _, hfirst, hret, run.free hmem trivial hret, fun h => h.2 rfl, ?_, hleft hguard,
    (exists_freePages_iff (by decide)).mpr (hleft hguard)⟩
  rw [hs'.freeFrames_eq]
  refine ⟨by simp, ?_⟩
  simp only [Set.mem_iUnion, not_exists]
  rintro a ⟨⟨⟨pfn, -, rfl⟩, -⟩, hne⟩ ⟨hlow, hhigh⟩
  have hpfn : pfn = 1 := le_antisymm hlow (Nat.le_of_lt_succ hhigh)
  exact hne (by rw [hpfn]; rfl)

end Auos
