import Auos.PageAlloc.Confined
import Auos.PageAlloc.InitZone
import Auos.SetupMemory

/-!
# The two zones of the node

`setup_memory` as a whole, from the memory map of the boot loader to the page allocator: the boot
tables and the kernel's own range, the array of `struct page` out of the boot memory, and the zones
`ZONE_NORMAL` and `ZONE_HIGH` one after the other in `nodes[0]`. A run starts there and calls
`alloc_pages` and `free_pages`, which only ever allocate from `ZONE_NORMAL`.

The zones share the page array and the links, and each is initialised and used while the other is in
place. `NodeHolds` has both; a step of one zone is confined to it.

## Main definitions

* `allocPageArray`, `initNode`, `setupPageAlloc`, `setupMemory`
* `NodeRun` — runs of the page allocator from a node that has been set up
* `NodeHolds` — the invariant

## Main results

* `setupMemory_holds` — what `setup_memory` leaves
* `NodeRun.keeps_zones` — every run keeps the two zones apart and accounts for every frame
-/

namespace Auos

open Block

/-- `sizeof(struct page)`: two pointers, two more and an `int`. -/
abbrev sizeofPage : ℕ := 20

/-- `alloc_page_array`: the address of the array. The assertion stops on the value `end`. -/
def allocPageArray (bootMem : BootMem) (pages : ℕ) : Option (ℕ × BootMem) := do
  let beginAddr := pageSize
  let endAddr := wrap (lowmemPageFrames <<< pageShift)
  let align := pageSize
  let size := wmul pages sizeofPage
  let (paddr, bootMem) ← bootMemAlloc bootMem size align beginAddr endAddr
  if paddr ≠ endAddr then some (virtAddr paddr, bootMem) else none

/-- The loop of `init_node` over the zones, with those that are left. -/
def initNodeZones (bootMem : BootMem) (maxPfns : ZoneType → ℕ) :
    List ZoneType → PageListData → ℕ → Option PageListData
  | [], node, _ => some node
  | zone :: zones, node, startPfn => do
    let node ← initZone bootMem node zone startPfn (maxPfns zone)
    initNodeZones bootMem maxPfns zones node (maxPfns zone)

/-- `init_node`: the address of the page array, the boot allocator and the node. What the array held
before is in `node`. -/
def initNode (bootMem : BootMem) (node : PageListData) (maxPfns : ZoneType → ℕ) :
    Option (ℕ × BootMem × PageListData) := do
  let startPfn := 0
  let endPfn := maxPfns .high
  let node := { node with startPfn }
  let (pages, bootMem) ← allocPageArray bootMem (wsub endPfn startPfn)
  let node ← initNodeZones bootMem maxPfns [.normal, .high] node startPfn
  some (pages, bootMem, node)

/-- `setup_page_alloc`. -/
def setupPageAlloc (s : SetupMemory) (node : PageListData) :
    Option (ℕ × SetupMemory × PageListData) := do
  let maxZonePfns : ZoneType → ℕ
    | .normal => s.lowmemPageFrameCount
    | .high => s.pageFrameCount
  let (pages, bootMem, node) ← initNode s.bootMem node maxZonePfns
  some (pages, { s with bootMem }, node)

/-- `setup_memory`, for a kernel linked at `[kernelBegin, kernelEnd)`. The page tables, which
`remap_lower_memory` switches between the last two calls, are not part of this state. -/
def setupMemory (mem : Memory) (mbi : MultibootInfo) (fuel kernelBegin kernelEnd : ℕ)
    (bootMem : BootMem) (node : PageListData) : Option (ℕ × SetupMemory × PageListData) := do
  let s ← initPhysMemMap mem mbi fuel bootMem
  let s ← reserveKernelMemory kernelBegin kernelEnd s
  setupPageAlloc s node

/-- Calls of `alloc_pages` and `free_pages`, with the outstanding allocations as pairs of page and
order. -/
inductive NodeRun (s₀ : PageListData) : List (ℕ × ℕ) → PageListData → Prop
  | init : NodeRun s₀ [] s₀
  | alloc {out : List (ℕ × ℕ)} {s s' : PageListData} {order flags page : ℕ} :
      NodeRun s₀ out s → allocPages s order flags = some (s', some page) →
      NodeRun s₀ ((page, order) :: out) s'
  | allocFail {out : List (ℕ × ℕ)} {s s' : PageListData} {order flags : ℕ} :
      NodeRun s₀ out s → allocPages s order flags = some (s', none) → NodeRun s₀ out s'
  | free {out : List (ℕ × ℕ)} {s s' : PageListData} {page order : ℕ} :
      NodeRun s₀ out s → (page, order) ∈ out → freePages s page order = some s' →
      NodeRun s₀ (out.erase (page, order)) s'

/-- `ZONE_NORMAL` has the frames `[0, n)` and `ZONE_HIGH` the frames `[n, m)`. The first accounts for
the frames `freed`, some of which are out; the second for all of its frames, none of which is. -/
structure NodeHolds (n m : ℕ) (freed : Set ℕ) (out : List (ℕ × ℕ)) (s : PageListData) : Prop where
  /-- `ZONE_NORMAL`. -/
  normal : ∃ blocks nodes, ∃ p : Pool maxOrder (Set.Ico 0 n),
    Accounts s .normal freed out p blocks nodes
  /-- `ZONE_HIGH`. -/
  high : ∃ nodes, ∃ p : Pool maxOrder (Set.Ico n m),
    Accounts s .high (Set.Ico n m) [] p [] nodes
  /-- The pointers of `ZONE_NORMAL` stay there. -/
  closed : ClosedOn s.links (zoneNodes .normal 0 n)

variable {mem : Memory} {mbi : MultibootInfo} {fuel kernelBegin kernelEnd n m startPfn endPfn
  pfn pages order flags page : ℕ} {b b' : BootMem} {node s s' s₀ : PageListData} {zone : ZoneType}
  {freed : Set ℕ} {out : List (ℕ × ℕ)} {st : SetupMemory}

/-! ### Setting up -/

/-- Whatever the boot tables hold, the last loop of `init_zone` frees every frame but possibly
frame `0`. -/
theorem initZoneFree_run (h0 : node.startPfn = 0) (hle : startPfn ≤ endPfn) (hend : endPfn ≤ 2 ^ 20)
    (h : FreshRun node zone startPfn endPfn freed s) (hfreed : ∀ q ∈ freed, q < pfn)
    (hpfn : startPfn ≤ pfn) (hn : pfn + n = endPfn) (hret : initZoneFree b n s pfn = some s') :
    ∃ freed', FreshRun node zone startPfn endPfn freed' s' ∧ freed ⊆ freed' ∧
      ∀ q, pfn ≤ q → q < endPfn → q ≠ 0 → q ∈ freed' := by
  induction n generalizing freed s pfn with
  | zero =>
    cases hret
    exact ⟨freed, h, subset_rfl, fun q h₁ h₂ => by omega⟩
  | succ n ih =>
    obtain ⟨nodes, p, hs⟩ := h.accounts h0 hle (by omega)
    have hin : pfn ∈ Set.Ico startPfn endPfn := ⟨hpfn, by omega⟩
    rw [initZoneFree, hs.holds.node_start, Option.bind_eq_bind] at hret
    obtain ⟨ret, hask, hret⟩ := Option.bind_eq_some_iff.mp hret
    cases ret with
    | true =>
      rw [if_pos rfl, Option.bind_eq_bind, Nat.sub_zero] at hret
      obtain ⟨s₁, hfree, hret⟩ := Option.bind_eq_some_iff.mp hret
      have hnew : pfn ∉ freed := fun hmem => lt_irrefl pfn (hfreed pfn hmem)
      have hbelow : ∀ q ∈ insert pfn freed, q < pfn + 1 := by
        rintro q (rfl | hq)
        · exact Nat.lt_succ_self _
        · exact (hfreed q hq).trans (Nat.lt_succ_self _)
      obtain ⟨freed', hrun, hsub, hall⟩ :=
        ih (h.free hpfn hin.2 hnew hfree) hbelow (by omega) (by omega) hret
      refine ⟨freed', hrun, (Set.subset_insert _ _).trans hsub, fun q h₁ h₂ hq => ?_⟩
      rcases Nat.eq_or_lt_of_le h₁ with rfl | h₁
      · exact hsub (Set.mem_insert _ _)
      · exact hall q h₁ h₂ hq
    | false =>
      -- only frame `0` is asked about through a range that is not empty
      have hzero : pfn = 0 := by
        by_contra hne
        rw [wrap_frame (by omega), bootMemIsFree_frame_pos b hne (by omega)] at hask
        cases hask
      rw [if_neg (by simp)] at hret
      obtain ⟨freed', hrun, hsub, hall⟩ := ih h (fun q hq => (hfreed q hq).trans (Nat.lt_succ_self _))
        (by omega) (by omega) hret
      exact ⟨freed', hrun, hsub, fun q h₁ h₂ hq => hall q (by omega) h₂ hq⟩

theorem initZone_run (h0 : node.startPfn = 0) (hle : startPfn ≤ endPfn) (hend : endPfn ≤ 2 ^ 20)
    (hret : initZone b node zone startPfn endPfn = some s) :
    ∃ freed, FreshRun node zone startPfn endPfn freed s ∧
      ∀ q, startPfn ≤ q → q < endPfn → q ≠ 0 → q ∈ freed := by
  rw [initZone, wsub_of_le hle (by omega)] at hret
  obtain ⟨freed, hrun, -, hall⟩ := initZoneFree_run h0 hle hend .init (by simp) le_rfl
    (show startPfn + (endPfn - startPfn) = endPfn by omega) hret
  exact ⟨freed, hrun, hall⟩

theorem disjoint_frames (n m : ℕ) : Disjoint (Set.Ico 0 n) (Set.Ico n m) := by
  rw [Set.disjoint_left]
  rintro q ⟨-, h₁⟩ ⟨h₂, -⟩
  omega

/-- Both zones initialised. -/
theorem initNodeZones_holds {maxPfns : ZoneType → ℕ} (h0 : node.startPfn = 0)
    (hn : maxPfns .normal = n) (hm : maxPfns .high = m) (hle : n ≤ m) (hend : m ≤ 2 ^ 20)
    (hpos : n = 0 → m = 0) (hret : initNodeZones b maxPfns [.normal, .high] node 0 = some s) :
    ∃ freed, (∀ q, q < n → q ≠ 0 → q ∈ freed) ∧ NodeHolds n m freed [] s := by
  simp only [initNodeZones, hn, hm, Option.bind_eq_bind] at hret
  obtain ⟨s₁, hnormal, hret⟩ := Option.bind_eq_some_iff.mp hret
  obtain ⟨s₂, hhigh, hret⟩ := Option.bind_eq_some_iff.mp hret
  cases hret
  obtain ⟨freed, hrun, hall⟩ := initZone_run h0 (Nat.zero_le n) (by omega) hnormal
  obtain ⟨nodes, p, hs₁⟩ := hrun.accounts h0 (Nat.zero_le n) (by omega)
  have hc₁ := hrun.confined h0 (Nat.zero_le n) (by omega)
  obtain ⟨freed', hrun', hall'⟩ := initZone_run hs₁.holds.node_start hle hend hhigh
  obtain ⟨nodes', p', hs₂⟩ := hrun'.accounts hs₁.holds.node_start hle (by omega)
  have hc₂ := hrun'.confined hs₁.holds.node_start hle (by omega)
  -- a frame of `ZONE_HIGH` is not frame `0`
  have hfull : freed' = Set.Ico n m := by
    refine subset_antisymm hs₂.freed_subset fun q hq => hall' q hq.1 hq.2 ?_
    rintro rfl
    have := hq.1
    have := hq.2
    omega
  subst hfull
  refine ⟨freed, fun q hq h => hall q (Nat.zero_le q) hq h, ?_, ⟨nodes', p', hs₂⟩, ?_⟩
  · exact ⟨[], nodes, p,
      hs₁.of_sameOutside hc₂.toSameOutside (by decide) (disjoint_frames n m)⟩
  · exact hc₂.closed_of_disjoint (disjoint_zoneNodes (by decide) (disjoint_frames n m)) hc₁.closed

/-- The size of the physical memory is an address. -/
theorem initPhysMemMapLoop_lt {mmapEnd mmapEntry size size' : ℕ} (hsize : size < 2 ^ 32)
    (hret : initPhysMemMapLoop mem mmapEnd fuel mmapEntry b size = some (b', size')) :
    size' < 2 ^ 32 := by
  induction fuel generalizing mmapEntry b size with
  | zero => cases hret
  | succ fuel ih =>
    rw [initPhysMemMapLoop] at hret
    simp only [Option.bind_eq_bind] at hret
    split at hret
    · split at hret
      · exact ih hsize hret
      · split at hret
        · obtain ⟨a, -, hret⟩ := Option.bind_eq_some_iff.mp hret
          refine ih ?_ hret
          split
          · exact wrap_lt _
          · exact hsize
        · obtain ⟨a, -, hret⟩ := Option.bind_eq_some_iff.mp hret
          exact ih hsize hret
    · cases hret
      exact hsize

/-- The two counts after `init_phys_mem_map`. -/
theorem initPhysMemMap_counts (hret : initPhysMemMap mem mbi fuel b = some st) :
    st.lowmemPageFrameCount = min st.pageFrameCount lowmemPageFrames ∧ st.pageFrameCount < 2 ^ 20 := by
  rw [initPhysMemMap, Option.bind_eq_bind] at hret
  obtain ⟨⟨b', size⟩, hloop, hret⟩ := Option.bind_eq_some_iff.mp hret
  cases hret
  have hsize := initPhysMemMapLoop_lt (by decide) hloop
  refine ⟨minu_eq _ _, ?_⟩
  show size >>> 12 < 2 ^ 20
  rw [Nat.shiftRight_eq_div_pow]
  omega

/-- What `setup_memory` leaves: `ZONE_NORMAL` with every frame free but possibly frame `0`, and
`ZONE_HIGH` with every frame free. -/
theorem setupMemory_holds
    (hret : setupMemory mem mbi fuel kernelBegin kernelEnd b node = some (pages, st, s₀)) :
    st.lowmemPageFrameCount ≤ st.pageFrameCount ∧ st.pageFrameCount < 2 ^ 20 ∧
      ∃ freed, (∀ q, q < st.lowmemPageFrameCount → q ≠ 0 → q ∈ freed) ∧
        NodeHolds st.lowmemPageFrameCount st.pageFrameCount freed [] s₀ := by
  rw [setupMemory, Option.bind_eq_bind] at hret
  obtain ⟨st₁, hmap, hret⟩ := Option.bind_eq_some_iff.mp hret
  obtain ⟨hmin, hlt⟩ := initPhysMemMap_counts hmap
  obtain ⟨st₂, hkernel, hret⟩ := Option.bind_eq_some_iff.mp hret
  rw [reserveKernelMemory, Option.bind_eq_bind] at hkernel
  obtain ⟨⟨ret, b₂⟩, -, hkernel⟩ := Option.bind_eq_some_iff.mp hkernel
  obtain rfl := Option.some.inj hkernel
  rw [setupPageAlloc, Option.bind_eq_bind] at hret
  obtain ⟨⟨pages', b₃, s'⟩, hnode, hret⟩ := Option.bind_eq_some_iff.mp hret
  cases hret
  rw [initNode, Option.bind_eq_bind] at hnode
  obtain ⟨⟨pages', b₄⟩, -, hnode⟩ := Option.bind_eq_some_iff.mp hnode
  obtain ⟨s', hzones, hnode⟩ := Option.bind_eq_some_iff.mp hnode
  cases hnode
  dsimp only at hzones ⊢
  refine ⟨by omega, hlt, initNodeZones_holds rfl rfl rfl (by omega) (by omega) ?_ hzones⟩
  intro hzero
  rw [hmin, show lowmemPageFrames = 0x38000 from rfl] at hzero
  omega

/-! ### Runs -/

namespace NodeHolds

/-- A step that is confined to `ZONE_NORMAL`. -/
theorem of_confined (h : NodeHolds n m freed out s) {out' : List (ℕ × ℕ)}
    (hc : Confined .normal 0 n s s')
    (hnormal : ∃ blocks nodes, ∃ p : Pool maxOrder (Set.Ico 0 n),
      Accounts s' .normal freed out' p blocks nodes) : NodeHolds n m freed out' s' where
  normal := hnormal
  high := by
    obtain ⟨nodes, p, hs⟩ := h.high
    exact ⟨nodes, p, hs.of_sameOutside hc.toSameOutside (by decide) (disjoint_frames n m).symm⟩
  closed := hc.closed

/-- `alloc_pages` allocates from `ZONE_NORMAL`. -/
theorem alloc (h : NodeHolds n m freed out s) {ret : Option ℕ}
    (hret : allocPages s order flags = some (s', ret)) :
    NodeHolds n m freed ((ret.map fun page => (page, order)).toList ++ out) s' := by
  rw [allocPages] at hret
  split_ifs at hret with hok
  obtain ⟨blocks, nodes, p, hs⟩ := h.normal
  have hsub : ∀ b ∈ p.free, b.points ⊆ Set.Ico 0 n :=
    fun b hb => (points_subset_cover hb).trans (Set.subset_union_left.trans p.cover_eq.subset)
  refine h.of_confined (allocPagesNode_confined (.refl h.closed) hs.holds hsub hok.1 hret) ?_
  rcases hs.alloc hok.1 with ⟨hnone, -⟩ | ⟨b, s₁, nodes', q, hsome, rfl, -, hs'⟩
  · cases hret.symm.trans hnone
    exact ⟨blocks, nodes, p, hs⟩
  · cases hret.symm.trans hsome
    exact ⟨b :: blocks, nodes', q, hs'⟩

/-- `free_pages` of an outstanding allocation. -/
theorem free (h : NodeHolds n m freed out s) (hmem : (page, order) ∈ out)
    (hret : freePages s page order = some s') :
    NodeHolds n m freed (out.erase (page, order)) s' := by
  obtain ⟨blocks, nodes, p, hs⟩ := h.normal
  obtain ⟨b, hb, hpair⟩ := List.mem_map.mp (hs.out_eq ▸ hmem)
  cases hpair
  have hbase : b.base ∈ Set.Ico 0 n := hs.freed_subset (hs.points_subset b hb b.base_mem)
  obtain ⟨s₁, nodes', q, hret', hs'⟩ := hs.free hb
  obtain rfl := Option.some.inj (hret.symm.trans hret')
  exact h.of_confined (freePages_confined (.refl h.closed) hs.holds.zone_eq hs.holds.node_start hbase
    (hs.holds.page_zone _ hbase.1 hbase.2) hret) ⟨blocks.erase b, nodes', q, hs'⟩

end NodeHolds

/-- The invariant holds in every reached state. -/
theorem NodeRun.holds (h : NodeRun s₀ out s) (h₀ : NodeHolds n m freed [] s₀) :
    NodeHolds n m freed out s := by
  induction h with
  | init => exact h₀
  | alloc _ hret ih => exact ih.alloc hret
  | allocFail _ hret ih => exact ih.alloc hret
  | free _ hmem hret ih => exact ih.free hmem hret

/-- **Every run keeps the two zones apart and accounts for every frame.** Whatever the memory map, and
whatever `alloc_pages` and `free_pages` calls follow: every page still names its zone; `ZONE_HIGH`
has all of its frames free, in maximal blocks; the outstanding allocations are aligned, disjoint and
inside `ZONE_NORMAL`; and with the free frames of `ZONE_NORMAL` they make up the frames that were free
at first, which are all but possibly frame `0`. -/
theorem NodeRun.keeps_zones
    (hsetup : setupMemory mem mbi fuel kernelBegin kernelEnd b node = some (pages, st, s₀))
    (h : NodeRun s₀ out s) :
    (∀ q < st.pageFrameCount,
      (s.pages q).zone = if q < st.lowmemPageFrameCount then .normal else .high) ∧
    freeBlocks s .high = toPair ''
      maximalBlocks maxOrder (Set.Ico st.lowmemPageFrameCount st.pageFrameCount) ∧
    (∀ a ∈ out, 2 ^ a.2 ∣ a.1 ∧ frames a ⊆ Set.Ico 0 st.lowmemPageFrameCount ∧
      Disjoint (frames a) (freeFrames s .normal)) ∧
    out.Pairwise (fun a c => Disjoint (frames a) (frames c)) ∧
    freeFrames s .normal ∪ ⋃ a ∈ out, frames a = freeFrames s₀ .normal ∧
    Set.Ioo 0 st.lowmemPageFrameCount ⊆ freeFrames s₀ .normal := by
  obtain ⟨hle, hlt, freed, hall, h₀⟩ := setupMemory_holds hsetup
  have hrun := h.holds h₀
  obtain ⟨blocks, nodes, p, hs⟩ := hrun.normal
  obtain ⟨nodes', p', hs'⟩ := hrun.high
  obtain ⟨blocks₀, nodes₀, p₀, hs₀⟩ := h₀.normal
  have hfreed : freeFrames s₀ .normal = freed := by
    have hcov := hs₀.cover_union_cover
    rw [List.map_eq_nil_iff.mp hs₀.out_eq.symm] at hcov
    rw [hs₀.freeFrames_eq, ← hcov]
    simp
  have hhigh : cover p'.free = Set.Ico st.lowmemPageFrameCount st.pageFrameCount := by
    rw [hs'.cover_free]
    simp
  have hblock : ∀ a ∈ out, ∃ b ∈ blocks, b.toPair = a :=
    fun a ha => List.mem_map.mp (hs.out_eq ▸ ha)
  refine ⟨?_, ?_, ?_, ?_, ?_, ?_⟩
  · intro q hq
    split_ifs with hlow
    · exact hs.holds.page_zone q (Nat.zero_le q) hlow
    · exact hs'.holds.page_zone q (not_lt.mp hlow) hq
  · have hmax := p'.buddy.eq_maximalBlocks
    rw [hhigh] at hmax
    rw [hs'.freeBlocks_eq, hmax]
  · intro a ha
    obtain ⟨b, hb, rfl⟩ := hblock a ha
    rw [frames_toPair, hs.freeFrames_eq]
    exact ⟨b.dvd_base, (hs.points_subset b hb).trans hs.freed_subset,
      p.disjoint_of_mem_live (hs.mem_live hb)⟩
  · rw [hs.out_eq, List.pairwise_map]
    refine hs.nodup.imp_of_mem fun hb hc hne => ?_
    rw [frames_toPair, frames_toPair]
    exact p.live_disjoint (hs.mem_live hb) (hs.mem_live hc) hne
  · rw [hs.freeFrames_eq, hs.biUnion_frames_out, hs.cover_union_cover, hfreed]
  · rw [hfreed]
    exact fun q hq => hall q hq.2 (Nat.pos_iff_ne_zero.mp hq.1)

/-! ### A machine with six frames -/

/-- A map of one entry, at `0x9000`: `[0, 0x6000)` is available. -/
def sixFrameMap : Memory := fun p =>
  match p - 0x9000 with
  | 0 => 20
  | 13 => 0x60
  | 20 => 1
  | _ => 0

theorem readMmapEntry_sixFrameMap : readMmapEntry sixFrameMap 0x9000 = ⟨20, 0, 0x6000, 1⟩ := by
  decide +kernel

theorem initPhysMemMap_sixFrameMap : initPhysMemMap sixFrameMap ⟨24, 0x9000⟩ 2 .empty =
    (bootMemAdd .empty 0 0x6000).map fun a => ⟨a.2, 6, 6⟩ := by
  obtain ⟨b, hb⟩ : ∃ b, bootMemAdd .empty 0 0x6000 = some (0, b) := ⟨_, rfl⟩
  have hround := @initPhysMemMapLoop_round 1 .empty sixFrameMap 0x9000 0x9018 0 _
    readMmapEntry_sixFrameMap (by decide) (by decide) rfl (by decide)
  rw [if_neg (by decide), if_pos rfl, show (MultibootMmapEntry.range ⟨20, 0, 0x6000, 1⟩) =
    ⟨0, 0x6000⟩ from rfl, hb] at hround
  rw [initPhysMemMap, show wadd (MultibootInfo.mmapAddr ⟨24, 0x9000⟩)
    (MultibootInfo.mmapLength ⟨24, 0x9000⟩) = 0x9018 from rfl, hround, hb]
  rfl

/-- The page array goes below the kernel, which is linked at `[0x2000, 0x3000)`. -/
theorem allocPageArray_sixFrameMap : ((bootMemAdd .empty 0 0x6000).bind fun a =>
    (bootMemReserve a.2 (physAddr 0xC0002000) (physAddr 0xC0003000)).bind fun a =>
      (allocPageArray a.2 6).map fun a =>
        (a.2.memory.size, a.2.reserved.size, a.2.memory.contents, a.2.reserved.contents)) =
    some (1, 2, [⟨0, 0x6000⟩], [⟨0x1000, 0x1078⟩, ⟨0x2000, 0x3000⟩]) := by
  decide +kernel

theorem setupMemory_sixFrameMap : ∃ pages st s₀,
    setupMemory sixFrameMap ⟨24, 0x9000⟩ 2 0xC0002000 0xC0003000 .empty blankNode =
      some (pages, st, s₀) ∧ st.lowmemPageFrameCount = 6 := by
  obtain ⟨⟨r₁, b₁⟩, h₁, hrest⟩ := Option.bind_eq_some_iff.mp allocPageArray_sixFrameMap
  obtain ⟨⟨r₂, b₂⟩, h₂, hrest⟩ := Option.bind_eq_some_iff.mp hrest
  obtain ⟨⟨pages, b₃⟩, h₃, htables⟩ := Option.map_eq_some_iff.mp hrest
  simp only [Prod.mk.injEq] at htables
  obtain ⟨hms, hrs, hmem, hres⟩ := htables
  have hsep : b₃.Separate := by
    refine ⟨?_, hmem ▸ ?_, ?_, hres ▸ ?_⟩
    · show b₃.memory.size ≤ 128
      omega
    · exact apart_cons.mpr ⟨by decide, by simp, by simp, List.Pairwise.nil⟩
    · show b₃.reserved.size ≤ 128
      omega
    · refine apart_cons.mpr ⟨by decide, by simp, ?_⟩
      exact apart_cons.mpr ⟨by decide, by simp, by simp, List.Pairwise.nil⟩
  obtain ⟨s₁, hs₁, -⟩ := initZone_spec hsep .normal (show blankNode.startPfn = 0 from rfl)
    (Nat.zero_le 6) (by decide)
  obtain ⟨freed, hrun, -⟩ := initZone_run rfl (Nat.zero_le 6) (by decide) hs₁
  obtain ⟨nodes, p, hacc⟩ := hrun.accounts rfl (Nat.zero_le 6) (by decide)
  obtain ⟨s₂, hs₂, -⟩ := initZone_spec hsep .high hacc.holds.node_start (le_refl 6) (by decide)
  refine ⟨pages, ⟨b₃, 6, 6⟩, s₂, ?_, rfl⟩
  have hnode : initNode b₂ blankNode
      (fun | .normal => 6 | .high => 6) = some (pages, b₃, s₂) := by
    rw [initNode, show wsub 6 0 = 6 from rfl, h₃]
    simp only [initNodeZones, Option.bind_eq_bind, Option.bind_some]
    rw [show ({ blankNode with startPfn := 0 } : PageListData) = blankNode from rfl, hs₁,
      Option.bind_some, hs₂]
    rfl
  rw [setupMemory, initPhysMemMap_sixFrameMap, h₁, Option.map_some, Option.bind_eq_bind,
    Option.bind_some, reserveKernelMemory, h₂]
  simp only [Option.bind_eq_bind, Option.bind_some]
  rw [setupPageAlloc, hnode]
  rfl

/-- A run that allocates one page. -/
theorem exists_nodeRun (h : NodeHolds n m freed [] s₀) (hpos : 1 < n)
    (hall : ∀ q, q < n → q ≠ 0 → q ∈ freed) : ∃ s page, NodeRun s₀ [(page, 0)] s := by
  obtain ⟨blocks, nodes, p, hs⟩ := h.normal
  have hret : ∀ s' ret, allocPagesNode s₀ 0 .normal = some (s', ret) →
      allocPages s₀ 0 allocNormal = some (s', ret) := by
    intro s' ret hret
    rw [allocPages, if_pos (by decide), hret]
  rcases hs.alloc (show 0 < maxOrder by decide) with ⟨-, hsmall⟩ | ⟨b, s', -, -, halloc, -⟩
  · have hfree : 1 ∈ cover p.free := by
      rw [hs.cover_free, List.map_eq_nil_iff.mp hs.out_eq.symm]
      simpa using hall 1 hpos one_ne_zero
    obtain ⟨b, hb, -⟩ := mem_cover.mp hfree
    exact absurd (hsmall b hb) (Nat.not_lt_zero _)
  · exact ⟨s', b.base, .alloc .init (hret s' _ halloc)⟩

theorem NodeRun.keeps_zones_sixFrameMap : ∃ pages st s₀ s page,
    setupMemory sixFrameMap ⟨24, 0x9000⟩ 2 0xC0002000 0xC0003000 .empty blankNode =
      some (pages, st, s₀) ∧ NodeRun s₀ [(page, 0)] s ∧
    (∀ q < st.pageFrameCount,
      (s.pages q).zone = if q < st.lowmemPageFrameCount then .normal else .high) ∧
    freeBlocks s .high = toPair ''
      maximalBlocks maxOrder (Set.Ico st.lowmemPageFrameCount st.pageFrameCount) ∧
    (∀ a ∈ [(page, 0)], 2 ^ a.2 ∣ a.1 ∧ frames a ⊆ Set.Ico 0 st.lowmemPageFrameCount ∧
      Disjoint (frames a) (freeFrames s .normal)) ∧
    [(page, 0)].Pairwise (fun a c => Disjoint (frames a) (frames c)) ∧
    freeFrames s .normal ∪ ⋃ a ∈ [(page, 0)], frames a = freeFrames s₀ .normal ∧
    Set.Ioo 0 st.lowmemPageFrameCount ⊆ freeFrames s₀ .normal := by
  obtain ⟨pages, st, s₀, hsetup, hsix⟩ := setupMemory_sixFrameMap
  obtain ⟨-, -, freed, hall, h₀⟩ := setupMemory_holds hsetup
  obtain ⟨s, page, hrun⟩ := exists_nodeRun h₀ (by omega) hall
  exact ⟨pages, st, s₀, s, page, hsetup, hrun, hrun.keeps_zones hsetup⟩

end Auos
