import Auos.PageAlloc.Runs
import Auos.SlabCache.Runs

/-!
# Destroying a slab cache

`slab_cache_destroy` gives the blocks of a cache back to the page allocator. It walks the list of the
slabs that are not full, which runs through the slabs themselves, and frees each slab on the way; the
pointer to the next one is read first.

A `SystemRun` is a run of the page allocator and of one cache together: the cache gets its pages from
the allocator, and other clients allocate and free blocks of their own in between. The page allocator
sees one `ZoneRun`, whose outstanding blocks are those of the other clients and those of the cache.

## Main definitions

* `slabCacheDestroy`
* `SystemRun` — runs of both allocators
* `Backed` — the invariant

## Main results

* `slabCacheFiniLoop_spec` — the walk frees the slabs of the list
* `SystemRun.slabPages_conserved` — destroying a cache without objects gives back what it took
-/

namespace Auos

open Block Links

/-! ### The code -/

/-- The loop of `slab_cache_fini`, with a bound on the number of iterations: the page allocator
afterwards and the calls of `free_pages`, as pairs of page and order. -/
def slabCacheFiniLoop (cache : SlabCache) :
    ℕ → PageListData → SlabNode → Option (PageListData × List (ℕ × ℕ))
  | 0, _, _ => none
  | n + 1, s, curr =>
    if curr = .partialHead then some (s, [])
    else do
      let slab ← slabOfNode curr
      let page := pageOfAddress slab
      if (cache.slabs slab).free = cache.objectCount then
        let curr := cache.links.next curr
        let s ← freePages s page slabOrder
        let (s, calls) ← slabCacheFiniLoop cache n s curr
        some (s, (page, slabOrder) :: calls)
      else none

/-- `slab_cache_destroy`, which is `slab_cache_fini`, with a bound on the number of slabs it walks
over. It is `none` where an assertion fails. -/
def slabCacheDestroy (n : ℕ) (s : PageListData) (cache : SlabCache) :
    Option (PageListData × List (ℕ × ℕ)) :=
  if listEmpty cache.links .fullHead then
    slabCacheFiniLoop cache n s (cache.links.next .partialHead)
  else none

/-- What `slab_cache_alloc` gets from the page allocator: it asks for pages when no slab is partial. -/
def slabCachePages (s : PageListData) (cache : SlabCache) (flags : ℕ) :
    Option (PageListData × Option ℕ) :=
  if listEmpty cache.links .partialHead then allocPages s slabOrder flags else some (s, none)

/-! ### Runs -/

/-- The runs of the page allocator and of a cache created with `size` and `align` in the memory of
`mem`, starting in any reached state of the allocator. They carry the outstanding blocks of the other
clients, the pages of the blocks the cache got, and the outstanding pointers. -/
inductive SystemRun (node : PageListData) (startPfn endPfn : ℕ) (freed : Set ℕ) (mem : SlabCache)
    (size align : ℕ) : List (ℕ × ℕ) → List ℕ → List ℕ → PageListData → SlabCache → Prop
  | create {others : List (ℕ × ℕ)} {s : PageListData} :
      ZoneRun node .normal startPfn endPfn freed others s →
      SystemRun node startPfn endPfn freed mem size align others [] [] s
        (slabCacheCreate mem size align)
  | cacheAlloc {others : List (ℕ × ℕ)} {blocks out : List ℕ} {s s' : PageListData}
      {c c' : SlabCache} {flags : ℕ} {pages ret : Option ℕ} :
      SystemRun node startPfn endPfn freed mem size align others blocks out s c →
      slabCachePages s c flags = some (s', pages) → slabCacheAlloc c pages = some (c', ret) →
      SystemRun node startPfn endPfn freed mem size align others (pages.toList ++ blocks)
        (ret.toList ++ out) s' c'
  | cacheFree {others : List (ℕ × ℕ)} {blocks out : List ℕ} {s : PageListData} {c c' : SlabCache}
      {ptr : ℕ} :
      SystemRun node startPfn endPfn freed mem size align others blocks out s c → ptr ∈ out →
      slabCacheFree c ptr = some c' →
      SystemRun node startPfn endPfn freed mem size align others blocks (out.erase ptr) s c'
  | alloc {others : List (ℕ × ℕ)} {blocks out : List ℕ} {s s' : PageListData} {c : SlabCache}
      {order flags : ℕ} {ret : Option ℕ} :
      SystemRun node startPfn endPfn freed mem size align others blocks out s c →
      allocPages s order flags = some (s', ret) →
      SystemRun node startPfn endPfn freed mem size align (ret.toList.map (·, order) ++ others)
        blocks out s' c
  | free {others : List (ℕ × ℕ)} {blocks out : List ℕ} {s s' : PageListData} {c : SlabCache}
      {page order : ℕ} :
      SystemRun node startPfn endPfn freed mem size align others blocks out s c →
      (page, order) ∈ others → freePages s page order = some s' →
      SystemRun node startPfn endPfn freed mem size align (others.erase (page, order)) blocks out
        s' c

variable {node s s' : PageListData} {c c' mem : SlabCache} {freed : Set ℕ}
  {startPfn endPfn page size align order flags n : ℕ} {others taken : List (ℕ × ℕ)}
  {blocks out l : List ℕ} {nodes : Bool → List SlabNode} {pages ret : Option ℕ} {x : SlabNode}

/-! ### The page allocator -/

namespace ZoneRun

theorem nodup (h : ZoneRun node .normal startPfn endPfn freed taken s) (h0 : node.startPfn = 0)
    (hle : startPfn ≤ endPfn) (hend : endPfn < 2 ^ 32) : taken.Nodup := by
  obtain ⟨blocks, nodes, p, hs⟩ := h.accounts h0 hle hend
  rw [hs.out_eq]
  exact hs.nodup.map toPair_injective

/-- A block of two pages is naturally aligned and lies below the end of the zone. -/
theorem blockOk (h : ZoneRun node .normal startPfn endPfn freed taken s) (h0 : node.startPfn = 0)
    (hle : startPfn ≤ endPfn) (hend : endPfn ≤ 2 ^ 20) (hmem : (page, slabOrder) ∈ taken) :
    BlockOk page := by
  obtain ⟨blocks, nodes, p, hs⟩ := h.accounts h0 hle (by omega)
  rw [hs.out_eq] at hmem
  obtain ⟨b, hb, hpair⟩ := List.mem_map.mp hmem
  obtain ⟨rfl, horder⟩ := Prod.mk.inj hpair
  have hdvd := b.dvd_base
  have hlast : b.base + 1 ∈ b.points := by
    refine mem_points_iff.mpr ⟨Nat.le_succ _, ?_⟩
    rw [horder]
    exact Nat.add_lt_add_left (Nat.lt_two_pow_self (n := 1)) _
  have hlt := (hs.freed_subset (hs.points_subset b hb hlast)).2
  rw [horder] at hdvd
  exact ⟨hdvd, by omega⟩

theorem allocPages (h : ZoneRun node .normal startPfn endPfn freed taken s)
    (hret : Auos.allocPages s order flags = some (s', ret)) :
    ZoneRun node .normal startPfn endPfn freed (ret.toList.map (·, order) ++ taken) s' := by
  rw [Auos.allocPages] at hret
  split_ifs at hret with hcall
  cases ret with
  | none => exact h.allocFail hcall.1 hret
  | some page => exact h.alloc hcall.1 hret

/-- The free frames are those that were freed at the start and are not taken. -/
theorem freeFrames_eq (h : ZoneRun node .normal startPfn endPfn freed taken s)
    (h0 : node.startPfn = 0) (hle : startPfn ≤ endPfn) (hend : endPfn < 2 ^ 32) :
    freeFrames s .normal = freed \ ⋃ a ∈ taken, frames a := by
  obtain ⟨blocks, nodes, p, hs⟩ := h.accounts h0 hle hend
  rw [hs.freeFrames_eq, hs.cover_free, hs.biUnion_frames_out]

end ZoneRun

/-! ### The invariant -/

/-- The page allocator has handed out the blocks of the other clients and those of the cache, and the
cache is consistent on its own. -/
structure Backed (node : PageListData) (startPfn endPfn : ℕ) (freed : Set ℕ)
    (others : List (ℕ × ℕ)) (blocks out : List ℕ) (s : PageListData) (c : SlabCache)
    (taken : List (ℕ × ℕ)) (nodes : Bool → List SlabNode) : Prop where
  zone : ZoneRun node .normal startPfn endPfn freed taken s
  perm : taken.Perm (others ++ blocks.map (·, slabOrder))
  cache : Consistent c {page | page ∈ blocks} out nodes

namespace Backed

variable (h : Backed node startPfn endPfn freed others blocks out s c taken nodes)

include h

theorem mem_taken (hpage : page ∈ blocks) : (page, slabOrder) ∈ taken :=
  h.perm.mem_iff.mpr (List.mem_append_right _ (List.mem_map_of_mem hpage))

/-- The cache holds no block twice. -/
theorem nodup_blocks (h0 : node.startPfn = 0) (hle : startPfn ≤ endPfn) (hend : endPfn < 2 ^ 32) :
    blocks.Nodup :=
  (List.nodup_append.mp (h.perm.nodup_iff.mp (h.zone.nodup h0 hle hend))).2.1.of_map

/-- What the cache gets from the page allocator is new to it. -/
theorem getPages (h0 : node.startPfn = 0) (hle : startPfn ≤ endPfn) (hend : endPfn ≤ 2 ^ 20)
    (hret : slabCachePages s c flags = some (s', pages)) :
    (∃ taken', ZoneRun node .normal startPfn endPfn freed taken' s' ∧
      taken'.Perm (others ++ (pages.toList ++ blocks).map (·, slabOrder))) ∧
    (∀ page ∈ pages, FreshBlock {page | page ∈ blocks} page) ∧
    grownBlocks c {page | page ∈ blocks} pages = {page | page ∈ pages.toList ++ blocks} := by
  rw [slabCachePages] at hret
  rw [grownBlocks]
  by_cases hempty : listEmpty c.links .partialHead = true
  · rw [if_pos hempty] at hret ⊢
    have hzone := h.zone.allocPages hret
    cases pages with
    | none =>
      refine ⟨⟨taken, hzone, h.perm⟩, by simp, ?_⟩
      ext page
      simp
    | some page =>
      refine ⟨⟨_, hzone, (h.perm.cons _).trans List.perm_middle.symm⟩, ?_, ?_⟩
      · rintro _ ⟨⟩
        refine ⟨hzone.blockOk h0 hle hend List.mem_cons_self, ?_⟩
        intro hmem
        have hnd := hzone.nodup h0 hle (by omega)
        exact (List.nodup_cons.mp hnd).1 (h.mem_taken hmem)
      · ext p
        simp [eq_comm]
  · rw [if_neg hempty] at hret ⊢
    cases hret
    exact ⟨⟨taken, h.zone, h.perm⟩, by simp, by simp⟩

theorem cacheAlloc (h0 : node.startPfn = 0) (hle : startPfn ≤ endPfn) (hend : endPfn ≤ 2 ^ 20)
    (hpages : slabCachePages s c flags = some (s', pages))
    (hret : slabCacheAlloc c pages = some (c', ret)) :
    ∃ taken' nodes', Backed node startPfn endPfn freed others (pages.toList ++ blocks)
      (ret.toList ++ out) s' c' taken' nodes' := by
  obtain ⟨⟨taken', hzone, hperm⟩, hfresh, hgrown⟩ := h.getPages h0 hle hend hpages
  obtain ⟨c', ret', nodes', hret', hc⟩ := slabCacheAlloc_spec h.cache hfresh
  rw [hret] at hret'
  cases hret'
  exact ⟨taken', nodes', hzone, hperm, hgrown ▸ hc⟩

theorem free (hmem : (page, order) ∈ others) (hret : freePages s page order = some s') :
    Backed node startPfn endPfn freed (others.erase (page, order)) blocks out s' c
      (taken.erase (page, order)) nodes where
  zone := h.zone.free (h.perm.mem_iff.mpr (List.mem_append_left _ hmem)) hret
  perm := by
    rw [← List.erase_append_left _ hmem]
    exact h.perm.erase _
  cache := h.cache

theorem alloc (hret : allocPages s order flags = some (s', ret)) :
    Backed node startPfn endPfn freed (ret.toList.map (·, order) ++ others) blocks out s' c
      (ret.toList.map (·, order) ++ taken) nodes where
  zone := h.zone.allocPages hret
  perm := by
    rw [List.append_assoc]
    exact h.perm.append_left _
  cache := h.cache

end Backed

/-- **The invariant holds in every reached state.** -/
theorem SystemRun.backed
    (run : SystemRun node startPfn endPfn freed mem size align others blocks out s c)
    (h0 : node.startPfn = 0) (hle : startPfn ≤ endPfn) (hend : endPfn ≤ 2 ^ 20)
    (hsound : (slabCacheCreate mem size align).Sound) :
    ∃ taken nodes, Backed node startPfn endPfn freed others blocks out s c taken nodes := by
  induction run with
  | create hzone =>
    have hnone : {page : ℕ | page ∈ []} = ∅ := by simp
    exact ⟨_, _, hzone, by simp, hnone ▸ consistent_of_sound hsound⟩
  | cacheAlloc _ hpages hret ih =>
    obtain ⟨taken, nodes, h⟩ := ih
    exact h.cacheAlloc h0 hle hend hpages hret
  | cacheFree _ hptr hret ih =>
    obtain ⟨taken, nodes, h⟩ := ih
    obtain ⟨c', nodes', hret', hc⟩ := slabCacheFree_spec h.cache hptr
    obtain rfl := Option.some.inj (hret.symm.trans hret')
    exact ⟨taken, nodes', h.zone, h.perm, hc⟩
  | alloc _ hret ih =>
    obtain ⟨taken, nodes, h⟩ := ih
    exact ⟨_, nodes, h.alloc hret⟩
  | free _ hmem hret ih =>
    obtain ⟨taken, nodes, h⟩ := ih
    exact ⟨_, nodes, h.free hmem hret⟩

/-! ### The walk -/

/-- The list node of the slab in a block. -/
def slabLink (page : ℕ) : SlabNode := .link (pageVirtualAddress page)

/-- The address of a slab leads back to its block. -/
theorem pageOfAddress_pageVirtualAddress (h : BlockOk page) :
    pageOfAddress (pageVirtualAddress page) = page := by
  have hadd := pageOfAddress_add h (show 0 < slabSpace by decide)
  rwa [Nat.add_zero, Nat.zero_div, Nat.add_zero] at hadd

/-- **The walk frees the slabs of the list**, one block each, and takes one round more than there are
slabs. -/
theorem slabCacheFiniLoop_spec (h0 : node.startPfn = 0) (hle : startPfn ≤ endPfn)
    (hend : endPfn ≤ 2 ^ 20) (hpath : c.links.Path x (l.map slabLink) .partialHead)
    (hzone : ZoneRun node .normal startPfn endPfn freed taken s)
    (hperm : taken.Perm (others ++ l.map (·, slabOrder)))
    (hfree : ∀ page ∈ l, (c.slabs (pageVirtualAddress page)).free = c.objectCount) :
    ∃ s' taken', ZoneRun node .normal startPfn endPfn freed taken' s' ∧ taken'.Perm others ∧
      ∀ n, l.length < n →
        slabCacheFiniLoop c n s (c.links.next x) = some (s', l.map (·, slabOrder)) := by
  induction l generalizing x s taken with
  | nil =>
    refine ⟨s, taken, hzone, by simpa using hperm, ?_⟩
    intro n hn
    obtain ⟨n, rfl⟩ := Nat.exists_eq_add_of_lt hn
    rw [hpath.1, slabCacheFiniLoop, if_pos rfl]
    rfl
  | cons page l ih =>
    have hmem : (page, slabOrder) ∈ taken := hperm.mem_iff.mpr (by simp)
    obtain ⟨blocks, nodes, p, hs⟩ := hzone.accounts h0 hle (by omega)
    obtain ⟨b, hb, hpair⟩ := List.mem_map.mp (hs.out_eq ▸ hmem)
    obtain ⟨rfl, horder⟩ := Prod.mk.inj hpair
    obtain ⟨s₁, -, -, hret, -⟩ := hs.free hb
    rw [horder] at hret
    have hperm₁ : (taken.erase (b.base, slabOrder)).Perm (others ++ l.map (·, slabOrder)) :=
      ((hperm.trans List.perm_middle).erase _).trans (by rw [List.erase_cons_head])
    obtain ⟨s', taken', hzone', hperm', hloop⟩ := ih hpath.2 (hzone.free hmem hret) hperm₁
      fun page hpage => hfree page (List.mem_cons_of_mem _ hpage)
    refine ⟨s', taken', hzone', hperm', ?_⟩
    intro n hn
    obtain ⟨n, rfl⟩ := Nat.exists_eq_succ_of_ne_zero (Nat.ne_zero_of_lt hn)
    have hblock := hzone.blockOk h0 hle hend hmem
    have hpage := pageOfAddress_pageVirtualAddress hblock
    rw [hpath.1.1, slabLink, slabCacheFiniLoop, if_neg (by simp), slabOfNode, Option.bind_eq_bind,
      Option.bind_some]
    dsimp only
    rw [if_pos (hfree b.base List.mem_cons_self), hpage, hret, Option.bind_eq_bind, Option.bind_some,
      show SlabNode.link (pageVirtualAddress b.base) = slabLink b.base from rfl,
      hloop n (Nat.lt_of_succ_lt_succ hn)]
    rfl

/-! ### A cache without objects -/

namespace Consistent

variable {P : Set ℕ}

/-- Without outstanding pointers every slab is free. -/
theorem free_eq_objectCount (h : Consistent c P [] nodes) (hpage : page ∈ P) :
    (c.slabs (pageVirtualAddress page)).free = c.objectCount := by
  have hnone : bitsInUse c page = ∅ := by
    refine Finset.eq_empty_of_forall_notMem ?_
    intro n hn
    exact List.not_mem_nil ((h.stock.mem_out _).mpr ⟨page, hpage, n, hn, rfl⟩)
  have hsum := (h.stock.slab_ok page hpage).free_eq
  rwa [show setBits wordBits (c.slabs (pageVirtualAddress page)).bitmap = ∅ from hnone,
    Finset.card_empty, Nat.add_zero] at hsum

/-- Without outstanding pointers no slab is full. -/
theorem listEmpty_full (h : Consistent c P [] nodes) : listEmpty c.links .fullHead = true := by
  refine (listEmpty_iff h.listed.rings (Set.mem_univ true)).mpr ?_
  rw [List.eq_nil_iff_forall_not_mem]
  intro x hx
  obtain ⟨page, hpage, rfl, hfull⟩ := (h.listed.mem_nodes true x).mp hx
  have hcount := h.stock.sound.count_pos
  rw [← h.free_eq_objectCount hpage, hfull.mp rfl] at hcount
  exact lt_irrefl 0 hcount

/-- Without outstanding pointers the other list holds every slab, each once. -/
theorem exists_partial_eq (h : Consistent c {page | page ∈ blocks} [] nodes) (hnd : blocks.Nodup) :
    ∃ l : List ℕ, nodes false = l.map slabLink ∧ l.Perm blocks := by
  have hrange : nodes false ∈ Set.range (List.map fun page : {page // page ∈ blocks} =>
      slabLink page) := by
    rw [Set.range_list_map]
    intro x hx
    obtain ⟨page, hpage, rfl, -⟩ := (h.listed.mem_nodes false x).mp hx
    exact ⟨⟨page, hpage⟩, rfl⟩
  obtain ⟨l, hl⟩ := hrange
  have hnodes : nodes false = (l.map Subtype.val).map slabLink := by
    rw [← hl, List.map_map]
    rfl
  have hring := (h.listed.rings.ring false (Set.mem_univ _)).2
  have hdistinct : (l.map Subtype.val).Nodup := by
    rw [hnodes] at hring
    exact (List.nodup_cons.mp hring).2.of_map
  refine ⟨l.map Subtype.val, hnodes, (List.perm_ext_iff_of_nodup hdistinct hnd).mpr ?_⟩
  intro page
  constructor
  · intro hmem
    obtain ⟨p, -, rfl⟩ := List.mem_map.mp hmem
    exact p.2
  · intro hpage
    have hfree : (c.slabs (pageVirtualAddress page)).free ≠ 0 := by
      rw [h.free_eq_objectCount hpage]
      exact h.stock.sound.count_pos.ne'
    have hmem := (h.listed.mem_nodes false (slabLink page)).mpr
      ⟨page, hpage, rfl, iff_of_false Bool.false_ne_true hfree⟩
    rw [hnodes] at hmem
    obtain ⟨p, hp, heq⟩ := List.mem_map.mp hmem
    obtain ⟨q, -, rfl⟩ := List.mem_map.mp hp
    rwa [(pageVirtualAddress_inj (h.listed.block_ok _ q.2) (h.listed.block_ok page hpage)).mp
      (SlabNode.link.inj heq)] at hp

end Consistent

/-- **Slab pages are conserved.** After any run of a cache and the other clients of the page allocator
in which every object of the cache has come back, `slab_cache_destroy` passes its assertions and those
of `free_pages`. It frees exactly the blocks the cache got, each once. The free frames are then those
freed at the start that the other clients do not hold, as in a run without the cache. -/
theorem SystemRun.slabPages_conserved
    (run : SystemRun node startPfn endPfn freed mem size align others blocks [] s c)
    (h0 : node.startPfn = 0) (hle : startPfn ≤ endPfn) (hend : endPfn ≤ 2 ^ 20)
    (hcount : 1 ≤ (slabCacheCreate mem size align).objectCount)
    (hpos : 0 < (slabCacheCreate mem size align).objectSize)
    (hwrap : (slabCacheCreate mem size align).objectSize < 2 ^ 29) :
    ∃ s' calls, (∀ n, blocks.length < n → slabCacheDestroy n s c = some (s', calls)) ∧
      calls.Perm (blocks.map (·, slabOrder)) ∧ calls.Nodup ∧
      freeFrames s' .normal = freed \ ⋃ a ∈ others, frames a ∧
      ∀ node' others' s'', node'.startPfn = 0 → others'.Perm others →
        ZoneRun node' .normal startPfn endPfn freed others' s'' →
        freeFrames s' .normal = freeFrames s'' .normal := by
  have hsound : (slabCacheCreate mem size align).Sound :=
    sound_of_slabObjectSize_le hpos (le_of_slabObjectCount_pos hwrap hcount)
  obtain ⟨taken, nodes, h⟩ := run.backed h0 hle hend hsound
  have hnd := h.nodup_blocks h0 hle (by omega)
  obtain ⟨l, hnodes, hl⟩ := h.cache.exists_partial_eq hnd
  have hring := (h.cache.listed.rings.ring false (Set.mem_univ _)).1
  rw [hnodes] at hring
  have hperm : taken.Perm (others ++ l.map (·, slabOrder)) :=
    h.perm.trans ((hl.symm.map _).append_left _)
  obtain ⟨s', taken', hzone, hperm', hloop⟩ := slabCacheFiniLoop_spec h0 hle hend hring h.zone hperm
    fun page hpage => h.cache.free_eq_objectCount (hl.subset hpage)
  have hcover : ⋃ a ∈ taken', frames a = ⋃ a ∈ others, frames a := by
    simp only [hperm'.mem_iff]
  have hfree := hzone.freeFrames_eq h0 hle (by omega)
  refine ⟨s', l.map (·, slabOrder), ?_, hl.map _, ?_, hcover ▸ hfree, ?_⟩
  · intro n hn
    rw [slabCacheDestroy, if_pos h.cache.listEmpty_full]
    exact hloop n (hl.length_eq.symm ▸ hn)
  · exact (hl.nodup_iff.mpr hnd).map fun _ _ heq => (Prod.mk.inj heq).1
  · intro node' others' s'' h0' hothers hrun
    rw [hfree, hcover, hrun.freeFrames_eq h0' hle (by omega)]
    simp only [hothers.mem_iff]

theorem slabPages_conserved_blankCache : ∃ s c,
    SystemRun blankNode 0 lowmemPageFrames {1, 0} blankCache 16 16 [] [0] [] s c ∧
    ∃ s' calls, (∀ n, [0].length < n → slabCacheDestroy n s c = some (s', calls)) ∧
      calls.Perm ([0].map (·, slabOrder)) ∧ calls.Nodup ∧
      freeFrames s' .normal = {1, 0} \ ⋃ a ∈ ([] : List (ℕ × ℕ)), frames a ∧
      ∀ node' others' s'', node'.startPfn = 0 → others'.Perm [] →
        ZoneRun node' .normal 0 lowmemPageFrames {1, 0} others' s'' →
        freeFrames s' .normal = freeFrames s'' .normal := by
  obtain ⟨s, s', hzone, hpages⟩ :=
    exists_zoneRun_pair (show 2 ≤ lowmemPageFrames by decide) (by decide)
  obtain ⟨c₁, nodes, hret, hc₁⟩ := exists_slabCacheAlloc_blankCache
  obtain ⟨c₂, -, hfree, -⟩ := slabCacheFree_spec hc₁ List.mem_cons_self
  have hget :
      slabCachePages s (slabCacheCreate blankCache 16 16) allocNormal = some (s', some 0) := by
    rw [slabCachePages, if_pos (by decide), hpages]
  have run := ((SystemRun.create hzone).cacheAlloc hget hret).cacheFree List.mem_cons_self hfree
  exact ⟨s', c₂, run, run.slabPages_conserved rfl (Nat.zero_le _) (by decide) (by decide) (by decide)
    (by decide)⟩

/-- Memory as other code has left it: every `slab` field points to `0xC0002000`. -/
def staleCache : SlabCache :=
  ⟨0, 0, 0, ⟨id, id⟩, fun _ => ⟨1, [1]⟩, fun _ => 0xC0002000⟩

/-- A cache for objects of `0x80000FA0` bytes has two objects a slab, since the size in bits wraps. The
second one lies outside the slab, and its release goes to whatever `slab` field is found there: all
objects have come back, and `slab_cache_destroy` stops in its assertion. -/
theorem slabCacheDestroy_stops : ∃ s c,
    SystemRun blankNode 0 lowmemPageFrames {1, 0} staleCache 0x80000FA0 1 [] [0] [] s c ∧
    1 ≤ (slabCacheCreate staleCache 0x80000FA0 1).objectCount ∧
    ∀ n, slabCacheDestroy n s c = none := by
  obtain ⟨s, s', hzone, hpages⟩ :=
    exists_zoneRun_pair (show 2 ≤ lowmemPageFrames by decide) (by decide)
  have hcalls : ((slabCacheAlloc (slabCacheCreate staleCache 0x80000FA0 1) (some 0)).bind fun a =>
      (slabCacheAlloc a.1 none).bind fun b => (slabCacheFree b.1 0x40001060).bind fun c =>
      (slabCacheFree c 0xC00000C0).map fun d => (a.2, listEmpty a.1.links .partialHead, b.2,
        d.links.next .partialHead, (d.slabs 0xC0000000).free, d.objectCount)) =
      some (some 0xC00000C0, false, some 0x40001060, .link 0xC0000000, 1, 2) := by rfl
  obtain ⟨⟨c₁, ret₁⟩, hret₁, hcalls⟩ := Option.bind_eq_some_iff.mp hcalls
  obtain ⟨⟨c₂, ret₂⟩, hret₂, hcalls⟩ := Option.bind_eq_some_iff.mp hcalls
  obtain ⟨c₃, hfree₃, hcalls⟩ := Option.bind_eq_some_iff.mp hcalls
  obtain ⟨c₄, hfree₄, hcalls⟩ := Option.map_eq_some_iff.mp hcalls
  simp only [Prod.mk.injEq] at hcalls
  obtain ⟨rfl, hpartial, rfl, hnext, hslab, hcount⟩ := hcalls
  have hget₁ : slabCachePages s (slabCacheCreate staleCache 0x80000FA0 1) allocNormal =
      some (s', some 0) := by
    rw [slabCachePages, if_pos (by decide), hpages]
  have hget₂ : slabCachePages s' c₁ allocNormal = some (s', none) := by
    rw [slabCachePages, hpartial, if_neg (by decide)]
  have run := ((((SystemRun.create hzone).cacheAlloc hget₁ hret₁).cacheAlloc hget₂ hret₂).cacheFree
    List.mem_cons_self hfree₃).cacheFree (by simp) hfree₄
  refine ⟨s', c₄, by simpa using run, by decide, ?_⟩
  intro n
  rw [slabCacheDestroy, hnext]
  split
  · cases n with
    | zero => rfl
    | succ n =>
      rw [slabCacheFiniLoop, if_neg (by decide), slabOfNode, Option.bind_eq_bind, Option.bind_some]
      dsimp only
      rw [hslab, hcount, if_neg (by decide)]
  · rfl

end Auos
