import Auos.SlabCache.Stock

/-!
# Runs of a slab cache

A cache from `slab_cache_create` on, through any calls of `slab_cache_alloc` and `slab_cache_free`. A
run carries the blocks the cache has grown by and the list of outstanding pointers.

The invariant has two halves. `Stock` is about counters, bitmaps and pointers: the outstanding pointers
are the objects whose bits are set. `Listed` is about the lists. A call writes one slab and may move it
to the other list.

## Main definitions

* `SlabRun` — the runs
* `Stock`, `Consistent` — the invariant
* `Coherent` — what is read off it

## Main results

* `slabCacheAlloc_spec`, `slabCacheFree_spec` — the calls return and keep the invariant
* `SlabRun.coherent` — every reached state is coherent
-/

namespace Auos

open Links

variable {c c' mem : SlabCache} {nodes : Bool → List SlabNode} {blocks : Set ℕ} {out : List ℕ}
  {pages ret : Option ℕ} {page page' size align n m ptr : ℕ} {s : Slab}

/-- A new block for the cache, as `alloc_pages` hands it out. -/
structure FreshBlock (blocks : Set ℕ) (page : ℕ) : Prop where
  block_ok : BlockOk page
  notMem : page ∉ blocks

/-- The blocks of a cache after `slab_cache_alloc`, which asks for pages when no slab is partial. -/
def grownBlocks (c : SlabCache) (blocks : Set ℕ) (pages : Option ℕ) : Set ℕ :=
  if listEmpty c.links .partialHead then {page | pages = some page} ∪ blocks else blocks

/-- The runs of a cache for objects of `size` bytes aligned to `align`, created in the memory of `mem`,
with the first pages of its blocks and the outstanding pointers. -/
inductive SlabRun (mem : SlabCache) (size align : ℕ) : Set ℕ → List ℕ → SlabCache → Prop
  | create : SlabRun mem size align ∅ [] (slabCacheCreate mem size align)
  | alloc {blocks : Set ℕ} {out : List ℕ} {c c' : SlabCache} {pages ret : Option ℕ} :
      SlabRun mem size align blocks out c → (∀ page ∈ pages, FreshBlock blocks page) →
      slabCacheAlloc c pages = some (c', ret) →
      SlabRun mem size align (grownBlocks c blocks pages) (ret.toList ++ out) c'
  | free {blocks : Set ℕ} {out : List ℕ} {c c' : SlabCache} {ptr : ℕ} :
      SlabRun mem size align blocks out c → ptr ∈ out → slabCacheFree c ptr = some c' →
      SlabRun mem size align blocks (out.erase ptr) c'

/-! ### The invariant -/

/-- The pointers are accounted for and the slabs are listed. -/
structure Consistent (c : SlabCache) (blocks : Set ℕ) (out : List ℕ)
    (nodes : Bool → List SlabNode) : Prop where
  stock : Stock c blocks out
  listed : Listed c nodes blocks

namespace Consistent

/-- `slab_cache_grow`, whether it gets pages or not. -/
theorem grow (h : Consistent c blocks out nodes) (hpages : ∀ page ∈ pages, FreshBlock blocks page) :
    ∃ nodes', Consistent (slabCacheGrow c pages) ({page | pages = some page} ∪ blocks) out nodes' := by
  cases pages with
  | none =>
    have hnone : {page : ℕ | none = some page} ∪ blocks = blocks := by simp
    rw [hnone]
    exact ⟨nodes, h⟩
  | some page =>
    have hfresh := hpages page rfl
    have hinsert : {p | some page = some p} ∪ blocks = insert page blocks := by
      ext p
      simp [eq_comm]
    have hinit : Listed (slabInit c (pageVirtualAddress page)) nodes blocks :=
      h.listed.write hfresh.block_ok fun hmem => absurd hmem hfresh.notMem
    have hfree : ((slabInit c (pageVirtualAddress page)).slabs (pageVirtualAddress page)).free =
        c.objectCount := by
      dsimp only [slabInit]
      rw [Function.update_self]
    have hlisted := hinit.insertPartial hfresh.block_ok hfresh.notMem
      (by rw [hfree]; exact h.stock.sound.count_pos.ne')
    rw [hinsert]
    exact ⟨_, (h.stock.grow hfresh.block_ok hfresh.notMem).setLinks _,
      hlisted.rings, hlisted.mem_nodes, hlisted.block_ok⟩

end Consistent

/-! ### Calls -/

/-- **`slab_cache_alloc` returns and keeps the invariant**, and the pointer, if any, is added to the
outstanding ones. -/
theorem slabCacheAlloc_spec (h : Consistent c blocks out nodes)
    (hpages : ∀ page ∈ pages, FreshBlock blocks page) :
    ∃ c' ret nodes', slabCacheAlloc c pages = some (c', ret) ∧
      Consistent c' (grownBlocks c blocks pages) (ret.toList ++ out) nodes' := by
  obtain ⟨nodes₁, h₁⟩ : ∃ nodes₁, Consistent
      (if listEmpty c.links .partialHead then slabCacheGrow c pages else c)
      (grownBlocks c blocks pages) out nodes₁ := by
    rw [grownBlocks]
    split
    · exact h.grow hpages
    · exact ⟨nodes, h⟩
  rw [slabCacheAlloc]
  dsimp only
  generalize (if listEmpty c.links .partialHead then slabCacheGrow c pages else c) = c₁ at h₁ ⊢
  generalize grownBlocks c blocks pages = blocks₁ at h₁ ⊢
  by_cases hempty : listEmpty c₁.links .partialHead = true
  · exact ⟨c₁, none, nodes₁, if_pos hempty, h₁⟩
  · have hne := mt (listEmpty_iff h₁.listed.rings (Set.mem_univ false)).mpr hempty
    obtain ⟨x, xs, hcons⟩ := List.exists_cons_of_ne_nil hne
    have hnext : c₁.links.next .partialHead = x :=
      h₁.listed.rings.next_head (Set.mem_univ false) hcons
    obtain ⟨page, hpage, rfl, hfull⟩ :=
      (h₁.listed.mem_nodes false x).mp (hcons ▸ List.mem_cons_self)
    have hfree : (c₁.slabs (pageVirtualAddress page)).free ≠ 0 := fun e => by simp [e] at hfull
    have hblock := h₁.stock.block_ok page hpage
    obtain ⟨n, s, hret, hn, hnew, hs, hbits, -⟩ := slabAlloc_spec h₁.stock.sound
      (h₁.stock.slab_ok page hpage) (Nat.pos_of_ne_zero hfree) hblock.pageVirtualAddress_add_le
    have hstock := h₁.stock.take hpage hs hn hnew hbits
    rw [if_neg hempty, hnext, slabOfNode, Option.bind_eq_bind, Option.bind_some, hret,
      Option.bind_eq_bind, Option.bind_some]
    have hself : Function.update c₁.slabs (pageVirtualAddress page) s (pageVirtualAddress page) = s :=
      Function.update_self ..
    simp only [hself]
    by_cases hs0 : s.free = 0
    · obtain ⟨nodes', hlisted⟩ := h₁.listed.moveToFull hpage hfree hs0
      exact ⟨_, _, nodes', if_pos hs0, hstock.setLinks _, hlisted⟩
    · exact ⟨_, _, nodes₁, if_neg hs0, hstock,
        h₁.listed.write hblock fun _ => iff_of_false hs0 hfree⟩

/-- **`slab_cache_free` of an outstanding pointer returns and keeps the invariant.** -/
theorem slabCacheFree_spec (h : Consistent c blocks out nodes) (hptr : ptr ∈ out) :
    ∃ c' nodes', slabCacheFree c ptr = some c' ∧ Consistent c' blocks (out.erase ptr) nodes' := by
  obtain ⟨page, hpage, n, hn, rfl⟩ := (h.stock.mem_out ptr).mp hptr
  have hblock := h.stock.block_ok page hpage
  obtain ⟨s, hret, hs, hbits, hinc⟩ := slabFree_spec h.stock.sound (h.stock.slab_ok page hpage) hn
    hblock.pageVirtualAddress_add_le
  have hs0 : s.free ≠ 0 := by omega
  have hstock := h.stock.release hpage hs hn hbits
  rw [slabCacheFree, h.stock.pageSlab_eq hpage hn]
  dsimp only
  rw [hret, Option.bind_eq_bind, Option.bind_some]
  by_cases hfree : (c.slabs (pageVirtualAddress page)).free = 0
  · obtain ⟨nodes', hlisted⟩ := h.listed.moveToPartial hpage hfree hs0
    exact ⟨_, nodes', if_pos hfree, hstock.setLinks _, hlisted⟩
  · exact ⟨_, nodes, if_neg hfree, hstock,
      h.listed.write hblock fun _ => iff_of_false hs0 hfree⟩

/-! ### Runs -/

/-- A new cache has no slabs. -/
theorem consistent_of_sound (h : (slabCacheCreate mem size align).Sound) :
    Consistent (slabCacheCreate mem size align) ∅ [] fun _ => [] := by
  refine ⟨⟨h, by simp, by simp, by simp, List.nodup_nil, by simp⟩, ?_, by simp, by simp⟩
  have hnone : mem.links.Rings ∅ listHead fun _ => [] := ⟨by simp, by simp⟩
  have hpartial := hnone.listInitHead (i := false) rfl (by simp)
  have hfull := hpartial.listInitHead (i := true) rfl (by simp [listHead])
  have huniv : insert true (insert false (∅ : Set Bool)) = Set.univ := by
    ext b
    cases b <;> simp
  rw [huniv] at hfull
  exact hfull

theorem consistent_slabCacheCreate (mem : SlabCache) (hsize : 1 ≤ size) (halign : 0 < align)
    (hround : roundedSize size align ≤ 8172) :
    Consistent (slabCacheCreate mem size align) ∅ [] fun _ => [] :=
  consistent_of_sound (sound_slabCacheCreate hsize halign hround)

/-- **The invariant holds in every reached state.** -/
theorem SlabRun.consistent (h : SlabRun mem size align blocks out c) (hsize : 1 ≤ size)
    (halign : 0 < align) (hround : roundedSize size align ≤ 8172) :
    ∃ nodes, Consistent c blocks out nodes := by
  induction h with
  | create => exact ⟨_, consistent_slabCacheCreate mem hsize halign hround⟩
  | alloc _ hpages hret ih =>
    obtain ⟨nodes, hc⟩ := ih
    obtain ⟨c', ret, nodes', hret', hc'⟩ := slabCacheAlloc_spec hc hpages
    rw [hret] at hret'
    cases hret'
    exact ⟨nodes', hc'⟩
  | free _ hptr hret ih =>
    obtain ⟨nodes, hc⟩ := ih
    obtain ⟨c', nodes', hret', hc'⟩ := slabCacheFree_spec hc hptr
    rw [hret] at hret'
    cases hret'
    exact ⟨nodes', hc'⟩

/-! ### Reading a state -/

/-- Lists, counters, bitmaps and outstanding pointers are in step. -/
structure Coherent (c : SlabCache) (blocks : Set ℕ) (out : List ℕ) : Prop where
  /-- The lists are well formed, a slab is on `partial` when its counter is not zero and on `full` when
  it is, and nothing else is on them. -/
  lists : ∃ partials fulls, c.links.IsRing .partialHead partials ∧ c.links.IsRing .fullHead fulls ∧
    (∀ page ∈ blocks,
      (.link (pageVirtualAddress page) ∈ partials ↔ (c.slabs (pageVirtualAddress page)).free ≠ 0) ∧
      (.link (pageVirtualAddress page) ∈ fulls ↔ (c.slabs (pageVirtualAddress page)).free = 0)) ∧
    ∀ x ∈ partials ++ fulls, ∃ page ∈ blocks, x = .link (pageVirtualAddress page)
  /-- The counter is the number of objects without the set bits. -/
  free_eq : ∀ page ∈ blocks,
    (c.slabs (pageVirtualAddress page)).free + (bitsInUse c page).card = c.objectCount
  /-- Only bits that stand for objects are set. -/
  bit_lt : ∀ page ∈ blocks, ∀ n ∈ bitsInUse c page, n < c.objectCount
  /-- The objects lie in the two pages, after the header and the bitmap. -/
  objects_fit : ∀ n < c.objectCount, 16 + 4 * ((c.objectCount + 31) / 32) ≤ c.objectOffset ∧
    c.objectOffset + n * c.objectSize + c.objectSize ≤ slabSpace
  /-- No slab reaches past the end of the address space. -/
  slab_fits : ∀ page ∈ blocks, pageVirtualAddress page + slabSpace ≤ 2 ^ 32
  /-- No pointer is handed out twice. -/
  nodup : out.Nodup
  /-- The set bits are one to one with the outstanding pointers. -/
  bijOn : Set.BijOn (fun a => objectAddr c (pageVirtualAddress a.1) a.2)
    {a : ℕ × ℕ | a.1 ∈ blocks ∧ a.2 ∈ bitsInUse c a.1} {ptr | ptr ∈ out}
  /-- The search in a slab that is not full stops in a word of the bitmap. -/
  search : ∀ page ∈ blocks, (c.slabs (pageVirtualAddress page)).free ≠ 0 →
    ∃ i word, slabAllocWord (c.slabs (pageVirtualAddress page)).bitmap 0 = some (i, word) ∧
      i < (c.objectCount + 31) / 32

theorem Coherent.of_consistent (h : Consistent c blocks out nodes) : Coherent c blocks out where
  lists := by
    refine ⟨nodes false, nodes true, h.listed.rings.ring false (Set.mem_univ _),
      h.listed.rings.ring true (Set.mem_univ _), ?_, ?_⟩
    · intro page hpage
      have hblock := h.stock.block_ok page hpage
      rw [h.listed.mem_link_iff hblock, h.listed.mem_link_iff hblock]
      simp [hpage]
    · intro x hx
      rcases List.mem_append.mp hx with hx | hx
      · obtain ⟨page, hpage, rfl, -⟩ := (h.listed.mem_nodes false x).mp hx
        exact ⟨page, hpage, rfl⟩
      · obtain ⟨page, hpage, rfl, -⟩ := (h.listed.mem_nodes true x).mp hx
        exact ⟨page, hpage, rfl⟩
  free_eq := fun page hpage => (h.stock.slab_ok page hpage).free_eq
  bit_lt := fun page hpage n hn => h.stock.bit_lt hpage hn
  objects_fit := fun n hn => ⟨h.stock.sound.bitmap_fits, h.stock.sound.object_end_le hn⟩
  slab_fits := fun page hpage => (h.stock.block_ok page hpage).pageVirtualAddress_add_le
  nodup := h.stock.nodup
  bijOn := by
    refine ⟨?_, ?_, ?_⟩
    · intro a ha
      exact (h.stock.mem_out _).mpr ⟨a.1, ha.1, a.2, ha.2, rfl⟩
    · intro a ha b hb heq
      obtain ⟨h₁, h₂⟩ := objectAddr_inj h.stock.sound (h.stock.block_ok _ ha.1)
        (h.stock.block_ok _ hb.1) (h.stock.bit_lt ha.1 ha.2) (h.stock.bit_lt hb.1 hb.2) heq
      exact Prod.ext h₁ h₂
    · intro ptr hptr
      obtain ⟨page, hpage, n, hn, rfl⟩ := (h.stock.mem_out ptr).mp hptr
      exact ⟨(page, n), ⟨hpage, hn⟩, rfl⟩
  search := fun page hpage hfree =>
    (h.stock.slab_ok page hpage).search_lt h.stock.sound (Nat.pos_of_ne_zero hfree)

/-- **A slab cache never gets out of step.** For every size and alignment with a rounded size of at
most `8172`, every reached state is coherent, and the next call returns: an allocation with any pages
that are new to the cache or with none, and the release of any outstanding pointer. -/
theorem SlabRun.coherent (h : SlabRun mem size align blocks out c) (hsize : 1 ≤ size)
    (halign : 0 < align) (hround : roundedSize size align ≤ 8172) :
    Coherent c blocks out ∧
    (∀ pages : Option ℕ, (∀ page ∈ pages, FreshBlock blocks page) →
      (slabCacheAlloc c pages).isSome) ∧
    ∀ ptr ∈ out, (slabCacheFree c ptr).isSome := by
  obtain ⟨nodes, hc⟩ := h.consistent hsize halign hround
  refine ⟨.of_consistent hc, ?_, ?_⟩
  · intro pages hpages
    obtain ⟨c', ret, -, hret, -⟩ := slabCacheAlloc_spec hc hpages
    rw [hret]
    rfl
  · intro ptr hptr
    obtain ⟨c', -, hret, -⟩ := slabCacheFree_spec hc hptr
    rw [hret]
    rfl

/-- A cache before any initialisation. -/
def blankCache : SlabCache := ⟨0, 0, 0, ⟨id, id⟩, fun _ => ⟨0, []⟩, fun _ => 0⟩

theorem freshBlock_zero : ∀ page ∈ some 0, FreshBlock ∅ page := by
  rintro _ ⟨⟩
  exact ⟨⟨by decide, by decide⟩, Set.notMem_empty 0⟩

theorem grownBlocks_blankCache :
    grownBlocks (slabCacheCreate blankCache 16 16) ∅ (some 0) = {0} := by
  rw [grownBlocks, if_pos (by decide)]
  ext page
  simp [eq_comm]

/-- The first call gets page `0` for its slab and hands out the first object there. -/
theorem exists_slabCacheAlloc_blankCache : ∃ c nodes,
    slabCacheAlloc (slabCacheCreate blankCache 16 16) (some 0) = some (c, some 0xC0000060) ∧
      Consistent c {0} [0xC0000060] nodes := by
  have hcreate : Consistent (slabCacheCreate blankCache 16 16) ∅ [] fun _ => [] :=
    consistent_slabCacheCreate blankCache (by decide) (by decide) (by decide)
  obtain ⟨c, ret, nodes, hret, hc⟩ := slabCacheAlloc_spec hcreate freshBlock_zero
  have hptr : (slabCacheAlloc (slabCacheCreate blankCache 16 16) (some 0)).map Prod.snd =
      some (some 0xC0000060) := by rfl
  rw [hret, Option.map_some, Option.some.injEq] at hptr
  dsimp only at hptr
  rw [grownBlocks_blankCache] at hc
  subst hptr
  exact ⟨c, nodes, hret, hc⟩

theorem grownBlocks_none (c : SlabCache) (blocks : Set ℕ) : grownBlocks c blocks none = blocks := by
  simp [grownBlocks]

/-- Two objects are handed out of one slab, and the first one comes back. -/
theorem exists_slabRun_blankCache : ∃ c, SlabRun blankCache 16 16 {0} [0xC0000070] c := by
  have hcalls : ((slabCacheAlloc (slabCacheCreate blankCache 16 16) (some 0)).bind fun a =>
      (slabCacheAlloc a.1 none).bind fun b => (slabCacheFree b.1 0xC0000060).map fun _ =>
        (a.2, b.2)) = some (some 0xC0000060, some 0xC0000070) := by rfl
  obtain ⟨⟨c₁, ret₁⟩, hret₁, hcalls⟩ := Option.bind_eq_some_iff.mp hcalls
  obtain ⟨⟨c₂, ret₂⟩, hret₂, hcalls⟩ := Option.bind_eq_some_iff.mp hcalls
  obtain ⟨c₃, hfree, hcalls⟩ := Option.map_eq_some_iff.mp hcalls
  obtain ⟨rfl, rfl⟩ := Prod.mk.inj hcalls
  have run₁ := SlabRun.create.alloc freshBlock_zero hret₁
  rw [grownBlocks_blankCache] at run₁
  have run₂ := run₁.alloc (fun _ h => by cases h) hret₂
  rw [grownBlocks_none] at run₂
  exact ⟨c₃, run₂.free (List.mem_cons_of_mem _ List.mem_cons_self) hfree⟩

theorem SlabRun.coherent_blankCache : ∃ c, SlabRun blankCache 16 16 {0} [0xC0000070] c ∧
    Coherent c {0} [0xC0000070] ∧
    (∀ pages : Option ℕ, (∀ page ∈ pages, FreshBlock {0} page) →
      (slabCacheAlloc c pages).isSome) ∧
    ∀ ptr ∈ [0xC0000070], (slabCacheFree c ptr).isSome := by
  obtain ⟨c, h⟩ := exists_slabRun_blankCache
  exact ⟨c, h, h.coherent (by decide) (by decide) (by decide)⟩

end Auos
