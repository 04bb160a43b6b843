import Auos.PageAlloc.Defs
import Auos.Lib.Pool

/-!
# Blocks held by a zone

What a zone's pages and free lists say about blocks: the free lists hold the blocks of a family `F`,
each on the list of its order, and the first page of a block carries its order, as it is for the free
blocks `F` and as `-order - 1` for the live blocks `L`. Nothing is said about the `order` field of
any other page, and splitting and merging leave old values there.

The families are sets of `Block`s, so alignment is part of the representation. The lemmas follow the
four writes of the allocator: removing a block from its list, freeing one, and marking one as live.

## Main definitions

* `Holds` — the representation
* `freeBlocks` — the blocks on the free lists, read off the links
-/

namespace Auos

open Block

/-- The zone `[startPfn, endPfn)` holds the free blocks `F`, through the list elements `nodes`, and
the live blocks `L`. -/
structure Holds (s : PageListData) (zone : ZoneType) (startPfn endPfn : ℕ)
    (nodes : ℕ → List ListNode) (F L : Set Block) : Prop where
  /-- The node starts at frame `0`, so that pages and frames have the same number. -/
  node_start : s.startPfn = 0
  /-- The bounds of the zone. -/
  zone_eq : s.zones zone = ⟨startPfn, endPfn⟩
  /-- The pages of the zone name it. -/
  page_zone : ∀ pfn, startPfn ≤ pfn → pfn < endPfn → (s.pages pfn).zone = zone
  /-- The free lists are well formed. -/
  rings : s.links.Rings {k | k < maxOrder} (ListNode.freeArea zone) nodes
  /-- The list of order `k` holds the first pages of the free blocks of order `k`. -/
  mem_nodes : ∀ k < maxOrder, ∀ x, x ∈ nodes k ↔ ∃ b ∈ F, b.order = k ∧ x = .chain b.base
  /-- The first page of a free block carries its order. -/
  free_order : ∀ b ∈ F, (s.pages b.base).order = b.order
  /-- The first page of a live block carries its order in the negative. -/
  live_order : ∀ b ∈ L, (s.pages b.base).order = -b.order - 1

variable {s : PageListData} {zone : ZoneType} {startPfn endPfn page pfn k : ℕ} {order : ℤ}
  {nodes : ℕ → List ListNode} {F L L' : Set Block} {b c : Block} {x pos : ListNode}

/-! ### The state writes -/

section Writes

@[simp] theorem setOrder_zones : (s.setOrder page order).zones = s.zones := rfl

@[simp] theorem setOrder_startPfn : (s.setOrder page order).startPfn = s.startPfn := rfl

@[simp] theorem setOrder_links : (s.setOrder page order).links = s.links := rfl

@[simp] theorem setOrder_order_self : ((s.setOrder page order).pages page).order = order := by
  simp [PageListData.setOrder]

theorem setOrder_pages_of_ne (h : pfn ≠ page) :
    (s.setOrder page order).pages pfn = s.pages pfn := Function.update_of_ne h _ _

@[simp] theorem setOrder_zone : ((s.setOrder page order).pages pfn).zone = (s.pages pfn).zone := by
  rcases eq_or_ne pfn page with rfl | h
  · simp [PageListData.setOrder]
  · rw [setOrder_pages_of_ne h]

@[simp] theorem insertBefore_zones : (s.insertBefore pos x).zones = s.zones := rfl

@[simp] theorem insertBefore_startPfn : (s.insertBefore pos x).startPfn = s.startPfn := rfl

@[simp] theorem insertBefore_pages : (s.insertBefore pos x).pages = s.pages := rfl

@[simp] theorem remove_zones : (s.remove x).zones = s.zones := rfl

@[simp] theorem remove_startPfn : (s.remove x).startPfn = s.startPfn := rfl

@[simp] theorem remove_pages : (s.remove x).pages = s.pages := rfl

end Writes

theorem pageToPfn_eq (h : s.startPfn = 0) (page : ℕ) : pageToPfn s page = page := by
  rw [pageToPfn, h, Nat.zero_add]

theorem pfnToPage_eq (h : s.startPfn = 0) (pfn : ℕ) : pfnToPage s pfn = pfn := by
  rw [pfnToPage, h, Nat.sub_zero]

/-- The buddy of a block's first frame is the first frame of its sibling. -/
theorem buddyPfn_base (b : Block) : buddyPfn b.base b.order = b.sibling.base := by
  rw [buddyPfn, Nat.one_shiftLeft, base_sibling]

/-- Blocks that share no point have different first points. -/
theorem base_ne_of_disjoint (h : Disjoint b.points (cover F)) : ∀ c ∈ F, c.base ≠ b.base := by
  intro c hc hbase
  refine Set.disjoint_left.mp h b.base_mem (points_subset_cover hc ?_)
  rw [← hbase]
  exact c.base_mem

theorem eq_of_base_eq (h : b.base = c.base) (hk : b.order = c.order) : b = c :=
  eq_of_mem b.base_mem (h ▸ c.base_mem) hk

/-! ### The writes on a representation -/

namespace Holds

theorem mono (h : Holds s zone startPfn endPfn nodes F L) (hL : L' ⊆ L) :
    Holds s zone startPfn endPfn nodes F L' :=
  { h with live_order := fun b hb => h.live_order b (hL hb) }

/-- A page that heads no free block is on no list. -/
theorem chain_notMem (h : Holds s zone startPfn endPfn nodes F L) (hpage : ∀ c ∈ F, c.base ≠ page) :
    ∀ k ∈ {k | k < maxOrder}, ListNode.chain page ∉ ListNode.freeArea zone k :: nodes k := by
  intro k hk hmem
  rcases List.mem_cons.mp hmem with hmem | hmem
  · cases hmem
  · obtain ⟨c, hc, -, hx⟩ := (h.mem_nodes k hk _).mp hmem
    cases hx
    exact hpage c hc rfl

/-- `list_remove` takes a free block off its list. -/
theorem remove (h : Holds s zone startPfn endPfn nodes F L) (hb : b ∈ F) (hk : b.order < maxOrder) :
    Holds (s.remove (.chain b.base)) zone startPfn endPfn
      (Function.update nodes b.order ((nodes b.order).erase (.chain b.base))) (F \ {b}) L where
  node_start := h.node_start
  zone_eq := h.zone_eq
  page_zone := h.page_zone
  rings := h.rings.listRemove hk ((h.mem_nodes _ hk _).mpr ⟨b, hb, rfl, rfl⟩)
  mem_nodes := by
    intro k hk' x
    have hnd : (nodes k).Nodup := (List.nodup_cons.mp (h.rings.ring k hk').2).2
    rcases eq_or_ne k b.order with rfl | hne
    · rw [Function.update_self, hnd.mem_erase_iff, h.mem_nodes _ hk]
      constructor
      · rintro ⟨hx, c, hc, hck, rfl⟩
        exact ⟨c, ⟨hc, fun e => hx (by rw [Set.mem_singleton_iff.mp e])⟩, hck, rfl⟩
      · rintro ⟨c, ⟨hc, hcb⟩, hck, rfl⟩
        exact ⟨fun e => hcb (eq_of_base_eq (ListNode.chain.inj e) hck), c, hc, hck, rfl⟩
    · rw [Function.update_of_ne hne, h.mem_nodes k hk']
      constructor
      · rintro ⟨c, hc, hck, rfl⟩
        exact ⟨c, ⟨hc, fun e => hne (by rw [← hck, Set.mem_singleton_iff.mp e])⟩, hck, rfl⟩
      · rintro ⟨c, ⟨hc, -⟩, hck, rfl⟩
        exact ⟨c, hc, hck, rfl⟩
  free_order := fun c hc => h.free_order c hc.1
  live_order := h.live_order

/-- The `order` field of a page that heads no block is free to change. -/
theorem setOrder (h : Holds s zone startPfn endPfn nodes F L) (hF : ∀ c ∈ F, c.base ≠ page)
    (hL : ∀ c ∈ L, c.base ≠ page) : Holds (s.setOrder page order) zone startPfn endPfn nodes F L where
  node_start := h.node_start
  zone_eq := h.zone_eq
  page_zone := fun pfn h₁ h₂ => by rw [setOrder_zone]; exact h.page_zone pfn h₁ h₂
  rings := h.rings
  mem_nodes := h.mem_nodes
  free_order := fun c hc => by rw [setOrder_pages_of_ne (hF c hc)]; exact h.free_order c hc
  live_order := fun c hc => by rw [setOrder_pages_of_ne (hL c hc)]; exact h.live_order c hc

/-- Setting the order of a page and inserting it into the list of that order frees a block. -/
theorem insert (h : Holds s zone startPfn endPfn nodes F L) (hF : ∀ c ∈ F, c.base ≠ b.base)
    (hL : ∀ c ∈ L, c.base ≠ b.base) (hk : b.order < maxOrder) :
    Holds ((s.setOrder b.base b.order).insertBefore (.freeArea zone b.order) (.chain b.base)) zone
      startPfn endPfn (Function.update nodes b.order (nodes b.order ++ [.chain b.base]))
      (insert b F) L := by
  have h' : Holds (s.setOrder b.base b.order) zone startPfn endPfn nodes F L := h.setOrder hF hL
  refine ⟨h'.node_start, h'.zone_eq, h'.page_zone,
    h'.rings.listInsertBefore hk (h'.chain_notMem hF), ?_, ?_, h'.live_order⟩
  · intro k hk' x
    rcases eq_or_ne k b.order with rfl | hne
    · rw [Function.update_self, List.mem_append, h.mem_nodes _ hk, List.mem_singleton]
      constructor
      · rintro (⟨c, hc, hck, rfl⟩ | rfl)
        · exact ⟨c, Set.mem_insert_of_mem _ hc, hck, rfl⟩
        · exact ⟨b, Set.mem_insert _ _, rfl, rfl⟩
      · rintro ⟨c, rfl | hc, hck, rfl⟩
        · exact Or.inr rfl
        · exact Or.inl ⟨c, hc, hck, rfl⟩
    · rw [Function.update_of_ne hne, h.mem_nodes k hk']
      constructor
      · rintro ⟨c, hc, hck, rfl⟩
        exact ⟨c, Set.mem_insert_of_mem _ hc, hck, rfl⟩
      · rintro ⟨c, rfl | hc, hck, rfl⟩
        · exact absurd hck.symm hne
        · exact ⟨c, hc, hck, rfl⟩
  · rintro c (rfl | hc)
    · simp
    · exact h'.free_order c hc

/-- Marking a page as live. -/
theorem setLive (h : Holds s zone startPfn endPfn nodes F L) (hF : ∀ c ∈ F, c.base ≠ b.base)
    (hL : ∀ c ∈ L, c.base ≠ b.base) :
    Holds (s.setOrder b.base (-(b.order : ℤ) - 1)) zone startPfn endPfn nodes F (Insert.insert b L) := by
  refine { h.setOrder hF hL with live_order := ?_ }
  rintro c (rfl | hc)
  · simp
  · exact (h.setOrder hF hL).live_order c hc

end Holds

/-! ### Free blocks -/

/-- The blocks on the free lists of a zone, as pairs of first frame and order: what following `next`
from the list heads reaches. -/
def freeBlocks (s : PageListData) (zone : ZoneType) : Set (ℕ × ℕ) :=
  {a | a.2 < maxOrder ∧
    ∃ n, s.links.next^[n] (.freeArea zone a.2) = .chain (pfnToPage s a.1)}

/-- A block as a pair of first frame and order. -/
def Block.toPair (b : Block) : ℕ × ℕ := (b.base, b.order)

theorem toPair_injective : Function.Injective toPair :=
  fun _ _ h => eq_of_base_eq (Prod.ext_iff.mp h).1 (Prod.ext_iff.mp h).2

theorem Holds.freeBlocks_eq (h : Holds s zone startPfn endPfn nodes F L)
    (hF : ∀ b ∈ F, b.order < maxOrder) : freeBlocks s zone = toPair '' F := by
  ext ⟨pfn, k⟩
  simp only [freeBlocks, Set.mem_ofPred_eq, Set.mem_image, pfnToPage_eq h.node_start]
  constructor
  · rintro ⟨hk, hn⟩
    rcases List.mem_cons.mp ((h.rings.ring k hk).mem_iff_exists_iterate.mpr hn) with hx | hx
    · cases hx
    · obtain ⟨b, hb, rfl, hbase⟩ := (h.mem_nodes k hk _).mp hx
      cases hbase
      exact ⟨b, hb, rfl⟩
  · rintro ⟨b, hb, hpair⟩
    cases hpair
    have hk := hF b hb
    exact ⟨hk, (h.rings.ring b.order hk).mem_iff_exists_iterate.mp
      (List.mem_cons_of_mem _ ((h.mem_nodes _ hk _).mpr ⟨b, hb, rfl, rfl⟩))⟩

end Auos
