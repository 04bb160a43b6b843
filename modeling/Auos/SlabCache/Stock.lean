import Auos.SlabCache.Listed

/-!
# Objects in use

Counters, bitmaps and pointers of a cache: the outstanding pointers are exactly the objects whose bits
are set. The lists play no part here.

## Main definitions

* `bitsInUse` — the objects of a block that are in use
* `Stock` — the representation of the outstanding pointers

## Main results

* `objectAddr_inj` — different objects have different addresses
* `Stock.pageSlab_eq` — a pointer leads back to its slab
* `Stock.grow`, `Stock.take`, `Stock.release`
-/

namespace Auos

variable {c : SlabCache} {blocks : Set ℕ} {out : List ℕ} {page page' n m ptr : ℕ} {s : Slab}

/-! ### Objects in use -/

/-- The objects of a block that are in use. -/
def bitsInUse (c : SlabCache) (page : ℕ) : Finset ℕ :=
  setBits wordBits (c.slabs (pageVirtualAddress page)).bitmap

theorem bitsInUse_write_self :
    bitsInUse { c with slabs := Function.update c.slabs (pageVirtualAddress page) s } page =
      setBits wordBits s.bitmap := by
  rw [bitsInUse]
  dsimp only
  rw [Function.update_self]

theorem slabs_write_of_ne (h : BlockOk page) (h' : BlockOk page') (hne : page' ≠ page) :
    Function.update c.slabs (pageVirtualAddress page) s (pageVirtualAddress page') =
      c.slabs (pageVirtualAddress page') :=
  Function.update_of_ne (mt (pageVirtualAddress_inj h' h).mp hne) _ _

theorem bitsInUse_write_of_ne (h : BlockOk page) (h' : BlockOk page') (hne : page' ≠ page) :
    bitsInUse { c with slabs := Function.update c.slabs (pageVirtualAddress page) s } page' =
      bitsInUse c page' := by
  rw [bitsInUse]
  dsimp only
  rw [slabs_write_of_ne h h' hne, bitsInUse]

/-- The offset of an object is inside the slab. -/
theorem SlabCache.Sound.object_lt (h : c.Sound) (hn : n < c.objectCount) :
    c.objectOffset + n * c.objectSize < slabSpace := by
  have hend := h.object_end_le hn
  have hsize := h.size_pos
  omega

/-- Objects have different addresses. -/
theorem objectAddr_inj (hc : c.Sound) (h : BlockOk page) (h' : BlockOk page')
    (hn : n < c.objectCount) (hm : m < c.objectCount)
    (heq : objectAddr c (pageVirtualAddress page) n = objectAddr c (pageVirtualAddress page') m) :
    page = page' ∧ n = m := by
  rw [objectAddr, objectAddr, Nat.add_assoc, Nat.add_assoc] at heq
  obtain rfl :=
    eq_of_pageVirtualAddress_add_eq h h' (hc.object_lt hn) (hc.object_lt hm) heq
  exact ⟨rfl, Nat.eq_of_mul_eq_mul_right hc.size_pos (by omega)⟩

/-! ### Outstanding pointers -/

/-- The outstanding pointers `out` are the objects in use of the blocks `blocks`. -/
structure Stock (c : SlabCache) (blocks : Set ℕ) (out : List ℕ) : Prop where
  sound : c.Sound
  block_ok : ∀ page ∈ blocks, BlockOk page
  slab_ok : ∀ page ∈ blocks,
    SlabOk c.objectCount c.bitmapWords (c.slabs (pageVirtualAddress page))
  page_slab : ∀ page ∈ blocks, ∀ i < 2, c.pageSlab (page + i) = pageVirtualAddress page
  nodup : out.Nodup
  mem_out : ∀ ptr, ptr ∈ out ↔ ∃ page ∈ blocks, ∃ n ∈ bitsInUse c page,
    ptr = objectAddr c (pageVirtualAddress page) n

namespace Stock

theorem bit_lt (h : Stock c blocks out) (hpage : page ∈ blocks) (hn : n ∈ bitsInUse c page) :
    n < c.objectCount := (h.slab_ok page hpage).bit_lt n hn

/-- The pointer of an object in use leads back to its slab. -/
theorem pageSlab_eq (h : Stock c blocks out) (hpage : page ∈ blocks) (hn : n ∈ bitsInUse c page) :
    c.pageSlab (pageOfAddress (objectAddr c (pageVirtualAddress page) n)) =
      pageVirtualAddress page := by
  have hlt := h.sound.object_lt (h.bit_lt hpage hn)
  rw [objectAddr, Nat.add_assoc, pageOfAddress_add (h.block_ok page hpage) hlt]
  have hlt' : c.objectOffset + n * c.objectSize < 8192 := hlt
  exact h.page_slab page hpage _ (by omega)

/-- The lists play no part. -/
theorem setLinks (h : Stock c blocks out) (L : Links SlabNode) :
    Stock { c with links := L } blocks out :=
  ⟨h.sound, h.block_ok, h.slab_ok, h.page_slab, h.nodup, h.mem_out⟩

/-- Growing by a block brings no object in use. -/
theorem grow (h : Stock c blocks out) (hpage : BlockOk page) (hnew : page ∉ blocks) :
    Stock { slabInit c (pageVirtualAddress page) with
        pageSlab := Function.update (Function.update c.pageSlab page (pageVirtualAddress page))
          (page + 1) (pageVirtualAddress page) } (insert page blocks) out where
  sound := h.sound
  block_ok := by
    rintro p (rfl | hp)
    · exact hpage
    · exact h.block_ok p hp
  slab_ok := by
    rintro p hp
    dsimp only [slabInit]
    rcases eq_or_ne p page with rfl | hne
    · rw [Function.update_self]
      exact slabOk_replicate _ _
    · have hp := hp.resolve_left hne
      rw [slabs_write_of_ne hpage (h.block_ok p hp) hne]
      exact h.slab_ok p hp
  page_slab := by
    rintro p hp i hi
    have hdvd := hpage.dvd
    dsimp only
    rcases eq_or_ne p page with rfl | hne
    · obtain rfl | rfl : i = 0 ∨ i = 1 := by omega
      · rw [Function.update_of_ne (by omega)]
        exact Function.update_self ..
      · rw [Function.update_self]
    · have hp := hp.resolve_left hne
      have hdvd' := (h.block_ok p hp).dvd
      rw [Function.update_of_ne (by omega), Function.update_of_ne (by omega)]
      exact h.page_slab p hp i hi
  nodup := h.nodup
  mem_out := by
    intro ptr
    have hempty : bitsInUse (slabInit c (pageVirtualAddress page)) page = ∅ := by
      rw [slabInit, bitsInUse_write_self]
      exact setBits_replicate_zero (by decide) _
    have hsame : ∀ p ∈ blocks, bitsInUse (slabInit c (pageVirtualAddress page)) p = bitsInUse c p :=
      fun p hp => bitsInUse_write_of_ne hpage (h.block_ok p hp) (fun e => hnew (e ▸ hp))
    rw [h.mem_out]
    constructor
    · rintro ⟨p, hp, n, hn, rfl⟩
      exact ⟨p, Set.mem_insert_of_mem _ hp, n, (hsame p hp).symm ▸ hn, rfl⟩
    · rintro ⟨p, rfl | hp, n, hn, rfl⟩
      · exact absurd (hempty ▸ hn : n ∈ (∅ : Finset ℕ)) (Finset.notMem_empty n)
      · exact ⟨p, hp, n, hsame p hp ▸ hn, rfl⟩

/-- A write that keeps every slab sound, on a stock whose pointers follow. -/
theorem write (h : Stock c blocks out) (hpage : page ∈ blocks)
    (hs : SlabOk c.objectCount c.bitmapWords s) {out' : List ℕ} (hnodup : out'.Nodup)
    (hmem : ∀ ptr, ptr ∈ out' ↔
      (∃ n ∈ setBits wordBits s.bitmap, ptr = objectAddr c (pageVirtualAddress page) n) ∨
      ∃ page' ∈ blocks, page' ≠ page ∧ ∃ n ∈ bitsInUse c page',
        ptr = objectAddr c (pageVirtualAddress page') n) :
    Stock { c with slabs := Function.update c.slabs (pageVirtualAddress page) s } blocks out' where
  sound := h.sound
  block_ok := h.block_ok
  slab_ok := by
    intro p hp
    dsimp only
    rcases eq_or_ne p page with rfl | hne
    · rw [Function.update_self]
      exact hs
    · rw [slabs_write_of_ne (h.block_ok page hpage) (h.block_ok p hp) hne]
      exact h.slab_ok p hp
  page_slab := h.page_slab
  nodup := hnodup
  mem_out := by
    intro ptr
    rw [hmem]
    constructor
    · rintro (⟨n, hn, rfl⟩ | ⟨p, hp, hne, n, hn, rfl⟩)
      · exact ⟨page, hpage, n, by rw [bitsInUse_write_self]; exact hn, rfl⟩
      · refine ⟨p, hp, n, ?_, rfl⟩
        rw [bitsInUse_write_of_ne (h.block_ok page hpage) (h.block_ok p hp) hne]
        exact hn
    · rintro ⟨p, hp, n, hn, rfl⟩
      rcases eq_or_ne p page with rfl | hne
      · rw [bitsInUse_write_self] at hn
        exact Or.inl ⟨n, hn, rfl⟩
      · rw [bitsInUse_write_of_ne (h.block_ok page hpage) (h.block_ok p hp) hne] at hn
        exact Or.inr ⟨p, hp, hne, n, hn, rfl⟩

/-- Setting the bit of an object hands out its pointer. -/
theorem take (h : Stock c blocks out) (hpage : page ∈ blocks)
    (hs : SlabOk c.objectCount c.bitmapWords s) (hn : n < c.objectCount)
    (hnew : n ∉ bitsInUse c page) (hbits : setBits wordBits s.bitmap = insert n (bitsInUse c page)) :
    Stock { c with slabs := Function.update c.slabs (pageVirtualAddress page) s } blocks
      (objectAddr c (pageVirtualAddress page) n :: out) := by
  refine h.write hpage hs (List.nodup_cons.mpr ⟨?_, h.nodup⟩) ?_
  · intro hmem
    obtain ⟨p, hp, k, hk, heq⟩ := (h.mem_out _).mp hmem
    obtain ⟨rfl, rfl⟩ := objectAddr_inj h.sound (h.block_ok page hpage) (h.block_ok p hp) hn
      (h.bit_lt hp hk) heq
    exact hnew hk
  · intro ptr
    rw [List.mem_cons, h.mem_out, hbits]
    constructor
    · rintro (rfl | ⟨p, hp, k, hk, rfl⟩)
      · exact Or.inl ⟨n, Finset.mem_insert_self n _, rfl⟩
      · rcases eq_or_ne p page with rfl | hne
        · exact Or.inl ⟨k, Finset.mem_insert_of_mem hk, rfl⟩
        · exact Or.inr ⟨p, hp, hne, k, hk, rfl⟩
    · rintro (⟨k, hk, rfl⟩ | ⟨p, hp, -, k, hk, rfl⟩)
      · rcases Finset.mem_insert.mp hk with rfl | hk
        · exact Or.inl rfl
        · exact Or.inr ⟨page, hpage, k, hk, rfl⟩
      · exact Or.inr ⟨p, hp, k, hk, rfl⟩

/-- Clearing the bit of an object takes its pointer back. -/
theorem release (h : Stock c blocks out) (hpage : page ∈ blocks)
    (hs : SlabOk c.objectCount c.bitmapWords s) (hn : n ∈ bitsInUse c page)
    (hbits : setBits wordBits s.bitmap = (bitsInUse c page).erase n) :
    Stock { c with slabs := Function.update c.slabs (pageVirtualAddress page) s } blocks
      (out.erase (objectAddr c (pageVirtualAddress page) n)) := by
  have hblock := h.block_ok page hpage
  refine h.write hpage hs (h.nodup.erase _) ?_
  intro ptr
  rw [h.nodup.mem_erase_iff, h.mem_out, hbits]
  constructor
  · rintro ⟨hne, p, hp, k, hk, rfl⟩
    rcases eq_or_ne p page with rfl | hpne
    · exact Or.inl ⟨k, Finset.mem_erase.mpr ⟨fun e => hne (by rw [e]), hk⟩, rfl⟩
    · exact Or.inr ⟨p, hp, hpne, k, hk, rfl⟩
  · rintro (⟨k, hk, rfl⟩ | ⟨p, hp, hpne, k, hk, rfl⟩)
    · obtain ⟨hkne, hk⟩ := Finset.mem_erase.mp hk
      refine ⟨fun heq => hkne ?_, page, hpage, k, hk, rfl⟩
      exact (objectAddr_inj h.sound hblock hblock (h.bit_lt hpage hk) (h.bit_lt hpage hn) heq).2
    · refine ⟨fun heq => hpne ?_, p, hp, k, hk, rfl⟩
      exact (objectAddr_inj h.sound (h.block_ok p hp) hblock (h.bit_lt hp hk) (h.bit_lt hpage hn)
        heq).1

end Stock

end Auos
