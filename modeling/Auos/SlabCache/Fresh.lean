import Auos.SlabCache.Runs

/-!
# The first object of a new cache

`slab_object_count` gives zero where not one object fits, and no caller looks at that. The bitmap then
shows a clear bit for an object that does not exist, and `slab_alloc` returns its address, the end of
the slab. With an alignment from `2 ^ 29` on the size of an object in bits wraps instead, so that the
count is large and the objects begin far outside of the slab.

## Main definitions

* `FitsSlab` — an object lies in its slab and meets neither the header nor the bitmap

## Main results

* `slabCacheAlloc_create` — what `slab_cache_alloc` returns on a new cache
* `slabCacheAlloc_fits_iff` — when the object fits
-/

namespace Auos

variable {size align page slab free k p : ℕ} {c mem : SlabCache} {B : List ℕ}

/-- The `size` bytes from `p` on lie in the two pages of the slab, behind its header and as many words
as its bitmap needs. -/
def FitsSlab (c : SlabCache) (slab size p : ℕ) : Prop :=
  slab + sizeofSlab + sizeofBitmap * ((c.objectCount + 31) / wordBits) ≤ p ∧
    p + size ≤ slab + slabSpace

/-- The search stops at once if the first word of the bitmap is clear. -/
theorem slabAlloc_of_clear (h : c.slabs slab = ⟨free, 0 :: B⟩) :
    ∃ s', slabAlloc c slab = some ({ c with slabs := Function.update c.slabs slab s' },
      wadd slab c.objectOffset) := by
  have hword : slabAllocWord (0 :: B) 0 = some (0, 0) := if_neg (by decide)
  have hbit : slabAllocBit wordBits 0 0 = 0 := by decide
  have hfirst : wmul (0 * sizeofBitmap * charBit + 0) c.objectSize = 0 := by
    rw [Nat.zero_mul, Nat.zero_mul, wmul, Nat.zero_mul, wrap, Nat.zero_mod]
  rw [slabAlloc, h]
  dsimp only
  rw [hword, Option.bind_eq_bind, Option.bind_some]
  dsimp only
  rw [hbit, hfirst, wadd_zero (wadd_lt _ _)]
  exact ⟨_, rfl⟩

/-- A slab whose bitmap has no words at all. -/
theorem slabAlloc_of_nil (h : c.slabs slab = ⟨free, []⟩) : slabAlloc c slab = none := by
  rw [slabAlloc, h]
  rfl

/-- The list of a new cache holds one slab after it has grown. -/
theorem next_slabCacheGrow_create (mem : SlabCache) (size align page : ℕ) :
    (slabCacheGrow (slabCacheCreate mem size align) (some page)).links.next .partialHead =
      .link (pageVirtualAddress page) := by
  have hne : SlabNode.partialHead ≠ .link (pageVirtualAddress page) := by simp
  have hprev : (slabCacheCreate mem size align).links.prev .partialHead = .partialHead := by
    simp [slabCacheCreate, listInitHead]
  show (listInsertBefore (slabCacheCreate mem size align).links .partialHead
    (.link (pageVirtualAddress page))).next .partialHead = _
  rw [listInsertBefore, hprev]
  dsimp only [listInsertBetween]
  rw [Function.update_of_ne hne, Function.update_self]

/-- **On a new cache `slab_cache_alloc` takes the first object of the block it gets**, if the bitmap
has a word. -/
theorem slabCacheAlloc_create (mem : SlabCache) (size align page : ℕ) :
    (∃ c', slabCacheAlloc (slabCacheCreate mem size align) (some page) = some (c',
        some (wadd (pageVirtualAddress page) (slabCacheCreate mem size align).objectOffset)) ∧
      c'.objectCount = (slabCacheCreate mem size align).objectCount) ∨
    (slabCacheCreate mem size align).bitmapWords = 0 ∧
      slabCacheAlloc (slabCacheCreate mem size align) (some page) = none := by
  have hnext := next_slabCacheGrow_create mem size align page
  generalize hc : slabCacheCreate mem size align = c at hnext ⊢
  have hempty : listEmpty c.links .partialHead = true := by
    rw [← hc]
    simp [slabCacheCreate, listInitHead, listEmpty]
  have hgrown : listEmpty (slabCacheGrow c (some page)).links .partialHead = false := by
    rw [listEmpty, hnext]
    exact decide_eq_false (by simp)
  have hslab : (slabCacheGrow c (some page)).slabs (pageVirtualAddress page) =
      ⟨c.objectCount, List.replicate c.bitmapWords 0⟩ := by
    dsimp only [slabCacheGrow, slabInit]
    rw [Function.update_self, SlabCache.bitmapWords]
  have hoffset : (slabCacheGrow c (some page)).objectOffset = c.objectOffset := rfl
  have hcount : (slabCacheGrow c (some page)).objectCount = c.objectCount := rfl
  rw [slabCacheAlloc]
  dsimp only
  rw [if_pos hempty, if_neg (by rw [hgrown]; exact Bool.false_ne_true), hnext, slabOfNode,
    Option.bind_eq_bind, Option.bind_some, ← hoffset, ← hcount]
  generalize slabCacheGrow c (some page) = grown at hslab ⊢
  generalize pageVirtualAddress page = slab at hslab ⊢
  generalize c.bitmapWords = words at hslab ⊢
  cases words with
  | zero =>
    rw [slabAlloc_of_nil hslab]
    exact Or.inr ⟨rfl, rfl⟩
  | succ words =>
    rw [List.replicate_succ] at hslab
    obtain ⟨s', hret⟩ := slabAlloc_of_clear hslab
    rw [hret, Option.bind_eq_bind, Option.bind_some]
    refine Or.inl ?_
    by_cases hfull : (Function.update grown.slabs slab s' slab).free = 0
    · exact ⟨_, if_pos hfull, rfl⟩
    · exact ⟨_, if_neg hfull, rfl⟩

/-! ### When the object fits -/

theorem roundedSize_lt (hsize : 1 ≤ size) : roundedSize size align < size + align := by
  have hle : align * ((size + align - 1) / align) ≤ size + align - 1 := Nat.mul_div_le _ _
  rw [roundedSize]
  omega

/-- The size of an object in bits wraps: the count is large, and the objects begin below the slab. -/
theorem objectOffset_of_wrap (hk : 29 ≤ k) (hk' : k < 32) (hle : size ≤ 2 ^ k) :
    (slabCacheCreate mem size (2 ^ k)).objectOffset = 2 ^ 32 + slabSpace - 2 ^ k := by
  have hobj : slabObjectSize size (2 ^ k) = 2 ^ k := if_pos hle
  rw [slabCacheCreate]
  dsimp only
  rw [hobj]
  obtain rfl | rfl | rfl : k = 29 ∨ k = 30 ∨ k = 31 := by omega
  · decide
  · decide
  · decide

/-- Where not one object fits, the objects begin at the end of the slab. -/
theorem objectOffset_of_count_eq_zero (h : (slabCacheCreate mem size align).objectCount = 0) :
    (slabCacheCreate mem size align).objectOffset = slabSpace := by
  have hcount : slabObjectCount (slabObjectSize size align) slabSpace = 0 := h
  rw [slabCacheCreate, hcount, wmul, Nat.mul_zero, wrap, Nat.zero_mod]
  exact wsub_of_le (Nat.zero_le _) (by decide)

section Fits

variable (hpage : BlockOk page)
include hpage

/-- An object that fits is counted. -/
theorem one_le_of_fitsSlab (hsize : 1 ≤ size)
    (h : FitsSlab (slabCacheCreate mem size align) (pageVirtualAddress page) size
      (wadd (pageVirtualAddress page) (slabCacheCreate mem size align).objectOffset)) :
    1 ≤ (slabCacheCreate mem size align).objectCount := by
  by_contra hzero
  have hoffset := objectOffset_of_count_eq_zero (Nat.lt_one_iff.mp (not_le.mp hzero))
  have hend := hpage.pageVirtualAddress_add_le
  have hspace : slabSpace = 8192 := rfl
  obtain ⟨hlow, hhigh⟩ := h
  rw [hoffset, wadd, wrap] at hlow hhigh
  omega

/-- Only an object of at most `8172` bytes, the alignment included, fits. -/
theorem roundedSize_le_of_fitsSlab (hsize : 1 ≤ size) (hk : k < 32)
    (h : FitsSlab (slabCacheCreate mem size (2 ^ k)) (pageVirtualAddress page) size
      (wadd (pageVirtualAddress page) (slabCacheCreate mem size (2 ^ k)).objectOffset)) :
    roundedSize size (2 ^ k) ≤ 8172 := by
  have hone := one_le_of_fitsSlab hpage hsize h
  have hend := hpage.pageVirtualAddress_add_le
  have hspace : slabSpace = 8192 := rfl
  have hcount : 1 ≤ slabObjectCount (slabObjectSize size (2 ^ k)) slabSpace := hone
  have hsmall : size ≤ 8172 := by
    obtain ⟨hlow, hhigh⟩ := h
    have hbits : 1 ≤ ((slabCacheCreate mem size (2 ^ k)).objectCount + 31) / 32 := by omega
    have hlow' : pageVirtualAddress page + 16 +
      4 * (((slabCacheCreate mem size (2 ^ k)).objectCount + 31) / 32) ≤ _ := hlow
    omega
  have hlt : roundedSize size (2 ^ k) < size + 2 ^ k := roundedSize_lt hsize
  have hpos := Nat.two_pow_pos k
  rcases Nat.lt_or_ge k 29 with hk29 | hk29
  · have hpow : 2 ^ k ≤ 2 ^ 28 := Nat.pow_le_pow_right (by decide) (Nat.le_of_lt_succ hk29)
    have hobj : slabObjectSize size (2 ^ k) = _ := slabObjectSize_eq hsize hpos (by omega)
    rw [← hobj]
    exact le_of_slabObjectCount_pos (by omega) hcount
  · have hpow : 2 ^ 29 ≤ 2 ^ k := Nat.pow_le_pow_right (by decide) hk29
    have hpow' : 2 ^ k ≤ 2 ^ 31 := Nat.pow_le_pow_right (by decide) (Nat.le_of_lt_succ hk)
    obtain ⟨hlow, hhigh⟩ := h
    rw [objectOffset_of_wrap hk29 hk (by omega), wadd, wrap] at hlow hhigh
    omega

/-- The first object of a sound cache fits. -/
theorem fitsSlab_of_roundedSize_le (hsize : 1 ≤ size) (halign : 0 < align)
    (hround : roundedSize size align ≤ 8172) :
    FitsSlab (slabCacheCreate mem size align) (pageVirtualAddress page) size
      (wadd (pageVirtualAddress page) (slabCacheCreate mem size align).objectOffset) := by
  have hsound : (slabCacheCreate mem size align).Sound := sound_slabCacheCreate hsize halign hround
  have hobj : (slabCacheCreate mem size align).objectSize = roundedSize size align :=
    slabObjectSize_eq hsize halign (by omega)
  have hle : size ≤ roundedSize size align := le_roundedSize halign
  have hend := hpage.pageVirtualAddress_add_le
  have hfirst := hsound.object_end_le hsound.count_pos
  rw [Nat.zero_mul, hobj] at hfirst
  have hbitmap := hsound.bitmap_fits
  rw [FitsSlab, wadd_of_lt (by omega)]
  constructor
  · show _ + 16 + 4 * ((_ + 31) / 32) ≤ _
    omega
  · omega

/-- **The object that `slab_cache_alloc` returns on a new cache fits in its slab exactly if the size,
rounded up to the alignment, is at most `8172`**, which is what header and one word of the bitmap leave
of two pages. -/
theorem slabCacheAlloc_fits_iff (mem : SlabCache) (hsize : 1 ≤ size) (hk : k < 32) :
    (∃ c' ret, slabCacheAlloc (slabCacheCreate mem size (2 ^ k)) (some page) = some (c', ret) ∧
        ∀ p ∈ ret, FitsSlab c' (pageVirtualAddress page) size p) ↔
      roundedSize size (2 ^ k) ≤ 8172 := by
  have hcreate := slabCacheAlloc_create mem size (2 ^ k) page
  constructor
  · rintro ⟨c', ret, hret, hfits⟩
    rcases hcreate with ⟨c'', hret', hcount⟩ | ⟨-, hnone⟩
    · rw [hret'] at hret
      obtain ⟨rfl, rfl⟩ := Prod.mk.inj (Option.some.inj hret)
      have hfirst := hfits _ rfl
      rw [FitsSlab, hcount] at hfirst
      exact roundedSize_le_of_fitsSlab hpage hsize hk hfirst
    · rw [hnone] at hret
      cases hret
  · intro hround
    have hsound : (slabCacheCreate mem size (2 ^ k)).Sound :=
      sound_slabCacheCreate hsize (Nat.two_pow_pos k) hround
    rcases hcreate with ⟨c', hret, hcount⟩ | ⟨hwords, -⟩
    · refine ⟨c', _, hret, fun p hp => ?_⟩
      obtain rfl := Option.some.inj hp
      rw [FitsSlab, hcount]
      exact fitsSlab_of_roundedSize_le hpage hsize (Nat.two_pow_pos k) hround
    · have hbits := hsound.count_le_bits
      rw [hwords] at hbits
      exact absurd hsound.count_pos (not_lt.mpr hbits)

end Fits

/-- Objects of `64` bytes fit. -/
theorem slabCacheAlloc_fits_blankCache :
    (∃ c' ret, slabCacheAlloc (slabCacheCreate blankCache 64 (2 ^ 4)) (some 0) = some (c', ret) ∧
        ∀ p ∈ ret, FitsSlab c' (pageVirtualAddress 0) 64 p) ↔ roundedSize 64 (2 ^ 4) ≤ 8172 :=
  slabCacheAlloc_fits_iff ⟨by decide, by decide⟩ blankCache (by decide) (by decide)

/-- **An object as large as the slab is handed out behind it**, which is
`[0xC0000000, 0xC0002000)`. -/
theorem slabCacheAlloc_leaves_slab :
    ∃ c', slabCacheAlloc (slabCacheCreate blankCache 8192 (2 ^ 2)) (some 0) =
        some (c', some 0xC0002000) ∧
      ¬ FitsSlab c' (pageVirtualAddress 0) 8192 0xC0002000 := by
  have hslab : pageVirtualAddress 0 = 0xC0000000 := by decide
  have hwords : (slabCacheCreate blankCache 8192 (2 ^ 2)).bitmapWords ≠ 0 := by decide
  have hoffset : (slabCacheCreate blankCache 8192 (2 ^ 2)).objectOffset = 8192 := by decide
  have hptr : wadd 0xC0000000 8192 = 0xC0002000 := by decide
  rcases slabCacheAlloc_create blankCache 8192 (2 ^ 2) 0 with ⟨c', hret, -⟩ | ⟨hzero, -⟩
  · rw [hslab, hoffset, hptr] at hret
    refine ⟨c', hret, fun hfits => ?_⟩
    have hhigh : 0xC0002000 + 8192 ≤ 0xC0000000 + 8192 := hslab ▸ hfits.2
    exact absurd hhigh (by decide)
  · exact absurd hzero hwords

end Auos
