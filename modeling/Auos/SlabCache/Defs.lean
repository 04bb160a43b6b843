import Auos.Kernel
import Auos.List

/-!
# The slab cache

The kernel's `slab_cache.c` for one cache. A slab is two pages that begin with a `struct slab`; it is
named by its address, and the `slab` fields of the pages are one function from page numbers. The
bitmap is the list of words between the header and the first object, which is what `slab_init` clears;
reading or writing a word past its end is `none`. Node `0` begins at frame `0`, so a page and its
frame have the same number.

What `alloc_pages` returns when the cache asks for pages is an argument of `slabCacheAlloc`.
-/

namespace Auos

/-! ### Geometry -/

/-- `SLAB_ORDER`. -/
abbrev slabOrder : ℕ := 1

/-- The size of a slab, `PAGE_SIZE << SLAB_ORDER`. -/
abbrev slabSpace : ℕ := pageSize <<< slabOrder

/-- `sizeof(struct slab)`. -/
abbrev sizeofSlab : ℕ := 16

/-- `sizeof(bitmap_t)`. -/
abbrev sizeofBitmap : ℕ := 4

/-- `CHAR_BIT`. -/
abbrev charBit : ℕ := 8

/-- The bits of a `bitmap_t`. -/
abbrev wordBits : ℕ := 32

/-- `slab_object_size`. -/
def slabObjectSize (size alignment : ℕ) : ℕ :=
  if alignment ≥ size then alignment
  else wmul alignment (wsub (wadd size alignment) 1 / alignment)

/-- `slab_object_count`. -/
def slabObjectCount (size space : ℕ) : ℕ :=
  wadd (wmul charBit (wsub (wsub space sizeofSlab) sizeofBitmap)) 1 / wadd (wmul charBit size) 1

/-! ### State -/

/-- The list nodes of a cache: its two list heads and the `link` fields of the slabs. -/
inductive SlabNode
  | partialHead
  | fullHead
  | link (slab : ℕ)
  deriving DecidableEq

/-- `struct slab`, without its link and the pointer back to the cache. -/
structure Slab where
  /-- `free`. -/
  free : ℕ
  /-- `bitmap`. -/
  bitmap : List ℕ

/-- `struct slab_cache`, with its slabs and the `slab` fields of all pages. -/
structure SlabCache where
  /-- `object_size`. -/
  objectSize : ℕ
  /-- `object_count`. -/
  objectCount : ℕ
  /-- `object_offset`. -/
  objectOffset : ℕ
  /-- The pointers of the list nodes. -/
  links : Links SlabNode
  /-- The slabs by address. -/
  slabs : ℕ → Slab
  /-- `page->slab`. -/
  pageSlab : ℕ → ℕ

/-- `slab_init`. -/
def slabInit (cache : SlabCache) (slab : ℕ) : SlabCache :=
  let words := (cache.objectOffset - sizeofSlab) / sizeofBitmap
  { cache with
    slabs := Function.update cache.slabs slab ⟨cache.objectCount, List.replicate words 0⟩ }

/-- `slab_cache_create`, which is `slab_cache_init`, in the memory of `mem`. -/
def slabCacheCreate (mem : SlabCache) (size align : ℕ) : SlabCache :=
  let objectSize := slabObjectSize size align
  let objectCount := slabObjectCount objectSize slabSpace
  let objectOffset := wsub slabSpace (wmul objectSize objectCount)
  let links := listInitHead (listInitHead mem.links .partialHead) .fullHead
  { mem with objectSize, objectCount, objectOffset, links }

/-- `page_virtual_address`. -/
def pageVirtualAddress (page : ℕ) : ℕ := virtAddr (wrap (page <<< pageShift))

/-- The page of a virtual address, `pfn_to_page(phys_addr(ptr) >> PAGE_SHIFT)`. -/
def pageOfAddress (ptr : ℕ) : ℕ := physAddr ptr >>> pageShift

/-! ### Growing -/

/-- `slab_cache_grow`; `pages` is what `alloc_pages` returns. -/
def slabCacheGrow (cache : SlabCache) (pages : Option ℕ) : SlabCache :=
  match pages with
  | none => cache
  | some page =>
    let slab := pageVirtualAddress page
    let cache := slabInit cache slab
    { cache with
      links := listInsertBefore cache.links .partialHead (.link slab)
      pageSlab := Function.update (Function.update cache.pageSlab page slab) (page + 1) slab }

/-! ### Objects -/

/-- The first loop of `slab_alloc`: the index of the first word that is not full, and the word. -/
def slabAllocWord : List ℕ → ℕ → Option (ℕ × ℕ)
  | [], _ => none
  | word :: bitmap, i => if wnot word = 0 then slabAllocWord bitmap (i + 1) else some (i, word)

/-- The second loop of `slab_alloc`: the index of the first clear bit. The first argument bounds the
number of iterations. -/
def slabAllocBit : ℕ → ℕ → ℕ → ℕ
  | 0, _, j => j
  | n + 1, bmap, j => if bmap % 2 ≠ 0 then slabAllocBit n (bmap >>> 1) (j + 1) else j

/-- `slab_alloc`, with the pointer it returns. -/
def slabAlloc (cache : SlabCache) (slab : ℕ) : Option (SlabCache × ℕ) := do
  let s := cache.slabs slab
  let (i, bmap) ← slabAllocWord s.bitmap 0
  let j := slabAllocBit wordBits bmap 0
  let off := i * sizeofBitmap * charBit + j
  let s : Slab := ⟨wsub s.free 1, s.bitmap.set i (bmap ||| 1 <<< j)⟩
  let ptr := wadd (wadd slab cache.objectOffset) (wmul off cache.objectSize)
  some ({ cache with slabs := Function.update cache.slabs slab s }, ptr)

/-- `slab_free`. -/
def slabFree (cache : SlabCache) (slab ptr : ℕ) : Option SlabCache := do
  let s := cache.slabs slab
  let bit := wsub ptr (wadd slab cache.objectOffset) / cache.objectSize
  let word := bit / wordBits
  let shift := bit % wordBits
  let bmap ← s.bitmap[word]?
  let s : Slab := ⟨wadd s.free 1, s.bitmap.set word (bmap &&& wnot (1 <<< shift))⟩
  some { cache with slabs := Function.update cache.slabs slab s }

/-- `CONTAINER_OF(node, struct slab, link)`: no slab contains a list head. -/
def slabOfNode : SlabNode → Option ℕ
  | .link slab => some slab
  | _ => none

/-- `slab_cache_alloc`: the cache afterwards and the pointer, if any. `pages` is what `alloc_pages`
returns if the cache has to grow. -/
def slabCacheAlloc (cache : SlabCache) (pages : Option ℕ) : Option (SlabCache × Option ℕ) :=
  let cache := if listEmpty cache.links .partialHead then slabCacheGrow cache pages else cache
  if listEmpty cache.links .partialHead then some (cache, none)
  else do
    let slab ← slabOfNode (cache.links.next .partialHead)
    let (cache, ptr) ← slabAlloc cache slab
    if (cache.slabs slab).free = 0 then
      let links := listRemove cache.links (.link slab)
      some ({ cache with links := listInsertAfter links .fullHead (.link slab) }, some ptr)
    else some (cache, some ptr)

/-- `slab_cache_free`. -/
def slabCacheFree (cache : SlabCache) (ptr : ℕ) : Option SlabCache := do
  let slab := cache.pageSlab (pageOfAddress ptr)
  let full := (cache.slabs slab).free = 0
  let cache ← slabFree cache slab ptr
  if full then
    let links := listRemove cache.links (.link slab)
    some { cache with links := listInsertBefore links .partialHead (.link slab) }
  else some cache

end Auos
