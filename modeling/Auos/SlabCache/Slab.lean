import Auos.SlabCache.Defs
import Auos.Lib.Bitmap

/-!
# A single slab

The geometry of a slab, and what `slab_alloc` and `slab_free` do to it. The bitmap search has no bound
of its own. It stops because `free` counts the clear bits below the number of objects, and it stops
below that number because it finds the first clear bit of all (`slabAllocSearch_spec`).

## Main definitions

* `Geometry` — the objects fill the end of the slab and the bitmap fits before them
* `GeometryExact` — the operations that compute the geometry do not wrap
* `SlabOk` — counter and bitmap agree
* `objectAddr` — the address of an object

## Main results

* `sound_slabCacheCreate`
* `slabGeometry_fits` — the geometry for every space, not only for two pages
* `slabAlloc_spec`, `slabFree_spec`
-/

namespace Auos

variable {size align space count words slab i j n : ℕ} {c mem : SlabCache} {s : Slab} {B : List ℕ}

/-! ### Geometry -/

/-- The size rounded up to a multiple of the alignment. -/
def roundedSize (size align : ℕ) : ℕ := align * ((size + align - 1) / align)

theorem le_roundedSize (halign : 0 < align) : size ≤ roundedSize size align := by
  have hdiv := Nat.div_add_mod (size + align - 1) align
  have hmod := Nat.mod_lt (size + align - 1) halign
  rw [roundedSize]
  omega

theorem align_le_roundedSize (hsize : 1 ≤ size) (halign : 0 < align) :
    align ≤ roundedSize size align :=
  Nat.le_mul_of_pos_right _ (Nat.div_pos (by omega) halign)

/-- `slab_object_size` rounds up when nothing wraps. -/
theorem slabObjectSize_eq (hsize : 1 ≤ size) (halign : 0 < align)
    (hlt : roundedSize size align < 2 ^ 31) : slabObjectSize size align = roundedSize size align := by
  have h₁ : size ≤ _ := le_roundedSize halign
  have h₂ := align_le_roundedSize hsize halign
  rw [slabObjectSize]
  split
  · have hone : (size + align - 1) / align = 1 := by
      rw [Nat.div_eq_iff halign]
      omega
    rw [roundedSize, hone, Nat.mul_one]
  · rw [wadd_of_lt (by omega), wsub_of_le (by omega) (by omega)]
    exact wmul_of_lt (show roundedSize size align < 2 ^ 32 by omega)

/-- `slab_object_count` when nothing wraps. -/
theorem slabObjectCount_eq (hspace : 20 ≤ space) (hwrap : 8 * space + 8 * size < 2 ^ 32) :
    slabObjectCount size space = (8 * (space - 20) + 1) / (8 * size + 1) := by
  have hsub : wsub (wsub space 16) 4 = space - 20 := by
    rw [wsub_of_le (show 16 ≤ space by omega) (by omega), wsub_of_le (by omega) (by omega),
      Nat.sub_sub]
  rw [slabObjectCount, hsub, wmul_of_lt (show 8 * _ < _ by omega),
    wmul_of_lt (show 8 * _ < _ by omega), wadd_of_lt (show 8 * _ + _ < _ by omega),
    wadd_of_lt (show 8 * _ + _ < _ by omega)]

/-- There is room for an object, and the header and a bitmap of whole words fit before the objects.
The count charges one bit for each object and one word for the rounding. -/
theorem slabObjectCount_fits (hspace : size + 20 ≤ space) (hwrap : 8 * space + 8 * size < 2 ^ 32) :
    1 ≤ slabObjectCount size space ∧
      16 + 4 * ((slabObjectCount size space + 31) / 32) + size * slabObjectCount size space ≤
        space := by
  rw [slabObjectCount_eq (by omega) hwrap]
  have hle : (8 * size + 1) * ((8 * (space - 20) + 1) / (8 * size + 1)) ≤ 8 * (space - 20) + 1 :=
    Nat.mul_div_le _ _
  refine ⟨Nat.div_pos (by omega) (by omega), ?_⟩
  generalize (8 * (space - 20) + 1) / (8 * size + 1) = q at hle ⊢
  rw [Nat.add_mul, Nat.mul_assoc, Nat.one_mul] at hle
  generalize size * q = p at hle ⊢
  omega

/-- `count` objects of `size` bytes fill the end of a slab from `offset` on, and the header and the
bitmap fit before them. -/
structure Geometry (size count offset : ℕ) : Prop where
  size_pos : 0 < size
  count_pos : 0 < count
  space_eq : offset + size * count = slabSpace
  bitmap_fits : 16 + 4 * ((count + 31) / 32) ≤ offset

/-- The words of the bitmap of a slab, up to the first object. -/
def SlabCache.bitmapWords (c : SlabCache) : ℕ := (c.objectOffset - sizeofSlab) / sizeofBitmap

/-- A cache whose geometry is sound. -/
abbrev SlabCache.Sound (c : SlabCache) : Prop := Geometry c.objectSize c.objectCount c.objectOffset

/-- The geometry of a new cache is sound when the objects have some size and are no larger than what
a slab has room for. -/
theorem sound_of_slabObjectSize_le (hpos : 0 < slabObjectSize size align)
    (hle : slabObjectSize size align ≤ 8172) : (slabCacheCreate mem size align).Sound := by
  have hspace : slabSpace = 8192 := rfl
  obtain ⟨hcount, hfits⟩ := slabObjectCount_fits
    (show slabObjectSize size align + 20 ≤ slabSpace by omega) (by omega)
  have hoffset : (slabCacheCreate mem size align).objectOffset =
      slabSpace - slabObjectSize size align * slabObjectCount (slabObjectSize size align) slabSpace := by
    rw [slabCacheCreate, wmul_of_lt (by omega)]
    exact wsub_of_le (by omega) (by omega)
  constructor
  · exact hpos
  · exact hcount
  · rw [hoffset, slabCacheCreate]
    dsimp only
    omega
  · rw [hoffset, slabCacheCreate]
    dsimp only
    omega

/-- **The geometry of a new cache is sound** when the rounded size is at most `8172`. -/
theorem sound_slabCacheCreate (hsize : 1 ≤ size) (halign : 0 < align)
    (hround : roundedSize size align ≤ 8172) : (slabCacheCreate mem size align).Sound := by
  have hobj := slabObjectSize_eq hsize halign (by omega)
  exact sound_of_slabObjectSize_le (hobj ▸ hsize.trans (le_roundedSize halign)) (hobj ▸ hround)

/-- Rounding up to a divisor of `n` does not go past `n`. -/
theorem roundedSize_le_of_dvd (hle : size ≤ n) (hdvd : align ∣ n) (hn : 0 < n) :
    roundedSize size align ≤ n := by
  obtain ⟨m, rfl⟩ := hdvd
  have halign : 0 < align := Nat.pos_of_mul_pos_right hn
  have hlt : (size + align - 1) / align < m + 1 := by
    rw [Nat.div_lt_iff_lt_mul halign, Nat.add_mul, Nat.one_mul, Nat.mul_comm m]
    omega
  exact Nat.mul_le_mul_left align (Nat.le_of_lt_succ hlt)

/-- The operations of `slab_object_count` and of `slab_cache_init` do not wrap. -/
structure GeometryExact (size space : ℕ) : Prop where
  bytes_eq : wsub (wsub space sizeofSlab) sizeofBitmap = space - 20
  bits_eq : wadd (wmul charBit (space - 20)) 1 = 8 * (space - 20) + 1
  charge_eq : wadd (wmul charBit size) 1 = 8 * size + 1
  objects_eq : wmul size (slabObjectCount size space) = size * slabObjectCount size space
  offset_eq : wsub space (size * slabObjectCount size space) =
    space - size * slabObjectCount size space

theorem geometryExact_of_lt (hspace : size + 20 ≤ space) (hwrap : 8 * space + 8 * size < 2 ^ 32) :
    GeometryExact size space := by
  obtain ⟨-, hfits⟩ := slabObjectCount_fits hspace hwrap
  have hheader : wsub space sizeofSlab = space - 16 := wsub_of_le (show 16 ≤ space by omega) (by omega)
  constructor
  · rw [hheader, wsub_of_le (show 4 ≤ space - 16 by omega) (by omega), Nat.sub_sub]
  · rw [wmul_of_lt (show 8 * _ < _ by omega), wadd_of_lt (show 8 * _ + _ < _ by omega)]
  · rw [wmul_of_lt (show 8 * _ < _ by omega), wadd_of_lt (show 8 * _ + _ < _ by omega)]
  · exact wmul_of_lt (by omega)
  · exact wsub_of_le (by omega) (by omega)

/-- **Slab geometry fits and aligns**, for every space and every object that it has room for. -/
theorem slabGeometry_fits (hsize : 1 ≤ size) (hspace : size ≤ space - 20)
    (hwrap : 8 * space + 8 * size < 2 ^ 32) :
    let count := slabObjectCount size space
    let offset := wsub space (wmul size count)
    1 ≤ count ∧ GeometryExact size space ∧ 16 + 4 * ((count + 31) / 32) ≤ offset ∧
      ∀ s k, 1 ≤ s → s ≤ space → 2 ^ k ∣ space → size = slabObjectSize s (2 ^ k) →
        size = roundedSize s (2 ^ k) ∧ s ≤ size ∧ 2 ^ k ∣ offset ∧
          ∀ n, 2 ^ k ∣ offset + n * size := by
  intro count offset
  obtain ⟨hcount, hfits⟩ := slabObjectCount_fits (show size + 20 ≤ space by omega) hwrap
  have hexact := geometryExact_of_lt (show size + 20 ≤ space by omega) hwrap
  have hoffset : offset = space - size * count := by
    rw [← hexact.offset_eq, ← hexact.objects_eq]
  refine ⟨hcount, hexact, ?_, ?_⟩
  · rw [hoffset]
    exact Nat.le_sub_of_add_le hfits
  · intro s k hs hle hdvd hround
    have hpos : 0 < 2 ^ k := Nat.two_pow_pos k
    have hrounded : roundedSize s (2 ^ k) ≤ space := roundedSize_le_of_dvd hle hdvd (by omega)
    rw [slabObjectSize_eq hs hpos (by omega)] at hround
    have hdvdSize : 2 ^ k ∣ size := hround ▸ Nat.dvd_mul_right _ _
    have hdvdOffset : 2 ^ k ∣ offset :=
      hoffset ▸ Nat.dvd_sub hdvd (hdvdSize.mul_right count)
    refine ⟨hround, hround ▸ le_roundedSize hpos, hdvdOffset, ?_⟩
    intro n
    exact Nat.dvd_add hdvdOffset (hdvdSize.mul_left n)

/-- The geometry of the objects of 9 bytes at an alignment of 8, in two pages. -/
theorem slabGeometry_fits_sixteen :
    slabObjectCount 16 8192 = 506 ∧ 16 + 4 * ((506 + 31) / 32) ≤ 96 ∧ 8 ∣ 96 := by
  obtain ⟨-, -, hfits, haligned⟩ := slabGeometry_fits (show 1 ≤ 16 by decide)
    (show 16 ≤ 8192 - 20 by decide) (by decide)
  obtain ⟨-, -, hdvd, -⟩ :=
    haligned 9 3 (by decide) (by decide) (show 2 ^ 3 ∣ 8192 by decide) (by decide)
  exact ⟨by decide, hfits, hdvd⟩

/-- If there is room for an object, then it is that small, unless its size in bits wraps. -/
theorem le_of_slabObjectCount_pos (hsize : size < 2 ^ 29)
    (hcount : 1 ≤ slabObjectCount size slabSpace) : size ≤ 8172 := by
  by_contra hlt
  have hzero : slabObjectCount size slabSpace = 0 := by
    rw [slabObjectCount, wmul_of_lt (show 8 * size < _ by omega),
      wadd_of_lt (show 8 * size + 1 < _ by omega)]
    exact Nat.div_eq_of_lt (show 65377 < 8 * size + 1 by omega)
  omega

/-! ### Counter and bitmap -/

/-- Counter and bitmap agree, and only bits that stand for objects are set. -/
structure SlabOk (count words : ℕ) (s : Slab) : Prop where
  length_eq : s.bitmap.length = words
  word_lt : ∀ x ∈ s.bitmap, x < 2 ^ wordBits
  bit_lt : ∀ n ∈ setBits wordBits s.bitmap, n < count
  free_eq : s.free + (setBits wordBits s.bitmap).card = count

/-- The address of an object. -/
def objectAddr (c : SlabCache) (slab n : ℕ) : ℕ := slab + c.objectOffset + n * c.objectSize

theorem SlabCache.Sound.count_le (h : c.Sound) : c.objectCount ≤ slabSpace := by
  have hle : c.objectCount ≤ c.objectSize * c.objectCount := Nat.le_mul_of_pos_left _ h.size_pos
  have := h.space_eq
  omega

theorem SlabCache.Sound.count_le_bits (h : c.Sound) :
    c.objectCount ≤ wordBits * c.bitmapWords := by
  have := h.bitmap_fits
  show _ ≤ 32 * ((c.objectOffset - 16) / 4)
  omega

/-- An object lies inside the slab. -/
theorem SlabCache.Sound.object_end_le (h : c.Sound) (hn : n < c.objectCount) :
    c.objectOffset + n * c.objectSize + c.objectSize ≤ slabSpace := by
  have hmul : (n + 1) * c.objectSize ≤ c.objectCount * c.objectSize := Nat.mul_le_mul_right _ hn
  rw [Nat.add_mul, Nat.one_mul] at hmul
  have hspace := h.space_eq
  rw [Nat.mul_comm] at hspace
  omega

/-- The slab that `slab_init` writes. -/
theorem slabOk_replicate (count words : ℕ) : SlabOk count words ⟨count, List.replicate words 0⟩ := by
  have hempty : setBits wordBits (List.replicate words 0) = ∅ :=
    setBits_replicate_zero (by decide) words
  refine ⟨List.length_replicate, ?_, ?_, ?_⟩
  · intro x hx
    rw [List.eq_of_mem_replicate hx]
    decide
  · intro n hn
    rw [hempty] at hn
    exact absurd hn (Finset.notMem_empty n)
  · rw [hempty, Finset.card_empty, Nat.add_zero]

/-- Setting a clear bit that stands for an object. -/
theorem SlabOk.take (hs : SlabOk count words s) (hi : i < s.bitmap.length) (hj : j < wordBits)
    (hlt : i * wordBits + j < count) (hclear : i * wordBits + j ∉ setBits wordBits s.bitmap)
    (hcount : count < 2 ^ 32) :
    SlabOk count words
        ⟨wsub s.free 1, s.bitmap.set i (s.bitmap.getD i 0 ||| 1 <<< j)⟩ ∧
      setBits wordBits (s.bitmap.set i (s.bitmap.getD i 0 ||| 1 <<< j)) =
        insert (i * wordBits + j) (setBits wordBits s.bitmap) ∧
      wsub s.free 1 + 1 = s.free := by
  have hset := setBits_set_true hi hj fun m _ => testBit_or_one_shiftLeft (s.bitmap.getD i 0) j m
  have hfree := hs.free_eq
  have hcard : (setBits wordBits s.bitmap).card < count := by
    have hsub : insert (i * wordBits + j) (setBits wordBits s.bitmap) ⊆ Finset.range count := by
      intro n hn
      rcases Finset.mem_insert.mp hn with rfl | hn
      · exact Finset.mem_range.mpr hlt
      · exact Finset.mem_range.mpr (hs.bit_lt n hn)
    have hle := Finset.card_le_card hsub
    rw [Finset.card_insert_of_notMem hclear, Finset.card_range] at hle
    exact hle
  have hsub : wsub s.free 1 = s.free - 1 := wsub_of_le (by omega) (by omega)
  refine ⟨⟨List.length_set.trans hs.length_eq, ?_, ?_, ?_⟩, hset, by omega⟩
  · intro x hx
    rcases List.mem_or_eq_of_mem_set hx with hx | rfl
    · exact hs.word_lt x hx
    · refine Nat.or_lt_two_pow ?_ ?_
      · rw [List.getD_eq_getElem _ _ hi]
        exact hs.word_lt _ (List.getElem_mem hi)
      · rw [Nat.one_shiftLeft]
        exact Nat.pow_lt_pow_right (by decide) hj
  · intro n hn
    rw [hset] at hn
    rcases Finset.mem_insert.mp hn with rfl | hn
    · exact hlt
    · exact hs.bit_lt n hn
  · dsimp only
    rw [hset, Finset.card_insert_of_notMem hclear, hsub]
    omega

/-- Clearing a set bit. -/
theorem SlabOk.release (hs : SlabOk count words s) (hi : i < s.bitmap.length) (hj : j < wordBits)
    (hbit : i * wordBits + j ∈ setBits wordBits s.bitmap) (hcount : count < 2 ^ 32) :
    SlabOk count words
        ⟨wadd s.free 1, s.bitmap.set i (s.bitmap.getD i 0 &&& wnot (1 <<< j))⟩ ∧
      setBits wordBits (s.bitmap.set i (s.bitmap.getD i 0 &&& wnot (1 <<< j))) =
        (setBits wordBits s.bitmap).erase (i * wordBits + j) ∧
      wadd s.free 1 = s.free + 1 := by
  have hset := setBits_set_false hi hj fun m hm =>
    testBit_and_not_one_shiftLeft hj hm (s.bitmap.getD i 0)
  have hfree := hs.free_eq
  have hpos : 0 < (setBits wordBits s.bitmap).card := Finset.card_pos.mpr ⟨_, hbit⟩
  have hadd : wadd s.free 1 = s.free + 1 := wadd_of_lt (by omega)
  refine ⟨⟨List.length_set.trans hs.length_eq, ?_, ?_, ?_⟩, hset, hadd⟩
  · intro x hx
    rcases List.mem_or_eq_of_mem_set hx with hx | rfl
    · exact hs.word_lt x hx
    · rw [List.getD_eq_getElem _ _ hi]
      exact Nat.and_le_left.trans_lt (hs.word_lt _ (List.getElem_mem hi))
  · intro n hn
    rw [show wnot (1 <<< j) = 2 ^ wordBits - 1 - 1 <<< j from rfl, hset] at hn
    exact hs.bit_lt n (Finset.mem_of_mem_erase hn)
  · dsimp only
    rw [show wnot (1 <<< j) = 2 ^ wordBits - 1 - 1 <<< j from rfl, hset,
      Finset.card_erase_of_mem hbit, hadd]
    omega

/-! ### The search -/

theorem wnot_eq_zero_iff {x : ℕ} (hx : x < 2 ^ 32) : wnot x = 0 ↔ x = 2 ^ 32 - 1 := by
  rw [wnot]
  omega

/-- The first loop stops at the first word that is not full. -/
theorem slabAllocWord_spec (hB : ∀ x ∈ B, x < 2 ^ wordBits)
    (hclear : ∃ x ∈ B, x ≠ 2 ^ wordBits - 1) (k : ℕ) :
    ∃ i word, slabAllocWord B k = some (k + i, word) ∧ B[i]? = some word ∧
      word ≠ 2 ^ wordBits - 1 ∧ ∀ m < i, B[m]? = some (2 ^ wordBits - 1) := by
  induction B generalizing k with
  | nil => simp at hclear
  | cons x B ih =>
    have hzero := wnot_eq_zero_iff (hB x List.mem_cons_self)
    by_cases hfull : x = 2 ^ wordBits - 1
    · obtain ⟨y, hy, hne⟩ := hclear
      have hy' : y ∈ B := (List.mem_cons.mp hy).resolve_left fun e => hne (e.trans hfull)
      obtain ⟨i, word, hret, hget, hword, hbelow⟩ :=
        ih (fun z hz => hB z (List.mem_cons_of_mem x hz)) ⟨y, hy', hne⟩ (k + 1)
      refine ⟨i + 1, word, ?_, hget, hword, ?_⟩
      · rw [slabAllocWord, if_pos (hzero.mpr hfull), hret, Nat.add_assoc, Nat.add_comm 1]
      · intro m hm
        cases m with
        | zero => rw [List.getElem?_cons_zero, hfull]
        | succ m => exact hbelow m (by omega)
    · exact ⟨0, x, by rw [slabAllocWord, if_neg (mt hzero.mp hfull), Nat.add_zero], rfl, hfull,
        fun m hm => absurd hm (Nat.not_lt_zero m)⟩

/-- The second loop stops at the first clear bit. -/
theorem slabAllocBit_spec {x : ℕ} (h : ∃ m < n, x.testBit m = false) (k : ℕ) :
    ∃ j < n, slabAllocBit n x k = k + j ∧ x.testBit j = false ∧ ∀ m < j, x.testBit m = true := by
  induction n generalizing x k with
  | zero =>
    obtain ⟨m, hm, -⟩ := h
    omega
  | succ n ih =>
    have hodd : x % 2 ≠ 0 ↔ x.testBit 0 = true := by
      rw [Nat.testBit_zero, decide_eq_true_iff]
      omega
    rw [slabAllocBit]
    by_cases hbit : x.testBit 0 = true
    · obtain ⟨m, hm, hclear⟩ := h
      obtain ⟨m, rfl⟩ := Nat.exists_eq_succ_of_ne_zero (show m ≠ 0 by rintro rfl; simp [hbit] at hclear)
      have hshift : ∀ m, (x >>> 1).testBit m = x.testBit (m + 1) := fun m => by
        rw [Nat.testBit_shiftRight, Nat.add_comm]
      obtain ⟨j, hj, hret, hfalse, hbelow⟩ :=
        ih (x := x >>> 1) ⟨m, by omega, by rw [hshift]; exact hclear⟩ (k + 1)
      refine ⟨j + 1, by omega, ?_, by rw [← hshift]; exact hfalse, ?_⟩
      · rw [if_pos (hodd.mpr hbit), hret, Nat.add_assoc, Nat.add_comm 1]
      · intro m hm
        cases m with
        | zero => exact hbit
        | succ m => rw [← hshift]; exact hbelow m (by omega)
    · exact ⟨0, by omega, by rw [if_neg (mt hodd.mp hbit), Nat.add_zero], by simpa using hbit,
        fun m hm => absurd hm (Nat.not_lt_zero m)⟩

/-- **The search finds the first clear bit**, if there is one in the bitmap. -/
theorem slabAllocSearch_spec (hB : ∀ x ∈ B, x < 2 ^ wordBits)
    (hclear : ∃ n < wordBits * B.length, bitAt wordBits B n = false) :
    ∃ i word j, slabAllocWord B 0 = some (i, word) ∧ slabAllocBit wordBits word 0 = j ∧
      i < B.length ∧ B.getD i 0 = word ∧ j < wordBits ∧ bitAt wordBits B (i * wordBits + j) = false ∧
      ∀ n, bitAt wordBits B n = false → i * wordBits + j ≤ n := by
  have hbit : ∀ n, bitAt wordBits B n = (B.getD (n / wordBits) 0).testBit (n % wordBits) :=
    fun _ => rfl
  have hnotfull : ∃ x ∈ B, x ≠ 2 ^ wordBits - 1 := by
    by_contra hall
    push Not at hall
    obtain ⟨n, hn, hfalse⟩ := hclear
    have hlt : n / wordBits < B.length := Nat.div_lt_of_lt_mul hn
    rw [hbit, List.getD_eq_getElem _ _ hlt, hall _ (List.getElem_mem hlt),
      Nat.testBit_two_pow_sub_one] at hfalse
    simp [Nat.mod_lt] at hfalse
  obtain ⟨i, word, hret, hget, hword, hbelow⟩ := slabAllocWord_spec hB hnotfull 0
  obtain ⟨j, hj, hret', hfalse, hbelow'⟩ :=
    slabAllocBit_spec (exists_testBit_eq_false (hB word (List.mem_of_getElem? hget)) hword) 0
  rw [Nat.zero_add] at hret hret'
  have hgetD : B.getD i 0 = word := by rw [List.getD_eq_getElem?_getD, hget, Option.getD_some]
  have hj32 : j < 32 := hj
  have hdiv : (i * 32 + j) / 32 = i := by omega
  have hmod : (i * 32 + j) % 32 = j := by omega
  refine ⟨i, word, j, hret, hret', (List.getElem?_eq_some_iff.mp hget).1, hgetD, hj, ?_,
    fun n hn => ?_⟩
  · rw [hbit, hdiv, hmod, hgetD]
    exact hfalse
  · by_contra hlt
    have hlt32 : n < i * 32 + j := not_le.mp hlt
    rw [hbit] at hn
    rcases Nat.lt_or_ge (n / wordBits) i with hwordlt | hge
    · rw [List.getD_eq_getElem?_getD, hbelow _ hwordlt, Option.getD_some,
        Nat.testBit_two_pow_sub_one] at hn
      simp [Nat.mod_lt] at hn
    · have hge32 : i ≤ n / 32 := hge
      have hsame : n / 32 = i := by omega
      rw [hsame, hgetD, hbelow' (n % 32) (by omega)] at hn
      cases hn

/-! ### Taking and returning an object -/

/-- A slab that is not full has a clear bit that stands for an object, and the search finds it. -/
theorem SlabOk.search (hs : SlabOk c.objectCount c.bitmapWords s) (hc : c.Sound) (hfree : 0 < s.free) :
    ∃ i word j, slabAllocWord s.bitmap 0 = some (i, word) ∧ slabAllocBit wordBits word 0 = j ∧
      i < s.bitmap.length ∧ s.bitmap.getD i 0 = word ∧ j < wordBits ∧
      i * wordBits + j < c.objectCount ∧ i * wordBits + j ∉ setBits wordBits s.bitmap := by
  have hcard := hs.free_eq
  obtain ⟨m, hm, hclear⟩ : ∃ m ∈ Finset.range c.objectCount, m ∉ setBits wordBits s.bitmap :=
    Finset.exists_mem_notMem_of_card_lt_card (by rw [Finset.card_range]; omega)
  rw [Finset.mem_range] at hm
  rw [mem_setBits (by decide), Bool.not_eq_true] at hclear
  obtain ⟨i, word, j, hword, hbit, hi, hget, hj, hfalse, hmin⟩ :=
    slabAllocSearch_spec hs.word_lt ⟨m, hs.length_eq ▸ hm.trans_le hc.count_le_bits, hclear⟩
  refine ⟨i, word, j, hword, hbit, hi, hget, hj, (hmin m hclear).trans_lt hm, ?_⟩
  rw [mem_setBits (by decide), hfalse]
  exact Bool.false_ne_true

/-- The search stops in a word that has bits of objects. -/
theorem SlabOk.search_lt (hs : SlabOk c.objectCount c.bitmapWords s) (hc : c.Sound)
    (hfree : 0 < s.free) :
    ∃ i word, slabAllocWord s.bitmap 0 = some (i, word) ∧ i < (c.objectCount + 31) / 32 := by
  obtain ⟨i, word, j, hword, -, -, -, hj, hlt, -⟩ := hs.search hc hfree
  have hlt32 : i * 32 + j < c.objectCount := hlt
  exact ⟨i, word, hword, by omega⟩

/-- **`slab_alloc` takes an object that is not in use** and sets its bit. -/
theorem slabAlloc_spec (hc : c.Sound) (hs : SlabOk c.objectCount c.bitmapWords (c.slabs slab))
    (hfree : 0 < (c.slabs slab).free) (hslab : slab + slabSpace ≤ 2 ^ 32) :
    ∃ n s', slabAlloc c slab =
        some ({ c with slabs := Function.update c.slabs slab s' }, objectAddr c slab n) ∧
      n < c.objectCount ∧ n ∉ setBits wordBits (c.slabs slab).bitmap ∧
      SlabOk c.objectCount c.bitmapWords s' ∧
      setBits wordBits s'.bitmap = insert n (setBits wordBits (c.slabs slab).bitmap) ∧
      s'.free + 1 = (c.slabs slab).free := by
  have hspace : slabSpace = 8192 := rfl
  have hcount := hc.count_le
  obtain ⟨i, word, j, hword, hbit, hi, hget, hj, hlt, hnew⟩ := hs.search hc hfree
  obtain ⟨hok, hset, hdec⟩ := hs.take hi hj hlt hnew (by omega)
  refine ⟨i * wordBits + j, _, ?_, hlt, hnew, hok, hset, hdec⟩
  have hend := hc.object_end_le hlt
  have hsize := hc.size_pos
  have hptr : wadd (wadd slab c.objectOffset) (wmul (i * wordBits + j) c.objectSize) =
      objectAddr c slab (i * wordBits + j) := by
    rw [wmul_of_lt (by omega), wadd_of_lt (x := slab) (by omega), wadd_of_lt (by omega), objectAddr]
  have hoff : i * sizeofBitmap * charBit + j = i * wordBits + j := by
    show i * 4 * 8 + j = i * 32 + j
    omega
  rw [slabAlloc, hword]
  simp only [Option.bind_eq_bind, Option.bind_some, hbit, hoff, hptr, hget]

/-- **`slab_free` returns an object in use**: the bit it computes from the pointer is the one that
`slab_alloc` computed the pointer from. -/
theorem slabFree_spec (hc : c.Sound) (hs : SlabOk c.objectCount c.bitmapWords (c.slabs slab))
    (hn : n ∈ setBits wordBits (c.slabs slab).bitmap) (hslab : slab + slabSpace ≤ 2 ^ 32) :
    ∃ s', slabFree c slab (objectAddr c slab n) =
        some { c with slabs := Function.update c.slabs slab s' } ∧
      SlabOk c.objectCount c.bitmapWords s' ∧
      setBits wordBits s'.bitmap = (setBits wordBits (c.slabs slab).bitmap).erase n ∧
      s'.free = (c.slabs slab).free + 1 := by
  have hspace : slabSpace = 8192 := rfl
  have hcount := hc.count_le
  have hend := hc.object_end_le (hs.bit_lt n hn)
  have hsize := hc.size_pos
  have hbits : 0 < wordBits := by decide
  have hi : n / wordBits < (c.slabs slab).bitmap.length :=
    Nat.div_lt_of_lt_mul (lt_of_bitAt hbits ((mem_setBits hbits).mp hn))
  have hj : n % wordBits < wordBits := Nat.mod_lt n hbits
  have hdiv : n / wordBits * wordBits + n % wordBits = n := Nat.div_add_mod' n wordBits
  obtain ⟨hok, hset, hinc⟩ := hs.release hi hj (by rw [hdiv]; exact hn) (by omega)
  rw [hdiv] at hset
  refine ⟨_, ?_, hok, hset, hinc⟩
  have hbit : wsub (objectAddr c slab n) (wadd slab c.objectOffset) / c.objectSize = n := by
    rw [wadd_of_lt (by omega), objectAddr, wsub_of_le (by omega) (by omega), Nat.add_sub_cancel_left]
    exact Nat.mul_div_cancel n hc.size_pos
  rw [slabFree, hbit]
  simp only [List.getElem?_eq_getElem hi, List.getD_eq_getElem _ _ hi, Option.bind_eq_bind,
    Option.bind_some]

end Auos
