import Auos.Kernel

/-!
# The boot memory allocator

The kernel's `bootmem.c`. A table is an array of `capacity` cells of which the first `size` are in
use; cells above keep whatever was last written there. Every access to a cell goes through
`BootMemType.get` or `BootMemType.set`, which fail outside the array, so `none` is an access out of
bounds. `bootMemFind` is also `none` when its search never returns.

The `while` loop of `boot_mem_find` is cut off after `res.size + 1` rounds. A round that does not leave
the loop ends with `begin` at the end of the reserved range under the cursor, so two such rounds at
one cursor position repeat for ever; `Auos.BootMem.Steps` shows that the cut-off loses nothing.
-/

namespace Auos

/-- `struct boot_mem_range`. -/
structure BootMemRange where
  /-- `begin`. -/
  beginAddr : ℕ
  /-- `end`. -/
  endAddr : ℕ
  deriving DecidableEq

/-- `struct boot_mem_type`: the array `ranges` has `capacity` cells. -/
structure BootMemType (capacity : ℕ) where
  /-- The cells. -/
  ranges : Vector BootMemRange capacity
  /-- The number of cells in use. -/
  size : ℕ
  deriving DecidableEq

/-- `BOOT_MEM_RANGES`. -/
abbrev bootMemRanges : ℕ := 128

/-- `struct boot_mem`. -/
structure BootMem where
  /-- The memory the firmware reported as available. -/
  memory : BootMemType bootMemRanges
  /-- The memory in use. -/
  reserved : BootMemType bootMemRanges
  deriving DecidableEq

variable {capacity : ℕ}

/-- A table without ranges. -/
def BootMemType.empty (capacity : ℕ) : BootMemType capacity := ⟨Vector.replicate _ ⟨0, 0⟩, 0⟩

/-- The static initialiser of `boot_mem`. -/
def BootMem.empty : BootMem := ⟨.empty _, .empty _⟩

/-- Read a cell. -/
def BootMemType.get (type : BootMemType capacity) (i : ℕ) : Option BootMemRange := type.ranges[i]?

/-- Write a cell. -/
def BootMemType.set (type : BootMemType capacity) (i : ℕ) (range : BootMemRange) :
    Option (BootMemType capacity) :=
  if h : i < capacity then some { type with ranges := type.ranges.set i range } else none

/-! ### Insertion -/

/-- `boot_mem_merge`. -/
def bootMemMerge (dst src : BootMemRange) : BootMemRange :=
  ⟨minu src.beginAddr dst.beginAddr, maxu src.endAddr dst.endAddr⟩

/-- `boot_mem_overlap`. -/
def bootMemOverlap (l r : BootMemRange) : Bool :=
  (decide (l.beginAddr ≤ r.beginAddr) && decide (r.beginAddr ≤ l.endAddr)) ||
    (decide (l.beginAddr ≤ r.endAddr) && decide (r.endAddr ≤ l.endAddr))

/-- The loop of `boot_mem_remove`, with the number of iterations left. -/
def bootMemRemoveLoop (type : BootMemType capacity) (i : ℕ) : ℕ → Option (BootMemType capacity)
  | 0 => some type
  | k + 1 => do
    let next ← type.get (i + 1)
    let type ← type.set i next
    bootMemRemoveLoop type (i + 1) k

/-- `boot_mem_remove`. -/
def bootMemRemove (type : BootMemType capacity) (i : ℕ) : Option (BootMemType capacity) := do
  let type ← bootMemRemoveLoop type i (type.size - (i + 1))
  some { type with size := type.size - 1 }

/-- The loop of `boot_mem_insert`, running down from `j` to `i`. -/
def bootMemInsertLoop (type : BootMemType capacity) (i : ℕ) : ℕ → Option (BootMemType capacity)
  | 0 => some type
  | j + 1 =>
    if j + 1 > i then do
      let prev ← type.get j
      let type ← type.set (j + 1) prev
      bootMemInsertLoop type i j
    else some type

/-- `boot_mem_insert`, with its return value. -/
def bootMemInsert (type : BootMemType capacity) (range : BootMemRange) (i : ℕ) :
    Option (ℤ × BootMemType capacity) :=
  if type.size = capacity then some (-1, type)
  else do
    let type' ← bootMemInsertLoop type i type.size
    let type' ← type'.set i range
    some (0, { type' with size := type.size + 1 })

/-- The first loop of `boot_mem_add_range`: the first index from `i` on whose range ends at or after
`begin`, or the size of the table. The last argument is the number of iterations left. -/
def bootMemAddRangeSearch (type : BootMemType capacity) (beginAddr i : ℕ) : ℕ → Option ℕ
  | 0 => some i
  | k + 1 => do
    let range ← type.get i
    if range.endAddr ≥ beginAddr then some i
    else bootMemAddRangeSearch type beginAddr (i + 1) k

/-- `boot_mem_add_range`, with its return value. -/
def bootMemAddRange (type : BootMemType capacity) (beginAddr endAddr : ℕ) :
    Option (ℤ × BootMemType capacity) :=
  if endAddr ≤ beginAddr then some (0, type)
  else do
    let range : BootMemRange := ⟨beginAddr, endAddr⟩
    let i ← bootMemAddRangeSearch type beginAddr 0 type.size
    if i ≠ type.size then
      let dst ← type.get i
      if bootMemOverlap dst range then
        let dst := bootMemMerge dst range
        let type ← type.set i dst
        if i + 1 ≠ type.size then
          let next ← type.get (i + 1)
          if bootMemOverlap dst next then
            let type ← type.set i (bootMemMerge dst next)
            let type ← bootMemRemove type (i + 1)
            some (0, type)
          else some (0, type)
        else some (0, type)
      else bootMemInsert type range i
    else bootMemInsert type range i

/-! ### Search -/

/-- The loop over reserved ranges: the first index from `j` on whose range ends after `begin`, or
the size of the table. The last argument is the number of iterations left. -/
def bootMemFindReserved (res : BootMemType capacity) (beginAddr j : ℕ) : ℕ → Option ℕ
  | 0 => some j
  | k + 1 => do
    let range ← res.get j
    if range.endAddr > beginAddr then some j
    else bootMemFindReserved res beginAddr (j + 1) k

/-- The `while` loop of `boot_mem_find` over one memory range, cut off after `fuel` rounds. It ends
with an address to return, or falls through with the cursor `j` into the reserved table. -/
def bootMemFindWhile (res : BootMemType capacity) (size align endAddr : ℕ) :
    ℕ → ℕ → ℕ → Option (ℕ ⊕ ℕ)
  | 0, _, _ => none
  | fuel + 1, beginAddr, j =>
    if beginAddr < endAddr then
      let beginAddr := alignUp beginAddr align
      if wadd beginAddr size > endAddr then some (.inr j)
      else do
        let j ← bootMemFindReserved res beginAddr j (res.size - j)
        if j = res.size then some (.inl beginAddr)
        else
          let range ← res.get j
          if range.beginAddr ≥ wadd beginAddr size then some (.inl beginAddr)
          else bootMemFindWhile res size align endAddr fuel range.endAddr j
    else some (.inr j)

/-- The `for` loop of `boot_mem_find` over the memory table, with the number of iterations left. -/
def bootMemFindFor (mem res : BootMemType capacity) (size align fromAddr toAddr : ℕ) :
    ℕ → ℕ → ℕ → Option ℕ
  | 0, _, _ => some toAddr
  | k + 1, i, j => do
    let range ← mem.get i
    if range.endAddr ≤ fromAddr then bootMemFindFor mem res size align fromAddr toAddr k (i + 1) j
    else if range.beginAddr ≥ toAddr then some toAddr
    else
      let endAddr := minu range.endAddr toAddr
      let beginAddr := maxu range.beginAddr fromAddr
      match ← bootMemFindWhile res size align endAddr (res.size + 1) beginAddr j with
      | .inl addr => some addr
      | .inr j => bootMemFindFor mem res size align fromAddr toAddr k (i + 1) j

/-- `boot_mem_find`. -/
def bootMemFind (bootMem : BootMem) (size align fromAddr toAddr : ℕ) : Option ℕ :=
  if fromAddr > toAddr ∨ size > wsub toAddr fromAddr then some toAddr
  else if size = 0 then some fromAddr
  else
    bootMemFindFor bootMem.memory bootMem.reserved size align fromAddr toAddr bootMem.memory.size 0 0

/-! ### Interface -/

/-- `boot_mem_add`. -/
def bootMemAdd (bootMem : BootMem) (beginAddr endAddr : ℕ) : Option (ℤ × BootMem) := do
  let (ret, memory) ← bootMemAddRange bootMem.memory beginAddr endAddr
  some (ret, { bootMem with memory })

/-- `boot_mem_reserve`. -/
def bootMemReserve (bootMem : BootMem) (beginAddr endAddr : ℕ) : Option (ℤ × BootMem) := do
  let (ret, reserved) ← bootMemAddRange bootMem.reserved beginAddr endAddr
  some (ret, { bootMem with reserved })

/-- `boot_mem_alloc`. -/
def bootMemAlloc (bootMem : BootMem) (size align fromAddr toAddr : ℕ) : Option (ℕ × BootMem) := do
  let addr ← bootMemFind bootMem size align fromAddr toAddr
  if addr ≠ toAddr then
    let (ret, bootMem) ← bootMemReserve bootMem addr (wadd addr size)
    if ret = 0 then some (addr, bootMem) else some (toAddr, bootMem)
  else some (toAddr, bootMem)

/-- `boot_mem_is_free`. -/
def bootMemIsFree (bootMem : BootMem) (beginAddr endAddr : ℕ) : Option Bool := do
  let addr ← bootMemFind bootMem (wsub endAddr beginAddr) 1 beginAddr endAddr
  some (addr ≠ 0)

end Auos
