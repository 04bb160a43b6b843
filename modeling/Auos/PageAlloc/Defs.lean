import Auos.List
import Auos.BootMem.Defs

/-!
# The page allocator

The kernel's `page_alloc.c` and the initialisation of a zone from `setup_page_alloc.c`. There is one
node, `nodes[0]`; its `struct page` array is a function from indices, and a pointer into the array is
the index. The lists through `page->chain` and `zone->free_area` are one family of links.

An operation is `none` where the source stops in `panic` or reads outside `free_area`. The `slab`
field of a page belongs to the slab cache and is not kept here.
-/

namespace Auos

/-- `enum zone_type`. -/
inductive ZoneType
  | normal
  | high
  deriving DecidableEq

/-- The list nodes of the page allocator: the heads `zone->free_area[order]` and the `chain` fields
of the pages. -/
inductive ListNode
  | freeArea (zone : ZoneType) (order : ℕ)
  | chain (page : ℕ)
  deriving DecidableEq

/-- `struct page`; `order` is signed. -/
structure Page where
  /-- `zone`. -/
  zone : ZoneType
  /-- `order`. -/
  order : ℤ

/-- `struct zone`, without its free lists. -/
structure Zone where
  /-- `start_pfn`. -/
  startPfn : ℕ
  /-- `end_pfn`. -/
  endPfn : ℕ

/-- `struct page_list_data`, with the links of all its list nodes. -/
structure PageListData where
  /-- `zones`. -/
  zones : ZoneType → Zone
  /-- `pages`. -/
  pages : ℕ → Page
  /-- `start_pfn`. -/
  startPfn : ℕ
  /-- The pointers of the list nodes. -/
  links : Links ListNode

/-- `MAX_ORDER`. -/
abbrev maxOrder : ℕ := 11

/-- `ALLOC_NORMAL`. -/
abbrev allocNormal : ℕ := 1 <<< 2

namespace PageListData

/-- The assignment `page->order = order`. -/
def setOrder (s : PageListData) (page : ℕ) (order : ℤ) : PageListData :=
  { s with pages := Function.update s.pages page { s.pages page with order } }

/-- `list_insert_before` on the links. -/
def insertBefore (s : PageListData) (pos prev : ListNode) : PageListData :=
  { s with links := listInsertBefore s.links pos prev }

/-- `list_remove` on the links. -/
def remove (s : PageListData) (node : ListNode) : PageListData :=
  { s with links := listRemove s.links node }

/-- `list_init_head` on the links. -/
def initHead (s : PageListData) (head : ListNode) : PageListData :=
  { s with links := listInitHead s.links head }

end PageListData

/-- `page_to_pfn`. -/
def pageToPfn (s : PageListData) (page : ℕ) : ℕ := s.startPfn + page

/-- `pfn_to_page`. -/
def pfnToPage (s : PageListData) (pfn : ℕ) : ℕ := pfn - s.startPfn

/-- `buddy_pfn`. -/
def buddyPfn (pfn order : ℕ) : ℕ := pfn ^^^ (1 <<< order)

/-- `CONTAINER_OF(node, struct page, chain)`: no page contains a list head. -/
def containerOf : ListNode → Option ℕ
  | .chain page => some page
  | .freeArea _ _ => none

/-! ### Freeing -/

/-- The loop of `free_pages_node`, with the number of iterations left: the state, the page and the
order it ends with. -/
def freePagesNodeLoop (zone : ZoneType) :
    ℕ → PageListData → ℕ → ℕ → ℕ → PageListData × ℕ × ℕ
  | 0, s, pages, _, order => (s, pages, order)
  | n + 1, s, pages, pfn, order =>
    let bpfn := buddyPfn pfn order
    if bpfn ≥ (s.zones zone).endPfn ∨ bpfn < (s.zones zone).startPfn then (s, pages, order)
    else
      let buddy := pfnToPage s bpfn
      if (order : ℤ) ≠ (s.pages buddy).order then (s, pages, order)
      else
        let s := s.remove (.chain buddy)
        if bpfn < pfn then freePagesNodeLoop zone n s buddy bpfn (order + 1)
        else freePagesNodeLoop zone n s pages pfn (order + 1)

/-- `free_pages_node`. -/
def freePagesNode (s : PageListData) (pages order : ℕ) (zone : ZoneType) : Option PageListData :=
  let pfn := pageToPfn s pages
  let (s, pages, order) := freePagesNodeLoop zone (maxOrder - 1 - order) s pages pfn order
  if order < maxOrder then
    some ((s.setOrder pages order).insertBefore (.freeArea zone order) (.chain pages))
  else none

/-- `free_pages`. -/
def freePages (s : PageListData) (pages order : ℕ) : Option PageListData :=
  if (s.pages pages).order < 0 ∧ -(s.pages pages).order - 1 = order then
    freePagesNode s pages order (s.pages pages).zone
  else none

/-! ### Allocation -/

/-- The first loop of `alloc_pages_node`, with the number of iterations left: the first order from
`corder` on with a non-empty free list, or `MAX_ORDER`. -/
def allocPagesNodeScan (s : PageListData) (zone : ZoneType) : ℕ → ℕ → ℕ
  | 0, corder => corder
  | n + 1, corder =>
    if !listEmpty s.links (.freeArea zone corder) then corder
    else allocPagesNodeScan s zone n (corder + 1)

/-- The second loop of `alloc_pages_node`, with the number of iterations left: the upper halves of
the page's block are freed order by order. -/
def allocPagesNodeSplit (zone : ZoneType) : ℕ → PageListData → ℕ → ℕ → PageListData
  | 0, s, _, _ => s
  | n + 1, s, page, corder =>
    let pfn := pageToPfn s page
    let corder := corder - 1
    let bpfn := buddyPfn pfn corder
    let buddy := pfnToPage s bpfn
    let s := s.setOrder buddy corder
    let s := s.insertBefore (.freeArea zone corder) (.chain buddy)
    allocPagesNodeSplit zone n s page corder

/-- `alloc_pages_node`: the state afterwards and the page, if any. -/
def allocPagesNode (s : PageListData) (order : ℕ) (zone : ZoneType) :
    Option (PageListData × Option ℕ) :=
  let corder := allocPagesNodeScan s zone (maxOrder - order) order
  if corder ≥ maxOrder then some (s, none)
  else do
    let page ← containerOf (s.links.next (.freeArea zone corder))
    let s := s.remove (.chain page)
    let s := allocPagesNodeSplit zone (corder - order) s page corder
    let s := s.setOrder page (-(order : ℤ) - 1)
    some (s, some page)

/-- `alloc_pages`. -/
def allocPages (s : PageListData) (order flags : ℕ) : Option (PageListData × Option ℕ) :=
  if order < maxOrder ∧ flags &&& allocNormal ≠ 0 then allocPagesNode s order .normal else none

/-! ### Initialisation -/

/-- The loop of `init_zone` over the free lists, with the number of iterations left. -/
def initZoneFreeArea (zone : ZoneType) : ℕ → PageListData → ℕ → PageListData
  | 0, node, _ => node
  | n + 1, node, i => initZoneFreeArea zone n (node.initHead (.freeArea zone i)) (i + 1)

/-- The loop of `init_zone` over the pages, with the number of iterations left. -/
def initZonePages (zone : ZoneType) : ℕ → PageListData → ℕ → PageListData
  | 0, node, _ => node
  | n + 1, node, pfn =>
    let page := pfnToPage node (pfn - node.startPfn)
    let node := node.initHead (.chain page)
    let node := { node with pages := Function.update node.pages page ⟨zone, -1⟩ }
    initZonePages zone n node (pfn + 1)

/-- The loop of `init_zone` that frees what the boot allocator has left, with the number of
iterations left. -/
def initZoneFree (bootMem : BootMem) : ℕ → PageListData → ℕ → Option PageListData
  | 0, node, _ => some node
  | n + 1, node, pfn => do
    if ← bootMemIsFree bootMem (wrap (pfn <<< pageShift)) pageSize then
      let page := pfnToPage node (pfn - node.startPfn)
      let node ← freePages node page 0
      initZoneFree bootMem n node (pfn + 1)
    else initZoneFree bootMem n node (pfn + 1)

/-- `init_zone` up to its last loop: empty free lists and pages that are all taken. -/
def initZoneLists (node : PageListData) (zone : ZoneType) (startPfn endPfn : ℕ) : PageListData :=
  let node := { node with zones := Function.update node.zones zone ⟨startPfn, endPfn⟩ }
  let node := initZoneFreeArea zone maxOrder node 0
  initZonePages zone (wsub endPfn startPfn) node startPfn

/-- `init_zone`. -/
def initZone (bootMem : BootMem) (node : PageListData) (zone : ZoneType) (startPfn endPfn : ℕ) :
    Option PageListData :=
  initZoneFree bootMem (wsub endPfn startPfn) (initZoneLists node zone startPfn endPfn) startPfn

end Auos
