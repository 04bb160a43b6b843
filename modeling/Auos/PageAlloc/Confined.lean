import Auos.PageAlloc.Effect
import Auos.PageAlloc.Runs

/-!
# What the operations of one zone leave alone

The zones of a node share the array of pages and, through `page->chain`, one family of links. Nothing
in the code keeps them apart: `list_remove` and `list_insert_before` follow pointers. What keeps them
apart is that the list nodes of a zone, its heads and the `chain` fields of its pages, are closed under
`next` and `prev`. A write between such nodes stays among them and keeps them closed, so every
operation of a zone is `Confined` to the zone, and the other zone holds what it held.

## Main definitions

* `ClosedOn`, `SameOff` — closed sets of list nodes, and links that agree off a set
* `zoneNodes`, `Confined` — the list nodes of a zone, and changes to one zone only

## Main results

* `FreshRun.confined`, `freePages_confined`, `allocPagesNode_confined` — the operations are confined
* `Accounts.of_sameOutside` — the other zone keeps its blocks
-/

namespace Auos

open Block

/-! ### Closed sets of list nodes -/

section Closed

variable {α : Type*} {L L' L'' : Links α} {A : Set α} {h n x : α}

/-- The pointers of the nodes of `A` stay in `A`. -/
def ClosedOn (L : Links α) (A : Set α) : Prop := ∀ x ∈ A, L.next x ∈ A ∧ L.prev x ∈ A

/-- The pointers of the nodes outside `A` agree. -/
def SameOff (A : Set α) (L L' : Links α) : Prop := ∀ x ∉ A, L'.next x = L.next x ∧ L'.prev x = L.prev x

theorem SameOff.refl (A : Set α) (L : Links α) : SameOff A L L := fun _ _ => ⟨rfl, rfl⟩

theorem SameOff.trans (h : SameOff A L L') (h' : SameOff A L' L'') : SameOff A L L'' :=
  fun x hx => ⟨(h' x hx).1.trans (h x hx).1, (h' x hx).2.trans (h x hx).2⟩

variable [DecidableEq α]

/-- A pointer written at a node of `A`. -/
theorem update_mem {f : α → α} (hf : x ∈ A → f x ∈ A) {v : α} (hv : v ∈ A) (hx : x ∈ A) :
    Function.update f h v x ∈ A := by
  rcases eq_or_ne x h with rfl | hne
  · rwa [Function.update_self]
  · rw [Function.update_of_ne hne]
    exact hf hx

theorem update_off {f : α → α} {v : α} (hh : h ∈ A) (hx : x ∉ A) : Function.update f h v x = f x := by
  refine Function.update_of_ne ?_ _ _
  rintro rfl
  exact hx hh

theorem ClosedOn.listInsertBefore (hL : ClosedOn L A) (hh : h ∈ A) (hn : n ∈ A) :
    ClosedOn (listInsertBefore L h n) A := fun x hx =>
  ⟨update_mem (update_mem (fun hx => (hL x hx).1) hn) hh hx,
    update_mem (update_mem (fun hx => (hL x hx).2) hn) (hL h hh).2 hx⟩

theorem ClosedOn.sameOff_listInsertBefore (hL : ClosedOn L A) (hh : h ∈ A) (hn : n ∈ A) :
    SameOff A L (Auos.listInsertBefore L h n) := fun _ hx =>
  ⟨(update_off hn hx).trans (update_off (hL h hh).2 hx), (update_off hn hx).trans (update_off hh hx)⟩

theorem ClosedOn.listRemove (hL : ClosedOn L A) (hn : n ∈ A) : ClosedOn (listRemove L n) A :=
  fun x hx => ⟨update_mem (fun hx => (hL x hx).1) (hL n hn).1 hx,
    update_mem (fun hx => (hL x hx).2) (hL n hn).2 hx⟩

theorem ClosedOn.sameOff_listRemove (hL : ClosedOn L A) (hn : n ∈ A) :
    SameOff A L (Auos.listRemove L n) := fun _ hx =>
  ⟨update_off (hL n hn).2 hx, update_off (hL n hn).1 hx⟩

theorem sameOff_listInitHead (L : Links α) (hh : h ∈ A) : SameOff A L (listInitHead L h) :=
  fun _ hx => ⟨update_off hh hx, update_off hh hx⟩

end Closed

/-! ### The part of the node that belongs to a zone -/

/-- The list nodes of a zone: its heads, and the `chain` fields of its pages. -/
def zoneNodes (zone : ZoneType) (startPfn endPfn : ℕ) : Set ListNode :=
  {x | (∃ k < maxOrder, x = .freeArea zone k) ∨ ∃ page ∈ Set.Ico startPfn endPfn, x = .chain page}

variable {s s' s'' node : PageListData} {zone zone' : ZoneType}
  {startPfn endPfn startPfn' endPfn' page pfn order k n : ℕ} {v : ℤ} {x pos : ListNode}
  {nodes : ℕ → List ListNode} {F L : Set Block} {b : Block} {freed : Set ℕ} {out : List (ℕ × ℕ)}
  {blocks : List Block} {p : Pool maxOrder (Set.Ico startPfn endPfn)}

theorem freeArea_mem_zoneNodes :
    ListNode.freeArea zone' k ∈ zoneNodes zone startPfn endPfn ↔ zone' = zone ∧ k < maxOrder := by
  constructor
  · rintro (⟨j, hj, h⟩ | ⟨q, -, h⟩)
    · cases h
      exact ⟨rfl, hj⟩
    · cases h
  · rintro ⟨rfl, hk⟩
    exact Or.inl ⟨k, hk, rfl⟩

theorem chain_mem_zoneNodes :
    ListNode.chain page ∈ zoneNodes zone startPfn endPfn ↔ page ∈ Set.Ico startPfn endPfn := by
  constructor
  · rintro (⟨j, -, h⟩ | ⟨q, hq, h⟩)
    · cases h
    · cases h
      exact hq
  · exact fun h => Or.inr ⟨page, h, rfl⟩

/-- Zones with different names and different frames have no list node in common. -/
theorem disjoint_zoneNodes (hne : zone ≠ zone')
    (hdisj : Disjoint (Set.Ico startPfn endPfn) (Set.Ico startPfn' endPfn')) :
    Disjoint (zoneNodes zone startPfn endPfn) (zoneNodes zone' startPfn' endPfn') := by
  rw [Set.disjoint_left]
  rintro x (⟨k, hk, rfl⟩ | ⟨q, hq, rfl⟩) hx
  · exact hne (freeArea_mem_zoneNodes.mp hx).1
  · exact Set.disjoint_left.mp hdisj hq (chain_mem_zoneNodes.mp hx)

/-- From `s` to `s'` nothing changes outside the zone. -/
structure SameOutside (zone : ZoneType) (startPfn endPfn : ℕ) (s s' : PageListData) : Prop where
  /-- The node starts where it did. -/
  node_start : s'.startPfn = s.startPfn
  /-- The bounds of other zones. -/
  zones : ∀ z, z ≠ zone → s'.zones z = s.zones z
  /-- The pages of other zones. -/
  pages : ∀ page, page ∉ Set.Ico startPfn endPfn → s'.pages page = s.pages page
  /-- The links of other list nodes. -/
  links : SameOff (zoneNodes zone startPfn endPfn) s.links s'.links

/-- Moreover the pointers in the zone end in the zone. -/
structure Confined (zone : ZoneType) (startPfn endPfn : ℕ) (s s' : PageListData) : Prop extends
    SameOutside zone startPfn endPfn s s' where
  /-- The list nodes of the zone are closed. -/
  closed : ClosedOn s'.links (zoneNodes zone startPfn endPfn)

theorem SameOutside.refl (s : PageListData) : SameOutside zone startPfn endPfn s s :=
  ⟨rfl, fun _ _ => rfl, fun _ _ => rfl, .refl _ _⟩

theorem SameOutside.trans (h : SameOutside zone startPfn endPfn s s')
    (h' : SameOutside zone startPfn endPfn s' s'') : SameOutside zone startPfn endPfn s s'' where
  node_start := h'.node_start.trans h.node_start
  zones z hz := (h'.zones z hz).trans (h.zones z hz)
  pages q hq := (h'.pages q hq).trans (h.pages q hq)
  links := h.links.trans h'.links

namespace Confined

theorem refl (h : ClosedOn s.links (zoneNodes zone startPfn endPfn)) :
    Confined zone startPfn endPfn s s := ⟨.refl s, h⟩

theorem trans (h : Confined zone startPfn endPfn s s') (h' : Confined zone startPfn endPfn s' s'') :
    Confined zone startPfn endPfn s s'' :=
  ⟨h.toSameOutside.trans h'.toSameOutside, h'.closed⟩

/-! ### Writes -/

theorem setOrder (h : Confined zone startPfn endPfn s s') (hpage : page ∈ Set.Ico startPfn endPfn) :
    Confined zone startPfn endPfn s (s'.setOrder page v) :=
  { h with
    pages := by
      intro q hq
      refine (setOrder_pages_of_ne ?_).trans (h.pages q hq)
      rintro rfl
      exact hq hpage }

theorem insertBefore (h : Confined zone startPfn endPfn s s')
    (hpos : pos ∈ zoneNodes zone startPfn endPfn) (hx : x ∈ zoneNodes zone startPfn endPfn) :
    Confined zone startPfn endPfn s (s'.insertBefore pos x) :=
  { h with
    links := h.links.trans (h.closed.sameOff_listInsertBefore hpos hx)
    closed := h.closed.listInsertBefore hpos hx }

theorem remove (h : Confined zone startPfn endPfn s s') (hx : x ∈ zoneNodes zone startPfn endPfn) :
    Confined zone startPfn endPfn s (s'.remove x) :=
  { h with
    links := h.links.trans (h.closed.sameOff_listRemove hx)
    closed := h.closed.listRemove hx }

/-- The list nodes of another zone stay closed. -/
theorem closed_of_disjoint (h : Confined zone startPfn endPfn s s') {A : Set ListNode}
    (hA : Disjoint A (zoneNodes zone startPfn endPfn)) (hclosed : ClosedOn s.links A) :
    ClosedOn s'.links A := by
  intro x hx
  obtain ⟨hnext, hprev⟩ := h.links x (Set.disjoint_left.mp hA hx)
  rw [hnext, hprev]
  exact hclosed x hx

end Confined

/-! ### The operations -/

/-- The merge loop stays inside the zone: it looks at no page outside the bounds. -/
theorem freePagesNodeLoop_confined (h : Confined zone startPfn endPfn s s')
    (hzone : s'.zones zone = ⟨startPfn, endPfn⟩) (h0 : s'.startPfn = 0)
    (hpage : page ∈ Set.Ico startPfn endPfn) :
    Confined zone startPfn endPfn s (freePagesNodeLoop zone n s' page pfn order).1 ∧
      (freePagesNodeLoop zone n s' page pfn order).2.1 ∈ Set.Ico startPfn endPfn := by
  induction n generalizing s' page pfn order with
  | zero => exact ⟨h, hpage⟩
  | succ n ih =>
    rw [freePagesNodeLoop]
    simp only [hzone, pfnToPage_eq h0]
    split_ifs with hout horder hlt
    · exact ⟨h, hpage⟩
    · exact ⟨h, hpage⟩
    all_goals
      have hbuddy : buddyPfn pfn order ∈ Set.Ico startPfn endPfn := by
        rw [Set.mem_Ico]
        omega
      have hrem := h.remove (chain_mem_zoneNodes.mpr hbuddy)
    · exact ih hrem hzone h0 hbuddy
    · exact ih hrem hzone h0 hpage

/-- `free_pages` of a page of the zone is confined to it. -/
theorem freePages_confined (h : Confined zone startPfn endPfn s s')
    (hzone : s'.zones zone = ⟨startPfn, endPfn⟩) (h0 : s'.startPfn = 0)
    (hpage : page ∈ Set.Ico startPfn endPfn) (hname : (s'.pages page).zone = zone)
    (hret : freePages s' page order = some s'') : Confined zone startPfn endPfn s s'' := by
  rw [freePages, hname] at hret
  split_ifs at hret
  obtain ⟨hloop, hlast⟩ := @freePagesNodeLoop_confined s s' zone startPfn endPfn page
    (pageToPfn s' page) order (maxOrder - 1 - order) h hzone h0 hpage
  rw [freePagesNode] at hret
  dsimp only at hret
  split_ifs at hret with hk
  cases hret
  exact (hloop.setOrder hlast).insertBefore (freeArea_mem_zoneNodes.mpr ⟨rfl, hk⟩)
    (chain_mem_zoneNodes.mpr hlast)

/-- The split loop stays inside the zone as long as the halves it frees do. -/
theorem allocPagesNodeSplit_confined (h : Confined zone startPfn endPfn s s') (h0 : s'.startPfn = 0)
    (hc : k + n < maxOrder)
    (hhalf : ∀ j, k ≤ j → j < k + n → buddyPfn page j ∈ Set.Ico startPfn endPfn) :
    Confined zone startPfn endPfn s (allocPagesNodeSplit zone n s' page (k + n)) := by
  induction n generalizing s' with
  | zero => exact h
  | succ n ih =>
    have hin := hhalf (k + n) (by omega) (by omega)
    rw [allocPagesNodeSplit]
    simp only [pageToPfn_eq h0, pfnToPage_eq h0, show k + (n + 1) - 1 = k + n by omega]
    refine ih ?_ h0 (by omega) fun j h₁ h₂ => hhalf j h₁ (by omega)
    exact (h.setOrder hin).insertBefore (freeArea_mem_zoneNodes.mpr ⟨rfl, by omega⟩)
      (chain_mem_zoneNodes.mpr hin)

/-- `alloc_pages_node` is confined to a zone that holds disjoint blocks of its frames. -/
theorem allocPagesNode_confined (h : Confined zone startPfn endPfn s s')
    (hs : Holds s' zone startPfn endPfn nodes F L) (hF : ∀ b ∈ F, b.points ⊆ Set.Ico startPfn endPfn)
    (hk : k < maxOrder) {ret : Option ℕ} (hret : allocPagesNode s' k zone = some (s'', ret)) :
    Confined zone startPfn endPfn s s'' := by
  have hsum : k + (maxOrder - k) = maxOrder := by omega
  obtain ⟨hge, -, -, hfound⟩ := allocPagesNodeScan_spec hs.rings hsum
  rw [allocPagesNode] at hret
  generalize allocPagesNodeScan s' zone (maxOrder - k) k = c at *
  dsimp only at hret
  split_ifs at hret with hc
  · cases hret
    exact h
  obtain ⟨x, xs, hnodes⟩ := List.exists_cons_of_ne_nil (hfound (not_le.mp hc))
  obtain ⟨b, hb, rfl, rfl⟩ := (hs.mem_nodes c (not_le.mp hc) x).mp (by simp [hnodes])
  rw [hs.rings.next_head (not_le.mp hc) hnodes, containerOf, Option.bind_eq_bind,
    Option.bind_some] at hret
  cases hret
  have hbase : b.base ∈ Set.Ico startPfn endPfn := hF b hb b.base_mem
  have hrem := h.remove (chain_mem_zoneNodes.mpr hbase)
  obtain ⟨n, hn⟩ : ∃ n, b.order = k + n := ⟨b.order - k, by omega⟩
  rw [hn, Nat.add_sub_cancel_left]
  refine (allocPagesNodeSplit_confined hrem hs.node_start (by omega) fun j h₁ h₂ => ?_).setOrder hbase
  -- the halves of a block are frames of the block
  rw [buddyPfn_eq_half (show j ≤ b.order by omega)]
  exact hF b hb (points_half_subset (by omega) (b.half j).base_mem)

/-! ### The start of a zone -/

/-- A node that points to itself. -/
def Alone {α : Type*} (L : Links α) (x : α) : Prop := L.next x = x ∧ L.prev x = x

theorem alone_listInitHead {α : Type*} [DecidableEq α] {L : Links α} {x h : α}
    (hx : Alone L x ∨ x = h) : Alone (listInitHead L h) x := by
  rcases eq_or_ne x h with rfl | hne
  · exact ⟨Function.update_self .., Function.update_self ..⟩
  · exact ⟨(listInitHead_next_of_ne hne).trans (hx.resolve_right hne).1,
      (listInitHead_prev_of_ne hne).trans (hx.resolve_right hne).2⟩

theorem initZoneFreeArea_alone (i : ℕ)
    (hx : Alone s.links x ∨ ∃ k, i ≤ k ∧ k < i + n ∧ x = .freeArea zone k) :
    Alone (initZoneFreeArea zone n s i).links x := by
  induction n generalizing s i with
  | zero => exact hx.resolve_right fun ⟨k, h₁, h₂, _⟩ => by omega
  | succ n ih =>
    refine ih (i + 1) ?_
    rcases hx with hx | ⟨k, h₁, h₂, rfl⟩
    · exact Or.inl (alone_listInitHead (Or.inl hx))
    · rcases Nat.eq_or_lt_of_le h₁ with rfl | h₁
      · exact Or.inl (alone_listInitHead (Or.inr rfl))
      · exact Or.inr ⟨k, h₁, by omega, rfl⟩

theorem initZonePages_alone (pfn : ℕ) (h0 : s.startPfn = 0)
    (hx : Alone s.links x ∨ ∃ q, pfn ≤ q ∧ q < pfn + n ∧ x = .chain q) :
    Alone (initZonePages zone n s pfn).links x := by
  induction n generalizing s pfn with
  | zero => exact hx.resolve_right fun ⟨q, h₁, h₂, _⟩ => by omega
  | succ n ih =>
    rw [initZonePages]
    simp only [pfnToPage_eq h0, h0, Nat.sub_zero]
    refine ih (pfn + 1) h0 ?_
    rcases hx with hx | ⟨q, h₁, h₂, rfl⟩
    · exact Or.inl (alone_listInitHead (Or.inl hx))
    · rcases Nat.eq_or_lt_of_le h₁ with rfl | h₁
      · exact Or.inl (alone_listInitHead (Or.inr rfl))
      · exact Or.inr ⟨q, h₁, by omega, rfl⟩

theorem SameOutside.initZoneFreeArea (h : SameOutside zone startPfn endPfn s s') (i : ℕ)
    (hi : i + n ≤ maxOrder) :
    SameOutside zone startPfn endPfn s (initZoneFreeArea zone n s' i) := by
  induction n generalizing s' i with
  | zero => exact h
  | succ n ih =>
    have hhead : SameOutside zone startPfn endPfn s (s'.initHead (.freeArea zone i)) :=
      ⟨h.node_start, h.zones, h.pages,
        h.links.trans (sameOff_listInitHead _ (freeArea_mem_zoneNodes.mpr ⟨rfl, by omega⟩))⟩
    exact ih hhead (i + 1) (by omega)

theorem SameOutside.initZonePages (h : SameOutside zone startPfn endPfn s s') (h0 : s'.startPfn = 0)
    (hle : startPfn ≤ pfn) (hn : pfn + n ≤ endPfn) :
    SameOutside zone startPfn endPfn s (initZonePages zone n s' pfn) := by
  induction n generalizing s' pfn with
  | zero => exact h
  | succ n ih =>
    rw [Auos.initZonePages]
    simp only [pfnToPage_eq h0, h0, Nat.sub_zero]
    have hin : pfn ∈ Set.Ico startPfn endPfn := ⟨hle, by omega⟩
    refine ih ⟨h0 ▸ h.node_start, h.zones, ?_, ?_⟩ h0 (by omega) (by omega)
    · intro q hq
      refine (Function.update_of_ne ?_ _ _).trans (h.pages q hq)
      rintro rfl
      exact hq hin
    · exact h.links.trans (sameOff_listInitHead _ (chain_mem_zoneNodes.mpr hin))

/-- `init_zone` before its last loop is confined, and closes the list nodes of the zone. -/
theorem initZoneLists_confined (node : PageListData) (zone : ZoneType) (h0 : node.startPfn = 0)
    (hle : startPfn ≤ endPfn) (hend : endPfn < 2 ^ 32) :
    Confined zone startPfn endPfn node (initZoneLists node zone startPfn endPfn) := by
  rw [initZoneLists, wsub_of_le hle hend]
  have hstart : SameOutside zone startPfn endPfn node
      { node with zones := Function.update node.zones zone ⟨startPfn, endPfn⟩ } :=
    ⟨rfl, fun z hz => Function.update_of_ne hz _ _, fun _ _ => rfl, .refl _ _⟩
  generalize { node with zones := Function.update node.zones zone ⟨startPfn, endPfn⟩ } = s at *
  have hs0 : (Auos.initZoneFreeArea zone maxOrder s 0).startPfn = 0 :=
    (initZoneFreeArea_frame s zone maxOrder 0).2.1.trans (hstart.node_start.trans h0)
  refine ⟨(hstart.initZoneFreeArea 0 le_rfl).initZonePages hs0 le_rfl (by omega), ?_⟩
  intro x hx
  have halone : Alone (Auos.initZonePages zone (endPfn - startPfn)
      (Auos.initZoneFreeArea zone maxOrder s 0) startPfn).links x := by
    refine initZonePages_alone startPfn hs0 ?_
    rcases hx with ⟨k, hk, rfl⟩ | ⟨q, hq, rfl⟩
    · exact Or.inl (initZoneFreeArea_alone 0 (Or.inr ⟨k, Nat.zero_le k, by omega, rfl⟩))
    · exact Or.inr ⟨q, hq.1, by have := hq.2; omega, rfl⟩
  rw [halone.1, halone.2]
  exact ⟨hx, hx⟩

/-- So is the whole first phase of a run. -/
theorem FreshRun.confined (h : FreshRun node zone startPfn endPfn freed s) (h0 : node.startPfn = 0)
    (hle : startPfn ≤ endPfn) (hend : endPfn < 2 ^ 32) : Confined zone startPfn endPfn node s := by
  induction h with
  | init => exact initZoneLists_confined node zone h0 hle hend
  | free h h₁ h₂ hnew hret ih =>
    obtain ⟨nodes, p, hs⟩ := h.accounts h0 hle hend
    rw [pfnToPage_eq hs.holds.node_start] at hret
    exact freePages_confined ih hs.holds.zone_eq hs.holds.node_start ⟨h₁, h₂⟩
      (hs.holds.page_zone _ h₁ h₂) hret

/-! ### The other zone -/

theorem Holds.of_sameOutside (h : Holds s zone startPfn endPfn nodes F L)
    (hF : ∀ b ∈ F, b.points ⊆ Set.Ico startPfn endPfn)
    (hL : ∀ b ∈ L, b.points ⊆ Set.Ico startPfn endPfn)
    (hs : SameOutside zone' startPfn' endPfn' s s') (hne : zone ≠ zone')
    (hdisj : Disjoint (Set.Ico startPfn endPfn) (Set.Ico startPfn' endPfn')) :
    Holds s' zone startPfn endPfn nodes F L := by
  have hpage : ∀ q ∈ Set.Ico startPfn endPfn, s'.pages q = s.pages q :=
    fun q hq => hs.pages q (Set.disjoint_left.mp hdisj hq)
  have hnode : ∀ k ∈ {k | k < maxOrder}, ∀ x ∈ ListNode.freeArea zone k :: nodes k,
      x ∉ zoneNodes zone' startPfn' endPfn' := by
    intro k hk x hx
    refine Set.disjoint_left.mp (disjoint_zoneNodes hne hdisj) ?_
    rcases List.mem_cons.mp hx with rfl | hx
    · exact freeArea_mem_zoneNodes.mpr ⟨rfl, hk⟩
    · obtain ⟨b, hb, -, rfl⟩ := (h.mem_nodes k hk x).mp hx
      exact chain_mem_zoneNodes.mpr (hF b hb b.base_mem)
  exact
    { node_start := hs.node_start.trans h.node_start
      zone_eq := (hs.zones zone hne).trans h.zone_eq
      page_zone := fun q h₁ h₂ => by rw [hpage q ⟨h₁, h₂⟩]; exact h.page_zone q h₁ h₂
      rings := h.rings.congr (fun k hk x hx => (hs.links x (hnode k hk x hx)).1)
        fun k hk x hx => (hs.links x (hnode k hk x hx)).2
      mem_nodes := h.mem_nodes
      free_order := fun b hb => by rw [hpage _ (hF b hb b.base_mem)]; exact h.free_order b hb
      live_order := fun b hb => by rw [hpage _ (hL b hb b.base_mem)]; exact h.live_order b hb }

/-- **A zone keeps what it holds** while nothing changes outside another one. -/
theorem Accounts.of_sameOutside (h : Accounts s zone freed out p blocks nodes)
    (hs : SameOutside zone' startPfn' endPfn' s s') (hne : zone ≠ zone')
    (hdisj : Disjoint (Set.Ico startPfn endPfn) (Set.Ico startPfn' endPfn')) :
    Accounts s' zone freed out p blocks nodes := by
  have hin : ∀ b ∈ p.free ∪ p.live, b.points ⊆ Set.Ico startPfn endPfn := by
    intro b hb
    have hsub := points_subset_cover hb
    rwa [cover_union, p.cover_eq] at hsub
  exact { h with
    holds := h.holds.of_sameOutside (fun b hb => hin b (Or.inl hb)) (fun b hb => hin b (Or.inr hb)) hs
      hne hdisj }

end Auos
