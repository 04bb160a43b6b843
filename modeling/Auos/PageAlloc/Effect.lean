import Auos.PageAlloc.Init

/-!
# What one allocation does to a zone

`alloc_pages_node` in a zone whose free blocks are any aligned, disjoint blocks, coalesced or not. It
takes the first block of the first non-empty list from the requested order on, and splits it: the
page it returns heads the front of the block, and one half of every order in between goes to the list
of its order. `TakesFirst` says what is written, and that nothing else is: no other list, no other
`order` field, and no link of a node outside the lists it goes through.

## Main definitions

* `FreeLists` — a zone whose free lists hold disjoint blocks
* `FreesHalves`, `TakesFirst` — the effect of the split loop, and of an allocation

## Main results

* `allocPagesNodeSplit_frees` — the split loop
* `allocPagesNode_effect` — the whole call
-/

namespace Auos

open Block

/-- The first page of a block, in a node that starts at frame `start`. -/
def headPage (start : ℕ) (b : Block) : ℕ := b.base - start

/-- The free lists of a zone hold the blocks `F`, through the list elements `nodes`: the blocks are
disjoint, each is on the list of its order, and its first page carries its order. -/
structure FreeLists (s : PageListData) (zone : ZoneType) (nodes : ℕ → List ListNode)
    (F : Set Block) : Prop where
  /-- The blocks are made of pages of the node. -/
  node_start : ∀ b ∈ F, s.startPfn ≤ b.base
  /-- The free lists are well formed. -/
  rings : s.links.Rings {k | k < maxOrder} (ListNode.freeArea zone) nodes
  /-- The list of order `k` holds the first pages of the free blocks of order `k`. -/
  mem_nodes : ∀ k < maxOrder, ∀ x, x ∈ nodes k ↔
    ∃ b ∈ F, b.order = k ∧ x = .chain (headPage s.startPfn b)
  /-- The first page of a free block carries its order. -/
  free_order : ∀ b ∈ F, (s.pages (headPage s.startPfn b)).order = b.order
  /-- Free blocks do not overlap. -/
  disjoint : F.PairwiseDisjoint points

variable {s s' : PageListData} {zone : ZoneType} {startPfn endPfn start k c n : ℕ}
  {nodes : ℕ → List ListNode} {F L : Set Block} {b : Block}

/-- A zone that holds disjoint free blocks is of this form; so is every zone of a run. -/
theorem Holds.freeLists (h : Holds s zone startPfn endPfn nodes F L)
    (hF : F.PairwiseDisjoint points) : FreeLists s zone nodes F where
  node_start := fun b _ => by rw [h.node_start]; exact Nat.zero_le _
  rings := h.rings
  mem_nodes := by
    rw [h.node_start]
    exact h.mem_nodes
  free_order := by
    rw [h.node_start]
    exact h.free_order
  disjoint := hF

/-- The lists after the halves of the orders from `k` below `c` are appended. -/
def withHalves (nodes : ℕ → List ListNode) (start : ℕ) (b : Block) (k c j : ℕ) : List ListNode :=
  if k ≤ j ∧ j < c then nodes j ++ [.chain (headPage start (b.half j))] else nodes j

/-- From `s` to `s'` the halves of `b` of the orders from `k` below `c` are freed, and nothing else
happens. -/
structure FreesHalves (s s' : PageListData) (zone : ZoneType) (start : ℕ) (b : Block) (k c : ℕ)
    (nodes : ℕ → List ListNode) : Prop where
  zones : s'.zones = s.zones
  node_start : s'.startPfn = s.startPfn
  lists : s'.links.Rings {j | j < maxOrder} (ListNode.freeArea zone) (withHalves nodes start b k c)
  halves : ∀ j, k ≤ j → j < c → s'.pages (headPage start (b.half j)) =
    { s.pages (headPage start (b.half j)) with order := j }
  other_pages : ∀ p, (∀ j, k ≤ j → j < c → p ≠ headPage start (b.half j)) → s'.pages p = s.pages p
  other_links : ∀ x, (∀ j, k ≤ j → j < c → x ∉ ListNode.freeArea zone j :: nodes j ∧
    x ≠ .chain (headPage start (b.half j))) →
      s'.links.next x = s.links.next x ∧ s'.links.prev x = s.links.prev x

/-- Different blocks of the node have different first pages. -/
theorem headPage_ne {b c : Block} (h : b.base ≠ c.base) (hb : start ≤ b.base) (hc : start ≤ c.base) :
    headPage start b ≠ headPage start c := by
  rw [headPage, headPage]
  omega

theorem headPage_half_ne {i j : ℕ} (hb : start ≤ b.base) (h : i < j) (hj : j < b.order) :
    headPage start (b.half i) ≠ headPage start (b.half j) := by
  have hne : (b.half i).base ≠ (b.half j).base := by
    rw [base_half (h.trans hj), base_half hj]
    have := Nat.pow_lt_pow_right (by decide : 1 < 2) h
    omega
  exact headPage_ne hne (hb.trans (base_lt_base_half (h.trans hj)).le)
    (hb.trans (base_lt_base_half hj).le)

/-- The sibling the split loop computes is the half of that order. -/
theorem buddyPfn_eq_half (h : k ≤ b.order) : buddyPfn b.base k = (b.half k).base := by
  rw [half, ← buddyPfn_base, base_front h, order_front]

/-- **The split loop frees the halves**, one of every order. -/
theorem allocPagesNodeSplit_frees (hstart : s.startPfn = start) (hb : start ≤ b.base)
    (hrings : s.links.Rings {j | j < maxOrder} (ListNode.freeArea zone) nodes)
    (hnew : ∀ j < c, ∀ i < maxOrder,
      ListNode.chain (headPage start (b.half j)) ∉ ListNode.freeArea zone i :: nodes i)
    (hc : c ≤ b.order) (htop : c < maxOrder) (hn : k + n = c) :
    FreesHalves s (allocPagesNodeSplit zone n s (headPage start b) c) zone start b k c nodes := by
  induction n generalizing s nodes c with
  | zero =>
    have hnone : withHalves nodes start b k c = nodes := by
      funext j
      rw [withHalves, if_neg (by omega)]
    exact ⟨rfl, rfl, by rw [hnone]; exact hrings, fun j h₁ h₂ => by omega, fun _ _ => rfl,
      fun _ _ => ⟨rfl, rfl⟩⟩
  | succ n ih =>
    obtain ⟨c, rfl⟩ : ∃ d, c = d + 1 := ⟨k + n, by omega⟩
    have hct : c < maxOrder := by omega
    have hpfn : pageToPfn s (headPage start b) = b.base := by
      rw [pageToPfn, hstart, headPage]
      omega
    have hbuddy : pfnToPage s (buddyPfn b.base c) = headPage start (b.half c) := by
      rw [buddyPfn_eq_half (show c ≤ b.order by omega), pfnToPage, hstart, headPage]
    rw [allocPagesNodeSplit]
    simp only [hpfn, Nat.add_sub_cancel, hbuddy]
    obtain ⟨s₁, hs₁⟩ : ∃ s₁, (s.setOrder (headPage start (b.half c)) c).insertBefore
      (.freeArea zone c) (.chain (headPage start (b.half c))) = s₁ := ⟨_, rfl⟩
    rw [hs₁]
    have hins := hrings.listInsertBefore (i := c) hct (hnew c (Nat.lt_succ_self c))
    have hlinks : s₁.links =
        listInsertBefore s.links (.freeArea zone c) (.chain (headPage start (b.half c))) := by
      rw [← hs₁]; rfl
    have hpages : s₁.pages = (s.setOrder (headPage start (b.half c)) c).pages := by rw [← hs₁]; rfl
    rw [← hlinks] at hins
    have hrest := ih (s := s₁) (c := c) (by rw [← hs₁]; exact hstart) hins ?_ (by omega) hct (by omega)
    swap
    · intro j hj i hi
      have hold := hnew j (by omega) i hi
      rcases eq_or_ne i c with rfl | hne
      · rw [Function.update_self, ← List.cons_append, List.mem_append, not_or]
        refine ⟨hold, ?_⟩
        rw [List.mem_singleton]
        intro heq
        exact headPage_half_ne hb hj (by omega) (ListNode.chain.inj heq)
      · rwa [Function.update_of_ne hne]
    constructor
    · rw [hrest.zones, ← hs₁]; rfl
    · rw [hrest.node_start, ← hs₁]; rfl
    · have hlists : withHalves
          (Function.update nodes c (nodes c ++ [.chain (headPage start (b.half c))])) start b k c =
          withHalves nodes start b k (c + 1) := by
        funext j
        rcases lt_trichotomy j c with hlt | rfl | hlt
        · simp [withHalves, Function.update_of_ne hlt.ne, hlt, hlt.trans (Nat.lt_succ_self c)]
        · simp [withHalves, show k ≤ j by omega]
        · simp [withHalves, Function.update_of_ne hlt.ne', not_lt.mpr hlt.le,
            not_lt.mpr (Nat.succ_le_of_lt hlt)]
      exact hlists ▸ hrest.lists
    · intro j hkj hjc
      rcases Nat.lt_succ_iff_lt_or_eq.mp hjc with hlt | rfl
      · rw [hrest.halves j hkj hlt, hpages, setOrder_pages_of_ne (headPage_half_ne hb hlt (by omega))]
      · rw [hrest.other_pages _ fun i _ hi => (headPage_half_ne hb hi (by omega)).symm, hpages]
        exact Function.update_self ..
    · intro p hp
      rw [hrest.other_pages p fun j h₁ h₂ => hp j h₁ (h₂.trans (Nat.lt_succ_self c)), hpages,
        setOrder_pages_of_ne (hp c (by omega) (Nat.lt_succ_self c))]
    · intro x hx
      obtain ⟨hxc, hxn⟩ := hx c (by omega) (Nat.lt_succ_self c)
      have hone := (hrings.ring c hct).listInsertBefore_of_notMem (hnew c (Nat.lt_succ_self c) c hct)
        hxc hxn
      have hmore := hrest.other_links x fun j h₁ h₂ => by
        obtain ⟨hxj, hxh⟩ := hx j h₁ (h₂.trans (Nat.lt_succ_self c))
        rw [Function.update_of_ne h₂.ne]
        exact ⟨hxj, hxh⟩
      rw [hmore.1, hmore.2, hlinks]
      exact hone

/-! ### The whole call -/

/-- From `s` to `s'` the first block `b` of its list, followed by `rest`, is taken and split down to
order `k`, and nothing else happens. -/
structure TakesFirst (s s' : PageListData) (zone : ZoneType) (k : ℕ) (b : Block)
    (nodes : ℕ → List ListNode) (rest : List ListNode) : Prop where
  /-- The bounds of the zones and of the node stay. -/
  zones : s'.zones = s.zones
  node_start : s'.startPfn = s.startPfn
  /-- The block leaves its list, the halves are appended to theirs, and no other list changes. -/
  lists : s'.links.Rings {j | j < maxOrder} (ListNode.freeArea zone)
    (Function.update (withHalves nodes s.startPfn b k b.order) b.order rest)
  /-- The returned page carries its order in the negative. -/
  head : s'.pages (headPage s.startPfn b) =
    { s.pages (headPage s.startPfn b) with order := -k - 1 }
  /-- The halves carry their order. -/
  halves : ∀ j, k ≤ j → j < b.order → s'.pages (headPage s.startPfn (b.half j)) =
    { s.pages (headPage s.startPfn (b.half j)) with order := j }
  /-- No other page changes. -/
  other_pages : ∀ p, p ≠ headPage s.startPfn b →
    (∀ j, k ≤ j → j < b.order → p ≠ headPage s.startPfn (b.half j)) → s'.pages p = s.pages p
  /-- No page outside the block changes. -/
  outside : ∀ p, pageToPfn s p ∉ b.points → s'.pages p = s.pages p
  /-- Outside the lists of the orders from `k` to that of the block, only the links of the halves
  change. -/
  other_links : ∀ x, (∀ j, k ≤ j → j ≤ b.order → x ∉ ListNode.freeArea zone j :: nodes j) →
    (∀ j, k ≤ j → j < b.order → x ≠ .chain (headPage s.startPfn (b.half j))) →
      s'.links.next x = s.links.next x ∧ s'.links.prev x = s.links.prev x

/-- The halves of a free block are on no list. -/
theorem FreeLists.half_notMem (h : FreeLists s zone nodes F) (hb : b ∈ F) {i j : ℕ}
    (hj : j < b.order) (hi : i < maxOrder) :
    ListNode.chain (headPage s.startPfn (b.half j)) ∉ ListNode.freeArea zone i :: nodes i := by
  intro hmem
  rcases List.mem_cons.mp hmem with hmem | hmem
  · cases hmem
  obtain ⟨c, hc, -, hx⟩ := (h.mem_nodes i hi _).mp hmem
  have hhalf := base_lt_base_half hj
  have hbase : c.base = (b.half j).base := by
    by_contra hne
    exact headPage_ne (Ne.symm hne) ((h.node_start b hb).trans hhalf.le) (h.node_start c hc)
      (ListNode.chain.inj hx)
  have hin : c.base ∈ b.points := hbase ▸ points_half_subset hj (b.half j).base_mem
  rcases eq_or_ne c b with rfl | hne
  · exact absurd hbase hhalf.ne
  · exact Set.disjoint_left.mp (h.disjoint hc hb hne) c.base_mem hin

/-- Taking the first block of a list and splitting it. -/
theorem FreeLists.takesFirst (h : FreeLists s zone nodes F) (hb : b ∈ F) (hc : b.order < maxOrder)
    {rest : List ListNode} (hfirst : nodes b.order = .chain (headPage s.startPfn b) :: rest)
    (hk : k ≤ b.order) :
    TakesFirst s ((allocPagesNodeSplit zone (b.order - k) (s.remove (.chain (headPage s.startPfn b)))
      (headPage s.startPfn b) b.order).setOrder (headPage s.startPfn b) (-(k : ℤ) - 1)) zone k b nodes
      rest := by
  have hlow := h.node_start b hb
  have hmem : ListNode.chain (headPage s.startPfn b) ∈ nodes b.order := by simp [hfirst]
  have hrem := h.rings.listRemove hc hmem
  rw [hfirst, List.erase_cons_head] at hrem
  have hnew : ∀ j < b.order, ∀ i < maxOrder, ListNode.chain (headPage s.startPfn (b.half j)) ∉
      ListNode.freeArea zone i :: Function.update nodes b.order rest i := by
    intro j hj i hi hin
    refine h.half_notMem hb hj hi ?_
    rcases eq_or_ne i b.order with rfl | hne
    · rw [Function.update_self] at hin
      rw [hfirst]
      exact List.cons_subset_cons _ (List.subset_cons_self _ _) hin
    · rwa [Function.update_of_ne hne] at hin
  obtain ⟨s₁, hs₁⟩ : ∃ s₁, allocPagesNodeSplit zone (b.order - k)
    (s.remove (.chain (headPage s.startPfn b))) (headPage s.startPfn b) b.order = s₁ := ⟨_, rfl⟩
  have hsplit : FreesHalves (s.remove (.chain (headPage s.startPfn b))) s₁ zone s.startPfn b k b.order
      (Function.update nodes b.order rest) :=
    hs₁ ▸ allocPagesNodeSplit_frees rfl hlow hrem hnew le_rfl hc (by omega)
  rw [hs₁]
  have hother : ∀ p, p ≠ headPage s.startPfn b →
      (∀ j, k ≤ j → j < b.order → p ≠ headPage s.startPfn (b.half j)) →
      (s₁.setOrder (headPage s.startPfn b) (-(k : ℤ) - 1)).pages p = s.pages p := by
    intro p hp hh
    rw [setOrder_pages_of_ne hp, hsplit.other_pages p hh, remove_pages]
  have hhead_ne : ∀ j, j < b.order → headPage s.startPfn (b.half j) ≠ headPage s.startPfn b := by
    intro j hj
    have hhalf := base_lt_base_half hj
    exact headPage_ne hhalf.ne' (hlow.trans hhalf.le) hlow
  constructor
  · exact hsplit.zones
  · exact hsplit.node_start
  · have hlists : withHalves (Function.update nodes b.order rest) s.startPfn b k b.order =
        Function.update (withHalves nodes s.startPfn b k b.order) b.order rest := by
      funext j
      rcases eq_or_ne j b.order with rfl | hne
      · simp [withHalves]
      · simp [withHalves, Function.update_of_ne hne]
    exact hlists ▸ hsplit.lists
  · have hpage := hsplit.other_pages (headPage s.startPfn b) fun j _ hj => (hhead_ne j hj).symm
    rw [remove_pages] at hpage
    rw [← hpage]
    exact Function.update_self ..
  · intro j hkj hj
    rw [setOrder_pages_of_ne (hhead_ne j hj), hsplit.halves j hkj hj, remove_pages]
  · exact hother
  · intro p hp
    refine hother p ?_ fun j _ hj => ?_
    · rintro rfl
      refine hp ?_
      rw [pageToPfn, headPage, Nat.add_sub_cancel' hlow]
      exact b.base_mem
    · rintro rfl
      refine hp ?_
      rw [pageToPfn, headPage, Nat.add_sub_cancel' (hlow.trans (base_lt_base_half hj).le)]
      exact points_half_subset hj (b.half j).base_mem
  · intro x hx hxh
    have hone := (h.rings.ring b.order hc).listRemove_of_notMem hmem (hx b.order hk le_rfl)
    have hmore := hsplit.other_links x fun j h₁ h₂ => by
      rw [Function.update_of_ne h₂.ne]
      exact ⟨hx j h₁ h₂.le, hxh j h₁ h₂⟩
    exact ⟨hmore.1.trans hone.1, hmore.2.trans hone.2⟩

/-- **The exact effect of `alloc_pages_node`.** When the lists from the requested order on are empty,
it returns null and changes nothing. Otherwise it takes the first block of the first list that is not
empty and splits it; the block it returns and the halves it frees tile the block it takes. -/
theorem allocPagesNode_effect (h : FreeLists s zone nodes F) (hk : k < maxOrder) :
    ((∀ j, k ≤ j → j < maxOrder → nodes j = []) ∧ allocPagesNode s k zone = some (s, none)) ∨
    ∃ b ∈ F, ∃ rest s', k ≤ b.order ∧ b.order < maxOrder ∧
      (∀ j, k ≤ j → j < b.order → nodes j = []) ∧
      nodes b.order = .chain (headPage s.startPfn b) :: rest ∧
      allocPagesNode s k zone = some (s', some (headPage s.startPfn b)) ∧
      TakesFirst s s' zone k b nodes rest ∧ (b.front k).base = b.base ∧
      b.points = (b.front k).points ∪ ⋃ j ∈ Set.Ico k b.order, (b.half j).points ∧
      (∀ j, k ≤ j → j < b.order → Disjoint (b.front k).points (b.half j).points) ∧
      ∀ i j, i < j → j < b.order → Disjoint (b.half i).points (b.half j).points := by
  have hsum : k + (maxOrder - k) = maxOrder := by omega
  obtain ⟨hge, hle, hbelow, hfound⟩ := allocPagesNodeScan_spec h.rings hsum
  rw [allocPagesNode]
  generalize allocPagesNodeScan s zone (maxOrder - k) k = corder at *
  by_cases hnone : corder ≥ maxOrder
  · refine Or.inl ⟨?_, by rw [if_pos hnone]⟩
    intro j hkj hj
    exact hbelow j hkj (by omega)
  have hc : corder < maxOrder := by omega
  obtain ⟨x, rest, hnodes⟩ := List.exists_cons_of_ne_nil (hfound hc)
  obtain ⟨b, hb, rfl, rfl⟩ := (h.mem_nodes corder hc x).mp (by simp [hnodes])
  have hnext : s.links.next (.freeArea zone b.order) = .chain (headPage s.startPfn b) :=
    h.rings.next_head hc hnodes
  refine Or.inr ⟨b, hb, rest, _, hge, hc, hbelow, hnodes, ?_, h.takesFirst hb hc hnodes hge,
    base_front hge, points_eq_front_union_halves hge, fun j => disjoint_front_half,
    fun i j => disjoint_half_half⟩
  rw [if_neg hnone, hnext, containerOf, Option.bind_eq_bind, Option.bind_some]

/-- A zone with one free block of two pages: a page is taken, and the other becomes free. -/
theorem allocPagesNode_effect_pair : ∃ s s' nodes, FreeLists s .normal nodes {⟨1, 1⟩} ∧
    0 < maxOrder ∧ allocPagesNode s 0 .normal = some (s', some 2) ∧
    TakesFirst s s' .normal 0 ⟨1, 1⟩ nodes [] := by
  have hnone := holds_initZoneLists ⟨fun _ => ⟨0, 0⟩, fun _ => ⟨.normal, 0⟩, 0, ⟨id, id⟩⟩ .normal rfl
    (le_refl 0) (by decide)
  have hone := hnone.insert (b := ⟨1, 1⟩) (by simp) (by simp) (by decide)
  rw [insert_empty_eq] at hone
  have h := hone.freeLists (Set.pairwiseDisjoint_singleton _ _)
  have hnodes : Function.update (fun _ => []) 1 ([] ++ [ListNode.chain 2]) 1 = [.chain 2] := by simp
  rcases allocPagesNode_effect h (k := 0) (by decide) with ⟨hempty, -⟩ | hsome
  · have hnil := hempty 1 (by decide) (by decide)
    rw [show (⟨1, 1⟩ : Block).base = 2 from rfl, hnodes] at hnil
    cases hnil
  · obtain ⟨b, rfl, rest, s', -, -, -, hfirst, hret, htakes, -⟩ := hsome
    obtain rfl : rest = [] := by
      have := hfirst.symm.trans hnodes
      exact (List.cons.inj this).2
    rw [hone.node_start] at hret
    exact ⟨_, s', _, h, by decide, hret, htakes⟩

end Auos
