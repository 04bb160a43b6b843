import Mathlib.Order.BourbakiWitt
import Auos.PageAlloc.Node
import Mathlib.Algebra.BigOperators.Group.Finset.Basic
import Mathlib.Data.Set.Card
import Mathlib.Data.Set.Finite.Lattice
import Mathlib.Order.Interval.Finset.Nat

/-!
# The statistics of the page allocator

`stat` of the kernel's `start.c`: for each zone its bounds, and for each order how many blocks its free
list holds, counted by following `next` around the list. The loop ends because the list is a ring, and
what it counts are the free blocks of the order. Since the blocks do not overlap, the numbers add up:
with the blocks that are out they account for every frame.

## Main definitions

* `zoneStat`, `stat` — the calls of `debug`, with their arguments
* `freeCount` — the number of free blocks of one order

## Main results

* `zoneStat_eq` — what `zone_stat` prints
* `NodeRun.stat_accounts` — in every reached state the numbers account for all frames
-/

namespace Auos

open Block

/-- A call of `debug` in `zone_stat`. -/
inductive StatLine
  /-- `"start pfn = %d, end pfn = %d\n"`. -/
  | bounds (startPfn endPfn : ℕ)
  /-- `"There are %d blocks of order %d\n"`. -/
  | blocks (total order : ℕ)
  deriving DecidableEq

/-- The inner loop of `zone_stat`, cut off after `fuel` rounds. -/
def zoneStatCount (s : PageListData) (head : ListNode) : ℕ → ListNode → ℕ → Option ℕ
  | 0, _, _ => none
  | fuel + 1, curr, total =>
    if curr ≠ head then zoneStatCount s head fuel (s.links.next curr) (wadd total 1) else some total

/-- The outer loop of `zone_stat`, with the number of iterations left. -/
def zoneStatOrders (s : PageListData) (zone : ZoneType) (fuel : ℕ) : ℕ → ℕ → Option (List StatLine)
  | 0, _ => some []
  | n + 1, i => do
    let head := ListNode.freeArea zone i
    let total ← zoneStatCount s head fuel (s.links.next head) 0
    let lines ← zoneStatOrders s zone fuel n (i + 1)
    some (if total ≠ 0 then .blocks total i :: lines else lines)

/-- `zone_stat`. -/
def zoneStat (s : PageListData) (zone : ZoneType) (fuel : ℕ) : Option (List StatLine) := do
  let lines ← zoneStatOrders s zone fuel maxOrder 0
  some (.bounds (s.zones zone).startPfn (s.zones zone).endPfn :: lines)

/-- `stat`. -/
def stat (s : PageListData) (fuel : ℕ) : Option (List StatLine) := do
  let normal ← zoneStat s .normal fuel
  let high ← zoneStat s .high fuel
  some (normal ++ high)

/-- How many free blocks of an order a zone has. -/
noncomputable def freeCount (s : PageListData) (zone : ZoneType) (k : ℕ) : ℕ :=
  {a ∈ freeBlocks s zone | a.2 = k}.ncard

/-- The lines for the orders from `i` on that have a free block. -/
noncomputable def orderLines (s : PageListData) (zone : ZoneType) (i n : ℕ) : List StatLine :=
  ((List.range' i n).filter fun k => freeCount s zone k ≠ 0).map fun k =>
    .blocks (freeCount s zone k) k

variable {s s₀ node : PageListData} {zone : ZoneType} {startPfn endPfn fuel k n i top : ℕ}
  {nodes : ℕ → List ListNode} {F L : Set Block} {freed : Set ℕ} {out : List (ℕ × ℕ)}
  {blocks : List Block} {p : Pool maxOrder (Set.Ico startPfn endPfn)}

/-! ### Counting frames -/

theorem ncard_frames (a : ℕ × ℕ) : (frames a).ncard = 2 ^ a.2 := by
  rw [frames, ← Finset.coe_Ico, Set.ncard_coe_finset, Nat.card_Ico, Nat.add_sub_cancel_left]

theorem finite_frames (a : ℕ × ℕ) : (frames a).Finite := Set.finite_Ico _ _

/-- Disjoint blocks, order by order. -/
theorem ncard_biUnion_frames {B : Set (ℕ × ℕ)} (hB : B.Finite) (hdisj : B.PairwiseDisjoint frames)
    (htop : ∀ a ∈ B, a.2 < top) :
    (⋃ a ∈ B, frames a).ncard = ∑ k ∈ Finset.range top, {a ∈ B | a.2 = k}.ncard * 2 ^ k := by
  lift B to Finset (ℕ × ℕ) using hB
  have hico : (⋃ a ∈ (B : Set (ℕ × ℕ)), frames a) =
      ((B.biUnion fun a => Finset.Ico a.1 (a.1 + 2 ^ a.2) : Finset ℕ) : Set ℕ) := by
    rw [Finset.coe_biUnion]
    simp only [Finset.coe_Ico, frames]
  have hpair : (B : Set (ℕ × ℕ)).PairwiseDisjoint fun a => Finset.Ico a.1 (a.1 + 2 ^ a.2) := by
    intro a ha b hb hne
    have := hdisj ha hb hne
    simp only [Function.onFun, frames] at this ⊢
    rwa [← Finset.disjoint_coe, Finset.coe_Ico, Finset.coe_Ico]
  rw [hico, Set.ncard_coe_finset, Finset.card_biUnion hpair]
  calc ∑ a ∈ B, (Finset.Ico a.1 (a.1 + 2 ^ a.2)).card
      = ∑ a ∈ B, 2 ^ a.2 := by simp
    _ = ∑ k ∈ Finset.range top, ∑ a ∈ B with a.2 = k, 2 ^ a.2 :=
        (Finset.sum_fiberwise_of_maps_to (fun a ha => Finset.mem_range.mpr (htop a ha)) _).symm
    _ = ∑ k ∈ Finset.range top, {a ∈ (B : Set (ℕ × ℕ)) | a.2 = k}.ncard * 2 ^ k := by
        refine Finset.sum_congr rfl fun k _ => ?_
        have hfilter : {a ∈ (B : Set (ℕ × ℕ)) | a.2 = k} = ((B.filter fun a => a.2 = k : Finset _) :
            Set (ℕ × ℕ)) := by
          rw [Finset.coe_filter]
          rfl
        rw [hfilter, Set.ncard_coe_finset]
        exact Finset.sum_const_nat fun a ha => by rw [(Finset.mem_filter.mp ha).2]

/-- Disjoint blocks in a list. -/
theorem ncard_biUnion_frames_list (h : out.Pairwise fun a b => Disjoint (frames a) (frames b)) :
    (⋃ a ∈ out, frames a).ncard = (out.map fun a => 2 ^ a.2).sum := by
  induction out with
  | nil => simp
  | cons a out ih =>
    obtain ⟨ha, hout⟩ := List.pairwise_cons.mp h
    have hfin : (⋃ b ∈ out, frames b).Finite :=
      Set.Finite.biUnion (List.finite_toSet out) fun b _ => finite_frames b
    have hdisj : Disjoint (frames a) (⋃ b ∈ out, frames b) := by
      simp only [Set.disjoint_iUnion_right]
      exact ha
    have hunion : (⋃ b ∈ a :: out, frames b) = frames a ∪ ⋃ b ∈ out, frames b := by
      ext q
      simp
    rw [hunion, Set.ncard_union_eq hdisj (finite_frames a) hfin, ncard_frames, ih hout,
      List.map_cons, List.sum_cons]

/-! ### The loops -/

/-- Following a path to the head counts its inner nodes. -/
theorem zoneStatCount_path {head curr : ListNode} {xs : List ListNode} {total : ℕ}
    (hpath : s.links.Path curr xs head) (hcurr : curr ≠ head) (hxs : head ∉ xs)
    (hfuel : xs.length + 1 < fuel) (htotal : total + xs.length + 1 < 2 ^ 32) :
    zoneStatCount s head fuel curr total = some (total + xs.length + 1) := by
  induction xs generalizing curr total fuel with
  | nil =>
    obtain ⟨fuel, rfl⟩ : ∃ f, fuel = f + 2 := ⟨fuel - 2, by simp at hfuel; omega⟩
    rw [List.length_nil] at htotal ⊢
    rw [zoneStatCount, if_pos hcurr, hpath.1, zoneStatCount, if_neg (not_not.mpr rfl),
      wadd_of_lt (by omega)]
  | cons x xs ih =>
    obtain ⟨fuel, rfl⟩ : ∃ f, fuel = f + 1 := ⟨fuel - 1, by omega⟩
    obtain ⟨hx, hrest⟩ := not_or.mp (mt List.mem_cons.mpr hxs)
    rw [List.length_cons] at hfuel htotal ⊢
    rw [zoneStatCount, if_pos hcurr, hpath.1.1, wadd_of_lt (by omega),
      ih hpath.2 (Ne.symm hx) hrest (by omega) (by omega)]
    congr 1
    omega

/-- The count of a list is its length. -/
theorem zoneStatCount_ring {head : ListNode} {xs : List ListNode} (h : s.links.IsRing head xs)
    (hfuel : xs.length < fuel) (hlen : xs.length < 2 ^ 32) :
    zoneStatCount s head fuel (s.links.next head) 0 = some xs.length := by
  obtain ⟨fuel, rfl⟩ : ∃ f, fuel = f + 1 := ⟨fuel - 1, by omega⟩
  cases xs with
  | nil => rw [h.next_eq_iff.mpr rfl, zoneStatCount, if_neg (not_not.mpr rfl), List.length_nil]
  | cons x xs =>
    obtain ⟨hhead, -⟩ := List.nodup_cons.mp h.2
    obtain ⟨hx, hrest⟩ := not_or.mp (mt List.mem_cons.mpr hhead)
    rw [List.length_cons] at hfuel hlen ⊢
    rw [h.next_head, zoneStatCount_path h.1.2 (Ne.symm hx) hrest (by omega) (by omega)]
    congr 1
    omega

namespace Holds

/-- The list of an order is as long as there are free blocks of the order. -/
theorem length_nodes (h : Holds s zone startPfn endPfn nodes F L) (hF : ∀ b ∈ F, b.order < maxOrder)
    (hk : k < maxOrder) : (nodes k).length = freeCount s zone k := by
  have hnodup : (nodes k).Nodup := (List.nodup_cons.mp (h.rings.ring k hk).2).2
  have hinj : Function.Injective fun a : ℕ × ℕ => (ListNode.chain a.1, a.2) := by
    rintro ⟨a, i⟩ ⟨b, j⟩ hab
    simp only [Prod.mk.injEq, ListNode.chain.injEq] at hab
    rw [hab.1, hab.2]
  have himage : (fun a : ℕ × ℕ => (ListNode.chain a.1, a.2)) '' {a ∈ freeBlocks s zone | a.2 = k} =
      (((nodes k).toFinset.map ⟨fun x => (x, k), fun _ _ hab => (Prod.ext_iff.mp hab).1⟩ :
        Finset _) : Set (ListNode × ℕ)) := by
    ext ⟨x, j⟩
    rw [h.freeBlocks_eq hF]
    simp only [Set.mem_image, Set.mem_ofPred_eq, Finset.coe_map, List.coe_toFinset,
      h.mem_nodes k hk]
    constructor
    · rintro ⟨_, ⟨⟨b, hb, rfl⟩, hbk⟩, hx⟩
      cases hx
      exact ⟨_, ⟨b, hb, hbk, rfl⟩, by rw [← hbk]; rfl⟩
    · rintro ⟨_, ⟨b, hb, hbk, rfl⟩, hx⟩
      cases hx
      exact ⟨b.toPair, ⟨⟨b, hb, rfl⟩, hbk⟩, by rw [← hbk]; rfl⟩
  rw [freeCount, ← Set.ncard_image_of_injective _ hinj, himage, Set.ncard_coe_finset,
    Finset.card_map, List.toFinset_card_of_nodup hnodup]

/-- A list is no longer than the zone. -/
theorem length_nodes_le (h : Holds s zone startPfn endPfn nodes F L)
    (hF : ∀ b ∈ F, b.points ⊆ Set.Ico startPfn endPfn) (hk : k < maxOrder) :
    (nodes k).length ≤ endPfn - startPfn := by
  have hnodup : (nodes k).Nodup := (List.nodup_cons.mp (h.rings.ring k hk).2).2
  have hsub : (nodes k).toFinset ⊆ (Finset.Ico startPfn endPfn).image ListNode.chain := by
    intro x hx
    obtain ⟨b, hb, -, rfl⟩ := (h.mem_nodes k hk x).mp (List.mem_toFinset.mp hx)
    exact Finset.mem_image_of_mem _ (Finset.mem_Ico.mpr (hF b hb b.base_mem))
  calc (nodes k).length = (nodes k).toFinset.card := (List.toFinset_card_of_nodup hnodup).symm
    _ ≤ ((Finset.Ico startPfn endPfn).image ListNode.chain).card := Finset.card_le_card hsub
    _ ≤ (Finset.Ico startPfn endPfn).card := Finset.card_image_le
    _ = endPfn - startPfn := Nat.card_Ico _ _

end Holds

theorem orderLines_succ (s : PageListData) (zone : ZoneType) (i n : ℕ) :
    orderLines s zone i (n + 1) =
      if freeCount s zone i ≠ 0 then .blocks (freeCount s zone i) i :: orderLines s zone (i + 1) n
      else orderLines s zone (i + 1) n := by
  rw [orderLines, List.range'_succ, List.filter_cons]
  simp only [decide_eq_true_eq]
  split_ifs <;> rfl

namespace Accounts

theorem points_subset_zone (h : Accounts s zone freed out p blocks nodes) :
    ∀ b ∈ p.free, b.points ⊆ Set.Ico startPfn endPfn :=
  fun _ hb => (points_subset_cover hb).trans (h.cover_free_subset.trans h.freed_subset)

/-- The outer loop prints a line for every order with a free block. -/
theorem zoneStatOrders_eq (h : Accounts s zone freed out p blocks nodes)
    (hfuel : endPfn - startPfn < fuel) (hend : endPfn - startPfn < 2 ^ 32) (hn : i + n ≤ maxOrder) :
    zoneStatOrders s zone fuel n i = some (orderLines s zone i n) := by
  induction n generalizing i with
  | zero => rfl
  | succ n ih =>
    have hk : i < maxOrder := by omega
    have hle := h.holds.length_nodes_le h.points_subset_zone hk
    have hcount := zoneStatCount_ring (h.holds.rings.ring i hk) (show (nodes i).length < fuel by omega)
      (by omega)
    rw [h.holds.length_nodes p.buddy.order_lt hk] at hcount
    rw [zoneStatOrders, Option.bind_eq_bind, hcount, Option.bind_some, ih (by omega),
      Option.bind_eq_bind, Option.bind_some, orderLines_succ]

/-- **What `zone_stat` prints**: the bounds, and the number of free blocks of every order that has
one. -/
theorem zoneStat_eq (h : Accounts s zone freed out p blocks nodes)
    (hfuel : endPfn - startPfn < fuel) (hend : endPfn - startPfn < 2 ^ 32) :
    zoneStat s zone fuel =
      some (.bounds startPfn endPfn :: orderLines s zone 0 maxOrder) := by
  rw [zoneStat, h.zoneStatOrders_eq hfuel hend (by decide), Option.bind_eq_bind, Option.bind_some,
    h.holds.zone_eq]

/-- The numbers of `zone_stat` add up to the free frames. -/
theorem sum_freeCount (h : Accounts s zone freed out p blocks nodes) :
    ∑ k ∈ Finset.range maxOrder, freeCount s zone k * 2 ^ k = (freeFrames s zone).ncard := by
  have hfin : (freeBlocks s zone).Finite := by
    refine Set.Finite.subset (((Set.finite_Ico startPfn endPfn).prod
      (Set.finite_Iio maxOrder))) ?_
    rw [h.freeBlocks_eq]
    rintro _ ⟨b, hb, rfl⟩
    exact ⟨h.points_subset_zone b hb b.base_mem, p.buddy.order_lt b hb⟩
  have hdisj : (freeBlocks s zone).PairwiseDisjoint frames := by
    rw [h.freeBlocks_eq]
    rintro _ ⟨b, hb, rfl⟩ _ ⟨c, hc, rfl⟩ hne
    simp only [Function.onFun, frames_toPair]
    exact p.buddy.disjoint hb hc fun e => hne (by rw [e])
  have htop : ∀ a ∈ freeBlocks s zone, a.2 < maxOrder := fun _ ha => ha.1
  rw [freeFrames, ncard_biUnion_frames hfin hdisj htop]
  rfl

/-- What is out. -/
theorem sum_out (h : Accounts s zone freed out p blocks nodes) :
    (freeFrames s zone).ncard + (out.map fun a => 2 ^ a.2).sum = freed.ncard := by
  have hpair : out.Pairwise fun a c => Disjoint (frames a) (frames c) := by
    rw [h.out_eq, List.pairwise_map]
    refine h.nodup.imp_of_mem fun hb hc hne => ?_
    rw [frames_toPair, frames_toPair]
    exact p.live_disjoint (h.mem_live hb) (h.mem_live hc) hne
  have hfin : freed.Finite := (Set.finite_Ico startPfn endPfn).subset h.freed_subset
  have hunion := h.cover_union_cover
  rw [← ncard_biUnion_frames_list hpair, h.biUnion_frames_out, h.freeFrames_eq]
  have hdisj : Disjoint (cover p.free) (cover {b | b ∈ blocks}) :=
    p.apart.symm.mono_right (cover_mono fun _ hb => h.mem_live hb)
  rw [← Set.ncard_union_eq hdisj (hfin.subset (hunion ▸ Set.subset_union_left))
    (hfin.subset (hunion ▸ Set.subset_union_right)), hunion]

end Accounts

/-! ### Runs -/

/-- **The statistics account for every frame.** In every state a run reaches, `stat` returns. It
prints, zone by zone, the bounds and for every order with a free block the number of free blocks. The
numbers for `ZONE_NORMAL` and the outstanding allocations add up to all of its frames, with or without
frame `0`; those for `ZONE_HIGH` to all of its frames. -/
theorem NodeRun.stat_accounts {mem : Memory} {mbi : MultibootInfo}
    {fuel' kernelBegin kernelEnd pages : ℕ} {b : BootMem} {st : SetupMemory}
    (hsetup : setupMemory mem mbi fuel' kernelBegin kernelEnd b node = some (pages, st, s₀))
    (h : NodeRun s₀ out s) (hfuel : st.pageFrameCount < fuel) :
    stat s fuel = some
      (.bounds 0 st.lowmemPageFrameCount :: orderLines s .normal 0 maxOrder ++
        .bounds st.lowmemPageFrameCount st.pageFrameCount :: orderLines s .high 0 maxOrder) ∧
    (∑ k ∈ Finset.range maxOrder, freeCount s .normal k * 2 ^ k) + (out.map fun a => 2 ^ a.2).sum ∈
      Set.Icc (st.lowmemPageFrameCount - 1) st.lowmemPageFrameCount ∧
    ∑ k ∈ Finset.range maxOrder, freeCount s .high k * 2 ^ k =
      st.pageFrameCount - st.lowmemPageFrameCount := by
  obtain ⟨hle, hlt, freed, hall, h₀⟩ := setupMemory_holds hsetup
  have hrun := h.holds h₀
  obtain ⟨blocks, nodes, p, hs⟩ := hrun.normal
  obtain ⟨nodes', p', hs'⟩ := hrun.high
  refine ⟨?_, ?_, ?_⟩
  · rw [stat, hs.zoneStat_eq (by omega) (by omega), hs'.zoneStat_eq (by omega) (by omega)]
    rfl
  · rw [hs.sum_freeCount, hs.sum_out]
    have hlow : Set.Ioo 0 st.lowmemPageFrameCount ⊆ freed :=
      fun q hq => hall q hq.2 (Nat.pos_iff_ne_zero.mp hq.1)
    have hfin := (Set.finite_Ico 0 st.lowmemPageFrameCount).subset hs.freed_subset
    have hge := Set.ncard_le_ncard hlow hfin
    have hsub := Set.ncard_le_ncard hs.freed_subset (Set.finite_Ico _ _)
    rw [← Finset.coe_Ioo, Set.ncard_coe_finset, Nat.card_Ioo] at hge
    rw [← Finset.coe_Ico, Set.ncard_coe_finset, Nat.card_Ico] at hsub
    exact ⟨by omega, by omega⟩
  · have hsum := hs'.sum_out
    rw [← Finset.coe_Ico, Set.ncard_coe_finset, Nat.card_Ico] at hsum
    rw [hs'.sum_freeCount, ← hsum]
    simp

theorem NodeRun.stat_accounts_sixFrameMap : ∃ pages st s₀ s page,
    setupMemory sixFrameMap ⟨24, 0x9000⟩ 2 0xC0002000 0xC0003000 .empty blankNode =
      some (pages, st, s₀) ∧ NodeRun s₀ [(page, 0)] s ∧
    stat s (st.pageFrameCount + 1) = some
      (.bounds 0 st.lowmemPageFrameCount :: orderLines s .normal 0 maxOrder ++
        .bounds st.lowmemPageFrameCount st.pageFrameCount :: orderLines s .high 0 maxOrder) ∧
    (∑ k ∈ Finset.range maxOrder, freeCount s .normal k * 2 ^ k) +
        ([(page, 0)].map fun a => 2 ^ a.2).sum ∈
      Set.Icc (st.lowmemPageFrameCount - 1) st.lowmemPageFrameCount ∧
    ∑ k ∈ Finset.range maxOrder, freeCount s .high k * 2 ^ k =
      st.pageFrameCount - st.lowmemPageFrameCount := by
  obtain ⟨pages, st, s₀, hsetup, hsix⟩ := setupMemory_sixFrameMap
  obtain ⟨-, -, freed, hall, h₀⟩ := setupMemory_holds hsetup
  obtain ⟨s, page, hrun⟩ := exists_nodeRun h₀ (by omega) hall
  exact ⟨pages, st, s₀, s, page, hsetup, hrun, hrun.stat_accounts hsetup (Nat.lt_succ_self _)⟩

end Auos
