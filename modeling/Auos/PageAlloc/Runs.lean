import Auos.PageAlloc.Init
import Mathlib.Data.Set.Lattice.Image

/-!
# Runs of the page allocator

A zone from the state `init_zone` builds: first single frames are freed, then blocks are allocated
and freed in any order. A run carries the set of frames freed at the start and the list of outstanding
allocations. The invariant `Accounts` says that the zone holds a pool whose live blocks are the
outstanding allocations and the single frames that were never freed.

Everything a run guarantees is then read off the pool: the blocks are disjoint and cover the freed
frames, and the free blocks are the maximal blocks of the free frames, so they depend on nothing but
which frames are out.

## Main definitions

* `FreshRun`, `ZoneRun` — the two phases of a run
* `Accounts` — the invariant

## Main results

* `ZoneRun.accounts` — the invariant holds in every reached state
* `ZoneRun.conserves` — no frame is lost and none is handed out twice
* `ZoneRun.coalesced` — the free blocks are a function of the free frames
* `ZoneRun.allocPagesNode_none_iff` — allocation fails only when it must
-/

namespace Auos

open Block

/-- The frames of a block given by its first frame and its order. -/
def frames (a : ℕ × ℕ) : Set ℕ := Set.Ico a.1 (a.1 + 2 ^ a.2)

/-- The frames of the blocks on the free lists. -/
def freeFrames (s : PageListData) (zone : ZoneType) : Set ℕ := ⋃ a ∈ freeBlocks s zone, frames a

/-- The first phase of a run: from the state `init_zone` builds before its last loop, distinct frames
of the zone are freed. -/
inductive FreshRun (node : PageListData) (zone : ZoneType) (startPfn endPfn : ℕ) :
    Set ℕ → PageListData → Prop
  | init : FreshRun node zone startPfn endPfn ∅ (initZoneLists node zone startPfn endPfn)
  | free {freed : Set ℕ} {s s' : PageListData} {pfn : ℕ} :
      FreshRun node zone startPfn endPfn freed s → startPfn ≤ pfn → pfn < endPfn → pfn ∉ freed →
      freePages s (pfnToPage s pfn) 0 = some s' →
      FreshRun node zone startPfn endPfn (insert pfn freed) s'

/-- The second phase, with the frames freed in the first one and the outstanding allocations, as pairs
of page and order. -/
inductive ZoneRun (node : PageListData) (zone : ZoneType) (startPfn endPfn : ℕ) :
    Set ℕ → List (ℕ × ℕ) → PageListData → Prop
  | init {freed : Set ℕ} {s : PageListData} :
      FreshRun node zone startPfn endPfn freed s → ZoneRun node zone startPfn endPfn freed [] s
  | alloc {freed : Set ℕ} {out : List (ℕ × ℕ)} {s s' : PageListData} {order page : ℕ} :
      ZoneRun node zone startPfn endPfn freed out s → order < maxOrder →
      allocPagesNode s order zone = some (s', some page) →
      ZoneRun node zone startPfn endPfn freed ((page, order) :: out) s'
  | allocFail {freed : Set ℕ} {out : List (ℕ × ℕ)} {s s' : PageListData} {order : ℕ} :
      ZoneRun node zone startPfn endPfn freed out s → order < maxOrder →
      allocPagesNode s order zone = some (s', none) →
      ZoneRun node zone startPfn endPfn freed out s'
  | free {freed : Set ℕ} {out : List (ℕ × ℕ)} {s s' : PageListData} {page order : ℕ} :
      ZoneRun node zone startPfn endPfn freed out s → (page, order) ∈ out →
      freePages s page order = some s' →
      ZoneRun node zone startPfn endPfn freed (out.erase (page, order)) s'

variable {node s s₀ : PageListData} {zone : ZoneType} {startPfn endPfn pfn page order : ℕ}
  {freed : Set ℕ} {out : List (ℕ × ℕ)} {nodes : ℕ → List ListNode} {blocks : List Block} {b : Block}
  {p : Pool maxOrder (Set.Ico startPfn endPfn)}

theorem frames_toPair (b : Block) : frames b.toPair = b.points := by
  ext n
  rw [mem_points_iff]
  rfl

/-! ### The invariant -/

/-- The zone holds a pool whose live blocks are the outstanding allocations and the frames that were
never freed. -/
structure Accounts (s : PageListData) (zone : ZoneType) (freed : Set ℕ) (out : List (ℕ × ℕ))
    (p : Pool maxOrder (Set.Ico startPfn endPfn)) (blocks : List Block)
    (nodes : ℕ → List ListNode) : Prop where
  holds : Holds s zone startPfn endPfn nodes p.free p.live
  out_eq : out = blocks.map toPair
  nodup : blocks.Nodup
  live_eq : p.live = {b | b ∈ blocks} ∪ single '' (Set.Ico startPfn endPfn \ freed)
  freed_subset : freed ⊆ Set.Ico startPfn endPfn
  points_subset : ∀ b ∈ blocks, b.points ⊆ freed
  order_lt : ∀ b ∈ blocks, b.order < maxOrder

namespace Accounts

theorem mem_live (h : Accounts s zone freed out p blocks nodes) (hb : b ∈ blocks) : b ∈ p.live :=
  h.live_eq ▸ Set.mem_union_left _ hb

theorem cover_live (h : Accounts s zone freed out p blocks nodes) :
    cover p.live = cover {b | b ∈ blocks} ∪ Set.Ico startPfn endPfn \ freed := by
  rw [h.live_eq, cover_union, cover_single_image]

/-- Free frames were freed at the start. -/
theorem cover_free_subset (h : Accounts s zone freed out p blocks nodes) : cover p.free ⊆ freed := by
  intro n hn
  by_contra hnf
  have hzone : n ∈ Set.Ico startPfn endPfn := p.cover_eq ▸ Or.inl hn
  refine Set.disjoint_right.mp p.apart hn ?_
  rw [h.cover_live]
  exact Or.inr ⟨hzone, hnf⟩

/-- Free and outstanding blocks make up the freed frames. -/
theorem cover_union_cover (h : Accounts s zone freed out p blocks nodes) :
    cover p.free ∪ cover {b | b ∈ blocks} = freed := by
  refine subset_antisymm (Set.union_subset h.cover_free_subset ?_) ?_
  · exact fun n hn => by
      obtain ⟨b, hb, hnb⟩ := mem_cover.mp hn
      exact h.points_subset b hb hnb
  · intro n hn
    have hzone := h.freed_subset hn
    rw [← p.cover_eq, h.cover_live] at hzone
    rcases hzone with hF | hB | hS
    · exact Or.inl hF
    · exact Or.inr hB
    · exact absurd hn hS.2

/-- The free frames are the freed ones that are not outstanding. -/
theorem cover_free (h : Accounts s zone freed out p blocks nodes) :
    cover p.free = freed \ cover {b | b ∈ blocks} := by
  have hdisj : Disjoint (cover p.free) (cover {b | b ∈ blocks}) :=
    p.apart.symm.mono_right (cover_mono fun _ hb => h.mem_live hb)
  rw [← h.cover_union_cover, Set.union_sdiff_right, sdiff_eq_left.mpr hdisj]

/-! ### Steps -/

/-- Freeing a frame for the first time. -/
theorem freeFrame (h : Accounts s zone freed out p blocks nodes) (hpfn : pfn ∈ Set.Ico startPfn endPfn)
    (hnew : pfn ∉ freed) :
    ∃ s' nodes', ∃ q : Pool maxOrder (Set.Ico startPfn endPfn),
      freePages s (pfnToPage s pfn) 0 = some s' ∧
        Accounts s' zone (insert pfn freed) out q blocks nodes' := by
  have hmem : single pfn ∈ p.live := h.live_eq ▸ Or.inr ⟨pfn, ⟨hpfn, hnew⟩, rfl⟩
  obtain ⟨s', nodes', q, hret, hq, hs'⟩ := freePages_spec p h.holds hmem (Nat.zero_lt_succ 10)
  rw [base_single] at hret
  refine ⟨s', nodes', q, by rw [pfnToPage_eq h.holds.node_start]; exact hret, hs', h.out_eq, h.nodup,
    ?_, Set.insert_subset hpfn h.freed_subset,
    fun b hb => (h.points_subset b hb).trans (Set.subset_insert _ _), h.order_lt⟩
  rw [hq.live_eq, h.live_eq]
  ext b
  simp only [Set.mem_sdiff, Set.mem_union, Set.mem_ofPred_eq, Set.mem_image, Set.mem_singleton_iff,
    Set.mem_insert_iff, not_or]
  constructor
  · rintro ⟨hb | ⟨n, ⟨hn, hnf⟩, rfl⟩, hne⟩
    · exact Or.inl hb
    · exact Or.inr ⟨n, ⟨hn, fun e => hne (by rw [e]), hnf⟩, rfl⟩
  · rintro (hb | ⟨n, ⟨hn, hne, hnf⟩, rfl⟩)
    · refine ⟨Or.inl hb, fun e => hnew (h.points_subset b hb ?_)⟩
      rw [e, points_single]
      rfl
    · exact ⟨Or.inr ⟨n, ⟨hn, hnf⟩, rfl⟩, fun e => hne (single_injective e)⟩

/-- Freeing an outstanding allocation. -/
theorem free (h : Accounts s zone freed out p blocks nodes) (hb : b ∈ blocks) :
    ∃ s' nodes', ∃ q : Pool maxOrder (Set.Ico startPfn endPfn),
      freePages s b.base b.order = some s' ∧
        Accounts s' zone freed (out.erase b.toPair) q (blocks.erase b) nodes' := by
  obtain ⟨s', nodes', q, hret, hq, hs'⟩ :=
    freePages_spec p h.holds (h.mem_live hb) (h.order_lt b hb)
  refine ⟨s', nodes', q, hret, hs', ?_, h.nodup.erase b, ?_, h.freed_subset,
    fun c hc => h.points_subset c (List.mem_of_mem_erase hc),
    fun c hc => h.order_lt c (List.mem_of_mem_erase hc)⟩
  · rw [h.out_eq, List.map_erase toPair_injective]
  · rw [hq.live_eq, h.live_eq]
    ext c
    simp only [Set.mem_sdiff, Set.mem_union, Set.mem_ofPred_eq, Set.mem_image,
      Set.mem_singleton_iff, h.nodup.mem_erase_iff]
    constructor
    · rintro ⟨hc | hc, hne⟩
      · exact Or.inl ⟨hne, hc⟩
      · exact Or.inr hc
    · rintro (⟨hne, hc⟩ | ⟨n, hn, rfl⟩)
      · exact ⟨Or.inl hc, hne⟩
      · refine ⟨Or.inr ⟨n, hn, rfl⟩, fun e => hn.2 (h.points_subset b hb ?_)⟩
        rw [← e, points_single]
        rfl

/-- Allocation: it fails without a change when every free block is too small, and otherwise hands out
a block. -/
theorem alloc (h : Accounts s zone freed out p blocks nodes) (hk : order < maxOrder) :
    (allocPagesNode s order zone = some (s, none) ∧ ∀ b ∈ p.free, b.order < order) ∨
    ∃ b s' nodes', ∃ q : Pool maxOrder (Set.Ico startPfn endPfn),
      allocPagesNode s order zone = some (s', some b.base) ∧ b.order = order ∧
        b.points ⊆ cover p.free ∧
        Accounts s' zone freed (b.toPair :: out) q (b :: blocks) nodes' := by
  rcases allocPagesNode_spec p h.holds hk with hnone | ⟨b, s', nodes', q, hret, hq, hs'⟩
  · exact Or.inl hnone
  · have hsub := hq.subset
    have hnew : b ∉ blocks := fun hb =>
      Set.disjoint_left.mp (p.disjoint_of_mem_live (h.mem_live hb)) b.base_mem (hsub b.base_mem)
    refine Or.inr ⟨b, s', nodes', q, hret, hq.order_eq, hsub, hs', by rw [h.out_eq]; rfl,
      List.nodup_cons.mpr ⟨hnew, h.nodup⟩, ?_, h.freed_subset, ?_, ?_⟩
    · rw [hq.live_eq, h.live_eq]
      ext c
      simp only [Set.mem_insert_iff, Set.mem_union, Set.mem_ofPred_eq, List.mem_cons, or_assoc]
    · rintro c hc
      rcases List.mem_cons.mp hc with rfl | hc
      · exact hsub.trans h.cover_free_subset
      · exact h.points_subset c hc
    · rintro c hc
      rcases List.mem_cons.mp hc with rfl | hc
      · exact hq.order_eq ▸ hk
      · exact h.order_lt c hc

end Accounts

/-- The state `init_zone` builds before its last loop. -/
theorem accounts_initZoneLists (node : PageListData) (zone : ZoneType) (h0 : node.startPfn = 0)
    (hle : startPfn ≤ endPfn) (hend : endPfn < 2 ^ 32) :
    Accounts (initZoneLists node zone startPfn endPfn) zone ∅ []
      (Pool.allLive maxOrder (Set.Ico startPfn endPfn)) [] fun _ => [] where
  holds := holds_initZoneLists node zone h0 hle hend
  out_eq := rfl
  nodup := List.nodup_nil
  live_eq := by simp [Pool.allLive]
  freed_subset := Set.empty_subset _
  points_subset := by simp
  order_lt := by simp

theorem FreshRun.accounts (h : FreshRun node zone startPfn endPfn freed s) (h0 : node.startPfn = 0)
    (hle : startPfn ≤ endPfn) (hend : endPfn < 2 ^ 32) :
    ∃ nodes, ∃ p : Pool maxOrder (Set.Ico startPfn endPfn),
      Accounts s zone freed [] p [] nodes := by
  induction h with
  | init => exact ⟨_, _, accounts_initZoneLists node zone h0 hle hend⟩
  | free _ h₁ h₂ hnew hret ih =>
    obtain ⟨nodes, p, hs⟩ := ih
    obtain ⟨s', nodes', q, hret', hs'⟩ := hs.freeFrame ⟨h₁, h₂⟩ hnew
    obtain rfl := Option.some.inj (hret.symm.trans hret')
    exact ⟨nodes', q, hs'⟩

/-- **The invariant holds in every reached state.** -/
theorem ZoneRun.accounts (h : ZoneRun node zone startPfn endPfn freed out s)
    (h0 : node.startPfn = 0) (hle : startPfn ≤ endPfn) (hend : endPfn < 2 ^ 32) :
    ∃ blocks nodes, ∃ p : Pool maxOrder (Set.Ico startPfn endPfn),
      Accounts s zone freed out p blocks nodes := by
  induction h with
  | init h =>
    obtain ⟨nodes, p, hs⟩ := h.accounts h0 hle hend
    exact ⟨[], nodes, p, hs⟩
  | alloc _ hk hret ih =>
    obtain ⟨blocks, nodes, p, hs⟩ := ih
    rcases hs.alloc hk with ⟨hnone, -⟩ | ⟨b, s', nodes', q, hsome, rfl, -, hs'⟩
    · rw [hret] at hnone
      cases hnone
    · rw [hret] at hsome
      cases hsome
      exact ⟨b :: blocks, nodes', q, hs'⟩
  | allocFail _ hk hret ih =>
    obtain ⟨blocks, nodes, p, hs⟩ := ih
    rcases hs.alloc hk with ⟨hnone, -⟩ | ⟨b, s', nodes', q, hsome, -⟩
    · rw [hret] at hnone
      cases hnone
      exact ⟨blocks, nodes, p, hs⟩
    · rw [hret] at hsome
      cases hsome
  | free _ hmem hret ih =>
    obtain ⟨blocks, nodes, p, hs⟩ := ih
    rw [hs.out_eq] at hmem
    obtain ⟨b, hb, hpair⟩ := List.mem_map.mp hmem
    cases hpair
    obtain ⟨s', nodes', q, hret', hs'⟩ := hs.free hb
    obtain rfl := Option.some.inj (hret.symm.trans hret')
    exact ⟨blocks.erase b, nodes', q, hs'⟩

/-! ### Reading a state -/

theorem Holds.freeFrames_eq {F L : Set Block} (h : Holds s zone startPfn endPfn nodes F L)
    (hF : ∀ b ∈ F, b.order < maxOrder) : freeFrames s zone = cover F := by
  rw [freeFrames, h.freeBlocks_eq hF, Set.biUnion_image]
  exact Set.iUnion₂_congr fun b _ => frames_toPair b

namespace Accounts

theorem freeBlocks_eq (h : Accounts s zone freed out p blocks nodes) :
    freeBlocks s zone = toPair '' p.free :=
  h.holds.freeBlocks_eq p.buddy.order_lt

theorem freeFrames_eq (h : Accounts s zone freed out p blocks nodes) :
    freeFrames s zone = cover p.free :=
  h.holds.freeFrames_eq p.buddy.order_lt

theorem biUnion_frames_out (h : Accounts s zone freed out p blocks nodes) :
    ⋃ a ∈ out, frames a = cover {b | b ∈ blocks} := by
  ext n
  simp only [h.out_eq, Set.mem_iUnion, List.mem_map, mem_cover, Set.mem_ofPred_eq, exists_prop]
  constructor
  · rintro ⟨_, ⟨b, hb, rfl⟩, hn⟩
    exact ⟨b, hb, frames_toPair b ▸ hn⟩
  · rintro ⟨b, hb, hn⟩
    exact ⟨b.toPair, ⟨b, hb, rfl⟩, frames_toPair b ▸ hn⟩

end Accounts

/-- A node before any initialisation. -/
def blankNode : PageListData := ⟨fun _ => ⟨0, 0⟩, fun _ => ⟨.normal, 0⟩, 0, ⟨id, id⟩⟩

/-- Two frames are freed, in a zone of any size, and an allocation takes both. -/
theorem exists_zoneRun_pair {n : ℕ} (htwo : 2 ≤ n) (hlt : n < 2 ^ 32) :
    ∃ s s', ZoneRun blankNode .normal 0 n {1, 0} [] s ∧
      allocPages s 1 allocNormal = some (s', some 0) := by
  have h₀ := accounts_initZoneLists blankNode .normal rfl (Nat.zero_le n) hlt
  have hzero : 0 < n := by omega
  obtain ⟨s₁, nodes₁, p₁, hfree₁, h₁⟩ :=
    h₀.freeFrame (show 0 ∈ Set.Ico 0 n from ⟨le_rfl, hzero⟩) (Set.notMem_empty 0)
  have run₁ := FreshRun.init.free (le_refl 0) hzero (Set.notMem_empty 0) hfree₁
  rw [insert_empty_eq] at h₁ run₁
  obtain ⟨s₂, nodes₂, p₂, hfree₂, h₂⟩ :=
    h₁.freeFrame (show 1 ∈ Set.Ico 0 n from ⟨Nat.zero_le 1, htwo⟩) (by simp)
  have run₂ := run₁.free (Nat.zero_le 1) htwo (by simp) hfree₂
  have hcover : cover p₂.free = {1, 0} := by
    rw [h₂.cover_free]
    simp
  have hpair : (⟨1, 0⟩ : Block).points ⊆ cover p₂.free := by
    intro m hm
    obtain ⟨-, hm⟩ := mem_points_iff.mp hm
    have hm : m < 2 := hm
    rw [hcover, Set.mem_insert_iff, Set.mem_singleton_iff]
    omega
  rcases h₂.alloc (show 1 < maxOrder by decide) with ⟨-, hsmall⟩ | ⟨b, s₃, -, -, hret, horder, hsub, -⟩
  · obtain ⟨b, hb, hle⟩ :=
      (p₂.buddy.exists_le_order_iff (show 1 < maxOrder by decide)).mpr ⟨⟨1, 0⟩, rfl, hpair⟩
    exact absurd (hsmall b hb) (not_lt.mpr hle)
  · refine ⟨s₂, s₃, .init run₂, ?_⟩
    have hbase : b.base ∈ ({1, 0} : Set ℕ) := hcover ▸ hsub b.base_mem
    have hdvd := b.dvd_base
    rw [horder] at hdvd
    obtain hone | hzero := hbase
    · rw [hone] at hdvd
      exact absurd hdvd (by decide)
    · rw [allocPages, if_pos (by decide), hret, Set.mem_singleton_iff.mp hzero]

/-- Frames that are freed one after the other. -/
theorem FreshRun.foldlM {l : List ℕ} {s' : PageListData}
    (h : FreshRun node zone startPfn endPfn freed s) (hl : l.Nodup)
    (hzone : ∀ pfn ∈ l, startPfn ≤ pfn ∧ pfn < endPfn) (hnew : ∀ pfn ∈ l, pfn ∉ freed)
    (hret : l.foldlM (fun s pfn => freePages s (pfnToPage s pfn) 0) s = some s') :
    FreshRun node zone startPfn endPfn ({pfn | pfn ∈ l} ∪ freed) s' := by
  induction l generalizing s freed with
  | nil =>
    obtain rfl := Option.some.inj hret
    simpa using h
  | cons pfn l ih =>
    rw [List.foldlM_cons] at hret
    obtain ⟨s₁, hfree, hret⟩ := Option.bind_eq_some_iff.mp hret
    obtain ⟨hpfn, hl⟩ := List.nodup_cons.mp hl
    obtain ⟨hlow, hhigh⟩ := hzone pfn List.mem_cons_self
    have hrest := ih (h.free hlow hhigh (hnew pfn List.mem_cons_self) hfree) hl
      (fun n hn => hzone n (List.mem_cons_of_mem _ hn)) (fun n hn => ?_) hret
    · have hset : {n | n ∈ l} ∪ insert pfn freed = {n | n ∈ pfn :: l} ∪ freed := by
        ext n
        simp only [Set.mem_union, Set.mem_insert_iff, Set.mem_ofPred_eq, List.mem_cons]
        tauto
      exact hset ▸ hrest
    · rw [Set.mem_insert_iff, not_or]
      exact ⟨fun heq => hpfn (heq ▸ hn), hnew n (List.mem_cons_of_mem _ hn)⟩

/-- Six frames are freed, which makes a block of four and one of two. One frame of the pair is
allocated and freed again, then the pair is allocated, and then one frame of the other block. -/
theorem exists_zoneRun_six : ∃ s₀ s, FreshRun blankNode .normal 0 6 (Set.Ico 0 6) s₀ ∧
    ZoneRun blankNode .normal 0 6 (Set.Ico 0 6) [(0, 0), (4, 1)] s ∧
      (∃ s', allocPagesNode s 1 .normal = some (s', some 2)) ∧
      ∃ s', allocPagesNode s 2 .normal = some (s', none) := by
  have hcalls :
      (((List.range 6).foldlM (fun s pfn => freePages s (pfnToPage s pfn) 0)
        (initZoneLists blankNode .normal 0 6)).bind fun s₀ =>
      (allocPagesNode s₀ 0 .normal).bind fun a => (freePages a.1 4 0).bind fun s₂ =>
      (allocPagesNode s₂ 1 .normal).bind fun b => (allocPagesNode b.1 0 .normal).bind fun c =>
      (allocPagesNode c.1 1 .normal).bind fun d => (allocPagesNode c.1 2 .normal).map fun e =>
        (a.2, b.2, c.2, d.2, e.2)) = some (some 4, some 4, some 0, some 2, none) := by decide +kernel
  obtain ⟨s₀, hfresh, hcalls⟩ := Option.bind_eq_some_iff.mp hcalls
  obtain ⟨⟨s₁, ret₁⟩, hret₁, hcalls⟩ := Option.bind_eq_some_iff.mp hcalls
  obtain ⟨s₂, hfree, hcalls⟩ := Option.bind_eq_some_iff.mp hcalls
  obtain ⟨⟨s₃, ret₃⟩, hret₃, hcalls⟩ := Option.bind_eq_some_iff.mp hcalls
  obtain ⟨⟨s₄, ret₄⟩, hret₄, hcalls⟩ := Option.bind_eq_some_iff.mp hcalls
  obtain ⟨⟨s₅, ret₅⟩, hpair, hcalls⟩ := Option.bind_eq_some_iff.mp hcalls
  obtain ⟨⟨s₆, ret₆⟩, hquad, hcalls⟩ := Option.map_eq_some_iff.mp hcalls
  simp only [Prod.mk.injEq] at hcalls
  obtain ⟨rfl, rfl, rfl, rfl, rfl⟩ := hcalls
  have hset : {pfn | pfn ∈ List.range 6} ∪ ∅ = Set.Ico 0 6 := by
    ext n
    simp
  have hfreed : FreshRun blankNode .normal 0 6 (Set.Ico 0 6) s₀ := hset ▸
    FreshRun.init.foldlM List.nodup_range (fun n hn => ⟨Nat.zero_le n, List.mem_range.mp hn⟩)
      (fun n _ => Set.notMem_empty n) hfresh
  have run := ((((ZoneRun.init hfreed).alloc (by decide) hret₁).free List.mem_cons_self hfree).alloc
    (by decide) hret₃).alloc (by decide) hret₄
  exact ⟨s₀, s₄, hfreed, run, ⟨s₅, hpair⟩, s₆, hquad⟩

/-! ### Nothing is lost and nothing is handed out twice -/

/-- **The buddy allocator conserves frames.** In every reached state free blocks are aligned, lie in
the zone and carry their order; outstanding allocations are aligned and carry their order in the
negative; all of these are pairwise disjoint; and together they cover exactly the frames freed at the
start. -/
theorem ZoneRun.conserves (h : ZoneRun node zone startPfn endPfn freed out s)
    (h0 : node.startPfn = 0) (hle : startPfn ≤ endPfn) (hend : endPfn < 2 ^ 32) :
    (∀ pfn k, (pfn, k) ∈ freeBlocks s zone → 2 ^ k ∣ pfn ∧
      frames (pfn, k) ⊆ Set.Ico startPfn endPfn ∧ (s.pages (pfnToPage s pfn)).order = k) ∧
    (∀ page k, (page, k) ∈ out → 2 ^ k ∣ pageToPfn s page ∧ (s.pages page).order = -k - 1) ∧
    (freeBlocks s zone).PairwiseDisjoint frames ∧
    (out.Pairwise fun a b => Disjoint (frames a) (frames b)) ∧
    (∀ a ∈ freeBlocks s zone, ∀ b ∈ out, Disjoint (frames a) (frames b)) ∧
    freeFrames s zone ∪ ⋃ a ∈ out, frames a = freed := by
  obtain ⟨blocks, nodes, p, hs⟩ := h.accounts h0 hle hend
  rw [hs.freeBlocks_eq]
  refine ⟨?_, ?_, ?_, ?_, ?_, ?_⟩
  · rintro pfn k ⟨b, hb, hpair⟩
    cases hpair
    refine ⟨b.dvd_base, ?_, ?_⟩
    · rw [← p.cover_eq, show frames (b.base, b.order) = b.points from frames_toPair b]
      exact (points_subset_cover hb).trans Set.subset_union_left
    · rw [pfnToPage_eq hs.holds.node_start, hs.holds.free_order b hb]
  · intro page k hmem
    rw [hs.out_eq] at hmem
    obtain ⟨b, hb, hpair⟩ := List.mem_map.mp hmem
    cases hpair
    rw [pageToPfn_eq hs.holds.node_start]
    exact ⟨b.dvd_base, hs.holds.live_order b (hs.mem_live hb)⟩
  · rintro _ ⟨b, hb, rfl⟩ _ ⟨c, hc, rfl⟩ hne
    simp only [Function.onFun, frames_toPair]
    exact p.buddy.disjoint hb hc fun e => hne (by rw [e])
  · rw [hs.out_eq, List.pairwise_map]
    refine hs.nodup.imp_of_mem fun hb hc hne => ?_
    rw [frames_toPair, frames_toPair]
    exact p.live_disjoint (hs.mem_live hb) (hs.mem_live hc) hne
  · rintro _ ⟨b, hb, rfl⟩ c hc
    rw [hs.out_eq] at hc
    obtain ⟨d, hd, rfl⟩ := List.mem_map.mp hc
    rw [frames_toPair, frames_toPair]
    exact (disjoint_cover_iff.mp (p.disjoint_of_mem_live (hs.mem_live hd)) b hb).symm
  · rw [hs.freeFrames_eq, hs.biUnion_frames_out, hs.cover_union_cover]

/-- Two blocks are outstanding, and the other three frames are free. -/
theorem ZoneRun.conserves_six : ∃ s,
    ZoneRun blankNode .normal 0 6 (Set.Ico 0 6) [(0, 0), (4, 1)] s ∧
    freeFrames s .normal = {1, 2, 3} ∧ (freeBlocks s .normal).PairwiseDisjoint frames ∧
    (∀ a ∈ freeBlocks s .normal, Disjoint (frames a) (frames (4, 1))) ∧
    (s.pages 4).order = -2 := by
  obtain ⟨-, s, -, run, -⟩ := exists_zoneRun_six
  obtain ⟨-, hout, hdisj, -, hapart, hcover⟩ := run.conserves rfl (by decide) (by decide)
  refine ⟨s, run, ?_, hdisj, fun a ha => hapart a ha (4, 1) (by simp), (hout 4 1 (by simp)).2⟩
  have hapart' : ∀ b ∈ [(0, 0), (4, 1)], ∀ n ∈ freeFrames s .normal, n ∉ frames b := fun b hb _ hn =>
    Set.disjoint_left.mp (Set.disjoint_iUnion₂_left.mpr fun a ha => hapart a ha b hb) hn
  ext n
  have hn := Set.ext_iff.mp hcover n
  have hfirst := hapart' (0, 0) (by simp) n
  have hsecond := hapart' (4, 1) (by simp) n
  simp only [frames, Set.mem_union, Set.mem_iUnion, Set.mem_Ico, List.mem_cons, List.not_mem_nil,
    or_false, exists_prop, exists_eq_or_imp, exists_eq_left] at hn hfirst hsecond
  simp only [Set.mem_insert_iff, Set.mem_singleton_iff]
  constructor
  · intro hfree
    have := hn.mp (Or.inl hfree)
    have := hfirst hfree
    have := hsecond hfree
    omega
  · intro hmid
    exact (hn.mpr (by omega)).resolve_right (by omega)

/-! ### The free blocks are determined by the free frames -/

/-- Freeing blocks one after the other. -/
def freeAll (s : PageListData) (l : List (ℕ × ℕ)) : Option PageListData :=
  l.foldlM (fun s a => freePages s a.1 a.2) s

/-- The outstanding allocations can be freed in any order. -/
theorem ZoneRun.exists_freeAll {l : List (ℕ × ℕ)} (h : ZoneRun node zone startPfn endPfn freed out s)
    (h0 : node.startPfn = 0) (hle : startPfn ≤ endPfn) (hend : endPfn < 2 ^ 32) (hl : l.Perm out) :
    ∃ s', freeAll s l = some s' ∧ ZoneRun node zone startPfn endPfn freed [] s' := by
  induction l generalizing s out with
  | nil => exact ⟨s, rfl, List.perm_nil.mp hl.symm ▸ h⟩
  | cons a l ih =>
    have hmem : a ∈ out := hl.subset List.mem_cons_self
    obtain ⟨blocks, nodes, p, hs⟩ := h.accounts h0 hle hend
    obtain ⟨b, hb, rfl⟩ := List.mem_map.mp (hs.out_eq ▸ hmem)
    obtain ⟨s₁, -, -, hret, -⟩ := hs.free hb
    obtain ⟨s', hret', hs'⟩ := ih (h.free hmem hret) (List.cons_perm_iff_perm_erase.mp hl).2
    refine ⟨s', ?_, hs'⟩
    rw [freeAll, List.foldlM_cons, toPair, hret]
    exact hret'

theorem Accounts.freeBlocks_congr {s' : PageListData} {zone' : ZoneType} {out' : List (ℕ × ℕ)}
    {blocks' : List Block} {nodes' : ℕ → List ListNode}
    {p' : Pool maxOrder (Set.Ico startPfn endPfn)} (h : Accounts s zone freed out p blocks nodes)
    (h' : Accounts s' zone' freed out' p' blocks' nodes')
    (hout : ⋃ a ∈ out, frames a = ⋃ a ∈ out', frames a) :
    freeBlocks s zone = freeBlocks s' zone' := by
  rw [h.biUnion_frames_out, h'.biUnion_frames_out] at hout
  have hlive : cover p.live = cover p'.live := by rw [h.cover_live, h'.cover_live, hout]
  rw [h.freeBlocks_eq, h'.freeBlocks_eq, Pool.free_congr hlive]

/-- **Coalescing is canonical.** In every reached state the free blocks are the maximal blocks of
free frames; two runs with the same frames freed at the start and the same outstanding frames have the
same free blocks; and freeing all outstanding blocks, in any order, restores the free blocks the run
began with. -/
theorem ZoneRun.coalesced (h : ZoneRun node zone startPfn endPfn freed out s)
    (h0 : node.startPfn = 0) (hle : startPfn ≤ endPfn) (hend : endPfn < 2 ^ 32) :
    freeBlocks s zone = toPair '' maximalBlocks maxOrder (freeFrames s zone) ∧
    (∀ node' zone' out' s', node'.startPfn = 0 →
      ZoneRun node' zone' startPfn endPfn freed out' s' →
      ⋃ a ∈ out, frames a = ⋃ a ∈ out', frames a → freeBlocks s zone = freeBlocks s' zone') ∧
    ∀ s₀ l, FreshRun node zone startPfn endPfn freed s₀ → l.Perm out →
      ∃ s', freeAll s l = some s' ∧ freeBlocks s' zone = freeBlocks s₀ zone := by
  obtain ⟨blocks, nodes, p, hs⟩ := h.accounts h0 hle hend
  refine ⟨?_, ?_, ?_⟩
  · rw [hs.freeFrames_eq, ← p.buddy.eq_maximalBlocks, hs.freeBlocks_eq]
  · intro node' zone' out' s' h0' h' hout
    obtain ⟨blocks', nodes', p', hs'⟩ := h'.accounts h0' hle hend
    exact hs.freeBlocks_congr hs' hout
  · intro s₀ l h₀ hl
    obtain ⟨s', hret, h'⟩ := h.exists_freeAll h0 hle hend hl
    obtain ⟨_, _, _, hs'⟩ := h'.accounts h0 hle hend
    obtain ⟨_, _, hs₀⟩ := h₀.accounts h0 hle hend
    exact ⟨s', hret, hs'.freeBlocks_congr hs₀ rfl⟩

/-- Freeing the two blocks brings back the free blocks of the start. -/
theorem ZoneRun.coalesced_six : ∃ s₀ s, FreshRun blankNode .normal 0 6 (Set.Ico 0 6) s₀ ∧
    ZoneRun blankNode .normal 0 6 (Set.Ico 0 6) [(0, 0), (4, 1)] s ∧
    freeBlocks s .normal = toPair '' maximalBlocks maxOrder (freeFrames s .normal) ∧
    ∃ s', freeAll s [(4, 1), (0, 0)] = some s' ∧ freeBlocks s' .normal = freeBlocks s₀ .normal := by
  obtain ⟨s₀, s, hfresh, run, -⟩ := exists_zoneRun_six
  obtain ⟨hmaximal, -, hfreeAll⟩ := run.coalesced rfl (by decide) (by decide)
  exact ⟨s₀, s, hfresh, run, hmaximal, hfreeAll s₀ _ hfresh (List.Perm.swap _ _ _)⟩

/-! ### Allocation succeeds whenever it can -/

/-- **Allocation is complete.** In every reached state `alloc_pages_node` returns; it returns null
exactly when no aligned run of `2 ^ order` frames is free, and then nothing has changed. -/
theorem ZoneRun.allocPagesNode_none_iff (h : ZoneRun node zone startPfn endPfn freed out s)
    (h0 : node.startPfn = 0) (hle : startPfn ≤ endPfn) (hend : endPfn < 2 ^ 32)
    (hk : order < maxOrder) :
    ∃ s' ret, allocPagesNode s order zone = some (s', ret) ∧
      (ret = none ↔ ¬ ∃ pfn, 2 ^ order ∣ pfn ∧ frames (pfn, order) ⊆ freeFrames s zone) ∧
      (ret = none → s' = s) := by
  obtain ⟨blocks, nodes, p, hs⟩ := h.accounts h0 hle hend
  have hrun : (∃ pfn, 2 ^ order ∣ pfn ∧ frames (pfn, order) ⊆ freeFrames s zone) ↔
      ∃ b ∈ p.free, order ≤ b.order := by
    rw [p.buddy.exists_le_order_iff hk, hs.freeFrames_eq]
    constructor
    · rintro ⟨pfn, hdvd, hsub⟩
      refine ⟨around order pfn, rfl, ?_⟩
      rw [← frames_toPair, toPair, base_around hdvd]
      exact hsub
    · rintro ⟨b, rfl, hsub⟩
      exact ⟨b.base, b.dvd_base, (frames_toPair b).trans_subset hsub⟩
  rw [hrun]
  rcases hs.alloc hk with ⟨hret, hsmall⟩ | ⟨b, s', -, -, hret, rfl, hsub, -⟩
  · refine ⟨s, none, hret, iff_of_true rfl ?_, fun _ => rfl⟩
    rintro ⟨b, hb, hle⟩
    exact absurd (hsmall b hb) (not_lt.mpr hle)
  · refine ⟨s', some b.base, hret, iff_of_false (by simp) ?_, fun hnone => by cases hnone⟩
    rw [not_not]
    exact (p.buddy.exists_le_order_iff hk).mpr ⟨b, rfl, hsub⟩

/-- Three frames are free: a pair can be allocated, and no block of four. -/
theorem ZoneRun.allocPagesNode_none_iff_six : ∃ s s',
    ZoneRun blankNode .normal 0 6 (Set.Ico 0 6) [(0, 0), (4, 1)] s ∧
    allocPagesNode s 1 .normal = some (s', some 2) ∧
    (∃ pfn, 2 ^ 1 ∣ pfn ∧ frames (pfn, 1) ⊆ freeFrames s .normal) ∧
    allocPagesNode s 2 .normal = some (s, none) ∧
    ¬ ∃ pfn, 2 ^ 2 ∣ pfn ∧ frames (pfn, 2) ⊆ freeFrames s .normal := by
  obtain ⟨-, s, -, run, ⟨s₁, hpair⟩, s₂, hquad⟩ := exists_zoneRun_six
  obtain ⟨s', ret, hret, hiff, -⟩ := run.allocPagesNode_none_iff rfl (by decide) (by decide)
    (show 1 < maxOrder by decide)
  obtain ⟨s'', ret', hret', hiff', hsame⟩ := run.allocPagesNode_none_iff rfl (by decide) (by decide)
    (show 2 < maxOrder by decide)
  cases hpair.symm.trans hret
  cases hquad.symm.trans hret'
  obtain rfl := hsame rfl
  exact ⟨_, s₁, run, hret, not_not.mp (mt hiff.mpr (by simp)), hret', hiff'.mp rfl⟩

end Auos
