import Auos.Lib.Block

/-!
# Coalesced families of blocks

A *buddy set* is a family of pairwise disjoint blocks below a top order in which no two siblings
are both present, except at the top. Such a family is determined by the points it covers
(`IsBuddySet.eq_maximalBlocks`): it consists of the inclusion-maximal blocks inside them. The
argument is that a covered block lies inside a single member (`IsBuddySet.exists_superset`), by
induction on its order: if its two halves were members on their own they would be siblings.

A *pool* is a set of points split between a buddy set of free blocks and a family of live blocks.
It is what a buddy allocator is for; `Pool.Acquire` and `Pool.Release` are its two operations,
stated on points alone, and the merge and split loops of an implementation are followed by
`IsBuddySet.merge`, `IsBuddySet.insert_last` and `IsBuddySet.split`.

## Main definitions

* `cover`, `maximalBlocks`, `IsBuddySet`
* `Pool`, `Pool.Acquire`, `Pool.Release`

## Main results

* `IsBuddySet.eq_maximalBlocks` — a buddy set is a function of the points it covers
* `IsBuddySet.base_eq_iff` — when a member starts where a block in it starts
* `IsBuddySet.exists_le_order_iff` — a large enough member exists iff a large enough run is covered
* `head_of_sibling_base_mem` — the block around the sibling's first point starts there
-/

namespace Auos

open Block

/-- The points covered by a family of blocks. -/
def cover (F : Set Block) : Set ℕ := ⋃ b ∈ F, b.points

/-- The inclusion-maximal blocks below order `top` inside a set of points. -/
def maximalBlocks (top : ℕ) (S : Set ℕ) : Set Block :=
  {b | b.order < top ∧ b.points ⊆ S ∧
    ∀ c : Block, c.order < top → c.points ⊆ S → b.points ⊆ c.points → c = b}

/-- Pairwise disjoint blocks below order `top`, with siblings merged wherever they can be. -/
structure IsBuddySet (top : ℕ) (F : Set Block) : Prop where
  /-- Every member is below the top order. -/
  order_lt : ∀ b ∈ F, b.order < top
  /-- Members share no point. -/
  disjoint : F.PairwiseDisjoint points
  /-- Siblings whose parent is below the top order are not both members. -/
  coalesced : ∀ b ∈ F, b.order + 1 < top → b.sibling ∉ F

variable {top n : ℕ} {F G : Set Block} {S : Set ℕ} {b c : Block}

theorem mem_cover : n ∈ cover F ↔ ∃ b ∈ F, n ∈ b.points := by simp [cover]

theorem points_subset_cover (h : b ∈ F) : b.points ⊆ cover F := fun _ hn => mem_cover.mpr ⟨b, h, hn⟩

@[simp] theorem cover_empty : cover ∅ = ∅ := by simp [cover]

theorem cover_union : cover (F ∪ G) = cover F ∪ cover G := Set.biUnion_union F G points

theorem cover_insert : cover (insert b F) = b.points ∪ cover F := by
  simp [cover]

theorem cover_mono (h : F ⊆ G) : cover F ⊆ cover G := Set.biUnion_subset_biUnion_left h

theorem disjoint_cover_iff : Disjoint b.points (cover F) ↔ ∀ c ∈ F, Disjoint b.points c.points := by
  simp [cover, Set.disjoint_iUnion_right]

theorem cover_single_image (S : Set ℕ) : cover (single '' S) = S := by
  ext n
  simp [mem_cover]

/-- Taking a member out of a disjoint family takes exactly its points out of the cover. -/
theorem cover_diff_singleton (hF : F.PairwiseDisjoint points) (h : b ∈ F) :
    cover (F \ {b}) = cover F \ b.points := by
  ext n
  simp only [mem_cover, Set.mem_sdiff, Set.mem_singleton_iff]
  constructor
  · rintro ⟨c, ⟨hc, hcb⟩, hn⟩
    exact ⟨⟨c, hc, hn⟩, fun hnb => hcb (hF.elim_set hc h n hn hnb)⟩
  · rintro ⟨⟨c, hc, hn⟩, hnb⟩
    exact ⟨c, ⟨hc, fun e => hnb (e ▸ hn)⟩, hn⟩

namespace IsBuddySet

theorem subset (h : IsBuddySet top F) (hG : G ⊆ F) : IsBuddySet top G :=
  ⟨fun b hb => h.order_lt b (hG hb), h.disjoint.subset hG,
    fun b hb ht hs => h.coalesced b (hG hb) ht (hG hs)⟩

/-- A covered block lies inside a single member. By induction on its order: the halves of a block
lie in members, and these are either big enough to contain the block or are siblings. -/
theorem exists_superset (h : IsBuddySet top F) {k : ℕ} :
    ∀ b : Block, b.order = k → k < top → b.points ⊆ cover F → ∃ c ∈ F, b.points ⊆ c.points := by
  induction k with
  | zero =>
    intro b hb _ hsub
    obtain ⟨c, hc, hn⟩ := mem_cover.mp (hsub b.base_mem)
    exact ⟨c, hc, subset_of_mem b.base_mem hn (by omega)⟩
  | succ k ih =>
    intro b hb htop hsub
    have hne : b.order ≠ 0 := by omega
    have hsplit := points_split hne
    have hlo : b.lower.points ⊆ b.points := hsplit ▸ Set.subset_union_left
    have hup : b.upper.points ⊆ b.points := hsplit ▸ Set.subset_union_right
    have hok : b.lower.order = k := by simp [hb]
    obtain ⟨c, hc, hcl⟩ := ih b.lower hok (by omega) (hlo.trans hsub)
    obtain ⟨d, hd, hdu⟩ := ih b.upper hok (by omega) (hup.trans hsub)
    rcases Nat.lt_or_ge c.order b.order with hcb | hcb
    · rcases Nat.lt_or_ge d.order b.order with hdb | hdb
      · -- both halves are members themselves, which a coalesced family excludes
        have hcl' : c = b.lower := (eq_of_mem b.lower.base_mem (hcl b.lower.base_mem)
          (le_antisymm (order_le_of_subset hcl) (by simp; omega))).symm
        have hdu' : d = b.upper := (eq_of_mem b.upper.base_mem (hdu b.upper.base_mem)
          (le_antisymm (order_le_of_subset hdu) (by simp; omega))).symm
        subst hcl' hdu'
        exact absurd hd (h.coalesced _ hc (by omega))
      · exact ⟨d, hd, subset_of_mem (hup b.upper.base_mem) (hdu b.upper.base_mem) hdb⟩
    · exact ⟨c, hc, subset_of_mem (hlo b.lower.base_mem) (hcl b.lower.base_mem) hcb⟩

theorem eq_of_subset (h : IsBuddySet top F) (hb : b ∈ F) (hc : c ∈ F)
    (hsub : b.points ⊆ c.points) : b = c :=
  h.disjoint.elim_set hb hc b.base b.base_mem (hsub b.base_mem)

/-- A member starts where a block in it starts exactly if every covered block around that one does. -/
theorem base_eq_iff (h : IsBuddySet top F) (hc : c ∈ F) (hbc : b.points ⊆ c.points) :
    c.base = b.base ↔ ∀ d : Block, d.order < top → b.points ⊆ d.points → d.points ⊆ cover F →
      d.base = b.base := by
  constructor
  · intro heq d hd hbd hcov
    obtain ⟨e, he, hde⟩ := h.exists_superset d rfl hd hcov
    obtain rfl : e = c := h.disjoint.elim_set he hc b.base (hde (hbd b.base_mem)) (hbc b.base_mem)
    have hlow := (mem_points_iff.mp (hde d.base_mem)).1
    have hhigh := (mem_points_iff.mp (hbd b.base_mem)).1
    omega
  · intro hall
    exact hall c (h.order_lt c hc) hbc (points_subset_cover hc)

/-- **A buddy set is determined by the points it covers.** -/
theorem eq_maximalBlocks (h : IsBuddySet top F) : F = maximalBlocks top (cover F) := by
  ext b
  constructor
  · intro hb
    refine ⟨h.order_lt b hb, points_subset_cover hb, ?_⟩
    intro c hc hcov hbc
    obtain ⟨d, hd, hcd⟩ := h.exists_superset c rfl hc hcov
    obtain rfl := h.eq_of_subset hb hd (hbc.trans hcd)
    exact points_injective (hcd.antisymm hbc)
  · rintro ⟨htop, hcov, hmax⟩
    obtain ⟨c, hc, hbc⟩ := h.exists_superset b rfl htop hcov
    exact hmax c (h.order_lt c hc) (points_subset_cover hc) hbc ▸ hc

/-- Some member has order at least `k` exactly when some aligned run of `2 ^ k` points is covered. -/
theorem exists_le_order_iff (h : IsBuddySet top F) {k : ℕ} (hk : k < top) :
    (∃ b ∈ F, k ≤ b.order) ↔ ∃ c : Block, c.order = k ∧ c.points ⊆ cover F := by
  constructor
  · rintro ⟨b, hb, hkb⟩
    refine ⟨around k b.base, rfl, ?_⟩
    exact (subset_of_mem (mem_around k b.base) b.base_mem hkb).trans (points_subset_cover hb)
  · rintro ⟨c, hck, hcov⟩
    obtain ⟨b, hb, hcb⟩ := h.exists_superset c hck hk hcov
    exact ⟨b, hb, hck ▸ order_le_of_subset hcb⟩

/-! ### The merge loop -/

/-- One round of merging: the sibling leaves the family and the parent is the new candidate. -/
theorem merge (h : IsBuddySet top F) (hb : Disjoint b.points (cover F)) (hs : b.sibling ∈ F) :
    IsBuddySet top (F \ {b.sibling}) ∧ Disjoint b.parent.points (cover (F \ {b.sibling})) ∧
      cover (F \ {b.sibling}) ∪ b.parent.points = cover F ∪ b.points := by
  have hcov := cover_diff_singleton h.disjoint hs
  have hsub : b.sibling.points ⊆ cover F := points_subset_cover hs
  refine ⟨h.subset Set.sdiff_subset, ?_, ?_⟩
  · rw [points_parent, hcov]
    refine Set.disjoint_union_left.mpr ⟨hb.mono_right Set.sdiff_subset, ?_⟩
    exact Set.disjoint_sdiff_right
  · rw [points_parent, hcov, Set.union_comm b.points, ← Set.union_assoc,
      Set.sdiff_union_of_subset hsub]

/-- The loop ends at the top order or when the sibling is not free; the candidate then joins. -/
theorem insert_last (h : IsBuddySet top F) (hb : Disjoint b.points (cover F)) (htop : b.order < top)
    (hs : b.order + 1 < top → b.sibling ∉ F) : IsBuddySet top (insert b F) := by
  have hnot : ∀ c ∈ F, c ≠ b.sibling ∨ ¬ b.order + 1 < top := by
    intro c hc
    by_cases ht : b.order + 1 < top
    · exact Or.inl fun e => hs ht (e ▸ hc)
    · exact Or.inr ht
  refine ⟨?_, ?_, ?_⟩
  · rintro c (rfl | hc)
    · exact htop
    · exact h.order_lt c hc
  · refine h.disjoint.insert ?_
    intro c hc _
    exact disjoint_cover_iff.mp hb c hc
  · rintro c (rfl | hc) ht
    · rintro (hcs | hcs)
      · exact c.sibling_ne hcs
      · exact hs ht hcs
    · rintro (hcs | hcs)
      · have hcb : c = b.sibling := by rw [← hcs, sibling_sibling]
        rcases hnot c hc with h' | h'
        · exact h' hcb
        · rw [hcb] at ht; exact h' ht
      · exact h.coalesced c hc ht hcs

/-! ### The split loop -/

/-- One round of splitting a block that is not in the family: the upper half joins, the lower half
is kept back. It meets no sibling, since its own sibling is the half kept back. -/
theorem split (h : IsBuddySet top F) (hb : Disjoint b.points (cover F)) (h0 : b.order ≠ 0)
    (htop : b.order < top) :
    IsBuddySet top (insert b.upper F) ∧ Disjoint b.lower.points (cover (insert b.upper F)) ∧
      cover (insert b.upper F) ∪ b.lower.points = cover F ∪ b.points := by
  have hsplit := points_split h0
  have hlo : b.lower.points ⊆ b.points := hsplit ▸ Set.subset_union_left
  have hup : b.upper.points ⊆ b.points := hsplit ▸ Set.subset_union_right
  refine ⟨h.insert_last (hb.mono_left hup) ?_ ?_, ?_, ?_⟩
  · simp only [order_upper]; omega
  · intro _ hmem
    rw [upper, sibling_sibling] at hmem
    exact Set.disjoint_left.mp hb (hlo b.lower.base_mem)
      (points_subset_cover hmem b.lower.base_mem)
  · rw [cover_insert]
    exact Set.disjoint_union_right.mpr ⟨b.disjoint_halves, hb.mono_left hlo⟩
  · rw [cover_insert, hsplit, Set.union_comm b.upper.points, Set.union_assoc,
      Set.union_comm b.upper.points]

end IsBuddySet

/-- The block around the first point of the sibling starts there and is no larger, whenever that
point is covered by blocks apart from the block itself. A larger one would contain the parent. -/
theorem head_of_sibling_base_mem (hb : Disjoint b.points (cover F)) (h : b.sibling.base ∈ cover F) :
    ∃ c ∈ F, c.base = b.sibling.base ∧ c.order ≤ b.order := by
  obtain ⟨c, hc, hn⟩ := mem_cover.mp h
  have hle : c.order ≤ b.order := by
    by_contra hlt
    have hpar : b.parent.points ⊆ c.points := by
      refine subset_of_mem ?_ hn (by simp only [order_parent]; omega)
      exact points_parent b ▸ Set.mem_union_right _ b.sibling.base_mem
    exact Set.disjoint_left.mp hb b.base_mem
      (points_subset_cover hc (hpar (points_subset_parent b b.base_mem)))
  refine ⟨c, hc, (base_eq_of_mem hn ?_).symm, hle⟩
  exact (pow_dvd_pow 2 hle).trans b.sibling.dvd_base

/-! ### Pools -/

/-- A set `S` of points split between coalesced free blocks and live blocks. -/
structure Pool (top : ℕ) (S : Set ℕ) where
  /-- The free blocks. -/
  free : Set Block
  /-- The blocks handed out. -/
  live : Set Block
  /-- The free blocks are coalesced. -/
  buddy : IsBuddySet top free
  /-- Live blocks share no point. -/
  live_disjoint : live.PairwiseDisjoint points
  /-- Live and free blocks share no point. -/
  apart : Disjoint (cover live) (cover free)
  /-- Nothing is lost. -/
  cover_eq : cover free ∪ cover live = S

namespace Pool

variable {p q : Pool top S} {k : ℕ}

theorem cover_free (p : Pool top S) : cover p.free = S \ cover p.live := by
  have h : (cover p.free ∪ cover p.live) \ cover p.live = cover p.free := by
    rw [Set.union_sdiff_right, sdiff_eq_left.mpr p.apart.symm]
  rw [← h, p.cover_eq]

/-- The free blocks are the maximal blocks outside the live ones. -/
theorem free_eq (p : Pool top S) : p.free = maximalBlocks top (S \ cover p.live) := by
  rw [← p.cover_free]
  exact p.buddy.eq_maximalBlocks

theorem disjoint_of_mem_live (hb : b ∈ p.live) : Disjoint b.points (cover p.free) :=
  p.apart.mono_left (points_subset_cover hb)

/-- Handing out a block of order `k`: its points were free and are not free any more. -/
structure Acquire (k : ℕ) (b : Block) (p q : Pool top S) : Prop where
  order_eq : b.order = k
  subset : b.points ⊆ cover p.free
  live_eq : q.live = insert b p.live
  free_eq : cover q.free = cover p.free \ b.points

/-- Taking a live block back: exactly its points become free. -/
structure Release (b : Block) (p q : Pool top S) : Prop where
  mem : b ∈ p.live
  live_eq : q.live = p.live \ {b}
  free_eq : cover q.free = cover p.free ∪ b.points

/-- The pool after a release, from any coalesced family that covers the right points. -/
def release (p : Pool top S) (hb : b ∈ p.live) (hF : IsBuddySet top F)
    (hcov : cover F = cover p.free ∪ b.points) : Pool top S where
  free := F
  live := p.live \ {b}
  buddy := hF
  live_disjoint := p.live_disjoint.subset Set.sdiff_subset
  apart := by
    rw [cover_diff_singleton p.live_disjoint hb, hcov]
    exact Set.disjoint_union_right.mpr
      ⟨p.apart.mono_left Set.sdiff_subset, Set.disjoint_sdiff_left⟩
  cover_eq := by
    rw [cover_diff_singleton p.live_disjoint hb, hcov, Set.union_assoc,
      Set.union_sdiff_cancel (points_subset_cover hb), p.cover_eq]

theorem release_spec (p : Pool top S) (hb : b ∈ p.live) (hF : IsBuddySet top F)
    (hcov : cover F = cover p.free ∪ b.points) : Release b p (p.release hb hF hcov) :=
  ⟨hb, rfl, hcov⟩

/-- The pool after an acquisition, from any coalesced family that covers the right points. -/
def acquire (p : Pool top S) (hb : b.points ⊆ cover p.free) (hF : IsBuddySet top F)
    (hcov : cover F = cover p.free \ b.points) : Pool top S where
  free := F
  live := insert b p.live
  buddy := hF
  live_disjoint := p.live_disjoint.insert fun c hc _ =>
    (p.apart.mono (points_subset_cover hc) hb).symm
  apart := by
    rw [cover_insert, hcov]
    exact Set.disjoint_union_left.mpr
      ⟨Set.disjoint_sdiff_right, p.apart.mono_right Set.sdiff_subset⟩
  cover_eq := by
    rw [cover_insert, hcov, ← Set.union_assoc, Set.sdiff_union_of_subset hb, p.cover_eq]

theorem acquire_spec (p : Pool top S) (hb : b.points ⊆ cover p.free) (hF : IsBuddySet top F)
    (hcov : cover F = cover p.free \ b.points) : Acquire b.order b p (p.acquire hb hF hcov) :=
  ⟨rfl, hb, rfl, hcov⟩

/-- The pool in which every point is live on its own. -/
def allLive (top : ℕ) (S : Set ℕ) : Pool top S where
  free := ∅
  live := single '' S
  buddy := ⟨by simp, by simp, by simp⟩
  live_disjoint := by
    rintro _ ⟨m, -, rfl⟩ _ ⟨n, -, rfl⟩ hmn
    simp only [Function.onFun, points_single, Set.disjoint_singleton]
    exact fun e => hmn (by rw [e])
  apart := by simp
  cover_eq := by rw [cover_single_image, cover_empty, Set.empty_union]

/-- Pools with the same live points have the same free blocks. -/
theorem free_congr (h : cover p.live = cover q.live) : p.free = q.free := by
  rw [p.free_eq, q.free_eq, h]

end Pool

end Auos
