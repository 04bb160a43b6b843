import Mathlib.Data.Nat.Bitwise
import Mathlib.Data.Nat.Log
import Mathlib.Data.Set.Lattice
import Mathlib.Data.Set.Pairwise.Basic
import Mathlib.Order.CompletePartialOrder
import Mathlib.Tactic.Ring

/-!
# Naturally aligned blocks

A block of order `k` is a run of `2 ^ k` naturals starting at a multiple of `2 ^ k`. It is stored as
the pair of its order and its *index*, so that an unaligned block cannot be written down; the first
point is `index * 2 ^ order`.

Two blocks are nested or disjoint (`Block.subset_of_mem`): a block contains every smaller block it
meets. That makes the blocks below a fixed order a forest of binary trees, in which a block of
order `k` and its *sibling* are the two halves of their *parent* of order `k + 1`.

## Main definitions

* `Block`, `Block.points`, `Block.base`
* `Block.sibling`, `Block.parent`, `Block.lower`, `Block.upper`
* `Block.front`, `Block.half` — what is left when a block is split down to an order

## Main results

* `Block.base_sibling` — the sibling's first point differs in the single bit `2 ^ order`
* `Block.subset_of_mem`, `Block.eq_of_mem`
* `Block.points_parent`, `Block.points_split` — a block is the disjoint union of its halves
* `Block.points_eq_front_union_halves` — the tiling by a front and one half of every order above
-/

namespace Auos

/-- The naturally aligned block of `2 ^ order` points starting at `index * 2 ^ order`. -/
structure Block where
  /-- The binary logarithm of the length. -/
  order : ℕ
  /-- The first point divided by the length. -/
  index : ℕ
  deriving DecidableEq

namespace Block

variable {a b c : Block} {n : ℕ}

/-- The points of a block. -/
def points (b : Block) : Set ℕ := {n | n / 2 ^ b.order = b.index}

/-- The first point of a block. -/
def base (b : Block) : ℕ := b.index * 2 ^ b.order

/-- The block of order `k` around `n`. -/
def around (k n : ℕ) : Block := ⟨k, n / 2 ^ k⟩

theorem mem_points : n ∈ b.points ↔ n / 2 ^ b.order = b.index := Iff.rfl

theorem mem_points_iff : n ∈ b.points ↔ b.base ≤ n ∧ n < b.base + 2 ^ b.order := by
  have hpos : 0 < 2 ^ b.order := Nat.two_pow_pos _
  rw [mem_points, Nat.div_eq_iff hpos, base]
  omega

theorem base_mem (b : Block) : b.base ∈ b.points :=
  mem_points_iff.mpr ⟨le_rfl, Nat.lt_add_of_pos_right (Nat.two_pow_pos _)⟩

theorem mem_around (k n : ℕ) : n ∈ (around k n).points := rfl

@[simp] theorem order_around (k n : ℕ) : (around k n).order = k := rfl

/-- The block around an aligned point starts there. -/
theorem base_around {k n : ℕ} (h : 2 ^ k ∣ n) : (around k n).base = n := Nat.div_mul_cancel h

theorem dvd_base (b : Block) : 2 ^ b.order ∣ b.base := Nat.dvd_mul_left _ _

theorem points_of_order_zero (h : b.order = 0) : b.points = {b.base} := by
  ext n
  simp [mem_points, base, h]

/-- The block of a single point. -/
def single (n : ℕ) : Block := ⟨0, n⟩

@[simp] theorem order_single (n : ℕ) : (single n).order = 0 := rfl

@[simp] theorem base_single (n : ℕ) : (single n).base = n := by simp [single, base]

@[simp] theorem points_single (n : ℕ) : (single n).points = {n} := by
  rw [points_of_order_zero rfl, base_single]

theorem single_injective : Function.Injective single := fun _ _ h => (Block.mk.inj h).2

/-! ### Nesting -/

/-- A block contains every block of at most its order that it meets. -/
theorem subset_of_mem (ha : n ∈ a.points) (hb : n ∈ b.points) (h : a.order ≤ b.order) :
    a.points ⊆ b.points := by
  intro m hm
  obtain ⟨d, hd⟩ := Nat.exists_eq_add_of_le h
  have hcoarse : ∀ x : ℕ, x / 2 ^ b.order = x / 2 ^ a.order / 2 ^ d := fun x => by
    rw [hd, pow_add, Nat.div_div_eq_div_mul]
  rw [mem_points] at ha hb hm ⊢
  rw [hcoarse, hm, ← ha, ← hcoarse, hb]

theorem eq_of_mem (ha : n ∈ a.points) (hb : n ∈ b.points) (h : a.order = b.order) : a = b := by
  obtain ⟨k, i⟩ := a
  obtain ⟨k', j⟩ := b
  obtain rfl : k = k' := h
  rw [mem_points] at ha hb
  exact congrArg (Block.mk k) (ha.symm.trans hb)

theorem order_le_of_subset (h : a.points ⊆ b.points) : a.order ≤ b.order := by
  have hpos : 0 < 2 ^ a.order := Nat.two_pow_pos _
  have hlast : a.base + (2 ^ a.order - 1) ∈ a.points := mem_points_iff.mpr (by omega)
  have h₁ := mem_points_iff.mp (h a.base_mem)
  have h₂ := mem_points_iff.mp (h hlast)
  exact (Nat.pow_le_pow_iff_right (by omega : 1 < 2)).mp (by omega)

theorem points_injective : Function.Injective points := by
  intro a b h
  refine eq_of_mem a.base_mem (h ▸ a.base_mem) (le_antisymm ?_ ?_)
  · exact order_le_of_subset h.subset
  · exact order_le_of_subset h.symm.subset

/-- A block whose first point lies in a larger one, and starts it, is its head. -/
theorem base_eq_of_mem (h : n ∈ b.points) (hn : 2 ^ b.order ∣ n) : n = b.base := by
  rw [mem_points] at h
  rw [base, ← h, Nat.div_mul_cancel hn]

/-! ### Siblings and parents -/

/-- The other half of the parent. -/
def sibling (b : Block) : Block := ⟨b.order, b.index ^^^ 1⟩

/-- The block of the next order around a block. -/
def parent (b : Block) : Block := ⟨b.order + 1, b.index / 2⟩

@[simp] theorem order_sibling (b : Block) : b.sibling.order = b.order := rfl

@[simp] theorem order_parent (b : Block) : b.parent.order = b.order + 1 := rfl

/-- Flipping the lowest bit moves by one, up from an even number and down from an odd one. -/
theorem xor_one_cases (i : ℕ) :
    (i % 2 = 0 ∧ i ^^^ 1 = i + 1) ∨ (i % 2 = 1 ∧ i ^^^ 1 = i - 1) := by
  rcases Nat.mod_two_eq_zero_or_one i with h | h
  · exact Or.inl ⟨h, Nat.xor_one_of_even (Nat.even_iff.mpr h)⟩
  · exact Or.inr ⟨h, Nat.xor_one_of_odd (Nat.odd_iff.mpr h)⟩

@[simp] theorem sibling_sibling (b : Block) : b.sibling.sibling = b := by
  simp [sibling]

theorem sibling_ne (b : Block) : b.sibling ≠ b := by
  intro h
  have hi : b.index ^^^ 1 = b.index := congrArg index h
  rcases xor_one_cases b.index with ⟨_, h'⟩ | ⟨_, h'⟩ <;> omega

/-- The sibling's first point differs in the single bit of weight `2 ^ order`. -/
theorem base_sibling (b : Block) : b.sibling.base = b.base ^^^ 2 ^ b.order := by
  have h := Nat.shiftLeft_xor_distrib (a := b.index) (b := 1) (i := b.order)
  simpa [sibling, base, Nat.shiftLeft_eq] using h

theorem disjoint_sibling (b : Block) : Disjoint b.points b.sibling.points :=
  Set.disjoint_left.mpr fun _ h h' => b.sibling_ne (eq_of_mem h' h rfl)

/-- A parent is made of a block and its sibling. -/
theorem points_parent (b : Block) : b.parent.points = b.points ∪ b.sibling.points := by
  ext n
  simp only [Set.mem_union, mem_points, parent, sibling, pow_succ, ← Nat.div_div_eq_div_mul]
  rcases xor_one_cases b.index with ⟨_, h⟩ | ⟨_, h⟩ <;> omega

theorem points_subset_parent (b : Block) : b.points ⊆ b.parent.points := by
  rw [points_parent]
  exact Set.subset_union_left

/-- The parent starts where the lower of the two halves starts. -/
theorem base_parent (b : Block) : b.parent.base = min b.base b.sibling.base := by
  have hpos : 0 < 2 ^ b.order := Nat.two_pow_pos _
  simp only [base, parent, sibling, pow_succ]
  rcases xor_one_cases b.index with ⟨h0, h⟩ | ⟨h0, h⟩ <;> rw [h]
  · rw [min_eq_left (Nat.mul_le_mul_right _ (Nat.le_succ _)),
      show b.index = 2 * (b.index / 2) by omega, Nat.mul_div_cancel_left _ (by omega)]
    ring
  · rw [min_eq_right (Nat.mul_le_mul_right _ (Nat.sub_le _ _)),
      show b.index - 1 = b.index / 2 * 2 by omega]
    ring

/-- The half of a block that starts where the block starts. -/
def lower (b : Block) : Block := ⟨b.order - 1, 2 * b.index⟩

/-- The half of a block that ends where the block ends. -/
def upper (b : Block) : Block := b.lower.sibling

@[simp] theorem order_lower (b : Block) : b.lower.order = b.order - 1 := rfl

@[simp] theorem order_upper (b : Block) : b.upper.order = b.order - 1 := rfl

theorem parent_lower (h : b.order ≠ 0) : b.lower.parent = b := by
  obtain ⟨k, i⟩ := b
  simp only [parent, lower, mk.injEq] at h ⊢
  omega

theorem base_lower (h : b.order ≠ 0) : b.lower.base = b.base := by
  obtain ⟨k, i⟩ := b
  obtain ⟨k, rfl⟩ := Nat.exists_eq_succ_of_ne_zero h
  simp only [base, lower, Nat.succ_sub_one, pow_succ]
  ring

theorem points_split (h : b.order ≠ 0) : b.points = b.lower.points ∪ b.upper.points := by
  conv_lhs => rw [← parent_lower h]
  exact points_parent _

theorem disjoint_halves (b : Block) : Disjoint b.lower.points b.upper.points :=
  b.lower.disjoint_sibling

/-! ### Splitting down to an order

Splitting a block again and again, always keeping the lower half, leaves the block of the last order
at its front and one half of every order above. -/

/-- The block of order `k` at the front. -/
def front (b : Block) (k : ℕ) : Block := around k b.base

/-- The block of order `k` next to the one at the front. -/
def half (b : Block) (k : ℕ) : Block := (b.front k).sibling

@[simp] theorem order_front (b : Block) (k : ℕ) : (b.front k).order = k := rfl

@[simp] theorem order_half (b : Block) (k : ℕ) : (b.half k).order = k := rfl

theorem base_front {k : ℕ} (h : k ≤ b.order) : (b.front k).base = b.base :=
  base_around ((Nat.pow_dvd_pow 2 h).trans b.dvd_base)

theorem base_half {k : ℕ} (h : k < b.order) : (b.half k).base = b.base + 2 ^ k := by
  have heven : (b.front k).index % 2 = 0 := by
    obtain ⟨d, hd⟩ := Nat.exists_eq_add_of_lt h
    have hindex : (b.front k).index = 2 * (b.index * 2 ^ d) := by
      refine Nat.div_eq_of_eq_mul_left (Nat.two_pow_pos k) ?_
      rw [base, hd]
      ring
    omega
  rw [← base_front h.le]
  rcases xor_one_cases (b.front k).index with ⟨-, hxor⟩ | ⟨hodd, -⟩
  · rw [half, sibling, base, base, hxor, order_front]
    ring
  · omega

theorem base_lt_base_half {k : ℕ} (h : k < b.order) : b.base < (b.half k).base := by
  rw [base_half h]
  exact Nat.lt_add_of_pos_right (Nat.two_pow_pos k)

theorem mem_points_front {k : ℕ} (h : k ≤ b.order) :
    n ∈ (b.front k).points ↔ b.base ≤ n ∧ n < b.base + 2 ^ k := by
  rw [mem_points_iff, base_front h, order_front]

theorem mem_points_half {k : ℕ} (h : k < b.order) :
    n ∈ (b.half k).points ↔ b.base + 2 ^ k ≤ n ∧ n < b.base + 2 ^ (k + 1) := by
  rw [mem_points_iff, base_half h, order_half, pow_succ]
  omega

theorem points_half_subset {k : ℕ} (h : k < b.order) : (b.half k).points ⊆ b.points := by
  intro n hn
  have hpow : 2 ^ (k + 1) ≤ 2 ^ b.order := Nat.pow_le_pow_right (by decide) h
  have := (mem_points_half h).mp hn
  exact mem_points_iff.mpr (by omega)

/-- **The front and the halves tile the block.** -/
theorem points_eq_front_union_halves {k : ℕ} (h : k ≤ b.order) :
    b.points = (b.front k).points ∪ ⋃ j ∈ Set.Ico k b.order, (b.half j).points := by
  ext n
  simp only [Set.mem_union, Set.mem_iUnion]
  constructor
  · intro hn
    obtain ⟨hge, hlt⟩ := mem_points_iff.mp hn
    by_cases hfront : n < b.base + 2 ^ k
    · exact Or.inl ((mem_points_front h).mpr ⟨hge, hfront⟩)
    -- the half is the one whose order is the logarithm of the distance
    · have hpos : 0 < 2 ^ k := Nat.two_pow_pos k
      have hlog := Nat.lt_pow_succ_log_self (by decide : 1 < 2) (n - b.base)
      have hlog' := Nat.pow_log_le_self 2 (show n - b.base ≠ 0 by omega)
      have hk : k ≤ Nat.log 2 (n - b.base) :=
        Nat.le_log_of_pow_le (by decide) (by omega)
      have hb : Nat.log 2 (n - b.base) < b.order := Nat.log_lt_of_lt_pow (by omega) (by omega)
      exact Or.inr ⟨_, ⟨hk, hb⟩, (mem_points_half hb).mpr (by omega)⟩
  · rintro (hn | ⟨j, hj, hn⟩)
    · have hpow : 2 ^ k ≤ 2 ^ b.order := Nat.pow_le_pow_right (by decide) h
      have := (mem_points_front h).mp hn
      exact mem_points_iff.mpr (by omega)
    · exact points_half_subset hj.2 hn

theorem disjoint_front_half {k j : ℕ} (h : k ≤ j) (hj : j < b.order) :
    Disjoint (b.front k).points (b.half j).points := by
  refine Set.disjoint_left.mpr fun n hn hn' => ?_
  have hpow : 2 ^ k ≤ 2 ^ j := Nat.pow_le_pow_right (by decide) h
  have := (mem_points_front (h.trans hj.le)).mp hn
  have := (mem_points_half hj).mp hn'
  omega

theorem disjoint_half_half {i j : ℕ} (h : i < j) (hj : j < b.order) :
    Disjoint (b.half i).points (b.half j).points := by
  refine Set.disjoint_left.mpr fun n hn hn' => ?_
  have hpow : 2 ^ (i + 1) ≤ 2 ^ j := Nat.pow_le_pow_right (by decide) h
  have := (mem_points_half (h.trans hj)).mp hn
  have := (mem_points_half hj).mp hn'
  omega

end Block

end Auos
