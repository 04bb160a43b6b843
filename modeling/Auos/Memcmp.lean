import Auos.Acpi.Memory

/-!
# The order of `memcmp`

What `memcmp` of `utility.c` returns for two arrays, beside whether they are equal. The C library
compares the first bytes that differ as unsigned characters. The kernel subtracts them as `char`, which
is signed on x86, and so a byte above 127 counts as negative.

The loop runs while its pointer is below the end of the left array. An array that reaches the end of
the address space has the end 0, and is not compared at all.

## Main definitions

* `memcmp`
* `FirstDifference`, `Orders` — what the C library promises

## Main results

* `memcmp_orders_iff` — the arrays that `memcmp` compares as the C library does
-/

namespace Auos

/-- `memcmp`. -/
def memcmp (mem : VirtualMemory) (lptr rptr size : ℕ) : Option ℤ :=
  memcmpLoop (bytesAt mem lptr) (bytesAt mem rptr) (memcmpRounds lptr size) 0

/-- The arrays differ at `i` and nowhere before. -/
def FirstDifference (l r : ℕ → UInt8) (i : ℕ) : Prop := (∀ j < i, l j = r j) ∧ l i ≠ r i

/-- `ret` is zero for arrays that are equal, and else has the sign of the first bytes that differ. -/
structure Orders (l r : ℕ → UInt8) (size : ℕ) (ret : ℤ) : Prop where
  eq_zero_iff : ret = 0 ↔ ∀ i < size, l i = r i
  neg_iff : ∀ i < size, FirstDifference l r i → (ret < 0 ↔ l i < r i)
  pos_iff : ∀ i < size, FirstDifference l r i → (0 < ret ↔ r i < l i)

/-- The pointer finds the bytes of an array. -/
def ArrayAt (mem : VirtualMemory) (ptr : ℕ) (a : ℕ → UInt8) (size : ℕ) : Prop :=
  ∀ i < size, bytesAt mem ptr i = some (a i)

variable {mem : VirtualMemory} {lptr rptr size i n : ℕ} {l r : ℕ → UInt8} {x y : UInt8}

/-! ### Signed characters -/

/-- The value of a `char`. -/
theorem toInt_eq (x : UInt8) :
    x.toBitVec.toInt = if x < 128 then (x.toNat : ℤ) else (x.toNat : ℤ) - 256 := by
  have hiff : x < 128 ↔ x.toNat < 128 := UInt8.lt_iff_toNat_lt
  rw [BitVec.toInt_eq_toNat_cond, UInt8.toNat_toBitVec]
  simp only [hiff]
  split <;> split <;> omega

/-- The difference of two characters has the right sign exactly if they have the same top bit. -/
theorem toInt_sub_neg_iff (h : x ≠ y) :
    (x.toBitVec.toInt - y.toBitVec.toInt < 0 ↔ x < y) ↔ (x < 128 ↔ y < 128) := by
  have hne : x.toNat ≠ y.toNat := fun heq => h (UInt8.toNat_inj.mp heq)
  have hx := x.toNat_lt
  have hy := y.toNat_lt
  have hx128 : x < 128 ↔ x.toNat < 128 := UInt8.lt_iff_toNat_lt
  have hy128 : y < 128 ↔ y.toNat < 128 := UInt8.lt_iff_toNat_lt
  have hxy : x < y ↔ x.toNat < y.toNat := UInt8.lt_iff_toNat_lt
  rw [toInt_eq, toInt_eq, hxy]
  simp only [hx128, hy128]
  split <;> split <;> omega

/-! ### The loop -/

/-- The loop stops at the first difference from `i` on and returns it. -/
theorem memcmpLoop_first (hl : ArrayAt mem lptr l size) (hr : ArrayAt mem rptr r size)
    (hsize : i + n ≤ size) {k : ℕ} (hle : i ≤ k) (hlt : k < i + n)
    (hsame : ∀ j, i ≤ j → j < k → l j = r j) (hdiff : l k ≠ r k) :
    memcmpLoop (bytesAt mem lptr) (bytesAt mem rptr) n i =
      some ((l k).toBitVec.toInt - (r k).toBitVec.toInt) := by
  induction n generalizing i with
  | zero => omega
  | succ n ih =>
    rw [memcmpLoop_succ (hl i (by omega)) (hr i (by omega))]
    rcases Nat.eq_or_lt_of_le hle with rfl | hik
    · exact if_pos hdiff
    · rw [if_neg (not_not.mpr (hsame i (Nat.le_refl i) hik))]
      exact ih (by omega) hik (by omega) fun j hj => hsame j (by omega)

/-- Arrays that are not equal have a first difference. -/
theorem exists_firstDifference (h : ¬ ∀ i < size, l i = r i) : ∃ i < size, FirstDifference l r i := by
  push Not at h
  classical
  obtain ⟨hi, hdiff⟩ := Nat.find_spec h
  refine ⟨Nat.find h, hi, ?_, hdiff⟩
  intro j hj
  by_contra hne
  exact Nat.find_min h hj ⟨hj.trans hi, hne⟩

theorem FirstDifference.unique {j : ℕ} (hi : FirstDifference l r i) (hj : FirstDifference l r j) :
    i = j := by
  rcases Nat.lt_trichotomy i j with hlt | heq | hgt
  · exact absurd (hj.1 i hlt) hi.2
  · exact heq
  · exact absurd (hi.1 j hgt) hj.2

/-- The rounds of `memcmp`: all bytes, unless the left array reaches the end of the address space. -/
theorem memcmpRounds_eq (hlptr : lptr < 2 ^ 32) (hsize : size < 2 ^ 32) :
    memcmpRounds lptr size = if lptr + size < 2 ^ 32 then size else 0 := by
  unfold memcmpRounds wadd wrap
  by_cases hwrap : lptr + size < 2 ^ 32
  · rw [Nat.mod_eq_of_lt hwrap, if_pos hwrap]
    split <;> omega
  · rw [if_neg hwrap, if_neg]
    omega

/-! ### What is returned -/

/-- Equal arrays compare as zero, wherever they are. -/
theorem memcmp_of_eq (hl : ArrayAt mem lptr l size) (hr : ArrayAt mem rptr r size)
    (h : ∀ i < size, l i = r i) : memcmp mem lptr rptr size = some 0 := by
  have hrounds : memcmpRounds lptr size ≤ size := by
    unfold memcmpRounds
    split
    · exact Nat.le_refl size
    · exact Nat.zero_le size
  rw [memcmp, memcmpLoop_eq_zero_iff]
  intro k hk
  have hlt : k < size := hk.trans_le hrounds
  rw [Nat.zero_add]
  exact ⟨l k, hl k hlt, h k hlt ▸ hr k hlt⟩

/-- Arrays that differ compare as the difference of the first characters that differ. -/
theorem memcmp_of_firstDifference (hl : ArrayAt mem lptr l size) (hr : ArrayAt mem rptr r size)
    (hlptr : lptr < 2 ^ 32) (hend : lptr + size < 2 ^ 32) (hi : i < size)
    (hdiff : FirstDifference l r i) :
    memcmp mem lptr rptr size = some ((l i).toBitVec.toInt - (r i).toBitVec.toInt) := by
  rw [memcmp, memcmpRounds_eq hlptr (by omega), if_pos hend]
  exact memcmpLoop_first hl hr (by omega) (Nat.zero_le i) (by omega) (fun j _ => hdiff.1 j) hdiff.2

/-- An array that reaches the end of the address space is not compared. -/
theorem memcmp_of_wrap (hlptr : lptr < 2 ^ 32) (hsize : size < 2 ^ 32) (hend : 2 ^ 32 ≤ lptr + size) :
    memcmp mem lptr rptr size = some 0 := by
  rw [memcmp, memcmpRounds_eq hlptr hsize, if_neg (Nat.not_lt.mpr hend)]
  rfl

/-- The difference of the first characters that differ has the right sign exactly if they have the same
top bit. -/
theorem orders_firstDifference (hi : i < size) (hdiff : FirstDifference l r i) :
    Orders l r size ((l i).toBitVec.toInt - (r i).toBitVec.toInt) ↔ (l i < 128 ↔ r i < 128) := by
  rw [← toInt_sub_neg_iff hdiff.2]
  have hne := toInt_sub_ne_zero hdiff.2
  have hne' : (l i).toNat ≠ (r i).toNat := fun heq => hdiff.2 (UInt8.toNat_inj.mp heq)
  constructor
  · intro horders
    exact horders.neg_iff i hi hdiff
  · intro hneg
    refine ⟨iff_of_false hne fun hequal => hdiff.2 (hequal i hi), ?_, ?_⟩
    · intro j _ hj
      rwa [hj.unique hdiff]
    · intro j _ hj
      rw [UInt8.lt_iff_toNat_lt] at hneg
      rw [hj.unique hdiff, UInt8.lt_iff_toNat_lt]
      omega

/-- **`memcmp` compares as the C library does exactly** if the arrays are equal, or the left one ends
below the end of the address space and the first bytes that differ have the same top bit. -/
theorem memcmp_orders_iff (hlptr : lptr < 2 ^ 32) (hsize : size < 2 ^ 32)
    (hl : ArrayAt mem lptr l size) (hr : ArrayAt mem rptr r size) :
    (∃ ret, memcmp mem lptr rptr size = some ret ∧ Orders l r size ret) ↔
      (∀ i < size, l i = r i) ∨
        lptr + size < 2 ^ 32 ∧ ∀ i < size, FirstDifference l r i → (l i < 128 ↔ r i < 128) := by
  by_cases hequal : ∀ i < size, l i = r i
  · refine iff_of_true ⟨0, memcmp_of_eq hl hr hequal, ?_⟩ (Or.inl hequal)
    refine ⟨iff_of_true rfl hequal, ?_, ?_⟩
    · intro i hi hdiff
      exact absurd (hequal i hi) hdiff.2
    · intro i hi hdiff
      exact absurd (hequal i hi) hdiff.2
  obtain ⟨i, hi, hdiff⟩ := exists_firstDifference hequal
  have hall : (∀ j < size, FirstDifference l r j → (l j < 128 ↔ r j < 128)) ↔
      (l i < 128 ↔ r i < 128) := by
    constructor
    · intro h
      exact h i hi hdiff
    · intro h j _ hj
      rwa [hj.unique hdiff]
  rw [or_iff_right hequal, hall]
  by_cases hend : lptr + size < 2 ^ 32
  · have hret := memcmp_of_firstDifference hl hr hlptr hend hi hdiff
    rw [and_iff_right hend, ← orders_firstDifference hi hdiff]
    constructor
    · rintro ⟨ret, hmemcmp, horders⟩
      rw [hret] at hmemcmp
      cases hmemcmp
      exact horders
    · intro horders
      exact ⟨_, hret, horders⟩
  · refine iff_of_false ?_ fun h => hend h.1
    rintro ⟨ret, hmemcmp, horders⟩
    rw [memcmp_of_wrap hlptr hsize (Nat.le_of_not_lt hend)] at hmemcmp
    cases hmemcmp
    exact hequal (horders.eq_zero_iff.mp rfl)

/-- Two characters of ASCII. -/
theorem memcmp_orders_ascii :
    ∃ ret, memcmp (fun a => some (if a = 0 then 65 else 66)) 0 1 1 = some ret ∧
      Orders (fun _ => 65) (fun _ => 66) 1 ret := by
  refine (memcmp_orders_iff (by decide) (by decide) ?_ ?_).mpr (Or.inr ⟨by decide, ?_⟩)
  · intro i hi
    rw [Nat.lt_one_iff.mp hi]
    rfl
  · intro i hi
    rw [Nat.lt_one_iff.mp hi]
    rfl
  · intro i _ _
    decide

/-- **A byte above 127 compares as smaller than any byte below.** -/
theorem memcmp_signed :
    ¬ ∀ (mem : VirtualMemory) (lptr rptr size : ℕ) (l r : ℕ → UInt8), lptr < 2 ^ 32 →
      size < 2 ^ 32 → ArrayAt mem lptr l size → ArrayAt mem rptr r size →
        ∃ ret, memcmp mem lptr rptr size = some ret ∧ Orders l r size ret := by
  intro h
  obtain ⟨ret, hret, horders⟩ := h (fun a => some (if a = 0 then 0x80 else 0x01)) 0 1 1
    (fun _ => 0x80) (fun _ => 0x01) (by decide) (by decide)
    (fun i hi => by rw [Nat.lt_one_iff.mp hi]; rfl) (fun i hi => by rw [Nat.lt_one_iff.mp hi]; rfl)
  have hvalue : ret = -129 := Option.some.inj (hret.symm.trans (by decide))
  have hpos := horders.pos_iff 0 Nat.one_pos ⟨fun j hj => absurd hj (Nat.not_lt_zero j), by decide⟩
  have hlt : (0x01 : UInt8) < 0x80 := by decide
  have hret' : 0 < ret := hpos.mpr hlt
  omega

end Auos
