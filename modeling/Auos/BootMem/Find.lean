import Auos.BootMem.Coverage
import Mathlib.Data.List.GetD

/-!
# The search of the boot allocator

`boot_mem_find` walks the memory table and, inside each memory range, jumps over the reserved ranges
with one cursor `j` that is never reset. What makes the cursor sound is that everything before it
ends at or before the address under consideration. Inside one memory range that address only grows;
from one memory range to the next it may fall back when the two overlap. `CursorSafe` says that no
reserved range is lost this way; it always holds when the memory ranges do not overlap.

The exact first-fit property holds as long as no 32-bit addition wraps at an address where the search
can stand. `StandsAt` says which these are, in terms of the tables and the arguments.

## Main definitions

* `Apart` — ranges do not overlap
* `CursorSafe` — the cursor never has to go back
* `Clear`, `Candidate` — an address range that meets no reserved range, and one that may be returned
* `FirstClear`, `FirstFit` — the first such address in one memory range, and in all of them
* `StandsAt`, `NoWrap` — the addresses the search rounds up and adds the size to

## Main results

* `bootMemFindWhile_round` — one round of the `while` loop
* `bootMemFind_spec_of_noWrap` — the result is the least candidate, or `to` when there is none
-/

namespace Auos

open BootMemType

variable {capacity size align k beginAddr endAddr fromAddr toAddr j n : ℕ}
  {mem res : BootMemType capacity} {R M : List BootMemRange} {r : BootMemRange}

/-- Non-empty ranges that may touch but do not overlap. -/
structure Apart (l : List BootMemRange) : Prop where
  /-- No range is empty. -/
  nonempty : ∀ r ∈ l, r.beginAddr < r.endAddr
  /-- Each range ends before the later ones begin. -/
  sorted : l.Pairwise fun a b => a.endAddr ≤ b.beginAddr

theorem apart_iff : Apart M ↔
    (∀ r ∈ M, r.beginAddr < r.endAddr) ∧ M.Pairwise fun a b => a.endAddr ≤ b.beginAddr :=
  ⟨fun h => ⟨h.nonempty, h.sorted⟩, fun h => ⟨h.1, h.2⟩⟩

theorem apart_cons :
    Apart (r :: M) ↔ r.beginAddr < r.endAddr ∧ (∀ a ∈ M, r.endAddr ≤ a.beginAddr) ∧ Apart M := by
  rw [apart_iff, nonempty_pairwise_cons, apart_iff]

/-- `[addr, addr + size)` meets none of the ranges. -/
def Clear (R : List BootMemRange) (addr size : ℕ) : Prop :=
  ∀ r ∈ R, r.endAddr ≤ addr ∨ addr + size ≤ r.beginAddr

/-- `[addr, addr + size)` is an aligned part of `[from, to)` that lies in one memory range and meets
no reserved range. -/
structure Candidate (M R : List BootMemRange) (size align fromAddr toAddr addr : ℕ) : Prop where
  dvd : align ∣ addr
  from_le : fromAddr ≤ addr
  le_to : addr + size ≤ toAddr
  inside : ∃ m ∈ M, m.beginAddr ≤ addr ∧ addr + size ≤ m.endAddr
  clear : Clear R addr size

/-- Every range before the cursor ends at or before `addr`. -/
def PastCursor (R : List BootMemRange) (j addr : ℕ) : Prop :=
  ∀ m r, m < j → R[m]? = some r → r.endAddr ≤ addr

theorem PastCursor.mono {a b : ℕ} (h : PastCursor R j a) (hab : a ≤ b) : PastCursor R j b :=
  fun m r hm hr => (h m r hm hr).trans hab

/-! ### The scan of the reserved table -/

theorem bootMemFindReserved_spec (hf : res.Fits) (hj : j + n = res.size)
    (hpast : PastCursor res.contents j beginAddr) :
    ∃ j', bootMemFindReserved res beginAddr j n = some j' ∧ j ≤ j' ∧ j' ≤ res.size ∧
      PastCursor res.contents j' beginAddr ∧
      ∀ r, res.contents[j']? = some r → beginAddr < r.endAddr := by
  induction n generalizing j with
  | zero =>
    refine ⟨j, rfl, le_rfl, by omega, hpast, ?_⟩
    intro r hr
    rw [List.getElem?_eq_none (by rw [length_contents hf]; omega)] at hr
    cases hr
  | succ n ih =>
    have hlt : j < res.contents.length := by rw [length_contents hf]; omega
    have hcell := List.getElem?_eq_getElem hlt
    have hget : res.get j = some res.contents[j] := by rw [get_eq_getElem? (by omega), hcell]
    by_cases hend : res.contents[j].endAddr > beginAddr
    · refine ⟨j, by simp [bootMemFindReserved, hget, hend], le_rfl, by omega, hpast, ?_⟩
      intro r hr
      rw [hcell] at hr
      cases hr
      exact hend
    · have hpast' : PastCursor res.contents (j + 1) beginAddr := by
        intro m r hm hr
        rcases Nat.lt_succ_iff_lt_or_eq.mp hm with hm | rfl
        · exact hpast m r hm hr
        · rw [hcell] at hr; cases hr; exact not_lt.mp hend
      obtain ⟨j', hret, hle, hspec⟩ := ih (j := j + 1) (by omega) hpast'
      exact ⟨j', by simp [bootMemFindReserved, hget, hend, hret], by omega, hspec⟩

/-! ### The `while` loop -/

/-- The loop falls through when the range is used up. -/
theorem bootMemFindWhile_of_ge (h : ¬ beginAddr < endAddr) (fuel : ℕ) :
    bootMemFindWhile res size align endAddr (fuel + 1) beginAddr j = some (.inr j) := by
  rw [bootMemFindWhile, if_neg h]

/-- The loop falls through when the aligned request does not fit. -/
theorem bootMemFindWhile_of_gt (h : beginAddr < endAddr)
    (hfit : wadd (alignUp beginAddr align) size > endAddr) (res : BootMemType capacity)
    (j fuel : ℕ) :
    bootMemFindWhile res size align endAddr (fuel + 1) beginAddr j = some (.inr j) := by
  rw [bootMemFindWhile, if_pos h]
  dsimp only
  rw [if_pos hfit]

/-- A round that reaches the reserved table: what it does depends on the range under the cursor. -/
theorem bootMemFindWhile_of_le (h : beginAddr < endAddr)
    (hfit : ¬ wadd (alignUp beginAddr align) size > endAddr) (res : BootMemType capacity)
    (j fuel : ℕ) :
    bootMemFindWhile res size align endAddr (fuel + 1) beginAddr j =
      (bootMemFindReserved res (alignUp beginAddr align) j (res.size - j)).bind fun j =>
        if j = res.size then some (.inl (alignUp beginAddr align))
        else (res.get j).bind fun range =>
          if range.beginAddr ≥ wadd (alignUp beginAddr align) size then
            some (.inl (alignUp beginAddr align))
          else bootMemFindWhile res size align endAddr fuel range.endAddr j := by
  rw [bootMemFindWhile, if_pos h]
  dsimp only
  rw [if_neg hfit]
  rfl

/-! ### First fit -/

/-- The least multiple of `2 ^ k` at or above an address is where `align_up` goes. -/
theorem alignUp_le_of_dvd {x a : ℕ} (hk : k < 32) (hx : x + (2 ^ k - 1) < 2 ^ 32)
    (ha : 2 ^ k ∣ a) (hxa : x ≤ a) : alignUp x (2 ^ k) ≤ a := by
  obtain ⟨q, rfl⟩ := ha
  have hpos : 0 < 2 ^ k := Nat.two_pow_pos k
  have hdiv : (x + (2 ^ k - 1)) / 2 ^ k < q + 1 := by
    rw [Nat.div_lt_iff_lt_mul hpos, Nat.add_mul, Nat.mul_comm q]
    omega
  rw [alignUp_eq hk hx, Nat.mul_comm]
  exact Nat.mul_le_mul_left _ (by omega)

/-- `a` is the least aligned address from `begin` on that is clear and fits below `end`. -/
structure FirstClear (R : List BootMemRange) (size align beginAddr endAddr a : ℕ) : Prop where
  dvd : align ∣ a
  begin_le : beginAddr ≤ a
  le_end : a + size ≤ endAddr
  clear : Clear R a size
  least : ∀ a', align ∣ a' → beginAddr ≤ a' → a' < a → ¬ Clear R a' size

/-- No aligned address from `begin` on is clear and fits below `end`. -/
def NoneClear (R : List BootMemRange) (size align beginAddr endAddr : ℕ) : Prop :=
  ∀ a, align ∣ a → beginAddr ≤ a → a + size ≤ endAddr → ¬ Clear R a size

/-- Addresses that are not clear may be skipped. -/
theorem FirstClear.of_skip {a addr : ℕ} (h : FirstClear R size align addr endAddr a)
    (hle : beginAddr ≤ addr)
    (hskip : ∀ a', align ∣ a' → beginAddr ≤ a' → a' < addr → ¬ Clear R a' size) :
    FirstClear R size align beginAddr endAddr a where
  dvd := h.dvd
  begin_le := hle.trans h.begin_le
  le_end := h.le_end
  clear := h.clear
  least := by
    intro a' hd hb hlt
    rcases Nat.lt_or_ge a' addr with hskipped | hge
    · exact hskip a' hd hb hskipped
    · exact h.least a' hd hge hlt

theorem NoneClear.of_skip {addr : ℕ} (h : NoneClear R size align addr endAddr)
    (hskip : ∀ a', align ∣ a' → beginAddr ≤ a' → a' < addr → ¬ Clear R a' size) :
    NoneClear R size align beginAddr endAddr := by
  intro a' hd hb hend
  rcases Nat.lt_or_ge a' addr with hskipped | hge
  · exact hskip a' hd hb hskipped
  · exact h a' hd hge hend

/-- Every range is before the cursor or at or after it, so the one under the cursor decides. -/
theorem apart_of_pastCursor {a s : ℕ} (hord : Ordered R) (hpast : PastCursor R j a)
    (hafter : ∀ r, R[j]? = some r → s ≤ r.beginAddr) : ∀ r ∈ R, r.endAddr ≤ a ∨ s ≤ r.beginAddr := by
  intro r hr
  obtain ⟨m, hm, rfl⟩ := List.getElem_of_mem hr
  rcases Nat.lt_or_ge m j with hmj | hmj
  · exact Or.inl (hpast m _ hmj (List.getElem?_eq_getElem hm))
  · have hj : j < R.length := by omega
    have hfst := hafter _ (List.getElem?_eq_getElem hj)
    rcases Nat.eq_or_lt_of_le hmj with rfl | hlt
    · exact Or.inr hfst
    · have hsorted := List.pairwise_iff_getElem.mp hord.sorted j m hj hm hlt
      exact Or.inr (by omega)

/-- One round of the `while` loop, as long as rounding up does not wrap. The sum may: it is compared as
it comes. -/
theorem bootMemFindWhile_round_wadd (hf : res.Fits) (hord : Ordered res.contents) (hk : k < 32)
    (hround : beginAddr + (2 ^ k - 1) < 2 ^ 32) (fuel : ℕ) (hj : j ≤ res.size)
    (hpast : PastCursor res.contents j beginAddr) (hlt : beginAddr < endAddr) {a s : ℕ}
    (ha : alignUp beginAddr (2 ^ k) = a) (hs : wadd a size = s) :
    (endAddr < s ∧
      bootMemFindWhile res size (2 ^ k) endAddr (fuel + 1) beginAddr j = some (.inr j)) ∨
    (s ≤ endAddr ∧
      bootMemFindWhile res size (2 ^ k) endAddr (fuel + 1) beginAddr j = some (.inl a) ∧
      ∀ r ∈ res.contents, r.endAddr ≤ a ∨ s ≤ r.beginAddr) ∨
    (s ≤ endAddr ∧ ∃ j' r, j ≤ j' ∧ j' < res.size ∧ res.contents[j']? = some r ∧ a < r.endAddr ∧
      r.beginAddr < s ∧ PastCursor res.contents j' a ∧
      bootMemFindWhile res size (2 ^ k) endAddr (fuel + 1) beginAddr j =
        bootMemFindWhile res size (2 ^ k) endAddr fuel r.endAddr j') := by
  have hge := le_alignUp hk hround
  rw [ha] at hge
  have hgtr := fun hfit : wadd (alignUp beginAddr (2 ^ k)) size > endAddr =>
    bootMemFindWhile_of_gt hlt hfit res j fuel
  have hstay := fun hfit : ¬wadd (alignUp beginAddr (2 ^ k)) size > endAddr =>
    bootMemFindWhile_of_le hlt hfit res j fuel
  rw [ha, hs] at hgtr hstay
  by_cases hfit : s > endAddr
  · exact Or.inl ⟨hfit, hgtr hfit⟩
  obtain ⟨j', hscan, hjj', hj', hpast₁, hcur⟩ := bootMemFindReserved_spec (n := res.size - j) hf
    (by omega) (hpast.mono hge)
  have hstay := hstay hfit
  rw [hscan, Option.bind_some] at hstay
  refine Or.inr ?_
  by_cases hend : j' = res.size
  · rw [if_pos hend] at hstay
    refine Or.inl ⟨not_lt.mp hfit, hstay, apart_of_pastCursor hord hpast₁ ?_⟩
    intro r hr
    rw [List.getElem?_eq_none (by rw [length_contents hf]; exact hend.ge)] at hr
    cases hr
  obtain ⟨r, hr⟩ : ∃ r, res.contents[j']? = some r :=
    ⟨_, List.getElem?_eq_getElem (by rw [length_contents hf]; omega)⟩
  rw [if_neg hend, get_eq_getElem? (by omega), hr, Option.bind_some] at hstay
  by_cases hmeet : r.beginAddr ≥ s
  · rw [if_pos hmeet] at hstay
    refine Or.inl ⟨not_lt.mp hfit, hstay, apart_of_pastCursor hord hpast₁ ?_⟩
    intro r' hr'
    rw [hr] at hr'
    cases hr'
    exact hmeet
  · rw [if_neg hmeet] at hstay
    exact Or.inr ⟨not_lt.mp hfit, j', r, hjj', by omega, hr, hcur r hr, not_le.mp hmeet, hpast₁, hstay⟩

/-- One round of the `while` loop: it ends with the first clear address, or it falls through and there
is none, or it goes on from the end of the reserved range under the cursor, before which nothing is
clear. -/
theorem bootMemFindWhile_round (hf : res.Fits) (hord : Ordered res.contents) (hk : k < 32)
    (hsize : 0 < size) (hround : beginAddr + (2 ^ k - 1) < 2 ^ 32)
    (hsum : alignUp beginAddr (2 ^ k) + size < 2 ^ 32) (fuel : ℕ) (hj : j ≤ res.size)
    (hpast : PastCursor res.contents j beginAddr) (hlt : beginAddr < endAddr) :
    (∃ a, bootMemFindWhile res size (2 ^ k) endAddr (fuel + 1) beginAddr j = some (.inl a) ∧
      FirstClear res.contents size (2 ^ k) beginAddr endAddr a) ∨
    (bootMemFindWhile res size (2 ^ k) endAddr (fuel + 1) beginAddr j = some (.inr j) ∧
      NoneClear res.contents size (2 ^ k) beginAddr endAddr) ∨
    ∃ j' r, j ≤ j' ∧ j' < res.size ∧ res.contents[j']? = some r ∧ beginAddr < r.endAddr ∧
      PastCursor res.contents j' r.endAddr ∧ PastCursor res.contents j' endAddr ∧
      (∃ a, 2 ^ k ∣ a ∧ beginAddr ≤ a ∧ a < r.endAddr ∧ r.beginAddr < a + size ∧ a + size ≤ endAddr ∧
        PastCursor res.contents j' a) ∧
      (∀ a, 2 ^ k ∣ a → beginAddr ≤ a → a < r.endAddr → ¬ Clear res.contents a size) ∧
      bootMemFindWhile res size (2 ^ k) endAddr (fuel + 1) beginAddr j =
        bootMemFindWhile res size (2 ^ k) endAddr fuel r.endAddr j' := by
  have hge := le_alignUp hk hround
  have hleast : ∀ a', 2 ^ k ∣ a' → beginAddr ≤ a' → alignUp beginAddr (2 ^ k) ≤ a' :=
    fun a' hd hb => alignUp_le_of_dvd hk hround hd hb
  have hdvd : 2 ^ k ∣ alignUp beginAddr (2 ^ k) := dvd_alignUp hk
  have hsteps := bootMemFindWhile_round_wadd hf hord hk hround fuel hj hpast hlt rfl (wadd_of_lt hsum)
  generalize alignUp beginAddr (2 ^ k) = a at *
  rcases hsteps with ⟨hfit, hret⟩ | ⟨hfit, hret, hclear⟩ |
    ⟨hfit, j', r, hjj', hj', hr, hrend, hmeet, hpast₁, hret⟩
  · refine Or.inr (Or.inl ⟨hret, ?_⟩)
    intro a' hd hb hend
    have := hleast a' hd hb
    omega
  · exact Or.inl ⟨a, hret, hdvd, hge, hfit, hclear,
      fun a' hd hb hlt' => absurd (hleast a' hd hb) (not_le.mpr hlt')⟩
  · refine Or.inr (Or.inr ⟨j', r, hjj', hj', hr, by omega, hpast₁.mono hrend.le,
      hpast₁.mono (by omega), ⟨a, hdvd, hge, hrend, hmeet, hfit, hpast₁⟩, ?_, hret⟩)
    intro a' hd hb hlt' hc
    have := hleast a' hd hb
    have := hc r (List.mem_of_getElem? hr)
    omega

/-- The additions made at an address do not wrap: rounding it up and adding the size. -/
def NoWrap (size align addr : ℕ) : Prop :=
  addr + (align - 1) < 2 ^ 32 ∧ alignUp addr align + size < 2 ^ 32

/-- An address below `end` at which the search of `[begin, end)` can stand: `begin`, or the end of the
first reserved range that ends after some aligned address `a` and meets the block there, while no
block before it is clear. -/
structure Stop (R : List BootMemRange) (size align beginAddr endAddr addr : ℕ) : Prop where
  lt_end : addr < endAddr
  reached : addr = beginAddr ∨ ∃ r ∈ R, addr = r.endAddr ∧ ∃ a, align ∣ a ∧ beginAddr ≤ a ∧
    a < r.endAddr ∧ r.beginAddr < a + size ∧ a + size ≤ endAddr ∧
    ∀ r' ∈ R, r'.beginAddr < r.beginAddr → r'.endAddr ≤ a
  none_before : ∀ a, align ∣ a → beginAddr ≤ a → a < addr → a + size ≤ endAddr → ¬ Clear R a size

theorem stop_begin (h : beginAddr < endAddr) :
    Stop R size align beginAddr endAddr beginAddr :=
  ⟨h, Or.inl rfl, fun _ _ hle hlt => absurd hlt (not_lt.mpr hle)⟩

/-- The ranges that begin before the one under the cursor are before the cursor. -/
theorem PastCursor.of_begin_lt {a : ℕ} (h : PastCursor R j a) (hord : Ordered R)
    (hr : R[j]? = some r) : ∀ r' ∈ R, r'.beginAddr < r.beginAddr → r'.endAddr ≤ a := by
  intro r' hr' hlt
  obtain ⟨m, hm, rfl⟩ := List.getElem_of_mem hr'
  obtain ⟨hj, rfl⟩ := List.getElem?_eq_some_iff.mp hr
  refine h m _ ?_ (List.getElem?_eq_getElem hm)
  by_contra hge
  rcases Nat.eq_or_lt_of_le (not_lt.mp hge) with rfl | hjm
  · exact lt_irrefl _ hlt
  · exact lt_asymm hlt (List.pairwise_iff_getElem.mp hord.sorted j m hj hm hjm)

/-- What the `while` loop computes over one memory range, from an address before which nothing is
clear: an address it returns is the first clear one; if it falls through there is none, and the
cursor is still past nothing that ends beyond the range. -/
theorem bootMemFindWhile_spec (hf : res.Fits) (hord : Ordered res.contents) (hk : k < 32)
    (hsize : 0 < size) {addr : ℕ}
    (hwrap : ∀ x, Stop res.contents size (2 ^ k) beginAddr endAddr x → NoWrap size (2 ^ k) x)
    {fuel : ℕ} (hj : j ≤ res.size) (hpast : PastCursor res.contents j addr)
    (hpast' : PastCursor res.contents j endAddr)
    (hfuel : res.size - j < fuel ∨
      res.size - j ≤ fuel ∧ ∃ r, res.contents[j]? = some r ∧ r.endAddr ≤ addr)
    (hle : beginAddr ≤ addr)
    (hstop : addr < endAddr → Stop res.contents size (2 ^ k) beginAddr endAddr addr)
    (hskip : ∀ a, 2 ^ k ∣ a → beginAddr ≤ a → a < addr → ¬ Clear res.contents a size) :
    (∃ a, bootMemFindWhile res size (2 ^ k) endAddr fuel addr j = some (.inl a) ∧
      FirstClear res.contents size (2 ^ k) beginAddr endAddr a) ∨
    (∃ j', bootMemFindWhile res size (2 ^ k) endAddr fuel addr j = some (.inr j') ∧
      j' ≤ res.size ∧ PastCursor res.contents j' endAddr ∧
      NoneClear res.contents size (2 ^ k) beginAddr endAddr) := by
  induction fuel generalizing addr j with
  | zero =>
    obtain h | ⟨h, r, hr, -⟩ := hfuel
    · omega
    · rw [List.getElem?_eq_none (by rw [length_contents hf]; omega)] at hr
      cases hr
  | succ fuel ih =>
    by_cases hlt : addr < endAddr
    swap
    · have hnone : NoneClear res.contents size (2 ^ k) addr endAddr := fun a' _ h₁ h₂ => by omega
      exact Or.inr ⟨j, bootMemFindWhile_of_ge hlt _, hj, hpast', hnone.of_skip hskip⟩
    obtain ⟨hround, hsum⟩ := hwrap addr (hstop hlt)
    rcases bootMemFindWhile_round hf hord hk hsize hround hsum fuel hj hpast hlt with
      ⟨a, hret, ha⟩ | ⟨hret, hnone⟩ |
      ⟨j', r, hjj', hj', hr, hrend, hpast₁, hpast₂, ⟨a, hda, hba, har, hra, hae, hpasta⟩, hskip', hret⟩
    · exact Or.inl ⟨a, hret, ha.of_skip hle hskip⟩
    · exact Or.inr ⟨j, hret, hj, hpast', hnone.of_skip hskip⟩
    -- the cursor has moved unless this was a fresh start, which has a round to spare
    have hfuel' : res.size - j' ≤ fuel := by
      rcases hfuel with hfuel | ⟨hfuel, r', hr', hle'⟩
      · omega
      · rcases Nat.eq_or_lt_of_le hjj' with rfl | hlt'
        · rw [hr] at hr'
          cases hr'
          omega
        · omega
    have hskip₁ : ∀ a, 2 ^ k ∣ a → beginAddr ≤ a → a < r.endAddr → ¬ Clear res.contents a size := by
      intro a' hd hb hlt'
      rcases Nat.lt_or_ge a' addr with hskipped | hge
      · exact hskip a' hd hb hskipped
      · exact hskip' a' hd hge hlt'
    rw [hret]
    exact ih hj'.le hpast₁ hpast₂ (Or.inr ⟨hfuel', r, hr, le_rfl⟩) (by omega)
      (fun hend => ⟨hend, Or.inr ⟨r, List.mem_of_getElem? hr, rfl, a, hda, by omega, har, hra, hae,
        hpasta.of_begin_lt hord hr⟩, fun a' hd hb hlt' _ => hskip₁ a' hd hb hlt'⟩) hskip₁

/-- The least candidate, or `to` when there is none. -/
def FirstFit (M R : List BootMemRange) (size align fromAddr toAddr x : ℕ) : Prop :=
  (x = toAddr ∧ ∀ a, ¬ Candidate M R size align fromAddr toAddr a) ∨
    (Candidate M R size align fromAddr toAddr x ∧
      ∀ a, Candidate M R size align fromAddr toAddr a → x ≤ a)

theorem Candidate.cons {a : ℕ} (h : Candidate M R size align fromAddr toAddr a) :
    Candidate (r :: M) R size align fromAddr toAddr a :=
  ⟨h.dvd, h.from_le, h.le_to, h.inside.imp fun _ hm => ⟨List.mem_cons_of_mem _ hm.1, hm.2⟩, h.clear⟩

/-- A candidate lies in the first memory range or is a candidate for the rest. -/
theorem Candidate.cases {a : ℕ} (h : Candidate (r :: M) R size align fromAddr toAddr a) :
    (r.beginAddr ≤ a ∧ a + size ≤ r.endAddr) ∨ Candidate M R size align fromAddr toAddr a := by
  obtain ⟨m, hm, hin⟩ := h.inside
  rcases List.mem_cons.mp hm with rfl | hm
  · exact Or.inl hin
  · exact Or.inr ⟨h.dvd, h.from_le, h.le_to, ⟨m, hm, hin⟩, h.clear⟩

/-- A memory range without candidates can be dropped. -/
theorem FirstFit.cons {x : ℕ} (h : FirstFit M R size align fromAddr toAddr x)
    (hno : ∀ a, Candidate (r :: M) R size align fromAddr toAddr a →
      ¬ (r.beginAddr ≤ a ∧ a + size ≤ r.endAddr)) :
    FirstFit (r :: M) R size align fromAddr toAddr x := by
  have hrest : ∀ a, Candidate (r :: M) R size align fromAddr toAddr a →
      Candidate M R size align fromAddr toAddr a :=
    fun a ha => ha.cases.resolve_left (hno a ha)
  rcases h with ⟨rfl, hnone⟩ | ⟨hx, hmin⟩
  · exact Or.inl ⟨rfl, fun a ha => hnone a (hrest a ha)⟩
  · exact Or.inr ⟨hx.cons, fun a ha => hmin a (hrest a ha)⟩

/-- A candidate inside the first memory range lies in the part of it that is searched. -/
theorem Candidate.bounds {a : ℕ} (h : Candidate M R size align fromAddr toAddr a)
    (hin : r.beginAddr ≤ a ∧ a + size ≤ r.endAddr) :
    max r.beginAddr fromAddr ≤ a ∧ a + size ≤ min r.endAddr toAddr :=
  ⟨max_le hin.1 h.from_le, le_min hin.2 h.le_to⟩

/-- The first clear address of the first memory range is the least candidate: a smaller one in a later
range would lie in this one too. -/
theorem FirstClear.firstFit {a : ℕ} (hord : Ordered (r :: M))
    (h : FirstClear R size align (max r.beginAddr fromAddr) (min r.endAddr toAddr) a) :
    FirstFit (r :: M) R size align fromAddr toAddr a := by
  have hbegin := h.begin_le
  have hend := h.le_end
  have hcand : Candidate (r :: M) R size align fromAddr toAddr a :=
    ⟨h.dvd, by omega, by omega, ⟨r, List.mem_cons_self, by omega, by omega⟩, h.clear⟩
  refine Or.inr ⟨hcand, ?_⟩
  intro a' ha'
  by_contra hlt
  have hin : r.beginAddr ≤ a' ∧ a' + size ≤ r.endAddr := by
    obtain ⟨m, hm, hin⟩ := ha'.inside
    rcases List.mem_cons.mp hm with rfl | hm
    · exact hin
    · have := (ordered_cons.mp hord).2.1 m hm
      omega
  exact h.least a' ha'.dvd (ha'.bounds hin).1 (not_le.mp hlt) ha'.clear

/-- A memory range without clear addresses can be dropped. -/
theorem FirstFit.of_noneClear {x : ℕ} (h : FirstFit M R size align fromAddr toAddr x)
    (hnone : NoneClear R size align (max r.beginAddr fromAddr) (min r.endAddr toAddr)) :
    FirstFit (r :: M) R size align fromAddr toAddr x :=
  h.cons fun a ha hin => hnone a ha.dvd (ha.bounds hin).1 (ha.bounds hin).2 ha.clear

/-- A reserved range that ends by the end of an earlier memory range ends by the start of every later
one, as far as these lie in `[from, to)`. Then the cursor may stay where it is from one memory range
to the next. -/
def CursorSafe (M R : List BootMemRange) (fromAddr toAddr : ℕ) : Prop :=
  M.Pairwise fun a b => ∀ r ∈ R, r.endAddr ≤ min a.endAddr toAddr →
    r.endAddr ≤ max b.beginAddr fromAddr

/-- Memory ranges without overlaps are safe for every reserved table. -/
theorem Apart.cursorSafe (h : Apart M) (R : List BootMemRange) (fromAddr toAddr : ℕ) :
    CursorSafe M R fromAddr toAddr :=
  h.sorted.imp fun hab _ _ hr => by omega

theorem Apart.ordered (h : Apart M) : Ordered M := by
  refine ⟨h.nonempty, h.sorted.imp_of_mem fun ha _ hab => ?_⟩
  have := h.nonempty _ ha
  omega

/-- An address at which the search can stand before it has found the least candidate. -/
def StandsAt (M R : List BootMemRange) (size align fromAddr toAddr addr : ℕ) : Prop :=
  (∃ m ∈ M, Stop R size align (max m.beginAddr fromAddr) (min m.endAddr toAddr) addr) ∧
    ∀ c, Candidate M R size align fromAddr toAddr c → addr ≤ c

/-- A memory range without candidates adds no restriction. -/
theorem StandsAt.cons {x : ℕ} (h : StandsAt M R size align fromAddr toAddr x)
    (hno : ∀ a, Candidate (r :: M) R size align fromAddr toAddr a →
      ¬ (r.beginAddr ≤ a ∧ a + size ≤ r.endAddr)) :
    StandsAt (r :: M) R size align fromAddr toAddr x := by
  obtain ⟨⟨m, hm, hstop⟩, hfirst⟩ := h
  exact ⟨⟨m, List.mem_cons_of_mem r hm, hstop⟩, fun c hc => hfirst c (hc.cases.resolve_left (hno c hc))⟩

/-- The search of the first memory range stands before every candidate. -/
theorem Stop.standsAt {x : ℕ} (hord : Ordered (r :: M))
    (h : Stop R size align (max r.beginAddr fromAddr) (min r.endAddr toAddr) x) :
    StandsAt (r :: M) R size align fromAddr toAddr x := by
  have hend := h.lt_end
  refine ⟨⟨r, List.mem_cons_self, h⟩, ?_⟩
  intro c hc
  by_contra hlt
  have hle := hc.le_to
  have hfrom := hc.from_le
  -- the block lies in the first memory range, or in a later one that begins inside it
  obtain ⟨m, hm, hin⟩ := hc.inside
  have hbegin : r.beginAddr ≤ m.beginAddr := by
    rcases List.mem_cons.mp hm with rfl | hm
    · exact le_rfl
    · exact ((ordered_cons.mp hord).2.1 m hm).le
  by_cases hfit : c + size ≤ r.endAddr
  · exact h.none_before c hc.dvd (by omega) (not_le.mp hlt) (by omega) hc.clear
  · obtain rfl | ⟨q, hq, rfl, a, -, hba, haq, hqa, hae, -⟩ := h.reached
    · omega
    · have := hc.clear q hq
      omega

theorem bootMemFindFor_spec (hmf : mem.Fits) (hf : res.Fits) (hord : Ordered res.contents)
    (hk : k < 32) (hsize : 0 < size) {i : ℕ} (hi : i + n = mem.size)
    (hmem : Ordered (mem.contents.drop i))
    (hwrap : ∀ x, StandsAt (mem.contents.drop i) res.contents size (2 ^ k) fromAddr toAddr x →
      NoWrap size (2 ^ k) x)
    (hsafe : CursorSafe (mem.contents.drop i) res.contents fromAddr toAddr) (hj : j ≤ res.size)
    (hpast : ∀ m ∈ mem.contents.drop i, PastCursor res.contents j (max m.beginAddr fromAddr))
    (hpast' : PastCursor res.contents j toAddr) :
    ∃ x, bootMemFindFor mem res size (2 ^ k) fromAddr toAddr n i j = some x ∧
      FirstFit (mem.contents.drop i) res.contents size (2 ^ k) fromAddr toAddr x := by
  induction n generalizing i j with
  | zero =>
    have hnil : mem.contents.drop i = [] :=
      List.drop_eq_nil_of_le (by rw [length_contents hmf]; omega)
    rw [hnil]
    refine ⟨toAddr, rfl, Or.inl ⟨rfl, ?_⟩⟩
    intro a ha
    obtain ⟨m, hm, -⟩ := ha.inside
    simp at hm
  | succ n ih =>
    have hlt : i < mem.contents.length := by rw [length_contents hmf]; omega
    have hdrop := List.drop_eq_getElem_cons hlt
    have hget : mem.get i = some mem.contents[i] := get_eq_getElem hmf hlt
    rw [hdrop] at hmem hwrap hsafe hpast ⊢
    rw [bootMemFindFor, hget]
    generalize mem.contents[i] = m at *
    obtain ⟨hm, hnext, hrest⟩ := ordered_cons.mp hmem
    obtain ⟨hafter, hsafe'⟩ := List.pairwise_cons.mp hsafe
    have hpastm := hpast m (by simp)
    simp only [Option.bind_eq_bind, Option.bind_some]
    by_cases hskip : m.endAddr ≤ fromAddr
    · rw [if_pos hskip]
      have hno : ∀ a, Candidate (m :: mem.contents.drop (i + 1)) res.contents size (2 ^ k) fromAddr
          toAddr a → ¬ (m.beginAddr ≤ a ∧ a + size ≤ m.endAddr) := by
        intro a ha hin
        have := ha.from_le
        omega
      obtain ⟨x, hret, hx⟩ := ih (by omega) hrest (fun x hx => hwrap x (hx.cons hno)) hsafe' hj
        (fun m' hm' => hpast m' (by simp [hm'])) hpast'
      exact ⟨x, hret, hx.cons hno⟩
    rw [if_neg hskip]
    by_cases hbreak : m.beginAddr ≥ toAddr
    · rw [if_pos hbreak]
      refine ⟨toAddr, rfl, Or.inl ⟨rfl, ?_⟩⟩
      intro a ha
      have hto := ha.le_to
      obtain ⟨m', hm', hin⟩ := ha.inside
      have : m.beginAddr ≤ m'.beginAddr := by
        rcases List.mem_cons.mp hm' with rfl | hm'
        · exact le_rfl
        · exact (hnext m' hm').le
      omega
    rw [if_neg hbreak, minu_eq, maxu_eq]
    have hpastEnd : PastCursor res.contents j (min m.endAddr toAddr) :=
      fun q r hq hr => le_min ((hpastm q r hq hr).trans (by omega)) (hpast' q r hq hr)
    rcases bootMemFindWhile_spec hf hord hk hsize (fun x hx => hwrap x (hx.standsAt hmem)) hj hpastm
      hpastEnd (Or.inl (Nat.lt_succ_of_le (Nat.sub_le _ _))) le_rfl stop_begin
      (fun a _ h₁ h₂ => by omega) with
      ⟨a, hret, hfirst⟩ | ⟨j', hret, hj', hp, hnone⟩
    · rw [hret, Option.bind_some]
      exact ⟨a, rfl, hfirst.firstFit hmem⟩
    · rw [hret, Option.bind_some]
      have hpast₁ : ∀ m' ∈ mem.contents.drop (i + 1),
          PastCursor res.contents j' (max m'.beginAddr fromAddr) :=
        fun m' hm' q r hq hr => hafter m' hm' r (List.mem_of_getElem? hr) (hp q r hq hr)
      obtain ⟨x, hret', hx⟩ := ih (by omega) hrest
        (fun x hx => hwrap x (hx.cons fun a ha hin => hnone a ha.dvd (ha.bounds hin).1
          (ha.bounds hin).2 ha.clear)) hsafe' hj' hpast₁ (hp.mono (min_le_right _ _))
      exact ⟨x, hret', hx.of_noneClear hnone⟩

/-- **`boot_mem_find` is exact first fit** on ordered tables that are safe for its cursor, as long as no
addition wraps at an address where it can stand. -/
theorem bootMemFind_spec_of_noWrap {b : BootMem} (hmf : b.memory.Fits) (hf : b.reserved.Fits)
    (hmem : Ordered b.memory.contents) (hord : Ordered b.reserved.contents)
    (hsafe : CursorSafe b.memory.contents b.reserved.contents fromAddr toAddr) (hk : k < 32)
    (hsize : 0 < size) (hft : fromAddr ≤ toAddr) (hto : toAddr < 2 ^ 32)
    (hwrap : ∀ x, StandsAt b.memory.contents b.reserved.contents size (2 ^ k) fromAddr toAddr x →
      NoWrap size (2 ^ k) x) :
    ∃ x, bootMemFind b size (2 ^ k) fromAddr toAddr = some x ∧
      FirstFit b.memory.contents b.reserved.contents size (2 ^ k) fromAddr toAddr x := by
  rw [bootMemFind, wsub_of_le hft hto]
  by_cases hbig : size > toAddr - fromAddr
  · rw [if_pos (Or.inr hbig)]
    refine ⟨toAddr, rfl, Or.inl ⟨rfl, ?_⟩⟩
    intro a ha
    have := ha.from_le
    have := ha.le_to
    omega
  · rw [if_neg (by omega), if_neg (by omega)]
    exact bootMemFindFor_spec hmf hf hord hk hsize (Nat.zero_add _) (by simpa using hmem)
      (by simpa using hwrap) (by simpa using hsafe) (Nat.zero_le _) (fun _ _ m r hm _ => by omega)
      (fun m r hm _ => by omega)

/-- **`boot_mem_find` is exact first fit** on ordered tables that are safe for its cursor, when no
addition can wrap. -/
theorem bootMemFind_spec {b : BootMem} (hmf : b.memory.Fits) (hf : b.reserved.Fits)
    (hmem : Ordered b.memory.contents) (hord : Ordered b.reserved.contents)
    (hsafe : CursorSafe b.memory.contents b.reserved.contents fromAddr toAddr) (hk : k < 32)
    (hsize : 0 < size) (hft : fromAddr ≤ toAddr) (hwrap : 2 * toAddr + 2 ^ k ≤ 2 ^ 32) :
    ∃ x, bootMemFind b size (2 ^ k) fromAddr toAddr = some x ∧
      FirstFit b.memory.contents b.reserved.contents size (2 ^ k) fromAddr toAddr x := by
  have hpos : 0 < 2 ^ k := Nat.two_pow_pos k
  by_cases hbig : size > toAddr - fromAddr
  · rw [bootMemFind, wsub_of_le hft (by omega), if_pos (Or.inr hbig)]
    refine ⟨toAddr, rfl, Or.inl ⟨rfl, ?_⟩⟩
    intro a ha
    have := ha.from_le
    have := ha.le_to
    omega
  · refine bootMemFind_spec_of_noWrap hmf hf hmem hord hsafe hk hsize hft (by omega) ?_
    rintro x ⟨⟨m, -, hstop⟩, -⟩
    have hlt := hstop.lt_end
    have hround : x + (2 ^ k - 1) < 2 ^ 32 := by omega
    have := alignUp_le hk hround
    exact ⟨hround, by omega⟩

end Auos
