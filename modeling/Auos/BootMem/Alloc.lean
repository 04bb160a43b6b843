import Auos.BootMem.Capacity
import Auos.BootMem.Runs

/-!
# The boot allocator on normal tables

When the memory table is normal its ranges do not overlap, so the cursor of `boot_mem_find` is safe
against every reserved table that calls of `boot_mem_reserve` can build, and the search is exact first
fit. When the reserved table is normal too, the block `boot_mem_alloc` reserves is clear of it. Such a
block merges cleanly: what it touches it touches at an end, and there is at most one range on each
side.

## Main results

* `clear_iff_disjoint` — `Clear` in terms of addresses
* `bootMemFind_firstFit` — the search is exact first fit
* `bootMemAlloc_effect` — what an allocation does to the two tables
-/

namespace Auos

open BootMemType

variable {size align fromAddr toAddr addr : ℕ} {b : BootMem} {M R : List BootMemRange}

/-- Ranges that do not touch do not overlap. -/
theorem Normal.apart (h : Normal M) : Apart M :=
  ⟨h.nonempty, h.separated.imp fun hab => hab.le⟩

/-- Meeting no range of a list of non-empty ranges is meeting none of their addresses. -/
theorem clear_iff_disjoint (hR : ∀ r ∈ R, r.beginAddr < r.endAddr) (hsize : 0 < size) :
    Clear R addr size ↔ Disjoint (Set.Ico addr (addr + size)) (covered R) := by
  rw [Set.disjoint_left]
  constructor
  · rintro hclear x ⟨hle, hlt⟩ ⟨r, hr, hxr⟩
    have := hclear r hr
    have := BootMemRange.mem_addrs.mp hxr
    omega
  · intro hdisj r hr
    have hne := hR r hr
    by_contra hmeet
    -- the larger of the two begins is a common address
    refine hdisj (show max addr r.beginAddr ∈ Set.Ico addr (addr + size) from ⟨by omega, by omega⟩)
      ⟨r, hr, BootMemRange.mem_addrs.mpr (by omega)⟩

/-! ### The search -/

/-- The arguments of an allocation leave room for every addition of the search. -/
theorem AllocArgs.exists_two_pow (h : AllocArgs size align fromAddr toAddr) :
    ∃ k < 32, align = 2 ^ k ∧ 2 * toAddr + 2 ^ k ≤ 2 ^ 32 := by
  obtain ⟨k, hk, rfl⟩ := h.align_eq
  have hpow : 2 ^ k ≤ 2 ^ 30 := Nat.pow_le_pow_right (by decide) hk
  have hto := h.to_le
  exact ⟨k, by omega, rfl, by omega⟩

/-- **`boot_mem_find` is exact first fit.** On a normal memory table and any reserved table reached by
`boot_mem_reserve` calls, the search returns the least aligned address in `[from, to)` whose block lies
in one memory range and meets no reserved range, and `to` when there is none. -/
theorem bootMemFind_firstFit (hmf : b.memory.Fits) (hmem : Normal b.memory.contents)
    (hres : AddRun (fun _ _ _ => True) b.reserved) (hargs : AllocArgs size align fromAddr toAddr) :
    ∃ x, bootMemFind b size align fromAddr toAddr = some x ∧
      FirstFit b.memory.contents b.reserved.contents size align fromAddr toAddr x := by
  obtain ⟨k, hk, rfl, hwrap⟩ := hargs.exists_two_pow
  obtain ⟨hrf, hord⟩ := hres.fits_ordered
  exact bootMemFind_spec hmf hrf hmem.ordered hord (hmem.apart.cursorSafe _ _ _) hk hargs.size_pos
    hargs.from_le hwrap

theorem bootMemFind_firstFit_one : ∃ memory reserved x,
    bootMemAddRange (.empty bootMemRanges) 16 1000 = some (0, memory) ∧
      bootMemAddRange (.empty bootMemRanges) 16 20 = some (0, reserved) ∧
      bootMemFind ⟨memory, reserved⟩ 5 8 0 2000 = some x ∧
      FirstFit memory.contents reserved.contents 5 8 0 2000 x := by
  obtain ⟨memory, hm, hmc⟩ : ∃ t, bootMemAddRange (.empty bootMemRanges) 16 1000 = some (0, t) ∧
    t.contents = [⟨16, 1000⟩] := ⟨_, rfl, rfl⟩
  obtain ⟨reserved, hr⟩ : ∃ t, bootMemAddRange (.empty bootMemRanges) 16 20 = some (0, t) :=
    ⟨_, rfl⟩
  have hrunm := @AddRun.add bootMemRanges (fun _ _ _ => True) _ _ _ _ _ .empty trivial hm
  have hrunr := @AddRun.add bootMemRanges (fun _ _ _ => True) _ _ _ _ _ .empty trivial hr
  obtain ⟨x, hx⟩ := bootMemFind_firstFit (b := ⟨memory, reserved⟩) hrunm.fits_ordered.1
    (by rw [hmc]; exact normal_cons.mpr ⟨by decide, by simp, normal_nil⟩) hrunr
    (⟨by decide, ⟨3, by decide, rfl⟩, by decide, by decide⟩ : AllocArgs 5 8 0 2000)
  exact ⟨memory, reserved, x, hm, hr, hx⟩

/-! ### Allocation -/

/-- A block that is clear of a normal table merges cleanly with it. -/
theorem Clear.mergesCleanly (hR : Normal R) (h : Clear R addr size) :
    MergesCleanly R ⟨addr, addr + size⟩ := by
  intro d rest hdrop
  obtain ⟨pre, post, hsplit, -, hpost, -, hfirst⟩ := split_spec R addr
  obtain rfl : post = d :: rest := hpost.symm.trans hdrop
  have hend := hfirst d rest rfl
  have hsuffix := (normal_append.mp (hsplit ▸ hR)).2.1
  obtain ⟨hd, hafter, hrest⟩ := normal_cons.mp hsuffix
  have hmem : ∀ a ∈ d :: rest, a ∈ R := fun a ha => hsplit ▸ List.mem_append_right _ ha
  refine ⟨?_, ?_⟩
  · have := h d (hmem d List.mem_cons_self)
    show d.beginAddr ≤ addr ∨ addr + size ≤ d.endAddr
    omega
  · intro n hn
    show addr + size < n.beginAddr
    -- the range between `d` and `n` begins at or after the end of the block
    cases rest with
    | nil => cases hn
    | cons m rest =>
      obtain ⟨hm, hmn, -⟩ := normal_cons.mp hrest
      have := hafter m List.mem_cons_self
      have := hmn n hn
      have := h m (hmem m (by simp))
      omega

/-- A block that is clear of a normal table does not swallow a range of it. -/
theorem Clear.not_swallowsFirst (hR : Normal R) (h : Clear R addr size) :
    ¬ SwallowsFirst R ⟨addr, addr + size⟩ := by
  rintro ⟨d, rest, hdrop, hlt, hgt⟩
  have hd : d ∈ R := (List.dropWhile_sublist _).subset (hdrop ▸ List.mem_cons_self)
  have hne := hR.nonempty d hd
  have hclear := h d hd
  dsimp only at hlt hgt
  omega

/-- Reserving a clear block: it is refused exactly if the table is full and has no range that the block
touches. -/
theorem bootMemAddRange_clear {capacity : ℕ} {t : BootMemType capacity} (hf : t.Fits)
    (hR : Normal t.contents) (hsize : 0 < size) (h : Clear t.contents addr size) :
    ((∃ t', bootMemAddRange t addr (addr + size) = some (0, t') ∧ t'.Fits ∧ Normal t'.contents ∧
        covered t'.contents = covered t.contents ∪ Set.Ico addr (addr + size)) ∧
      ¬ (t.size = capacity ∧ ∀ a ∈ t.contents, ¬ Touches ⟨addr, addr + size⟩ a)) ∨
    (bootMemAddRange t addr (addr + size) = some (-1, t) ∧
      t.size = capacity ∧ ∀ a ∈ t.contents, ¬ Touches ⟨addr, addr + size⟩ a) := by
  have hne : addr < addr + size := by omega
  have hlen := length_contents hf
  rcases bootMemAddRange_eq hf addr (addr + size) with ⟨t', hret, hf', hadd⟩ | ⟨hret, hadd⟩
  · refine Or.inl ⟨⟨t', hret, hf', (normal_tableAdd_iff hR hne hadd).mpr (h.mergesCleanly hR),
      (tableAdd_spec hR.ordered hadd).2⟩, ?_⟩
    rintro ⟨hfull, hapart⟩
    obtain ⟨-, a, ha, htouch⟩ := tableAdd_eq_some_cases hR hne hadd (hlen.trans hfull)
    exact hapart a ha htouch
  · obtain ⟨hfull, hcase⟩ := tableAdd_eq_none_cases hR hne hadd
    exact Or.inr ⟨hret, hlen.symm.trans hfull, hcase.resolve_left (h.not_swallowsFirst hR)⟩

/-- **The effect of `boot_mem_alloc`** on normal tables. It reserves the first fit `x` and returns it,
unless there is none, or the reserved table is full and has no range that the block at `x` touches. Then
it returns `to` and changes nothing. The memory table never changes, and the reserved one is normal again
and covers exactly the block besides what it covered. -/
theorem bootMemAlloc_effect (hmf : b.memory.Fits) (hrf : b.reserved.Fits)
    (hmem : Normal b.memory.contents) (hres : Normal b.reserved.contents)
    (hargs : AllocArgs size align fromAddr toAddr) :
    ∃ x addr b', bootMemFind b size align fromAddr toAddr = some x ∧
      FirstFit b.memory.contents b.reserved.contents size align fromAddr toAddr x ∧
      bootMemAlloc b size align fromAddr toAddr = some (addr, b') ∧ b'.memory = b.memory ∧
      (addr = toAddr ↔ x = toAddr ∨ b.reserved.size = bootMemRanges ∧
        ∀ r ∈ b.reserved.contents, ¬ Touches ⟨x, x + size⟩ r) ∧
      (addr ≠ toAddr → addr = x ∧ b'.reserved.Fits ∧ Normal b'.reserved.contents ∧
        covered b'.reserved.contents =
          covered b.reserved.contents ∪ Set.Ico addr (addr + size)) ∧
      (addr = toAddr → b' = b) := by
  obtain ⟨k, hk, rfl, hwrap⟩ := hargs.exists_two_pow
  have hsize := hargs.size_pos
  have hpos : 0 < 2 ^ k := Nat.two_pow_pos k
  obtain ⟨x, hfind, hfit⟩ := bootMemFind_spec hmf hrf hmem.ordered hres.ordered
    (hmem.apart.cursorSafe _ _ _) hk hsize hargs.from_le hwrap
  by_cases hx : x = toAddr
  · refine ⟨x, toAddr, b, hfind, hfit, ?_, rfl, iff_of_true rfl (Or.inl hx),
      fun hne => absurd rfl hne, fun _ => rfl⟩
    rw [bootMemAlloc, hfind, Option.bind_eq_bind, Option.bind_some, if_neg (not_not.mpr hx)]
  obtain ⟨hcand, -⟩ := hfit.resolve_left fun h => hx h.1
  have hle := hcand.le_to
  have hret : bootMemAlloc b size (2 ^ k) fromAddr toAddr =
      (bootMemReserve b x (x + size)).bind fun a =>
        if a.1 = 0 then some (x, a.2) else some (toAddr, a.2) := by
    rw [bootMemAlloc, hfind, Option.bind_eq_bind, Option.bind_some, if_pos hx,
      wadd_of_lt (by omega)]
    rfl
  rcases bootMemAddRange_clear hrf hres hsize hcand.clear with
    ⟨⟨t', hadd, hf', hnorm, hcov⟩, hroom⟩ | ⟨hadd, hfull⟩
  · refine ⟨x, x, { b with reserved := t' }, hfind, hfit, ?_, rfl,
      iff_of_false hx (not_or.mpr ⟨hx, hroom⟩), fun _ => ⟨rfl, hf', hnorm, hcov⟩,
      fun heq => absurd heq hx⟩
    rw [hret, bootMemReserve, hadd]
    rfl
  · refine ⟨x, toAddr, b, hfind, hfit, ?_, rfl, iff_of_true rfl (Or.inr hfull),
      fun hne => absurd rfl hne, fun _ => rfl⟩
    rw [hret, bootMemReserve, hadd]
    rfl

/-- An allocation that closes the gap between two reserved ranges. -/
theorem bootMemAlloc_effect_bridge : ∃ memory t reserved b',
    bootMemAddRange (.empty bootMemRanges) 16 1000 = some (0, memory) ∧
      bootMemAddRange (.empty bootMemRanges) 29 40 = some (0, t) ∧
      bootMemAddRange t 16 24 = some (0, reserved) ∧
      bootMemAlloc ⟨memory, reserved⟩ 5 8 0 2000 = some (24, b') ∧ b'.memory = memory ∧
      b'.reserved.contents = [⟨16, 40⟩] ∧ Normal b'.reserved.contents ∧
      covered b'.reserved.contents = covered reserved.contents ∪ Set.Ico 24 (24 + 5) := by
  obtain ⟨memory, t, reserved, b', hm, hmc, ht, hr, hrc, halloc, hbc⟩ : ∃ memory t reserved b',
      bootMemAddRange (.empty bootMemRanges) 16 1000 = some (0, memory) ∧
      memory.contents = [⟨16, 1000⟩] ∧ bootMemAddRange (.empty bootMemRanges) 29 40 = some (0, t) ∧
      bootMemAddRange t 16 24 = some (0, reserved) ∧ reserved.contents = [⟨16, 24⟩, ⟨29, 40⟩] ∧
      bootMemAlloc ⟨memory, reserved⟩ 5 8 0 2000 = some (24, b') ∧
      b'.reserved.contents = [⟨16, 40⟩] := ⟨_, _, _, _, rfl, rfl, rfl, rfl, rfl, rfl, rfl⟩
  have hrunm := @AddRun.add bootMemRanges (fun _ _ _ => True) _ _ _ _ _ .empty trivial hm
  have hrunr := @AddRun.add bootMemRanges (fun _ _ _ => True) _ _ _ _ _
    (@AddRun.add bootMemRanges (fun _ _ _ => True) _ _ _ _ _ .empty trivial ht) trivial hr
  obtain ⟨x, addr, b₁, -, -, halloc₁, hmem, -, hne, -⟩ := bootMemAlloc_effect (b := ⟨memory, reserved⟩)
    hrunm.fits_ordered.1 hrunr.fits_ordered.1 (by rw [hmc]; exact ⟨by simp, by simp⟩)
    (by rw [hrc]; exact ⟨by simp, by simp⟩)
    (⟨by decide, ⟨3, by decide, rfl⟩, by decide, by decide⟩ : AllocArgs 5 8 0 2000)
  cases halloc.symm.trans halloc₁
  obtain ⟨-, -, hnorm, hcov⟩ := hne (by decide)
  exact ⟨memory, t, reserved, b', hm, ht, hr, halloc, hmem, hbc, hnorm, hcov⟩

end Auos
