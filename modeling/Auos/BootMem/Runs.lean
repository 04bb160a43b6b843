import Auos.BootMem.Find
import Mathlib.Order.CompletePartialOrder

/-!
# Runs of the boot allocator

The boot allocator from its empty tables under `boot_mem_add`, `boot_mem_reserve` and
`boot_mem_alloc` calls in any order. A run carries two sets of addresses beside the tables: those
added and those taken so far, by calls that reported success. The invariant is that the tables cover
exactly these sets, so an address `boot_mem_find` vouches for in terms of the tables is one it may
hand out in terms of the history.

Since the cursor of `boot_mem_find` never goes back, an allocation is safe in a state in which it
does not have to. Memory ranges that overlap, which insertion can leave in the table, break this.

## Main definitions

* `AllocArgs` — the arguments of an allocation in which nothing wraps
* `BootMemRun` — runs with the addresses added and taken so far

## Main results

* `bootMemAlloc_of_bootMemRun` — every allocation is aligned, fits, and is fresh added memory
* `bootMemAlloc_inside_reserved` — with overlapping memory ranges reserved memory is handed out
-/

namespace Auos

open BootMemType

variable {capacity size align fromAddr toAddr addr : ℕ} {added taken : Set ℕ} {b b' : BootMem}

/-- The arguments of a `boot_mem_alloc` call: a size, a power of two and an address range, none of
which lets an addition wrap. -/
structure AllocArgs (size align fromAddr toAddr : ℕ) : Prop where
  size_pos : 0 < size
  align_eq : ∃ k ≤ 30, align = 2 ^ k
  from_le : fromAddr ≤ toAddr
  to_le : toAddr ≤ 2 ^ 30

/-- Runs from the empty tables, with the addresses added and the addresses reserved or allocated so
far. Every allocation is made in a state that satisfies `P` for its address range. -/
inductive BootMemRun (P : BootMem → ℕ → ℕ → Prop) : Set ℕ → Set ℕ → BootMem → Prop
  | empty : BootMemRun P ∅ ∅ .empty
  | add {added taken : Set ℕ} {b b' : BootMem} {ret : ℤ} {beginAddr endAddr : ℕ} :
      BootMemRun P added taken b → bootMemAdd b beginAddr endAddr = some (ret, b') →
      BootMemRun P (if ret = 0 then added ∪ Set.Ico beginAddr endAddr else added) taken b'
  | reserve {added taken : Set ℕ} {b b' : BootMem} {ret : ℤ} {beginAddr endAddr : ℕ} :
      BootMemRun P added taken b → bootMemReserve b beginAddr endAddr = some (ret, b') →
      BootMemRun P added (if ret = 0 then taken ∪ Set.Ico beginAddr endAddr else taken) b'
  | alloc {added taken : Set ℕ} {b b' : BootMem} {size align fromAddr toAddr addr : ℕ} :
      BootMemRun P added taken b → AllocArgs size align fromAddr toAddr → P b fromAddr toAddr →
      bootMemAlloc b size align fromAddr toAddr = some (addr, b') →
      BootMemRun P added (if addr ≠ toAddr then taken ∪ Set.Ico addr (addr + size) else taken) b'

/-- The tables are ordered and cover exactly what was added and what was taken. -/
structure Tracks (added taken : Set ℕ) (b : BootMem) : Prop where
  memory_fits : b.memory.Fits
  memory_ordered : Ordered b.memory.contents
  covered_memory : covered b.memory.contents = added
  reserved_fits : b.reserved.Fits
  reserved_ordered : Ordered b.reserved.contents
  covered_reserved : covered b.reserved.contents = taken

/-- No memory range has to be searched behind the cursor. -/
abbrev CursorSafeFor (b : BootMem) (fromAddr toAddr : ℕ) : Prop :=
  CursorSafe b.memory.contents b.reserved.contents fromAddr toAddr

theorem tracks_empty : Tracks ∅ ∅ .empty := by
  constructor
  all_goals
    first
      | exact fits_empty
      | simp only [BootMem.empty, contents_empty, covered_nil, ordered_nil]

/-! ### Steps -/

/-- One insertion into an ordered table that covers `S`. -/
theorem covered_bootMemAddRange {S : Set ℕ} {t t' : BootMemType capacity} {ret : ℤ}
    {beginAddr endAddr : ℕ} (hf : t.Fits) (hord : Ordered t.contents) (hcov : covered t.contents = S)
    (h : bootMemAddRange t beginAddr endAddr = some (ret, t')) :
    t'.Fits ∧ Ordered t'.contents ∧
      covered t'.contents = if ret = 0 then S ∪ Set.Ico beginAddr endAddr else S := by
  obtain ⟨hf', ⟨rfl, hadd⟩ | ⟨rfl, rfl, -⟩⟩ := bootMemAddRange_cases hf h
  · obtain ⟨hord', hcov'⟩ := tableAdd_spec hord hadd
    exact ⟨hf', hord', by rw [if_pos rfl, hcov', hcov]; rfl⟩
  · exact ⟨hf', hord, by rw [if_neg (by decide), hcov]⟩

theorem Tracks.bootMemAdd {ret : ℤ} {beginAddr endAddr : ℕ} (h : Tracks added taken b)
    (hadd : bootMemAdd b beginAddr endAddr = some (ret, b')) :
    Tracks (if ret = 0 then added ∪ Set.Ico beginAddr endAddr else added) taken b' := by
  obtain ⟨⟨ret', memory⟩, hrange, hret⟩ := Option.bind_eq_some_iff.mp hadd
  cases hret
  obtain ⟨hf, hord, hcov⟩ :=
    covered_bootMemAddRange h.memory_fits h.memory_ordered h.covered_memory hrange
  exact ⟨hf, hord, hcov, h.reserved_fits, h.reserved_ordered, h.covered_reserved⟩

theorem Tracks.bootMemReserve {ret : ℤ} {beginAddr endAddr : ℕ} (h : Tracks added taken b)
    (hadd : bootMemReserve b beginAddr endAddr = some (ret, b')) :
    Tracks added (if ret = 0 then taken ∪ Set.Ico beginAddr endAddr else taken) b' := by
  obtain ⟨⟨ret', reserved⟩, hrange, hret⟩ := Option.bind_eq_some_iff.mp hadd
  cases hret
  obtain ⟨hf, hord, hcov⟩ :=
    covered_bootMemAddRange h.reserved_fits h.reserved_ordered h.covered_reserved hrange
  exact ⟨h.memory_fits, h.memory_ordered, h.covered_memory, hf, hord, hcov⟩

/-- `boot_mem_reserve` always returns, and reports success or changes nothing. -/
theorem exists_bootMemReserve (h : Tracks added taken b) (beginAddr endAddr : ℕ) :
    ∃ ret b', bootMemReserve b beginAddr endAddr = some (ret, b') ∧ (ret = 0 ∨ b' = b) := by
  rcases bootMemAddRange_eq h.reserved_fits beginAddr endAddr with ⟨t, hret, -⟩ | ⟨hret, -⟩
  · exact ⟨0, { b with reserved := t }, by rw [Auos.bootMemReserve, hret]; rfl, Or.inl rfl⟩
  · exact ⟨-1, b, by rw [Auos.bootMemReserve, hret]; rfl, Or.inr rfl⟩

/-- What an allocation can do: it returns a fresh candidate and records it, or returns `to` and
changes nothing. -/
theorem Tracks.bootMemAlloc_cases (h : Tracks added taken b)
    (hargs : AllocArgs size align fromAddr toAddr) (hsafe : CursorSafeFor b fromAddr toAddr) :
    (bootMemAlloc b size align fromAddr toAddr = some (toAddr, b)) ∨
    ∃ addr b', bootMemAlloc b size align fromAddr toAddr = some (addr, b') ∧ addr ≠ toAddr ∧
      Candidate b.memory.contents b.reserved.contents size align fromAddr toAddr addr ∧
      Tracks added (taken ∪ Set.Ico addr (addr + size)) b' := by
  obtain ⟨k, hk, rfl⟩ := hargs.align_eq
  have hpow : 2 ^ k ≤ 2 ^ 30 := Nat.pow_le_pow_right (by decide) hk
  have hk' : k < 32 := by omega
  have hpos := hargs.size_pos
  have hto := hargs.to_le
  obtain ⟨addr, hfind, hfit⟩ := bootMemFind_spec h.memory_fits h.reserved_fits h.memory_ordered
    h.reserved_ordered hsafe hk' hpos hargs.from_le (by omega)
  rcases hfit with ⟨rfl, -⟩ | ⟨hcand, -⟩
  · exact Or.inl (by rw [bootMemAlloc, hfind]; simp)
  · have hle := hcand.le_to
    have hne : addr ≠ toAddr := by omega
    obtain ⟨ret, b', hres, hcase⟩ := exists_bootMemReserve h addr (addr + size)
    have hret : bootMemAlloc b size (2 ^ k) fromAddr toAddr =
        if ret = 0 then some (addr, b') else some (toAddr, b') := by
      rw [bootMemAlloc, hfind, Option.bind_eq_bind, Option.bind_some, if_pos hne,
        wadd_of_lt (by omega), hres]
      rfl
    by_cases hzero : ret = 0
    · have htracks := h.bootMemReserve hres
      rw [if_pos hzero] at hret htracks
      exact Or.inr ⟨addr, b', hret, hne, hcand, htracks⟩
    · rw [if_neg hzero, hcase.resolve_left hzero] at hret
      exact Or.inl hret

/-- In every run whose allocations find the cursor safe, the tables cover the history. -/
theorem BootMemRun.tracks (h : BootMemRun CursorSafeFor added taken b) : Tracks added taken b := by
  induction h with
  | empty => exact tracks_empty
  | add _ hadd ih => exact ih.bootMemAdd hadd
  | reserve _ hres ih => exact ih.bootMemReserve hres
  | alloc _ hargs hsafe halloc ih =>
    rcases ih.bootMemAlloc_cases hargs hsafe with hret | ⟨addr, b₁, hret, hne, -, htracks⟩
    · rw [hret] at halloc
      cases halloc
      rwa [if_neg (by simp)]
    · rw [hret] at halloc
      cases halloc
      rwa [if_pos hne]

/-- A candidate lies in memory and meets nothing taken. -/
theorem Candidate.fresh {M R : List BootMemRange}
    (h : Candidate M R size align fromAddr toAddr addr) :
    Set.Ico addr (addr + size) ⊆ covered M ∧ Disjoint (Set.Ico addr (addr + size)) (covered R) := by
  constructor
  · obtain ⟨m, hm, hin⟩ := h.inside
    intro x hx
    have := hx.1
    have := hx.2
    exact ⟨m, hm, BootMemRange.mem_addrs.mpr (by omega)⟩
  · refine Set.disjoint_left.mpr ?_
    intro x hx hcov
    obtain ⟨r, hr, hxr⟩ := hcov
    have := BootMemRange.mem_addrs.mp hxr
    have := hx.1
    have := hx.2
    have := h.clear r hr
    omega

/-- **An allocation is safe whenever the cursor is.** After every run whose allocations find the
cursor safe, every further such allocation returns; unless it returns `to` its result is aligned,
lies in `[from, to)` and consists of addresses that were added and were not taken before. -/
theorem bootMemAlloc_of_bootMemRun (h : BootMemRun CursorSafeFor added taken b)
    (hargs : AllocArgs size align fromAddr toAddr) (hsafe : CursorSafeFor b fromAddr toAddr) :
    ∃ addr b', bootMemAlloc b size align fromAddr toAddr = some (addr, b') ∧
      (addr ≠ toAddr → align ∣ addr ∧ fromAddr ≤ addr ∧ addr + size ≤ toAddr ∧
        Set.Ico addr (addr + size) ⊆ added ∧ Disjoint (Set.Ico addr (addr + size)) taken) := by
  have htracks := h.tracks
  rcases htracks.bootMemAlloc_cases hargs hsafe with hret | ⟨addr, b', hret, -, hcand, -⟩
  · exact ⟨toAddr, b, hret, fun hne => absurd rfl hne⟩
  · obtain ⟨hmem, hres⟩ := hcand.fresh
    rw [htracks.covered_memory] at hmem
    rw [htracks.covered_reserved] at hres
    exact ⟨addr, b', hret, fun _ => ⟨hcand.dvd, hcand.from_le, hcand.le_to, hmem, hres⟩⟩

/-- A second allocation, behind a reserved range and the block of the first one. -/
theorem bootMemAlloc_of_bootMemRun_second : ∃ b b',
    BootMemRun CursorSafeFor (∅ ∪ Set.Ico 16 1000) (∅ ∪ Set.Ico 16 20 ∪ Set.Ico 24 29) b ∧
      bootMemAlloc b 5 8 0 2000 = some (32, b') ∧
      Set.Ico 32 (32 + 5) ⊆ ∅ ∪ Set.Ico 16 1000 ∧
      Disjoint (Set.Ico 32 (32 + 5)) (∅ ∪ Set.Ico 16 20 ∪ Set.Ico 24 29) := by
  have hargs : AllocArgs 5 8 0 2000 := ⟨by decide, ⟨3, by decide, rfl⟩, by decide, by decide⟩
  obtain ⟨b₁, b₂, b, b', h₁, h₂, h₃, hret, hm₂, hm⟩ : ∃ b₁ b₂ b b',
      bootMemAdd .empty 16 1000 = some (0, b₁) ∧ bootMemReserve b₁ 16 20 = some (0, b₂) ∧
      bootMemAlloc b₂ 5 8 0 2000 = some (24, b) ∧ bootMemAlloc b 5 8 0 2000 = some (32, b') ∧
      b₂.memory.contents = [⟨16, 1000⟩] ∧ b.memory.contents = [⟨16, 1000⟩] :=
    ⟨_, _, _, _, rfl, rfl, rfl, rfl, rfl, rfl⟩
  have hsafe : ∀ b : BootMem, b.memory.contents = [⟨16, 1000⟩] → CursorSafeFor b 0 2000 := by
    intro b hm
    rw [CursorSafeFor, hm]
    exact List.pairwise_singleton _ _
  have run : BootMemRun CursorSafeFor (∅ ∪ Set.Ico 16 1000) (∅ ∪ Set.Ico 16 20 ∪ Set.Ico 24 29) b :=
    .alloc (.reserve (.add .empty h₁) h₂) hargs (hsafe b₂ hm₂) h₃
  obtain ⟨addr, b'', hret', hfresh⟩ := bootMemAlloc_of_bootMemRun run hargs (hsafe b hm)
  cases hret.symm.trans hret'
  obtain ⟨-, -, -, hin, hdisj⟩ := hfresh (by decide)
  exact ⟨b, b', run, hret, hin, hdisj⟩

/-- **Reserved memory is handed out.** After `[10, 20)` and `[0, 1000)` are added the memory ranges
overlap; with `[0, 50)` and `[52, 1000)` reserved, the cursor has passed `[0, 50)` when the second
memory range is searched, and an allocation of `5` bytes returns `10`. -/
theorem bootMemAlloc_inside_reserved : ∃ b b',
    BootMemRun (fun _ _ _ => True) (∅ ∪ Set.Ico 10 20 ∪ Set.Ico 0 1000)
      (∅ ∪ Set.Ico 0 50 ∪ Set.Ico 52 1000) b ∧
    AllocArgs 5 1 0 2000 ∧ bootMemAlloc b 5 1 0 2000 = some (10, b') ∧ 10 ≠ 2000 ∧
    ¬ Disjoint (Set.Ico 10 (10 + 5)) (∅ ∪ Set.Ico 0 50 ∪ Set.Ico 52 1000) := by
  have h₁ := @BootMemRun.add (fun _ _ _ => True) _ _ _ _ 0 10 20 .empty rfl
  have h₂ := @BootMemRun.add _ _ _ _ _ 0 0 1000 h₁ rfl
  have h₃ := @BootMemRun.reserve _ _ _ _ _ 0 0 50 h₂ rfl
  have h₄ := @BootMemRun.reserve _ _ _ _ _ 0 52 1000 h₃ rfl
  refine ⟨_, _, h₄, ⟨by decide, ⟨0, by decide, rfl⟩, by decide, by decide⟩, rfl, by decide,
    fun hdisj => Set.disjoint_left.mp hdisj (show 10 ∈ Set.Ico 10 15 by simp) (by simp)⟩

end Auos
