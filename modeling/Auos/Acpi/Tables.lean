import Auos.Acpi.Rsdp

/-!
# Looking up a table

`setup_acpi` and `acpi_table_find` of the kernel's `acpi.c`. The root table lists the physical
addresses of the others, and the source reads it and them at `virt_addr`. That is right for what lies
in the direct map; what the firmware has put elsewhere is not mapped, and reading it is a page fault.

The comparison stops at the first character that differs, so a table that is not the one looked for
may end outside the direct map as long as its first characters do not.

## Main definitions

* `setupAcpi`, `acpiTables`, `acpiGetTable`, `acpiTableFind` — the source
* `rsdtEntry` — the physical addresses that the root table lists
* `TableAt` — what the search has to find
* `Comparable` — the characters of a table that a comparison reads are in the direct map

## Main results

* `setupAcpi_of_probe` — the root table is read at `virt_addr`
* `acpiTableFind_finds_iff` — when the search finds what it has to
-/

namespace Auos

/-! ### `acpi.c` -/

/-- The static state of `acpi.c`. -/
structure AcpiState where
  /-- `rsdp`, or null. -/
  rsdp : Option ℕ
  /-- `rsdt`. -/
  rsdt : ℕ

/-- `setup_acpi`. -/
def setupAcpi (mem : VirtualMemory) (s : AcpiState) : Option AcpiState := do
  let rsdp ← acpiRsdpProbe mem
  match rsdp with
  | none => some { s with rsdp := none }
  | some p => do
    let paddr ← loadLE mem (wadd p 16) 4
    some ⟨some p, virtAddr paddr⟩

/-- `acpi_available`. -/
def acpiAvailable (s : AcpiState) : Bool := s.rsdp.isSome

/-- The difference `e - b` of two pointers to double words, as an `unsigned long`. -/
def ptrDiff (b e : ℕ) : ℕ :=
  let d := wsub e b
  if d < 2 ^ 31 then d / 4 else wsub 0 (wsub 0 d / 4)

/-- `acpi_tables`. -/
def acpiTables (mem : VirtualMemory) (rsdt : ℕ) : Option ℕ := do
  let length ← loadLE mem (wadd rsdt 4) 4
  some (ptrDiff (wadd rsdt 36) (wadd rsdt length))

/-- `acpi_get_table`. -/
def acpiGetTable (mem : VirtualMemory) (rsdt idx : ℕ) : Option ℕ := do
  let paddr ← loadLE mem (wadd (wadd rsdt 36) (wmul 4 idx)) 4
  some (virtAddr paddr)

/-- The loop of `acpi_table_find` with `n` tables left. -/
def acpiTableFindLoop (mem : VirtualMemory) (rsdt : ℕ) (sign : ℕ → UInt8) :
    ℕ → ℕ → Option (Option ℕ)
  | 0, _ => some none
  | n + 1, i => do
    let hdr ← acpiGetTable mem rsdt i
    let ret ← memcmpLoop (bytesAt mem hdr) (bytesOf sign) (memcmpRounds hdr 4) 0
    if ret = 0 then some (some hdr) else acpiTableFindLoop mem rsdt sign n (i + 1)

/-- `acpi_table_find`, with the pointer it returns, if any. -/
def acpiTableFind (mem : VirtualMemory) (s : AcpiState) (sign : ℕ → UInt8) : Option (Option ℕ) :=
  if acpiAvailable s then do
    let tables ← acpiTables mem s.rsdt
    acpiTableFindLoop mem s.rsdt sign tables 0
  else none

/-! ### What the firmware left -/

/-- The physical address of a table in the root table. -/
def rsdtEntry (phys : Memory) (rsdtPaddr i : ℕ) : ℕ := readLE phys (wadd rsdtPaddr (36 + 4 * i)) 4

/-- **What the search has to find** in a root table with `n` entries: a pointer to the first table
with the signature, or null if there is none. -/
def TableAt (L : Layout) (w : ℕ → ℕ) (phys : Memory) (rsdtPaddr n : ℕ) (sign : ℕ → UInt8) :
    Option ℕ → Prop
  | some ptr => ∃ i < n, TextAt phys (rsdtEntry phys rsdtPaddr i) sign 4 ∧
      (∀ j < i, ¬ TextAt phys (rsdtEntry phys rsdtPaddr j) sign 4) ∧
      pageWalk (L.start w) (physAddr L.swapperPageDir) ptr = some (rsdtEntry phys rsdtPaddr i)
  | none => ∀ i < n, ¬ TextAt phys (rsdtEntry phys rsdtPaddr i) sign 4

/-- The characters of a table up to the first one that differs from the signature are in the direct
map. -/
def Comparable (phys : Memory) (p : ℕ) (sign : ℕ → UInt8) : Prop :=
  ∀ k < 4, (∀ m < k, phys (wadd p m) = sign m) → wadd p k < lowmemEnd

variable {L : Layout} {w : ℕ → ℕ} {phys : Memory} {sign : ℕ → UInt8}
  {rsdtPaddr n i k p : ℕ} {r : Option ℕ}

instance (p : ℕ) : Decidable (TextAt phys p sign n) := by unfold TextAt; infer_instance

instance (p : ℕ) : Decidable (Comparable phys p sign) := by unfold Comparable; infer_instance

theorem rsdtEntry_lt (phys : Memory) (rsdtPaddr i : ℕ) : rsdtEntry phys rsdtPaddr i < 2 ^ 32 :=
  readLE_lt phys _ 4

/-! ### Comparing with a table -/

theorem Comparable.lt (h : Comparable phys p sign) (hp : p < 2 ^ 32) : p < lowmemEnd := by
  have hzero := h 0 (by omega) fun m hm => absurd hm (Nat.not_lt_zero m)
  rwa [wadd_zero hp] at hzero

/-- The end of the comparison does not wrap for a table in the direct map. -/
theorem memcmpRounds_virtAddr (h : p < lowmemEnd) : memcmpRounds (virtAddr p) 4 = 4 := by
  have h' : p < 0x38000000 := h
  rw [memcmpRounds, virtAddr_of_lt h, wadd_of_lt (by omega)]
  exact if_pos (by omega)

/-- A character of a table and of the signature. -/
theorem agreeAt_sign_iff (p k : ℕ) :
    AgreeAt (bytesAt (kernelMemory L w phys) (virtAddr p)) (bytesOf sign) k ↔
      wadd p k < lowmemEnd ∧ phys (wadd p k) = sign k := by
  rw [AgreeAt, bytesAt_virtAddr, bytesOf]
  by_cases hlow : wadd p k < lowmemEnd
  · simp [hlow, eq_comm]
  · simp [hlow]

/-- Comparing with a table whose characters are mapped as far as needed. -/
theorem Comparable.memcmp (h : Comparable phys p sign) (hp : p < 2 ^ 32) :
    ∃ ret, memcmpLoop (bytesAt (kernelMemory L w phys) (virtAddr p)) (bytesOf sign)
        (memcmpRounds (virtAddr p) 4) 0 = some ret ∧ (ret = 0 ↔ TextAt phys p sign 4) := by
  rw [memcmpRounds_virtAddr (h.lt hp)]
  cases hret : memcmpLoop (bytesAt (kernelMemory L w phys) (virtAddr p)) (bytesOf sign) 4 0 with
  | none =>
    obtain ⟨k, hk, hnone | hnone, hagree⟩ := memcmpLoop_eq_none_iff.mp hret
    · have hlow := h k hk fun m hm => ((agreeAt_sign_iff p m).mp (Nat.zero_add m ▸ hagree m hm)).2
      rw [Nat.zero_add, bytesAt_virtAddr, if_pos hlow] at hnone
      cases hnone
    · cases hnone
  | some ret =>
    have hzero : ret = 0 ↔
        memcmpLoop (bytesAt (kernelMemory L w phys) (virtAddr p)) (bytesOf sign) 4 0 = some 0 := by
      rw [hret, Option.some_inj]
    refine ⟨ret, rfl, ?_⟩
    rw [hzero, memcmpLoop_eq_zero_iff]
    simp only [Nat.zero_add, agreeAt_sign_iff]
    constructor
    · exact fun hall k hk => (hall k hk).2
    · exact fun htext k hk => ⟨h k hk fun m hm => htext m (hm.trans hk), htext k hk⟩

/-- Otherwise the comparison faults, unless there is nothing to compare before the address space
ends. -/
theorem memcmp_of_not_comparable (h : ¬ Comparable phys p sign) :
    memcmpLoop (bytesAt (kernelMemory L w phys) (virtAddr p)) (bytesOf sign)
        (memcmpRounds (virtAddr p) 4) 0 = none ∨
    lowmemEnd ≤ p ∧ memcmpLoop (bytesAt (kernelMemory L w phys) (virtAddr p)) (bytesOf sign)
        (memcmpRounds (virtAddr p) 4) 0 = some 0 := by
  classical
  by_cases hrounds : memcmpRounds (virtAddr p) 4 = 4
  · left
    rw [hrounds, memcmpLoop_eq_none_iff]
    unfold Comparable at h
    push Not at h
    obtain ⟨k, hk, hsame, hhigh⟩ := h
    -- the first character that is not mapped
    have hex : ∃ m, lowmemEnd ≤ wadd p m := ⟨k, hhigh⟩
    have hle : Nat.find hex ≤ k := Nat.find_min' hex hhigh
    refine ⟨Nat.find hex, hle.trans_lt hk, Or.inl ?_, ?_⟩
    · rw [Nat.zero_add, bytesAt_virtAddr, if_neg (Nat.not_lt.mpr (Nat.find_spec hex))]
    · intro m hm
      rw [Nat.zero_add, agreeAt_sign_iff]
      exact ⟨Nat.lt_of_not_le (Nat.find_min hex hm), hsame m (hm.trans_le hle)⟩
  · have hhigh : lowmemEnd ≤ p := Nat.le_of_not_lt fun hlow => hrounds (memcmpRounds_virtAddr hlow)
    have hskip : memcmpRounds (virtAddr p) 4 = 0 := by
      rw [memcmpRounds, ite_eq_left_iff] at hrounds
      push Not at hrounds
      exact if_neg (Nat.not_lt.mpr hrounds.1)
    exact Or.inr ⟨hhigh, by rw [hskip]; rfl⟩

/-! ### The root table -/

/-- Reading an entry of the root table. -/
theorem acpiGetTable_virtAddr (hi : i < 2 ^ 30) :
    acpiGetTable (kernelMemory L w phys) (virtAddr rsdtPaddr) i =
      if InLowmem (wadd rsdtPaddr (36 + 4 * i)) 4 then
        some (virtAddr (rsdtEntry phys rsdtPaddr i)) else none := by
  have haddr : wadd (wadd (virtAddr rsdtPaddr) 36) (wmul 4 i) =
      virtAddr (wadd rsdtPaddr (36 + 4 * i)) := by
    rw [wmul_of_lt (by omega), wadd_wadd, wadd_virtAddr]
  rw [acpiGetTable, haddr, loadLE_virtAddr (wadd_lt _ _)]
  split <;> rfl

/-- The number of tables, for a root table of `36 + 4 * n` bytes. From `2 ^ 29` entries on the
difference of the pointers is negative. -/
theorem acpiTables_virtAddr (hlen : readLE phys (wadd rsdtPaddr 4) 4 = 36 + 4 * n) :
    acpiTables (kernelMemory L w phys) (virtAddr rsdtPaddr) =
      if InLowmem (wadd rsdtPaddr 4) 4 then
        some (if n < 2 ^ 29 then n else n + 3 * 2 ^ 30) else none := by
  have hword : 36 + 4 * n < 2 ^ 32 := hlen ▸ readLE_lt phys _ 4
  have hdiff : wsub (wadd (virtAddr rsdtPaddr) (36 + 4 * n)) (wadd (virtAddr rsdtPaddr) 36) = 4 * n := by
    have hlt : virtAddr rsdtPaddr < 2 ^ 32 := wrap_lt _
    unfold wsub wadd wrap
    omega
  have hptr : ptrDiff (wadd (virtAddr rsdtPaddr) 36) (wadd (virtAddr rsdtPaddr) (36 + 4 * n)) =
      if n < 2 ^ 29 then n else n + 3 * 2 ^ 30 := by
    rw [ptrDiff, hdiff]
    unfold wsub wrap
    split <;> split <;> omega
  rw [acpiTables, wadd_virtAddr, loadLE_virtAddr (wadd_lt _ _), hlen]
  split
  · rw [Option.bind_eq_bind, Option.bind_some, hptr]
  · rfl

/-- The search, once the length of the root table is read. -/
theorem acpiTableFind_virtAddr {rsdp : ℕ} (hlen : readLE phys (wadd rsdtPaddr 4) 4 = 36 + 4 * n) :
    acpiTableFind (kernelMemory L w phys) ⟨some rsdp, virtAddr rsdtPaddr⟩ sign =
      if InLowmem (wadd rsdtPaddr 4) 4 then
        acpiTableFindLoop (kernelMemory L w phys) (virtAddr rsdtPaddr) sign
          (if n < 2 ^ 29 then n else n + 3 * 2 ^ 30) 0
      else none := by
  have havail : acpiAvailable ⟨some rsdp, virtAddr rsdtPaddr⟩ = true := rfl
  rw [acpiTableFind, if_pos havail, acpiTables_virtAddr hlen]
  split <;> rfl

/-! ### The search -/

/-- What the search reads is in the direct map: the length of the root table, and up to the first
table with the signature the entries and the characters of the tables. -/
def SearchInLowmem (phys : Memory) (rsdtPaddr n : ℕ) (sign : ℕ → UInt8) : Prop :=
  InLowmem (wadd rsdtPaddr 4) 4 ∧
  ∀ i < n, (∀ j < i, ¬ TextAt phys (rsdtEntry phys rsdtPaddr j) sign 4) →
    InLowmem (wadd rsdtPaddr (36 + 4 * i)) 4 ∧ Comparable phys (rsdtEntry phys rsdtPaddr i) sign

instance : Decidable (SearchInLowmem phys rsdtPaddr n sign) := by
  unfold SearchInLowmem; infer_instance

/-- One round of the search. -/
theorem acpiTableFindLoop_succ {m : ℕ} (hi : i < 2 ^ 30)
    (hentry : InLowmem (wadd rsdtPaddr (36 + 4 * i)) 4)
    (htable : Comparable phys (rsdtEntry phys rsdtPaddr i) sign) :
    acpiTableFindLoop (kernelMemory L w phys) (virtAddr rsdtPaddr) sign (m + 1) i =
      if TextAt phys (rsdtEntry phys rsdtPaddr i) sign 4 then
        some (some (virtAddr (rsdtEntry phys rsdtPaddr i)))
      else acpiTableFindLoop (kernelMemory L w phys) (virtAddr rsdtPaddr) sign m (i + 1) := by
  obtain ⟨ret, hret, hzero⟩ := @Comparable.memcmp L w _ _ _ htable (rsdtEntry_lt phys rsdtPaddr i)
  rw [acpiTableFindLoop, acpiGetTable_virtAddr hi, if_pos hentry, Option.bind_eq_bind,
    Option.bind_some, hret, Option.bind_eq_bind, Option.bind_some]
  by_cases htext : TextAt phys (rsdtEntry phys rsdtPaddr i) sign 4
  · rw [if_pos (hzero.mpr htext), if_pos htext]
  · rw [if_neg (mt hzero.mp htext), if_neg htext]

/-- The search stops at the first table with the signature. -/
theorem acpiTableFindLoop_found {m : ℕ} (h : SearchInLowmem phys rsdtPaddr n sign) (hn : n ≤ 2 ^ 30)
    (hk : k < n) (htext : TextAt phys (rsdtEntry phys rsdtPaddr k) sign 4)
    (hfirst : ∀ j < k, ¬ TextAt phys (rsdtEntry phys rsdtPaddr j) sign 4) (hik : i ≤ k)
    (hm : k < i + m) :
    acpiTableFindLoop (kernelMemory L w phys) (virtAddr rsdtPaddr) sign m i =
      some (some (virtAddr (rsdtEntry phys rsdtPaddr k))) := by
  induction m generalizing i with
  | zero => omega
  | succ m ih =>
    obtain ⟨hentry, htable⟩ := h.2 i (by omega) fun j hj => hfirst j (by omega)
    rw [acpiTableFindLoop_succ (by omega) hentry htable]
    rcases Nat.eq_or_lt_of_le hik with rfl | hlt
    · rw [if_pos htext]
    · rw [if_neg (hfirst i hlt)]
      exact ih hlt (by omega)

/-- The search ends at the end of the root table if no table has the signature. -/
theorem acpiTableFindLoop_none {m : ℕ} (h : SearchInLowmem phys rsdtPaddr n sign) (hn : n ≤ 2 ^ 30)
    (hnone : ∀ j < n, ¬ TextAt phys (rsdtEntry phys rsdtPaddr j) sign 4) (hm : i + m = n) :
    acpiTableFindLoop (kernelMemory L w phys) (virtAddr rsdtPaddr) sign m i = some none := by
  induction m generalizing i with
  | zero => rfl
  | succ m ih =>
    obtain ⟨hentry, htable⟩ := h.2 i (by omega) fun j hj => hnone j (by omega)
    rw [acpiTableFindLoop_succ (by omega) hentry htable, if_neg (hnone i (by omega))]
    exact ih (by omega)

/-- A root table without the signature that lies in the direct map is short. -/
theorem SearchInLowmem.length_lt (h : SearchInLowmem phys rsdtPaddr n sign)
    (hnone : ∀ j < n, ¬ TextAt phys (rsdtEntry phys rsdtPaddr j) sign 4) : n < 2 ^ 29 := by
  by_contra hge
  have hlow : ∀ i < n, wadd rsdtPaddr (36 + 4 * i) < 0x38000000 := by
    intro i hi
    have hfirst := (h.2 i hi fun j hj => hnone j (hj.trans hi)).1 0 (by omega)
    rwa [wadd_zero (wadd_lt _ _)] at hfirst
  have hstart := hlow 0 (by omega)
  -- the entry at the end of the direct map
  have hend := hlow ((0x38000000 - wadd rsdtPaddr 36 + 3) / 4) (by omega)
  unfold wadd wrap at hstart hend
  omega

/-- What a search that ends as it has to has read. -/
theorem SearchInLowmem.of_loop {m : ℕ} (hn : n ≤ 2 ^ 30)
    (hret : acpiTableFindLoop (kernelMemory L w phys) (virtAddr rsdtPaddr) sign m i = some r)
    (hat : TableAt L w phys rsdtPaddr n sign r) (hik : i ≤ k) (hkn : k < n) (hkm : k < i + m)
    (hfirst : ∀ j < k, ¬ TextAt phys (rsdtEntry phys rsdtPaddr j) sign 4) :
    InLowmem (wadd rsdtPaddr (36 + 4 * k)) 4 ∧ Comparable phys (rsdtEntry phys rsdtPaddr k) sign := by
  induction m generalizing i with
  | zero => omega
  | succ m ih =>
    have hentry : InLowmem (wadd rsdtPaddr (36 + 4 * i)) 4 := by
      by_contra hno
      rw [acpiTableFindLoop, acpiGetTable_virtAddr (by omega), if_neg hno] at hret
      cases hret
    have htable : Comparable phys (rsdtEntry phys rsdtPaddr i) sign := by
      by_contra hno
      rw [acpiTableFindLoop, acpiGetTable_virtAddr (by omega), if_pos hentry, Option.bind_eq_bind,
        Option.bind_some] at hret
      rcases @memcmp_of_not_comparable L w _ _ _ hno with hfault | ⟨hhigh, hskip⟩
      · rw [hfault] at hret
        cases hret
      · -- the pointer that is returned is not mapped
        rw [hskip, Option.bind_eq_bind, Option.bind_some, if_pos rfl] at hret
        obtain rfl := Option.some.inj hret
        obtain ⟨j, -, -, -, hwalk⟩ := hat
        rw [L.pageWalk_virtAddr w (rsdtEntry_lt phys rsdtPaddr i), if_neg (Nat.not_lt.mpr hhigh)]
          at hwalk
        cases hwalk
    rcases Nat.eq_or_lt_of_le hik with rfl | hlt
    · exact ⟨hentry, htable⟩
    · rw [acpiTableFindLoop_succ (by omega) hentry htable, if_neg (hfirst i hlt)] at hret
      exact ih hret hlt (by omega)

/-- The root table that `setup_acpi` makes known: that of a root pointer in the direct map. -/
theorem setupAcpi_of_probe (hprobe : acpiRsdpProbe (kernelMemory L w phys) = some (some (virtAddr p)))
    (hp : p + 20 ≤ lowmemEnd) (s : AcpiState) :
    setupAcpi (kernelMemory L w phys) s =
      some ⟨some (virtAddr p), virtAddr (readLE phys (p + 16) 4)⟩ := by
  have hp' : p + 20 ≤ 0x38000000 := hp
  have haddr : wadd (virtAddr p) 16 = virtAddr (p + 16) := by
    rw [wadd_virtAddr, wadd_of_lt (by omega)]
  have hlow : InLowmem (p + 16) 4 := inLowmem_of_le hp
  rw [setupAcpi, hprobe, Option.bind_eq_bind, Option.bind_some]
  dsimp only
  rw [haddr, loadLE_virtAddr (by omega), if_pos hlow]
  rfl

/-- **The search finds what it has to exactly if what it reads is in the direct map**, for every root
table and every root pointer. -/
theorem acpiTableFind_finds_iff (L : Layout) (w : ℕ → ℕ) (phys : Memory) (rsdp : ℕ)
    (sign : ℕ → UInt8) (hlen : readLE phys (wadd rsdtPaddr 4) 4 = 36 + 4 * n) :
    (∃ r, acpiTableFind (kernelMemory L w phys) ⟨some rsdp, virtAddr rsdtPaddr⟩ sign = some r ∧
        TableAt L w phys rsdtPaddr n sign r) ↔
      SearchInLowmem phys rsdtPaddr n sign := by
  have hword : 36 + 4 * n < 2 ^ 32 := hlen ▸ readLE_lt phys _ 4
  have hle : n ≤ if n < 2 ^ 29 then n else n + 3 * 2 ^ 30 := by split <;> omega
  rw [acpiTableFind_virtAddr hlen]
  constructor
  · rintro ⟨r, hret, hat⟩
    by_cases hlength : InLowmem (wadd rsdtPaddr 4) 4
    · rw [if_pos hlength] at hret
      refine ⟨hlength, fun k hk hfirst => ?_⟩
      exact SearchInLowmem.of_loop (by omega) hret hat (Nat.zero_le k) hk (by omega) hfirst
    · rw [if_neg hlength] at hret
      cases hret
  · intro h
    rw [if_pos h.1]
    by_cases hex : ∃ k, k < n ∧ TextAt phys (rsdtEntry phys rsdtPaddr k) sign 4
    · classical
      obtain ⟨hk, htext⟩ := Nat.find_spec hex
      have hfirst : ∀ j < Nat.find hex, ¬ TextAt phys (rsdtEntry phys rsdtPaddr j) sign 4 :=
        fun j hj hj' => Nat.find_min hex hj ⟨hj.trans hk, hj'⟩
      have hlow := (h.2 _ hk hfirst).2.lt (rsdtEntry_lt phys rsdtPaddr _)
      refine ⟨_, acpiTableFindLoop_found h (by omega) hk htext hfirst (Nat.zero_le _) (by omega),
        _, hk, htext, hfirst, ?_⟩
      rw [L.pageWalk_virtAddr w (rsdtEntry_lt phys rsdtPaddr _), if_pos hlow]
    · have hnone : ∀ j < n, ¬ TextAt phys (rsdtEntry phys rsdtPaddr j) sign 4 :=
        fun j hj hj' => hex ⟨j, hj, hj'⟩
      rw [if_pos (h.length_lt hnone)]
      exact ⟨none, acpiTableFindLoop_none h (by omega) hnone (Nat.zero_add n), hnone⟩

/-- `ACPI_MADT_SIGN`, the characters `APIC`. -/
def madtSign (i : ℕ) : UInt8 := [0x41, 0x50, 0x49, 0x43].getD i 0

/-- A root table at `0x1000` with one entry, a table at `0x2000`. -/
def lowTables : Memory := fun a =>
  match a with
  | 0x1004 => 40
  | 0x1025 => 0x20
  | _ => if 0x2000 ≤ a then madtSign (a - 0x2000) else 0

/-- The table is found. -/
theorem acpiTableFind_finds_lowTables :
    ∃ r, acpiTableFind (kernelMemory sampleLayout (fun _ => 0) lowTables)
        ⟨some 0xC00E0000, virtAddr 0x1000⟩ madtSign = some r ∧
      TableAt sampleLayout (fun _ => 0) lowTables 0x1000 1 madtSign r :=
  (acpiTableFind_finds_iff sampleLayout (fun _ => 0) lowTables 0xC00E0000 madtSign (by decide)).mpr
    (by decide)

/-- The same tables at the end of one gigabyte of memory. -/
def highTables : Memory := fun a =>
  match a with
  | 0x3FFE0004 => 40
  | 0x3FFE0025 => 0x10
  | 0x3FFE0026 => 0xFE
  | 0x3FFE0027 => 0x3F
  | _ => if 0x3FFE1000 ≤ a then madtSign (a - 0x3FFE1000) else 0

/-- **A root table above the direct map is not mapped**, and the search faults. -/
theorem acpiTableFind_faults :
    readLE highTables (wadd 0x3FFE0000 4) 4 = 36 + 4 * 1 ∧
    TextAt highTables (rsdtEntry highTables 0x3FFE0000 0) madtSign 4 ∧
    acpiTableFind (kernelMemory sampleLayout (fun _ => 0) highTables)
      ⟨some 0xC00E0000, virtAddr 0x3FFE0000⟩ madtSign = none := by
  have hlen : readLE highTables (wadd 0x3FFE0000 4) 4 = 36 + 4 * 1 := by decide
  have hhigh : ¬ InLowmem (wadd 0x3FFE0000 4) 4 := by decide
  refine ⟨hlen, by decide, ?_⟩
  rw [acpiTableFind_virtAddr hlen, if_neg hhigh]

end Auos
