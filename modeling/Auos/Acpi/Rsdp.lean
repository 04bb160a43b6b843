import Auos.Acpi.Memory
import Mathlib.Data.Nat.Find
import Mathlib.Order.Bounds.Basic
import Mathlib.Tactic.IntervalCases

/-!
# Finding the root pointer

`acpi_rsdp_probe` of the architecture's `acpi.c` looks for the signature of the root system
description pointer in the first kilobyte of the extended BIOS data area, and then in the BIOS area
below 1 MB. The base of the extended area is 16 times the word at `0x40E`. The source shifts the
address of the word and not the word: it reads the word at `0x40E0` and takes it as it is.

## Main definitions

* `acpiRsdpProbe` — the source
* `ebdaPlaces`, `biosPlaces` — where the signature is, among the places that the format allows
* `scannedPlaces` — where it is among the places of the first scan
* `RsdpAt` — what the probe has to find

## Main results

* `acpiFindRsdpSign_spec` — a scan finds the first place
* `acpiRsdpProbe_finds_iff` — when the probe finds what it has to
-/

namespace Auos

/-! ### `acpi.c` -/

/-- `RSDP_SIGN`, the characters `RSD PTR ` with the blank at the end. -/
def rsdpSign (i : ℕ) : UInt8 := [0x52, 0x53, 0x44, 0x20, 0x50, 0x54, 0x52, 0x20].getD i 0

/-- The loop of `acpi_find_rsdp_sign` from the place `ptr` on, with the number of places left. -/
def acpiFindRsdpSignLoop (mem : VirtualMemory) (toAddr : ℕ) : ℕ → ℕ → Option (Option ℕ)
  | 0, _ => some none
  | n + 1, ptr =>
    if ptr < toAddr then do
      let ret ← memcmpLoop (bytesOf rsdpSign) (bytesAt mem ptr) 8 0
      if ret = 0 then some (some ptr) else acpiFindRsdpSignLoop mem toAddr n (wadd ptr 16)
    else some none

/-- `acpi_find_rsdp_sign`. -/
def acpiFindRsdpSign (mem : VirtualMemory) (fromAddr toAddr : ℕ) : Option (Option ℕ) :=
  acpiFindRsdpSignLoop mem toAddr ((toAddr - fromAddr + 15) / 16) fromAddr

/-- `acpi_find_rsdp_addr`. -/
def acpiFindRsdpAddr (mem : VirtualMemory) : Option (Option ℕ) := do
  let ebdaBegin ← loadLE mem (virtAddr (0x40E <<< 4)) 2
  let ebdaEnd := wadd ebdaBegin 0x400
  let addr ← acpiFindRsdpSign mem (virtAddr ebdaBegin) (virtAddr ebdaEnd)
  match addr with
  | some addr => some (some addr)
  | none => acpiFindRsdpSign mem (virtAddr 0x0E0000) (virtAddr 0x100000)

/-- `acpi_rsdp_probe`, with the pointer it returns, if any. -/
def acpiRsdpProbe (mem : VirtualMemory) : Option (Option ℕ) := acpiFindRsdpAddr mem

/-! ### Where the signature is -/

/-- The signature at a physical address. -/
def Signed (phys : Memory) (p : ℕ) : Prop := ∀ i < 8, phys (p + i) = rsdpSign i

/-- The base of the extended BIOS data area. -/
def ebdaBase (phys : Memory) : ℕ := 16 * readLE phys 0x40E 2

/-- The places of the signature in the first kilobyte of the extended BIOS data area. -/
def ebdaPlaces (phys : Memory) : Set ℕ :=
  {p | 16 ∣ p ∧ ebdaBase phys ≤ p ∧ p < ebdaBase phys + 1024 ∧ Signed phys p}

/-- The places of the signature in the BIOS area. -/
def biosPlaces (phys : Memory) : Set ℕ :=
  {p | 16 ∣ p ∧ 0xE0000 ≤ p ∧ p < 0x100000 ∧ Signed phys p}

/-- The places of the signature in steps of 16 from `a` on, below `b`. -/
def placesFrom (phys : Memory) (a b : ℕ) : Set ℕ := {p | ∃ k, p = a + 16 * k ∧ p < b ∧ Signed phys p}

/-- The places of the signature in the first area that the source scans. -/
def scannedPlaces (phys : Memory) : Set ℕ :=
  placesFrom phys (readLE phys 0x40E0 2) (readLE phys 0x40E0 2 + 1024)

/-- **What the probe has to find**: the first place in the extended BIOS data area, or else the first
place in the BIOS area, or else nothing. -/
def RsdpAt (phys : Memory) : Option ℕ → Prop
  | some p => IsLeast (ebdaPlaces phys) p ∨ ebdaPlaces phys = ∅ ∧ IsLeast (biosPlaces phys) p
  | none => ebdaPlaces phys = ∅ ∧ biosPlaces phys = ∅

/-- The first element of a set, if there is one. -/
def FirstOf (S : Set ℕ) : Option ℕ → Prop
  | some p => IsLeast S p
  | none => S = ∅

variable {L : Layout} {w : ℕ → ℕ} {phys : Memory} {S : Set ℕ} {a b n p : ℕ}

theorem exists_isLeast_of_ne_empty (h : S ≠ ∅) : ∃ p, IsLeast S p := by
  classical
  have hne := Set.nonempty_iff_ne_empty.mpr h
  exact ⟨Nat.find hne, Nat.find_spec hne, fun q hq => Nat.find_min' hne hq⟩

/-! ### A scan -/

/-- Comparing with the signature at a place in the direct map. -/
theorem memcmpLoop_rsdpSign (h : p + 8 ≤ lowmemEnd) :
    ∃ ret, memcmpLoop (bytesOf rsdpSign) (bytesAt (kernelMemory L w phys) (virtAddr p)) 8 0 = some ret ∧
      (ret = 0 ↔ Signed phys p) := by
  have h' : p + 8 ≤ 0x38000000 := h
  have hbyte : ∀ k < 8, bytesAt (kernelMemory L w phys) (virtAddr p) k = some (phys (p + k)) := by
    intro k hk
    have haddr : wadd p k = p + k := wadd_of_lt (by omega)
    have hlow : p + k < lowmemEnd := show p + k < 0x38000000 by omega
    rw [bytesAt_virtAddr, haddr, if_pos hlow]
  have hagree : ∀ k < 8, AgreeAt (bytesOf rsdpSign)
      (bytesAt (kernelMemory L w phys) (virtAddr p)) (0 + k) ↔ phys (p + k) = rsdpSign k := by
    intro k hk
    rw [Nat.zero_add, AgreeAt, hbyte k hk, bytesOf]
    constructor
    · rintro ⟨x, hx, hy⟩
      rw [Option.some_inj.mp hx, ← Option.some_inj.mp hy]
    · exact fun heq => ⟨_, rfl, congrArg some heq⟩
  cases hret : memcmpLoop (bytesOf rsdpSign) (bytesAt (kernelMemory L w phys) (virtAddr p)) 8 0 with
  | none =>
    obtain ⟨k, hk, hnone | hnone, -⟩ := memcmpLoop_eq_none_iff.mp hret
    · cases hnone
    · rw [Nat.zero_add, hbyte k hk] at hnone
      cases hnone
  | some ret =>
    refine ⟨ret, rfl, ?_⟩
    have hzero : ret = 0 ↔
        memcmpLoop (bytesOf rsdpSign) (bytesAt (kernelMemory L w phys) (virtAddr p)) 8 0 = some 0 := by
      rw [hret, Option.some_inj]
    rw [hzero, memcmpLoop_eq_zero_iff]
    exact forall₂_congr hagree

/-- The places from the next one on. -/
theorem placesFrom_eq (h : a < b) :
    placesFrom phys a b = placesFrom phys (a + 16) b ∪ {p | p = a ∧ Signed phys p} := by
  ext p
  constructor
  · rintro ⟨k, rfl, hlt, hsigned⟩
    cases k with
    | zero => exact Or.inr ⟨rfl, hsigned⟩
    | succ k => exact Or.inl ⟨k, by omega, hlt, hsigned⟩
  · rintro (⟨k, rfl, hlt, hsigned⟩ | ⟨rfl, hsigned⟩)
    · exact ⟨k + 1, by omega, hlt, hsigned⟩
    · exact ⟨0, rfl, h, hsigned⟩

theorem acpiFindRsdpSignLoop_spec (hn : b ≤ a + 16 * n) (ha : a ≤ b + 16)
    (hb : b + 32 ≤ lowmemEnd) :
    ∃ r, acpiFindRsdpSignLoop (kernelMemory L w phys) (virtAddr b) n (virtAddr a) =
      some (r.map virtAddr) ∧ FirstOf (placesFrom phys a b) r := by
  have hb' : b + 32 ≤ 0x38000000 := hb
  have hempty : ∀ a, b ≤ a → placesFrom phys a b = ∅ := by
    intro a hle
    rw [Set.eq_empty_iff_forall_notMem]
    rintro p ⟨k, rfl, hlt, -⟩
    omega
  induction n generalizing a with
  | zero => exact ⟨none, rfl, hempty a (by omega)⟩
  | succ n ih =>
    have hva : virtAddr a = a + 0xC0000000 := virtAddr_of_lt (show a < 0x38000000 by omega)
    have hvb : virtAddr b = b + 0xC0000000 := virtAddr_of_lt (show b < 0x38000000 by omega)
    rw [acpiFindRsdpSignLoop]
    by_cases hlt : a < b
    · have hnext : wadd (virtAddr a) 16 = virtAddr (a + 16) := by
        rw [wadd_virtAddr, wadd_of_lt (by omega)]
      obtain ⟨ret, hret, hsigned⟩ := @memcmpLoop_rsdpSign L w phys a (show a + 8 ≤ 0x38000000 by omega)
      rw [if_pos (by omega), hret, Option.bind_eq_bind, Option.bind_some, hnext]
      by_cases hzero : ret = 0
      · refine ⟨some a, by rw [if_pos hzero]; rfl, ⟨0, rfl, hlt, hsigned.mp hzero⟩, ?_⟩
        rintro p ⟨k, rfl, -, -⟩
        exact Nat.le_add_right _ _
      · have hplaces : placesFrom phys a b = placesFrom phys (a + 16) b := by
          rw [placesFrom_eq hlt, Set.union_eq_left]
          rintro p ⟨rfl, hp⟩
          exact absurd (hsigned.mpr hp) hzero
        rw [if_neg hzero, hplaces]
        exact ih (by omega) (by omega)
    · exact ⟨none, if_neg (by omega), hempty a (Nat.le_of_not_lt hlt)⟩

/-- **A scan finds the first place**, among those in steps of 16 from its start. -/
theorem acpiFindRsdpSign_spec (hle : a ≤ b) (hb : b + 32 ≤ lowmemEnd) :
    ∃ r, acpiFindRsdpSign (kernelMemory L w phys) (virtAddr a) (virtAddr b) =
      some (r.map virtAddr) ∧ FirstOf (placesFrom phys a b) r := by
  have hb' : b + 32 ≤ 0x38000000 := hb
  have hva : virtAddr a = a + 0xC0000000 := virtAddr_of_lt (show a < 0x38000000 by omega)
  have hvb : virtAddr b = b + 0xC0000000 := virtAddr_of_lt (show b < 0x38000000 by omega)
  exact acpiFindRsdpSignLoop_spec (by omega) (by omega) hb

/-! ### The probe -/

/-- The places of the BIOS area are those of the second scan. -/
theorem placesFrom_bios : placesFrom phys 0xE0000 0x100000 = biosPlaces phys := by
  ext p
  constructor
  · rintro ⟨k, rfl, hlt, hsigned⟩
    exact ⟨by omega, by omega, hlt, hsigned⟩
  · rintro ⟨hdvd, hle, hlt, hsigned⟩
    exact ⟨(p - 0xE0000) / 16, by omega, hlt, hsigned⟩

/-- The two scans: the first place of the first area, or else of the BIOS area. -/
theorem acpiRsdpProbe_spec (L : Layout) (w : ℕ → ℕ) (phys : Memory) :
    ∃ x y, acpiRsdpProbe (kernelMemory L w phys) = some ((x <|> y).map virtAddr) ∧
      FirstOf (scannedPlaces phys) x ∧ FirstOf (biosPlaces phys) y := by
  have hword : readLE phys 0x40E0 2 < 65536 := by
    have h0 := (phys 0x40E0).toNat_lt
    have h1 := (phys (wadd 0x40E0 1)).toNat_lt
    rw [readLE, readLE, readLE]
    omega
  have hload : loadLE (kernelMemory L w phys) (virtAddr (0x40E <<< 4)) 2 =
      some (readLE phys 0x40E0 2) := by
    rw [loadLE_virtAddr (show (0x40E <<< 4 : ℕ) < 2 ^ 32 by decide)]
    exact if_pos (inLowmem_of_le (by decide))
  have hend : wadd (readLE phys 0x40E0 2) 0x400 = readLE phys 0x40E0 2 + 1024 :=
    wadd_of_lt (by omega)
  obtain ⟨x, hx, hfirst⟩ := @acpiFindRsdpSign_spec L w phys (readLE phys 0x40E0 2)
    (readLE phys 0x40E0 2 + 1024) (by omega) (show _ ≤ 0x38000000 by omega)
  obtain ⟨y, hy, hsecond⟩ := @acpiFindRsdpSign_spec L w phys 0xE0000 0x100000 (by decide) (by decide)
  refine ⟨x, y, ?_, hfirst, placesFrom_bios ▸ hsecond⟩
  rw [acpiRsdpProbe, acpiFindRsdpAddr, hload, Option.bind_eq_bind, Option.bind_some, hend]
  dsimp only
  rw [hx, Option.bind_eq_bind, Option.bind_some]
  cases x with
  | some p => rfl
  | none => exact hy

theorem virtAddr_inj {q : ℕ} (hp : p < 2 ^ 32) (hq : q < 2 ^ 32) (h : virtAddr p = virtAddr q) :
    p = q := by
  unfold virtAddr wadd wrap at h
  change (p + 0xC0000000) % 2 ^ 32 = (q + 0xC0000000) % 2 ^ 32 at h
  omega

/-- Pointers to physical addresses are the same only if the addresses are. -/
theorem eq_of_map_virtAddr {r r' : Option ℕ} (h : r.map virtAddr = r'.map virtAddr)
    (hr : ∀ p, r = some p → p < 2 ^ 32) (hr' : ∀ p, r' = some p → p < 2 ^ 32) : r = r' := by
  cases r with
  | none => exact (Option.map_eq_none_iff.mp h.symm).symm
  | some p =>
    obtain ⟨q, rfl, hq⟩ := Option.map_eq_some_iff.mp h.symm
    exact congrArg some (virtAddr_inj (hr p rfl) (hr' q rfl) hq.symm)

/-- The places that the source scans first are below the BIOS area. -/
theorem lt_of_mem_scannedPlaces (h : p ∈ scannedPlaces phys) : p < 0xE0000 := by
  have h0 := (phys 0x40E0).toNat_lt
  have h1 := (phys (wadd 0x40E0 1)).toNat_lt
  obtain ⟨k, -, hlt, -⟩ := h
  rw [readLE, readLE, readLE] at hlt
  omega

/-- A place that the probe has to find is below 2 MB. -/
theorem RsdpAt.lt {r : Option ℕ} (h : RsdpAt phys r) (hr : r = some p) : p < 0x200000 := by
  subst hr
  rcases h with hp | ⟨-, hp⟩
  · obtain ⟨⟨-, -, hlt, -⟩, -⟩ := hp
    have h0 := (phys 0x40E).toNat_lt
    have h1 := (phys (wadd 0x40E 1)).toNat_lt
    rw [ebdaBase, readLE, readLE, readLE] at hlt
    omega
  · obtain ⟨⟨-, -, hlt, -⟩, -⟩ := hp
    omega

/-- The first of the places of two scans, which are in this order. -/
theorem lt_of_orElse {x y : Option ℕ} (hx : FirstOf (scannedPlaces phys) x)
    (hy : FirstOf (biosPlaces phys) y) (h : (x <|> y) = some p) : p < 0x100000 := by
  cases x with
  | some q =>
    obtain rfl := Option.some.inj h
    have hlt := lt_of_mem_scannedPlaces hx.1
    omega
  | none =>
    obtain rfl : y = some p := h
    exact hy.1.2.2.1

/-- The first of the places of the two scans is the one to find exactly if the first scan finds that of
the extended area and the second one is needed only where that area has none. -/
theorem rsdpAt_orElse_iff {x y : Option ℕ} (hx : FirstOf (scannedPlaces phys) x)
    (hy : FirstOf (biosPlaces phys) y) : RsdpAt phys (x <|> y) ↔
      (∀ p, IsLeast (scannedPlaces phys) p → IsLeast (ebdaPlaces phys) p) ∧
      (scannedPlaces phys = ∅ → ∀ p, IsLeast (ebdaPlaces phys) p → IsLeast (biosPlaces phys) p) := by
  constructor
  · intro hat
    constructor
    · intro p hp
      cases x with
      | none => exact absurd hp.1 (hx ▸ Set.notMem_empty p)
      | some q =>
        obtain rfl : q = p := hx.unique hp
        rcases hat with hat | ⟨-, hat⟩
        · exact hat
        · -- the first scan does not reach the BIOS area
          have hlt := lt_of_mem_scannedPlaces hp.1
          have hle := hat.1.2.1
          omega
    · intro hempty p hp
      cases x with
      | some q => exact absurd hx.1 (hempty ▸ Set.notMem_empty q)
      | none =>
        cases y with
        | none => exact absurd hp.1 (hat.1 ▸ Set.notMem_empty p)
        | some q =>
          rcases hat with hat | ⟨hnone, -⟩
          · exact hat.unique hp ▸ hy
          · exact absurd hp.1 (hnone ▸ Set.notMem_empty p)
  · rintro ⟨hfirst, hsecond⟩
    cases x with
    | some p => exact Or.inl (hfirst p hx)
    | none =>
      by_cases hebda : ebdaPlaces phys = ∅
      · cases y with
        | some q => exact Or.inr ⟨hebda, hy⟩
        | none => exact ⟨hebda, hy⟩
      · obtain ⟨p, hp⟩ := exists_isLeast_of_ne_empty hebda
        have hbios := hsecond hx p hp
        cases y with
        | some q => exact Or.inl (hbios.unique hy ▸ hp)
        | none => exact absurd hbios.1 (hy ▸ Set.notMem_empty p)

/-- **The probe finds what it has to exactly if** the first place of its first scan is also the first
one in the extended BIOS data area, and if that scan finds nothing, a first place in the extended area
is also the first one in the BIOS area. -/
theorem acpiRsdpProbe_finds_iff (L : Layout) (w : ℕ → ℕ) (phys : Memory) :
    (∃ r, acpiRsdpProbe (kernelMemory L w phys) = some (r.map virtAddr) ∧ RsdpAt phys r) ↔
      (∀ p, IsLeast (scannedPlaces phys) p → IsLeast (ebdaPlaces phys) p) ∧
      (scannedPlaces phys = ∅ → ∀ p, IsLeast (ebdaPlaces phys) p → IsLeast (biosPlaces phys) p) := by
  obtain ⟨x, y, hret, hx, hy⟩ := acpiRsdpProbe_spec L w phys
  rw [hret, ← rsdpAt_orElse_iff hx hy]
  constructor
  · rintro ⟨r, heq, hat⟩
    have hsame : (x <|> y) = r := eq_of_map_virtAddr (Option.some.inj heq)
      (fun p hp => (lt_of_orElse hx hy hp).trans (by decide)) fun p hp => (hat.lt hp).trans (by decide)
    exact hsame ▸ hat
  · exact fun hat => ⟨x <|> y, rfl, hat⟩

/-- Memory with the signature at the start of an extended BIOS data area at `0x9FC00`. -/
def ebdaMemory : Memory := fun a =>
  if a = 0x40E then 0xC0 else if a = 0x40F then 0x9F
  else if 0x9FC00 ≤ a ∧ a < 0x9FC08 then rsdpSign (a - 0x9FC00) else 0

theorem signed_ebdaMemory : Signed ebdaMemory p ↔ p = 0x9FC00 := by
  constructor
  · intro h
    have h0 : ebdaMemory p = 0x52 := h 0 (by omega)
    have h1 : ebdaMemory (p + 1) = 0x53 := h 1 (by omega)
    by_cases hp : 0x9FC00 ≤ p ∧ p < 0x9FC08
    · obtain ⟨i, hi, rfl⟩ : ∃ i < 8, p = 0x9FC00 + i := ⟨p - 0x9FC00, by omega, by omega⟩
      -- the first character occurs twice
      interval_cases i <;> revert h0 h1 <;> decide
    · unfold ebdaMemory at h0
      split_ifs at h0 <;> cases h0
  · rintro rfl
    unfold Signed
    decide

/-- **A root pointer in the extended BIOS data area is not found.** -/
theorem acpiRsdpProbe_misses_ebda :
    acpiRsdpProbe (kernelMemory sampleLayout (fun _ => 0) ebdaMemory) = some none ∧
      RsdpAt ebdaMemory (some 0x9FC00) ∧ ¬ RsdpAt ebdaMemory none := by
  have hbase : ebdaBase ebdaMemory = 0x9FC00 := by decide
  have hword : readLE ebdaMemory 0x40E0 2 = 0 := by decide
  have hebda : IsLeast (ebdaPlaces ebdaMemory) 0x9FC00 := by
    refine ⟨⟨by decide, hbase.le, by omega, signed_ebdaMemory.mpr rfl⟩, ?_⟩
    rintro p ⟨-, hle, -⟩
    exact hbase ▸ hle
  have hscanned : scannedPlaces ebdaMemory = ∅ := by
    rw [Set.eq_empty_iff_forall_notMem]
    rintro p ⟨k, -, hlt, hsigned⟩
    rw [signed_ebdaMemory.mp hsigned, hword] at hlt
    omega
  have hbios : biosPlaces ebdaMemory = ∅ := by
    rw [Set.eq_empty_iff_forall_notMem]
    rintro p ⟨-, hle, -, hsigned⟩
    rw [signed_ebdaMemory.mp hsigned] at hle
    omega
  obtain ⟨x, y, hret, hx, hy⟩ := acpiRsdpProbe_spec sampleLayout (fun _ => 0) ebdaMemory
  refine ⟨?_, Or.inl hebda, fun h => absurd hebda.1 (h.1 ▸ Set.notMem_empty _)⟩
  cases x with
  | some p => exact absurd hx.1 (hscanned ▸ Set.notMem_empty p)
  | none =>
    cases y with
    | some p => exact absurd hy.1 (hbios ▸ Set.notMem_empty p)
    | none => exact hret

end Auos
