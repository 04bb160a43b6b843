import Auos.Acpi.Madt
import Auos.Vectors

/-!
# The local APICs

`setup_local_apic_acpi` and `setup_local_apic` of `apic.c`. The first one lists the processors of the
MADT by their numbers, and on a processor the second one looks for the place of its own number in the
list. It gives the local APIC one bit of a logical number, by that place, and enables it.

`apic_setup` addresses its entries to all bits of the logical numbers. So a processor that was set up
takes the messages of every entry, in the flat model, which is the one after a reset and which no code
here changes.

## Main definitions

* `setupLocalApicAcpi`, `setupLocalApic` — the source
* `listedPids` — the processors that it lists
* `LocalApicRegs.Accepts` — the entries of which a local APIC takes messages

## Main results

* `setupLocalApic_eq` — what a processor that is listed writes
* `setupLocalApic_listed` — which processors are set up, and which share a bit
* `apicRun_accepts` — the messages of every entry that was set up are taken
-/

namespace Auos

/-! ### The source -/

/-- `LOCAL_APIC_ID_REG`. -/
abbrev localApicIdReg : ℕ := 0x08

/-- `LOCAL_APIC_LD_REG`. -/
abbrev localApicLdReg : ℕ := 0x34

/-- `LOCAL_APIC_SI_REG`. -/
abbrev localApicSiReg : ℕ := 0x3C

/-- `MADT_LOCAL_APIC`. -/
abbrev madtLocalApic : ℕ := 0

/-- The registers of a local APIC. -/
abbrev LocalApicRegs := ℕ → BitVec 32

/-- `local_apic_pid`. -/
def localApicPid (regs : LocalApicRegs) : ℕ := (regs localApicIdReg).toNat >>> 24

/-- `local_apic_write`. -/
def localApicWrite (regs : LocalApicRegs) (reg : ℕ) (value : BitVec 32) : LocalApicRegs :=
  Function.update regs reg value

/-- `setup_local_apic_acpi`: the `pid` fields of `local_apic`. -/
def setupLocalApicAcpi (mem : Memory) (tbl fuel : ℕ) : Option (List ℕ) :=
  (acpiParseMadt mem tbl madtLocalApic (acpiHandleLocalApic mem) fuel []).map Prod.fst

/-- The numbers of the first `32` processors of a walk. -/
def listedPids (mem : Memory) (l : List ℕ) : List ℕ :=
  ((madtEntries mem madtLocalApic l).map fun p => (mem (wadd p 3)).toNat).take localApicMaxCount

/-- `setup_local_apic`. It is `none` where it panics. -/
def setupLocalApic (pids : List ℕ) (regs : LocalApicRegs) : Option LocalApicRegs := do
  let pid := localApicPid regs
  let i ← pids.findIdx? (· == pid)
  let id := BitVec.twoPow 32 (i % 8)
  let regs := localApicWrite regs localApicLdReg (id <<< 24)
  some (localApicWrite regs localApicSiReg
    (BitVec.ofNat 32 spuriousInterruptVector ||| BitVec.twoPow 32 8))

/-! ### The device -/

/-- The logical number. -/
def LocalApicRegs.logicalId (regs : LocalApicRegs) : BitVec 8 := (regs localApicLdReg).extractLsb' 24 8

/-- The logical numbers are sets of bits: register `0x38` is as after a reset. -/
def LocalApicRegs.Flat (regs : LocalApicRegs) : Prop := (regs 0x38).extractLsb' 28 4 = 0xF#4

/-- A local APIC takes the messages of a redirection entry with a logical destination, given by its two
registers. -/
structure LocalApicRegs.Accepts (regs : LocalApicRegs) (low high : BitVec 32) : Prop where
  enabled : (regs localApicSiReg).getLsbD 8 = true
  flat : regs.Flat
  logical : low.getLsbD 11 = true
  /-- It has a bit of the destination. -/
  addressed : regs.logicalId &&& high.extractLsb' 24 8 ≠ 0#8

variable {mem : Memory} {tbl fuel i j a pin : ℕ} {pids l : List ℕ} {regs regs' : LocalApicRegs}
  {s : Apic} {d₀ d : IoApicDevices} {ops : List ApicOp}

/-! ### The list of processors -/

/-- The numbers of the processors that are listed, from these on. -/
theorem foldlM_acpiHandleLocalApic (hlen : pids.length ≤ localApicMaxCount) :
    l.foldlM (acpiHandleLocalApic mem) pids =
      some ((pids ++ l.map fun p => (mem (wadd p 3)).toNat).take localApicMaxCount) := by
  induction l generalizing pids with
  | nil => simp [List.take_of_length_le hlen]
  | cons p l ih =>
    rw [List.foldlM_cons, acpiHandleLocalApic]
    by_cases hfull : pids.length = localApicMaxCount
    · rw [if_pos hfull]
      show l.foldlM (acpiHandleLocalApic mem) pids = _
      rw [ih hlen, List.take_append_of_le_length hfull.ge, List.take_append_of_le_length hfull.ge]
    · rw [if_neg hfull]
      show l.foldlM (acpiHandleLocalApic mem) (pids ++ [(mem (wadd p 3)).toNat]) = _
      rw [ih (by rw [List.length_append, List.length_singleton]; omega), List.append_assoc]
      rfl

/-- The first processors of the MADT are listed, as many as there is room for. -/
theorem setupLocalApicAcpi_eq (h : MadtWalk mem (madtEnd mem tbl) (wadd tbl sizeofAcpiMadt) l)
    (hfuel : l.length < fuel) : setupLocalApicAcpi mem tbl fuel = some (listedPids mem l) := by
  rw [setupLocalApicAcpi, acpiParseMadt_eq h hfuel, foldlM_acpiHandleLocalApic (Nat.zero_le _)]
  rfl

/-! ### A processor -/

/-- The byte of a logical number. -/
theorem extractLsb_twoPow (h : i < 8) :
    (BitVec.twoPow 32 i <<< 24).extractLsb' 24 8 = BitVec.twoPow 8 i := by
  interval_cases i <;> rfl

/-- A processor finds its place if it is listed. -/
theorem setupLocalApic_eq_none_iff : setupLocalApic pids regs = none ↔ localApicPid regs ∉ pids := by
  rw [setupLocalApic, Option.bind_eq_bind, Option.bind_eq_none_iff]
  constructor
  · intro h hmem
    have hsome : (pids.findIdx? (· == localApicPid regs)).isSome = true := by
      rw [List.findIdx?_isSome]
      exact List.any_eq_true.mpr ⟨_, hmem, beq_self_eq_true _⟩
    obtain ⟨i, hfind⟩ := Option.isSome_iff_exists.mp hsome
    cases h i hfind
  · intro hno i hfind
    obtain ⟨hlt, hplace, -⟩ := List.findIdx?_eq_some_iff_getElem.mp hfind
    exact absurd (List.getElem_mem hlt) (eq_of_beq hplace ▸ hno)

/-- What a processor writes, by its place in the list. -/
theorem setupLocalApic_eq (h : setupLocalApic pids regs = some regs') :
    regs'.logicalId = BitVec.twoPow 8 (pids.idxOf (localApicPid regs) % 8) ∧
      regs' localApicSiReg = 0x1FF#32 ∧
      ∀ reg, reg ≠ localApicLdReg → reg ≠ localApicSiReg → regs' reg = regs reg := by
  obtain ⟨i, hfind, hregs⟩ := Option.bind_eq_some_iff.mp h
  cases hregs
  obtain ⟨-, hplace⟩ := List.findIdx?_eq_some_iff_findIdx_eq.mp hfind
  have hidx : pids.idxOf (localApicPid regs) = i := hplace
  refine ⟨?_, Function.update_self .., fun reg hld hsi => ?_⟩
  · rw [hidx, LocalApicRegs.logicalId, localApicWrite, localApicWrite,
      Function.update_of_ne (by decide), Function.update_self]
    exact extractLsb_twoPow (Nat.mod_lt _ (by decide))
  · rw [localApicWrite, localApicWrite, Function.update_of_ne hsi, Function.update_of_ne hld]

/-- Bits are equal if their places are. -/
theorem twoPow_inj (hi : i < 8) : BitVec.twoPow 8 i = BitVec.twoPow 8 j ↔ i = j := by
  refine ⟨fun h => ?_, fun h => by rw [h]⟩
  have hbit := congrArg (BitVec.getLsbD · i) h
  simpa [hi, eq_comm] using hbit

/-- **Which processors are set up**: those whose number is among the first `32` that the MADT lists, and
`setup_local_apic` panics on the others. Two of them share a bit if and only if their places are equal
modulo `8`. -/
theorem setupLocalApic_listed (h : MadtWalk mem (madtEnd mem tbl) (wadd tbl sizeofAcpiMadt) l)
    (hfuel : l.length < fuel) : setupLocalApicAcpi mem tbl fuel = some (listedPids mem l) ∧
      (∀ regs, setupLocalApic (listedPids mem l) regs = none ↔
        localApicPid regs ∉ listedPids mem l) ∧
      ∀ regs regs' other other', setupLocalApic (listedPids mem l) regs = some regs' →
        setupLocalApic (listedPids mem l) other = some other' →
          (regs'.logicalId = other'.logicalId ↔ (listedPids mem l).idxOf (localApicPid regs) % 8 =
            (listedPids mem l).idxOf (localApicPid other) % 8) := by
  refine ⟨setupLocalApicAcpi_eq h hfuel, fun regs => setupLocalApic_eq_none_iff, ?_⟩
  intro regs regs' other other' hset hset'
  rw [(setupLocalApic_eq hset).1, (setupLocalApic_eq hset').1]
  exact twoPow_inj (Nat.mod_lt _ (by decide))

/-- A MADT of two processors, `0` and `3`. -/
def twoProcessors : Memory := fun a =>
  if a = 4 then 60 else if a = 45 ∨ a = 53 then 8 else if a = 55 then 3 else 0

theorem setupLocalApic_listed_two : setupLocalApicAcpi twoProcessors 0 3 = some [0, 3] ∧
    setupLocalApic [0, 3] (fun _ => 0x02000000#32) = none ∧
    ∃ regs' other', setupLocalApic [0, 3] (fun _ => 0#32) = some regs' ∧
      setupLocalApic [0, 3] (fun _ => 0x03000000#32) = some other' ∧
        regs'.logicalId ≠ other'.logicalId := by
  have hwalk : MadtWalk twoProcessors (madtEnd twoProcessors 0) (wadd 0 sizeofAcpiMadt) [44, 52] :=
    ⟨rfl, by decide, rfl, by decide, show madtEnd twoProcessors 0 ≤ 60 by decide⟩
  have hpids : listedPids twoProcessors [44, 52] = [0, 3] := by decide
  obtain ⟨hlist, hnone, hshare⟩ := setupLocalApic_listed hwalk (show 2 < 3 by decide)
  rw [hpids] at hlist hnone hshare
  obtain ⟨regs', hset⟩ : ∃ regs', setupLocalApic [0, 3] (fun _ => 0#32) = some regs' :=
    Option.ne_none_iff_exists'.mp fun h => (hnone _).mp h (by decide)
  obtain ⟨other', hset'⟩ : ∃ other', setupLocalApic [0, 3] (fun _ => 0x03000000#32) = some other' :=
    Option.ne_none_iff_exists'.mp fun h => (hnone _).mp h (by decide)
  refine ⟨hlist, (hnone _).mpr (by decide), regs', other', hset, hset', fun heq => ?_⟩
  have hplace := (hshare _ _ _ _ hset hset').mp heq
  revert hplace
  decide

/-! ### The entries of the IO APICs -/

/-- A call on an interrupt that does not resolve panics. -/
theorem ApicOp.run_of_unresolved {op : ApicOp} (h : apicResolve s op.irq = none) :
    op.run s d = none := by
  cases op <;> exact congrArg (Option.bind · _) h

/-- A sequence of calls that ends leaves the entries of the table. -/
theorem refines_of_apicRun (hfit : s.PinsFit) (hrun : apicRun s d₀ ops = some d) :
    Refines d₀ d (lineTable s ops) := by
  induction ops using List.reverseRecOn generalizing d with
  | nil =>
    cases hrun
    exact refines_refl d₀
  | append_singleton ops op ih =>
    have hbind : apicRun s d₀ (ops ++ [op]) = (apicRun s d₀ ops).bind fun d => apicRun s d [op] :=
      List.foldlM_append
    obtain ⟨d₁, hrun₁, hop⟩ := Option.bind_eq_some_iff.mp (hbind.symm.trans hrun)
    have hop : op.run s d₁ = some d := by simpa [apicRun] using hop
    have hres : apicResolve s op.irq ≠ none := by
      intro hnone
      cases (ApicOp.run_of_unresolved hnone).symm.trans hop
    obtain ⟨d', hop', href⟩ := (ih hrun₁).run hfit hres
    cases hop.symm.trans hop'
    rw [lineTable_append]
    exact href

/-- An entry that was set up is logical and goes to all. -/
theorem lineTable_setup {r : Redirection} (hr : (lineTable s ops a pin).setup = some r) :
    r.logical = true ∧ r.destination = 0xFF#8 := by
  induction ops using List.reverseRecOn generalizing r with
  | nil => cases hr
  | append_singleton ops op ih =>
    rw [lineTable_append, ApicOp.apply] at hr
    rcases hsome : apicResolve s op.irq with _ | ⟨apic, pin', gsi⟩
    · rw [hsome] at hr
      exact ih hr
    · rw [hsome] at hr
      dsimp only at hr
      by_cases ha : a = apic.iospace
      · subst ha
        rw [Function.update_self] at hr
        by_cases hpin : pin = pin'
        · subst hpin
          rw [Function.update_self] at hr
          cases op with
          | setup irq flags =>
            cases hr
            exact ⟨rfl, rfl⟩
          | mask irq => exact ih hr
          | unmask irq => exact ih hr
        · rw [Function.update_of_ne hpin] at hr
          exact ih hr
      · rw [Function.update_of_ne ha] at hr
        exact ih hr

/-- The bit of a line that makes its destination logical. -/
theorem Line.getLsbD_low {line : Line} {r : Redirection} (h : line.setup = some r) (low : BitVec 32) :
    (line.low low).getLsbD 11 = r.logical := by
  have hbit : r.low.getLsbD 11 = r.logical := by
    rw [r.getLsbD_low (by decide)]
    simp
  rw [Line.low, h]
  cases line.masked with
  | none => exact hbit
  | some m => exact (getLsbD_setMask _ m (by decide)).trans hbit

/-- **The messages of every entry are taken**: after any calls of the IO APIC driver, a processor on
which `setup_local_apic` has returned takes the messages of every entry that `apic_setup` has set up. -/
theorem apicRun_accepts (hfit : s.PinsFit) (hrun : apicRun s d₀ ops = some d)
    (hset : setupLocalApic pids regs = some regs') (hflat : regs.Flat) (hpin : pin < 120)
    (hline : (lineTable s ops a pin).setup ≠ none) :
    regs'.Accepts ((d a).regs (0x10 + 2 * pin)) ((d a).regs (0x10 + 2 * pin + 1)) := by
  obtain ⟨r, hr⟩ := Option.ne_none_iff_exists'.mp hline
  obtain ⟨hlogical, hdestination⟩ := lineTable_setup hr
  obtain ⟨hid, hsi, hother⟩ := setupLocalApic_eq hset
  have href := refines_of_apicRun hfit hrun
  rw [href.low a pin hpin, href.high a pin hpin]
  refine ⟨by rw [hsi]; rfl, ?_, (Line.getLsbD_low hr _).trans hlogical, ?_⟩
  · rw [LocalApicRegs.Flat, hother 0x38 (by decide) (by decide)]
    exact hflat
  · have hhigh : ((lineTable s ops a pin).high ((d₀ a).regs (0x10 + 2 * pin + 1))).extractLsb' 24 8 =
        0xFF#8 := by
      rw [Line.high, hr, Option.map_some, Option.getD_some, Redirection.high, hdestination]
      rfl
    rw [hid, hhigh]
    have hlt : pids.idxOf (localApicPid regs) % 8 < 8 := Nat.mod_lt _ (by decide)
    generalize pids.idxOf (localApicPid regs) % 8 = n at hlt
    interval_cases n <;> decide

/-- A processor at its first place, and a line that was set up and masked. -/
theorem apicRun_accepts_sample : ∃ d regs',
    apicRun sampleApic (fun _ => ⟨0, fun _ => 0⟩) [.setup 20 hwirqLow, .mask 20] = some d ∧
      setupLocalApic [0] (fun reg => if reg = 0x38 then 0xFFFFFFFF#32 else 0) = some regs' ∧
      regs'.Accepts ((d 0xFEC00000).regs 0x38) ((d 0xFEC00000).regs 0x39) := by
  obtain ⟨d, hrun⟩ : ∃ d, apicRun sampleApic (fun _ => ⟨0, fun _ => 0⟩)
    [.setup 20 hwirqLow, .mask 20] = some d := ⟨_, rfl⟩
  obtain ⟨regs', hset⟩ : ∃ regs', setupLocalApic [0]
    (fun reg => if reg = 0x38 then 0xFFFFFFFF#32 else 0) = some regs' := ⟨_, rfl⟩
  have hline : (lineTable sampleApic [.setup 20 hwirqLow, .mask 20] 0xFEC00000 20).setup ≠ none := nofun
  exact ⟨d, regs', hrun, hset, apicRun_accepts pinsFit_sampleApic hrun hset rfl (by decide) hline⟩

end Auos
