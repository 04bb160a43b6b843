import Auos.IoApic

/-!
# Decoding an interrupt source override

An override of the MADT is ten bytes: type, length, bus, source, a global interrupt of four bytes and
flags of two, with the polarity in bits 0 and 1 and the trigger in bits 2 and 3. `struct
acpi_isa_source` declares `gsi` with one byte. The source therefore reads the low byte of the
interrupt and takes the next two bytes of it for the flags; the flags themselves are never read.

## Main definitions

* `hwirqAsked` — what the flags ask for
* `isaSourceEntry` — the override as the format encodes it
* `Decoded` — the override has taken effect

## Main results

* `readIsaSource_of_stored` — what the source makes of an override
* `acpiHandleIsaSource_decodes_iff` — when the override takes effect
-/

namespace Auos

/-! ### The format -/

/-- The `HWIRQ` flag that the flags of an override ask for, if their codes are defined. -/
def hwirqAsked (flags : ℕ) : Option ℕ := do
  let p ← polarityOf flags
  let t ← triggerOf flags
  some (hwirqOf p t)

/-- Only active high and edge is `HWIRQ_RISING`. -/
theorem hwirqAsked_eq_rising_iff {flags : ℕ} :
    hwirqAsked flags = some hwirqRising ↔
      polarityOf flags = some .high ∧ triggerOf flags = some .edge := by
  unfold hwirqAsked
  rcases polarityOf flags with _ | p
  · simp
  rcases triggerOf flags with _ | t
  · simp
  · cases p <;> cases t <;> decide

/-- The `n` lowest bytes of `x`, lowest byte first. -/
def leBytes (x : ℕ) : ℕ → List UInt8
  | 0 => []
  | n + 1 => UInt8.ofNat x :: leBytes (x / 256) n

@[simp] theorem length_leBytes (x n : ℕ) : (leBytes x n).length = n := by
  induction n generalizing x with
  | zero => rfl
  | succ n ih => simp [leBytes, ih]

/-- An override. -/
def isaSourceEntry (bus : UInt8) (source gsi flags : ℕ) : MadtEntry where
  type := 2
  body := bus :: UInt8.ofNat source :: (leBytes gsi 4 ++ leBytes flags 2)
  fits := by simp

/-- **The override has taken effect**: the routing map holds its interrupt and what its flags ask for.
An override that changes nothing may have been skipped. -/
def Decoded (mem : Memory) (s : Apic) (header source gsi flags : ℕ) : Prop :=
  ∃ s', acpiHandleIsaSource mem s header = some s' ∧
    ((s'.isaIrq source).gsi = gsi ∧ hwirqAsked flags = some (s'.isaIrq source).flags ∨
      source = gsi ∧ flags % 16 = 0 ∧ s' = s)

/-! ### What the source reads -/

section Decode

variable {mem : Memory} {s : Apic} {header source gsi flags : ℕ} {bus : UInt8}

/-- **The fields of an override in the structure of the source**: the low byte of the interrupt, and
the next two bytes for flags. -/
theorem readIsaSource_of_stored (h : Stored mem header (isaSourceEntry bus source gsi flags).bytes)
    (hheader : header + 10 ≤ 2 ^ 32) :
    readIsaSource mem header = ⟨source % 256, gsi % 256, gsi / 256 % 65536⟩ := by
  have hlen : (isaSourceEntry bus source gsi flags).bytes.length = 10 := rfl
  have hsource : mem (header + 3) = UInt8.ofNat source := h 3 (by omega)
  have h4 : mem (header + 4) = UInt8.ofNat gsi := h 4 (by omega)
  have h5 : mem (header + 5) = UInt8.ofNat (gsi / 256) := h 5 (by omega)
  have h6 : mem (header + 6) = UInt8.ofNat (gsi / 256 / 256) := h 6 (by omega)
  have haddr : ∀ i < 10, wadd header i = header + i := fun i hi => wadd_of_lt (by omega)
  have hflags : readLE mem (wadd header 5) 2 = gsi / 256 % 65536 := by
    have hnext : wadd (header + 5) 1 = header + 6 := wadd_of_lt (by omega)
    rw [readLE, readLE, readLE, haddr 5 (by omega), hnext, h5, h6, UInt8.toNat_ofNat',
      UInt8.toNat_ofNat']
    omega
  rw [readIsaSource, hflags, haddr 3 (by omega), haddr 4 (by omega), hsource, h4,
    UInt8.toNat_ofNat', UInt8.toNat_ofNat']

/-- The test of the source for an override that changes nothing looks at the low twelve bits of the
interrupt. -/
theorem useless_iff (hsource : source < isaIrqCount) :
    AcpiIsaSource.Useless ⟨source % 256, gsi % 256, gsi / 256 % 65536⟩ ↔ gsi % 4096 = source := by
  have hlt : source < 16 := hsource
  unfold AcpiIsaSource.Useless
  dsimp only
  rw [and_polarityMask, and_triggerMask]
  omega

/-- An interrupt below 256 leaves zeros where the source looks for the flags. -/
theorem hwirqFlags_zero (source gsi : ℕ) :
    AcpiIsaSource.hwirqFlags ⟨source, gsi, 0⟩ = hwirqRising := by
  simp [AcpiIsaSource.hwirqFlags]

/-- What `acpi_handle_isa_source` does with an override. -/
theorem acpiHandleIsaSource_of_stored
    (h : Stored mem header (isaSourceEntry bus source gsi flags).bytes)
    (hheader : header + 10 ≤ 2 ^ 32) (hsource : source < isaIrqCount) :
    acpiHandleIsaSource mem s header =
      if gsi % 4096 = source then some s
      else ioApicSetupIsa s
        ⟨AcpiIsaSource.hwirqFlags ⟨source % 256, gsi % 256, gsi / 256 % 65536⟩, source, gsi % 256⟩ := by
  have hmod : source % 256 = source := Nat.mod_eq_of_lt (hsource.trans (by decide))
  rw [acpiHandleIsaSource, readIsaSource_of_stored h hheader]
  dsimp only
  simp only [useless_iff hsource]
  rw [hmod]

/-- `io_apic_setup_isa` writes its interrupt and its flags. -/
theorem isaIrq_ioApicSetupIsa {cfg : IsaIrqCfg} {s' : Apic} (h : ioApicSetupIsa s cfg = some s') :
    (s'.isaIrq cfg.isa).gsi = cfg.gsi ∧ (s'.isaIrq cfg.isa).flags = cfg.flags := by
  rw [ioApicSetupIsa] at h
  split at h
  · obtain ⟨i, -, hrest⟩ := Option.bind_eq_some_iff.mp h
    obtain ⟨apic, -, hsome⟩ := Option.bind_eq_some_iff.mp hrest
    cases hsome
    simp
  · cases h

end Decode

/-! ### When an override takes effect -/

variable {mem : Memory} {s : Apic} {header source gsi flags : ℕ} {bus : UInt8}

/-- **An override takes effect exactly if** its interrupt is below 256 and it asks for active high and
edge; or, where the source takes it for one that changes nothing, if it does change nothing. -/
theorem acpiHandleIsaSource_decodes_iff
    (h : Stored mem header (isaSourceEntry bus source gsi flags).bytes)
    (hheader : header + 10 ≤ 2 ^ 32) (hsource : source < isaIrqCount)
    (hirqs : ∀ a ∈ s.ioApic, a.irqs ≤ 256) (hcovered : Handles s.ioApic gsi) :
    Decoded mem s header source gsi flags ↔
      if gsi % 4096 = source then
        source = gsi ∧ flags % 16 = 0 ∨
          (s.isaIrq source).gsi = gsi ∧ hwirqAsked flags = some (s.isaIrq source).flags
      else gsi < 256 ∧ polarityOf flags = some .high ∧ triggerOf flags = some .edge := by
  have hlt : source < 16 := hsource
  rw [Decoded, acpiHandleIsaSource_of_stored h hheader hsource]
  by_cases hskip : gsi % 4096 = source
  · rw [if_pos hskip, if_pos hskip]
    simp only [Option.some_inj, exists_eq_left', and_true]
    exact or_comm
  · rw [if_neg hskip, if_neg hskip, ← hwirqAsked_eq_rising_iff]
    constructor
    · rintro ⟨s', hret, ⟨hgsi, hflags⟩ | ⟨rfl, -⟩⟩
      · obtain ⟨hgsi', hflags'⟩ := isaIrq_ioApicSetupIsa hret
        dsimp only at hgsi' hflags'
        have hbyte : gsi < 256 := by omega
        have hzero : gsi / 256 % 65536 = 0 := by omega
        rw [hzero, hwirqFlags_zero] at hflags'
        exact ⟨hbyte, hflags' ▸ hflags⟩
      · omega
    · rintro ⟨hbyte, hasked⟩
      have hzero : gsi / 256 % 65536 = 0 := by omega
      have hmod : gsi % 256 = gsi := Nat.mod_eq_of_lt hbyte
      rw [hzero, hwirqFlags_zero, hmod]
      obtain ⟨s', hret, -, -⟩ := @ioApicSetupIsa_spec s ⟨hwirqRising, source, gsi⟩ hirqs hsource
        hbyte hcovered
      obtain ⟨hgsi, hflags⟩ := isaIrq_ioApicSetupIsa hret
      exact ⟨s', hret, Or.inl ⟨hgsi, by rw [hflags, hasked]⟩⟩

/-- A place in memory with an override for the timer: interrupt 2, bus default. -/
def timerOverride : Memory := fun a => (isaSourceEntry 0 0 2 0).bytes.getD a 0

/-- The override for the timer takes effect. -/
theorem decoded_timerOverride : Decoded timerOverride sampleApic 0 0 2 0 := by
  have hstored : Stored timerOverride 0 (isaSourceEntry 0 0 2 0).bytes := by decide
  have hcovered : Handles sampleApic.ioApic 2 :=
    ⟨_, List.mem_singleton_self _, by decide, by decide⟩
  exact (acpiHandleIsaSource_decodes_iff hstored (by decide) (by decide) (by decide) hcovered).mpr
    ⟨by decide, rfl, rfl⟩

/-- A place in memory with an override for interrupt 9: interrupt 20, level and active low. -/
def levelOverride : Memory := fun a => (isaSourceEntry 0 9 20 0xF).bytes.getD a 0

/-- **A level-triggered override is set up as edge triggered and active high.** -/
theorem acpiHandleIsaSource_ignores_flags :
    Stored levelOverride 0 (isaSourceEntry 0 9 20 0xF).bytes ∧ Handles sampleApic.ioApic 20 ∧
    hwirqAsked 0xF = some hwirqLow ∧
    (∃ s', acpiHandleIsaSource levelOverride sampleApic 0 = some s' ∧
      s'.isaIrq 9 = ⟨some 0, hwirqRising, 20, 20⟩) ∧
    ¬ Decoded levelOverride sampleApic 0 9 20 0xF := by
  have hret : acpiHandleIsaSource levelOverride sampleApic 0 =
      some { sampleApic with
        isaIrq := Function.update sampleApic.isaIrq 9 ⟨some 0, hwirqRising, 20, 20⟩ } := rfl
  refine ⟨by decide, ⟨_, List.mem_singleton_self _, by decide, by decide⟩, rfl,
    ⟨_, hret, by simp⟩, ?_⟩
  rintro ⟨s', hret', ⟨-, hflags⟩ | ⟨hsame, -⟩⟩
  · obtain rfl := Option.some.inj (hret.symm.trans hret')
    exact absurd hflags (by decide)
  · exact absurd hsame (by decide)

end Auos
