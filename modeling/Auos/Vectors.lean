import Auos.IoApic

/-!
# Interrupt vectors

`apic_setup` gives a global interrupt the vector that is its number plus `HW_INTERRUPT_OFFSET`, and
`io_apic_setup_irq` keeps eight bits of it. The offset is there to leave out the exceptions, but from
interrupt `224` on the sum wraps to them, interrupt `223` gets the vector of spurious interrupts, and
two interrupts that differ by a multiple of `256` get the same vector.

## Main definitions

* `SetsUp` — the global interrupts that `apic_setup` sets up
* `pinVector`, `Programs` — the vector in an entry, and what `apic_setup` makes of it

## Main results

* `programs_iff` — the vector of a global interrupt
* `vectors_usable_iff` — when the vectors are usable and unique
* `vectors_usable_of_le` — few interrupts
-/

namespace Auos

variable {s : Apic} {d d' : IoApicDevices} {apic : IoApic} {a irq pin gsi gsi' reg vector : ℕ}

/-- `SPURIOUS_INTERRUPT_VECTOR`. -/
abbrev spuriousInterruptVector : ℕ := 0xFF

/-- Some interrupt number leads `apic_setup` to this global interrupt. -/
def SetsUp (s : Apic) (gsi : ℕ) : Prop :=
  ∃ irq apic pin, apicResolve s irq = some (apic, pin, gsi)

/-- The vector in the entry of a pin, the lowest byte of its low register. -/
def pinVector (d : IoApicDevices) (apic : IoApic) (pin : ℕ) : ℕ :=
  ((d apic.iospace).regs ((ioApicRedtblReg + 2 * pin) &&& 0xFF)).toNat % 2 ^ 8

/-- Some call of `apic_setup` sets up this global interrupt and leaves this vector in its entry. -/
def Programs (s : Apic) (gsi vector : ℕ) : Prop :=
  ∃ irq apic pin flags d d', apicResolve s irq = some (apic, pin, gsi) ∧
    apicSetup s d irq flags = some d' ∧ pinVector d' apic pin = vector

/-! ### The vector of an interrupt -/

/-- A write is to the register of the low byte of its number. -/
theorem ioApicWrite_regs_and (v : BitVec 32) :
    ((ioApicWrite d a reg v) a).regs (reg &&& 0xFF) = v := by
  have hindex : (ioApicSelect d a reg a).index = reg &&& 0xFF := by
    rw [ioApicSelect, Function.update_self]
  rw [ioApicWrite]
  dsimp only
  rw [hindex, Function.update_self]
  exact Function.update_self ..

/-- The lowest byte of an entry. -/
theorem Redirection.toNat_low_mod (r : Redirection) : r.low.toNat % 2 ^ 8 = r.vector.toNat := by
  have hbyte : r.low.setWidth 8 = r.vector := by
    apply BitVec.eq_of_getLsbD_eq
    intro i hi
    rw [BitVec.getLsbD_setWidth, r.getLsbD_low (by omega), if_pos hi]
    simp [hi]
  rw [← hbyte, BitVec.toNat_setWidth]

/-- The vector that a set-up leaves. -/
theorem pinVector_setup (flags : ℕ) :
    pinVector (ioApicSetupIrq d apic pin (wadd gsi 0x20) flags ioApicDestAll) apic pin =
      (gsi + hwInterruptOffset) % 2 ^ 8 := by
  rw [pinVector, ioApicSetupIrq, ioApicWrite_regs_and, setupIrqLow_eq, Redirection.toNat_low_mod,
    redirectionOf, BitVec.toNat_ofNat]

/-- **The vector of a global interrupt** is its number plus the offset, of which a byte is left. -/
theorem programs_iff :
    Programs s gsi vector ↔ SetsUp s gsi ∧ vector = (gsi + hwInterruptOffset) % 2 ^ 8 := by
  have hsetup : ∀ {irq apic pin}, apicResolve s irq = some (apic, pin, gsi) → ∀ d flags,
      apicSetup s d irq flags = some (ioApicSetupIrq d apic pin (wadd gsi 0x20)
        (setupFlags s irq flags) ioApicDestAll) := by
    intro irq apic pin hres d flags
    rw [apicSetup, hres]
    rfl
  constructor
  · rintro ⟨irq, apic, pin, flags, d, d', hres, hret, rfl⟩
    rw [hsetup hres, Option.some.injEq] at hret
    rw [← hret, pinVector_setup]
    exact ⟨⟨irq, apic, pin, hres⟩, rfl⟩
  · rintro ⟨⟨irq, apic, pin, hres⟩, rfl⟩
    exact ⟨irq, apic, pin, 0, fun _ => ⟨0, fun _ => 0⟩, _, hres, hsetup hres _ _, pinVector_setup _⟩

/-! ### Usable and unique vectors -/

/-- A vector is usable exactly if the interrupt number leaves less than `223` modulo `256`. -/
theorem vector_usable_iff :
    (hwInterruptOffset ≤ (gsi + hwInterruptOffset) % 2 ^ 8 ∧
        (gsi + hwInterruptOffset) % 2 ^ 8 ≠ spuriousInterruptVector) ↔ gsi % 256 < 223 := by
  show (0x20 ≤ (gsi + 0x20) % 256 ∧ (gsi + 0x20) % 256 ≠ 0xFF) ↔ _
  omega

/-- Vectors agree exactly if the interrupt numbers do modulo `256`. -/
theorem vector_eq_iff :
    (gsi + hwInterruptOffset) % 2 ^ 8 = (gsi' + hwInterruptOffset) % 2 ^ 8 ↔
      gsi % 256 = gsi' % 256 := by
  show (gsi + 0x20) % 256 = (gsi' + 0x20) % 256 ↔ _
  omega

/-- All vectors are usable exactly if every interrupt that is set up leaves less than `223`. -/
theorem usable_iff : (∀ gsi vector, Programs s gsi vector →
    hwInterruptOffset ≤ vector ∧ vector ≠ spuriousInterruptVector) ↔
    ∀ gsi, SetsUp s gsi → gsi % 256 < 223 := by
  constructor
  · exact fun h gsi hset => vector_usable_iff.mp (h gsi _ (programs_iff.mpr ⟨hset, rfl⟩))
  · intro h gsi vector hprog
    obtain ⟨hset, rfl⟩ := programs_iff.mp hprog
    exact vector_usable_iff.mpr (h gsi hset)

/-- The vectors are unique exactly if no two interrupts that are set up leave the same. -/
theorem unique_iff : (∀ gsi gsi' vector vector', Programs s gsi vector → Programs s gsi' vector' →
    gsi ≠ gsi' → vector ≠ vector') ↔
    ∀ gsi gsi', SetsUp s gsi → SetsUp s gsi' → gsi ≠ gsi' → gsi % 256 ≠ gsi' % 256 := by
  constructor
  · exact fun h gsi gsi' hset hset' hne => mt vector_eq_iff.mpr (h gsi gsi' _ _
      (programs_iff.mpr ⟨hset, rfl⟩) (programs_iff.mpr ⟨hset', rfl⟩) hne)
  · intro h gsi gsi' vector vector' hprog hprog' hne
    obtain ⟨hset, rfl⟩ := programs_iff.mp hprog
    obtain ⟨hset', rfl⟩ := programs_iff.mp hprog'
    exact mt vector_eq_iff.mp (h gsi gsi' hset hset' hne)

/-- **The vectors are usable and unique exactly if every interrupt that is set up leaves less than
`223` modulo `256` and no two of them leave the same.** -/
theorem vectors_usable_iff (s : Apic) :
    ((∀ gsi vector, Programs s gsi vector →
        hwInterruptOffset ≤ vector ∧ vector ≠ spuriousInterruptVector) ∧
      ∀ gsi gsi' vector vector', Programs s gsi vector → Programs s gsi' vector' → gsi ≠ gsi' →
        vector ≠ vector') ↔
      (∀ gsi, SetsUp s gsi → gsi % 256 < 223) ∧
        ∀ gsi gsi', SetsUp s gsi → SetsUp s gsi' → gsi ≠ gsi' → gsi % 256 ≠ gsi' % 256 :=
  and_congr usable_iff unique_iff

/-! ### Which interrupts are set up -/

/-- The interrupts of a registered APIC are set up, except for the ISA interrupt numbers. -/
theorem setsUp_of_mem (hisa : isaIrqCount ≤ gsi) (hapic : apic ∈ s.ioApic) (hle : apic.gsi ≤ gsi)
    (hlt : gsi < wadd apic.gsi apic.irqs) : SetsUp s gsi := by
  obtain ⟨first, hfirst⟩ := exists_firstIncluding hapic ⟨hle, hlt⟩
  exact ⟨gsi, first, _, apicResolve_eq_some_iff.mpr (.plain hisa hfirst)⟩

/-- No interrupt is set up beyond the routes of the ISA interrupts and the registered APICs. -/
theorem lt_of_setsUp {n : ℕ} (hisa : ∀ irq < isaIrqCount, (s.isaIrq irq).gsi < n)
    (hapic : ∀ apic ∈ s.ioApic, wadd apic.gsi apic.irqs ≤ n) (h : SetsUp s gsi) : gsi < n := by
  obtain ⟨irq, apic, pin, hres⟩ := h
  cases apicResolve_eq_some_iff.mp hres with
  | mapped hirq => exact hisa irq hirq
  | unmapped hirq => exact hisa irq hirq
  | plain _ hfirst => exact hfirst.1.2.trans_le (hapic _ hfirst.mem)

/-- **The vectors are usable and unique where no interrupt is above `222`.** -/
theorem vectors_usable_of_le (hisa : ∀ irq < isaIrqCount, (s.isaIrq irq).gsi < 223)
    (hapic : ∀ apic ∈ s.ioApic, wadd apic.gsi apic.irqs ≤ 223) :
    (∀ gsi vector, Programs s gsi vector →
        hwInterruptOffset ≤ vector ∧ vector ≠ spuriousInterruptVector) ∧
      ∀ gsi gsi' vector vector', Programs s gsi vector → Programs s gsi' vector' → gsi ≠ gsi' →
        vector ≠ vector' := by
  refine ⟨usable_iff.mpr fun gsi hset => ?_, unique_iff.mpr fun gsi gsi' hset hset' hne => ?_⟩
  · have hlt := lt_of_setsUp hisa hapic hset
    omega
  · have hlt := lt_of_setsUp hisa hapic hset
    have hlt' := lt_of_setsUp hisa hapic hset'
    omega

/-- Three IO APICs of 24 pins: the interrupts from `0`, from `216` and from `264` on. -/
def highApics : Apic where
  ioApic := [⟨0xFEC00000, 0, 24, 0⟩, ⟨0xFEC01000, 216, 24, 1⟩, ⟨0xFEC02000, 264, 24, 2⟩]
  isaIrq := fun irq => ⟨some 0, hwirqRising, irq, irq⟩

/-- **Interrupt `224` gets the vector of the division error**, `223` that of spurious interrupts, and
`16` and `272` get the same. -/
theorem highApics_programs :
    Programs highApics 224 0 ∧ Programs highApics 223 spuriousInterruptVector ∧
      Programs highApics 16 48 ∧ Programs highApics 272 48 := by
  have hlow : (⟨0xFEC00000, 0, 24, 0⟩ : IoApic) ∈ highApics.ioApic := by decide
  have hmid : (⟨0xFEC01000, 216, 24, 1⟩ : IoApic) ∈ highApics.ioApic := by decide
  have hhigh : (⟨0xFEC02000, 264, 24, 2⟩ : IoApic) ∈ highApics.ioApic := by decide
  refine ⟨programs_iff.mpr ⟨?_, by decide⟩, programs_iff.mpr ⟨?_, by decide⟩,
    programs_iff.mpr ⟨?_, by decide⟩, programs_iff.mpr ⟨?_, by decide⟩⟩
  · exact setsUp_of_mem (by decide) hmid (by decide) (by decide)
  · exact setsUp_of_mem (by decide) hmid (by decide) (by decide)
  · exact setsUp_of_mem (by decide) hlow (by decide) (by decide)
  · exact setsUp_of_mem (by decide) hhigh (by decide) (by decide)

end Auos
