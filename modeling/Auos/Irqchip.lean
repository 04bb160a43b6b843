import Auos.I8259a
import Auos.LocalApic

/-!
# The interrupt chips

`irq.c`: the calls of `irq.h` go to the chip that was registered last. `setup_arch` first sets up the
8259 chips and registers their driver, and then registers the driver of the APICs.

The 8259 chips are still there after that. What keeps an interrupt from being delivered twice is that
`pic_remap` masks all of their lines, and that later calls do not go to their driver.

## Main definitions

* `IrqchipCall`, `Irqchips.call` — the calls, and where they go
* `IrqchipEvent`, `irqchipRun` — the calls with those of `setup_arch`

## Main results

* `irqchipRun_calls` — after `setup_apic` the calls are those of the APIC driver
* `setupArch_irqchip` — nothing is delivered by the 8259 chips
-/

namespace Auos

/-- The `struct irqchip`s that are registered. -/
inductive Irqchip
  /-- `i8259a`. -/
  | i8259a
  /-- `apic`. -/
  | apic
  deriving DecidableEq

/-- A call of `irq.h`. -/
inductive IrqchipCall
  /-- `irqchip_setup`. -/
  | setup (irq flags : ℕ)
  /-- `irqchip_mask`. -/
  | mask (irq : ℕ)
  /-- `irqchip_unmask`. -/
  | unmask (irq : ℕ)
  /-- `irqchip_eoi`. -/
  | eoi (irq : ℕ)

/-- `PIC_EOI_CMD`. -/
abbrev picEoiCmd : ℕ := 0x60

/-- `pic_eoi`. -/
def picEoi (s : Pic) (irq : ℕ) : Pic :=
  if 8 ≤ irq then
    let s := { s with slave := s.slave.command (picEoiCmd + (irq &&& 7)) }
    { s with master := s.master.command (picEoiCmd + picSlaveIrq) }
  else { s with master := s.master.command (picEoiCmd + irq) }

/-- `LOCAL_APIC_EOI_REG`. -/
abbrev localApicEoiReg : ℕ := 0x2C

/-- `apic_eoi`. -/
def apicEoi (regs : LocalApicRegs) : LocalApicRegs := localApicWrite regs localApicEoiReg 0

/-- The chips, and `irqchip`. -/
structure Irqchips where
  irqchip : Option Irqchip
  pic : Pic
  ioApics : IoApicDevices
  localApic : LocalApicRegs

namespace Irqchips

/-- The functions of `i8259a`. -/
def picCall (c : Irqchips) : IrqchipCall → Irqchips
  | .setup irq flags => { c with pic := picSetup c.pic irq flags }
  | .mask irq => { c with pic := picMask c.pic irq }
  | .unmask irq => { c with pic := picUnmask c.pic irq }
  | .eoi irq => { c with pic := picEoi c.pic irq }

/-- The functions of `apic`. -/
def apicCall (s : Apic) (c : Irqchips) : IrqchipCall → Option Irqchips
  | .setup irq flags => (apicSetup s c.ioApics irq flags).map fun d => { c with ioApics := d }
  | .mask irq => (apicMask s c.ioApics irq).map fun d => { c with ioApics := d }
  | .unmask irq => (apicUnmask s c.ioApics irq).map fun d => { c with ioApics := d }
  | .eoi _ => some { c with localApic := apicEoi c.localApic }

/-- A call. It is `none` where `irqchip_must_have` or the driver panics. -/
def call (s : Apic) (c : Irqchips) (op : IrqchipCall) : Option Irqchips :=
  match c.irqchip with
  | none => none
  | some .i8259a => some (c.picCall op)
  | some .apic => c.apicCall s op

end Irqchips

/-- What `setup_arch` and its callers do with the chips. -/
inductive IrqchipEvent
  /-- `setup_i8259a`. -/
  | setupI8259a
  /-- `setup_apic`, when the tables have been read. -/
  | setupApic
  /-- A call. -/
  | call (op : IrqchipCall)

/-- One event. -/
def IrqchipEvent.run (s : Apic) (c : Irqchips) : IrqchipEvent → Option Irqchips
  | setupI8259a =>
    some { c with pic := picRemap c.pic hwInterruptOffset, irqchip := some .i8259a }
  | setupApic => some { c with irqchip := some .apic }
  | call op => c.call s op

/-- The events in order. -/
def irqchipRun (s : Apic) (c : Irqchips) (events : List IrqchipEvent) : Option Irqchips :=
  events.foldlM (IrqchipEvent.run s) c

/-- The calls that change an entry of an IO APIC. -/
def IrqchipCall.apicOp : IrqchipCall → Option ApicOp
  | setup irq flags => some (.setup irq flags)
  | mask irq => some (.mask irq)
  | unmask irq => some (.unmask irq)
  | eoi _ => none

variable {s : Apic} {c c' : Irqchips} {pic : Pic} {d : IoApicDevices} {regs : LocalApicRegs}
  {calls : List IrqchipCall}

/-! ### The calls -/

/-- One call of the APIC driver leaves the 8259 chips alone. -/
theorem Irqchips.apicCall_eq {op : IrqchipCall} (h : c.apicCall s op = some c') :
    c'.irqchip = c.irqchip ∧ c'.pic = c.pic ∧
      apicRun s c.ioApics op.apicOp.toList = some c'.ioApics := by
  cases op with
  | setup irq flags =>
    obtain ⟨d, hd, rfl⟩ := Option.map_eq_some_iff.mp h
    exact ⟨rfl, rfl, by simpa [apicRun, IrqchipCall.apicOp, ApicOp.run] using hd⟩
  | mask irq =>
    obtain ⟨d, hd, rfl⟩ := Option.map_eq_some_iff.mp h
    exact ⟨rfl, rfl, by simpa [apicRun, IrqchipCall.apicOp, ApicOp.run] using hd⟩
  | unmask irq =>
    obtain ⟨d, hd, rfl⟩ := Option.map_eq_some_iff.mp h
    exact ⟨rfl, rfl, by simpa [apicRun, IrqchipCall.apicOp, ApicOp.run] using hd⟩
  | eoi irq =>
    cases h
    exact ⟨rfl, rfl, rfl⟩

/-- **After `setup_apic` all calls are those of the APIC driver.** -/
theorem irqchipRun_calls (hchip : c.irqchip = some .apic)
    (hrun : irqchipRun s c (calls.map .call) = some c') :
    c'.pic = c.pic ∧ apicRun s c.ioApics (calls.filterMap IrqchipCall.apicOp) = some c'.ioApics := by
  induction calls generalizing c with
  | nil =>
    cases hrun
    exact ⟨rfl, rfl⟩
  | cons op calls ih =>
    obtain ⟨c₁, hop, hrest⟩ := Option.bind_eq_some_iff.mp hrun
    have hcall : c.apicCall s op = some c₁ := by
      rw [← hop, IrqchipEvent.run, Irqchips.call, hchip]
    obtain ⟨hchip₁, hpic, hone⟩ := Irqchips.apicCall_eq hcall
    obtain ⟨hpic', hmany⟩ := ih (hchip₁.trans hchip) hrest
    refine ⟨hpic'.trans hpic, ?_⟩
    have hops : (op :: calls).filterMap IrqchipCall.apicOp =
        op.apicOp.toList ++ calls.filterMap IrqchipCall.apicOp := by
      rw [List.filterMap_cons]
      cases op.apicOp <;> rfl
    rw [hops, apicRun, List.foldlM_append]
    exact Option.bind_eq_some_iff.mpr ⟨_, hone, hmany⟩

/-- **No interrupt is delivered twice**: from `setup_arch` on, whatever is called, the 8259 chips deliver
no line, and the entries of the IO APICs are those that the calls ask for. -/
theorem setupArch_irqchip (hpic : pic.irqMask = 0xFFFF) (hfit : s.PinsFit)
    (hrun : irqchipRun s ⟨none, pic, d, regs⟩ (.setupI8259a :: .setupApic :: calls.map .call) =
      some c') :
    (∀ irq < 16, ¬c'.pic.Deliverable irq) ∧
      Refines d c'.ioApics (lineTable s (calls.filterMap IrqchipCall.apicOp)) := by
  have hrun' : irqchipRun s ⟨some .apic, picRemap pic hwInterruptOffset, d, regs⟩
    (calls.map .call) = some c' := hrun
  obtain ⟨hpic', hops⟩ := irqchipRun_calls rfl hrun'
  refine ⟨fun irq hirq hdeliverable => ?_, refines_of_apicRun hfit hops⟩
  rw [hpic'] at hdeliverable
  have hprogrammed := programmed_picRemap hpic hwInterruptOffset
  cases ((hprogrammed.deliverable_iff hirq).mp hdeliverable).1

/-- A line is set up, and its interrupt ends. -/
theorem setupArch_irqchip_sample : ∃ c', irqchipRun sampleApic
    ⟨none, blankPic, fun _ => ⟨0, fun _ => 0⟩, fun _ => 0⟩
      [.setupI8259a, .setupApic, .call (.setup 20 hwirqLow), .call (.eoi 20)] = some c' ∧
    ¬c'.pic.Deliverable 0 := by
  obtain ⟨c', hrun⟩ : ∃ c', irqchipRun sampleApic
    ⟨none, blankPic, fun _ => ⟨0, fun _ => 0⟩, fun _ => 0⟩
      [.setupI8259a, .setupApic, .call (.setup 20 hwirqLow), .call (.eoi 20)] = some c' := ⟨_, rfl⟩
  have hcalls : irqchipRun sampleApic ⟨none, blankPic, fun _ => ⟨0, fun _ => 0⟩, fun _ => 0⟩
    (.setupI8259a :: .setupApic :: [.setup 20 hwirqLow, .eoi 20].map .call) = some c' := hrun
  exact ⟨c', hrun, (setupArch_irqchip rfl pinsFit_sampleApic hcalls).1 0 (by decide)⟩

end Auos
