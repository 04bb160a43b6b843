import Auos.Apic
import Auos.Lib.Bitmap

/-!
# The 8259A interrupt controllers

`pic_remap`, `pic_mask`, `pic_unmask` and `pic_setup` of `i8259a.c`, over the two chips they program. A
chip takes an initialisation word on its command port and three more on its data port; after that a
write to the data port sets its mask register. The slave's output is the master's input
`PIC_SLAVE_IRQ`, so a line of the slave reaches the processor only through that input.

The driver starts with all lines masked and never clears the mask bit of that input unless it is asked
to unmask interrupt `2` itself. Hence no line of the slave is ever delivered.

## Main definitions

* `picRemap`, `picMask`, `picUnmask`, `picSetup`
* `Pic.Deliverable` — the line reaches the processor
* `PicOp`, `PicOp.enabled` — the calls of a driver, and what the last one on a line asked for

## Main results

* `picRun_programmed` — the mask registers follow the shadow word
* `deliverable_iff` — a line is delivered exactly if it is enabled and belongs to the master
* `picRun_deliverable_iff` — the lines enabled are those delivered iff none of the slave is enabled
-/

namespace Auos

/-! ### The chips -/

/-- One chip. -/
structure PicChip where
  /-- The initialisation words still expected on the data port. -/
  icw : ℕ
  /-- The first vector. -/
  vector : ℕ
  /-- The inputs with a slave, or the input of the master that the slave is on. -/
  cascade : ℕ
  /-- The mask register. -/
  imr : ℕ

/-- A write to the command port. With bit 4 set it starts the initialisation, which clears the mask
register; the other commands do not concern the masks. -/
def PicChip.command (c : PicChip) (value : ℕ) : PicChip :=
  if value.testBit 4 then { c with icw := 3, imr := 0 } else c

/-- A write to the data port. -/
def PicChip.data (c : PicChip) (value : ℕ) : PicChip :=
  match c.icw with
  | 0 => { c with imr := value % 2 ^ 8 }
  | 1 => { c with icw := 0 }
  | 2 => { c with icw := 1, cascade := value % 2 ^ 8 }
  | n + 3 => { c with icw := n + 2, vector := value % 2 ^ 8 }

/-! ### `i8259a.c` -/

/-- The shadow word `pic_irq_mask` and the chips. -/
structure Pic where
  /-- `pic_irq_mask`. -/
  irqMask : ℕ
  /-- The chip at the master ports. -/
  master : PicChip
  /-- The chip at the slave ports. -/
  slave : PicChip

/-- `PIC_SLAVE_IRQ`. -/
abbrev picSlaveIrq : ℕ := 2

/-- `PIC_IRQS_PER_CHIP`. -/
abbrev picIrqsPerChip : ℕ := 8

/-- `PIC_ICW1_EXPECT_ICW4 | PIC_ICW1_INIT`. -/
abbrev picIcw1 : ℕ := 0x11

/-- `PIC_ICW4_8086`. -/
abbrev picIcw4 : ℕ := 0x01

/-- The write of the low half of the shadow word. -/
def Pic.outMaster (s : Pic) : Pic := { s with master := s.master.data (s.irqMask &&& 0xFF) }

/-- The write of the high half of the shadow word. -/
def Pic.outSlave (s : Pic) : Pic := { s with slave := s.slave.data ((s.irqMask >>> 8) &&& 0xFF) }

/-- `pic_remap`. -/
def picRemap (s : Pic) (offset : ℕ) : Pic :=
  let s := { s with master := s.master.command picIcw1 }
  let s := { s with slave := s.slave.command picIcw1 }
  let s := { s with master := s.master.data offset }
  let s := { s with slave := s.slave.data (offset + picIrqsPerChip) }
  let s := { s with master := s.master.data (1 <<< picSlaveIrq) }
  let s := { s with slave := s.slave.data picSlaveIrq }
  let s := { s with master := s.master.data picIcw4 }
  let s := { s with slave := s.slave.data picIcw4 }
  s.outMaster.outSlave

/-- `pic_mask`. -/
def picMask (s : Pic) (irq : ℕ) : Pic :=
  let s := { s with irqMask := s.irqMask ||| 1 <<< irq }
  if irq < 8 then s.outMaster else s.outSlave

/-- `pic_unmask`. -/
def picUnmask (s : Pic) (irq : ℕ) : Pic :=
  let s := { s with irqMask := s.irqMask &&& wnot (1 <<< irq) }
  if irq < 8 then s.outMaster else s.outSlave

/-- `pic_setup`. -/
def picSetup (s : Pic) (irq flags : ℕ) : Pic :=
  if flags &&& hwirqDisabled ≠ 0 then picMask s irq else picUnmask s irq

/-! ### Delivery -/

/-- The line reaches the processor: a line of the master if it is not masked, a line of the slave if
neither it nor the input of the master that the slave is on is masked. -/
def Pic.Deliverable (s : Pic) (irq : ℕ) : Prop :=
  if irq < 8 then s.master.imr.testBit irq = false
  else s.slave.imr.testBit (irq - 8) = false ∧ s.master.imr.testBit s.slave.cascade = false

/-- A call of the driver. -/
inductive PicOp
  /-- `pic_setup`. -/
  | setup (irq flags : ℕ)
  /-- `pic_mask`. -/
  | mask (irq : ℕ)
  /-- `pic_unmask`. -/
  | unmask (irq : ℕ)

namespace PicOp

/-- The line of a call. -/
def irq : PicOp → ℕ
  | setup irq _ => irq
  | mask irq => irq
  | unmask irq => irq

/-- Whether the call leaves its line enabled. -/
def enables : PicOp → Bool
  | setup _ flags => decide (flags &&& hwirqDisabled = 0)
  | mask _ => false
  | unmask _ => true

/-- The call. -/
def run (s : Pic) : PicOp → Pic
  | setup irq flags => picSetup s irq flags
  | mask irq => picMask s irq
  | unmask irq => picUnmask s irq

/-- The lines enabled by the last call on them, none at first. -/
def enabled (ops : List PicOp) : ℕ → Bool :=
  ops.foldl (fun on op => Function.update on op.irq op.enables) fun _ => false

end PicOp

/-- The calls in order, after `pic_remap`. -/
def picRun (s : Pic) (ops : List PicOp) : Pic :=
  ops.foldl PicOp.run (picRemap s hwInterruptOffset)

/-- **The registers follow the shadow word**, and the shadow word says which lines are disabled. -/
structure Pic.Programmed (s : Pic) (on : ℕ → Bool) : Prop where
  /-- The master is initialised. -/
  master_icw : s.master.icw = 0
  /-- The slave is initialised. -/
  slave_icw : s.slave.icw = 0
  /-- The slave is on the input `PIC_SLAVE_IRQ`. -/
  cascade : s.slave.cascade = picSlaveIrq
  /-- The mask register of the master. -/
  master_imr : ∀ i < 8, s.master.imr.testBit i = s.irqMask.testBit i
  /-- The mask register of the slave. -/
  slave_imr : ∀ i < 8, s.slave.imr.testBit i = s.irqMask.testBit (8 + i)
  /-- The shadow word. -/
  irqMask : ∀ i < 16, s.irqMask.testBit i = !on i

section Steps

variable {s : Pic} {on : ℕ → Bool}

theorem testBit_low_half (x : ℕ) {i : ℕ} (hi : i < 8) :
    ((x &&& 0xFF) % 2 ^ 8).testBit i = x.testBit i := by
  have hmask : x &&& 0xFF = x % 2 ^ 8 := Nat.and_two_pow_sub_one_eq_mod x 8
  rw [hmask, Nat.mod_mod, Nat.testBit_mod_two_pow]
  simp [hi]

theorem testBit_high_half (x : ℕ) {i : ℕ} (hi : i < 8) :
    (((x >>> 8) &&& 0xFF) % 2 ^ 8).testBit i = x.testBit (8 + i) := by
  rw [testBit_low_half _ hi, Nat.testBit_shiftRight]

/-- What `pic_remap` programs: the vectors, the cascade and the masks. -/
theorem picRemap_eq (s : Pic) (offset : ℕ) :
    picRemap s offset =
      ⟨s.irqMask, ⟨0, offset % 2 ^ 8, 1 <<< picSlaveIrq, (s.irqMask &&& 0xFF) % 2 ^ 8⟩,
        ⟨0, (offset + picIrqsPerChip) % 2 ^ 8, picSlaveIrq, ((s.irqMask >>> 8) &&& 0xFF) % 2 ^ 8⟩⟩ :=
  rfl

/-- `pic_remap` from all lines masked. -/
theorem programmed_picRemap (h : s.irqMask = 0xFFFF) (offset : ℕ) :
    (picRemap s offset).Programmed fun _ => false := by
  rw [picRemap_eq]
  refine ⟨rfl, rfl, rfl, fun i hi => testBit_low_half _ hi, fun i hi => testBit_high_half _ hi, ?_⟩
  intro i hi
  dsimp only
  rw [h, show 0xFFFF = 2 ^ 16 - 1 from rfl, Nat.testBit_two_pow_sub_one]
  simp [hi]

/-- Changing one bit of the shadow word and writing the half it is in. -/
theorem Pic.Programmed.write (h : s.Programmed on) {irq x : ℕ} {v : Bool}
    (hx : ∀ i < 16, x.testBit i = if i = irq then !v else s.irqMask.testBit i) :
    (if irq < 8 then ({ s with irqMask := x } : Pic).outMaster
      else ({ s with irqMask := x } : Pic).outSlave).Programmed (Function.update on irq v) := by
  have hmask : ∀ i < 16, x.testBit i = !Function.update on irq v i := by
    intro i hi
    rw [hx i hi, Function.update_apply]
    split
    · rfl
    · exact h.irqMask i hi
  have hmaster : ({ s with irqMask := x } : Pic).outMaster.master.imr = (x &&& 0xFF) % 2 ^ 8 := by
    simp [Pic.outMaster, PicChip.data, h.master_icw]
  have hslave : ({ s with irqMask := x } : Pic).outSlave.slave.imr =
      ((x >>> 8) &&& 0xFF) % 2 ^ 8 := by
    simp [Pic.outSlave, PicChip.data, h.slave_icw]
  split
  · next hirq =>
    refine ⟨?_, h.slave_icw, h.cascade, ?_, ?_, hmask⟩
    · simp [Pic.outMaster, PicChip.data, h.master_icw]
    · intro i hi
      rw [hmaster, testBit_low_half _ hi]
      rfl
    · intro i hi
      exact (h.slave_imr i hi).trans ((if_neg (by omega)).symm.trans (hx (8 + i) (by omega)).symm)
  · next hirq =>
    refine ⟨h.master_icw, ?_, ?_, ?_, ?_, hmask⟩
    · simp [Pic.outSlave, PicChip.data, h.slave_icw]
    · simp [Pic.outSlave, PicChip.data, h.slave_icw, h.cascade]
    · intro i hi
      exact (h.master_imr i hi).trans ((if_neg (by omega)).symm.trans (hx i (by omega)).symm)
    · intro i hi
      rw [hslave, testBit_high_half _ hi]
      rfl

theorem Pic.Programmed.picMask (h : s.Programmed on) (irq : ℕ) :
    (picMask s irq).Programmed (Function.update on irq false) :=
  h.write fun i _ => testBit_or_one_shiftLeft s.irqMask irq i

theorem Pic.Programmed.picUnmask (h : s.Programmed on) {irq : ℕ} (hirq : irq < 16) :
    (picUnmask s irq).Programmed (Function.update on irq true) :=
  h.write fun i hi => @testBit_and_not_one_shiftLeft 32 irq i (by omega) (by omega) s.irqMask

/-- **One call.** -/
theorem Pic.Programmed.run (h : s.Programmed on) {op : PicOp} (hirq : op.irq < 16) :
    (op.run s).Programmed (Function.update on op.irq op.enables) := by
  cases op with
  | setup irq flags =>
    by_cases hflags : flags &&& hwirqDisabled ≠ 0
    · have hen : (PicOp.setup irq flags).enables = false := decide_eq_false hflags
      rw [hen, PicOp.run, picSetup, if_pos hflags]
      exact h.picMask irq
    · have hen : (PicOp.setup irq flags).enables = true := decide_eq_true (not_not.mp hflags)
      rw [hen, PicOp.run, picSetup, if_neg hflags]
      exact h.picUnmask hirq
  | mask irq => exact h.picMask irq
  | unmask irq => exact h.picUnmask hirq

/-- When a line is delivered. -/
theorem Pic.Programmed.deliverable_iff (h : s.Programmed on) {irq : ℕ} (hirq : irq < 16) :
    s.Deliverable irq ↔ on irq = true ∧ (irq < 8 ∨ on picSlaveIrq = true) := by
  have hcascade : s.master.imr.testBit s.slave.cascade = !on picSlaveIrq := by
    rw [h.cascade, h.master_imr _ (by decide), h.irqMask _ (by decide)]
  unfold Pic.Deliverable
  split
  · next hlow =>
    rw [h.master_imr irq hlow, h.irqMask irq hirq]
    simp [hlow]
  · next hhigh =>
    rw [h.slave_imr (irq - 8) (by omega), Nat.add_sub_cancel' (by omega), h.irqMask irq hirq,
      hcascade]
    simp [hhigh]

end Steps

/-! ### Runs -/

section Runs

variable {s : Pic} {ops : List PicOp}

theorem picRun_append (ops : List PicOp) (op : PicOp) :
    picRun s (ops ++ [op]) = op.run (picRun s ops) := by
  rw [picRun, picRun, List.foldl_append, List.foldl_cons, List.foldl_nil]

theorem PicOp.enabled_append (ops : List PicOp) (op : PicOp) :
    PicOp.enabled (ops ++ [op]) = Function.update (PicOp.enabled ops) op.irq op.enables := by
  rw [PicOp.enabled, PicOp.enabled, List.foldl_append, List.foldl_cons, List.foldl_nil]

/-- **The registers follow the shadow word** after any calls. -/
theorem picRun_programmed (h : s.irqMask = 0xFFFF) (hops : ∀ op ∈ ops, op.irq < 16) :
    (picRun s ops).Programmed (PicOp.enabled ops) := by
  induction ops using List.reverseRecOn with
  | nil => exact programmed_picRemap h _
  | append_singleton ops op ih =>
    rw [picRun_append, PicOp.enabled_append]
    exact (ih fun op' hop' => hops op' (by simp [hop'])).run (hops op (by simp))

/-- A line that no call is about stays disabled. -/
theorem enabled_of_notMem {irq : ℕ} (h : ∀ op ∈ ops, op.irq ≠ irq) :
    PicOp.enabled ops irq = false := by
  induction ops using List.reverseRecOn with
  | nil => rfl
  | append_singleton ops op ih =>
    rw [PicOp.enabled_append, Function.update_of_ne (h op (by simp)).symm]
    exact ih fun op' hop' => h op' (by simp [hop'])

/-- After calls on lines other than the cascade input, a line is delivered exactly if it is enabled
and belongs to the master. -/
theorem deliverable_iff (h : s.irqMask = 0xFFFF)
    (hops : ∀ op ∈ ops, op.irq < 16 ∧ op.irq ≠ picSlaveIrq) {irq : ℕ} (hirq : irq < 16) :
    (picRun s ops).Deliverable irq ↔ PicOp.enabled ops irq = true ∧ irq < 8 := by
  have hcascade : PicOp.enabled ops picSlaveIrq = false :=
    enabled_of_notMem fun op hop => (hops op hop).2
  rw [(picRun_programmed h fun op hop => (hops op hop).1).deliverable_iff hirq, hcascade]
  simp

/-- **When the lines enabled are those delivered**: exactly if the calls leave no line of the slave
enabled. -/
theorem picRun_deliverable_iff (h : s.irqMask = 0xFFFF)
    (hops : ∀ op ∈ ops, op.irq < 16 ∧ op.irq ≠ picSlaveIrq) :
    (∀ irq < 16, irq ≠ picSlaveIrq →
      ((picRun s ops).Deliverable irq ↔ PicOp.enabled ops irq = true)) ↔
    ∀ irq, 8 ≤ irq → irq < 16 → PicOp.enabled ops irq = false := by
  constructor
  · intro hall irq hle hlt
    have hne : irq ≠ picSlaveIrq := by
      rintro rfl
      exact absurd hle (by decide)
    have hiff := hall irq hlt hne
    rw [deliverable_iff h hops hlt] at hiff
    by_contra hon
    exact absurd (hiff.mpr (by simpa using hon)).2 (by omega)
  · intro hslave irq hlt _
    rw [deliverable_iff h hops hlt]
    constructor
    · exact And.left
    · intro hon
      refine ⟨hon, ?_⟩
      by_contra hge
      rw [hslave irq (by omega) hlt] at hon
      cases hon

end Runs

/-- The driver before `pic_remap`. -/
def blankPic : Pic := ⟨0xFFFF, ⟨0, 0, 0, 0⟩, ⟨0, 0, 0, 0⟩⟩

/-- The timer alone is enabled and delivered. -/
theorem picRun_deliverable_timer : (picRun blankPic [.setup 0 hwirqRising]).Deliverable 0 :=
  ((picRun_deliverable_iff rfl (by decide)).mpr (by decide) 0 (by decide) (by decide)).mpr
    (by decide)

/-- The real-time clock is enabled but not delivered: the input of the slave stays masked. -/
theorem rtc_not_deliverable :
    ¬∀ ops : List PicOp, (∀ op ∈ ops, op.irq < 16 ∧ op.irq ≠ picSlaveIrq) →
      ∀ irq < 16, irq ≠ picSlaveIrq →
        ((picRun blankPic ops).Deliverable irq ↔ PicOp.enabled ops irq = true) := by
  intro hall
  have hops : ∀ op ∈ [PicOp.unmask 8], op.irq < 16 ∧ op.irq ≠ picSlaveIrq := by decide
  have hiff := hall [.unmask 8] hops 8 (by decide) (by decide)
  rw [deliverable_iff rfl hops (by decide)] at hiff
  exact absurd (hiff.mpr rfl).2 (by decide)

end Auos
