import Auos.Hw3.Interrupt
import Auos.I8259a
import Auos.Lib.IrqChip
import Auos.Lib.Run

/-!
# Interrupt requests and their ends

`exceptions.c`, `irq.c` and `pic.c`, with the two controllers they program. A controller holds back the
requests of a line, and of all lines behind it, from when it has passed on a request of the line until it
is told the end of that interrupt. `irq_raw_handler` tells it, by name of the line, after the handler and
before it switches tasks; the slave's lines come through an input of the master, which is told too.

An interrupt may turn out to be spurious: then the controller names its last line, but takes no note of
it. The end that is told then is one that is not outstanding.

## Main definitions

* `exceptionsSetup`, `irqSetup`, `picMask`, `picUnmask`, `picEoi` — the source
* `IrqSystem`, `IrqEvent` — the controllers, the processor and the handler, and what happens

## Main results

* `mainHandlers_eq` — who handles which vector; the table of texts is too short for some
* `Programmed.picMask`, `Programmed.picUnmask` — to skip a write changes nothing
* `irqRun_unblocked` — while interrupts are enabled, no request is held back
-/

namespace Auos

namespace Hw3

/-! ### `exceptions.c` and `irq.c` -/

/-- The functions that are set for vectors. -/
inductive Isr
  /-- `general_error_handler`. -/
  | generalErrorHandler
  /-- `irq_raw_handler`. -/
  | irqRawHandler
  deriving DecidableEq

/-- `EXCEPTIONS`. -/
abbrev exceptions : ℕ := 0x20

/-- `PIC_OFFSET`, which is `IRQ_LOW`. -/
abbrev picOffset : ℕ := 0x20

/-- `IRQS`. -/
abbrev irqs : ℕ := 0x10

/-- `set_interrupt_handler`. -/
def setInterruptHandler (handlers : ℕ → Option Isr) (intno : ℕ) (isr : Isr) : ℕ → Option Isr :=
  Function.update handlers intno (some isr)

/-- A loop that sets a handler for `n` vectors from `i` on. -/
def setInterruptHandlers (isr : Isr) : ℕ → ℕ → (ℕ → Option Isr) → ℕ → Option Isr
  | 0, _, handlers => handlers
  | n + 1, i, handlers => setInterruptHandlers isr n (i + 1) (setInterruptHandler handlers i isr)

/-- `exceptions_setup`. -/
def exceptionsSetup (handlers : ℕ → Option Isr) : ℕ → Option Isr :=
  setInterruptHandlers .generalErrorHandler exceptions 0 handlers

/-- `irq_setup`. -/
def irqSetup (handlers : ℕ → Option Isr) : ℕ → Option Isr :=
  setInterruptHandlers .irqRawHandler irqs picOffset handlers

/-- The table that `main` sets up; at first there are no handlers. -/
def mainHandlers : ℕ → Option Isr := irqSetup (exceptionsSetup fun _ => none)

/-- `error`. -/
def error : List String :=
  ["Divide-by-zero", "Debug", "NMI", "Breakpoint", "Overflow", "Bound Range Exceeded",
    "Invalid Opcode", "Device Not Available", "Double Fault", "Coprocessor Segment Overrun",
    "Invalid TSS", "Segment Not Present", "Stack-Segment Fault", "General Protection Fault",
    "Page Fault", "Unexpected", "x87 Floating-Point Exception", "Alignment Check", "Machine Check",
    "SIMD Floating-Point Exception", "Virtualization Exception", "Unexpected", "Security Exception",
    "Unexpected"]

/-- The text that `general_error_handler` prints before it stops. It is `none` where the array is read
beyond its end. -/
def generalErrorHandler (intno : ℕ) : Option String := error[intno]?

/-! ### `pic.c` -/

/-- `PIC_IRQS`. -/
abbrev picIrqs : ℕ := 8

/-- `pic_setup`; `pic_remap` makes the writes of the kernel's. -/
def picSetup (s : Pic) : Pic := picRemap s picOffset

/-- `pic_mask`. -/
def picMask (s : Pic) (irq : ℕ) : Pic :=
  if (1 <<< irq) &&& s.irqMask ≠ 0 then s
  else
    let s := { s with irqMask := s.irqMask ||| 1 <<< irq }
    if irq < picIrqs then s.outMaster else s.outSlave

/-- `pic_unmask`. -/
def picUnmask (s : Pic) (irq : ℕ) : Pic :=
  if ¬((1 <<< irq) &&& s.irqMask ≠ 0) then s
  else
    let s := { s with irqMask := s.irqMask &&& wnot (1 <<< irq) }
    if irq < picIrqs then s.outMaster else s.outSlave

/-- `PIC_EOI_CMD`. -/
abbrev picEoiCmd : ℕ := 0x60

/-- A write to the command port of a chip, on its lines in service: this command ends the interrupt of
the line in its low bits. -/
def endOfInterrupt (isr : ℕ → Bool) (value : ℕ) : ℕ → Bool :=
  if value &&& 0xF8 = picEoiCmd then Function.update isr (value &&& 7) false else isr

/-! ### The system -/

/-- The controllers with their requests and the lines in service, the processor's interrupt flag, and
the line that `irq_raw_handler` is called for, until it tells the controllers the end. -/
structure IrqSystem where
  pic : Pic
  irr : ℕ → Bool
  masterIsr : ℕ → Bool
  slaveIsr : ℕ → Bool
  interruptFlag : Bool
  running : Option ℕ

/-- `pic_eoi`. -/
def picEoi (s : IrqSystem) (irq : ℕ) : IrqSystem :=
  if irq < picIrqs then { s with masterIsr := endOfInterrupt s.masterIsr (picEoiCmd + irq) }
  else
    let s := { s with slaveIsr := endOfInterrupt s.slaveIsr (picEoiCmd + (irq &&& (picIrqs - 1))) }
    { s with masterIsr := endOfInterrupt s.masterIsr (picEoiCmd + picSlaveIrq) }

/-- What happens. -/
inductive IrqEvent
  /-- A device requests an interrupt. -/
  | request (irq : ℕ)
  /-- A device takes its request back. -/
  | withdraw (irq : ℕ)
  /-- The processor takes an interrupt. -/
  | interrupt
  /-- It takes one that the master, or the slave, has no request for any more. -/
  | spurious (ofSlave : Bool)
  /-- `pic_mask`. -/
  | mask (irq : ℕ)
  /-- `pic_unmask`. -/
  | unmask (irq : ℕ)
  /-- `irq_raw_handler` calls `pic_eoi`. -/
  | eoi
  /-- A task enables or disables interrupts. -/
  | setFlag (flag : Bool)

namespace IrqSystem

/-- The slave. -/
def slaveChip (s : IrqSystem) : IrqChip where
  irr i := s.irr (8 + i)
  imr := s.pic.slave.imr.testBit
  isr := s.slaveIsr

/-- The master. One of its inputs is the output of the slave. -/
def masterChip (s : IrqSystem) : IrqChip where
  irr i := if i = s.pic.slave.cascade then (s.slaveChip.next 8).isSome else s.irr i
  imr := s.pic.master.imr.testBit
  isr := s.masterIsr

/-- The line whose request reaches the processor. -/
def pending (s : IrqSystem) : Option ℕ :=
  (s.masterChip.next 8).bind fun i =>
    if i = s.pic.slave.cascade then (s.slaveChip.next 8).map (8 + ·) else some i

/-- The vector of a line. -/
def vector (s : IrqSystem) (irq : ℕ) : ℕ :=
  if irq < 8 then s.pic.master.vector + irq else s.pic.slave.vector + (irq - 8)

/-- The processor enters `irq_raw_handler`, through an interrupt gate. -/
def enter (s : IrqSystem) (intno : ℕ) : IrqSystem :=
  { s with interruptFlag := false, running := some (intno - picOffset) }

/-- The controllers pass on the request of a line. -/
def acknowledge (s : IrqSystem) (irq : ℕ) : IrqSystem :=
  if irq < 8 then
    { s with irr := Function.update s.irr irq false, masterIsr := Function.update s.masterIsr irq true }
  else
    { s with
      irr := Function.update s.irr irq false
      slaveIsr := Function.update s.slaveIsr (irq - 8) true
      masterIsr := Function.update s.masterIsr s.pic.slave.cascade true }

/-- One event. It is `none` if the event cannot happen. -/
def step (s : IrqSystem) : IrqEvent → Option IrqSystem
  | .request irq => some { s with irr := Function.update s.irr irq true }
  | .withdraw irq => some { s with irr := Function.update s.irr irq false }
  | .interrupt =>
    if s.interruptFlag then s.pending.map fun irq => (s.acknowledge irq).enter (s.vector irq) else none
  | .spurious ofSlave =>
    if s.interruptFlag then
      if ofSlave then
        let s := { s with masterIsr := Function.update s.masterIsr s.pic.slave.cascade true }
        some (s.enter (s.vector 15))
      else some (s.enter (s.vector 7))
    else none
  | .mask irq => some { s with pic := picMask s.pic irq }
  | .unmask irq => some { s with pic := picUnmask s.pic irq }
  | .eoi => s.running.map fun irq => { picEoi s irq with running := none }
  | .setFlag flag => if s.running = none then some { s with interruptFlag := flag } else none

/-- The lines are those of the controllers; the input of the slave is no device's. -/
def Allowed (_ : IrqSystem) : IrqEvent → Prop
  | .request irq => irq < 16 ∧ irq ≠ picSlaveIrq
  | .mask irq => irq < 16
  | .unmask irq => irq < 16
  | _ => True

end IrqSystem

/-- The order in which requests are passed on: the slave's lines take the place of its input. -/
def irqRank (irq : ℕ) : ℕ := if irq < 8 then 8 * irq else 8 * picSlaveIrq + (irq - 8)

variable {s s' : IrqSystem} {p : Pic} {on : ℕ → Bool} {irq i n intno : ℕ} {isr : Isr}
  {handlers : ℕ → Option Isr}

/-! ### The handlers -/

theorem setInterruptHandlers_apply (isr : Isr) (n i : ℕ) (handlers : ℕ → Option Isr) (intno : ℕ) :
    setInterruptHandlers isr n i handlers intno =
      if i ≤ intno ∧ intno < i + n then some isr else handlers intno := by
  induction n generalizing i handlers with
  | zero => rw [setInterruptHandlers, if_neg (by omega)]
  | succ n ih =>
    rw [setInterruptHandlers, ih, setInterruptHandler, Function.update_apply]
    by_cases hrest : i + 1 ≤ intno ∧ intno < i + 1 + n
    · rw [if_pos hrest, if_pos (by omega)]
    · rw [if_neg hrest]
      by_cases hfirst : intno = i
      · rw [if_pos hfirst, if_pos (by omega)]
      · rw [if_neg hfirst, if_neg (by omega)]

theorem mainHandlers_eq (intno : ℕ) : mainHandlers intno =
    if intno < 0x20 then some .generalErrorHandler
    else if intno < 0x30 then some .irqRawHandler else none := by
  have hloops : mainHandlers intno = setInterruptHandlers .irqRawHandler 0x10 0x20
    (setInterruptHandlers .generalErrorHandler 0x20 0 fun _ => none) intno := rfl
  rw [hloops, setInterruptHandlers_apply, setInterruptHandlers_apply]
  by_cases hlow : intno < 0x20
  · rw [if_neg (by omega), if_pos (by omega), if_pos hlow]
  · rw [if_neg hlow, if_neg (show ¬(0 ≤ intno ∧ intno < 0 + 0x20) by omega)]
    by_cases hhigh : intno < 0x30
    · rw [if_pos (by omega), if_pos hhigh]
    · rw [if_neg (by omega), if_neg hhigh]

/-- For eight of the exceptions the array of texts is read beyond its end. -/
theorem generalErrorHandler_eq_none_iff (intno : ℕ) :
    mainHandlers intno = some .generalErrorHandler ∧ generalErrorHandler intno = none ↔
      24 ≤ intno ∧ intno < 32 := by
  have hlen : error.length = 24 := rfl
  rw [mainHandlers_eq, generalErrorHandler, List.getElem?_eq_none_iff, hlen]
  by_cases hlow : intno < 0x20
  · simp [hlow]
  · have hother : (if intno < 0x30 then some Isr.irqRawHandler else none) ≠
        some .generalErrorHandler := by
      split <;> simp
    rw [if_neg hlow]
    exact iff_of_false (fun h => hother h.1) fun h => hlow h.2

/-! ### The masks -/

theorem one_shiftLeft_and_ne_zero (irq m : ℕ) : (1 <<< irq) &&& m ≠ 0 ↔ m.testBit irq = true := by
  rw [Nat.one_shiftLeft, Nat.two_pow_and]
  cases m.testBit irq <;> simp

/-- To skip the write for a line that is masked already changes nothing. -/
theorem Programmed.picMask (h : p.Programmed on) (hirq : irq < 16) :
    (picMask p irq).Programmed (Function.update on irq false) := by
  by_cases hbit : (1 <<< irq) &&& p.irqMask ≠ 0
  · have hoff : on irq = false := by
      have hmask := h.irqMask irq hirq
      rw [(one_shiftLeft_and_ne_zero irq _).mp hbit] at hmask
      simpa using hmask.symm
    rw [Hw3.picMask, if_pos hbit, ← hoff, Function.update_eq_self]
    exact h
  · rw [Hw3.picMask, if_neg hbit]
    exact Pic.Programmed.picMask h irq

/-- To skip the write for a line that is not masked changes nothing. -/
theorem Programmed.picUnmask (h : p.Programmed on) (hirq : irq < 16) :
    (picUnmask p irq).Programmed (Function.update on irq true) := by
  by_cases hbit : (1 <<< irq) &&& p.irqMask ≠ 0
  · rw [Hw3.picUnmask, if_neg (not_not.mpr hbit)]
    exact Pic.Programmed.picUnmask h hirq
  · have hon : on irq = true := by
      have hmask := h.irqMask irq hirq
      rw [Bool.eq_false_iff.mpr fun htrue => hbit ((one_shiftLeft_and_ne_zero irq _).mpr htrue)] at hmask
      simpa using hmask.symm
    rw [Hw3.picUnmask, if_pos hbit, ← hon, Function.update_eq_self]
    exact h

/-- Writing the masks leaves the vectors as they are. -/
theorem data_vector {c : PicChip} (h : c.icw = 0) (value : ℕ) : (c.data value).vector = c.vector := by
  rw [PicChip.data, h]

theorem picMask_vector (h : p.Programmed on) (irq : ℕ) :
    (picMask p irq).master.vector = p.master.vector ∧ (picMask p irq).slave.vector = p.slave.vector := by
  rw [Hw3.picMask]
  split
  · exact ⟨rfl, rfl⟩
  · dsimp only
    split
    · exact ⟨data_vector h.master_icw _, rfl⟩
    · exact ⟨rfl, data_vector h.slave_icw _⟩

theorem picUnmask_vector (h : p.Programmed on) (irq : ℕ) :
    (picUnmask p irq).master.vector = p.master.vector ∧
      (picUnmask p irq).slave.vector = p.slave.vector := by
  rw [Hw3.picUnmask]
  split
  · exact ⟨rfl, rfl⟩
  · dsimp only
    split
    · exact ⟨data_vector h.master_icw _, rfl⟩
    · exact ⟨rfl, data_vector h.slave_icw _⟩

/-! ### The end of an interrupt -/

theorem endOfInterrupt_eq (isr : ℕ → Bool) (hi : i < 8) :
    endOfInterrupt isr (picEoiCmd + i) = Function.update isr i false := by
  have hcommand : ∀ k < 8, (0x60 + k) &&& 0xF8 = 0x60 ∧ (0x60 + k) &&& 7 = k := by decide
  obtain ⟨hcmd, hline⟩ := hcommand i hi
  rw [endOfInterrupt, if_pos hcmd, hline]

/-- `pic_eoi` for a line of the slave. -/
theorem picEoi_high (s : IrqSystem) (h : 8 ≤ irq) (hirq : irq < 16) : picEoi s irq =
    { s with
      slaveIsr := Function.update s.slaveIsr (irq - 8) false
      masterIsr := Function.update s.masterIsr picSlaveIrq false } := by
  have hline : irq &&& (picIrqs - 1) = irq - 8 := by
    have hmod : irq &&& 7 = irq % 8 := Nat.and_two_pow_sub_one_eq_mod irq 3
    rw [show irq &&& (picIrqs - 1) = irq &&& 7 from rfl, hmod]
    omega
  rw [picEoi, if_neg (Nat.not_lt.mpr h)]
  dsimp only
  rw [hline, @endOfInterrupt_eq (irq - 8) _ (by omega), endOfInterrupt_eq _ (by decide)]

theorem picEoi_low (s : IrqSystem) (h : irq < 8) :
    picEoi s irq = { s with masterIsr := Function.update s.masterIsr irq false } := by
  rw [picEoi, if_pos h, endOfInterrupt_eq _ h]

/-! ### The invariant -/

/-- What is so in every reached state: the controllers are programmed, and only the line that
`irq_raw_handler` runs for is in service, for a line of the slave with the input of the slave. While it
runs, interrupts are disabled. -/
structure Serviced (on : ℕ → Bool) (s : IrqSystem) : Prop where
  programmed : s.pic.Programmed on
  masterVector : s.pic.master.vector = picOffset
  slaveVector : s.pic.slave.vector = picOffset + picIrqs
  master : ∀ i < 8, s.masterIsr i = true →
    ∃ irq, s.running = some irq ∧ (irq = i ∨ 8 ≤ irq ∧ i = picSlaveIrq)
  slave : ∀ i < 8, s.slaveIsr i = true → s.running = some (8 + i)
  flag : ∀ irq, s.running = some irq → s.interruptFlag = false ∧ irq < 16

namespace Serviced

theorem running (h : Serviced on s) (hflag : s.interruptFlag = true) : s.running = none := by
  rw [Option.eq_none_iff_forall_ne_some]
  intro irq hrun
  cases hflag.symm.trans (h.flag irq hrun).1

/-- Nothing is in service while no handler runs. -/
theorem idle (h : Serviced on s) (hrun : s.running = none) :
    ∀ i < 8, s.masterIsr i = false ∧ s.slaveIsr i = false := by
  intro i hi
  refine ⟨Bool.eq_false_iff.mpr fun hserved => ?_, Bool.eq_false_iff.mpr fun hserved => ?_⟩
  · obtain ⟨irq, hirq, -⟩ := h.master i hi hserved
    cases hrun.symm.trans hirq
  · cases hrun.symm.trans (h.slave i hi hserved)

theorem vector_eq (h : Serviced on s) (irq : ℕ) : s.vector irq = picOffset + irq := by
  rw [IrqSystem.vector, h.masterVector, h.slaveVector]
  split
  · rfl
  · show 0x20 + 8 + (irq - 8) = 0x20 + irq
    omega

end Serviced

/-- The lines of the two chips. -/
theorem pending_eq_some (h : s.pending = some irq) :
    (irq < 8 ∧ irq ≠ s.pic.slave.cascade ∧ s.masterChip.next 8 = some irq) ∨
      (8 ≤ irq ∧ s.masterChip.next 8 = some s.pic.slave.cascade ∧
        s.slaveChip.next 8 = some (irq - 8)) := by
  obtain ⟨i, hmaster, hline⟩ := Option.bind_eq_some_iff.mp h
  by_cases hi : i = s.pic.slave.cascade
  · rw [if_pos hi] at hline
    obtain ⟨j, hslave, rfl⟩ := Option.map_eq_some_iff.mp hline
    exact Or.inr ⟨Nat.le_add_right _ _, hi ▸ hmaster, by rw [hslave, Nat.add_sub_cancel_left]⟩
  · rw [if_neg hi] at hline
    obtain rfl := Option.some.inj hline
    exact Or.inl ⟨(IrqChip.next_eq_some_iff.mp hmaster).1, hi, hmaster⟩

theorem pending_lt (h : s.pending = some irq) : irq < 16 := by
  rcases pending_eq_some h with ⟨hlt, -⟩ | ⟨hle, -, hslave⟩
  · omega
  · have := (IrqChip.next_eq_some_iff.mp hslave).1
    omega

namespace Serviced

/-- The processor takes an interrupt. -/
theorem interrupt (h : Serviced on s) (hflag : s.interruptFlag = true) (hpending : s.pending = some irq) :
    Serviced on ((s.acknowledge irq).enter (s.vector irq)) := by
  have hidle := h.idle (h.running hflag)
  have hirq := pending_lt hpending
  have hline : some (s.vector irq - picOffset) = some irq := by
    rw [h.vector_eq, Nat.add_sub_cancel_left]
  rw [IrqSystem.acknowledge, IrqSystem.enter, hline]
  by_cases hlow : irq < 8
  · rw [if_pos hlow]
    refine ⟨h.programmed, h.masterVector, h.slaveVector, ?_, ?_, ?_⟩
    · intro i hi hserved
      by_cases heq : i = irq
      · exact ⟨irq, rfl, Or.inl heq.symm⟩
      · have hother := (Function.update_of_ne heq true s.masterIsr).symm.trans hserved
        cases (hidle i hi).1.symm.trans hother
    · intro i hi hserved
      cases (hidle i hi).2.symm.trans hserved
    · rintro _ ⟨⟩
      exact ⟨rfl, hirq⟩
  · rw [if_neg hlow]
    refine ⟨h.programmed, h.masterVector, h.slaveVector, ?_, ?_, ?_⟩
    · intro i hi hserved
      by_cases heq : i = s.pic.slave.cascade
      · exact ⟨irq, rfl, Or.inr ⟨not_lt.mp hlow, heq.trans h.programmed.cascade⟩⟩
      · have hother := (Function.update_of_ne heq true s.masterIsr).symm.trans hserved
        cases (hidle i hi).1.symm.trans hother
    · intro i hi hserved
      by_cases heq : i = irq - 8
      · rw [heq, Nat.add_sub_cancel' (not_lt.mp hlow)]
      · have hother := (Function.update_of_ne heq true s.slaveIsr).symm.trans hserved
        cases (hidle i hi).2.symm.trans hother
    · rintro _ ⟨⟩
      exact ⟨rfl, hirq⟩

/-- The processor takes a spurious interrupt. -/
theorem spurious (h : Serviced on s) (hflag : s.interruptFlag = true) {ofSlave : Bool}
    (hstep : s.step (.spurious ofSlave) = some s') : Serviced on s' := by
  have hidle := h.idle (h.running hflag)
  have hlow : s.vector 7 - picOffset = 7 := by rw [h.vector_eq, Nat.add_sub_cancel_left]
  have hhigh : s.vector 15 - picOffset = 15 := by rw [h.vector_eq, Nat.add_sub_cancel_left]
  rw [IrqSystem.step, if_pos hflag] at hstep
  cases ofSlave with
  | false =>
    obtain rfl := Option.some.inj hstep
    refine ⟨h.programmed, h.masterVector, h.slaveVector, ?_, ?_, ?_⟩
    · intro i hi hserved
      cases (hidle i hi).1.symm.trans hserved
    · intro i hi hserved
      cases (hidle i hi).2.symm.trans hserved
    · rintro irq hrun
      have hirq : 7 = irq := hlow ▸ Option.some.inj hrun
      exact ⟨rfl, by omega⟩
  | true =>
    obtain rfl := Option.some.inj hstep
    refine ⟨h.programmed, h.masterVector, h.slaveVector, ?_, ?_, ?_⟩
    · intro i hi hserved
      refine ⟨15, congrArg some hhigh, Or.inr ⟨by decide, ?_⟩⟩
      by_contra hne
      have heq : i ≠ s.pic.slave.cascade := fun heq => hne (heq.trans h.programmed.cascade)
      have hserved' : Function.update s.masterIsr s.pic.slave.cascade true i = true := hserved
      have hother := (Function.update_of_ne heq true s.masterIsr).symm.trans hserved'
      cases (hidle i hi).1.symm.trans hother
    · intro i hi hserved
      cases (hidle i hi).2.symm.trans hserved
    · rintro irq hrun
      have hirq : 15 = irq := hhigh ▸ Option.some.inj hrun
      exact ⟨rfl, by omega⟩

/-- The end of the interrupt of a line takes all that is in service for it out of service. -/
theorem eoi (h : Serviced on s) (hrun : s.running = some irq) :
    Serviced on { picEoi s irq with running := none } := by
  obtain ⟨hflag, hirq⟩ := h.flag irq hrun
  have hmaster : ∀ i < 8, s.masterIsr i = true → irq = i ∨ 8 ≤ irq ∧ i = picSlaveIrq := by
    intro i hi hserved
    obtain ⟨irq', hrun', hcase⟩ := h.master i hi hserved
    obtain rfl := Option.some.inj (hrun.symm.trans hrun')
    exact hcase
  by_cases hlow : irq < 8
  · rw [picEoi_low s hlow]
    refine ⟨h.programmed, h.masterVector, h.slaveVector, ?_, ?_, nofun⟩
    · intro i hi hserved
      have hserved' : Function.update s.masterIsr irq false i = true := hserved
      rw [Function.update_apply] at hserved'
      split at hserved'
      next => cases hserved'
      next hne =>
        rcases hmaster i hi hserved' with heq | ⟨hhigh, -⟩
        · exact absurd heq.symm hne
        · omega
    · intro i hi hserved
      have heq := Option.some.inj (hrun.symm.trans (h.slave i hi hserved))
      omega
  · rw [picEoi_high s (not_lt.mp hlow) hirq]
    refine ⟨h.programmed, h.masterVector, h.slaveVector, ?_, ?_, nofun⟩
    · intro i hi hserved
      have hserved' : Function.update s.masterIsr picSlaveIrq false i = true := hserved
      rw [Function.update_apply] at hserved'
      split at hserved'
      next => cases hserved'
      next hne =>
        rcases hmaster i hi hserved' with heq | ⟨-, heq⟩
        · omega
        · exact absurd heq hne
    · intro i hi hserved
      have hserved' : Function.update s.slaveIsr (irq - 8) false i = true := hserved
      rw [Function.update_apply] at hserved'
      split at hserved'
      next => cases hserved'
      next hne =>
        have heq := Option.some.inj (hrun.symm.trans (h.slave i hi hserved'))
        omega

/-- A write of the masks. -/
theorem setPic (h : Serviced on s) {on' : ℕ → Bool} (hp : p.Programmed on')
    (hvector : p.master.vector = s.pic.master.vector ∧ p.slave.vector = s.pic.slave.vector) :
    Serviced on' { s with pic := p } :=
  ⟨hp, hvector.1.trans h.masterVector, hvector.2.trans h.slaveVector, h.master, h.slave, h.flag⟩

/-- **One event.** -/
theorem step (h : Serviced on s) {e : IrqEvent} (hallowed : s.Allowed e) (hstep : s.step e = some s') :
    ∃ on', Serviced on' s' := by
  cases e with
  | request irq =>
    obtain rfl := Option.some.inj hstep
    exact ⟨on, h.programmed, h.masterVector, h.slaveVector, h.master, h.slave, h.flag⟩
  | withdraw irq =>
    obtain rfl := Option.some.inj hstep
    exact ⟨on, h.programmed, h.masterVector, h.slaveVector, h.master, h.slave, h.flag⟩
  | interrupt =>
    by_cases hflag : s.interruptFlag = true
    · rw [IrqSystem.step, if_pos hflag] at hstep
      obtain ⟨irq, hpending, rfl⟩ := Option.map_eq_some_iff.mp hstep
      exact ⟨on, h.interrupt hflag hpending⟩
    · rw [IrqSystem.step, if_neg hflag] at hstep
      cases hstep
  | spurious ofSlave =>
    by_cases hflag : s.interruptFlag = true
    · exact ⟨on, h.spurious hflag hstep⟩
    · rw [IrqSystem.step, if_neg hflag] at hstep
      cases hstep
  | mask irq =>
    obtain rfl := Option.some.inj hstep
    exact ⟨_, h.setPic (Programmed.picMask h.programmed hallowed) (picMask_vector h.programmed irq)⟩
  | unmask irq =>
    obtain rfl := Option.some.inj hstep
    exact ⟨_, h.setPic (Programmed.picUnmask h.programmed hallowed)
      (picUnmask_vector h.programmed irq)⟩
  | eoi =>
    obtain ⟨irq, hrun, rfl⟩ := Option.map_eq_some_iff.mp hstep
    exact ⟨on, h.eoi hrun⟩
  | setFlag flag =>
    rw [IrqSystem.step] at hstep
    obtain ⟨hrun, hs⟩ := Option.ite_none_right_eq_some.mp hstep
    obtain rfl := Option.some.inj hs
    refine ⟨on, h.programmed, h.masterVector, h.slaveVector, h.master, h.slave, fun irq hirq => ?_⟩
    cases hrun.symm.trans hirq

end Serviced

/-! ### Runs -/

/-- The system after `pic_setup`, with whatever is requested. -/
def IrqSystem.boot (p : Pic) (irr : ℕ → Bool) : IrqSystem where
  pic := picSetup p
  irr := irr
  masterIsr _ := false
  slaveIsr _ := false
  interruptFlag := false
  running := none

theorem serviced_boot (hp : p.irqMask = 0xFFFF) (irr : ℕ → Bool) :
    Serviced (fun _ => false) (IrqSystem.boot p irr) :=
  ⟨programmed_picRemap hp _, rfl, rfl, fun _ _ h => Bool.noConfusion h,
    fun _ _ h => Bool.noConfusion h, nofun⟩

theorem irqRun_serviced {irr : ℕ → Bool} (hp : p.irqMask = 0xFFFF)
    (run : Run IrqSystem.step IrqSystem.Allowed (IrqSystem.boot p irr) s) :
    ∃ on, Serviced on s :=
  @Run.invariant _ _ _ _ _ _ (fun s => ∃ on, Serviced on s) ⟨_, serviced_boot hp irr⟩
    (fun _ _ _ ⟨_, h⟩ hallowed hstep => h.step hallowed hstep) run

/-! ### What is taken -/

namespace Serviced

theorem masterChip_irr (h : Serviced on s) (i : ℕ) : s.masterChip.irr i =
    if i = picSlaveIrq then (s.slaveChip.next 8).isSome else s.irr i := by
  rw [IrqSystem.masterChip, h.programmed.cascade]

/-- When a request of the slave's line is deliverable. -/
theorem deliverable_high (h : Serviced on s) (hle : 8 ≤ irq) : s.pic.Deliverable irq ↔
    s.slaveChip.imr (irq - 8) = false ∧ s.masterChip.imr picSlaveIrq = false := by
  rw [Pic.Deliverable, if_neg (not_lt.mpr hle), h.programmed.cascade]
  rfl

/-- A request of the master's line. -/
theorem deliverable_low (s : IrqSystem) (hlt : irq < 8) :
    s.pic.Deliverable irq ↔ s.masterChip.imr irq = false := by
  rw [Pic.Deliverable, if_pos hlt]
  rfl

theorem pending_eq_none_iff_master (h : Serviced on s) :
    s.pending = none ↔ s.masterChip.next 8 = none := by
  constructor
  · intro hnone
    rw [Option.eq_none_iff_forall_ne_some]
    intro i hmaster
    rw [IrqSystem.pending, hmaster, Option.bind_some, h.programmed.cascade] at hnone
    by_cases hi : i = picSlaveIrq
    · -- the slave has a line to pass on, or its input would not be requested
      have hreq := (IrqChip.next_eq_some_iff.mp hmaster).2.1
      rw [h.masterChip_irr, if_pos hi] at hreq
      rw [if_pos hi, Option.map_eq_none_iff] at hnone
      rw [hnone] at hreq
      cases hreq
    · rw [if_neg hi] at hnone
      cases hnone
  · intro hnone
    rw [IrqSystem.pending, hnone, Option.bind_none]

/-- A request of the slave that is not masked there comes through its input. -/
theorem slaveChip_next_isSome (h : Serviced on s) (hrun : s.running = none) (hle : 8 ≤ irq)
    (hirq : irq < 16) (hreq : s.irr irq = true) (hmask : s.slaveChip.imr (irq - 8) = false) :
    (s.slaveChip.next 8).isSome = true := by
  have hline : 8 + (irq - 8) = irq := by omega
  rw [Option.isSome_iff_ne_none]
  intro hnone
  have hmasked := (IrqChip.next_eq_none_iff fun j hj => (h.idle hrun j hj).2).mp hnone (irq - 8)
    (by omega) (show s.irr (8 + (irq - 8)) = true by rw [hline]; exact hreq)
  cases hmasked.symm.trans hmask

/-- Nothing reaches the processor exactly if no request is deliverable. -/
theorem pending_eq_none_iff (h : Serviced on s) (hrun : s.running = none) : s.pending = none ↔
    ∀ irq < 16, irq ≠ picSlaveIrq → s.irr irq = true → ¬s.pic.Deliverable irq := by
  have hidle := h.idle hrun
  rw [h.pending_eq_none_iff_master, IrqChip.next_eq_none_iff fun j hj => (hidle j hj).1]
  constructor
  · intro hmaster irq hirq hne hreq hdeliverable
    by_cases hlow : irq < 8
    · have hmask := hmaster irq hlow (by rw [h.masterChip_irr, if_neg hne]; exact hreq)
      cases hmask.symm.trans ((deliverable_low s hlow).mp hdeliverable)
    · obtain ⟨hslave, hinput⟩ := (h.deliverable_high (not_lt.mp hlow)).mp hdeliverable
      have hsome := h.slaveChip_next_isSome hrun (not_lt.mp hlow) hirq hreq hslave
      have hmask := hmaster picSlaveIrq (by decide) (by rw [h.masterChip_irr, if_pos rfl]; exact hsome)
      cases hmask.symm.trans hinput
  · intro hall i hi hreq
    rw [h.masterChip_irr] at hreq
    by_cases hinput : i = picSlaveIrq
    · rw [if_pos hinput] at hreq
      obtain ⟨j, hslave⟩ := Option.isSome_iff_exists.mp hreq
      obtain ⟨hj, hjreq, hjmask, -⟩ := IrqChip.next_eq_some_iff.mp hslave
      have hno := hall (8 + j) (by omega) (show 8 + j ≠ 2 by omega) hjreq
      rw [h.deliverable_high (Nat.le_add_right 8 j), Nat.add_sub_cancel_left] at hno
      rw [hinput]
      exact Bool.not_eq_false _ ▸ fun hmask => hno ⟨hjmask, hmask⟩
    · rw [if_neg hinput] at hreq
      have hno := hall i (by omega) hinput hreq
      rw [deliverable_low s hi] at hno
      exact Bool.not_eq_false _ ▸ hno

/-- What reaches the processor is the first of the deliverable requests. -/
theorem pending_first (h : Serviced on s) (hrun : s.running = none) (hpending : s.pending = some irq) :
    s.irr irq = true ∧ s.pic.Deliverable irq ∧
      ∀ other < 16, other ≠ picSlaveIrq → s.irr other = true → s.pic.Deliverable other →
        irqRank irq ≤ irqRank other := by
  rcases pending_eq_some hpending with ⟨hlow, hne, hmaster⟩ | ⟨hhigh, hmaster, hslave⟩
  · rw [h.programmed.cascade] at hne
    obtain ⟨-, hreq, hmask, hfirst, -⟩ := IrqChip.next_eq_some_iff.mp hmaster
    rw [h.masterChip_irr, if_neg hne] at hreq
    refine ⟨hreq, (deliverable_low s hlow).mpr hmask, fun other hother hone horeq hodel => ?_⟩
    rw [irqRank, irqRank, if_pos hlow]
    by_cases holow : other < 8
    · rw [if_pos holow]
      by_contra hlt
      have hmasked := hfirst other (by omega) (by rw [h.masterChip_irr, if_neg hone]; exact horeq)
      cases hmasked.symm.trans ((deliverable_low s holow).mp hodel)
    · -- a line behind the input of the slave is not first while the slave has a request
      obtain ⟨hslave, hinput⟩ := (h.deliverable_high (not_lt.mp holow)).mp hodel
      have hsome := h.slaveChip_next_isSome hrun (not_lt.mp holow) hother horeq hslave
      rw [if_neg holow]
      by_contra hlt
      have hbehind : picSlaveIrq < irq := by
        have hslaveIrq : picSlaveIrq = 2 := rfl
        omega
      have hmasked := hfirst picSlaveIrq hbehind (by rw [h.masterChip_irr, if_pos rfl]; exact hsome)
      cases hmasked.symm.trans hinput
  · rw [h.programmed.cascade] at hmaster
    obtain ⟨-, -, hinput, hmfirst, -⟩ := IrqChip.next_eq_some_iff.mp hmaster
    obtain ⟨hlt, hreq, hmask, hfirst, -⟩ := IrqChip.next_eq_some_iff.mp hslave
    have hline : 8 + (irq - 8) = irq := by omega
    have hreq' : s.irr (8 + (irq - 8)) = true := hreq
    rw [hline] at hreq'
    refine ⟨hreq', (h.deliverable_high hhigh).mpr ⟨hmask, hinput⟩,
      fun other hother hone horeq hodel => ?_⟩
    have hslaveIrq : picSlaveIrq = 2 := rfl
    rw [irqRank, irqRank, if_neg (not_lt.mpr hhigh)]
    by_cases holow : other < 8
    · rw [if_pos holow]
      by_contra hrank
      have hmasked := hmfirst other (by omega) (by rw [h.masterChip_irr, if_neg hone]; exact horeq)
      cases hmasked.symm.trans ((deliverable_low s holow).mp hodel)
    · rw [if_neg holow]
      by_contra hrank
      have holine : 8 + (other - 8) = other := by omega
      have hmasked := hfirst (other - 8) (by omega)
        (show s.irr (8 + (other - 8)) = true by rw [holine]; exact horeq)
      cases hmasked.symm.trans ((h.deliverable_high (not_lt.mp holow)).mp hodel).1

end Serviced

/-- **While interrupts are enabled, no request is held back**: in every reached state nothing is then
in service, whatever was requested, withdrawn, masked or spurious before. The processor has an interrupt
to take exactly if a request of a line is deliverable, and takes the first of these in the order of the
lines; its vector leads to `irq_raw_handler`, and back to the line. -/
theorem irqRun_unblocked {irr : ℕ → Bool} (hp : p.irqMask = 0xFFFF)
    (run : Run IrqSystem.step IrqSystem.Allowed (IrqSystem.boot p irr) s)
    (hflag : s.interruptFlag = true) :
    (∀ i < 8, s.masterIsr i = false ∧ s.slaveIsr i = false) ∧
    (s.pending = none ↔
      ∀ irq < 16, irq ≠ picSlaveIrq → s.irr irq = true → ¬s.pic.Deliverable irq) ∧
    ∀ irq, s.pending = some irq → s.irr irq = true ∧ s.pic.Deliverable irq ∧
      mainHandlers (s.vector irq) = some .irqRawHandler ∧ s.vector irq - picOffset = irq ∧
      ∀ other < 16, other ≠ picSlaveIrq → s.irr other = true → s.pic.Deliverable other →
        irqRank irq ≤ irqRank other := by
  obtain ⟨on, h⟩ := irqRun_serviced hp run
  have hrun := h.running hflag
  refine ⟨h.idle hrun, h.pending_eq_none_iff hrun, fun irq hpending => ?_⟩
  obtain ⟨hreq, hdeliverable, hfirst⟩ := h.pending_first hrun hpending
  have hlt := pending_lt hpending
  refine ⟨hreq, hdeliverable, ?_, ?_, hfirst⟩
  · rw [h.vector_eq, mainHandlers_eq, show picOffset = 0x20 from rfl, if_neg (by omega),
      if_pos (by omega)]
  · rw [h.vector_eq, Nat.add_sub_cancel_left]

/-- The timer is unmasked and requests an interrupt, a task enables interrupts, and the processor takes
it; the handler tells the end, and interrupts are enabled again. -/
theorem irqRun_unblocked_timer : ∃ s,
    Run IrqSystem.step IrqSystem.Allowed (IrqSystem.boot blankPic fun _ => false) s ∧
      s.interruptFlag = true ∧ s.masterIsr 0 = false := by
  obtain ⟨s, run, hflag⟩ := @Run.exists_of_any _ _ IrqSystem.step IrqSystem.Allowed
    (IrqSystem.boot blankPic fun _ => false)
    [.unmask 0, .request 0, .setFlag true, .interrupt, .eoi, .setFlag true]
    IrqSystem.interruptFlag (by simp [IrqSystem.Allowed]) (by decide)
  obtain ⟨hidle, -⟩ := irqRun_unblocked rfl run hflag
  exact ⟨s, run, hflag, (hidle 0 (by decide)).1⟩

end Hw3

end Auos
