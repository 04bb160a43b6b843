import Auos.Hw2.Pit
import Auos.Hw3.Irq
import Auos.Task.Idt

/-!
# The clock of `hw2`

`main.c`, `idt.c` and `handler.S` of `hw2`, on the processor, the interrupt controllers and the timer.
`main` enables interrupts before it has written the gate of the clock, word by word, and goes on to an
idle loop; from then on everything happens in the handler, which writes `tick` for one of a hundred
interrupts and tells the controllers the end of the interrupt. Devices request interrupts of any line
at any time, and a request stands until it is taken: there are no spurious interrupts, for which `hw2`
has no gate.

What makes the order of `main` safe is that `pic_setup` masks every line and only the last statement
unmasks the line of the clock. `pic.c` is that of `hw3`. The descriptors, which do not change what
happens here, are left out, and so are the screen and the registers that the handler saves.

## Main definitions

* `setupIdtEntry`, `main`, `cInterruptHandler` — the source
* `System`, `Event`, `System.step` — the machine, and what happens

## Main results

* `setupIdtEntry_eq` — the two words make a gate
* `Holds.mainStep`, `Holds.handlerStep`, `Holds.enter` — the invariant, by statements of `main`
* `run_ticks` — no interrupt goes astray, and the clock ticks
* `run_serves` — every request of the clock is served
-/

namespace Auos

namespace Hw2

/-! ### The source -/

/-- `IDT_32INT | IDT_PRESENT`. -/
abbrev idtFlags : ℕ := (0xE <<< 8) ||| (1 <<< 15)

/-- `GDT_CODE_SELECTOR`. -/
abbrev gdtCodeSelector : ℕ := 1 <<< 3

/-- `PIC_OFFSET`. -/
abbrev picOffset : ℕ := 0x20

/-- `CLOCK_IRQ`. -/
abbrev clockIrq : ℕ := 0

/-- `setup_idt_entry`: the two words. -/
def setupIdtEntry (selector isr flags : ℕ) : ℕ × ℕ :=
  ((isr &&& 0xFFFF) ||| wrap (selector <<< 16), flags ||| (isr &&& 0xFFFF0000))

/-- The statements of `main`; `setup_interrupt` is two stores. -/
inductive Statement
  /-- `clrscr ()`. -/
  | clrscr
  /-- `gdt_setup ()`. -/
  | gdtSetup
  /-- `idt_setup ()`. -/
  | idtSetup
  /-- `pic_setup ()`. -/
  | picSetup
  /-- `enable_interrupts ()`. -/
  | enableInterrupts
  /-- `entry->low = ...` in `setup_interrupt (&interrupt_handler, PIC_OFFSET + CLOCK_IRQ)`. -/
  | gateLow
  /-- `entry->high = ...`. -/
  | gateHigh
  /-- `pit_set_channel0_rate (10ul)`. -/
  | pitSetRate
  /-- `pic_unmask (CLOCK_IRQ)`. -/
  | picUnmask
  deriving DecidableEq

/-- `main`, before its idle loop. -/
def main : List Statement :=
  [.clrscr, .gdtSetup, .idtSetup, .picSetup, .enableInterrupts, .gateLow, .gateHigh, .pitSetRate,
    .picUnmask]

/-- The statements of `c_interrupt_handler`. -/
inductive HandlerStatement
  /-- `if (!tick) myputs ("tick\n")`. -/
  | puts
  /-- `tick = (tick + 1) % 100`. -/
  | count
  /-- `pic_eoi (CLOCK_IRQ)`. -/
  | eoi
  deriving DecidableEq

/-- `c_interrupt_handler`. -/
def cInterruptHandler : List HandlerStatement := [.puts, .count, .eoi]

/-- The calls of `myputs` in `clrscr`. -/
def clrscr : List String := List.replicate 24 "\n"

/-! ### The machine -/

/-- The controllers and the interrupt flag, the gates, the timer, what was given to `myputs`, and where
`main` and the handler, if it runs, have got to. -/
structure System where
  irq : Hw3.IrqSystem
  idt : ℕ → ℕ
  pit : Pit
  output : List String
  tick : ℕ
  /-- What `main` has not done. -/
  rest : List Statement
  /-- What the handler has not done. -/
  handler : Option (List HandlerStatement)
  /-- How many interrupts were taken. -/
  taken : ℕ
  /-- An interrupt found no gate that leads to `interrupt_handler`. -/
  fault : Bool

/-- A gate leads to a handler, with interrupts disabled. -/
def Leads (e isr : ℕ) : Prop :=
  gatePresent (gateAttributes e) ∧ gateType (gateAttributes e) = 0xE ∧
    gateSelector e = gdtCodeSelector ∧ gateOffset e = isr

instance (e isr : ℕ) : Decidable (Leads e isr) :=
  inferInstanceAs (Decidable (_ % 2 = 1 ∧ _ = _ ∧ _ = _ ∧ _ = _))

/-- What happens. -/
inductive Event
  /-- A device requests an interrupt. -/
  | request (line : ℕ)
  /-- The processor takes an interrupt. -/
  | interrupt
  /-- The program goes on. -/
  | run

namespace System

/-- A statement of `main`, with `interrupt_handler` at the address `isr`. -/
def mainStep (isr : ℕ) (s : System) : Statement → System
  | .clrscr => { s with output := s.output ++ clrscr }
  | .gdtSetup => s
  | .idtSetup => { s with idt := fun _ => 0 }
  | .picSetup => { s with irq := { s.irq with pic := Hw3.picSetup s.irq.pic } }
  | .enableInterrupts => { s with irq := { s.irq with interruptFlag := true } }
  | .gateLow =>
    let no := picOffset + clockIrq
    let low := (setupIdtEntry gdtCodeSelector isr idtFlags).1
    { s with idt := Function.update s.idt no (s.idt no / 2 ^ 32 * 2 ^ 32 + low) }
  | .gateHigh =>
    let no := picOffset + clockIrq
    let high := (setupIdtEntry gdtCodeSelector isr idtFlags).2
    { s with idt := Function.update s.idt no (high * 2 ^ 32 + s.idt no % 2 ^ 32) }
  | .pitSetRate => { s with pit := pitSetChannel0Rate s.pit 10 }
  | .picUnmask => { s with irq := { s.irq with pic := Hw3.picUnmask s.irq.pic clockIrq } }

/-- A statement of the handler. -/
def handlerStep (s : System) : HandlerStatement → System
  | .puts => if s.tick = 0 then { s with output := s.output ++ ["tick\n"] } else s
  | .count => { s with tick := (s.tick + 1) % 100 }
  | .eoi => { s with irq := { Hw3.picEoi s.irq clockIrq with running := none } }

/-- The processor takes the interrupt of a line. -/
def enter (isr : ℕ) (s : System) (line : ℕ) : System :=
  let no := s.irq.vector line
  let s := { s with irq := (s.irq.acknowledge line).enter no, taken := s.taken + 1 }
  if Leads (s.idt no) isr then { s with handler := some cInterruptHandler } else { s with fault := true }

/-- The program goes on: the handler, its `iret`, which enables interrupts again, or `main`, whose idle
loop does nothing. -/
def runStep (isr : ℕ) (s : System) : System :=
  match s.handler with
  | some (statement :: rest) => { s.handlerStep statement with handler := some rest }
  | some [] => { s with handler := none, irq := { s.irq with interruptFlag := true } }
  | none =>
    match s.rest with
    | statement :: rest => { s.mainStep isr statement with rest := rest }
    | [] => s

/-- One event. It is `none` if the event cannot happen; after a fault nothing does. -/
def step (isr : ℕ) (s : System) : Event → Option System
  | .request line =>
    some { s with irq := { s.irq with irr := Function.update s.irq.irr line true } }
  | .interrupt =>
    if s.fault = false ∧ s.irq.interruptFlag = true then s.irq.pending.map (s.enter isr) else none
  | .run => if s.fault = false then some (s.runStep isr) else none

/-- The machine when `main` is called, with interrupts disabled: controllers, timer and gates are as the
boot loader left them, but no interrupt is in service. -/
def boot (pic : Pic) (irr : ℕ → Bool) (idt : ℕ → ℕ) (pit : Pit) : System where
  irq := ⟨pic, irr, fun _ => false, fun _ => false, false, none⟩
  idt := idt
  pit := pit
  output := []
  tick := 0
  rest := main
  handler := none
  taken := 0
  fault := false

end System

variable {isr k line selector flags : ℕ} {s s' : System} {irq : Hw3.IrqSystem} {pic : Pic}
  {irr : ℕ → Bool} {idt : ℕ → ℕ} {pit : Pit} {handler : Option (List HandlerStatement)}

/-! ### Gates -/

/-- **The two words make the gate** that the kernel's `init_gate` makes. -/
theorem setupIdtEntry_eq (isr selector flags : ℕ) :
    (setupIdtEntry selector isr flags).1 < 2 ^ 32 ∧
      (setupIdtEntry selector isr flags).2 * 2 ^ 32 + (setupIdtEntry selector isr flags).1 =
        initGate isr selector flags := by
  have hlow : (setupIdtEntry selector isr flags).1 < 2 ^ 32 :=
    Nat.or_lt_two_pow (Nat.and_lt_two_pow isr (by decide)) (wrap_lt _)
  refine ⟨hlow, ?_⟩
  rw [initGate, Nat.or_comm (isr &&& 0xFFFF0000), Nat.or_comm (_ <<< 32)]
  exact (or_shiftLeft hlow _).symm

/-- The gate of the clock. -/
theorem leads_initGate (hisr : isr < 2 ^ 32) : Leads (initGate isr gdtCodeSelector idtFlags) isr := by
  obtain ⟨hoffset, hselector, hattributes⟩ :=
    initGate_decodes hisr (show gdtCodeSelector < 2 ^ 16 by decide) (show idtFlags < 2 ^ 16 by decide)
  rw [Leads, hoffset, hselector, hattributes]
  exact ⟨rfl, by decide, rfl, rfl⟩

/-! ### The invariant -/

/-- The lines that are not masked after `k` statements of `main`: the clock, at the end. -/
def unmasked (k line : ℕ) : Bool := decide (line = clockIrq ∧ k = 9)

theorem unmasked_of_ne (hk : k ≠ 9) : unmasked k = fun _ => false := by
  funext line
  simp [unmasked, hk]

/-- The controllers after `k` statements of `main`. -/
structure IrqHolds (k : ℕ) (irq : Hw3.IrqSystem) (handler : Option (List HandlerStatement)) : Prop where
  /-- Before `pic_setup` nothing is known of the controllers but that no line is in service. -/
  early : k < 4 → irq.pic.irqMask = 0xFFFF ∧ ∀ i, irq.masterIsr i = false ∧ irq.slaveIsr i = false
  /-- Then they are programmed; only the clock is ever unmasked. -/
  serviced : 4 ≤ k → Hw3.Serviced (unmasked k) irq
  /-- Between interrupts. -/
  idle : handler = none → irq.running = none ∧ irq.interruptFlag = decide (5 ≤ k)
  /-- In the handler. -/
  busy : ∀ rest, handler = some rest → k = 9 ∧ irq.interruptFlag = false ∧
    (rest = [] ∧ irq.running = none ∨
      rest ∈ [cInterruptHandler, [.count, .eoi], [.eoi]] ∧ irq.running = some clockIrq)

/-- The gates after `k` statements. -/
structure GateHolds (isr k : ℕ) (idt : ℕ → ℕ) : Prop where
  low : k = 6 → idt picOffset % 2 ^ 32 = (setupIdtEntry gdtCodeSelector isr idtFlags).1
  gate : 7 ≤ k → idt picOffset = initGate isr gdtCodeSelector idtFlags

/-- The output of `printed` interrupts after `k` statements. -/
def outputAfter (k printed : ℕ) : List String :=
  (if k = 0 then [] else clrscr) ++ List.replicate ((printed + 99) / 100) "tick\n"

/-- What the handler has still to do, counted. -/
def todo (statement : HandlerStatement) (handler : Option (List HandlerStatement)) : ℕ :=
  if statement ∈ handler.getD [] then 1 else 0

/-- What has been written, and the count of interrupts. -/
def CountHolds (k : ℕ) (s : System) : Prop :=
  ∃ printed counted, printed + todo .puts s.handler = s.taken ∧
    counted + todo .count s.handler = s.taken ∧ s.tick = counted % 100 ∧
    s.output = outputAfter k printed

/-- What is so after `k` statements of `main`. -/
structure Holds (isr k : ℕ) (s : System) : Prop where
  le : k ≤ 9
  rest_eq : s.rest = main.drop k
  fault : s.fault = false
  irq : IrqHolds k s.irq s.handler
  idt : GateHolds isr k s.idt
  pit : 8 ≤ k → (s.pit 0).period = some 11931
  /-- There are no interrupts before `main` gets to its idle loop. -/
  fresh : k < 9 → s.taken = 0
  count : CountHolds k s

/-! ### The controllers -/

namespace IrqHolds

/-- A statement of `main` that leaves the controllers alone. -/
theorem succ (h : IrqHolds k irq none) (hk : k ≠ 3 ∧ k ≠ 4 ∧ k < 8) : IrqHolds (k + 1) irq none where
  early hlt := h.early (by omega)
  serviced hle := by
    have hserviced := h.serviced (by omega)
    rw [unmasked_of_ne (by omega)] at hserviced ⊢
    exact hserviced
  idle hnone := by
    rw [decide_eq_decide.mpr (show 5 ≤ k + 1 ↔ 5 ≤ k by omega)]
    exact h.idle hnone
  busy := nofun

/-- `pic_setup`. -/
theorem picSetup (h : IrqHolds 3 irq none) :
    IrqHolds 4 { irq with pic := Hw3.picSetup irq.pic } none where
  early hlt := absurd hlt (lt_irrefl 4)
  serviced _ := by
    obtain ⟨hmask, hidle⟩ := h.early (by decide)
    obtain ⟨hrun, -⟩ := h.idle rfl
    rw [unmasked_of_ne (by decide)]
    refine ⟨programmed_picRemap hmask _, rfl, rfl, ?_, ?_, ?_⟩
    · intro i _ hi
      cases (hidle i).1.symm.trans hi
    · intro i _ hi
      cases (hidle i).2.symm.trans hi
    · intro line hline
      cases hrun.symm.trans hline
  idle _ := h.idle rfl
  busy := nofun

/-- `enable_interrupts`. -/
theorem enableInterrupts (h : IrqHolds 4 irq none) :
    IrqHolds 5 { irq with interruptFlag := true } none where
  early hlt := absurd hlt (by decide)
  serviced _ := by
    have hs := h.serviced le_rfl
    obtain ⟨hrun, -⟩ := h.idle rfl
    rw [unmasked_of_ne (by decide)] at hs ⊢
    refine ⟨hs.programmed, hs.masterVector, hs.slaveVector, hs.master, hs.slave, ?_⟩
    intro line hline
    cases hrun.symm.trans hline
  idle _ := ⟨(h.idle rfl).1, rfl⟩
  busy := nofun

/-- `pic_unmask`. -/
theorem picUnmask (h : IrqHolds 8 irq none) :
    IrqHolds 9 { irq with pic := Hw3.picUnmask irq.pic clockIrq } none where
  early hlt := absurd hlt (by decide)
  serviced _ := by
    have hs := h.serviced (by decide)
    have hon : unmasked 9 = Function.update (unmasked 8) clockIrq true := by
      funext line
      rcases eq_or_ne line clockIrq with rfl | hne
      · simp [unmasked]
      · simp [unmasked, hne]
    rw [hon]
    exact hs.setPic (Hw3.Programmed.picUnmask hs.programmed (by decide))
      (Hw3.picUnmask_vector hs.programmed clockIrq)
  idle _ := h.idle rfl
  busy := nofun

/-- A request. -/
theorem request (h : IrqHolds k irq handler) (line : ℕ) :
    IrqHolds k { irq with irr := Function.update irq.irr line true } handler where
  early := h.early
  serviced hle := by
    have hs := h.serviced hle
    exact ⟨hs.programmed, hs.masterVector, hs.slaveVector, hs.master, hs.slave, hs.flag⟩
  idle := h.idle
  busy := h.busy

/-- **Only the clock interrupts**, once it is unmasked, and not while the handler runs. -/
theorem pending (h : IrqHolds k irq handler) (hflag : irq.interruptFlag = true)
    (hpending : irq.pending = some line) :
    handler = none ∧ k = 9 ∧ line = clockIrq := by
  have hnone : handler = none := by
    rw [Option.eq_none_iff_forall_ne_some]
    intro rest hsome
    cases hflag.symm.trans (h.busy rest hsome).2.1
  obtain ⟨hrun, henabled⟩ := h.idle hnone
  have hk : 5 ≤ k := by
    rw [hflag] at henabled
    exact decide_eq_true_iff.mp henabled.symm
  have hs := h.serviced (by omega)
  obtain ⟨-, hdeliverable, -⟩ := hs.pending_first hrun hpending
  have hon := ((hs.programmed.deliverable_iff (Hw3.pending_lt hpending)).mp hdeliverable).1
  obtain ⟨hline, hnine⟩ := decide_eq_true_iff.mp hon
  exact ⟨hnone, hnine, hline⟩

/-- The clock interrupts. -/
theorem enter (h : IrqHolds 9 irq none) (hflag : irq.interruptFlag = true)
    (hpending : irq.pending = some clockIrq) : irq.vector clockIrq = picOffset ∧
      IrqHolds 9 ((irq.acknowledge clockIrq).enter (irq.vector clockIrq)) (some cInterruptHandler) := by
  have hs := h.serviced (by decide)
  have hvector : irq.vector clockIrq = picOffset := hs.vector_eq clockIrq
  have hnext := hs.interrupt hflag hpending
  refine ⟨hvector, fun hlt => absurd hlt (by decide), fun _ => hnext, nofun, fun rest hrest => ?_⟩
  cases hrest
  rw [hvector]
  exact ⟨rfl, rfl, Or.inr ⟨List.mem_cons_self, rfl⟩⟩

/-- The handler tells the end of the interrupt. -/
theorem eoi (h : IrqHolds k irq (some [.eoi])) :
    IrqHolds k { Hw3.picEoi irq clockIrq with running := none } (some []) := by
  obtain ⟨rfl, hflag, ⟨hnil, -⟩ | ⟨-, hrun⟩⟩ := h.busy _ rfl
  · cases hnil
  refine ⟨fun hlt => absurd hlt (by decide), fun hle => (h.serviced hle).eoi hrun, nofun,
    fun rest hrest => ?_⟩
  cases hrest
  rw [Hw3.picEoi_low irq (by decide)]
  exact ⟨rfl, hflag, Or.inl ⟨rfl, rfl⟩⟩

/-- A statement of the handler that leaves the controllers alone. -/
theorem next (h : IrqHolds k irq handler) {rest : List HandlerStatement} {statement : HandlerStatement}
    (hhandler : handler = some (statement :: rest)) (hne : statement ≠ .eoi) :
    IrqHolds k irq (some rest) := by
  obtain ⟨rfl, hflag, ⟨hnil, -⟩ | ⟨hmem, hrun⟩⟩ := h.busy _ hhandler
  · cases hnil
  refine ⟨h.early, h.serviced, nofun, fun rest' hrest => ?_⟩
  cases hrest
  refine ⟨rfl, hflag, Or.inr ⟨?_, hrun⟩⟩
  simp only [cInterruptHandler, List.mem_cons, List.cons.injEq, List.not_mem_nil, or_false] at hmem ⊢
  rcases hmem with ⟨-, rfl⟩ | ⟨-, rfl⟩ | ⟨rfl, -⟩
  · simp
  · simp
  · exact absurd rfl hne

/-- The handler returns. -/
theorem iret (h : IrqHolds k irq (some [])) : IrqHolds k { irq with interruptFlag := true } none := by
  obtain ⟨rfl, hflag, ⟨-, hrun⟩ | ⟨hmem, -⟩⟩ := h.busy _ rfl
  · have hs := h.serviced (by decide)
    refine ⟨h.early, fun _ => ?_, fun _ => ⟨hrun, rfl⟩, nofun⟩
    refine ⟨hs.programmed, hs.masterVector, hs.slaveVector, hs.master, hs.slave, ?_⟩
    intro line hline
    cases hrun.symm.trans hline
  · simp [cInterruptHandler] at hmem

end IrqHolds

/-! ### The gates -/

theorem gateHolds_of_lt (hk : k < 6) : GateHolds isr k idt :=
  ⟨fun h => by omega, fun h => by omega⟩

/-- The first store of `setup_interrupt`. -/
theorem gateHolds_low : GateHolds isr 6 (Function.update idt picOffset
    (idt picOffset / 2 ^ 32 * 2 ^ 32 + (setupIdtEntry gdtCodeSelector isr idtFlags).1)) where
  low _ := by
    have hlt := (setupIdtEntry_eq isr gdtCodeSelector idtFlags).1
    rw [Function.update_self]
    omega
  gate h := absurd h (by decide)

/-- The second one. -/
theorem GateHolds.high (h : GateHolds isr 6 idt) : GateHolds isr 7 (Function.update idt picOffset
    ((setupIdtEntry gdtCodeSelector isr idtFlags).2 * 2 ^ 32 + idt picOffset % 2 ^ 32)) where
  low h := absurd h (by decide)
  gate _ := by
    rw [Function.update_self, h.low rfl]
    exact (setupIdtEntry_eq isr gdtCodeSelector idtFlags).2

theorem GateHolds.succ (h : GateHolds isr k idt) (hk : 7 ≤ k) : GateHolds isr (k + 1) idt :=
  ⟨fun h => by omega, fun _ => h.gate hk⟩

/-! ### The count of the interrupts -/

@[simp] theorem todo_none (statement : HandlerStatement) : todo statement none = 0 := rfl

@[simp] theorem todo_nil (statement : HandlerStatement) : todo statement (some []) = 0 := rfl

@[simp] theorem todo_cons (statement first : HandlerStatement) (rest : List HandlerStatement) :
    todo statement (some (first :: rest)) =
      if statement = first then 1 else todo statement (some rest) := by
  by_cases h : statement = first
  · simp [todo, h]
  · simp [todo, h]

/-- One interrupt of a hundred is written. -/
theorem outputAfter_succ (k printed : ℕ) : outputAfter k (printed + 1) =
    if printed % 100 = 0 then outputAfter k printed ++ ["tick\n"] else outputAfter k printed := by
  unfold outputAfter
  by_cases h : printed % 100 = 0
  · have hcount : (printed + 1 + 99) / 100 = (printed + 99) / 100 + 1 := by omega
    rw [if_pos h, hcount, List.replicate_succ', List.append_assoc]
  · have hcount : (printed + 1 + 99) / 100 = (printed + 99) / 100 := by omega
    rw [if_neg h, hcount]

namespace CountHolds

/-- `puts`: nothing has been counted yet that is not written. -/
theorem puts (h : CountHolds k s) (hhandler : s.handler = some cInterruptHandler) :
    CountHolds k { s.handlerStep .puts with handler := some [.count, .eoi] } := by
  obtain ⟨printed, counted, hprinted, hcounted, htick, houtput⟩ := h
  simp only [hhandler, cInterruptHandler, todo_cons, if_true, reduceCtorEq, if_false]
    at hprinted hcounted
  obtain rfl : counted = printed := by omega
  by_cases hzero : s.tick = 0
  · rw [System.handlerStep, if_pos hzero]
    refine ⟨counted + 1, counted, by simpa using hprinted, by simpa using hcounted, htick, ?_⟩
    rw [outputAfter_succ, if_pos (htick.symm.trans hzero), ← houtput]
  · rw [System.handlerStep, if_neg hzero]
    refine ⟨counted + 1, counted, by simpa using hprinted, by simpa using hcounted, htick, ?_⟩
    rw [outputAfter_succ, if_neg (htick ▸ hzero), ← houtput]

/-- `count`. -/
theorem count (h : CountHolds k s) (hhandler : s.handler = some [.count, .eoi]) :
    CountHolds k { s.handlerStep .count with handler := some [.eoi] } := by
  obtain ⟨printed, counted, hprinted, hcounted, htick, houtput⟩ := h
  rw [hhandler] at hprinted hcounted
  refine ⟨printed, counted + 1, hprinted, hcounted, ?_, houtput⟩
  show (s.tick + 1) % 100 = (counted + 1) % 100
  rw [htick, Nat.mod_add_mod]

/-- What changes neither the numbers nor the output. -/
theorem congr (h : CountHolds k s) (hputs : todo .puts s'.handler = todo .puts s.handler)
    (hcount : todo .count s'.handler = todo .count s.handler) (htaken : s'.taken = s.taken)
    (htick : s'.tick = s.tick) (houtput : s'.output = s.output) : CountHolds k s' := by
  obtain ⟨printed, counted, h₁, h₂, h₃, h₄⟩ := h
  exact ⟨printed, counted, by rw [hputs, htaken, h₁], by rw [hcount, htaken, h₂], htick.trans h₃,
    houtput.trans h₄⟩

/-- An interrupt. -/
theorem enter (h : CountHolds k s) (hhandler : s.handler = none) : CountHolds k
    { s with irq := irq, taken := s.taken + 1, handler := some cInterruptHandler } := by
  obtain ⟨printed, counted, hprinted, hcounted, htick, houtput⟩ := h
  rw [hhandler] at hprinted hcounted
  exact ⟨printed, counted, congrArg (· + 1) hprinted, congrArg (· + 1) hcounted, htick, houtput⟩

end CountHolds

/-! ### The steps -/

namespace Holds

/-- A statement of `main` that does something else than to write on the screen. -/
theorem countHolds_succ (h : Holds isr k s) (hk : 0 < k) (hs : CountHolds k s → CountHolds k s') :
    CountHolds (k + 1) s' := by
  obtain ⟨printed, counted, h₁, h₂, h₃, h₄⟩ := hs h.count
  refine ⟨printed, counted, h₁, h₂, h₃, ?_⟩
  rw [h₄, outputAfter, outputAfter, if_neg (by omega), if_neg (by omega)]

/-- **A statement of `main`.** -/
theorem mainStep (h : Holds isr k s) (hhandler : s.handler = none) {statement : Statement}
    {rest : List Statement} (hrest : s.rest = statement :: rest) :
    Holds isr (k + 1) { s.mainStep isr statement with rest := rest } := by
  have hle := h.le
  have hirq := h.irq
  rw [hhandler] at hirq
  have hdrop := h.rest_eq.symm.trans hrest
  have hlt : k < 9 := by
    by_contra hge
    rw [show k = 9 by omega] at hdrop
    cases hdrop
  have hfresh : k + 1 < 9 → s.taken = 0 := fun _ => h.fresh hlt
  have hsame : 0 < k → CountHolds (k + 1) s := fun hk => h.countHolds_succ hk id
  have hzero := h.fresh hlt
  obtain rfl | rfl | rfl | rfl | rfl | rfl | rfl | rfl | rfl :
    k = 0 ∨ k = 1 ∨ k = 2 ∨ k = 3 ∨ k = 4 ∨ k = 5 ∨ k = 6 ∨ k = 7 ∨ k = 8 := by omega
  all_goals cases hdrop
  · refine ⟨by decide, rfl, h.fault, hhandler ▸ hirq.succ (by decide), gateHolds_of_lt (by decide),
      fun hk => absurd hk (by decide), hfresh, ?_⟩
    obtain ⟨printed, counted, h₁, h₂, h₃, h₄⟩ := h.count
    obtain rfl : printed = 0 := by omega
    refine ⟨0, counted, h₁, h₂, h₃, ?_⟩
    show s.output ++ clrscr = _
    rw [h₄]
    rfl
  · exact ⟨by decide, rfl, h.fault, hhandler ▸ hirq.succ (by decide), gateHolds_of_lt (by decide),
      fun hk => absurd hk (by decide), hfresh, hsame (by decide)⟩
  · exact ⟨by decide, rfl, h.fault, hhandler ▸ hirq.succ (by decide), gateHolds_of_lt (by decide),
      fun hk => absurd hk (by decide), hfresh, hsame (by decide)⟩
  · exact ⟨by decide, rfl, h.fault, hhandler ▸ hirq.picSetup, gateHolds_of_lt (by decide),
      fun hk => absurd hk (by decide), hfresh, hsame (by decide)⟩
  · exact ⟨by decide, rfl, h.fault, hhandler ▸ hirq.enableInterrupts, gateHolds_of_lt (by decide),
      fun hk => absurd hk (by decide), hfresh, hsame (by decide)⟩
  · exact ⟨by decide, rfl, h.fault, hhandler ▸ hirq.succ (by decide), gateHolds_low,
      fun hk => absurd hk (by decide), hfresh, hsame (by decide)⟩
  · exact ⟨by decide, rfl, h.fault, hhandler ▸ hirq.succ (by decide), h.idt.high,
      fun hk => absurd hk (by decide), hfresh, hsame (by decide)⟩
  · exact ⟨by decide, rfl, h.fault, hhandler ▸ hirq.succ (by decide), h.idt.succ le_rfl,
      fun _ => (pitSetChannel0Rate_period_iff s.pit 10).mpr (by decide), hfresh, hsame (by decide)⟩
  · exact ⟨le_rfl, rfl, h.fault, hhandler ▸ hirq.picUnmask, h.idt.succ (by decide),
      fun _ => h.pit le_rfl, fun hk => absurd hk (lt_irrefl 9), hsame (by decide)⟩

/-- **A statement of the handler.** -/
theorem handlerStep (h : Holds isr k s) {statement : HandlerStatement} {rest : List HandlerStatement}
    (hhandler : s.handler = some (statement :: rest)) :
    Holds isr k { s.handlerStep statement with handler := some rest } := by
  obtain ⟨rfl, -, ⟨hnil, -⟩ | ⟨hmem, -⟩⟩ := h.irq.busy _ hhandler
  · cases hnil
  have hirq := h.irq
  simp only [cInterruptHandler, List.mem_cons, List.cons.injEq, List.not_mem_nil, or_false] at hmem
  obtain ⟨rfl, rfl⟩ | ⟨rfl, rfl⟩ | ⟨rfl, rfl⟩ := hmem
  · have hcount := h.count.puts hhandler
    have hnext := hirq.next hhandler nofun
    by_cases hzero : s.tick = 0
    · rw [System.handlerStep, if_pos hzero] at hcount ⊢
      exact ⟨h.le, h.rest_eq, h.fault, hnext, h.idt, h.pit, h.fresh, hcount⟩
    · rw [System.handlerStep, if_neg hzero] at hcount ⊢
      exact ⟨h.le, h.rest_eq, h.fault, hnext, h.idt, h.pit, h.fresh, hcount⟩
  · exact ⟨h.le, h.rest_eq, h.fault, hirq.next hhandler nofun, h.idt, h.pit, h.fresh,
      h.count.count hhandler⟩
  · rw [hhandler] at hirq
    exact ⟨h.le, h.rest_eq, h.fault, hirq.eoi, h.idt, h.pit, h.fresh,
      h.count.congr (by simp [hhandler]) (by simp [hhandler]) rfl rfl rfl⟩

/-- **The handler returns.** -/
theorem iret (h : Holds isr k s) (hhandler : s.handler = some []) :
    Holds isr k { s with handler := none, irq := { s.irq with interruptFlag := true } } := by
  have hirq := h.irq
  rw [hhandler] at hirq
  exact ⟨h.le, h.rest_eq, h.fault, hirq.iret, h.idt, h.pit, h.fresh,
    h.count.congr (by simp [hhandler]) (by simp [hhandler]) rfl rfl rfl⟩

/-- An interrupt finds the gate. -/
theorem enter_eq (h : Holds isr k s) (hisr : isr < 2 ^ 32) (hflag : s.irq.interruptFlag = true)
    (hpending : s.irq.pending = some line) : s.enter isr line =
      { s with
        irq := (s.irq.acknowledge line).enter (s.irq.vector line)
        taken := s.taken + 1
        handler := some cInterruptHandler } := by
  obtain ⟨hnone, rfl, rfl⟩ := h.irq.pending hflag hpending
  have hirq := h.irq
  rw [hnone] at hirq
  have hleads : Leads (s.idt (s.irq.vector clockIrq)) isr := by
    rw [(hirq.enter hflag hpending).1, h.idt.gate (by decide)]
    exact leads_initGate hisr
  rw [System.enter, if_pos hleads]

/-- **An interrupt.** -/
theorem enter (h : Holds isr k s) (hisr : isr < 2 ^ 32) (hflag : s.irq.interruptFlag = true)
    (hpending : s.irq.pending = some line) : Holds isr k (s.enter isr line) := by
  rw [h.enter_eq hisr hflag hpending]
  obtain ⟨hnone, rfl, rfl⟩ := h.irq.pending hflag hpending
  have hirq := h.irq
  rw [hnone] at hirq
  exact ⟨h.le, h.rest_eq, h.fault, (hirq.enter hflag hpending).2, h.idt, h.pit,
    fun hlt => absurd hlt (lt_irrefl 9), h.count.enter hnone⟩

/-- **The program goes on.** -/
theorem runStep (h : Holds isr k s) : ∃ k', Holds isr k' (s.runStep isr) := by
  rw [System.runStep]
  cases hhandler : s.handler with
  | none =>
    cases hrest : s.rest with
    | nil => exact ⟨k, h⟩
    | cons statement rest => exact ⟨k + 1, h.mainStep hhandler hrest⟩
  | some statements =>
    cases statements with
    | nil => exact ⟨k, h.iret hhandler⟩
    | cons statement rest => exact ⟨k, h.handlerStep hhandler⟩

/-- **Whatever happens.** -/
theorem step (h : Holds isr k s) (hisr : isr < 2 ^ 32) {e : Event}
    (hstep : System.step isr s e = some s') : ∃ k', Holds isr k' s' := by
  cases e with
  | request line =>
    cases hstep
    exact ⟨k, h.le, h.rest_eq, h.fault, h.irq.request line, h.idt, h.pit, h.fresh, h.count⟩
  | interrupt =>
    rw [System.step, Option.ite_none_right_eq_some] at hstep
    obtain ⟨⟨-, hflag⟩, hstep⟩ := hstep
    obtain ⟨line, hpending, rfl⟩ := Option.map_eq_some_iff.mp hstep
    exact ⟨k, h.enter hisr hflag hpending⟩
  | run =>
    rw [System.step, if_pos h.fault] at hstep
    cases hstep
    exact h.runStep

/-- When `main` is called. -/
theorem boot (hmask : pic.irqMask = 0xFFFF) (irr : ℕ → Bool) (idt : ℕ → ℕ) (pit : Pit) :
    Holds isr 0 (System.boot pic irr idt pit) where
  le := by decide
  rest_eq := rfl
  fault := rfl
  irq := ⟨fun _ => ⟨hmask, fun _ => ⟨rfl, rfl⟩⟩, fun hle => absurd hle (by decide),
    fun _ => ⟨rfl, rfl⟩, nofun⟩
  idt := gateHolds_of_lt (by decide)
  pit hle := absurd hle (by decide)
  fresh _ := rfl
  count := ⟨0, 0, rfl, rfl, rfl, rfl⟩

/-- When `main` idles, all of it has been done. -/
theorem eq_nine (h : Holds isr k s) (hrest : s.rest = []) : k = 9 := by
  have hlen : 9 ≤ k := List.drop_eq_nil_iff.mp (h.rest_eq.symm.trans hrest)
  exact le_antisymm h.le hlen

/-- A clock that requests an interrupt gets it. -/
theorem pending_clock (h : Holds isr 9 s) (hhandler : s.handler = none)
    (hrequest : s.irq.irr clockIrq = true) : s.irq.pending = some clockIrq := by
  obtain ⟨hrun, hflag⟩ := h.irq.idle hhandler
  have hs := h.irq.serviced (by decide)
  have hdeliverable : s.irq.pic.Deliverable clockIrq :=
    (hs.programmed.deliverable_iff (by decide)).mpr ⟨rfl, Or.inl (by decide)⟩
  have hsome : s.irq.pending ≠ none := fun hnone =>
    (hs.pending_eq_none_iff hrun).mp hnone clockIrq (by decide) (by decide) hrequest hdeliverable
  obtain ⟨line, hpending⟩ := Option.ne_none_iff_exists'.mp hsome
  obtain ⟨-, -, rfl⟩ := h.irq.pending hflag hpending
  exact hpending

end Holds

/-- A statement of the handler leaves `main` and the requests alone. -/
theorem System.handlerStep_frame (s : System) (statement : HandlerStatement) :
    (s.handlerStep statement).rest = s.rest ∧ (s.handlerStep statement).taken = s.taken ∧
      (s.handlerStep statement).irq.irr = s.irq.irr := by
  cases statement with
  | puts =>
    rw [handlerStep]
    split_ifs <;> exact ⟨rfl, rfl, rfl⟩
  | count => exact ⟨rfl, rfl, rfl⟩
  | eoi =>
    rw [handlerStep, Hw3.picEoi_low _ (by decide)]
    exact ⟨rfl, rfl, rfl⟩

/-- **The handler returns.** -/
theorem Holds.returns {statements : List HandlerStatement} (h : Holds isr k s)
    (hhandler : s.handler = some statements) :
    ∃ s', (List.replicate (statements.length + 1) Event.run).foldlM (System.step isr) s = some s' ∧
      Holds isr k s' ∧ s'.handler = none ∧ s'.rest = s.rest ∧ s'.taken = s.taken ∧
      s'.irq.irr = s.irq.irr := by
  induction statements generalizing s with
  | nil =>
    refine ⟨_, ?_, h.iret hhandler, rfl, rfl, rfl, rfl⟩
    rw [List.length_nil, List.replicate_one, List.foldlM_cons, System.step, if_pos h.fault,
      System.runStep, hhandler]
    rfl
  | cons statement rest ih =>
    obtain ⟨hrest, htaken, hirr⟩ := s.handlerStep_frame statement
    obtain ⟨s', hrun, hs', hnone, hrest', htaken', hirr'⟩ := ih (h.handlerStep hhandler) rfl
    refine ⟨s', ?_, hs', hnone, hrest'.trans hrest, htaken'.trans htaken, hirr'.trans hirr⟩
    rw [List.length_cons, List.replicate_succ, List.foldlM_cons, System.step, if_pos h.fault,
      System.runStep, hhandler]
    exact hrun

/-! ### The runs -/

/-- In every reached state some of `main` has been done. -/
theorem run_holds (hisr : isr < 2 ^ 32) (hmask : pic.irqMask = 0xFFFF)
    (run : Run (System.step isr) (fun _ _ => True) (System.boot pic irr idt pit) s) :
    ∃ k, Holds isr k s := by
  refine run.invariant (P := fun s => ∃ k, Holds isr k s) ⟨0, Holds.boot hmask irr idt pit⟩ ?_
  rintro s event s' ⟨k, h⟩ - hstep
  exact h.step hisr hstep

/-- **The clock ticks.** Whatever the devices request and whenever it is taken, every interrupt that is
taken finds the gate of the clock, and the first one of each hundred is written. When `main` idles, the
timer gives a pulse every `11931` clocks, no line but the clock's reaches the processor, and the clock's
request does as soon as the handler has returned. -/
theorem run_ticks (hisr : isr < 2 ^ 32) (hmask : pic.irqMask = 0xFFFF)
    (run : Run (System.step isr) (fun _ _ => True) (System.boot pic irr idt pit) s) :
    s.fault = false ∧
    (s.handler = none → s.output =
      (if s.rest = main then [] else clrscr) ++ List.replicate ((s.taken + 99) / 100) "tick\n") ∧
    (s.rest = [] → (s.pit 0).period = some 11931) ∧
    (s.rest = [] → s.handler = none → s.irq.interruptFlag = true ∧
      (s.irq.irr clockIrq = true → s.irq.pending = some clockIrq) ∧
      ∀ line, s.irq.pending = some line → line = clockIrq) := by
  obtain ⟨k, h⟩ := run_holds hisr hmask run
  refine ⟨h.fault, fun hhandler => ?_, fun hrest => h.pit (by rw [h.eq_nine hrest]; decide),
    fun hrest hhandler => ?_⟩
  · obtain ⟨printed, counted, hprinted, -, -, houtput⟩ := h.count
    rw [hhandler, todo_none, Nat.add_zero] at hprinted
    have hstart : s.rest = main ↔ k = 0 := by
      rw [h.rest_eq]
      constructor
      · intro hdrop
        have hlen : 9 - k = 9 := List.length_drop.symm.trans (congrArg List.length hdrop)
        omega
      · rintro rfl
        rfl
    rw [houtput, outputAfter, hprinted]
    simp only [hstart]
  · obtain rfl := h.eq_nine hrest
    have hflag := (h.irq.idle hhandler).2
    exact ⟨hflag, h.pending_clock hhandler, fun line hpending => (h.irq.pending hflag hpending).2.2⟩

/-- All of `main`, then an interrupt of the clock and its handler. -/
theorem run_ticks_first : ∃ s : System,
    Run (System.step 0xC0100000) (fun _ _ => True)
      (System.boot blankPic (fun _ => false) (fun _ => 0) fun _ => ⟨0, 0, false, none, none⟩) s ∧
      s.output = clrscr ++ ["tick\n"] := by
  obtain ⟨s, run, hs⟩ := @Run.exists_of_any _ _ (System.step 0xC0100000) (fun _ _ => True)
    (System.boot blankPic (fun _ => false) (fun _ => 0) fun _ => ⟨0, 0, false, none, none⟩)
    (List.replicate 9 .run ++ [.request 0, .interrupt, .run, .run, .run, .run])
    (fun s => s.handler.isNone && s.rest.isEmpty && s.taken == 1) (fun _ _ _ => trivial) (by decide)
  simp only [Bool.and_eq_true, Option.isNone_iff_eq_none, List.isEmpty_iff, beq_iff_eq] at hs
  obtain ⟨-, houtput, -⟩ := run_ticks (by decide) rfl run
  refine ⟨s, run, ?_⟩
  rw [houtput hs.1.1, hs.1.2, hs.2]
  rfl

/-- **A request of the clock is served**: when `main` idles and no handler runs, the interrupt is taken,
and after four steps of the handler the machine idles again, with one more interrupt and no request. -/
theorem run_serves (hisr : isr < 2 ^ 32) (hmask : pic.irqMask = 0xFFFF)
    (run : Run (System.step isr) (fun _ _ => True) (System.boot pic irr idt pit) s)
    (hrest : s.rest = []) (hhandler : s.handler = none) (hrequest : s.irq.irr clockIrq = true) :
    ∃ s', (.interrupt :: List.replicate 4 .run).foldlM (System.step isr) s = some s' ∧
      s'.rest = [] ∧ s'.handler = none ∧ s'.irq.interruptFlag = true ∧ s'.taken = s.taken + 1 ∧
      s'.irq.irr = Function.update s.irq.irr clockIrq false := by
  obtain ⟨k, h⟩ := run_holds hisr hmask run
  obtain rfl := h.eq_nine hrest
  have hflag : s.irq.interruptFlag = true := (h.irq.idle hhandler).2
  have hpending := h.pending_clock hhandler hrequest
  have henter := h.enter_eq hisr hflag hpending
  obtain ⟨s', hrun, hs', hnone, hrest', htaken, hirr⟩ :=
    (h.enter hisr hflag hpending).returns (congrArg System.handler henter)
  have hstep : System.step isr s .interrupt = some (s.enter isr clockIrq) := by
    rw [System.step, if_pos ⟨h.fault, hflag⟩, hpending]
    rfl
  refine ⟨s', ?_, ?_, hnone, (hs'.irq.idle hnone).2, ?_, ?_⟩
  · rw [List.foldlM_cons, hstep]
    exact hrun
  · rw [hrest', henter, hrest]
  · rw [htaken, henter]
  · rw [hirr, henter]
    rfl

/-- All of `main`, and a request of the clock. -/
theorem run_serves_first : ∃ s s' : System,
    Run (System.step 0xC0100000) (fun _ _ => True)
      (System.boot blankPic (fun _ => false) (fun _ => 0) fun _ => ⟨0, 0, false, none, none⟩) s ∧
      (Event.interrupt :: List.replicate 4 .run).foldlM (System.step 0xC0100000) s = some s' ∧
      s'.taken = s.taken + 1 := by
  obtain ⟨s, run, hs⟩ := @Run.exists_of_any _ _ (System.step 0xC0100000) (fun _ _ => True)
    (System.boot blankPic (fun _ => false) (fun _ => 0) fun _ => ⟨0, 0, false, none, none⟩)
    (List.replicate 9 .run ++ [.request 0])
    (fun s => s.handler.isNone && s.rest.isEmpty && s.irq.irr 0) (fun _ _ _ => trivial) (by decide)
  simp only [Bool.and_eq_true, Option.isNone_iff_eq_none, List.isEmpty_iff] at hs
  obtain ⟨s', hserve, -, -, -, htaken, -⟩ := run_serves (by decide) rfl run hs.1.2 hs.1.1 hs.2
  exact ⟨s, s', run, hserve, htaken⟩

end Hw2

end Auos
