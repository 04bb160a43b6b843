import Auos.Lib.Fair
import Auos.Lib.Uart

/-!
# The serial console

`serial_console.c`. The port is set up for polling: before a character is written to the data register,
`putchar` reads the line status until the queue of the device is empty. The device goes on sending while
the driver runs, and nothing keeps the two in step, so a run takes turns of the driver, one port access
each, and turns of the device in any order.

## Main definitions

* `initPollingMode` — the source
* `SerialWriter`, `SerialTurn` — the driver within `write`, and what happens next
* `SerialRun` — the runs, with the text that `write` has been called with

## Main results

* `initPollingMode_spec` — how the port is set up
* `SerialRun.transmits` — no character is lost, repeated or reordered, in any order of turns
* `serialWrite_returns` — `write` returns and the text goes out, if the driver and the device keep going
-/

namespace Auos

/-! ### The code -/

/-- `REG_DATA`, from `SERIAL_PORT_IO_BASE` on as the other registers. -/
abbrev regData : ℕ := 0

/-- `REG_DLL`. -/
abbrev regDll : ℕ := 0

/-- `REG_IER`. -/
abbrev regIer : ℕ := 1

/-- `REG_DLH`. -/
abbrev regDlh : ℕ := 1

/-- `REG_FCR`. -/
abbrev regFcr : ℕ := 2

/-- `REG_LCR`. -/
abbrev regLcr : ℕ := 3

/-- `FCR_EFIFO`. -/
abbrev fcrEfifo : UInt8 := 0x01

/-- `FCR_14BYTES`. -/
abbrev fcr14bytes : UInt8 := 0x80 ||| 0x40

/-- `LCR_8BIT`. -/
abbrev lcr8bit : UInt8 := 0x02 ||| 0x01

/-- `LCR_DLAB`. -/
abbrev lcrDlab : UInt8 := 0x80

/-- `LSR_TX_READY`. -/
abbrev lsrTxReady : UInt8 := 0x20

/-- `init_polling_mode`. -/
def initPollingMode (u : Uart) : Uart :=
  let u := u.write regIer 0
  let u := u.write regLcr lcrDlab
  let u := u.write regDll 0x0C
  let u := u.write regDlh 0x00
  let u := u.write regLcr lcr8bit
  u.write regFcr (fcrEfifo ||| fcr14bytes)

/-- The device, and the driver within `write`: the characters that it has still to put, and whether the
line status that it has just read let it leave the loop of `putchar`. -/
structure SerialWriter where
  uart : Uart
  todo : List UInt8
  ready : Bool

/-- What happens next. -/
inductive SerialTurn
  /-- The driver makes a port access. -/
  | driver
  /-- The device makes a step. -/
  | device
  /-- Something arrives. -/
  | receive (status : UInt8)

namespace SerialWriter

/-- The next port access of `write`, if it has not returned. -/
def access (s : SerialWriter) : SerialWriter :=
  match s.todo with
  | [] => s
  | c :: todo =>
    if s.ready then ⟨s.uart.write regData c, todo, false⟩
    else { s with ready := s.uart.lsr &&& lsrTxReady ≠ 0 }

/-- One turn. -/
def step (s : SerialWriter) : SerialTurn → SerialWriter
  | .driver => s.access
  | .device => { s with uart := s.uart.tick }
  | .receive status => { s with uart := { s.uart with status := status } }

/-- `write` is called. -/
def write (s : SerialWriter) (buf : List UInt8) : SerialWriter := { s with todo := buf }

end SerialWriter

/-- The runs from `init_polling_mode` on, with the text that `write` has been called with. A call begins
after the one before has returned. -/
inductive SerialRun (u : Uart) : List UInt8 → SerialWriter → Prop
  | init : SerialRun u [] ⟨initPollingMode u, [], false⟩
  | write {text : List UInt8} {s : SerialWriter} (buf : List UInt8) :
      SerialRun u text s → s.todo = [] → SerialRun u (text ++ buf) (s.write buf)
  | step {text : List UInt8} {s : SerialWriter} (turn : SerialTurn) :
      SerialRun u text s → SerialRun u text (s.step turn)

variable {u : Uart} {s : SerialWriter} {text buf : List UInt8} {c : UInt8}

/-! ### Setting up the port -/

/-- How the port is set up. -/
structure Uart.Polling (u : Uart) : Prop where
  /-- 9600 baud. -/
  divisor : u.divisor = 12
  /-- Eight bits, no parity, one stop bit, and no access to the divisor. -/
  lcr : u.lcr = lcr8bit
  /-- The queue is enabled. -/
  queued : u.queued

namespace Uart.Polling

theorem dlab (h : u.Polling) : ¬u.dlab := by
  rw [Uart.dlab, h.lcr]
  decide

theorem tick (h : u.Polling) : u.tick.Polling := by
  unfold Uart.tick
  split
  · exact ⟨h.divisor, h.lcr, h.queued⟩
  · exact ⟨h.divisor, h.lcr, h.queued⟩
  · exact h

theorem data (h : u.Polling) (c : UInt8) : (u.write regData c).Polling := by
  rw [Uart.write, if_neg h.dlab, Uart.push]
  split
  · exact ⟨h.divisor, h.lcr, h.queued⟩
  · exact h

end Uart.Polling

/-- The writes after the first one. -/
theorem initPollingMode_eq (u : Uart) : initPollingMode u =
    ({ u.write regIer 0 with dll := 0x0C, dlh := 0x00, lcr := lcr8bit }).control
      (fcrEfifo ||| fcr14bytes) := by
  have hdlab : lcrDlab &&& 0x80 ≠ 0 := by decide
  have hlow : ∀ v : Uart, ({ v with lcr := lcrDlab }).write regDll 0x0C =
      { v with lcr := lcrDlab, dll := 0x0C } := fun v => if_pos hdlab
  have hhigh : ∀ v : Uart, ({ v with lcr := lcrDlab }).write regDlh 0x00 =
      { v with lcr := lcrDlab, dlh := 0x00 } := fun v => if_pos hdlab
  calc initPollingMode u
      = (((({ u.write regIer 0 with lcr := lcrDlab }).write regDll 0x0C).write regDlh 0x00).write
          regLcr lcr8bit).write regFcr (fcrEfifo ||| fcr14bytes) := rfl
    _ = _ := by rw [hlow, hhigh { u.write regIer 0 with dll := 0x0C }]; rfl

/-- **How `init_polling_mode` leaves the port**, whatever it finds: 9600 baud, eight bits, and the
queue enabled. The interrupts are disabled only if the first write does not go to the divisor. -/
theorem initPollingMode_spec (u : Uart) :
    (initPollingMode u).Polling ∧ (initPollingMode u).ier = if u.dlab then u.ier else 0 := by
  rw [initPollingMode_eq]
  refine ⟨⟨rfl, rfl, show (0xC1 : UInt8) &&& 0x01 ≠ 0 by decide⟩, ?_⟩
  show (u.write regIer 0).ier = _
  rw [Uart.write]
  split
  · rfl
  · rfl

/-! ### Runs -/

/-- What is so at every point of a run: the driver leaves its loop only while the queue is empty. -/
structure SerialWriter.Sound (s : SerialWriter) : Prop where
  polling : s.uart.Polling
  ready : s.ready = true → s.todo ≠ [] ∧ s.uart.fifo = []

namespace SerialWriter

/-- The characters that the device has taken, and those that have still to be put. -/
def characters (s : SerialWriter) : List UInt8 := s.uart.sent ++ s.todo

theorem fifo_tick (h : u.fifo = []) : u.tick.fifo = [] := by
  unfold Uart.tick
  split
  next => exact h
  next hfifo => cases h.symm.trans hfifo
  next => exact h

theorem access_of_ready (htodo : s.todo = c :: buf) (hready : s.ready = true) :
    s.access = ⟨s.uart.write regData c, buf, false⟩ := by
  rw [access, htodo]
  exact if_pos hready

theorem access_of_not_ready (htodo : s.todo = c :: buf) (hready : s.ready = false) :
    s.access = { s with ready := decide (s.uart.fifo = []) } := by
  rw [access, htodo]
  dsimp only
  rw [if_neg (by rw [hready]; decide), decide_eq_decide.mpr Uart.lsr_ready_iff, ← htodo]

/-- **One turn** keeps the invariant, and neither loses a character nor adds one. -/
theorem Sound.step (h : s.Sound) (turn : SerialTurn) :
    (s.step turn).Sound ∧ (s.step turn).characters = s.characters := by
  cases turn with
  | driver =>
    show s.access.Sound ∧ s.access.characters = s.characters
    cases htodo : s.todo with
    | nil =>
      have hreturned : s.access = s := by rw [access, htodo]
      rw [hreturned]
      exact ⟨h, rfl⟩
    | cons c buf =>
      cases hready : s.ready with
      | true =>
        have hsent := Uart.sent_write_data h.polling.dlab (h.ready hready).2 c
        rw [access_of_ready htodo hready]
        refine ⟨⟨h.polling.data c, by simp⟩, ?_⟩
        rw [characters, characters, htodo, hsent, List.append_assoc]
        rfl
      | false =>
        rw [access_of_not_ready htodo hready]
        refine ⟨⟨h.polling, fun hempty => ⟨?_, of_decide_eq_true hempty⟩⟩, rfl⟩
        rw [htodo]
        exact List.cons_ne_nil c buf
  | device =>
    refine ⟨⟨h.polling.tick, fun hready => ?_⟩, congrArg (· ++ s.todo) s.uart.sent_tick⟩
    obtain ⟨htodo, hempty⟩ := h.ready hready
    exact ⟨htodo, fifo_tick hempty⟩
  | receive status => exact ⟨⟨⟨h.polling.divisor, h.polling.lcr, h.polling.queued⟩, h.ready⟩, rfl⟩

end SerialWriter

theorem SerialRun.sound (run : SerialRun u text s) :
    s.Sound ∧ s.characters = (initPollingMode u).sent ++ text := by
  induction run with
  | init => exact ⟨⟨(initPollingMode_spec u).1, by simp⟩, rfl⟩
  | @write text s buf _ htodo ih =>
    obtain ⟨hsound, hchars⟩ := ih
    refine ⟨⟨hsound.polling, fun hready => absurd htodo (hsound.ready hready).1⟩, ?_⟩
    rw [SerialWriter.characters, htodo, List.append_nil] at hchars
    rw [← List.append_assoc, ← hchars]
    rfl
  | step turn _ ih =>
    obtain ⟨hsound, hchars⟩ := ih
    exact ⟨(hsound.step turn).1, (hsound.step turn).2.trans hchars⟩

/-- **The serial console transmits what it is given**: in whatever order the driver and the device take
their turns, what has gone out on the line, what the device still holds and what `write` has still to
put make up the text, in order; and the port stays set up. -/
theorem SerialRun.transmits (run : SerialRun u text s) :
    s.uart.line ++ (s.uart.shift.toList ++ s.uart.fifo) ++ s.todo =
        (initPollingMode u).sent ++ text ∧
      s.uart.divisor = 12 ∧ s.uart.lcr = lcr8bit ∧ s.uart.queued :=
  ⟨run.sound.2, run.sound.1.polling.divisor, run.sound.1.polling.lcr, run.sound.1.polling.queued⟩

/-! ### `write` returns -/

namespace SerialWriter

/-- How far the text is from having gone out. -/
def rank (s : SerialWriter) : ℕ :=
  4 * s.todo.length + (2 * s.uart.fifo.length + s.uart.shift.toList.length) +
    if s.todo ≠ [] ∧ s.ready = false then 1 else 0

/-- Who brings it further: the driver while it has something to put and the queue is empty, else the
device. -/
def turn (s : SerialWriter) : Bool := decide (s.todo ≠ [] ∧ s.uart.fifo = [])

/-- The turns of the driver (`true`) and of the device. -/
def kind (b : Bool) (e : SerialTurn) : Prop := e = if b then .driver else .device

/-- An access of the driver changes nothing if it has nothing to put or must wait. -/
theorem access_eq_self (hturn : s.turn = false) (hsound : s.Sound) : s.access = s := by
  cases htodo : s.todo with
  | nil => rw [access, htodo]
  | cons c buf =>
    have hwait : s.uart.fifo ≠ [] := fun hempty => by
      simp [turn, htodo, hempty] at hturn
    have hready : s.ready = false := Bool.eq_false_iff.mpr fun h => hwait (hsound.ready h).2
    rw [access_of_not_ready htodo hready, decide_eq_false hwait, ← hready]

/-- Otherwise it brings the text further. -/
theorem rank_access_lt (hturn : s.turn = true) (hsound : s.Sound) : s.access.rank < s.rank := by
  obtain ⟨htodo, hempty⟩ := of_decide_eq_true hturn
  obtain ⟨c, buf, hbuf⟩ := List.exists_cons_of_ne_nil htodo
  cases hready : s.ready with
  | true =>
    have hpush : (s.uart.write regData c).fifo = [c] ∧ (s.uart.write regData c).shift = s.uart.shift := by
      have hroom : s.uart.fifo.length < s.uart.depth := by
        rw [hempty, Uart.depth, if_pos hsound.polling.queued]
        decide
      rw [Uart.write, if_neg hsound.polling.dlab, Uart.push, if_pos hroom, hempty]
      exact ⟨rfl, rfl⟩
    rw [access_of_ready hbuf hready, rank, rank, hpush.1, hpush.2, hbuf, hempty]
    simp only [List.length_cons, List.length_nil]
    split <;> omega
  | false =>
    rw [access_of_not_ready hbuf hready, rank, rank, hempty]
    simp [htodo, hready]

/-- The device brings the text further, or has nothing to do. -/
theorem rank_tick (s : SerialWriter) : (s.step .device).rank < s.rank ∨
    s.step .device = s ∧ s.uart.fifo = [] ∧ s.uart.shift = none := by
  have hrank : (s.step .device).rank = 4 * s.todo.length + (2 * s.uart.tick.fifo.length +
      s.uart.tick.shift.toList.length) + if s.todo ≠ [] ∧ s.ready = false then 1 else 0 := rfl
  have hself : s.uart.tick = s.uart → s.step .device = s := fun h => by rw [step, h]
  rw [hrank, rank]
  unfold Uart.tick at hself ⊢
  split
  next b hshift =>
    left
    simp only [hshift, Option.toList_some, Option.toList_none, List.length_cons, List.length_nil]
    omega
  next b fifo hshift hfifo =>
    left
    simp only [hshift, hfifo, Option.toList_some, Option.toList_none, List.length_cons, List.length_nil]
    omega
  next hshift hfifo =>
    rw [hshift, hfifo] at hself
    exact Or.inr ⟨hself rfl, hfifo, hshift⟩

/-- No turn sets the text back, or changes who brings it further without bringing it further. -/
theorem rank_step (hsound : s.Sound) (e : SerialTurn) :
    (s.step e).rank < s.rank ∨ (s.step e).rank = s.rank ∧ (s.step e).turn = s.turn := by
  cases e with
  | driver =>
    cases hturn : s.turn with
    | true => exact Or.inl (rank_access_lt hturn hsound)
    | false =>
      have hsame : s.step .driver = s := access_eq_self hturn hsound
      rw [hsame]
      exact Or.inr ⟨rfl, hturn⟩
  | device =>
    rcases rank_tick s with hlt | ⟨hsame, -⟩
    · exact Or.inl hlt
    · rw [hsame]
      exact Or.inr ⟨rfl, rfl⟩
  | receive status => exact Or.inr ⟨rfl, rfl⟩

/-- While there is something left, the turns of the one whose turn it is bring the text further. -/
theorem rank_step_lt (hsound : s.Sound) (hrank : s.rank ≠ 0) (e : SerialTurn)
    (he : kind s.turn e) : (s.step e).rank < s.rank := by
  cases hturn : s.turn with
  | true =>
    rw [hturn] at he
    rw [show e = .driver from he]
    exact rank_access_lt hturn hsound
  | false =>
    rw [hturn] at he
    rw [show e = .device from he]
    rcases rank_tick s with hlt | ⟨-, hfifo, hshift⟩
    · exact hlt
    · have htodo : s.todo = [] := by
        simpa [turn, hfifo] using hturn
      exact absurd (by simp [rank, hfifo, hshift, htodo]) hrank

end SerialWriter

/-- **`write` returns**: if the driver and the device keep taking turns, whatever else happens, then at
some point `write` has returned and its text has gone out. -/
theorem serialWrite_returns (run : SerialRun u text s) {turns : ℕ → SerialTurn}
    (hdriver : ∀ n, ∃ m, n ≤ m ∧ turns m = .driver) (hdevice : ∀ n, ∃ m, n ≤ m ∧ turns m = .device) :
    ∃ n, (execution SerialWriter.step s turns n).todo = [] ∧
      (execution SerialWriter.step s turns n).uart.line = (initPollingMode u).sent ++ text := by
  have hfair : AllRecur SerialWriter.kind turns := by
    rintro (_ | _)
    · exact hdevice
    · exact hdriver
  obtain ⟨n, -, hzero⟩ := hfair.exists_rank_zero run (fun s e h => h.step e)
    (fun s e h => SerialWriter.rank_step h.sound.1 e)
    (fun s e h hrank he => SerialWriter.rank_step_lt h.sound.1 hrank e he) 0
  have hrun : SerialRun u text (execution SerialWriter.step s turns n) :=
    execution_invariant run (fun s e h => h.step e) n
  obtain ⟨hlengths, -⟩ := Nat.add_eq_zero_iff.mp hzero
  have htodo : (execution SerialWriter.step s turns n).todo = [] :=
    List.length_eq_zero_iff.mp (by omega)
  have hfifo : (execution SerialWriter.step s turns n).uart.fifo = [] :=
    List.length_eq_zero_iff.mp (by omega)
  have hshift : (execution SerialWriter.step s turns n).uart.shift.toList = [] :=
    List.length_eq_zero_iff.mp (by omega)
  have hchars := hrun.sound.2
  rw [SerialWriter.characters, Uart.sent, htodo, hfifo, hshift] at hchars
  simp only [List.append_nil] at hchars
  exact ⟨n, htodo, hchars⟩

/-! ### A run -/

/-- A port that was never used. -/
def blankUart : Uart := ⟨0, 0, 0, 0, 0, [], none, [], 0⟩

/-- Three characters at once: the first has gone out, the device holds the second, and the third has
still to be put. -/
theorem SerialRun.transmits_blank : ∃ s, SerialRun blankUart [0x41, 0x42, 0x43] s ∧
    s.uart.line = [0x41] ∧ s.uart.fifo = [0x42] ∧ s.todo = [0x43] ∧
    s.uart.line ++ (s.uart.shift.toList ++ s.uart.fifo) ++ s.todo = [0x41, 0x42, 0x43] := by
  have run := (SerialRun.init (u := blankUart)).write [0x41, 0x42, 0x43] rfl
  -- The first character goes to the queue and from there to the line while the second one follows.
  have run := (((run.step .driver).step .driver).step .device).step .driver
  have run := (run.step .driver).step .device
  obtain ⟨hchars, -⟩ := run.transmits
  exact ⟨_, run, rfl, rfl, rfl, hchars⟩

theorem serialWrite_returns_blank : ∃ n,
    (execution SerialWriter.step ⟨initPollingMode blankUart, [0x41, 0x42], false⟩
      (fun n => if n % 2 = 0 then .driver else .device) n).uart.line = [0x41, 0x42] := by
  have run := (SerialRun.init (u := blankUart)).write [0x41, 0x42] rfl
  obtain ⟨n, -, hline⟩ := @serialWrite_returns blankUart _ _ run
    (fun n => if n % 2 = 0 then .driver else .device)
    (fun n => ⟨2 * n, by omega, if_pos (Nat.mul_mod_right 2 n)⟩)
    (fun n => ⟨2 * n + 1, by omega, if_neg (by omega)⟩)
  exact ⟨n, hline⟩

end Auos
