import Mathlib.Data.Nat.Notation

/-!
# A serial port

The transmitter of a 16550: a byte that is written to the data register waits in a queue, moves to the
shift register when that is empty, and goes out on the line. The queue holds 16 bytes if it is enabled,
else one; a byte that is written to a full queue is lost. The line status tells whether the queue is
empty.

While `DLAB` is set the first two registers are the two halves of the frequency divisor, and a write
to them neither sends a byte nor changes which interrupts are enabled.

## Main definitions

* `Uart`, `Uart.write`, `Uart.lsr` — the device, as a program sees it
* `Uart.tick` — what it does on its own
* `Uart.sent` — all bytes it has taken

## Main results

* `Uart.sent_tick`, `Uart.sent_write_data` — no byte is lost that is written to an empty queue
-/

namespace Auos

/-- A serial port. -/
structure Uart where
  /-- The interrupts that are enabled. -/
  ier : UInt8
  /-- The line control register. -/
  lcr : UInt8
  /-- The queue control register. -/
  fcr : UInt8
  /-- The low half of the divisor. -/
  dll : UInt8
  /-- The high half of the divisor. -/
  dlh : UInt8
  /-- The bytes that wait. -/
  fifo : List UInt8
  /-- The byte in the shift register. -/
  shift : Option UInt8
  /-- The bytes that have gone out. -/
  line : List UInt8
  /-- The line status of the receiver. -/
  status : UInt8

namespace Uart

/-- Access to the divisor. -/
def dlab (u : Uart) : Prop := u.lcr &&& 0x80 ≠ 0

/-- The queue is enabled. -/
def queued (u : Uart) : Prop := u.fcr &&& 0x01 ≠ 0

instance (u : Uart) : Decidable u.dlab := inferInstanceAs (Decidable (_ ≠ _))

instance (u : Uart) : Decidable u.queued := inferInstanceAs (Decidable (_ ≠ _))

/-- The number of bytes that can wait. -/
def depth (u : Uart) : ℕ := if u.queued then 16 else 1

/-- The clock is divided by this. -/
def divisor (u : Uart) : ℕ := u.dll.toNat + 256 * u.dlh.toNat

/-- A write to the data register. -/
def push (u : Uart) (b : UInt8) : Uart :=
  if u.fifo.length < u.depth then { u with fifo := u.fifo ++ [b] } else u

/-- A write to the queue control register. The queue is cleared on demand, and when it is enabled or
disabled. -/
def control (u : Uart) (b : UInt8) : Uart :=
  { u with
    fcr := b
    fifo := if b &&& 0x04 ≠ 0 ∨ ¬(b &&& 0x01 = u.fcr &&& 0x01) then [] else u.fifo }

/-- A write to the register at an offset. -/
def write (u : Uart) (reg : ℕ) (b : UInt8) : Uart :=
  match reg with
  | 0 => if u.dlab then { u with dll := b } else u.push b
  | 1 => if u.dlab then { u with dlh := b } else { u with ier := b }
  | 2 => u.control b
  | 3 => { u with lcr := b }
  | _ => u

/-- The line status register: bit 5 is set while the queue is empty, bit 6 while the shift register is
empty too, and the others belong to the receiver. -/
def lsr (u : Uart) : UInt8 :=
  (u.status &&& 0x9F) ||| ((if u.fifo = [] then 0x20 else 0) |||
    (if u.fifo = [] ∧ u.shift = none then 0x40 else 0))

/-- The device sends the byte in the shift register, or fetches one. -/
def tick (u : Uart) : Uart :=
  match u.shift, u.fifo with
  | some b, _ => { u with shift := none, line := u.line ++ [b] }
  | none, b :: fifo => { u with shift := some b, fifo := fifo }
  | none, [] => u

/-- All bytes that the device has taken, in order. -/
def sent (u : Uart) : List UInt8 := u.line ++ (u.shift.toList ++ u.fifo)

variable {u : Uart} {b : UInt8}

/-- **The line status tells whether the queue is empty**, whatever the receiver does. -/
theorem lsr_ready_iff : u.lsr &&& 0x20 ≠ 0 ↔ u.fifo = [] := by
  have hdistrib : ∀ x y z : UInt8, (x ||| y) &&& z = (x &&& z) ||| (y &&& z) := fun x y z =>
    UInt8.toBitVec_inj.mp BitVec.and_or_distrib_right
  have hreceiver : (u.status &&& 0x9F) &&& 0x20 = 0 := by
    rw [UInt8.and_assoc]
    exact UInt8.and_zero
  rw [lsr, hdistrib, hreceiver, UInt8.zero_or, hdistrib]
  by_cases hfifo : u.fifo = []
  · by_cases hshift : u.shift = none
    · rw [if_pos hfifo, if_pos ⟨hfifo, hshift⟩]
      exact iff_of_true (by decide) hfifo
    · rw [if_pos hfifo, if_neg fun h => hshift h.2]
      exact iff_of_true (by decide) hfifo
  · rw [if_neg hfifo, if_neg fun h => hfifo h.1]
    exact iff_of_false (by decide) hfifo

/-- What the device does on its own loses no byte. -/
theorem sent_tick (u : Uart) : u.tick.sent = u.sent := by
  unfold tick
  split
  next b hshift => simp [sent, hshift]
  next b fifo hshift hfifo => simp [sent, hshift, hfifo]
  next => rfl

/-- A byte that is written to an empty queue is taken. -/
theorem sent_write_data (hdlab : ¬u.dlab) (hfifo : u.fifo = []) (b : UInt8) :
    (u.write 0 b).sent = u.sent ++ [b] := by
  have hroom : u.fifo.length < u.depth := by
    rw [hfifo, depth]
    split
    · exact Nat.succ_pos _
    · exact Nat.one_pos
  rw [write, if_neg hdlab, push, if_pos hroom]
  simp [sent]

end Uart

end Auos
