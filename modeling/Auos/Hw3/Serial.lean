import Auos.Kernel
import Auos.Lib.Fifo

/-!
# The serial receive buffer

`hw3/serial.c`: a ring buffer that the interrupt handler fills and `serial_read` empties. The bytes the
device has ready are the list a handler is run on, one turn of its loop for each. `serial_read` runs
with interrupts disabled, so a run of the driver is a sequence of whole interrupts and whole reads.

Two indices wrap on their own and `size` tells an empty buffer from a full one. `RingBuffer.WellFormed`
ties the three together; under it the buffered bytes are the contents of a circular array, and the
driver is a bounded queue.

## Main definitions

* `serialIrqHandler`, `serialRead` — the source
* `RingBuffer.contents` — the buffered bytes
* `serialRun` — the driver on any sequence of interrupts and reads

## Main results

* `SerialState.Refines.run` — the driver refines a bounded queue
* `serialRun_fifo` — no byte that is accepted is lost, repeated or reordered
-/

namespace Auos

namespace Hw3

open Fifo

/-- `RING_BUFFER_SIZE`. -/
abbrev ringBufferCells : ℕ := 4096

/-- `struct ring_buffer`; the cells from `RING_BUFFER_SIZE` on are not used. -/
structure RingBuffer where
  /-- `buffer`. -/
  buffer : ℕ → UInt8
  /-- `begin`. -/
  beginIndex : ℕ
  /-- `end`. -/
  endIndex : ℕ
  /-- `size`. -/
  size : ℕ

/-- `ring_buffer_full`. -/
def ringBufferFull (buffer : RingBuffer) : Bool := buffer.size == ringBufferCells

/-- `ring_buffer_size`. -/
def ringBufferSize (buffer : RingBuffer) : ℕ := buffer.size

/-- `ring_buffer_putchar`. -/
def ringBufferPutchar (buffer : RingBuffer) (data : UInt8) : RingBuffer where
  buffer := Function.update buffer.buffer buffer.endIndex data
  beginIndex := buffer.beginIndex
  endIndex := wadd buffer.endIndex 1 % ringBufferCells
  size := wadd buffer.size 1

/-- `ring_buffer_getchar`: the byte and the buffer afterwards. -/
def ringBufferGetchar (buffer : RingBuffer) : UInt8 × RingBuffer :=
  (buffer.buffer buffer.beginIndex,
    { buffer with
      beginIndex := wadd buffer.beginIndex 1 % ringBufferCells
      size := wsub buffer.size 1 })

/-- `serial_irq_handler`, with the bytes the device has ready. -/
def serialIrqHandler (rxBuffer : RingBuffer) : List UInt8 → RingBuffer
  | [] => rxBuffer
  | data :: rest =>
    serialIrqHandler
      (if !ringBufferFull rxBuffer then ringBufferPutchar rxBuffer data else rxBuffer) rest

/-- The loop of `serial_read`, with the number of iterations left: the bytes stored through `buf`. -/
def serialReadLoop : ℕ → RingBuffer → List UInt8 × RingBuffer
  | 0, rxBuffer => ([], rxBuffer)
  | n + 1, rxBuffer =>
    let (data, rxBuffer) := ringBufferGetchar rxBuffer
    let (rest, rxBuffer) := serialReadLoop n rxBuffer
    (data :: rest, rxBuffer)

/-- `serial_read`: the count it returns, the bytes it stores, and the buffer afterwards. -/
def serialRead (rxBuffer : RingBuffer) (size : ℕ) : ℕ × List UInt8 × RingBuffer :=
  let count := ringBufferSize rxBuffer
  let count := if count > size then size else count
  (count, serialReadLoop count rxBuffer)

/-- `serial_setup`, on the receive buffer. -/
def serialSetup (rxBuffer : RingBuffer) : RingBuffer :=
  { rxBuffer with beginIndex := 0, endIndex := 0, size := 0 }

/-! ### One call -/

/-- The buffered bytes, oldest first. -/
def RingBuffer.contents (rx : RingBuffer) : List UInt8 :=
  slots rx.buffer ringBufferCells rx.beginIndex rx.size

/-- The indices of a ring buffer fit together. -/
structure RingBuffer.WellFormed (rx : RingBuffer) : Prop where
  size_le : rx.size ≤ ringBufferCells
  begin_lt : rx.beginIndex < ringBufferCells
  end_eq : rx.endIndex = (rx.beginIndex + rx.size) % ringBufferCells

variable {rx : RingBuffer} {n : ℕ}

@[simp] theorem RingBuffer.length_contents : rx.contents.length = rx.size := length_slots

/-- The increment of an index wraps at the end of the array only. -/
theorem wadd_mod_ringBufferCells (i : ℕ) : wadd i 1 % ringBufferCells = (i + 1) % ringBufferCells :=
  Nat.mod_mod_of_dvd _ (by decide : ringBufferCells ∣ 2 ^ 32)

namespace RingBuffer.WellFormed

theorem end_lt (h : rx.WellFormed) : rx.endIndex < ringBufferCells := by
  rw [h.end_eq]
  exact Nat.mod_lt _ (by decide)

theorem setup (rx : RingBuffer) : (serialSetup rx).WellFormed :=
  ⟨Nat.zero_le _, Nat.zero_lt_succ _, rfl⟩

theorem putchar (h : rx.WellFormed) (hroom : rx.size < ringBufferCells) (data : UInt8) :
    (ringBufferPutchar rx data).WellFormed ∧
      (ringBufferPutchar rx data).contents = rx.contents ++ [data] := by
  have hsize : wadd rx.size 1 = rx.size + 1 :=
    wadd_of_lt ((Nat.succ_le_of_lt hroom).trans_lt (by decide : ringBufferCells < 2 ^ 32))
  constructor
  · refine ⟨?_, h.begin_lt, ?_⟩
    · simp only [ringBufferPutchar, hsize]
      exact hroom
    · simp only [ringBufferPutchar, hsize, wadd_mod_ringBufferCells]
      rw [h.end_eq, Nat.mod_add_mod, Nat.add_assoc]
  · simp only [contents, ringBufferPutchar, hsize]
    rw [h.end_eq, slots_update hroom]

theorem getchar (h : rx.WellFormed) (hne : 0 < rx.size) :
    (ringBufferGetchar rx).2.WellFormed ∧
      rx.contents = (ringBufferGetchar rx).1 :: (ringBufferGetchar rx).2.contents := by
  obtain ⟨n, hn⟩ : ∃ n, rx.size = n + 1 := Nat.exists_eq_succ_of_ne_zero hne.ne'
  have hle := h.size_le
  have hsize : wsub rx.size 1 = n := by
    rw [wsub_of_le hne (hle.trans_lt (by decide)), hn, Nat.add_sub_cancel]
  constructor
  · refine ⟨?_, Nat.mod_lt _ (by decide), ?_⟩
    · simp only [ringBufferGetchar, hsize]
      omega
    · simp only [ringBufferGetchar, hsize, wadd_mod_ringBufferCells]
      rw [h.end_eq, hn, Nat.mod_add_mod, Nat.add_assoc, Nat.add_comm n 1]
  · simp only [contents, ringBufferGetchar, hsize, wadd_mod_ringBufferCells]
    rw [hn, slots_succ, slots_mod, Nat.mod_eq_of_lt h.begin_lt]

/-- The interrupt handler offers the bytes one by one. -/
theorem irqHandler (h : rx.WellFormed) (data : List UInt8) :
    (serialIrqHandler rx data).WellFormed ∧
      (serialIrqHandler rx data).contents = data.foldl (offer ringBufferCells) rx.contents := by
  induction data generalizing rx with
  | nil => exact ⟨h, rfl⟩
  | cons byte rest ih =>
    rw [serialIrqHandler, List.foldl_cons, offer, length_contents]
    by_cases hfull : rx.size = ringBufferCells
    · rw [if_neg (by simp [ringBufferFull, hfull]), if_neg (by omega)]
      exact ih h
    · have hroom : rx.size < ringBufferCells := lt_of_le_of_ne h.size_le hfull
      obtain ⟨hput, hcontents⟩ := h.putchar hroom byte
      rw [if_pos (by simp [ringBufferFull, hfull]), if_pos hroom, ← hcontents]
      exact ih hput

theorem readLoop (h : rx.WellFormed) (hn : n ≤ rx.size) :
    (serialReadLoop n rx).2.WellFormed ∧ (serialReadLoop n rx).1 = rx.contents.take n ∧
      (serialReadLoop n rx).2.contents = rx.contents.drop n := by
  induction n generalizing rx with
  | zero => exact ⟨h, rfl, rfl⟩
  | succ n ih =>
    obtain ⟨hget, hcontents⟩ := h.getchar (by omega)
    have hlen := congrArg List.length hcontents
    rw [List.length_cons, length_contents, length_contents] at hlen
    obtain ⟨hrest, htake, hdrop⟩ := ih hget (by omega)
    rw [hcontents]
    simp only [serialReadLoop, List.take_succ_cons, List.drop_succ_cons, htake, hdrop]
    exact ⟨hrest, trivial, trivial⟩

/-- `serial_read` takes as many bytes as are asked for and there. -/
theorem read (h : rx.WellFormed) (size : ℕ) :
    (serialRead rx size).1 = min size rx.size ∧ (serialRead rx size).2.2.WellFormed ∧
      (serialRead rx size).2.1 = rx.contents.take size ∧
      (serialRead rx size).2.2.contents = rx.contents.drop size := by
  have hcount : (serialRead rx size).1 = min size rx.size := by
    change (if ringBufferSize rx > size then size else ringBufferSize rx) =
      min size (ringBufferSize rx)
    by_cases hmore : ringBufferSize rx > size
    · rw [if_pos hmore, min_eq_left hmore.le]
    · rw [if_neg hmore, min_eq_right (not_lt.mp hmore)]
  obtain ⟨hrest, htake, hdrop⟩ := h.readLoop (min_le_right size rx.size)
  rw [← hcount] at hrest htake hdrop
  refine ⟨hcount, hrest, htake.trans ?_, hdrop.trans ?_⟩
  · rw [hcount, ← length_contents, ← List.take_eq_take_min]
  · rw [hcount, ← length_contents, ← List.drop_eq_drop_min]

end RingBuffer.WellFormed

/-! ### Runs -/

/-- The driver, with the bytes `serial_read` has returned so far. -/
structure SerialState where
  /-- `rx_buffer`. -/
  rx : RingBuffer
  /-- The bytes returned, in order. -/
  returned : List UInt8

/-- An interrupt that delivers bytes, or a call of `serial_read`. -/
def serialStep (s : SerialState) : Event UInt8 → SerialState
  | .arrive data => { s with rx := serialIrqHandler s.rx data }
  | .request size =>
    let (_, bytes, rx) := serialRead s.rx size
    ⟨rx, s.returned ++ bytes⟩

/-- The driver from `serial_setup` on. -/
def serialRun (rx : RingBuffer) (events : List (Event UInt8)) : SerialState :=
  events.foldl serialStep ⟨serialSetup rx, []⟩

/-- The driver does what a bounded queue does. -/
structure SerialState.Refines (s : SerialState) (log : Log UInt8) : Prop where
  wellFormed : s.rx.WellFormed
  contents_eq : s.rx.contents = log.queue
  returned_eq : s.returned = log.returned

theorem SerialState.Refines.step {s : SerialState} {log : Log UInt8} (h : s.Refines log)
    (event : Event UInt8) : (serialStep s event).Refines (log.step ringBufferCells event) := by
  cases event with
  | arrive data =>
    obtain ⟨hwell, hcontents⟩ := h.wellFormed.irqHandler data
    exact ⟨hwell, by rw [serialStep, hcontents, h.contents_eq]; rfl, h.returned_eq⟩
  | request size =>
    obtain ⟨-, hwell, htake, hdrop⟩ := h.wellFormed.read size
    rw [h.contents_eq] at htake hdrop
    exact ⟨hwell, hdrop, by simp only [serialStep, Log.step, htake, h.returned_eq]⟩

/-- The driver refines a bounded queue, on every sequence of interrupts and reads. -/
theorem SerialState.Refines.run (rx : RingBuffer) (events : List (Event UInt8)) :
    (serialRun rx events).Refines (Log.run ringBufferCells events) := by
  have hstep : ∀ s log, SerialState.Refines s log →
      (events.foldl serialStep s).Refines (events.foldl (Log.step ringBufferCells) log) := by
    induction events with
    | nil => exact fun s log h => h
    | cons event events ih => exact fun s log h => ih _ _ (h.step event)
  exact hstep _ _ ⟨.setup rx, rfl, rfl⟩

/-- **The receive buffer is a bounded FIFO.** On every sequence of interrupts and reads the bytes
returned, followed by those buffered, are the bytes accepted; the next byte is accepted exactly when
there is room, and the next read returns what is there, up to its size. -/
theorem serialRun_fifo (rx : RingBuffer) (events : List (Event UInt8)) :
    (serialRun rx events).returned ++ (serialRun rx events).rx.contents =
      (Log.run ringBufferCells events).accepted ∧
    (Log.run ringBufferCells events).queue = (serialRun rx events).rx.contents ∧
    (serialRun rx events).rx.contents.length = (serialRun rx events).rx.size ∧
    (serialRun rx events).rx.size ≤ ringBufferCells ∧
    (serialRun rx events).rx.beginIndex < ringBufferCells ∧
    (serialRun rx events).rx.endIndex < ringBufferCells ∧
    (serialRun rx events).rx.endIndex =
      ((serialRun rx events).rx.beginIndex + (serialRun rx events).rx.size) % ringBufferCells ∧
    (∀ data, (serialIrqHandler (serialRun rx events).rx [data]).contents =
      if (serialRun rx events).rx.size < ringBufferCells
      then (serialRun rx events).rx.contents ++ [data] else (serialRun rx events).rx.contents) ∧
    ∀ size, (serialRead (serialRun rx events).rx size).1 = min size (serialRun rx events).rx.size ∧
      (serialRead (serialRun rx events).rx size).2.1 =
        (serialRun rx events).rx.contents.take size := by
  have h := SerialState.Refines.run rx events
  obtain ⟨hconserves, -⟩ := Log.conserves_run ringBufferCells events
  refine ⟨by rw [h.returned_eq, h.contents_eq, hconserves], h.contents_eq.symm,
    RingBuffer.length_contents, h.wellFormed.size_le, h.wellFormed.begin_lt, h.wellFormed.end_lt,
    h.wellFormed.end_eq, ?_, ?_⟩
  · intro data
    rw [(h.wellFormed.irqHandler [data]).2, List.foldl_cons, List.foldl_nil, offer,
      RingBuffer.length_contents]
  · intro size
    obtain ⟨hcount, -, htake, -⟩ := h.wellFormed.read size
    exact ⟨hcount, htake⟩

end Hw3

end Auos
