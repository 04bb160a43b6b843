import Auos.Console
import Auos.Printf
import Auos.SerialConsole
import Auos.VgaConsole

/-!
# The kernel log

What `putchar`, `puts` and `printf` put goes to the two consoles that `setup_arch` registers, first the
screen and then the serial port. Each character is written to the one and then to the other, and the
serial driver waits for its device, which goes on sending all the time.

## Main definitions

* `LogCall.output` — the characters that a call puts
* `Devices`, `Written` — the devices, and what one call of `write` does to them
* `KernelLogRun` — the runs from `setup_arch` on, with the text that has been put

## Main results

* `KernelLogRun.reaches` — the text has been written to the screen and is on the line, in any order of
  turns
* `KernelLogRun.printf_completes` — from every reached state `printf` can return, and has then put what
  its format means
-/

namespace Auos

open Links

/-! ### The calls -/

/-- A call that puts characters. -/
inductive LogCall
  /-- `putchar`. -/
  | putchar (c : ℕ)
  /-- `puts`. -/
  | puts (asciz : ℕ)
  /-- `printf`, with the place of the zero that ends the format. -/
  | printf (fmt len : ℕ) (args : List ℕ)

/-- The characters that a call puts. The loops that it calls may make `rounds` rounds. -/
def LogCall.output (mem : Memory) (rounds : ℕ) (buffer : ℕ → UInt8) :
    LogCall → Option (List UInt8)
  | putchar c => some [UInt8.ofNat c]
  | puts asciz => do
    let out ← putsNoNewline (fun i => some (stringBytes mem asciz i)) rounds 0 []
    some (out ++ [lineFeed])
  | printf fmt len args => Auos.printf mem fmt len rounds buffer args

/-- The calls of `write` for some characters. -/
def putAll {ι : Type*} (L : Links (ConsoleNode ι)) (rounds : ℕ) :
    List UInt8 → Option (List (ι × UInt8))
  | [] => some []
  | ch :: out => do
    let calls ← putchar L rounds ch
    let more ← putAll L rounds out
    some (calls ++ more)

/-! ### The devices -/

/-- The consoles that `setup_arch` registers. -/
inductive BootConsole
  /-- `vga_console`. -/
  | vga
  /-- `serial_console`. -/
  | serial
  deriving DecidableEq

/-- The screen and the serial port, with the driver. -/
structure Devices where
  vga : VgaConsole
  serial : SerialWriter

/-- One call of `write`. The serial driver and its device take turns until the call returns. -/
inductive Written : BootConsole × UInt8 → Devices → Devices → Prop
  | vga {d : Devices} {screen : VgaConsole} {ch : UInt8} :
      d.vga.write [ch] = some screen → Written (.vga, ch) d { d with vga := screen }
  | serial {d : Devices} {ch : UInt8} (turns : List SerialTurn) :
      (turns.foldl SerialWriter.step (d.serial.write [ch])).todo = [] →
      Written (.serial, ch) d
        { d with serial := turns.foldl SerialWriter.step (d.serial.write [ch]) }

/-- The calls of `write`, one after the other. -/
inductive AllWritten : List (BootConsole × UInt8) → Devices → Devices → Prop
  | nil (d : Devices) : AllWritten [] d d
  | cons {call : BootConsole × UInt8} {calls : List (BootConsole × UInt8)} {d d' d'' : Devices} :
      Written call d d' → AllWritten calls d' d'' → AllWritten (call :: calls) d d''

/-- The runs from `setup_arch` on, with the text that has been put. -/
inductive KernelLogRun (u : Uart) (vmem : ℕ → UInt8) :
    List UInt8 → Links (ConsoleNode BootConsole) → Devices → Prop
  | boot (L : Links (ConsoleNode BootConsole)) :
      KernelLogRun u vmem []
        (registerConsole (registerConsole (listInitHead L .consoles) .vga) .serial)
        ⟨VgaConsole.init vmem, ⟨initPollingMode u, [], false⟩⟩
  | call {text out : List UInt8} {L : Links (ConsoleNode BootConsole)} {d d' : Devices} {mem : Memory}
      {rounds : ℕ} {buffer : ℕ → UInt8} {calls : List (BootConsole × UInt8)} (op : LogCall) :
      KernelLogRun u vmem text L d → op.output mem rounds buffer = some out →
      putAll L rounds out = some calls → AllWritten calls d d' →
      KernelLogRun u vmem (text ++ out) L d'
  | turn {text : List UInt8} {L : Links (ConsoleNode BootConsole)} {d : Devices} (e : SerialTurn) :
      KernelLogRun u vmem text L d →
      KernelLogRun u vmem text L { d with serial := d.serial.step e }

variable {u : Uart} {vmem : ℕ → UInt8} {text out : List UInt8} {L : Links (ConsoleNode BootConsole)}
  {d d' : Devices} {ch : UInt8} {rounds : ℕ} {calls : List (BootConsole × UInt8)}

/-! ### One character -/

/-- The text has been written to the screen, and the serial driver has been called with it. -/
structure Devices.Hold (u : Uart) (vmem : ℕ → UInt8) (text : List UInt8) (d : Devices) : Prop where
  vga : (VgaConsole.init vmem).write text = some d.vga
  serial : SerialRun u text d.serial
  returned : d.serial.todo = []

theorem SerialRun.steps {s : SerialWriter} (run : SerialRun u text s) (turns : List SerialTurn) :
    SerialRun u text (turns.foldl SerialWriter.step s) := by
  induction turns generalizing s with
  | nil => exact run
  | cons e turns ih => exact ih (run.step e)

/-- The list holds the two consoles. -/
theorem KernelLogRun.registered (run : KernelLogRun u vmem text L d) :
    Registered L [.vga, .serial] := by
  induction run with
  | boot L =>
    have hvga := (Registered.init L).register (show BootConsole.vga ∉ [] by simp)
    exact hvga.register (show BootConsole.serial ∉ [BootConsole.vga] by simp)
  | call _ _ _ _ _ ih => exact ih
  | turn _ _ ih => exact ih

/-- Each character is written to the screen and then to the port. -/
def bothConsoles (out : List UInt8) : List (BootConsole × UInt8) :=
  out.flatMap fun ch => [(.vga, ch), (.serial, ch)]

/-- The calls of `write` for some characters: `putchar` needs three rounds for each. -/
theorem putAll_eq (h : Registered L [.vga, .serial]) (rounds : ℕ) (out : List UInt8) :
    putAll L rounds out = if out = [] ∨ 2 < rounds then some (bothConsoles out) else none := by
  have hputchar : ∀ ch, putchar L rounds ch =
      if 2 < rounds then some [(.vga, ch), (.serial, ch)] else none := putchar_eq h rounds
  by_cases hrounds : 2 < rounds
  · rw [if_pos (Or.inr hrounds)]
    induction out with
    | nil => rfl
    | cons ch out ih =>
      rw [putAll, hputchar, if_pos hrounds, ih]
      rfl
  · cases out with
    | nil => rw [if_pos (Or.inl rfl), putAll]; rfl
    | cons ch out =>
      rw [putAll, hputchar, if_neg hrounds, if_neg (by simp [hrounds])]
      rfl

namespace Devices.Hold

theorem written (h : d.Hold u vmem text) {d₁ d₂ : Devices} (hvga : Written (.vga, ch) d d₁)
    (hserial : Written (.serial, ch) d₁ d₂) : d₂.Hold u vmem (text ++ [ch]) := by
  cases hvga with
  | vga hscreen =>
    cases hserial with
    | serial turns hreturned =>
      refine ⟨?_, (h.serial.write [ch] h.returned).steps turns, hreturned⟩
      rw [VgaConsole.write, List.foldlM_append,
        show text.foldlM VgaConsole.putchar (VgaConsole.init vmem) = some d.vga from h.vga]
      exact hscreen

theorem allWritten (h : d.Hold u vmem text) (hwritten : AllWritten (bothConsoles out) d d') :
    d'.Hold u vmem (text ++ out) := by
  induction out generalizing d text with
  | nil =>
    cases hwritten
    rwa [List.append_nil]
  | cons ch out ih =>
    obtain _ | ⟨hvga, hrest⟩ := hwritten
    obtain _ | ⟨hserial, hrest⟩ := hrest
    have hall := ih (h.written hvga hserial) hrest
    rwa [List.append_assoc] at hall

/-- Between the calls the serial driver does nothing. -/
theorem turn (h : d.Hold u vmem text) (e : SerialTurn) :
    Hold u vmem text { d with serial := d.serial.step e } := by
  refine ⟨h.vga, h.serial.step e, ?_⟩
  have hreturned := h.returned
  cases e with
  | driver =>
    show d.serial.access.todo = []
    rw [SerialWriter.access, hreturned]
    exact hreturned
  | device => exact hreturned
  | receive status => exact hreturned

end Devices.Hold

/-! ### Runs -/

theorem KernelLogRun.hold (run : KernelLogRun u vmem text L d) : d.Hold u vmem text := by
  induction run with
  | boot L => exact ⟨rfl, .init, rfl⟩
  | call op hrun _ hcalls hwritten ih =>
    rw [putAll_eq hrun.registered] at hcalls
    obtain ⟨-, hcalls⟩ := Option.ite_none_right_eq_some.mp hcalls
    rw [← Option.some.inj hcalls] at hwritten
    exact ih.allWritten hwritten
  | turn e _ ih => exact ih.turn e

/-- The device empties its queue. -/
theorem exists_turns_fifo (s : SerialWriter) :
    ∃ turns : List SerialTurn, (turns.foldl SerialWriter.step s).uart.fifo = [] ∧
      (turns.foldl SerialWriter.step s).todo = s.todo ∧
      (turns.foldl SerialWriter.step s).ready = s.ready := by
  induction hr : s.rank using Nat.strong_induction_on generalizing s with
  | _ r ih =>
    rcases s.rank_tick with hlt | ⟨-, hfifo, -⟩
    · obtain ⟨turns, hdone⟩ := ih _ (hr ▸ hlt) _ rfl
      exact ⟨.device :: turns, hdone⟩
    · exact ⟨[], hfifo, rfl, rfl⟩

/-- Once the queue is empty, the driver makes one access to see it and one to write the character. -/
theorem access_access {s : SerialWriter} (htodo : s.todo = [ch]) (hready : s.ready = false)
    (hfifo : s.uart.fifo = []) : s.access.access.todo = [] := by
  rw [SerialWriter.access_of_not_ready htodo hready,
    @SerialWriter.access_of_ready ⟨s.uart, s.todo, decide (s.uart.fifo = [])⟩ [] ch htodo
      (decide_eq_true hfifo)]

/-- A character can be written to the port. -/
theorem exists_written_serial (h : SerialRun u text d.serial) (hreturned : d.serial.todo = [])
    (ch : UInt8) : ∃ d', Written (.serial, ch) d d' := by
  obtain ⟨turns, hfifo, htodo, hready⟩ := exists_turns_fifo (d.serial.write [ch])
  have hpolls : (d.serial.write [ch]).ready = false :=
    Bool.eq_false_iff.mpr fun hready => (h.sound.1.ready hready).1 hreturned
  refine ⟨_, .serial (turns ++ [.driver, .driver]) ?_⟩
  rw [List.foldl_append]
  exact access_access htodo (hready.trans hpolls) hfifo

theorem Devices.Hold.exists_allWritten (h : d.Hold u vmem text) (out : List UInt8) :
    ∃ d', AllWritten (bothConsoles out) d d' := by
  induction out generalizing d text with
  | nil => exact ⟨d, .nil d⟩
  | cons ch out ih =>
    obtain ⟨console, hwrite, hstep⟩ := write_inStep vmem text
    obtain rfl := Option.some.inj (hwrite.symm.trans h.vga)
    obtain ⟨screen, hput, -⟩ := hstep.putchar ch
    have hvga : Written (.vga, ch) d { d with vga := screen } :=
      .vga (by rw [VgaConsole.write, List.foldlM_cons, hput]; rfl)
    obtain ⟨d₂, hserial⟩ := @exists_written_serial u text { d with vga := screen } h.serial h.returned ch
    obtain ⟨d', hrest⟩ := ih (h.written hvga hserial)
    exact ⟨d', .cons hvga (.cons hserial hrest)⟩

/-- A call can run to its end. -/
theorem KernelLogRun.exists_call {mem : Memory} {buffer : ℕ → UInt8} {op : LogCall}
    (run : KernelLogRun u vmem text L d) (hout : op.output mem rounds buffer = some out)
    (hrounds : 2 < rounds) :
    ∃ calls d', putAll L rounds out = some calls ∧ AllWritten calls d d' ∧
      KernelLogRun u vmem (text ++ out) L d' := by
  have hcalls := putAll_eq run.registered rounds out
  rw [if_pos (Or.inr hrounds)] at hcalls
  obtain ⟨d', hwritten⟩ := run.hold.exists_allWritten out
  exact ⟨_, d', hcalls, hwritten, run.call op hout hcalls hwritten⟩

/-- **`printf` completes**: from every reached state, for a format that does not end within a
conversion, a call of `printf` can run to its end, and then the log has what the format means. -/
theorem KernelLogRun.printf_completes {mem : Memory} {fmt : ℕ} {text' : List UInt8} {args : List ℕ}
    {string : ℕ → List UInt8} (run : KernelLogRun u vmem text L d)
    (hfmt : StringAt (stringBytes mem fmt) 0 text') (hargs : ArgsFor text' args)
    (hstring : ∀ ptr, StringAt (stringBytes mem ptr) 0 (string ptr) ∧ (string ptr).length < rounds)
    (hrounds : 33 ≤ rounds) (hlen : text'.length < rounds) (hclosed : Closed text')
    (buffer : ℕ → UInt8) :
    ∃ calls d', (LogCall.printf fmt text'.length args).output mem rounds buffer =
        some (rendered string text' args) ∧
      putAll L rounds (rendered string text' args) = some calls ∧ AllWritten calls d d' ∧
      KernelLogRun u vmem (text ++ rendered string text' args) L d' := by
  have hout : (LogCall.printf fmt text'.length args).output mem rounds buffer =
      some (rendered string text' args) := printf_spec hfmt hargs hstring hrounds hlen hclosed
  obtain ⟨calls, d', hcalls, hwritten, hrun⟩ := run.exists_call hout (show 2 < rounds by omega)
  exact ⟨calls, d', hout, hcalls, hwritten, hrun⟩

/-! ### A run -/

/-- The first message has one conversion and ends in a line feed. -/
theorem KernelLogRun.printf_completes_line : ∃ string L d,
    KernelLogRun blankUart (fun _ => 0) (rendered string [0x25, 0x75, 0x0A] [7]) L d := by
  have hfmt : StringAt (stringBytes (fun a => [0x25, 0x75, 0x0A].getD a 0) 0) 0
      [0x25, 0x75, 0x0A] := by
    refine ⟨fun i hi => ?_, by decide, by decide⟩
    have hi' : i < 3 := hi
    interval_cases i <;> rfl
  choose string hstring hlen using
    @exists_string (fun a => [0x25, 0x75, 0x0A].getD a 0) 3 (by decide) rfl
  obtain ⟨-, d, -, -, -, run⟩ := (KernelLogRun.boot ⟨id, id⟩).printf_completes hfmt
    (show ArgsFor _ [7] from ⟨by decide, by decide⟩) (fun ptr => ⟨hstring ptr, hlen ptr⟩) (by decide)
    (by decide) ((closed_iff _).mpr (by decide)) fun _ => 0
  exact ⟨string, _, d, run⟩

end Auos
