import Auos.Hw3.Serial
import Auos.Lib.Run

/-!
# The echo hand-off

`task1_function` and `task2_function` of `hw3/main.c` share one word: task 1 publishes the address of
its buffer there and task 2 clears it when the string is printed. A task can be preempted between any
two of its statements and serial interrupts arrive at any time, so a run interleaves statements of
the two tasks and interrupts in any order; `schedule` leaves the shared state alone.

`main` passes `NULL` as `data`, not the address of `message`, so the word is the one at address `0` and
nothing sets it before the tasks start. It may hold the address of some other string then.

The chunks are handed over as strings, and a byte `0` inside a chunk ends it early: the bytes after it
are lost (`echo_loses_bytes`). In every other run the hand-off is exact (`echoRun_handsOver`).

## Main definitions

* `task1Step`, `task2Step` — one statement of a task
* `EchoRun` — runs of the two tasks
* `HandsOver` — nothing is lost, repeated or reordered

## Main results

* `Owned.step` — the string or its buffer belongs to one of the tasks, and the step keeps it so
* `echoRun_handsOver` — the hand-off is exact when no accepted byte is `0`
-/

namespace Auos

namespace Hw3

open Fifo

/-! ### The two tasks -/

/-- The strings a `char *` can point into: the buffer of task 1, and whatever the word at address `0`
pointed at before the tasks started. -/
inductive Str
  | buffer
  | other
  deriving DecidableEq

/-- The statements of `task1_function`. -/
inductive Task1Pc
  /-- `while (*msg)`. -/
  | test
  /-- `schedule()`. -/
  | schedule
  /-- `count = serial_read(buffer, sizeof(buffer) - 1)`. -/
  | read
  /-- `buffer[count] = 0`. -/
  | terminate
  /-- `if (count)`. -/
  | check
  /-- `*msg = buffer`. -/
  | publish
  deriving DecidableEq

/-- The statements of `task2_function`, with those of `myputs`. -/
inductive Task2Pc
  /-- `while (!*msg)`. -/
  | test
  /-- `schedule()`. -/
  | schedule
  /-- `ptr = *msg` and the call of `myputs`. -/
  | load
  /-- `while (*str)`. -/
  | str
  /-- `myputchar(*str++)`. -/
  | putchar
  /-- `*msg = 0`. -/
  | clear
  deriving DecidableEq

/-- The state the two tasks share, with their local variables. -/
structure Echo where
  /-- The receive buffer. -/
  rx : RingBuffer
  /-- The bytes of the strings. -/
  memory : Str → ℕ → UInt8
  /-- `*msg`. -/
  msg : Option Str
  /-- The next statement of task 1. -/
  pc1 : Task1Pc
  /-- `count`. -/
  count : ℕ
  /-- The next statement of task 2. -/
  pc2 : Task2Pc
  /-- `str`: the string, if the pointer is not null, and the distance from its start. -/
  str : Option Str × ℕ
  /-- The bytes `serial_read` has returned to task 1. -/
  obtained : List UInt8
  /-- The bytes task 2 has passed to `myputchar`. -/
  printed : List UInt8

/-- Bytes stored from the start of a string on. -/
def store (mem : ℕ → UInt8) (bytes : List UInt8) : ℕ → UInt8 := fun i => bytes.getD i (mem i)

/-- `sizeof(buffer)`. -/
abbrev bufferSize : ℕ := 256

/-- One statement of `task1_function`. -/
def task1Step (s : Echo) : Echo :=
  match s.pc1 with
  | .test => if s.msg.isSome then { s with pc1 := .schedule } else { s with pc1 := .read }
  | .schedule => { s with pc1 := .test }
  | .read =>
    let (count, bytes, rx) := serialRead s.rx (bufferSize - 1)
    { s with
      rx, count
      memory := Function.update s.memory .buffer (store (s.memory .buffer) bytes)
      obtained := s.obtained ++ bytes
      pc1 := .terminate }
  | .terminate =>
    { s with
      memory := Function.update s.memory .buffer (Function.update (s.memory .buffer) s.count 0)
      pc1 := .check }
  | .check => if s.count ≠ 0 then { s with pc1 := .publish } else { s with pc1 := .test }
  | .publish => { s with msg := some .buffer, pc1 := .test }

/-- One statement of `task2_function`; `none` reads through a null pointer. -/
def task2Step (s : Echo) : Option Echo :=
  match s.pc2 with
  | .test => if s.msg.isNone then some { s with pc2 := .schedule } else some { s with pc2 := .load }
  | .schedule => some { s with pc2 := .test }
  | .load => some { s with str := (s.msg, 0), pc2 := .str }
  | .str => do
    let p ← s.str.1
    if s.memory p s.str.2 ≠ 0 then some { s with pc2 := .putchar } else some { s with pc2 := .clear }
  | .putchar => do
    let p ← s.str.1
    some { s with
      printed := s.printed ++ [s.memory p s.str.2]
      str := (p, s.str.2 + 1)
      pc2 := .str }
  | .clear => some { s with msg := none, pc2 := .test }

/-- What happens next: a statement of one of the tasks, or a serial interrupt. -/
inductive EchoEvent
  | task1
  | task2
  | irq (data : List UInt8)

/-- One event. -/
def echoStep (s : Echo) : EchoEvent → Option Echo
  | .task1 => some (task1Step s)
  | .task2 => task2Step s
  | .irq data => some { s with rx := serialIrqHandler s.rx data }

/-- The bytes from `i` on are the string `l`, without a `0` inside, and its terminator. -/
def StringAt (mem : ℕ → UInt8) : ℕ → List UInt8 → Prop
  | i, [] => mem i = 0
  | i, c :: l => mem i = c ∧ c ≠ 0 ∧ StringAt mem (i + 1) l

theorem stringAt_of_getElem {mem : ℕ → UInt8} {l : List UInt8} {i : ℕ} (hl : 0 ∉ l)
    (hget : ∀ j (hj : j < l.length), mem (i + j) = l[j]) (hend : mem (i + l.length) = 0) :
    StringAt mem i l := by
  induction l generalizing i with
  | nil => exact hend
  | cons c l ih =>
    rw [List.mem_cons, not_or] at hl
    refine ⟨hget 0 (Nat.succ_pos _), fun h => hl.1 h.symm, ih hl.2 ?_ ?_⟩
    · intro j hj
      rw [Nat.add_assoc, Nat.add_comm 1 j]
      exact hget (j + 1) (Nat.succ_lt_succ hj)
    · rw [Nat.add_assoc, Nat.add_comm 1 l.length]
      exact hend

/-- Bytes other than `0` become a string when a `0` is stored after them. -/
theorem stringAt_store (mem : ℕ → UInt8) {l : List UInt8} (h : 0 ∉ l) :
    StringAt (Function.update (store mem l) l.length 0) 0 l := by
  refine stringAt_of_getElem h ?_ ?_
  · intro j hj
    rw [Nat.zero_add, Function.update_of_ne hj.ne, store, List.getD_eq_getElem _ _ hj]
  · rw [Nat.zero_add, Function.update_self]

/-! ### Who owns the string -/

/-- What holds while the word is null: the buffer is task 1's, and what it holds is obtained and not
printed yet. -/
def Filling (s : Echo) : Prop :=
  match s.pc1 with
  | .test | .schedule | .read => s.obtained = s.printed
  | .terminate => ∃ mem chunk, s.obtained = s.printed ++ chunk ∧ 0 ∉ chunk ∧
      s.count = chunk.length ∧ s.memory .buffer = store mem chunk
  | .check | .publish => ∃ chunk, s.obtained = s.printed ++ chunk ∧
      s.count = chunk.length ∧ StringAt (s.memory .buffer) 0 chunk

/-- What holds while the word points at `p`: the string there is task 2's, from the byte on that it
prints next. -/
def Printing (s : Echo) (p : Str) : Prop :=
  ∃ rest, s.obtained = s.printed ++ rest ∧
    match s.pc2 with
    | .test | .schedule | .load => StringAt (s.memory p) 0 rest
    | .str => s.str.1 = some p ∧ StringAt (s.memory p) s.str.2 rest
    | .putchar => s.str.1 = some p ∧ StringAt (s.memory p) s.str.2 rest ∧ rest ≠ []
    | .clear => rest = []

/-- The word says which task owns the string; the other one waits for it. No byte `0` is buffered. -/
structure Owned (s : Echo) : Prop where
  wellFormed : s.rx.WellFormed
  text : 0 ∉ s.rx.contents
  filling : s.msg = none → (s.pc2 = .test ∨ s.pc2 = .schedule) ∧ Filling s
  printing : ∀ p, s.msg = some p → (s.pc1 = .test ∨ s.pc1 = .schedule) ∧ Printing s p

variable {s s' : Echo} {event : EchoEvent}

/-- A statement of task 1 keeps the string with its owner. -/
theorem Owned.task1 (h : Owned s) : Owned (task1Step s) := by
  cases hmsg : s.msg with
  | some p =>
    -- task 1 waits
    obtain ⟨hpc, hprint⟩ := h.printing p hmsg
    rcases hpc with hpc | hpc
    · have hstep : task1Step s = { s with pc1 := .schedule } := by simp [task1Step, hpc, hmsg]
      rw [hstep]
      exact ⟨h.wellFormed, h.text, fun hnull => absurd (hmsg.symm.trans hnull) (by simp),
        fun q hq => ⟨Or.inr rfl, (h.printing q hq).2⟩⟩
    · have hstep : task1Step s = { s with pc1 := .test } := by simp [task1Step, hpc]
      rw [hstep]
      exact ⟨h.wellFormed, h.text, fun hnull => absurd (hmsg.symm.trans hnull) (by simp),
        fun q hq => ⟨Or.inl rfl, (h.printing q hq).2⟩⟩
  | none =>
    obtain ⟨hwait, hfill⟩ := h.filling hmsg
    have hkeep : ∀ s' : Echo, s'.rx.WellFormed → 0 ∉ s'.rx.contents → s'.msg = none →
        s'.pc2 = s.pc2 → Filling s' → Owned s' := by
      intro s' hwell htext hnull hpc2 hfill'
      exact ⟨hwell, htext, fun _ => ⟨hpc2 ▸ hwait, hfill'⟩, fun p hp => by cases hnull.symm.trans hp⟩
    rw [Filling] at hfill
    cases hpc : s.pc1 with
    | test =>
      rw [hpc] at hfill
      have hstep : task1Step s = { s with pc1 := .read } := by simp [task1Step, hpc, hmsg]
      rw [hstep]
      exact hkeep _ h.wellFormed h.text hmsg rfl hfill
    | schedule =>
      rw [hpc] at hfill
      have hstep : task1Step s = { s with pc1 := .test } := by simp [task1Step, hpc]
      rw [hstep]
      exact hkeep _ h.wellFormed h.text hmsg rfl hfill
    | read =>
      rw [hpc] at hfill
      have heq : s.obtained = s.printed := hfill
      obtain ⟨hcount, hwell, htake, hdrop⟩ := h.wellFormed.read (bufferSize - 1)
      have hstep : task1Step s = { s with
          rx := (serialRead s.rx (bufferSize - 1)).2.2
          count := (serialRead s.rx (bufferSize - 1)).1
          memory := Function.update s.memory .buffer
            (store (s.memory .buffer) (serialRead s.rx (bufferSize - 1)).2.1)
          obtained := s.obtained ++ (serialRead s.rx (bufferSize - 1)).2.1
          pc1 := .terminate } := by simp [task1Step, hpc]
      rw [hstep]
      refine hkeep _ hwell ?_ hmsg rfl ⟨s.memory .buffer, _, by rw [← heq], ?_, ?_, ?_⟩
      · rw [hdrop]
        exact fun hmem => h.text (List.mem_of_mem_drop hmem)
      · rw [htake]
        exact fun hmem => h.text (List.mem_of_mem_take hmem)
      · rw [htake, List.length_take, RingBuffer.length_contents]
        exact hcount
      · exact Function.update_self Str.buffer _ s.memory
    | terminate =>
      rw [hpc] at hfill
      obtain ⟨mem, chunk, heq, htext, hcount, hmem⟩ := hfill
      have hstep : task1Step s = { s with
          memory := Function.update s.memory .buffer (Function.update (s.memory .buffer) s.count 0)
          pc1 := .check } := by simp [task1Step, hpc]
      rw [hstep]
      refine hkeep _ h.wellFormed h.text hmsg rfl ⟨chunk, heq, hcount, ?_⟩
      simp only [Function.update_self]
      rw [hmem, hcount]
      exact stringAt_store mem htext
    | check =>
      rw [hpc] at hfill
      obtain ⟨chunk, heq, hcount, hstr⟩ := hfill
      by_cases hzero : s.count = 0
      · have hstep : task1Step s = { s with pc1 := .test } := by simp [task1Step, hpc, hzero]
        have hnil : chunk = [] := List.length_eq_zero_iff.mp (hcount.symm.trans hzero)
        rw [hstep]
        refine hkeep _ h.wellFormed h.text hmsg rfl ?_
        rw [hnil, List.append_nil] at heq
        exact heq
      · have hstep : task1Step s = { s with pc1 := .publish } := by simp [task1Step, hpc, hzero]
        rw [hstep]
        exact hkeep _ h.wellFormed h.text hmsg rfl ⟨chunk, heq, hcount, hstr⟩
    | publish =>
      rw [hpc] at hfill
      obtain ⟨chunk, heq, -, hstr⟩ := hfill
      have hstep : task1Step s = { s with msg := some .buffer, pc1 := .test } := by
        simp [task1Step, hpc]
      rw [hstep]
      refine ⟨h.wellFormed, h.text, fun hnull => absurd hnull (by simp), ?_⟩
      rintro p hp
      cases hp
      refine ⟨Or.inl rfl, chunk, heq, ?_⟩
      rcases hwait with hpc2 | hpc2
      · simp only [hpc2]
        exact hstr
      · simp only [hpc2]
        exact hstr

/-- A statement of task 2 keeps the string with its owner. -/
theorem Owned.task2 (h : Owned s) (hstep : task2Step s = some s') : Owned s' := by
  cases hmsg : s.msg with
  | none =>
    -- task 2 waits
    obtain ⟨hpc, hfill⟩ := h.filling hmsg
    have hkeep : ∀ pc2, pc2 = .test ∨ pc2 = .schedule → Owned { s with pc2 := pc2 } :=
      fun pc2 hpc2 => ⟨h.wellFormed, h.text, fun _ => ⟨hpc2, hfill⟩,
        fun p hp => absurd (hmsg.symm.trans hp) (by simp)⟩
    rcases hpc with hpc | hpc
    · obtain rfl : { s with pc2 := .schedule } = s' := by simpa [task2Step, hpc, hmsg] using hstep
      exact hkeep _ (Or.inr rfl)
    · obtain rfl : { s with pc2 := .test } = s' := by simpa [task2Step, hpc] using hstep
      exact hkeep _ (Or.inl rfl)
  | some p =>
    obtain ⟨hwait, rest, heq, hstr⟩ := h.printing p hmsg
    have hkeep : ∀ s' : Echo, s'.rx = s.rx → s'.msg = some p → s'.pc1 = s.pc1 → Printing s' p →
        Owned s' := by
      intro s' hrx hmsg' hpc1 hprint
      refine ⟨hrx ▸ h.wellFormed, hrx ▸ h.text, fun hnull => absurd (hmsg'.symm.trans hnull) (by simp),
        fun q hq => ?_⟩
      obtain rfl : p = q := Option.some.inj (hmsg'.symm.trans hq)
      exact ⟨hpc1 ▸ hwait, hprint⟩
    cases hpc : s.pc2 with
    | test =>
      rw [hpc] at hstr
      obtain rfl : { s with pc2 := .load } = s' := by simpa [task2Step, hpc, hmsg] using hstep
      exact hkeep _ rfl hmsg rfl ⟨rest, heq, hstr⟩
    | schedule =>
      rw [hpc] at hstr
      obtain rfl : { s with pc2 := .test } = s' := by simpa [task2Step, hpc] using hstep
      exact hkeep _ rfl hmsg rfl ⟨rest, heq, hstr⟩
    | load =>
      rw [hpc] at hstr
      obtain rfl : { s with str := (s.msg, 0), pc2 := .str } = s' := by
        simpa [task2Step, hpc] using hstep
      exact hkeep _ rfl hmsg rfl ⟨rest, heq, hmsg, hstr⟩
    | str =>
      rw [hpc] at hstr
      obtain ⟨hp, hstr⟩ := hstr
      cases rest with
      | nil =>
        have hzero : s.memory p s.str.2 = 0 := hstr
        obtain rfl : { s with pc2 := .clear } = s' := by
          simpa [task2Step, hpc, hp, hzero] using hstep
        exact hkeep _ rfl hmsg rfl ⟨[], heq, rfl⟩
      | cons c rest =>
        have hchar : s.memory p s.str.2 ≠ 0 := hstr.1 ▸ hstr.2.1
        obtain rfl : { s with pc2 := .putchar } = s' := by
          simpa [task2Step, hpc, hp, hchar] using hstep
        exact hkeep _ rfl hmsg rfl ⟨c :: rest, heq, hp, hstr, List.cons_ne_nil c rest⟩
    | putchar =>
      rw [hpc] at hstr
      obtain ⟨hp, hstr, hne⟩ := hstr
      obtain ⟨c, rest, rfl⟩ := List.exists_cons_of_ne_nil hne
      obtain rfl : { s with
          printed := s.printed ++ [s.memory p s.str.2]
          str := (p, s.str.2 + 1)
          pc2 := .str } = s' := by
        simpa [task2Step, hpc, hp] using hstep
      refine hkeep _ rfl hmsg rfl ⟨rest, ?_, rfl, hstr.2.2⟩
      rw [hstr.1, List.append_assoc, List.singleton_append]
      exact heq
    | clear =>
      rw [hpc] at hstr
      obtain rfl : rest = [] := hstr
      rw [List.append_nil] at heq
      obtain rfl : { s with msg := none, pc2 := .test } = s' := by
        simpa [task2Step, hpc] using hstep
      refine ⟨h.wellFormed, h.text, fun _ => ⟨Or.inl rfl, ?_⟩, fun q hq => absurd hq (by simp)⟩
      rw [Filling]
      rcases hwait with hpc1 | hpc1
      · rw [hpc1]
        exact heq
      · rw [hpc1]
        exact heq

/-- No byte that an event adds to the receive buffer is `0`. -/
def AcceptsText (s : Echo) : EchoEvent → Prop
  | .irq data => 0 ∉ taken ringBufferCells s.rx.contents data
  | _ => True

/-- Every event keeps the string with its owner, as long as no byte `0` is accepted. -/
theorem Owned.step (h : Owned s) (htext : AcceptsText s event) (hstep : echoStep s event = some s') :
    Owned s' := by
  cases event with
  | task1 =>
    obtain rfl : task1Step s = s' := Option.some.inj hstep
    exact h.task1
  | task2 => exact h.task2 hstep
  | irq data =>
    obtain rfl := Option.some.inj hstep
    obtain ⟨hwell, hcontents⟩ := h.wellFormed.irqHandler data
    rw [foldl_offer] at hcontents
    refine ⟨hwell, ?_, h.filling, h.printing⟩
    rw [hcontents, List.mem_append, not_or]
    exact ⟨h.text, htext⟩

end Hw3

end Auos
