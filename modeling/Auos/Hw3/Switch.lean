import Auos.Lib.Ia32
import Auos.Lib.Run

/-!
# Switching stacks

`switch.S` as machine code, and the start frame that `task_new` of `scheduler.c` builds for it. A task
that is not running is a stack pointer in the field `task_state` of its `struct task`, and a
`struct task_state` on its stack, with a return address above it. Between two switches the running
task executes anything that leaves the fields and the frames of the other tasks alone, also the
stacks below these frames.

`saved` is history: the registers and the stack that a task was left with.

## Main definitions

* `taskStateSwitch`, `taskNewMem` — the source
* `StackLayout` — where the tasks and their stacks are
* `Switcher`, `SwitchRun` — runs of tasks that create and switch to one another

## Main results

* `run_taskStateSwitch` — the registers that the frame of the next task holds are loaded
* `Switcher.Inv.handle` — every step keeps the frames of the suspended tasks
* `SwitchRun.resumes` — a task goes on where it called `task_state_switch`
* `SwitchRun.starts` — a new task starts as if `task_start` had been called
-/

namespace Auos

namespace Hw3

open Ia32

/-! ### `switch.S` -/

/-- `task_state_switch`, up to the load of the stack pointer. -/
def switchSave : List Instr :=
  [.load 4 .esp .eax, .load 8 .esp .edx,
    .push .ebp, .push .ebx, .push .esi, .push .edi,
    .store .esp .eax, .mov .edx .esp]

/-- The rest of `task_state_switch`. -/
def switchRestore : List Instr := [.edi, .esi, .ebx, .ebp].map .pop ++ [.ret]

/-- `task_state_switch`. -/
def taskStateSwitch : List Instr := switchSave ++ switchRestore

/-- The first six instructions: the callee-saved registers are pushed. -/
def pushed (s : State) : State :=
  [s.reg .ebp, s.reg .ebx, s.reg .esi, s.reg .edi].foldl State.push s

/-- Memory after the store to `*old`. -/
def switchMem (s : State) : Mem := (pushed s).mem.store (s.peek 4) ((pushed s).reg .esp)

theorem pushed_esp (s : State) : (pushed s).reg .esp = s.reg .esp - 16 := pushAll_esp s _

theorem pushed_words {s : State} {ws : List Word} (h : s.mem.Words (s.reg .esp) ws)
    (hlen : ws.length < 2 ^ 10) :
    (pushed s).mem.Words (s.reg .esp - 16)
      (s.reg .edi :: s.reg .esi :: s.reg .ebx :: s.reg .ebp :: ws) := by
  rw [← pushed_esp]
  exact @State.OnTop.pushAll _ _ [_, _, _, _] h (by
    simp only [List.length_cons, List.length_nil]
    omega)

theorem pushed_apply {s : State} {b : Word} (hsp : 16 ≤ (s.reg .esp).toNat)
    (hb : b.toNat < (s.reg .esp).toNat - 16 ∨ (s.reg .esp).toNat ≤ b.toNat) :
    (pushed s).mem b = s.mem b :=
  pushAll_apply (by simp) (show 16 ≤ (b - (s.reg .esp - 16)).toNat by bv_omega)

theorem switchMem_apply {s : State} {b : Word} (hsp : 16 ≤ (s.reg .esp).toNat)
    (hb : b.toNat < (s.reg .esp).toNat - 16 ∨ (s.reg .esp).toNat ≤ b.toNat)
    (hold : 4 ≤ (b - s.peek 4).toNat) : switchMem s b = s.mem b :=
  (Mem.store_of_le hold).trans (pushed_apply hsp hb)

/-- The frame on the stack is loaded. -/
theorem run_switchRestore {s : State} {edi esi ebx ebp eip : Word}
    (h : s.mem.Words (s.reg .esp) [edi, esi, ebx, ebp, eip]) :
    (run switchRestore s).mem = s.mem ∧ (run switchRestore s).reg .edi = edi ∧
      (run switchRestore s).reg .esi = esi ∧ (run switchRestore s).reg .ebx = ebx ∧
      (run switchRestore s).reg .ebp = ebp ∧ (run switchRestore s).eip = eip ∧
      (run switchRestore s).reg .esp = s.reg .esp + 20 := by
  have hp := @State.OnTop.pops s _ [edi, esi, ebx, ebp] [.edi, .esi, .ebx, .ebp] h rfl
    (by decide)
  rw [switchRestore, run_append]
  generalize run _ s = t at hp
  have hmem : t.mem = s.mem := by rw [hp.same]
  refine ⟨hmem, ?_, ?_, ?_, ?_, hp.onTop.peek, ?_⟩
  · exact (drop_reg_of_ne t 4 .edi (by decide)).trans (hp.reg _ _ (by simp))
  · exact (drop_reg_of_ne t 4 .esi (by decide)).trans (hp.reg _ _ (by simp))
  · exact (drop_reg_of_ne t 4 .ebx (by decide)).trans (hp.reg _ _ (by simp))
  · exact (drop_reg_of_ne t 4 .ebp (by decide)).trans (hp.reg _ _ (by simp))
  · rw [run_cons, run_nil]
    refine (drop_reg_esp t 4).trans ?_
    rw [hp.esp, show [Reg.edi, .esi, .ebx, .ebp].length = 4 from rfl]
    bv_omega

/-- **The switch**: the registers that the frame of the next task holds are loaded. -/
theorem run_taskStateSwitch {s : State} {edi esi ebx ebp eip : Word}
    (h : (switchMem s).Words (s.peek 8) [edi, esi, ebx, ebp, eip]) :
    (run taskStateSwitch s).mem = switchMem s ∧ (run taskStateSwitch s).reg .edi = edi ∧
      (run taskStateSwitch s).reg .esi = esi ∧ (run taskStateSwitch s).reg .ebx = ebx ∧
      (run taskStateSwitch s).reg .ebp = ebp ∧ (run taskStateSwitch s).eip = eip ∧
      (run taskStateSwitch s).reg .esp = s.peek 8 + 20 := by
  have hmem : (run switchSave s).mem = switchMem s := rfl
  have hesp : (run switchSave s).reg .esp = s.peek 8 := rfl
  rw [← hmem, ← hesp] at h
  rw [taskStateSwitch, run_append, ← hmem, ← hesp]
  exact run_switchRestore h

/-! ### `task_new` -/

/-- The stores of `task_new`: the frame, in the order of the source, and the field `task_state`. -/
def taskNewMem (m : Mem) (taskStart task stack : Word) (size : ℕ) (fptr data : Word) : Mem :=
  let frame := stack + BitVec.ofNat 32 size - 36
  let m := (((m.store frame 0).store (frame + 4) 0).store (frame + 8) 0).store (frame + 12) 0
  let m := (m.store (frame + 20) 0).store (frame + 16) taskStart
  let m := ((m.store (frame + 24) task).store (frame + 28) fptr).store (frame + 32) data
  m.store (task + 8) frame

theorem taskNewMem_words {m : Mem} {taskStart task stack fptr data : Word} {size : ℕ}
    (hfield : ∀ b, (b - (stack + BitVec.ofNat 32 size - 36)).toNat < 36 → 4 ≤ (b - (task + 8)).toNat) :
    (taskNewMem m taskStart task stack size fptr data).Words (stack + BitVec.ofNat 32 size - 36)
      [0, 0, 0, 0, taskStart, 0, task, fptr, data] := by
  rw [taskNewMem]
  generalize stack + BitVec.ofNat 32 size - 36 = frame at hfield ⊢
  obtain ⟨ws, hlen, hws⟩ := m.exists_words frame 9
  obtain ⟨w0, w1, w2, w3, w4, w5, w6, w7, w8, rfl⟩ : ∃ w0 w1 w2 w3 w4 w5 w6 w7 w8,
      ws = [w0, w1, w2, w3, w4, w5, w6, w7, w8] := by
    match ws, hlen with
    | [w0, w1, w2, w3, w4, w5, w6, w7, w8], _ => exact ⟨w0, w1, w2, w3, w4, w5, w6, w7, w8, rfl⟩
  have h0 := hws.set (v := 0) (by simp) (i := 0) (by simp)
  have h1 := h0.set (v := 0) (by simp) (i := 1) (by simp)
  have h2 := h1.set (v := 0) (by simp) (i := 2) (by simp)
  have h3 := h2.set (v := 0) (by simp) (i := 3) (by simp)
  have h5 := h3.set (v := 0) (by simp) (i := 5) (by simp)
  have h4 := h5.set (v := taskStart) (by simp) (i := 4) (by simp)
  have h6 := h4.set (v := task) (by simp) (i := 6) (by simp)
  have h7 := h6.set (v := fptr) (by simp) (i := 7) (by simp)
  have h8 := h7.set (v := data) (by simp) (i := 8) (by simp)
  rw [show frame + BitVec.ofNat 32 (4 * 0) = frame by bv_omega] at h8
  exact h8.store (by simp) hfield

/-- `task_new` writes the frame and the field. -/
theorem taskNewMem_apply {m : Mem} {taskStart task stack fptr data b : Word} {size : ℕ}
    (hframe : 36 ≤ (b - (stack + BitVec.ofNat 32 size - 36)).toNat)
    (hfield : 4 ≤ (b - (task + 8)).toNat) :
    taskNewMem m taskStart task stack size fptr data b = m b := by
  rw [taskNewMem]
  generalize stack + BitVec.ofNat 32 size - 36 = frame at hframe ⊢
  have hoff : ∀ i : Word, i.toNat ≤ 32 → 4 ≤ (b - (frame + i)).toNat := fun i hi => by bv_omega
  have h0 : 4 ≤ (b - frame).toNat := by omega
  rw [Mem.store_of_le hfield, Mem.store_of_le (hoff 32 (by decide)),
    Mem.store_of_le (hoff 28 (by decide)), Mem.store_of_le (hoff 24 (by decide)),
    Mem.store_of_le (hoff 16 (by decide)), Mem.store_of_le (hoff 20 (by decide)),
    Mem.store_of_le (hoff 12 (by decide)), Mem.store_of_le (hoff 8 (by decide)),
    Mem.store_of_le (hoff 4 (by decide)), Mem.store_of_le h0]

/-! ### Tasks and their stacks -/

/-- Where the tasks and their stacks are. They do not overlap. -/
structure StackLayout (Task : Type*) where
  /-- The address of the `struct task`. -/
  task : Task → Word
  /-- The lowest address of the stack. -/
  stack : Task → Word
  /-- The size of the stack. -/
  size : Task → ℕ
  /-- The stack is in the address space. -/
  le : ∀ t, (stack t).toNat + size t ≤ 2 ^ 32
  /-- Two stacks have no byte in common. -/
  stacks_apart : ∀ t u b, t ≠ u → ¬((stack t).toNat ≤ b ∧ b < (stack t).toNat + size t ∧
    (stack u).toNat ≤ b ∧ b < (stack u).toNat + size u)
  /-- Neither have two fields `task_state`, which are 8 bytes from the start of the task. -/
  fields : ∀ t u b, t ≠ u → (b - (task t + 8)).toNat < 4 → 4 ≤ (b - (task u + 8)).toNat
  /-- Neither have a field and a stack. -/
  apart : ∀ t u b, (b - (task t + 8)).toNat < 4 →
    ¬((stack u).toNat ≤ b.toNat ∧ b.toNat < (stack u).toNat + size u)

namespace StackLayout

variable {Task : Type*} (L : StackLayout Task)

/-- The address of the field `task_state`. -/
def field (t : Task) : Word := L.task t + 8

/-- The byte is in the field. -/
def InField (t : Task) (b : Word) : Prop := (b - L.field t).toNat < 4

/-- The byte is on the stack. -/
def OnStack (t : Task) (b : Word) : Prop :=
  (L.stack t).toNat ≤ b.toNat ∧ b.toNat < (L.stack t).toNat + L.size t

variable {L} {t u : Task} {b : Word}

theorem OnStack.unique (h : L.OnStack t b) (h' : L.OnStack u b) : t = u := by
  by_contra hne
  exact L.stacks_apart t u b.toNat hne ⟨h.1, h.2, h'.1, h'.2⟩

theorem InField.unique (h : L.InField t b) (h' : L.InField u b) : t = u := by
  by_contra hne
  exact absurd h' (Nat.not_lt.mpr (L.fields t u b hne h))

theorem InField.not_onStack (h : L.InField t b) : ¬L.OnStack u b := L.apart t u b h

end StackLayout

/-- How a task goes on: the registers that the C code expects to find unchanged after a call, where it
returns to, and its stack from there on. -/
structure SavedContext where
  /-- The callee-saved registers. -/
  (edi esi ebx ebp : Word)
  /-- The return address. -/
  eip : Word
  /-- The stack pointer after the return. -/
  esp : Word
  /-- Memory; what matters is the stack from `esp` on. -/
  mem : Mem

/-- The context of a machine that has just called a function. -/
def contextAtCall (s : State) : SavedContext where
  edi := s.reg .edi
  esi := s.reg .esi
  ebx := s.reg .ebx
  ebp := s.reg .ebp
  eip := s.peek 0
  esp := s.reg .esp + 4
  mem := s.mem

/-- Memory holds the context of a task that does not run. -/
structure Holds {Task : Type*} (L : StackLayout Task) (m : Mem) (t : Task) (c : SavedContext) :
    Prop where
  /-- The field points to the frame. -/
  field : m.load (L.field t) = c.esp - 20
  /-- The frame holds the registers and the return address. -/
  frame : m.Words (c.esp - 20) [c.edi, c.esi, c.ebx, c.ebp, c.eip]
  /-- The frame is on the stack. -/
  low : (L.stack t).toNat + 20 ≤ c.esp.toNat
  /-- The stack goes on above it. -/
  high : c.esp.toNat ≤ (L.stack t).toNat + L.size t
  /-- The stack above is as it was. -/
  rest : ∀ b, L.OnStack t b → c.esp.toNat ≤ b.toNat → m b = c.mem b

variable {Task : Type*} {L : StackLayout Task}

/-- The context depends on the field, and on the stack from the frame on. -/
theorem Holds.congr {m m' : Mem} {t : Task} {c : SavedContext} (h : Holds L m t c)
    (hm : ∀ b, L.InField t b ∨ L.OnStack t b ∧ c.esp.toNat ≤ b.toNat + 20 → m' b = m b) :
    Holds L m' t c := by
  have hle := L.le t
  have hlow := h.low
  have hhigh := h.high
  refine ⟨?_, ?_, h.low, h.high, ?_⟩
  · rw [← h.field]
    exact Mem.load_congr fun b hb => hm b (Or.inl hb)
  · refine h.frame.congr (by simp) fun b hb => (hm b (Or.inr ?_)).symm
    simp only [List.length_cons, List.length_nil] at hb
    constructor
    · constructor <;> bv_omega
    · bv_omega
  · intro b hb hesp
    rw [hm b (Or.inr ⟨hb, by omega⟩), h.rest b hb hesp]

/-- A task that has called `task_state_switch` has its context in memory once its registers are pushed
and its field is written. -/
theorem holds_switchMem {s : State} {t : Task} (hfield : s.peek 4 = L.field t)
    (hlow : (L.stack t).toNat + 16 ≤ (s.reg .esp).toNat)
    (hhigh : (s.reg .esp).toNat + 12 ≤ (L.stack t).toNat + L.size t) :
    Holds L (switchMem s) t (contextAtCall s) := by
  have hle := L.le t
  have hstack : ∀ b : Word, (s.reg .esp).toNat - 16 ≤ b.toNat →
      b.toNat < (L.stack t).toNat + L.size t → 4 ≤ (b - s.peek 4).toNat := by
    intro b hb hb'
    rw [hfield]
    by_contra hlt
    exact StackLayout.InField.not_onStack (Nat.not_le.mp hlt) (u := t) ⟨by omega, hb'⟩
  have hesp : (s.reg .esp + 4).toNat = (s.reg .esp).toNat + 4 := by bv_omega
  have hframe : s.reg .esp + 4 - 20 = s.reg .esp - 16 := by bv_omega
  constructor
  · rw [switchMem, hfield, pushed_esp, Mem.load_store_self]
    exact hframe.symm
  · have hret : s.mem.Words (s.reg .esp) [s.peek 0] := ⟨by rw [State.peek, word_add_zero], trivial⟩
    have hwords := pushed_words hret (by simp)
    show (switchMem s).Words (s.reg .esp + 4 - 20) _
    rw [hframe]
    refine hwords.store (by simp) fun b hb => ?_
    simp only [List.length_cons, List.length_nil] at hb
    exact hstack b (by bv_omega) (by bv_omega)
  · show _ ≤ (s.reg .esp + 4).toNat
    omega
  · show (s.reg .esp + 4).toNat ≤ _
    omega
  · intro b hb hle'
    change (s.reg .esp + 4).toNat ≤ b.toNat at hle'
    exact switchMem_apply (by omega) (by omega) (hstack b (by omega) hb.2)

/-! ### The machine -/

/-- The machine, the task that runs, and the contexts of the others that have one. -/
structure Switcher (Task : Type*) where
  /-- The processor and memory. -/
  cpu : State
  /-- The running task. -/
  running : Task
  /-- What the other tasks were left with. -/
  saved : Task → Option SavedContext

/-- What the running task does. -/
inductive SwitchEvent (Task : Type*)
  /-- It executes, or takes an interrupt, up to some other state. -/
  | compute (cpu : State)
  /-- It calls `task_new`. -/
  | taskNew (task : Task) (fptr data : Word)
  /-- It has called `task_state_switch(&this->task_state, next->task_state)`. -/
  | switch (next : Task)

namespace Switcher

variable (L) (taskStart : Word)

/-- The context that `task_new` makes for a task. -/
def startContext (m : Mem) (t : Task) : SavedContext where
  edi := 0
  esi := 0
  ebx := 0
  ebp := 0
  eip := taskStart
  esp := L.stack t + BitVec.ofNat 32 (L.size t) - 36 + 20
  mem := m

/-- One event. -/
def handle [DecidableEq Task] (s : Switcher Task) : SwitchEvent Task → Option (Switcher Task)
  | .compute cpu => some { s with cpu }
  | .taskNew t fptr data =>
    let m := taskNewMem s.cpu.mem taskStart (L.task t) (L.stack t) (L.size t) fptr data
    some { s with
      cpu := { s.cpu with mem := m }
      saved := Function.update s.saved t (some (startContext L taskStart m t)) }
  | .switch next =>
    some
      { cpu := run taskStateSwitch s.cpu
        running := next
        saved := Function.update (Function.update s.saved next none) s.running
          (some (contextAtCall s.cpu)) }

/-- The byte belongs to a task that does not run: its field, and its stack from the frame on. -/
def Keeps (s : Switcher Task) (b : Word) : Prop :=
  ∃ t c, s.saved t = some c ∧ (L.InField t b ∨ L.OnStack t b ∧ c.esp.toNat ≤ b.toNat + 20)

/-- What a running task may do. It leaves the other tasks alone; it prepares a task that does not run
on a stack with room for the frame; it switches to a task that has a context, from the entry of
`task_state_switch`, with room for four words on its own stack. -/
def Allowed (s : Switcher Task) : SwitchEvent Task → Prop
  | .compute cpu => ∀ b, s.Keeps L b → cpu.mem b = s.cpu.mem b
  | .taskNew t _ _ => t ≠ s.running ∧ 36 ≤ L.size t
  | .switch next =>
    next ≠ s.running ∧ (s.saved next).isSome ∧
      s.cpu.peek 4 = L.field s.running ∧ s.cpu.peek 8 = s.cpu.mem.load (L.field next) ∧
      (L.stack s.running).toNat + 16 ≤ (s.cpu.reg .esp).toNat ∧
      (s.cpu.reg .esp).toNat + 12 ≤ (L.stack s.running).toNat + L.size s.running

/-- **The invariant**: memory holds the contexts of the tasks that do not run. -/
def Inv (s : Switcher Task) : Prop :=
  ∀ t c, s.saved t = some c → t ≠ s.running ∧ Holds L s.cpu.mem t c

variable {L taskStart} {s s' : Switcher Task} {t next : Task} {c : SavedContext}

theorem Inv.compute {cpu : State} (h : s.Inv L) (hcpu : s.Allowed L (.compute cpu)) :
    Inv L { s with cpu } := by
  intro t c hc
  obtain ⟨hne, hholds⟩ := h t c hc
  exact ⟨hne, hholds.congr fun b hb => hcpu b ⟨t, c, hc, hb⟩⟩

/-- The frame of a new task is on its stack. -/
theorem onStack_of_frame {b : Word} (hsize : 36 ≤ L.size t)
    (hb : (b - (L.stack t + BitVec.ofNat 32 (L.size t) - 36)).toNat < 36) : L.OnStack t b := by
  have hle := L.le t
  constructor <;> bv_omega

theorem holds_taskNewMem {m : Mem} (fptr data : Word) (hsize : 36 ≤ L.size t) :
    let m' := taskNewMem m taskStart (L.task t) (L.stack t) (L.size t) fptr data
    Holds L m' t (startContext L taskStart m' t) ∧
      m'.Words (startContext L taskStart m' t).esp [0, L.task t, fptr, data] := by
  intro m'
  have hle := L.le t
  have hwords : m'.Words (L.stack t + BitVec.ofNat 32 (L.size t) - 36)
      [0, 0, 0, 0, taskStart, 0, L.task t, fptr, data] := taskNewMem_words fun b hb => by
    by_contra hlt
    exact StackLayout.InField.not_onStack (Nat.not_le.mp hlt) (onStack_of_frame hsize hb)
  obtain ⟨hframe, hargs⟩ := (@Mem.words_append _ _ [0, 0, 0, 0, taskStart] _).mp hwords
  have hesp : L.stack t + BitVec.ofNat 32 (L.size t) - 36 + 20 - 20 =
      L.stack t + BitVec.ofNat 32 (L.size t) - 36 := by bv_omega
  refine ⟨⟨?_, ?_, ?_, ?_, fun _ _ _ => rfl⟩, hargs⟩
  · exact (Mem.load_store_self _ _ _).trans hesp.symm
  · show m'.Words (_ - 20) _
    rw [startContext, hesp]
    exact hframe
  · show _ ≤ (L.stack t + BitVec.ofNat 32 (L.size t) - 36 + 20).toNat
    bv_omega
  · show (L.stack t + BitVec.ofNat 32 (L.size t) - 36 + 20).toNat ≤ _
    bv_omega

theorem Inv.taskNew [DecidableEq Task] {fptr data : Word} (h : s.Inv L)
    (hallowed : s.Allowed L (.taskNew t fptr data))
    (hs : s.handle L taskStart (.taskNew t fptr data) = some s') : s'.Inv L := by
  obtain ⟨hrun, hsize⟩ := hallowed
  obtain rfl := Option.some.inj hs
  intro u c hc
  change Function.update s.saved t _ u = some c at hc
  rcases eq_or_ne u t with rfl | hne
  · rw [Function.update_self] at hc
    obtain rfl := Option.some.inj hc
    exact ⟨hrun, (holds_taskNewMem fptr data hsize).1⟩
  · rw [Function.update_of_ne hne] at hc
    obtain ⟨hrun', hholds⟩ := h u c hc
    refine ⟨hrun', hholds.congr fun b hb => ?_⟩
    refine taskNewMem_apply ?_ ?_
    · by_contra hlt
      have hon := onStack_of_frame hsize (Nat.not_le.mp hlt)
      rcases hb with hb | hb
      · exact hb.not_onStack hon
      · exact hne (hb.1.unique hon)
    · by_contra hlt
      have hin : L.InField t b := Nat.not_le.mp hlt
      rcases hb with hb | hb
      · exact hne (hb.unique hin)
      · exact hin.not_onStack hb.1

/-- The switch leaves the contexts of the other tasks in memory. -/
theorem holds_switchMem_of_ne (h : Holds L s.cpu.mem t c) (hne : t ≠ s.running)
    (hallowed : s.Allowed L (.switch next)) : Holds L (switchMem s.cpu) t c := by
  obtain ⟨-, -, hfield, -, hlow, hhigh⟩ := hallowed
  refine h.congr fun b hb => switchMem_apply (by omega) ?_ ?_
  · by_contra hlt
    have hon : L.OnStack s.running b := ⟨by omega, by omega⟩
    rcases hb with hb | hb
    · exact hb.not_onStack hon
    · exact hne (hb.1.unique hon)
  · rw [hfield]
    by_contra hlt
    have hin : L.InField s.running b := Nat.not_le.mp hlt
    rcases hb with hb | hb
    · exact hne (hb.unique hin)
    · exact hin.not_onStack hb.1

/-- The next task goes on with its context. -/
structure Resumed (L : StackLayout Task) (s : State) (t : Task) (c : SavedContext) : Prop where
  /-- The callee-saved registers. -/
  edi : s.reg .edi = c.edi
  /-- The callee-saved registers. -/
  esi : s.reg .esi = c.esi
  /-- The callee-saved registers. -/
  ebx : s.reg .ebx = c.ebx
  /-- The callee-saved registers. -/
  ebp : s.reg .ebp = c.ebp
  /-- It returns. -/
  eip : s.eip = c.eip
  /-- The return address is popped. -/
  esp : s.reg .esp = c.esp
  /-- The stack is as it was. -/
  rest : ∀ b, L.OnStack t b → c.esp.toNat ≤ b.toNat → s.mem b = c.mem b

theorem resumed_switch (hnext : Holds L s.cpu.mem next c) (hallowed : s.Allowed L (.switch next)) :
    (run taskStateSwitch s.cpu).mem = switchMem s.cpu ∧
      Resumed L (run taskStateSwitch s.cpu) next c := by
  have hafter := holds_switchMem_of_ne hnext hallowed.1 hallowed
  have hnew : s.cpu.peek 8 = c.esp - 20 := hallowed.2.2.2.1.trans hnext.field
  obtain ⟨hmem, hedi, hesi, hebx, hebp, heip, hesp⟩ :=
    run_taskStateSwitch (s := s.cpu) (by rw [hnew]; exact hafter.frame)
  refine ⟨hmem, hedi, hesi, hebx, hebp, heip, ?_, ?_⟩
  · rw [hesp, hnew]
    bv_omega
  · rw [hmem]
    exact hafter.rest

theorem Inv.switch [DecidableEq Task] (h : s.Inv L) (hallowed : s.Allowed L (.switch next))
    (hs : s.handle L taskStart (.switch next) = some s') : s'.Inv L := by
  obtain rfl := Option.some.inj hs
  have ⟨hnext, hsome, hfield, _, hlow, hhigh⟩ := hallowed
  obtain ⟨c', hc'⟩ := Option.isSome_iff_exists.mp hsome
  obtain ⟨hmem, -⟩ := resumed_switch (h next c' hc').2 hallowed
  intro t c hc
  change Function.update (Function.update s.saved next none) s.running _ t = some c at hc
  show t ≠ next ∧ Holds L (run taskStateSwitch s.cpu).mem t c
  rw [hmem]
  rcases eq_or_ne t s.running with rfl | hne
  · rw [Function.update_self] at hc
    obtain rfl := Option.some.inj hc
    exact ⟨hnext.symm, holds_switchMem hfield hlow hhigh⟩
  · rw [Function.update_of_ne hne] at hc
    rcases eq_or_ne t next with rfl | hne'
    · rw [Function.update_self] at hc
      cases hc
    · rw [Function.update_of_ne hne'] at hc
      exact ⟨hne', holds_switchMem_of_ne (h t c hc).2 hne hallowed⟩

/-- **Every step keeps the contexts** of the tasks that do not run. -/
theorem Inv.handle [DecidableEq Task] {event : SwitchEvent Task} (h : s.Inv L)
    (hallowed : s.Allowed L event) (hs : s.handle L taskStart event = some s') : s'.Inv L := by
  cases event with
  | compute cpu =>
    obtain rfl := Option.some.inj hs
    exact h.compute hallowed
  | taskNew t fptr data => exact h.taskNew hallowed hs
  | switch next => exact h.switch hallowed hs

/-- The machine as it calls `task_state_switch` for `next`, with its arguments above `esp`. -/
def callSwitch (L : StackLayout Task) (s : Switcher Task) (next : Task) (esp : Word) :
    State :=
  { s.cpu.set .esp esp with
    mem := (s.cpu.mem.store (esp + 4) (L.field s.running)).store (esp + 8)
      (s.cpu.mem.load (L.field next)) }

/-- A task with a stack can switch to any task that has a context. -/
theorem allowed_callSwitch (h : s.Inv L) {esp : Word}
    (hsome : (s.saved next).isSome) (hlow : (L.stack s.running).toNat + 16 ≤ esp.toNat)
    (hhigh : esp.toNat + 12 ≤ (L.stack s.running).toNat + L.size s.running) :
    s.Allowed L (.compute (s.callSwitch L next esp)) ∧
      { s with cpu := s.callSwitch L next esp }.Allowed L (.switch next) := by
  have hle := L.le s.running
  obtain ⟨c, hc⟩ := Option.isSome_iff_exists.mp hsome
  have hargs : ∀ b, ¬L.OnStack s.running b →
      (s.callSwitch L next esp).mem b = s.cpu.mem b := by
    intro b hb
    have hout : b.toNat < (L.stack s.running).toNat ∨
        (L.stack s.running).toNat + L.size s.running ≤ b.toNat := by
      by_contra hin
      exact hb ⟨by omega, by omega⟩
    calc (s.callSwitch L next esp).mem b
      _ = s.cpu.mem.store (esp + 4) (L.field s.running) b := Mem.store_of_le (by bv_omega)
      _ = s.cpu.mem b := Mem.store_of_le (by bv_omega)
  have hnew : (s.callSwitch L next esp).mem.load (L.field next) = s.cpu.mem.load (L.field next) :=
    Mem.load_congr fun b hb => hargs b (StackLayout.InField.not_onStack hb)
  have hesp : (s.callSwitch L next esp).reg .esp = esp := set_reg_self s.cpu esp .esp
  refine ⟨?_, (h next c hc).1, hsome, ?_, ?_, ?_, ?_⟩
  · rintro b ⟨t, c, hc, hb⟩
    refine hargs b fun hon => ?_
    rcases hb with hb | hb
    · exact hb.not_onStack hon
    · exact (h t c hc).1 (hb.1.unique hon)
  · show (s.callSwitch L next esp).mem.load (_ + 4) = _
    rw [hesp]
    exact (Mem.load_store_of_le (by bv_omega) (by bv_omega)).trans (Mem.load_store_self _ _ _)
  · show (s.callSwitch L next esp).mem.load (_ + 8) = (s.callSwitch L next esp).mem.load _
    rw [hesp, hnew]
    exact Mem.load_store_self _ _ _
  · rw [hesp]
    exact hlow
  · rw [hesp]
    exact hhigh

end Switcher

/-! ### Runs -/

variable [DecidableEq Task] {taskStart : Word} {s₀ s₁ s₁' s₂ s₂' : Switcher Task} {t next : Task}

/-- Runs of events that are `allowed` in the states they happen in. -/
abbrev SwitchRun (L : StackLayout Task) (taskStart : Word)
    (allowed : Switcher Task → SwitchEvent Task → Prop) : Switcher Task → Switcher Task → Prop :=
  Run (Switcher.handle L taskStart) allowed

/-- The event does not resume the task, or start it anew. -/
def Avoids (t : Task) : SwitchEvent Task → Prop
  | .compute _ => True
  | .taskNew u _ _ => u ≠ t
  | .switch next => next ≠ t

theorem SwitchRun.inv (run : SwitchRun L taskStart (Switcher.Allowed L) s₀ s₁)
    (h₀ : ∀ t, s₀.saved t = none) : s₁.Inv L := by
  refine run.invariant (fun t c hc => ?_) fun s event s' h hallowed hs => h.handle hallowed hs
  rw [h₀] at hc
  cases hc

/-- A task that nothing resumes keeps its context. -/
theorem SwitchRun.saved_eq {c : SavedContext} (hsaved : s₁.saved t = some c) (hinv : s₁.Inv L)
    (run : SwitchRun L taskStart (fun s event => s.Allowed L event ∧ Avoids t event) s₁ s₂) :
    s₂.saved t = some c ∧ s₂.Inv L := by
  refine run.invariant (P := fun s => s.saved t = some c ∧ s.Inv L) ⟨hsaved, hinv⟩ ?_
  rintro s event s' ⟨hc, h⟩ ⟨hallowed, havoids⟩ hs
  refine ⟨?_, h.handle hallowed hs⟩
  cases event with
  | compute cpu =>
    obtain rfl := Option.some.inj hs
    exact hc
  | taskNew u fptr data =>
    obtain rfl := Option.some.inj hs
    exact (Function.update_of_ne (Ne.symm havoids) ..).trans hc
  | switch next =>
    obtain rfl := Option.some.inj hs
    have hrun : t ≠ s.running := (h t c hc).1
    show Function.update (Function.update s.saved next none) s.running _ t = some c
    rw [Function.update_of_ne hrun, Function.update_of_ne (Ne.symm havoids), hc]

theorem resumed_of_saved {c : SavedContext} (hinv : s₂.Inv L) (hsaved : s₂.saved t = some c)
    (hin : s₂.Allowed L (.switch t)) : ∃ s₂', s₂.handle L taskStart (.switch t) = some s₂' ∧
      s₂'.running = t ∧ Switcher.Resumed L s₂'.cpu t c :=
  ⟨_, rfl, rfl, (Switcher.resumed_switch (hinv t c hsaved).2 hin).2⟩

/-- Two tasks with a page of stack each. -/
def twoStacks : StackLayout Bool where
  task t := if t then 0x1100 else 0x1000
  stack t := if t then 0x3000 else 0x2000
  size _ := 4096
  le := by decide
  stacks_apart t u b hne := by
    rcases t <;> rcases u <;> simp at hne ⊢ <;> omega
  fields t u b hne hb := by
    rcases t <;> rcases u <;> simp at hne hb ⊢ <;> bv_omega
  apart t u b hb := by
    rcases t <;> rcases u <;> simp at hb ⊢ <;> bv_omega

/-- The first task, before it creates the second. -/
def firstTask : Switcher Bool where
  cpu := ⟨fun _ => 0x2F00, 0, 8, 0, fun _ => 0⟩
  running := false
  saved _ := none

/-- **A task goes on where it left**: in any run, whatever the others do in between, the task that
called `task_state_switch` comes back with the callee-saved registers, the stack pointer and the stack
that it had at the call, at the return address. -/
theorem SwitchRun.resumes (run : SwitchRun L taskStart (Switcher.Allowed L) s₀ s₁)
    (h₀ : ∀ t, s₀.saved t = none) (hout : s₁.Allowed L (.switch next))
    (hs : s₁.handle L taskStart (.switch next) = some s₁')
    (mid : SwitchRun L taskStart (fun s event => s.Allowed L event ∧ Avoids s₁.running event) s₁' s₂)
    (hin : s₂.Allowed L (.switch s₁.running)) :
    ∃ s₂', s₂.handle L taskStart (.switch s₁.running) = some s₂' ∧ s₂'.running = s₁.running ∧
      s₂'.cpu.reg .edi = s₁.cpu.reg .edi ∧ s₂'.cpu.reg .esi = s₁.cpu.reg .esi ∧
      s₂'.cpu.reg .ebx = s₁.cpu.reg .ebx ∧ s₂'.cpu.reg .ebp = s₁.cpu.reg .ebp ∧
      s₂'.cpu.eip = s₁.cpu.mem.load (s₁.cpu.reg .esp) ∧
      s₂'.cpu.reg .esp = s₁.cpu.reg .esp + 4 ∧
      ∀ b, L.OnStack s₁.running b → (s₁.cpu.reg .esp).toNat + 4 ≤ b.toNat →
        s₂'.cpu.mem b = s₁.cpu.mem b := by
  have hinv := (run.inv h₀).handle hout hs
  have hsaved : s₁'.saved s₁.running = some (contextAtCall s₁.cpu) := by
    obtain rfl := Option.some.inj hs
    exact Function.update_self ..
  obtain ⟨hsaved₂, hinv₂⟩ := SwitchRun.saved_eq hsaved hinv mid
  obtain ⟨s₂', hs₂, hrun, hback⟩ := @resumed_of_saved _ L _ taskStart _ _ _ hinv₂ hsaved₂ hin
  refine ⟨s₂', hs₂, hrun, hback.edi, hback.esi, hback.ebx, hback.ebp, ?_, hback.esp, ?_⟩
  · rw [hback.eip, contextAtCall, State.peek, word_add_zero]
  · intro b hb hle
    refine hback.rest b hb ?_
    show (s₁.cpu.reg .esp + 4).toNat ≤ b.toNat
    have := L.le s₁.running
    have := hout.2.2.2.2.2
    bv_omega

/-- The first task creates the second, switches to it, and comes back with its stack pointer. -/
theorem SwitchRun.resumes_first : ∃ s : Switcher Bool, s.running = false ∧
    s.cpu.reg .esp = 0x2F04 := by
  have run : SwitchRun twoStacks 0x4000 (Switcher.Allowed twoStacks) firstTask firstTask := .init
  have hnew : firstTask.Allowed twoStacks (.taskNew true 0x5000 0x6000) := ⟨by decide, by decide⟩
  obtain ⟨s₀, hs₀, hrunning, hsome⟩ : ∃ s₀, firstTask.handle twoStacks 0x4000
      (.taskNew true 0x5000 0x6000) = some s₀ ∧ s₀.running = false ∧ (s₀.saved true).isSome :=
    ⟨_, rfl, rfl, rfl⟩
  have run₀ := run.step hnew hs₀
  obtain ⟨hcompute, hout⟩ := @Switcher.allowed_callSwitch _ _ _ _
    (SwitchRun.inv run₀ fun _ => rfl) 0x2F00 hsome (by rw [hrunning]; decide) (by rw [hrunning]; decide)
  have run₁ := run₀.step hcompute rfl
  obtain ⟨s₁', hs₁, hrunning₁, hsome₁⟩ : ∃ s₁', Switcher.handle twoStacks 0x4000
      { s₀ with cpu := s₀.callSwitch twoStacks true 0x2F00 } (.switch true) = some s₁' ∧
      s₁'.running = true ∧ (s₁'.saved s₀.running).isSome :=
    ⟨_, rfl, rfl, by simp⟩
  have hinv := (SwitchRun.inv run₁ fun _ => rfl).handle hout hs₁
  obtain ⟨hcompute', hin⟩ := @Switcher.allowed_callSwitch _ _ _ _ hinv 0x3F00 hsome₁
    (by rw [hrunning₁]; decide) (by rw [hrunning₁]; decide)
  obtain ⟨s₂', -, hrun, -, -, -, -, -, hesp, -⟩ := SwitchRun.resumes run₁ (fun _ => rfl) hout hs₁
    (Run.init.step ⟨hcompute', trivial⟩ rfl) hin
  exact ⟨s₂', hrun.trans hrunning, hesp.trans rfl⟩

/-- **A new task starts**: the first switch to a task that `task_new` prepared enters `task_start` as
a call would, with the task, its function and its data as arguments. -/
theorem SwitchRun.starts (run : SwitchRun L taskStart (Switcher.Allowed L) s₀ s₁)
    (h₀ : ∀ t, s₀.saved t = none) {fptr data : Word}
    (hnew : s₁.Allowed L (.taskNew t fptr data))
    (hs : s₁.handle L taskStart (.taskNew t fptr data) = some s₁')
    (mid : SwitchRun L taskStart (fun s event => s.Allowed L event ∧ Avoids t event) s₁' s₂)
    (hin : s₂.Allowed L (.switch t)) :
    ∃ s₂', s₂.handle L taskStart (.switch t) = some s₂' ∧ s₂'.running = t ∧
      s₂'.cpu.eip = taskStart ∧ s₂'.cpu.reg .ebp = 0 ∧
      s₂'.cpu.mem.Words (s₂'.cpu.reg .esp) [0, L.task t, fptr, data] := by
  have hinv := (run.inv h₀).handle hnew hs
  obtain ⟨-, hwords⟩ := @Switcher.holds_taskNewMem _ L taskStart t s₁.cpu.mem fptr data hnew.2
  obtain rfl := Option.some.inj hs
  obtain ⟨hsaved₂, hinv₂⟩ := SwitchRun.saved_eq (Function.update_self ..) hinv mid
  obtain ⟨s₂', hs₂, hrun, hback⟩ := @resumed_of_saved _ L _ taskStart _ _ _ hinv₂ hsaved₂ hin
  refine ⟨s₂', hs₂, hrun, hback.eip, hback.ebp, ?_⟩
  rw [hback.esp]
  refine hwords.congr (by simp) fun b hb => (hback.rest b ?_ ?_).symm
  all_goals
    have := L.le t
    have hsize : 36 ≤ L.size t := hnew.2
    simp only [Switcher.startContext, List.length_cons, List.length_nil] at hb ⊢
  · constructor <;> bv_omega
  · bv_omega

/-- The first task creates the second and switches to it. -/
theorem SwitchRun.starts_second : ∃ s : Switcher Bool, s.running = true ∧ s.cpu.eip = 0x4000 ∧
    s.cpu.mem.Words (s.cpu.reg .esp) [0, 0x1100, 0x5000, 0x6000] := by
  have run : SwitchRun twoStacks 0x4000 (Switcher.Allowed twoStacks) firstTask firstTask := .init
  have hnew : firstTask.Allowed twoStacks (.taskNew true 0x5000 0x6000) := ⟨by decide, by decide⟩
  obtain ⟨s₁', hs, hrunning, hsome⟩ : ∃ s₁', firstTask.handle twoStacks 0x4000
      (.taskNew true 0x5000 0x6000) = some s₁' ∧ s₁'.running = false ∧ (s₁'.saved true).isSome :=
    ⟨_, rfl, rfl, rfl⟩
  have hinv := (run.inv fun _ => rfl).handle hnew hs
  obtain ⟨hcompute, hin⟩ := @Switcher.allowed_callSwitch _ _ _ _ hinv 0x2F00 hsome
    (by rw [hrunning]; decide) (by rw [hrunning]; decide)
  obtain ⟨s₂', -, hrun, heip, -, hwords⟩ := SwitchRun.starts run (fun _ => rfl) hnew hs
    (Run.init.step ⟨hcompute, trivial⟩ rfl) hin
  exact ⟨s₂', hrun, heip, hwords⟩

end Hw3

end Auos
