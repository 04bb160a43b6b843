import Auos.Kernel
import Auos.Task.Gdt
import Mathlib.Logic.Function.Basic

/-!
# Task switching

`setup_swapper`, `task_init` and `task_switch` of `setup.c`, over a machine that has what a hardware
task switch reads and writes: the descriptor table, the task register with its cached base, the
registers that a switch saves and loads, and the state areas of the tasks. A state area is a record
at its address; tasks are blocks of `KERNEL_STACK_SIZE` aligned bytes, so their areas do not overlap.

The processor's part is `farJump`: it saves the registers in the area of the task being left, frees
its descriptor, and loads the target's registers from the area that the target's descriptor names. It
faults (`none`) unless that descriptor is a free task-state descriptor. It does not write `prev_tss`.

## Main definitions

* `farJump`, `loadTr` — the processor
* `setupSwapper`, `taskInit`, `taskSwitchPrepare`, `taskSwitch` — the kernel
* `TssSlot` — the two descriptors that tasks run on by turns
* `TaskRun` — runs, with the running task and the contexts of the suspended ones
* `RunsOn` — the invariant

## Main results

* `RunsOn.taskSwitch` — one switch: the slots change places, the saved context is loaded
* `TaskRun.runsOn` — the invariant holds in every reached state
* `TaskRun.taskSwitch_correct` — no switch touches the descriptor in use or faults, and every task
  resumes with the context it was left with
-/

namespace Auos

/-! ### State areas and the machine -/

/-- The registers that a hardware task switch saves and loads. -/
structure Context where
  /-- The instruction pointer and the flags. -/
  (eip eflags : ℕ)
  /-- The general registers; `esp` is the stack pointer. -/
  (eax ecx edx ebx esp ebp esi edi : ℕ)
  /-- The segment selectors. -/
  (es cs ss ds fs gs : ℕ)

/-- `struct task_state`: the saved registers and the fields that a switch only reads or ignores. -/
structure TaskState extends Context where
  /-- The back link. The kernel keeps the selector of the other slot here. -/
  prevTss : ℕ
  /-- The stacks of the inner rings. -/
  (ring0Esp ring0Ss ring1Esp ring1Ss ring2Esp ring2Ss : ℕ)
  /-- The page directory. -/
  cr3 : ℕ
  /-- The local descriptor table. -/
  lds : ℕ
  /-- The debug trap flag and the offset of the I/O permission map. -/
  (trap iopb : ℕ)

/-- All registers zero. -/
def blankContext : Context := ⟨0, 0, 0, 0, 0, 0, 0, 0, 0, 0, 0, 0, 0, 0, 0, 0⟩

/-- `memset(state, 0, sizeof(*state))`. -/
def blankState : TaskState := ⟨blankContext, 0, 0, 0, 0, 0, 0, 0, 0, 0, 0, 0⟩

/-- What task switching reads and writes. -/
structure Machine where
  /-- The descriptor table. -/
  gdt : ℕ → ℕ
  /-- The state area at an address. -/
  states : ℕ → TaskState
  /-- The running context. -/
  context : Context
  /-- The page directory in use. -/
  cr3 : ℕ
  /-- The local descriptor table in use. -/
  ldtr : ℕ
  /-- The selector in the task register. -/
  tr : ℕ
  /-- The base that the processor cached when it loaded the task register. -/
  trBase : ℕ

/-! ### The processor -/

/-- Load the task register, as `ltr` does. -/
def loadTr (m : Machine) (sel : ℕ) : Option Machine :=
  let e := m.gdt (gdtEntry sel)
  if IsFreeTss e then
    some { m with
      gdt := Function.update m.gdt (gdtEntry sel) (markBusy e)
      tr := sel
      trBase := descriptorBase e }
  else none

/-- A far jump to a task-state selector. -/
def farJump (m : Machine) (sel : ℕ) : Option Machine :=
  let e := m.gdt (gdtEntry sel)
  if IsFreeTss e then
    let states := Function.update m.states m.trBase
      { m.states m.trBase with toContext := m.context }
    let gdt := Function.update m.gdt (gdtEntry m.tr) (markFree (m.gdt (gdtEntry m.tr)))
    let target := states (descriptorBase e)
    some
      { gdt := Function.update gdt (gdtEntry sel) (markBusy e)
        states := states
        context := target.toContext
        cr3 := target.cr3
        ldtr := target.lds
        tr := sel
        trBase := descriptorBase e }
  else none

theorem loadTr_of_free {m : Machine} {sel : ℕ} (h : IsFreeTss (m.gdt (gdtEntry sel))) :
    loadTr m sel = some { m with
      gdt := Function.update m.gdt (gdtEntry sel) (markBusy (m.gdt (gdtEntry sel)))
      tr := sel
      trBase := descriptorBase (m.gdt (gdtEntry sel)) } := if_pos h

theorem farJump_of_free {m : Machine} {sel : ℕ} (h : IsFreeTss (m.gdt (gdtEntry sel))) :
    farJump m sel =
      let states := Function.update m.states m.trBase
        { m.states m.trBase with toContext := m.context }
      let gdt := Function.update m.gdt (gdtEntry m.tr) (markFree (m.gdt (gdtEntry m.tr)))
      let target := states (descriptorBase (m.gdt (gdtEntry sel)))
      some
        { gdt := Function.update gdt (gdtEntry sel) (markBusy (m.gdt (gdtEntry sel)))
          states := states
          context := target.toContext
          cr3 := target.cr3
          ldtr := target.lds
          tr := sel
          trBase := descriptorBase (m.gdt (gdtEntry sel)) } := if_pos h

/-! ### `task.h` and `setup.c` -/

/-- `KERNEL_STACK_SIZE`, which is also `KERNEL_STACK_ALIGN`. -/
abbrev kernelStackSize : ℕ := 8192

/-- `sizeof(struct task)`: two pointers and the task number. -/
abbrev sizeofTask : ℕ := 12

/-- `sizeof(struct task_state)`: 25 words and two half words. -/
abbrev sizeofTaskState : ℕ := 104

/-- `KERNEL_DATA_SELECTOR`. -/
abbrev kernelDataSelector : ℕ := gdtSelector 2

/-- `current_task`, where `sp` is the address of its local variable. -/
def currentTask (sp : ℕ) : ℕ := sp &&& wnot (kernelStackSize - 1)

/-- `task_state`. -/
def taskState (task : ℕ) : ℕ := wadd task sizeofTask

/-- `task_stack`. -/
def taskStack (task : ℕ) : ℕ := wadd task kernelStackSize

section Code

variable (swapperPageDir : ℕ)

/-- The area that `setup_swapper` gives the boot task. -/
def swapperState : TaskState :=
  { blankState with prevTss := tss2Selector, cr3 := physAddr swapperPageDir }

/-- `setup_swapper`. -/
def setupSwapper (m : Machine) (sp : ℕ) : Option Machine :=
  let state := taskState (currentTask sp)
  loadTr
    { m with
      states := Function.update m.states state (swapperState swapperPageDir)
      gdt := Function.update m.gdt tss1Entry
        (initGdtSegment sizeofTaskState state freeTssType) }
    tss1Selector

/-- The area that `task_init` gives a task. -/
def initialState (task entry : ℕ) : TaskState :=
  { blankState with
    esp := taskStack task
    ss := kernelDataSelector
    ds := kernelDataSelector
    es := kernelDataSelector
    fs := kernelDataSelector
    gs := kernelDataSelector
    cs := kernelCodeSelector
    eip := entry
    cr3 := physAddr swapperPageDir }

/-- `task_init`. -/
def taskInit (m : Machine) (task entry : ℕ) : Machine :=
  { m with
    states := Function.update m.states (taskState task) (initialState swapperPageDir task entry) }

end Code

/-- `task_switch` up to the far jump, with the selector it jumps to. -/
def taskSwitchPrepare (m : Machine) (sp next : ℕ) : Machine × ℕ :=
  let tss := (m.states (taskState (currentTask sp))).prevTss % 2 ^ 16
  let state := taskState next
  let m :=
    { m with
      gdt := Function.update m.gdt (gdtEntry tss)
        (initGdtSegment sizeofTaskState state freeTssType) }
  if tss = tss1Selector then
    ({ m with
        states := Function.update m.states state { m.states state with prevTss := tss2Selector } },
      tss1Selector)
  else
    ({ m with
        states := Function.update m.states state { m.states state with prevTss := tss1Selector } },
      tss2Selector)

/-- `task_switch`. `sp` is the address of the local variable of `current_task`. -/
def taskSwitch (m : Machine) (sp next : ℕ) : Option Machine :=
  farJump (taskSwitchPrepare m sp next).1 (taskSwitchPrepare m sp next).2

/-! ### Tasks and their stacks -/

/-- A block that can hold a task and its stack. -/
structure IsTask (t : ℕ) : Prop where
  /-- The block is aligned to its size. -/
  dvd : kernelStackSize ∣ t
  /-- The block does not reach the end of the address space. -/
  lt : t + kernelStackSize < 2 ^ 32

theorem IsTask.taskState_eq {t : ℕ} (h : IsTask t) : taskState t = t + 12 := by
  have hlt : t + 8192 < 2 ^ 32 := h.lt
  exact wadd_of_lt (show t + 12 < 2 ^ 32 by omega)

theorem taskState_lt (t : ℕ) : taskState t < 2 ^ 32 := wrap_lt _

theorem IsTask.taskStack_eq {t : ℕ} (h : IsTask t) : taskStack t = t + kernelStackSize :=
  wadd_of_lt h.lt

theorem IsTask.taskState_ne {t u : ℕ} (ht : IsTask t) (hu : IsTask u) (hne : t ≠ u) :
    taskState t ≠ taskState u := by
  rw [ht.taskState_eq, hu.taskState_eq]
  omega

/-- Every address in the block of a task leads `current_task` to the task. -/
theorem IsTask.currentTask_eq {t sp : ℕ} (h : IsTask t) (hle : t ≤ sp)
    (hlt : sp < t + kernelStackSize) : currentTask sp = t := by
  have ht : t + 8192 < 2 ^ 32 := h.lt
  have hsp : sp < t + 8192 := hlt
  obtain ⟨k, hk⟩ := h.dvd
  have hk' : t = 8192 * k := hk
  rw [currentTask, show kernelStackSize - 1 = 2 ^ 13 - 1 from rfl, and_wnot (by omega) (by omega)]
  omega

/-! ### The two slots -/

/-- The two descriptors that tasks run on by turns. -/
inductive TssSlot
  /-- `TSS1_ENTRY`. -/
  | tss1
  /-- `TSS2_ENTRY`. -/
  | tss2
deriving DecidableEq

namespace TssSlot

/-- The index of the descriptor. -/
def entry : TssSlot → ℕ
  | tss1 => tss1Entry
  | tss2 => tss2Entry

/-- The selector of the descriptor. -/
def selector (s : TssSlot) : ℕ := gdtSelector s.entry

/-- The slot that is not this one. -/
def other : TssSlot → TssSlot
  | tss1 => tss2
  | tss2 => tss1

@[simp] theorem gdtEntry_selector (s : TssSlot) : gdtEntry s.selector = s.entry := by
  cases s <;> rfl

@[simp] theorem other_other (s : TssSlot) : s.other.other = s := by cases s <;> rfl

theorem entry_other_ne (s : TssSlot) : s.other.entry ≠ s.entry := by cases s <;> decide

theorem selector_mod (s : TssSlot) : s.selector % 2 ^ 16 = s.selector := by cases s <;> rfl

end TssSlot

/-! ### The invariant -/

/-- A stack pointer that leaves room for the stack of the task. -/
def OnStack (t esp : ℕ) : Prop := t ≤ esp ∧ esp ≤ t + kernelStackSize

/-- The area of a suspended task holds the context `c` it will resume with. -/
structure Suspended (swapperPageDir : ℕ) (m : Machine) (t : ℕ) (c : Context) : Prop where
  /-- It is a task. -/
  isTask : IsTask t
  /-- The saved registers are those of `c`. -/
  context : (m.states (taskState t)).toContext = c
  /-- It runs in the address space of the kernel. -/
  cr3 : (m.states (taskState t)).cr3 = physAddr swapperPageDir
  /-- It resumes on its own stack. -/
  onStack : OnStack t c.esp

/-- The task `cur` runs on the slot `slot`. -/
structure RunsOn (swapperPageDir : ℕ) (m : Machine) (slot : TssSlot) (cur : ℕ) : Prop where
  /-- It is a task. -/
  isTask : IsTask cur
  /-- The task register names the slot. -/
  tr : m.tr = slot.selector
  /-- The processor saves into the area of the task. -/
  trBase : m.trBase = taskState cur
  /-- The descriptor of the slot describes that area. -/
  base : descriptorBase (m.gdt slot.entry) = taskState cur
  /-- The descriptor is busy. -/
  busy : IsBusyTss (m.gdt slot.entry)
  /-- The back link of the task names the other slot. -/
  prevTss : (m.states (taskState cur)).prevTss = slot.other.selector
  /-- It runs in the address space of the kernel. -/
  cr3 : (m.states (taskState cur)).cr3 = physAddr swapperPageDir
  /-- The stack pointer is on the stack of the task. -/
  onStack : OnStack cur m.context.esp

section Steps

variable {swapperPageDir : ℕ} {m : Machine} {slot : TssSlot} {cur : ℕ}

/-- A suspended task depends only on its area. -/
theorem Suspended.congr {m' : Machine} {t : ℕ} {c : Context} (h : Suspended swapperPageDir m t c)
    (hst : m'.states (taskState t) = m.states (taskState t)) : Suspended swapperPageDir m' t c :=
  ⟨h.isTask, hst ▸ h.context, hst ▸ h.cr3, h.onStack⟩

/-- `setup_swapper` puts the boot task on the first slot. -/
theorem exists_setupSwapper {sp : ℕ} (ht : IsTask (currentTask sp))
    (hesp : OnStack (currentTask sp) m.context.esp) :
    ∃ m', setupSwapper swapperPageDir m sp = some m' ∧
      RunsOn swapperPageDir m' .tss1 (currentTask sp) := by
  have hlt := taskState_lt (currentTask sp)
  have hfree := isFreeTss_initGdtSegment hlt
  have hbase := descriptorBase_initGdtSegment hlt
  have hentry : gdtEntry tss1Selector = tss1Entry := rfl
  refine ⟨_, loadTr_of_free ?_, ?_⟩
  · simpa [hentry] using hfree
  · exact
      { isTask := ht
        tr := rfl
        trBase := by simpa [hentry] using hbase
        base := by simpa [hentry, TssSlot.entry, descriptorBase_markBusy] using hbase
        busy := by simpa [hentry, TssSlot.entry] using hfree.isBusyTss_markBusy
        prevTss := by simp [swapperState, TssSlot.other, TssSlot.selector, TssSlot.entry]
        cr3 := by simp [swapperState]
        onStack := hesp }

theorem onStack_taskStack {task : ℕ} (h : IsTask task) : OnStack task (taskStack task) := by
  rw [h.taskStack_eq]
  exact ⟨Nat.le_add_right _ _, le_rfl⟩

/-- `task_init` suspends the task with the context it sets up. -/
theorem suspended_taskInit {task : ℕ} (entry : ℕ) (ht : IsTask task) :
    Suspended swapperPageDir (taskInit swapperPageDir m task entry) task
      (initialState swapperPageDir task entry).toContext := by
  have hst : (taskInit swapperPageDir m task entry).states (taskState task) =
    initialState swapperPageDir task entry := Function.update_self _ _ _
  exact ⟨ht, by rw [hst], by rw [hst]; rfl, onStack_taskStack ht⟩

theorem taskInit_states_of_ne {task t : ℕ} (entry : ℕ) (h : taskState t ≠ taskState task) :
    (taskInit swapperPageDir m task entry).states (taskState t) = m.states (taskState t) :=
  Function.update_of_ne h _ _

theorem Suspended.taskInit_of_ne {task t : ℕ} {c : Context} (h : Suspended swapperPageDir m t c)
    (entry : ℕ) (ht : IsTask task) (hne : t ≠ task) :
    Suspended swapperPageDir (taskInit swapperPageDir m task entry) t c :=
  h.congr (taskInit_states_of_ne entry (h.isTask.taskState_ne ht hne))

/-- Setting up a task leaves every task suspended. -/
theorem Suspended.taskInit {task t : ℕ} {c : Context} (h : Suspended swapperPageDir m t c)
    (entry : ℕ) (ht : IsTask task) :
    ∃ c', Suspended swapperPageDir (taskInit swapperPageDir m task entry) t c' := by
  by_cases htask : t = task
  · subst htask
    exact ⟨_, suspended_taskInit entry ht⟩
  · exact ⟨c, h.taskInit_of_ne entry ht htask⟩

/-- Setting up a task leaves the running one alone. -/
theorem RunsOn.taskInit (h : RunsOn swapperPageDir m slot cur) {task : ℕ} (entry : ℕ)
    (ht : IsTask task) (hne : task ≠ cur) :
    RunsOn swapperPageDir (taskInit swapperPageDir m task entry) slot cur := by
  have hst : (Auos.taskInit swapperPageDir m task entry).states (taskState cur) =
      m.states (taskState cur) :=
    taskInit_states_of_ne entry (h.isTask.taskState_ne ht hne.symm)
  exact { h with prevTss := by rw [hst, h.prevTss], cr3 := by rw [hst, h.cr3] }

/-- `task_switch` builds the descriptor of the other slot for the next task, tells the next task the
slot being left, and jumps to the other slot. -/
theorem RunsOn.taskSwitchPrepare_eq (h : RunsOn swapperPageDir m slot cur) {sp next : ℕ}
    (hsp : currentTask sp = cur) :
    taskSwitchPrepare m sp next =
      ({ m with
          gdt := Function.update m.gdt slot.other.entry
            (initGdtSegment sizeofTaskState (taskState next) freeTssType)
          states := Function.update m.states (taskState next)
            { m.states (taskState next) with prevTss := slot.selector } },
        slot.other.selector) := by
  rw [taskSwitchPrepare, hsp, h.prevTss, TssSlot.selector_mod]
  cases slot <;> rfl

/-- What one `task_switch` from `cur` to `next` does. -/
structure SwitchedTo (swapperPageDir : ℕ) (m m' : Machine) (slot : TssSlot) (cur next : ℕ)
    (c : Context) : Prop where
  /-- The next task runs on the other slot. -/
  runsOn : RunsOn swapperPageDir m' slot.other next
  /-- It resumes with its saved context. -/
  context : m'.context = c
  /-- It runs in the address space of the kernel. -/
  cr3 : m'.cr3 = physAddr swapperPageDir
  /-- The task that was left is suspended with the context it had. -/
  suspended : Suspended swapperPageDir m' cur m.context
  /-- The areas of all other tasks are unchanged. -/
  frame : ∀ t, IsTask t → t ≠ cur → t ≠ next → m'.states (taskState t) = m.states (taskState t)

/-- **One switch**: the processor does not fault and the slots change places. -/
theorem RunsOn.taskSwitch (h : RunsOn swapperPageDir m slot cur) {sp next : ℕ} {c : Context}
    (hsp : currentTask sp = cur) (hne : next ≠ cur)
    (hnext : Suspended swapperPageDir m next c) :
    ∃ m', taskSwitch m sp next = some m' ∧ SwitchedTo swapperPageDir m m' slot cur next c := by
  have hfree := isFreeTss_initGdtSegment (taskState_lt next)
  have hbase := descriptorBase_initGdtSegment (taskState_lt next)
  have hstate : taskState next ≠ taskState cur := hnext.isTask.taskState_ne h.isTask hne
  have hslots : slot.entry ≠ slot.other.entry := slot.entry_other_ne.symm
  rw [Auos.taskSwitch, h.taskSwitchPrepare_eq hsp]
  refine ⟨_, farJump_of_free ?_, ?_⟩
  · simpa using hfree
  -- The area loaded is that of `next`, which the saving of `cur` does not touch.
  simp only [TssSlot.gdtEntry_selector, h.tr, h.trBase, Function.update_self, hbase,
    Function.update_of_ne hstate, Function.update_of_ne hstate.symm]
  refine { runsOn := ?_, context := hnext.context, cr3 := hnext.cr3, suspended := ?_, frame := ?_ }
  · exact
      { isTask := hnext.isTask
        tr := rfl
        trBase := rfl
        base := by simpa [descriptorBase_markBusy] using hbase
        busy := by simpa using hfree.isBusyTss_markBusy
        prevTss := by simp [Function.update_of_ne hstate]
        cr3 := by simpa [Function.update_of_ne hstate] using hnext.cr3
        onStack := by simpa [hnext.context] using hnext.onStack }
  · exact
      { isTask := h.isTask
        context := by simp
        cr3 := by simpa using h.cr3
        onStack := h.onStack }
  · intro t ht hcur hnx
    have h1 := ht.taskState_ne h.isTask hcur
    have h2 := ht.taskState_ne hnext.isTask hnx
    simp [Function.update_of_ne h1, Function.update_of_ne h2]

end Steps

/-! ### Runs -/

/-- A run after `setup_swapper`, with the running task and the context each suspended task was left
with: by its last switch, or by `task_init`. In between, the running task executes on its stack. -/
inductive TaskRun (swapperPageDir : ℕ) : Machine → ℕ → (ℕ → Option Context) → Prop
  /-- The boot task sets itself up. -/
  | boot {m m' : Machine} {sp : ℕ} (ht : IsTask (currentTask sp))
      (hesp : OnStack (currentTask sp) m.context.esp)
      (h : setupSwapper swapperPageDir m sp = some m') :
      TaskRun swapperPageDir m' (currentTask sp) fun _ => none
  /-- The running task executes. -/
  | execute {m : Machine} {cur : ℕ} {saved : ℕ → Option Context}
      (run : TaskRun swapperPageDir m cur saved) {c : Context} (hesp : OnStack cur c.esp) :
      TaskRun swapperPageDir { m with context := c } cur saved
  /-- The running task prepares another task. -/
  | init {m : Machine} {cur : ℕ} {saved : ℕ → Option Context}
      (run : TaskRun swapperPageDir m cur saved) {task : ℕ} (entry : ℕ) (ht : IsTask task)
      (hne : task ≠ cur) :
      TaskRun swapperPageDir (taskInit swapperPageDir m task entry) cur
        (Function.update saved task (some (initialState swapperPageDir task entry).toContext))
  /-- The running task switches to another one. -/
  | switch {m m' : Machine} {cur : ℕ} {saved : ℕ → Option Context}
      (run : TaskRun swapperPageDir m cur saved) {sp next : ℕ} {c : Context} (hle : cur ≤ sp)
      (hlt : sp < cur + kernelStackSize) (hne : next ≠ cur) (hnext : saved next = some c)
      (h : taskSwitch m sp next = some m') :
      TaskRun swapperPageDir m' next (Function.update saved cur (some m.context))

section Runs

variable {swapperPageDir : ℕ} {m : Machine} {cur : ℕ} {saved : ℕ → Option Context}

/-- **In every reached state** the running task runs on a slot and the others are suspended. -/
theorem TaskRun.runsOn (run : TaskRun swapperPageDir m cur saved) :
    (∃ slot, RunsOn swapperPageDir m slot cur) ∧
      ∀ t c, t ≠ cur → saved t = some c → Suspended swapperPageDir m t c := by
  induction run with
  | boot ht hesp h =>
    obtain ⟨m', h', hruns⟩ := exists_setupSwapper ht hesp
    obtain rfl : _ = m' := Option.some.inj (h.symm.trans h')
    exact ⟨⟨_, hruns⟩, by simp⟩
  | execute run hesp ih =>
    obtain ⟨⟨slot, hruns⟩, hsusp⟩ := ih
    refine ⟨⟨slot, { hruns with onStack := hesp }⟩, ?_⟩
    intro t c ht hc
    exact { hsusp t c ht hc with }
  | @init m cur saved run task entry ht hne ih =>
    obtain ⟨⟨slot, hruns⟩, hsusp⟩ := ih
    refine ⟨⟨slot, hruns.taskInit entry ht hne⟩, ?_⟩
    intro t c htc hc
    by_cases htask : t = task
    · subst htask
      obtain rfl : (initialState swapperPageDir t entry).toContext = c := by simpa using hc
      exact suspended_taskInit entry ht
    · rw [Function.update_of_ne htask] at hc
      exact (hsusp t c htc hc).taskInit_of_ne entry ht htask
  | @switch m m' cur saved run sp next c hle hlt hne hnext h ih =>
    obtain ⟨⟨slot, hruns⟩, hsusp⟩ := ih
    have hsp := hruns.isTask.currentTask_eq hle hlt
    obtain ⟨m'', h', hsw⟩ := hruns.taskSwitch hsp hne (hsusp next c hne hnext)
    obtain rfl : m' = m'' := Option.some.inj (h.symm.trans h')
    refine ⟨⟨_, hsw.runsOn⟩, ?_⟩
    intro t d ht hd
    by_cases htc : t = cur
    · subst htc
      obtain rfl : m.context = d := by simpa using hd
      exact hsw.suspended
    · rw [Function.update_of_ne htc] at hd
      have hold := hsusp t d htc hd
      have hst := hsw.frame t hold.isTask htc ht
      exact hold.congr hst

/-- **Task switching is sound**: in every reached state the task register names one of the two
slots, its descriptor describes the running task and is busy, and the running task remembers the
other slot. Hence `task_switch` leaves the descriptor in use alone, jumps to a free one that
describes the next task, and the next task resumes with the context it was left with. -/
theorem TaskRun.taskSwitch_correct (run : TaskRun swapperPageDir m cur saved) :
    (∃ slot : TssSlot, m.tr = slot.selector ∧
      descriptorBase (m.gdt slot.entry) = taskState cur ∧ IsBusyTss (m.gdt slot.entry) ∧
      (m.states (taskState cur)).prevTss = slot.other.selector) ∧
    ∀ sp, cur ≤ sp → sp < cur + kernelStackSize → currentTask sp = cur ∧
      ∀ next c, next ≠ cur → saved next = some c →
        (taskSwitchPrepare m sp next).1.gdt (gdtEntry m.tr) = m.gdt (gdtEntry m.tr) ∧
        IsFreeTss ((taskSwitchPrepare m sp next).1.gdt
          (gdtEntry (taskSwitchPrepare m sp next).2)) ∧
        descriptorBase ((taskSwitchPrepare m sp next).1.gdt
          (gdtEntry (taskSwitchPrepare m sp next).2)) = taskState next ∧
        ∃ m', taskSwitch m sp next = some m' ∧ m'.context = c ∧
          m'.cr3 = physAddr swapperPageDir := by
  obtain ⟨⟨slot, hruns⟩, hsusp⟩ := run.runsOn
  refine ⟨⟨slot, hruns.tr, hruns.base, hruns.busy, hruns.prevTss⟩, ?_⟩
  intro sp hle hlt
  have hsp := hruns.isTask.currentTask_eq hle hlt
  refine ⟨hsp, ?_⟩
  intro next c hne hnext
  have hprep := @RunsOn.taskSwitchPrepare_eq _ _ _ _ hruns sp next hsp
  have hlt' := taskState_lt next
  rw [hprep]
  refine ⟨?_, ?_, ?_, ?_⟩
  · rw [hruns.tr, slot.gdtEntry_selector]
    exact Function.update_of_ne slot.entry_other_ne.symm _ _
  · simpa using isFreeTss_initGdtSegment hlt'
  · simpa using descriptorBase_initGdtSegment hlt'
  · obtain ⟨m', h, hsw⟩ := hruns.taskSwitch hsp hne (hsusp next c hne hnext)
    exact ⟨m', h, hsw.context, hsw.cr3⟩

end Runs

/-- The boot task prepares a task and switches to it, which starts it at its entry point. -/
theorem taskSwitch_correct_first : ∃ m saved,
    TaskRun 0xC0105000 m 0xC0100000 saved ∧
      ∃ m', taskSwitch m 0xC0101F00 0xC0200000 = some m' ∧ m'.context.eip = 0xC0300000 := by
  have hboot : currentTask 0xC0101F00 = 0xC0100000 := by decide
  have ht : IsTask 0xC0100000 := ⟨by decide, by decide⟩
  have hu : IsTask 0xC0200000 := ⟨by decide, by decide⟩
  have hesp : OnStack 0xC0100000 0xC0101F00 := ⟨by decide, by decide⟩
  let m₀ : Machine := ⟨fun _ => 0, fun _ => blankState, { blankContext with esp := 0xC0101F00 },
    0, 0, 0, 0⟩
  obtain ⟨m₁, h₁, -⟩ := @exists_setupSwapper 0xC0105000 m₀ 0xC0101F00 (by rwa [hboot])
    (by rwa [hboot])
  have run₁ := TaskRun.boot (by rwa [hboot]) (by rwa [hboot]) h₁
  rw [hboot] at run₁
  have run₂ := run₁.init 0xC0300000 hu (by decide)
  obtain ⟨-, hswitch⟩ := run₂.taskSwitch_correct
  obtain ⟨-, -, -, m', h, hc, -⟩ := (hswitch 0xC0101F00 (by decide) (by decide)).2 0xC0200000 _
    (by decide) (Function.update_self _ _ _)
  exact ⟨_, _, run₂, m', h, by rw [hc]; rfl⟩

end Auos
