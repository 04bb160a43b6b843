import Auos.Lib.Ring
import Auos.Lib.Run
import Mathlib.Data.Int.Notation

/-!
# The preemptive scheduler

`hw3/scheduler.c` with the interrupt path of `irq.c` and `time.c`, statement by statement, on the
stacks of any number of tasks. A stack is a list of frames, innermost first, each at the statement it
executes next; `exec` owns the stack the machine runs on. A stack pointer names an owner and how many
of its frames lie at or below it, so `task_state_switch` cuts the stack it enters back to the frames
that were there when the pointer was saved.

An interrupt is taken between two statements while interrupts are enabled. The handlers of other
interrupts than the timer's do not touch the scheduler. A statement that runs with interrupts disabled
in the source is one step here, also where it is a call into `list.c`. `none` reads through a null
pointer or enters a stack that is not there.

`task_new` is only called on a task that is not in use. `life` and `saved` are history: no statement
reads them.

## Main definitions

* `Machine`, `Frame` — the tasks, their stacks and the variables of the scheduler
* `Machine.scheduleStep`, `Machine.taskStartStep`, `Machine.taskNewStep`, `Machine.irqStep` — the source
* `SchedRun` — any interleaving of statements, calls and interrupts
-/

namespace Auos

namespace Hw3

open Links

/-! ### `list.c` -/

section List

variable {α : Type*} [DecidableEq α]

/-- `list_init`. -/
def listInit (L : Links α) (head : α) : Links α where
  next := Function.update L.next head head
  prev := Function.update L.prev head head

/-- `list_insert_between`: four writes, in the order of the source. -/
def listInsertBetween (L : Links α) (prev next newNode : α) : Links α where
  next := Function.update (Function.update L.next prev newNode) newNode next
  prev := Function.update (Function.update L.prev newNode prev) next newNode

/-- `list_add_tail`. -/
def listAddTail (L : Links α) (head newNode : α) : Links α :=
  listInsertBetween L (L.prev head) head newNode

/-- `list_del`; the second write reads `next` after the first. -/
def listDel (L : Links α) (node : α) : Links α :=
  let L : Links α := { L with next := Function.update L.next (L.prev node) (L.next node) }
  { L with prev := Function.update L.prev (L.next node) (L.prev node) }

/-- `list_empty`. -/
def listEmpty (L : Links α) (head : α) : Bool := decide (L.next head = head)

variable {L : Links α} {h n : α} {xs : List α}

theorem isRing_listInit (L : Links α) (head : α) : (listInit L head).IsRing head [] :=
  ⟨by simp [listInit], by simp⟩

theorem isRing_listAddTail (hr : L.IsRing h xs) (hn : n ∉ h :: xs) :
    (listAddTail L h n).IsRing h (xs ++ [n]) := by
  have hgap : L.IsRing h (xs ++ []) := by simpa using hr
  have hlast : L.prev h = xs.getLastD h := by simpa using (Path.gap xs [] hgap.1).2
  have hsplice : listAddTail L h n = L.splice (xs.getLastD h) h n := by
    rw [← hlast]
    rfl
  rw [hsplice]
  exact hgap.splice (by simpa using hn)

/-- The first write of `list_del` does not change what its second reads. -/
theorem listDel_eq_unlink (L : Links α) (n : α) : listDel L n = L.unlink n := by
  have hread : Function.update L.next (L.prev n) (L.next n) n = L.next n := by
    rcases eq_or_ne n (L.prev n) with heq | hne
    · conv_lhs => rw [← heq]
      exact Function.update_self ..
    · exact Function.update_of_ne hne _ _
  simp only [listDel, unlink, link, hread]

theorem isRing_listDel (hr : L.IsRing h (n :: xs)) : (listDel L n).IsRing h xs := by
  rw [listDel_eq_unlink]
  exact IsRing.unlink (show L.IsRing h ([] ++ n :: xs) from hr)

end List

/-! ### The machine -/

/-- `SCHEDULER_TIME_SLICE`. -/
abbrev schedulerTimeSlice : ℤ := 10

/-- `enum state`. -/
inductive TaskStatus
  | ready
  | blocked
  | finished
  deriving DecidableEq

/-- The statements of `main`. -/
inductive MainPc
  /-- Before the call of `task_start`; `task_new` may be called. -/
  | setup
  /-- `while (1)`. -/
  | spin
  deriving DecidableEq

/-- The statements of `task_start`. -/
inductive StartPc
  /-- `enable_interrupts()`. -/
  | enable
  /-- `current = this`. -/
  | current
  /-- `fptr(data)`. -/
  | call
  /-- `this->state = FINISHED`. -/
  | finish
  /-- `while (1) schedule()`. -/
  | loop
  deriving DecidableEq

/-- The statements of `task_new`. -/
inductive NewPc
  /-- The stores to `frame`. -/
  | frame
  /-- `task->task_state = &frame->state`. -/
  | taskState
  /-- `task->state = READY`. -/
  | state
  /-- The first half of `irqsave`, which reads the flags. -/
  | flags
  /-- The second half of `irqsave`, which disables interrupts. -/
  | cli
  /-- `list_add_tail(&tasks, &task->queue)`. -/
  | add
  /-- `irqrestore(flags)`. -/
  | restore
  deriving DecidableEq

/-- The statements of `schedule`. -/
inductive SchedulePc
  /-- The first half of `irqsave`, which reads the flags. -/
  | flags
  /-- The second half of `irqsave`, which disables interrupts. -/
  | cli
  /-- `if (!list_empty(&tasks))`. -/
  | test
  /-- `this = current`. -/
  | this
  /-- `if (this->state == READY) list_add_tail(&tasks, &this->queue)`. -/
  | add
  /-- `next = list_entry(tasks.next, struct task, queue)`. -/
  | next
  /-- `list_del(tasks.next)`. -/
  | del
  /-- `task_state_switch(&this->task_state, next->task_state)`. -/
  | switch
  /-- `current = this`. -/
  | current
  /-- `current->remain = SCHEDULER_TIME_SLICE`. -/
  | remain
  /-- `irqrestore(flags)`. -/
  | restore
  deriving DecidableEq

/-- The statements of `irq_raw_handler`, with those of `pit_irq_handler`. -/
inductive IrqPc
  /-- `++ticks`. -/
  | ticks
  /-- `--current->remain`. -/
  | remain
  /-- `pic_eoi(irq)`. -/
  | eoi
  /-- `if (current->remain <= 0) schedule()`. -/
  | test
  /-- The return from the interrupt. -/
  | iret
  deriving DecidableEq

/-- A frame on a stack: a function, its next statement and its local variables. -/
inductive Frame (Task : Type*)
  | main (pc : MainPc)
  /-- The function a task runs. -/
  | fptr
  | taskStart (this : Task) (pc : StartPc)
  | taskNew (task : Task) (pc : NewPc) (flags : Bool)
  | schedule (pc : SchedulePc) (flags : Bool) (this next : Option Task)
  | irq (pc : IrqPc)
  deriving DecidableEq

/-- A pointer into the stack of `owner`, with `depth` frames at or below it. -/
structure StackPtr (Task : Type*) where
  owner : Task
  depth : ℕ
  deriving DecidableEq

/-- How far a `struct task` has come. -/
inductive Life (Task : Type*)
  /-- Not in use. -/
  | unused
  /-- The task that `main` starts on its own stack. -/
  | main
  /-- `task_new` is preparing it, in a frame on the stack of `owner` above `depth` others. -/
  | building (owner : Task) (depth : ℕ)
  /-- Known to the scheduler. -/
  | live
  deriving DecidableEq

/-- The variables of the scheduler, the tasks and their stacks. -/
structure Machine (Task : Type*) where
  /-- The list nodes: `tasks` is `none`, and the field `queue` of a task is the task. -/
  links : Links (Option Task)
  /-- `current`. -/
  current : Option Task
  /-- The fields `task_state`. -/
  taskState : Task → Option (StackPtr Task)
  /-- The fields `state`. -/
  state : Task → TaskStatus
  /-- The fields `remain`. -/
  remain : Task → ℤ
  /-- `ticks`. -/
  ticks : ℕ
  /-- The interrupt flag. -/
  interrupts : Bool
  /-- The task on whose stack the machine runs. -/
  exec : Task
  /-- The stacks. -/
  stack : Task → List (Frame Task)
  /-- How far the tasks have come. -/
  life : Task → Life Task
  /-- The stack pointer of a task when it was last switched out; at first, that of its new frame. -/
  saved : Task → Option (StackPtr Task)

variable {Task : Type*} [DecidableEq Task]

namespace Machine

/-- The machine with other frames on the stack it runs on. -/
def setStack (s : Machine Task) (frames : List (Frame Task)) : Machine Task :=
  { s with stack := Function.update s.stack s.exec frames }

theorem setStack_stack (s : Machine Task) (frames : List (Frame Task)) :
    (s.setStack frames).stack = Function.update s.stack s.exec frames := rfl

/-- `task_state_switch`: the stack pointer goes to `this->task_state`, and `target` is loaded. The
frame that calls it is on the stack already, at the statement after the call. -/
def taskStateSwitch (s : Machine Task) (this : Task) (target : StackPtr Task) :
    Option (Machine Task) :=
  let sp : StackPtr Task := ⟨s.exec, (s.stack s.exec).length⟩
  let frames := s.stack target.owner
  if target.depth ≤ frames.length then
    some { s with
      taskState := Function.update s.taskState this (some sp)
      saved := Function.update s.saved s.exec (some sp)
      exec := target.owner
      stack := Function.update s.stack target.owner (frames.drop (frames.length - target.depth)) }
  else none

/-- A call of `schedule`. -/
def callSchedule (s : Machine Task) (frames : List (Frame Task)) : Machine Task :=
  s.setStack (.schedule .flags false none none :: frames)

/-- One statement of `schedule`, called above the frames `rest`. -/
def scheduleStep (s : Machine Task) (rest : List (Frame Task)) (pc : SchedulePc) (flags : Bool)
    (this next : Option Task) : Option (Machine Task) :=
  match pc with
  | .flags => some (s.setStack (.schedule .cli s.interrupts this next :: rest))
  | .cli => some ({ s with interrupts := false }.setStack (.schedule .test flags this next :: rest))
  | .test =>
    if !listEmpty s.links none then some (s.setStack (.schedule .this flags this next :: rest))
    else some (s.setStack (.schedule .restore flags this next :: rest))
  | .this => some (s.setStack (.schedule .add flags s.current next :: rest))
  | .add => do
    let t ← this
    let links := if s.state t = .ready then listAddTail s.links none (some t) else s.links
    some ({ s with links }.setStack (.schedule .next flags this next :: rest))
  | .next => some (s.setStack (.schedule .del flags this (s.links.next none) :: rest))
  | .del =>
    some ({ s with links := listDel s.links (s.links.next none) }.setStack
      (.schedule .switch flags this next :: rest))
  | .switch => do
    let t ← this
    let target ← s.taskState (← next)
    (s.setStack (.schedule .current flags this next :: rest)).taskStateSwitch t target
  | .current =>
    some ({ s with current := this }.setStack (.schedule .remain flags this next :: rest))
  | .remain => do
    let t ← s.current
    some ({ s with remain := Function.update s.remain t schedulerTimeSlice }.setStack
      (.schedule .restore flags this next :: rest))
  | .restore => some ({ s with interrupts := flags || s.interrupts }.setStack rest)

/-- One statement of `task_start`. -/
def taskStartStep (s : Machine Task) (rest : List (Frame Task)) (this : Task) :
    StartPc → Machine Task
  | .enable => { s with interrupts := true }.setStack (.taskStart this .current :: rest)
  | .current => { s with current := some this }.setStack (.taskStart this .call :: rest)
  | .call => s.setStack (.fptr :: .taskStart this .finish :: rest)
  | .finish =>
    { s with state := Function.update s.state this .finished }.setStack
      (.taskStart this .loop :: rest)
  | .loop => s.callSchedule (.taskStart this .loop :: rest)

/-- One statement of `task_new`. The frame it builds on the new stack is the one from which
`task_state_switch` returns into `task_start`. -/
def taskNewStep (s : Machine Task) (rest : List (Frame Task)) (task : Task) (flags : Bool) :
    NewPc → Machine Task
  | .frame =>
    { s with stack := Function.update s.stack task [.taskStart task .enable] }.setStack
      (.taskNew task .taskState flags :: rest)
  | .taskState =>
    { s with
      taskState := Function.update s.taskState task (some ⟨task, 1⟩)
      saved := Function.update s.saved task (some ⟨task, 1⟩) }.setStack
        (.taskNew task .state flags :: rest)
  | .state =>
    { s with state := Function.update s.state task .ready }.setStack
      (.taskNew task .flags flags :: rest)
  | .flags => s.setStack (.taskNew task .cli s.interrupts :: rest)
  | .cli => { s with interrupts := false }.setStack (.taskNew task .add flags :: rest)
  | .add =>
    { s with
      links := listAddTail s.links none (some task)
      life := Function.update s.life task .live }.setStack (.taskNew task .restore flags :: rest)
  | .restore => { s with interrupts := flags || s.interrupts }.setStack rest

/-- One statement of `irq_raw_handler`. -/
def irqStep (s : Machine Task) (rest : List (Frame Task)) : IrqPc → Option (Machine Task)
  | .ticks => some ({ s with ticks := s.ticks + 1 }.setStack (.irq .remain :: rest))
  | .remain => do
    let t ← s.current
    some ({ s with remain := Function.update s.remain t (s.remain t - 1) }.setStack
      (.irq .eoi :: rest))
  | .eoi => some (s.setStack (.irq .test :: rest))
  | .test => do
    let t ← s.current
    if s.remain t ≤ 0 then some (s.callSchedule (.irq .iret :: rest))
    else some (s.setStack (.irq .iret :: rest))
  | .iret => some ({ s with interrupts := true }.setStack rest)

/-- The state after `scheduler_setup`, in `main`, with interrupts disabled; a `struct task` that was
never written to is all zero. -/
def init (boot : Task) : Machine Task where
  links := listInit ⟨fun _ => none, fun _ => none⟩ none
  current := none
  taskState := fun _ => none
  state := fun _ => .ready
  remain := fun _ => 0
  ticks := 0
  interrupts := false
  exec := boot
  stack := Function.update (fun _ => []) boot [.main .setup]
  life := Function.update (fun _ => .unused) boot .main
  saved := fun _ => none

end Machine

/-! ### Runs -/

/-- What happens next. -/
inductive SchedEvent (Task : Type*)
  /-- The next statement of the function that runs. -/
  | step
  /-- The function of a task calls `schedule`. -/
  | schedule
  /-- The function of a task, or `main`, calls `task_new`. -/
  | taskNew (task : Task)
  /-- The function of a task returns. -/
  | ret
  /-- `main` calls `task_start` for the task whose stack is its own. -/
  | taskStart
  /-- An interrupt: the timer's or another. -/
  | interrupt (timer : Bool)
  deriving DecidableEq

namespace Machine

/-- The next statement. -/
def next (s : Machine Task) : Option (Machine Task) :=
  match s.stack s.exec with
  | .schedule pc flags this next :: rest => s.scheduleStep rest pc flags this next
  | .taskStart this pc :: rest => some (s.taskStartStep rest this pc)
  | .taskNew task pc flags :: rest => some (s.taskNewStep rest task flags pc)
  | .irq pc :: rest => s.irqStep rest pc
  | _ => none

/-- The frame that a call of `task_new` adds. -/
def callTaskNew (s : Machine Task) (task : Task) : Option (Machine Task) :=
  match s.life task with
  | .unused =>
    some ({ s with
      life := Function.update s.life task (.building s.exec (s.stack s.exec).length) }.setStack
        (.taskNew task .frame false :: s.stack s.exec))
  | _ => none

/-- One event; `none` where it cannot happen. -/
def handle (s : Machine Task) : SchedEvent Task → Option (Machine Task)
  | .step => s.next
  | .schedule =>
    match s.stack s.exec with
    | .fptr :: rest => some (s.callSchedule (.fptr :: rest))
    | _ => none
  | .taskNew task =>
    match s.stack s.exec with
    | .fptr :: _ => s.callTaskNew task
    | .main .setup :: _ => s.callTaskNew task
    | _ => none
  | .ret =>
    match s.stack s.exec with
    | .fptr :: rest => some (s.setStack rest)
    | _ => none
  | .taskStart =>
    match s.stack s.exec with
    | .main .setup :: rest =>
      some ({ s with life := Function.update s.life s.exec .live }.setStack
        (.taskStart s.exec .enable :: .main .spin :: rest))
    | _ => none
  | .interrupt timer =>
    if s.interrupts then
      some ({ s with interrupts := false }.setStack
        (.irq (if timer then .ticks else .eoi) :: s.stack s.exec))
    else none

end Machine

/-- Runs from `main` on, of events that are `allowed` in the states they happen in. -/
abbrev SchedRun (allowed : Machine Task → SchedEvent Task → Prop) (boot : Task) :
    Machine Task → Prop :=
  Run Machine.handle allowed (.init boot)

end Hw3

end Auos
