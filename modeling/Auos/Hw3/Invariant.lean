import Auos.Hw3.Scheduler

/-!
# The invariant of the scheduler

What holds of the scheduler between any two statements. A task that is switched out waits in
`schedule` or at the entry of `task_start`, its `task_state` points at that frame, and it is queued if
it is ready (`Inv.parked`). What `current` and the queue say about the running task depends on the
statement it is at (`TopOk`): `schedule` puts them out of step and back while interrupts are disabled.
`task_start` does not: it enables interrupts before it sets `current` (`InWindow`).

A step changes the running task only (`OwnStep`), or prepares a task that is not known yet
(`BuildStep`), or switches. The lemmas here say what is left to check of a step of the first two kinds.

## Main definitions

* `Coherent` — `current`, the queue and the saved stack pointers agree with the running task
* `InWindow` — interrupts are enabled and `current` is not set
* `Inv` — the invariant, by the statement of the innermost frame

## Main results

* `Inv.goto`, `Inv.call`, `Inv.return`, `Inv.enter` — steps of the running task
* `Inv.buildStep` — steps that prepare a task
-/

namespace Auos

namespace Hw3

open Links

variable {Task : Type*}

/-! ### What has to hold -/

/-- `current` is the running task, the ready tasks that do not run are queued, once each, the running
one is not, and every `task_state` is the stack pointer the task was last switched out with. -/
structure Coherent [DecidableEq Task] (s : Machine Task) : Prop where
  current_eq : s.current = some s.exec
  queue : ∃ nodes : List Task, s.links.IsRing none (nodes.map some) ∧
    ∀ t, s.life t = .live → s.state t = .ready →
      (t = s.exec ∧ nodes.count t = 0) ∨ (t ≠ s.exec ∧ nodes.count t = 1)
  saved_eq : ∀ t, s.life t = .live → s.taskState t = s.saved t

/-- The machine is at the first statement of `schedule`. -/
def AtSchedule (s : Machine Task) : Prop :=
  ∃ flags this next rest, s.stack s.exec = .schedule .flags flags this next :: rest

/-- The machine is in `task_start`, between `enable_interrupts()` and `current = this`. -/
def InWindow (s : Machine Task) : Prop :=
  ∃ this rest, s.stack s.exec = .taskStart this .current :: rest

/-! ### The invariant -/

/-- The queue holds the ready tasks other than `n`. -/
def QueuedBut (s : Machine Task) (n : Task) : Prop :=
  ∃ nodes : List Task, s.links.IsRing none (nodes.map some) ∧
    ∀ t, t ∈ nodes ↔ (s.life t = .live ∧ s.state t = .ready) ∧ t ≠ n

/-- The running task is known to the scheduler and `current` points at it. -/
def Calm (s : Machine Task) : Prop := s.life s.exec = .live ∧ s.current = some s.exec

/-- `main` has not called `task_start` yet. -/
def Booting (s : Machine Task) : Prop :=
  s.life s.exec = .main ∧ s.interrupts = false ∧ s.current = none

/-- `main` has called `task_start`. -/
def Started (s : Machine Task) : Prop := ∀ t, s.life t ≠ .main

/-- The state between two calls: `current` and the queue agree with the running task. -/
def Quiet (s : Machine Task) : Prop := (Calm s ∨ Booting s) ∧ QueuedBut s s.exec

/-- What holds at a statement of `schedule`. -/
def ScheduleOk (s : Machine Task) (this next : Option Task) : SchedulePc → Prop
  | .flags | .cli => Calm s ∧ QueuedBut s s.exec
  | .test | .remain | .restore => Calm s ∧ QueuedBut s s.exec ∧ s.interrupts = false
  | .this => Calm s ∧ QueuedBut s s.exec ∧ s.interrupts = false ∧ s.links.next none ≠ none
  | .add => Calm s ∧ QueuedBut s s.exec ∧ s.interrupts = false ∧ s.links.next none ≠ none ∧
      this = some s.exec
  | .next => Calm s ∧ s.interrupts = false ∧ this = some s.exec ∧ ∃ n nodes, n ≠ s.exec ∧
      s.links.IsRing none ((n :: nodes).map some) ∧
      ∀ t, t ∈ n :: nodes ↔ s.life t = .live ∧ s.state t = .ready
  | .del => Calm s ∧ s.interrupts = false ∧ this = some s.exec ∧ ∃ n nodes, n ≠ s.exec ∧
      s.links.IsRing none ((n :: nodes).map some) ∧
      (∀ t, t ∈ n :: nodes ↔ s.life t = .live ∧ s.state t = .ready) ∧ next = some n
  | .switch => Calm s ∧ s.interrupts = false ∧ this = some s.exec ∧ ∃ n, n ≠ s.exec ∧
      (s.life n = .live ∧ s.state n = .ready) ∧ QueuedBut s n ∧ next = some n
  | .current => s.life s.exec = .live ∧ QueuedBut s s.exec ∧ s.interrupts = false ∧
      this = some s.exec

/-- What holds when the innermost frame is at its statement. -/
def TopOk (s : Machine Task) : Frame Task → Prop
  | .main _ | .fptr | .taskNew _ _ _ => Quiet s
  | .taskStart _ .enable => s.life s.exec = .live ∧ s.current ≠ some s.exec ∧
      QueuedBut s s.exec ∧ s.interrupts = false
  | .taskStart _ .current => s.life s.exec = .live ∧ s.current ≠ some s.exec ∧
      QueuedBut s s.exec ∧ s.interrupts = true
  | .taskStart _ _ => Calm s ∧ QueuedBut s s.exec
  | .schedule pc _ this next => ScheduleOk s this next pc
  | .irq _ => Calm s ∧ QueuedBut s s.exec

/-- What `task_new` has done for a task that is not queued yet. -/
def BuiltOk (s : Machine Task) (task : Task) : NewPc → Prop
  | .frame | .restore => True
  | .taskState => s.stack task = [.taskStart task .enable]
  | .state => s.stack task = [.taskStart task .enable] ∧ s.taskState task = some ⟨task, 1⟩
  | .flags | .cli | .add => s.stack task = [.taskStart task .enable] ∧
      s.taskState task = some ⟨task, 1⟩ ∧ s.state task = .ready

/-- What holds of a frame on the stack of `t` with `n` frames below it, whether it is innermost or
not. -/
def FrameOk (s : Machine Task) (t : Task) (n : ℕ) : Frame Task → Prop
  | .main .setup => s.life t = .main ∧ n = 0
  | .main .spin => True
  | .fptr => Started s ∧ 0 < n
  | .taskStart this pc => this = t ∧ (pc ≠ .enable → Started s)
  | .taskNew task pc flags => 0 < n ∧ (flags = true → Started s) ∧
      (pc ≠ .restore → s.life task = .building t n) ∧ BuiltOk s task pc
  | .schedule pc _ this _ => 0 < n ∧ Started s ∧ (pc = .current → this = some t)
  | .irq _ => 0 < n ∧ Started s

/-- A frame that has called another one, or was interrupted. -/
def Waits : Frame Task → Prop
  | .taskStart _ .enable | .taskStart _ .current => False
  | .schedule pc _ _ _ => pc = .flags ∨ pc = .cli
  | _ => True

/-- Every frame of a stack is in order, and those below the innermost wait. -/
def StackOk (s : Machine Task) (t : Task) : List (Frame Task) → Prop
  | [] => True
  | f :: rest => FrameOk s t rest.length f ∧ (∀ g ∈ rest.head?, Waits g) ∧ StackOk s t rest

/-- A task that is switched out: it waits in `schedule`, or to enter `task_start`, and its `task_state`
points there. -/
def Parked (s : Machine Task) (t : Task) : Prop :=
  s.taskState t = some ⟨t, (s.stack t).length⟩ ∧
    ((∃ flags next rest, s.stack t = .schedule .current flags (some t) next :: rest) ∨
      ∃ rest, s.stack t = .taskStart t .enable :: rest)

/-- The invariant. -/
structure Inv (s : Machine Task) : Prop where
  /-- Only the running task can be the one `main` is going to start. -/
  main_eq : ∀ t, s.life t = .main → t = s.exec
  exec_life : s.life s.exec = .live ∨ s.life s.exec = .main
  frames : ∀ t, StackOk s t (s.stack t)
  parked : ∀ t, s.life t = .live → s.state t = .ready → t ≠ s.exec → Parked s t
  saved_eq : ∀ t, s.taskState t = s.saved t
  top : ∃ f rest, s.stack s.exec = f :: rest ∧ TopOk s f

variable {s s' : Machine Task} {t : Task} {f f' g : Frame Task} {rest frames : List (Frame Task)}
  {n : ℕ}

/-- A task that is not queued is not in the ring of the queue. -/
theorem some_notMem {nodes : List Task} (h : t ∉ nodes) : some t ∉ none :: nodes.map some := by
  simpa using h

theorem QueuedBut.congr (h : QueuedBut s t) (hlinks : s'.links = s.links)
    (hready : ∀ u ≠ t, (s'.life u = .live ∧ s'.state u = .ready) ↔
      (s.life u = .live ∧ s.state u = .ready)) : QueuedBut s' t := by
  obtain ⟨nodes, hring, hmem⟩ := h
  exact ⟨nodes, hlinks ▸ hring, fun u => by rw [hmem, and_congr_left (hready u)]⟩

theorem Calm.started (h : Inv s) (hcalm : Calm s) : Started s := by
  intro t ht
  rw [h.main_eq t ht] at ht
  cases ht.symm.trans hcalm.1

theorem Quiet.calm (hq : Quiet s) (hs : Started s) : Calm s :=
  hq.1.resolve_right fun hboot => hs _ hboot.1

/-- A frame that waits goes on when the one above it is done. -/
theorem TopOk.of_waits (hw : Waits g) (hf : FrameOk s t n g) (hq : Quiet s) : TopOk s g := by
  cases g with
  | main pc => exact hq
  | fptr => exact hq
  | taskNew task pc flags => exact hq
  | irq pc => exact ⟨hq.calm hf.2, hq.2⟩
  | taskStart this pc =>
    cases pc with
    | enable => exact hw.elim
    | current => exact hw.elim
    | call => exact ⟨hq.calm (hf.2 nofun), hq.2⟩
    | finish => exact ⟨hq.calm (hf.2 nofun), hq.2⟩
    | loop => exact ⟨hq.calm (hf.2 nofun), hq.2⟩
  | schedule pc flags this next =>
    rcases hw with rfl | rfl
    · exact ⟨hq.calm hf.2.1, hq.2⟩
    · exact ⟨hq.calm hf.2.1, hq.2⟩

/-- While interrupts are enabled the running task waits for nothing, except in the window. -/
theorem TopOk.calm_of_interrupts (h : TopOk s f) (hon : s.interrupts = true)
    (hwindow : ∀ this, f ≠ .taskStart this .current) :
    Waits f ∧ Calm s ∧ QueuedBut s s.exec := by
  have hquiet : Quiet s → Calm s ∧ QueuedBut s s.exec := fun hq =>
    ⟨hq.1.resolve_right fun hboot => absurd (hon.symm.trans hboot.2.1) (by decide), hq.2⟩
  have hoff : s.interrupts ≠ false := by
    rw [hon]
    decide
  cases f with
  | main pc => exact ⟨trivial, hquiet h⟩
  | fptr => exact ⟨trivial, hquiet h⟩
  | taskNew task pc flags => exact ⟨trivial, hquiet h⟩
  | irq pc => exact ⟨trivial, h⟩
  | taskStart this pc =>
    cases pc with
    | enable => exact absurd h.2.2.2 hoff
    | current => exact absurd rfl (hwindow this)
    | call => exact ⟨trivial, h⟩
    | finish => exact ⟨trivial, h⟩
    | loop => exact ⟨trivial, h⟩
  | schedule pc flags this next =>
    cases pc with
    | flags => exact ⟨Or.inl rfl, h⟩
    | cli => exact ⟨Or.inr rfl, h⟩
    | test => exact absurd h.2.2 hoff
    | this => exact absurd h.2.2.1 hoff
    | add => exact absurd h.2.2.1 hoff
    | next => exact absurd h.2.1 hoff
    | del => exact absurd h.2.1 hoff
    | switch => exact absurd h.2.1 hoff
    | current => exact absurd h.2.2.1 hoff
    | remain => exact absurd h.2.2 hoff
    | restore => exact absurd h.2.2 hoff

theorem Inv.topOk (h : Inv s) (hs : s.stack s.exec = f :: rest) : TopOk s f := by
  obtain ⟨g, rest', heq, htop⟩ := h.top
  obtain rfl : f = g := (List.cons.inj (hs.symm.trans heq)).1
  exact htop

/-- In the window interrupts are enabled and `current` is another task, or null. -/
theorem Inv.of_inWindow (h : Inv s) (hwindow : InWindow s) :
    s.interrupts = true ∧ s.current ≠ some s.exec := by
  obtain ⟨this, rest, hs⟩ := hwindow
  obtain ⟨-, hcur, -, hon⟩ := h.topOk hs
  exact ⟨hon, hcur⟩

/-! ### Frames that a step does not touch -/

/-- Nothing changes about a task that `task_new` is preparing. -/
def SameTask (s s' : Machine Task) (task : Task) : Prop :=
  s'.life task = s.life task ∧ s'.stack task = s.stack task ∧
    s'.taskState task = s.taskState task ∧ s'.state task = s.state task

theorem BuiltOk.congr {task : Task} {pc : NewPc} (h : BuiltOk s task pc) (hsame : SameTask s s' task) :
    BuiltOk s' task pc := by
  obtain ⟨-, hstack, hts, hstate⟩ := hsame
  cases pc <;> simp only [BuiltOk, hstack, hts, hstate] at h ⊢ <;> exact h

theorem FrameOk.congr (h : FrameOk s t n f) (hstart : Started s → Started s')
    (hmain : s.life t = .main → s'.life t = .main)
    (hsame : ∀ task, s.life task = .building t n → SameTask s s' task) : FrameOk s' t n f := by
  cases f with
  | main pc =>
    cases pc with
    | setup => exact ⟨hmain h.1, h.2⟩
    | spin => trivial
  | fptr => exact ⟨hstart h.1, h.2⟩
  | taskStart this pc => exact ⟨h.1, fun hpc => hstart (h.2 hpc)⟩
  | taskNew task pc flags =>
    obtain ⟨hn, hflags, hlife, hbuilt⟩ := h
    refine ⟨hn, fun hf => hstart (hflags hf), fun hpc => ?_, ?_⟩
    · rw [(hsame task (hlife hpc)).1]
      exact hlife hpc
    · by_cases hpc : pc = .restore
      · subst hpc
        trivial
      · exact hbuilt.congr (hsame task (hlife hpc))
  | schedule pc flags this next => exact ⟨h.1, hstart h.2.1, h.2.2⟩
  | irq pc => exact ⟨h.1, hstart h.2⟩

theorem StackOk.congr (h : StackOk s t frames) (hstart : Started s → Started s')
    (hmain : s.life t = .main → s'.life t = .main)
    (hsame : ∀ task d, d < frames.length → s.life task = .building t d → SameTask s s' task) :
    StackOk s' t frames := by
  induction frames with
  | nil => trivial
  | cons f rest ih =>
    obtain ⟨hf, hw, hrest⟩ := h
    refine ⟨hf.congr hstart hmain fun task => hsame task _ (Nat.lt_succ_self _), hw,
      ih hrest fun task d hd => hsame task d (hd.trans (Nat.lt_succ_self _))⟩

/-- The new stack of a task that has not run. -/
theorem stackOk_enable (s : Machine Task) (task : Task) : StackOk s task [.taskStart task .enable] :=
  ⟨⟨rfl, fun hpc => absurd rfl hpc⟩, by simp, trivial⟩

/-- A task that `task_new` is preparing does not run. -/
theorem Inv.ne_exec (h : Inv s) {task owner : Task} {d : ℕ} (hb : s.life task = .building owner d) :
    task ≠ s.exec := by
  rintro rfl
  rcases h.exec_life with hl | hl
  · cases hb.symm.trans hl
  · cases hb.symm.trans hl

theorem Inv.frameOk (h : Inv s) (hs : s.stack s.exec = f :: rest) :
    FrameOk s s.exec rest.length f := by
  have hstack := h.frames s.exec
  rw [hs] at hstack
  exact hstack.1

/-! ### Steps of the running task -/

variable [DecidableEq Task]

/-- A step that changes no other task than the running one, and leaves `frames` on its stack. -/
structure OwnStep (s s' : Machine Task) (frames : List (Frame Task)) : Prop where
  exec : s'.exec = s.exec
  life : s'.life = s.life
  taskState : s'.taskState = s.taskState
  saved : s'.saved = s.saved
  state : ∀ t ≠ s.exec, s'.state t = s.state t
  stack : s'.stack = Function.update s.stack s.exec frames

/-- A step that writes to the variables of the scheduler and to the running stack. -/
theorem OwnStep.of_setStack (s : Machine Task) {links : Links (Option Task)} {current : Option Task}
    {remain : Task → ℤ} {ticks : ℕ} {interrupts : Bool} :
    OwnStep s ({ s with links, current, remain, ticks, interrupts }.setStack frames) frames :=
  ⟨rfl, rfl, rfl, rfl, fun _ _ => rfl, rfl⟩

theorem OwnStep.stackOk (hstep : OwnStep s s' frames) (h : Inv s) {l : List (Frame Task)}
    (hl : StackOk s t l) : StackOk s' t l := by
  refine hl.congr ?_ (fun ht => by rw [hstep.life]; exact ht) fun task d _ hb => ?_
  · intro hs u
    rw [hstep.life]
    exact hs u
  · have hne := h.ne_exec hb
    exact ⟨by rw [hstep.life], by rw [hstep.stack, Function.update_of_ne hne],
      by rw [hstep.taskState], hstep.state task hne⟩

theorem Inv.ownStep (h : Inv s) (hstep : OwnStep s s' frames) (hframes : StackOk s' s.exec frames)
    (htop : ∃ f rest, frames = f :: rest ∧ TopOk s' f) : Inv s' where
  main_eq := by
    intro t ht
    rw [hstep.life] at ht
    rw [hstep.exec]
    exact h.main_eq t ht
  exec_life := by
    rw [hstep.exec, hstep.life]
    exact h.exec_life
  frames := by
    intro t
    rw [hstep.stack]
    rcases eq_or_ne t s.exec with rfl | hne
    · rw [Function.update_self]
      exact hframes
    · rw [Function.update_of_ne hne]
      exact hstep.stackOk h (h.frames t)
  parked := by
    intro t hlive hready hne
    rw [hstep.exec] at hne
    rw [hstep.life] at hlive
    rw [hstep.state t hne] at hready
    have hpark := h.parked t hlive hready hne
    rw [Parked, hstep.taskState, hstep.stack, Function.update_of_ne hne]
    exact hpark
  saved_eq := by
    intro t
    rw [hstep.taskState, hstep.saved]
    exact h.saved_eq t
  top := by
    rw [hstep.exec, hstep.stack, Function.update_self]
    exact htop

/-- The innermost frame goes to another statement. -/
theorem Inv.goto (h : Inv s) (hs : s.stack s.exec = f :: rest) (hstep : OwnStep s s' (f' :: rest))
    (hf : FrameOk s' s.exec rest.length f') (htop : TopOk s' f') : Inv s' := by
  have hstack := h.frames s.exec
  rw [hs] at hstack
  exact h.ownStep hstep ⟨hf, hstack.2.1, hstep.stackOk h hstack.2.2⟩ ⟨f', rest, rfl, htop⟩

/-- The innermost frame calls another function. -/
theorem Inv.call (h : Inv s) (hs : s.stack s.exec = f :: rest)
    (hstep : OwnStep s s' (g :: f' :: rest)) (hg : FrameOk s' s.exec (rest.length + 1) g)
    (hf : FrameOk s' s.exec rest.length f') (hw : Waits f') (htop : TopOk s' g) : Inv s' := by
  have hstack := h.frames s.exec
  rw [hs] at hstack
  refine h.ownStep hstep ⟨hg, ?_, hf, hstack.2.1, hstep.stackOk h hstack.2.2⟩ ⟨g, _, rfl, htop⟩
  rintro _ ⟨⟩
  exact hw

/-- The innermost frame returns. -/
theorem Inv.return (h : Inv s) (hs : s.stack s.exec = f :: rest) (hstep : OwnStep s s' rest)
    (hne : 0 < rest.length) (hq : Quiet s') : Inv s' := by
  have hstack := h.frames s.exec
  rw [hs] at hstack
  have hrest := hstep.stackOk h hstack.2.2
  obtain ⟨g, rest', rfl⟩ := List.exists_cons_of_length_pos hne
  exact h.ownStep hstep hrest ⟨g, rest', rfl, .of_waits (hstack.2.1 g rfl) hrest.1 hq⟩

/-- Another function is entered above the innermost frame. -/
theorem Inv.enter (h : Inv s) (hs : s.stack s.exec = f :: rest)
    (hstep : OwnStep s s' (g :: s.stack s.exec)) (hg : FrameOk s' s.exec (s.stack s.exec).length g)
    (hw : Waits f) (htop : TopOk s' g) : Inv s' := by
  refine h.ownStep hstep ⟨hg, ?_, hstep.stackOk h (h.frames s.exec)⟩ ⟨g, _, rfl, htop⟩
  rw [hs]
  rintro _ ⟨⟩
  exact hw

/-! ### Steps that prepare a task -/

/-- A step that prepares `task`, changes no other task than it and the running one, and leaves
`frames` on the stack of the running one. -/
structure BuildStep (s s' : Machine Task) (task : Task) (frames : List (Frame Task)) : Prop where
  exec : s'.exec = s.exec
  life : ∀ t ≠ task, s'.life t = s.life t
  taskState : ∀ t ≠ task, s'.taskState t = s.taskState t
  saved : ∀ t ≠ task, s'.saved t = s.saved t
  state : ∀ t ≠ task, s'.state t = s.state t
  stack : ∀ t ≠ task, s'.stack t = Function.update s.stack s.exec frames t
  main : s'.life task ≠ .main

theorem BuildStep.started {task : Task} (hstep : BuildStep s s' task frames) (hs : Started s) :
    Started s' := by
  intro t
  rcases eq_or_ne t task with rfl | hne
  · exact hstep.main
  · rw [hstep.life t hne]
    exact hs t

theorem Inv.buildStep {task : Task} {low : List (Frame Task)} (h : Inv s)
    (hstep : BuildStep s s' task frames) (htask : task ≠ s.exec)
    (hlife : ∀ t d, s.life task = .building t d → t = s.exec ∧ low.length ≤ d)
    (hlow : StackOk s s.exec low) (hframes : StackOk s' s.exec low → StackOk s' s.exec frames)
    (hstack : StackOk s' task (s.stack task) → StackOk s' task (s'.stack task))
    (hpark : s'.life task = .live → s'.state task = .ready → Parked s' task)
    (hsaved : s'.taskState task = s'.saved task)
    (htop : ∃ f rest, frames = f :: rest ∧ TopOk s' f) : Inv s' := by
  have hmain : ∀ t, s.life t = .main → s'.life t = .main := by
    intro t ht
    rw [hstep.life t fun heq => htask (heq ▸ h.main_eq t ht)]
    exact ht
  -- the frames that prepare other tasks
  have hsame : ∀ t l, (t = s.exec → l.length ≤ low.length) → StackOk s t l → StackOk s' t l := by
    intro t l hl ht
    refine ht.congr hstep.started (hmain t) fun task' d hd hb => ?_
    have hne : task' ≠ task := by
      rintro rfl
      obtain ⟨heq, hle⟩ := hlife t d hb
      exact absurd (hd.trans_le (hl heq)) (not_lt.mpr hle)
    exact ⟨hstep.life _ hne, by rw [hstep.stack _ hne, Function.update_of_ne (h.ne_exec hb)],
      hstep.taskState _ hne, hstep.state _ hne⟩
  constructor
  · intro t ht
    rw [hstep.exec]
    rcases eq_or_ne t task with rfl | hne
    · exact absurd ht hstep.main
    · exact h.main_eq t (hstep.life t hne ▸ ht)
  · rw [hstep.exec, hstep.life _ htask.symm]
    exact h.exec_life
  · intro t
    rcases eq_or_ne t task with rfl | hne
    · exact hstack (hsame _ _ (fun heq => absurd heq htask) (h.frames t))
    rw [hstep.stack t hne]
    rcases eq_or_ne t s.exec with rfl | hte
    · rw [Function.update_self]
      exact hframes (hsame _ _ (fun _ => le_rfl) hlow)
    · rw [Function.update_of_ne hte]
      exact hsame _ _ (fun heq => absurd heq hte) (h.frames t)
  · intro t hlive hready hte
    rcases eq_or_ne t task with rfl | hne
    · exact hpark hlive hready
    rw [hstep.exec] at hte
    rw [hstep.life t hne] at hlive
    rw [hstep.state t hne] at hready
    rw [Parked, hstep.taskState t hne, hstep.stack t hne, Function.update_of_ne hte]
    exact h.parked t hlive hready hte
  · intro t
    rcases eq_or_ne t task with rfl | hne
    · exact hsaved
    · rw [hstep.taskState t hne, hstep.saved t hne]
      exact h.saved_eq t
  · obtain ⟨f, rest, rfl, hf⟩ := htop
    refine ⟨f, rest, ?_, hf⟩
    rw [hstep.exec, hstep.stack _ htask.symm, Function.update_self]

end Hw3

end Auos
