import Auos.List
import Auos.Task.Switch
import Mathlib.Data.List.Rotate

/-!
# The scheduler

`schedule_task` and `schedule` of `scheduler.c`, on the list `active` and the machine of the task
switch. The link is the first field of a task, so a node of the list is the head or a task. Which
task runs is never recorded: `schedule` finds it from the stack pointer.

## Main definitions

* `scheduleTask`, `schedule`
* `Running` — the task whose stack is in use and into whose area the processor saves
* `Scheduler.Queue` — the tasks on the list, in order
* `SchedRun` — runs from the boot task on
* `Scheduled` — the running task executes and then calls `schedule`
* `Fair` — the invariant

## Main results

* `Fair.schedule` — one call: the running task goes to the back, the first of the queue runs
* `SchedRun.fair` — the invariant holds in every reached state
* `SchedRun.roundRobin` — every task is running or queued, exactly once, and consecutive calls rotate
-/

namespace Auos

/-- A node of the list `active`. -/
inductive SchedNode
  /-- The head. -/
  | active
  /-- The link of a task. -/
  | task (t : ℕ)
deriving DecidableEq

/-- What the scheduler reads and writes. -/
structure Scheduler where
  /-- The links of the list. -/
  links : Links SchedNode
  /-- The machine. -/
  machine : Machine

/-- `schedule_task`. -/
def scheduleTask (s : Scheduler) (task : ℕ) : Scheduler :=
  { s with links := listInsertBefore s.links .active (.task task) }

/-- `schedule`. `sp` is the address of the local variable of `current_task`. -/
def schedule (s : Scheduler) (sp : ℕ) : Option Scheduler :=
  let current := currentTask sp
  match s.links.next .active with
  -- `list_empty(&active)`
  | .active => some s
  | .task next =>
    let links := listRemove s.links (.task next)
    let links := listInsertBefore links .active (.task current)
    (taskSwitch s.machine sp next).map fun machine => { links, machine }

/-! ### Which task runs and which are queued -/

/-- The stack pointer is on the stack of the task, and the processor saves into its area. -/
structure Running (m : Machine) (t : ℕ) : Prop where
  /-- It is a task. -/
  isTask : IsTask t
  /-- The processor saves into the area of the task. -/
  trBase : m.trBase = taskState t
  /-- The stack pointer is on the stack of the task. -/
  onStack : OnStack t m.context.esp

theorem Running.unique {m : Machine} {t u : ℕ} (ht : Running m t) (hu : Running m u) : t = u := by
  by_contra hne
  exact ht.isTask.taskState_ne hu.isTask hne (ht.trBase.symm.trans hu.trBase)

theorem RunsOn.running {swapperPageDir : ℕ} {m : Machine} {slot : TssSlot} {cur : ℕ}
    (h : RunsOn swapperPageDir m slot cur) : Running m cur := ⟨h.isTask, h.trBase, h.onStack⟩

/-- The tasks on the list, in order. -/
def Scheduler.Queue (s : Scheduler) (q : List ℕ) : Prop :=
  s.links.IsRing .active (q.map .task)

theorem Scheduler.Queue.nodup {s : Scheduler} {q : List ℕ} (h : s.Queue q) : q.Nodup :=
  (List.nodup_cons.mp h.2).2.of_map _

theorem task_notMem_ring {t : ℕ} {q : List ℕ} (h : t ∉ q) :
    SchedNode.task t ∉ SchedNode.active :: q.map .task := by simp [h]

/-- `schedule_task` appends. -/
theorem Scheduler.Queue.scheduleTask {s : Scheduler} {q : List ℕ} (h : s.Queue q) {t : ℕ}
    (ht : t ∉ q) : (scheduleTask s t).Queue (q ++ [t]) := by
  have hring := Links.IsRing.listInsertBefore h (task_notMem_ring ht)
  rw [Scheduler.Queue, List.map_append]
  exact hring

/-- The first task of the queue leaves it and the current one joins it at the end. -/
theorem Scheduler.Queue.rotate {s : Scheduler} {t next : ℕ} {q : List ℕ}
    (h : s.Queue (next :: q)) (ht : t ∉ q) :
    (listInsertBefore (listRemove s.links (.task next)) .active (.task t)).IsRing .active
      ((q ++ [t]).map .task) := by
  have hring : (listRemove s.links (.task next)).IsRing .active (q.map .task) :=
    Links.IsRing.listRemove h
  rw [List.map_append]
  exact Links.IsRing.listInsertBefore hring (task_notMem_ring ht)

/-! ### The invariant -/

/-- The task `cur` runs, the tasks of `q` are queued, and each of them can be resumed. -/
structure Fair (swapperPageDir : ℕ) (s : Scheduler) (cur : ℕ) (q : List ℕ) : Prop where
  /-- The running task is on one of the slots. -/
  runsOn : ∃ slot, RunsOn swapperPageDir s.machine slot cur
  /-- The list holds the queued tasks. -/
  queue : s.Queue q
  /-- The running task is not queued. -/
  notMem : cur ∉ q
  /-- The queued tasks are suspended. -/
  suspended : ∀ t ∈ q, ∃ c, Suspended swapperPageDir s.machine t c

section Steps

variable {swapperPageDir : ℕ} {s : Scheduler} {cur : ℕ} {q : List ℕ}

theorem Fair.running (h : Fair swapperPageDir s cur q) : Running s.machine cur := by
  obtain ⟨slot, hruns⟩ := h.runsOn
  exact hruns.running

theorem Fair.nodup (h : Fair swapperPageDir s cur q) : (cur :: q).Nodup :=
  List.nodup_cons.mpr ⟨h.notMem, h.queue.nodup⟩

/-- The running task executes on its stack. -/
theorem Fair.execute (h : Fair swapperPageDir s cur q) {c : Context} (hesp : OnStack cur c.esp) :
    Fair swapperPageDir { s with machine := { s.machine with context := c } } cur q := by
  obtain ⟨slot, hruns⟩ := h.runsOn
  refine ⟨⟨slot, { hruns with onStack := hesp }⟩, h.queue, h.notMem, ?_⟩
  intro t ht
  obtain ⟨d, hd⟩ := h.suspended t ht
  exact ⟨d, hd.congr rfl⟩

/-- `task_init` of a task that does not run. -/
theorem Fair.taskInit (h : Fair swapperPageDir s cur q) {task : ℕ} (entry : ℕ) (ht : IsTask task)
    (hne : task ≠ cur) :
    Fair swapperPageDir { s with machine := taskInit swapperPageDir s.machine task entry } cur q := by
  obtain ⟨slot, hruns⟩ := h.runsOn
  refine ⟨⟨slot, hruns.taskInit entry ht hne⟩, h.queue, h.notMem, ?_⟩
  intro t htq
  obtain ⟨d, hd⟩ := h.suspended t htq
  exact hd.taskInit entry ht

/-- `schedule_task` of a task that neither runs nor is queued. -/
theorem Fair.scheduleTask (h : Fair swapperPageDir s cur q) {task : ℕ} {c : Context}
    (hsusp : Suspended swapperPageDir s.machine task c) (hne : task ≠ cur) (hq : task ∉ q) :
    Fair swapperPageDir (scheduleTask s task) cur (q ++ [task]) := by
  refine ⟨h.runsOn, h.queue.scheduleTask hq, ?_, ?_⟩
  · simpa [h.notMem] using hne.symm
  · intro t ht
    rcases List.mem_append.mp ht with htq | htask
    · exact h.suspended t htq
    · obtain rfl := List.mem_singleton.mp htask
      exact ⟨c, hsusp⟩

/-- With an empty queue `schedule` returns at once. -/
theorem Fair.schedule_nil (h : Fair swapperPageDir s cur []) (sp : ℕ) : schedule s sp = some s := by
  have hnext : s.links.next .active = .active := h.queue.next_eq_iff.mpr rfl
  rw [Auos.schedule, hnext]

/-- **One call**: the first task of the queue runs and the one that ran goes to the back. -/
theorem Fair.schedule_cons {next : ℕ} (h : Fair swapperPageDir s cur (next :: q)) {sp : ℕ}
    (hle : cur ≤ sp) (hlt : sp < cur + kernelStackSize) :
    ∃ s', schedule s sp = some s' ∧ Fair swapperPageDir s' next (q ++ [cur]) := by
  obtain ⟨slot, hruns⟩ := h.runsOn
  obtain ⟨c, hc⟩ := h.suspended next List.mem_cons_self
  have hsp := hruns.isTask.currentTask_eq hle hlt
  obtain ⟨hcur, hnd⟩ := List.nodup_cons.mp h.nodup
  obtain ⟨hnext, hq⟩ := List.nodup_cons.mp hnd
  obtain ⟨hne, hcurq⟩ := List.ne_and_not_mem_of_not_mem_cons hcur
  obtain ⟨m', hm', hsw⟩ := hruns.taskSwitch hsp hne.symm hc
  have hhead : s.links.next .active = .task next := Links.IsRing.next_head h.queue
  refine ⟨⟨_, m'⟩, ?_, ⟨_, hsw.runsOn⟩, h.queue.rotate hcurq, ?_, ?_⟩
  · rw [Auos.schedule, hhead]
    dsimp only
    rw [hm', hsp]
    rfl
  · simpa [hnext] using hne.symm
  · intro t ht
    rcases List.mem_append.mp ht with htq | htcur
    · have htne : t ≠ cur := fun e => hcurq (e ▸ htq)
      have htnext : t ≠ next := fun e => hnext (e ▸ htq)
      obtain ⟨d, hd⟩ := h.suspended t (List.mem_cons_of_mem _ htq)
      exact ⟨d, hd.congr (hsw.frame t hd.isTask htne htnext)⟩
    · obtain rfl := List.mem_singleton.mp htcur
      exact ⟨_, hsw.suspended⟩

/-- One call rotates the running task and the queue together. -/
theorem Fair.schedule (h : Fair swapperPageDir s cur q) {sp : ℕ} (hle : cur ≤ sp)
    (hlt : sp < cur + kernelStackSize) :
    ∃ s' cur' q', Auos.schedule s sp = some s' ∧ Fair swapperPageDir s' cur' q' ∧
      cur' :: q' = (cur :: q).rotate 1 := by
  cases q with
  | nil => exact ⟨s, cur, [], h.schedule_nil sp, h, (List.rotate_singleton cur 1).symm⟩
  | cons next q =>
    obtain ⟨s', hs', hfair⟩ := h.schedule_cons hle hlt
    exact ⟨s', next, q ++ [cur], hs', hfair, rfl⟩

end Steps

/-! ### Runs -/

/-- A run of the scheduler from the end of `setup_swapper` on. `added` lists the boot task and the
tasks given to `schedule_task`. -/
inductive SchedRun (swapperPageDir : ℕ) : Scheduler → List ℕ → Prop
  /-- The boot task sets itself up; the list is empty. -/
  | boot {m m' : Machine} {links : Links SchedNode} {sp : ℕ} (ht : IsTask (currentTask sp))
      (hesp : OnStack (currentTask sp) m.context.esp)
      (h : setupSwapper swapperPageDir m sp = some m') (hnext : links.next .active = .active)
      (hprev : links.prev .active = .active) :
      SchedRun swapperPageDir ⟨links, m'⟩ [currentTask sp]
  /-- The running task executes. -/
  | execute {s : Scheduler} {added : List ℕ} (run : SchedRun swapperPageDir s added) {t : ℕ}
      {c : Context} (ht : Running s.machine t) (hesp : OnStack t c.esp) :
      SchedRun swapperPageDir { s with machine := { s.machine with context := c } } added
  /-- The running task prepares another task. -/
  | init {s : Scheduler} {added : List ℕ} (run : SchedRun swapperPageDir s added) {task : ℕ}
      (entry : ℕ) (ht : IsTask task) (hrun : ¬Running s.machine task) :
      SchedRun swapperPageDir
        { s with machine := taskInit swapperPageDir s.machine task entry } added
  /-- The running task adds a task that neither runs nor is queued. -/
  | add {s : Scheduler} {added : List ℕ} (run : SchedRun swapperPageDir s added)
      {task : ℕ} {c : Context} (hsusp : Suspended swapperPageDir s.machine task c)
      (hrun : ¬Running s.machine task) (hq : ∀ q, s.Queue q → task ∉ q) :
      SchedRun swapperPageDir (scheduleTask s task) (task :: added)
  /-- The running task calls `schedule`. -/
  | yield {s s' : Scheduler} {added : List ℕ} (run : SchedRun swapperPageDir s added)
      {t sp : ℕ} (ht : Running s.machine t) (hle : t ≤ sp) (hlt : sp < t + kernelStackSize)
      (h : schedule s sp = some s') : SchedRun swapperPageDir s' added

/-- The running task executes and then calls `schedule`. -/
def Scheduled (s s' : Scheduler) : Prop :=
  ∃ t c sp, Running s.machine t ∧ OnStack t c.esp ∧ t ≤ sp ∧ sp < t + kernelStackSize ∧
    schedule { s with machine := { s.machine with context := c } } sp = some s'

section Runs

variable {swapperPageDir : ℕ} {s : Scheduler}

/-- **In every reached state** the invariant holds of some running task and some queue, which are
the tasks ever added. -/
theorem SchedRun.fair {added : List ℕ} (run : SchedRun swapperPageDir s added) :
    ∃ t q, Fair swapperPageDir s t q ∧ (t :: q).Perm added := by
  induction run with
  | @boot m m' links sp ht hesp h hnext hprev =>
    obtain ⟨m'', h', hruns⟩ := exists_setupSwapper ht hesp
    obtain rfl : m' = m'' := Option.some.inj (h.symm.trans h')
    have hqueue : Scheduler.Queue ⟨links, m'⟩ [] := ⟨⟨hnext, hprev⟩, by simp⟩
    exact ⟨_, [], ⟨⟨_, hruns⟩, hqueue, by simp, by simp⟩, List.Perm.refl _⟩
  | execute run ht hesp ih =>
    obtain ⟨t, q, hfair, hperm⟩ := ih
    obtain rfl := ht.unique hfair.running
    exact ⟨_, q, hfair.execute hesp, hperm⟩
  | init run entry ht hrun ih =>
    obtain ⟨t, q, hfair, hperm⟩ := ih
    exact ⟨t, q, hfair.taskInit entry ht fun e => hrun (e ▸ hfair.running), hperm⟩
  | @add s added run task c hsusp hrun hq ih =>
    obtain ⟨t, q, hfair, hperm⟩ := ih
    refine ⟨t, q ++ [task], hfair.scheduleTask hsusp (fun e => hrun (e ▸ hfair.running))
      (hq q hfair.queue), ?_⟩
    have hlast : (t :: q ++ [task]).Perm (task :: t :: q) := List.perm_append_singleton _ _
    exact hlast.trans (hperm.cons task)
  | yield run ht hle hlt h ih =>
    obtain ⟨t, q, hfair, hperm⟩ := ih
    obtain rfl := ht.unique hfair.running
    obtain ⟨s', t', q', h', hfair', hrot⟩ := hfair.schedule hle hlt
    obtain rfl := Option.some.inj (h.symm.trans h')
    exact ⟨t', q', hfair', hrot ▸ (List.rotate_perm _ _).trans hperm⟩

/-- Consecutive calls rotate the running task and the queue together. -/
theorem Fair.scheduled {t : ℕ} {q : List ℕ} (h : Fair swapperPageDir s t q) {tr : ℕ → Scheduler}
    (h0 : tr 0 = s) {k : ℕ} (hstep : ∀ i < k, Scheduled (tr i) (tr (i + 1))) :
    ∃ t' q', Fair swapperPageDir (tr k) t' q' ∧ t' :: q' = (t :: q).rotate k := by
  induction k with
  | zero => exact ⟨t, q, h0 ▸ h, by simp⟩
  | succ k ih =>
    obtain ⟨t', q', hfair, hrot⟩ := ih fun i hi => hstep i (by omega)
    obtain ⟨u, c, sp, hu, hesp, hle, hlt, hs⟩ := hstep k (by omega)
    obtain rfl := hu.unique hfair.running
    obtain ⟨s', t'', q'', hs', hfair', hrot'⟩ := (hfair.execute hesp).schedule hle hlt
    obtain rfl := Option.some.inj (hs.symm.trans hs')
    exact ⟨t'', q'', hfair', by rw [hrot', hrot, List.rotate_rotate]⟩

/-- Which task runs after `k` calls. -/
theorem Fair.running_iff {t : ℕ} {q : List ℕ} (h : Fair swapperPageDir s t q) {tr : ℕ → Scheduler}
    (h0 : tr 0 = s) {k : ℕ} (hstep : ∀ i < k, Scheduled (tr i) (tr (i + 1))) (u : ℕ) :
    Running (tr k).machine u ↔ ((t :: q).rotate k)[0]? = some u := by
  obtain ⟨t', q', hfair, hrot⟩ := h.scheduled h0 hstep
  rw [← hrot, List.getElem?_cons_zero, Option.some.injEq]
  constructor
  · exact fun hu => hfair.running.unique hu
  · rintro rfl
    exact hfair.running

/-- In a window of as many rotations as the list is long, every element comes first once. -/
theorem existsUnique_rotate {α : Type*} {l : List α} (hnd : l.Nodup) {u : α} (hu : u ∈ l) (k : ℕ) :
    ∃! j, (k < j ∧ j ≤ k + l.length) ∧ (l.rotate j)[0]? = some u := by
  have hlen : (l.rotate (k + 1)).length = l.length := l.length_rotate (k + 1)
  have hfirst : ∀ p < l.length, (l.rotate (k + 1 + p))[0]? = (l.rotate (k + 1))[p]? := by
    intro p hp
    rw [← List.rotate_rotate, List.getElem?_rotate (by omega), Nat.zero_add,
      Nat.mod_eq_of_lt (by omega)]
  obtain ⟨p, hp, hpu⟩ := List.getElem_of_mem (List.mem_rotate.mpr hu : u ∈ l.rotate (k + 1))
  refine ⟨k + 1 + p, ⟨by omega, ?_⟩, ?_⟩
  · rw [hfirst p (by omega), List.getElem?_eq_getElem hp, hpu]
  · rintro j ⟨⟨hkj, hjk⟩, hj⟩
    have hj' : (l.rotate (k + 1))[j - (k + 1)]? = some u := by
      rw [← hfirst _ (by omega), Nat.add_sub_cancel' hkj, hj]
    obtain ⟨hlt, hval⟩ := List.getElem?_eq_some_iff.mp hj'
    have hidx := (List.nodup_rotate.mpr hnd).getElem_inj_iff.mp (hpu.trans hval.symm)
    omega

/-- **Round robin**: in every reached state each task ever added and the boot task is either the one
running task or on the queue, once, and `schedule` does not fault. Consecutive calls rotate the
running task and the queue, and in every `n + 1` consecutive calls each task runs once. -/
theorem SchedRun.roundRobin {added : List ℕ} (run : SchedRun swapperPageDir s added) :
    ∃ t₀ q, (∀ u, Running s.machine u ↔ u = t₀) ∧ s.Queue q ∧ (t₀ :: q).Nodup ∧
      (t₀ :: q).Perm added ∧
      (∀ sp, t₀ ≤ sp → sp < t₀ + kernelStackSize →
        currentTask sp = t₀ ∧ ∃ s', schedule s sp = some s') ∧
      ∀ (tr : ℕ → Scheduler) (k : ℕ), tr 0 = s →
        ((∀ i < k, Scheduled (tr i) (tr (i + 1))) → ∃ t q',
          (t₀ :: q)[k % (q.length + 1)]? = some t ∧ (∀ u, Running (tr k).machine u ↔ u = t) ∧
          (tr k).Queue q' ∧ t :: q' = (t₀ :: q).rotate k) ∧
        ((∀ i < k + (q.length + 1), Scheduled (tr i) (tr (i + 1))) → ∀ u ∈ t₀ :: q,
          ∃! j, (k < j ∧ j ≤ k + (q.length + 1)) ∧ Running (tr j).machine u) := by
  obtain ⟨t₀, q, hfair, hperm⟩ := run.fair
  have huniq : ∀ {s' : Scheduler} {t : ℕ} {q' : List ℕ}, Fair swapperPageDir s' t q' →
      ∀ u, Running s'.machine u ↔ u = t := by
    intro s' t q' h u
    constructor
    · exact fun hu => hu.unique h.running
    · rintro rfl
      exact h.running
  refine ⟨t₀, q, huniq hfair, hfair.queue, hfair.nodup, hperm, ?_, ?_⟩
  · intro sp hle hlt
    obtain ⟨s', -, -, hs', -⟩ := hfair.schedule hle hlt
    exact ⟨hfair.running.isTask.currentTask_eq hle hlt, s', hs'⟩
  intro tr k h0
  constructor
  · intro hstep
    obtain ⟨t, q', hfair', hrot⟩ := hfair.scheduled h0 hstep
    refine ⟨t, q', ?_, huniq hfair', hfair'.queue, hrot⟩
    have hhead := List.getElem?_rotate (l := t₀ :: q) (n := k) (m := 0) (by simp)
    rw [← hrot, Nat.zero_add] at hhead
    exact hhead.symm
  · intro hstep u hu
    have hiff : ∀ j, (k < j ∧ j ≤ k + (q.length + 1)) ∧ Running (tr j).machine u ↔
        (k < j ∧ j ≤ k + (t₀ :: q).length) ∧ ((t₀ :: q).rotate j)[0]? = some u := by
      intro j
      rw [List.length_cons]
      refine and_congr_right ?_
      intro hj
      exact hfair.running_iff h0 (fun i hi => hstep i (by omega)) u
    rw [existsUnique_congr hiff]
    exact existsUnique_rotate hfair.nodup hu k

end Runs

/-- The boot task starts a second one: one of the two runs and the other is queued. -/
theorem roundRobin_two : ∃ s t₀ q, SchedRun 0xC0105000 s [0xC0200000, 0xC0100000] ∧
    (∀ u, Running s.machine u ↔ u = t₀) ∧ s.Queue q ∧ (t₀ :: q).Perm [0xC0200000, 0xC0100000] := by
  have hboot : currentTask 0xC0101F00 = 0xC0100000 := by decide
  have ht : IsTask 0xC0100000 := ⟨by decide, by decide⟩
  have hu : IsTask 0xC0200000 := ⟨by decide, by decide⟩
  have hesp : OnStack 0xC0100000 0xC0101F00 := ⟨by decide, by decide⟩
  let m₀ : Machine := ⟨fun _ => 0, fun _ => blankState, { blankContext with esp := 0xC0101F00 },
    0, 0, 0, 0⟩
  obtain ⟨m₁, h₁, hruns⟩ := @exists_setupSwapper 0xC0105000 m₀ 0xC0101F00 (by rwa [hboot])
    (by rwa [hboot])
  rw [hboot] at hruns
  have hne : ∀ m, Running m 0xC0100000 → ¬Running m 0xC0200000 := by
    intro m h h'
    exact absurd (h.unique h') (by decide)
  have run₁ := @SchedRun.boot 0xC0105000 m₀ m₁ ⟨fun _ => .active, fun _ => .active⟩ 0xC0101F00
    (by rwa [hboot]) (by rwa [hboot]) h₁ rfl rfl
  rw [hboot] at run₁
  have run₂ := run₁.init 0xC0300000 hu (hne _ hruns.running)
  have hruns₂ := hruns.taskInit 0xC0300000 hu (by decide)
  have run₃ := run₂.add (suspended_taskInit _ hu) (hne _ hruns₂.running) ?_
  · obtain ⟨t₀, q, hrun, hq, -, hperm, -⟩ := run₃.roundRobin
    exact ⟨_, t₀, q, run₃, hrun, hq, hperm⟩
  · intro q hq
    have hnil : q.map SchedNode.task = [] := hq.next_eq_iff.mp rfl
    simp [List.map_eq_nil_iff.mp hnil]

end Auos
