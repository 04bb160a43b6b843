import Auos.Task.Alloc
import Auos.Task.Scheduler

/-!
# The tasks of the kernel

`start_kernel` of `start.c`, from the page allocator to the scheduler: `alloc_task` allocates a task,
`task_init` prepares it and `schedule_task` puts it on the list; from then on the boot task and the new
one call `schedule` by turns. In a run any number of tasks is started, by whichever task runs, and other
clients use the page allocator.

`alloc_task` must not return memory of a task that runs. For the tasks that it has returned before, the
page allocator sees to that; the boot task, which lies in the kernel, is safe as long as its own frames
were not given to the allocator.

## Main definitions

* `Kernel`, `Kernel.startTask` — the calls of `start_kernel`
* `KernelRun` — the runs

## Main results

* `KernelRun.fair` — the tasks that were started and the boot task take turns
* `KernelRun.tasks_run` — so `schedule` does not fault, and every task runs
* `startKernel_alternates` — the two tasks of `start_kernel`
-/

namespace Auos

/-- The page allocator, memory, and the scheduler with the machine, which keeps the states of the tasks
apart from the rest of memory. -/
structure Kernel where
  node : PageListData
  mem : Memory
  sched : Scheduler

/-- `alloc_task`, `task_init` and `schedule_task`, with the task. It is `none` where the assertion of
`alloc_task` fails. -/
def Kernel.startTask (swapperPageDir : ℕ) (s : Kernel) (entry : ℕ) : Option (Kernel × ℕ) := do
  let (node, mem, task) ← allocTask s.node s.mem
  let machine := taskInit swapperPageDir s.sched.machine task entry
  some (⟨node, mem, scheduleTask { s.sched with machine } task⟩, task)

section Runs

variable (swapperPageDir : ℕ) (node : PageListData) (startPfn endPfn : ℕ) (freed : Set ℕ) (swapper : ℕ)

/-- The runs from any reached state of the page allocator, and any state of the scheduler that has only
the boot task. The lists are the blocks of the other clients and the tasks that were started. -/
inductive KernelRun : List (ℕ × ℕ) → List ℕ → Kernel → Prop
  | boot {others : List (ℕ × ℕ)} {s : Kernel} :
      ZoneRun node .normal startPfn endPfn freed others s.node →
      SchedRun swapperPageDir s.sched [swapper] → KernelRun others [] s
  | startTask {others : List (ℕ × ℕ)} {tasks : List ℕ} {s s' : Kernel} {entry task : ℕ} :
      KernelRun others tasks s → s.startTask swapperPageDir entry = some (s', task) →
      KernelRun others (task :: tasks) s'
  /-- The running task executes, and then calls `schedule`. -/
  | schedule {others : List (ℕ × ℕ)} {tasks : List ℕ} {s : Kernel} {sched : Scheduler} :
      KernelRun others tasks s → Scheduled s.sched sched → KernelRun others tasks { s with sched }
  | alloc {others : List (ℕ × ℕ)} {tasks : List ℕ} {s : Kernel} {node' : PageListData}
      {order flags : ℕ} {ret : Option ℕ} :
      KernelRun others tasks s → allocPages s.node order flags = some (node', ret) →
      KernelRun (ret.toList.map (·, order) ++ others) tasks { s with node := node' }
  | free {others : List (ℕ × ℕ)} {tasks : List ℕ} {s : Kernel} {node' : PageListData}
      {page order : ℕ} :
      KernelRun others tasks s → (page, order) ∈ others →
      freePages s.node page order = some node' →
      KernelRun (others.erase (page, order)) tasks { s with node := node' }
  | write {others : List (ℕ × ℕ)} {tasks : List ℕ} {s : Kernel} (mem : Memory) :
      KernelRun others tasks s → KernelRun others tasks { s with mem }

end Runs

variable {swapperPageDir startPfn endPfn swapper entry task cur : ℕ} {node node' : PageListData}
  {freed : Set ℕ} {others : List (ℕ × ℕ)} {tasks q : List ℕ} {s s' : Kernel} {sched sched' : Scheduler}
  {c : Context}

/-! ### Starting a task -/

/-- The tasks of the allocator are different from one another and from the boot task. -/
theorem TaskAllocRun.nodup_append {m : PageListData} {mem : Memory}
    (run : TaskAllocRun node startPfn endPfn freed others tasks m mem) (h0 : node.startPfn = 0)
    (hle : startPfn ≤ endPfn) (hend : endPfn ≤ lowmemPageFrames)
    (hswapper : Disjoint (frames (pageOfAddress swapper, kernelStackOrder)) freed) :
    (tasks ++ [swapper]).Nodup := by
  rw [List.nodup_append_comm, List.singleton_append, List.nodup_cons]
  refine ⟨fun hmem => ?_, run.nodup_tasks h0 hle hend⟩
  have hpage : pageOfAddress swapper ∈ frames (pageOfAddress swapper, kernelStackOrder) :=
    ⟨le_rfl, Nat.lt_add_of_pos_right (Nat.two_pow_pos _)⟩
  exact Set.disjoint_left.mp hswapper hpage ((run.task_frames h0 hle hend hmem).2 hpage)

theorem Kernel.startTask_eq_some : s.startTask swapperPageDir entry = some (s', task) ↔
    ∃ node mem, allocTask s.node s.mem = some (node, mem, task) ∧
      s' = ⟨node, mem, scheduleTask { s.sched with
        machine := taskInit swapperPageDir s.sched.machine task entry } task⟩ := by
  rw [Kernel.startTask, Option.bind_eq_bind, Option.bind_eq_some_iff]
  constructor
  · rintro ⟨⟨node, mem, t⟩, halloc, heq⟩
    cases heq
    exact ⟨node, mem, halloc, rfl⟩
  · rintro ⟨node, mem, halloc, rfl⟩
    exact ⟨_, halloc, rfl⟩

/-- A new task joins the queue. -/
theorem Fair.startTask (h : Fair swapperPageDir sched cur q) (ht : IsTask task) (hne : task ≠ cur)
    (hq : task ∉ q) : Fair swapperPageDir (Auos.scheduleTask { sched with
      machine := Auos.taskInit swapperPageDir sched.machine task entry } task) cur (q ++ [task]) :=
  (h.taskInit entry ht hne).scheduleTask (suspended_taskInit entry ht) hne hq

namespace KernelRun

/-- What the run is for the page allocator. -/
theorem taskAllocRun
    (run : KernelRun swapperPageDir node startPfn endPfn freed swapper others tasks s) :
    TaskAllocRun node startPfn endPfn freed others tasks s.node s.mem := by
  induction run with
  | boot hzone _ => exact .start _ hzone
  | startTask _ hstart ih =>
    obtain ⟨node', mem', halloc, rfl⟩ := Kernel.startTask_eq_some.mp hstart
    exact ih.allocTask halloc
  | schedule _ _ ih => exact ih
  | alloc _ hret ih => exact ih.alloc hret
  | free _ hmem hret ih => exact ih.free hmem hret
  | write mem _ ih => exact ih.write mem

/-- **The tasks that were started and the boot task take turns**: one of them runs, and the others are
queued. -/
theorem fair (run : KernelRun swapperPageDir node startPfn endPfn freed swapper others tasks s)
    (h0 : node.startPfn = 0) (hle : startPfn ≤ endPfn) (hend : endPfn ≤ lowmemPageFrames)
    (hswapper : Disjoint (frames (pageOfAddress swapper, kernelStackOrder)) freed) :
    ∃ t q, Fair swapperPageDir s.sched t q ∧ (t :: q).Perm (tasks ++ [swapper]) := by
  induction run with
  | boot _ hsched => exact hsched.fair
  | @startTask others tasks s s' entry task run hstart ih =>
    obtain ⟨t, q, hfair, hperm⟩ := ih
    have halloc := (run.startTask hstart).taskAllocRun
    obtain ⟨htask, -⟩ := halloc.task_frames h0 hle hend List.mem_cons_self
    have hnd := halloc.nodup_append h0 hle hend hswapper
    -- the new task is none of those that take turns
    have hnew : task ∉ t :: q := fun hmem => (List.nodup_cons.mp hnd).1 (hperm.mem_iff.mp hmem)
    obtain ⟨hne, hq⟩ := List.ne_and_not_mem_of_not_mem_cons hnew
    obtain ⟨node', mem', -, rfl⟩ := Kernel.startTask_eq_some.mp hstart
    refine ⟨t, q ++ [task], hfair.startTask htask hne hq, ?_⟩
    have hlast : (t :: q ++ [task]).Perm (task :: t :: q) := List.perm_append_singleton _ _
    exact hlast.trans (hperm.cons task)
  | schedule run hs ih =>
    obtain ⟨t, q, hfair, hperm⟩ := ih
    obtain ⟨u, c, sp, hu, hesp, hlow, hhigh, hs⟩ := hs
    obtain rfl := hu.unique hfair.running
    obtain ⟨sched', t', q', hs', hfair', hrot⟩ := (hfair.execute hesp).schedule hlow hhigh
    obtain rfl := Option.some.inj (hs.symm.trans hs')
    exact ⟨t', q', hfair', hrot ▸ (List.rotate_perm _ _).trans hperm⟩
  | alloc _ _ ih => exact ih
  | free _ _ _ ih => exact ih
  | write _ _ ih => exact ih

/-- **Every task runs.** In every reached state, whoever started the tasks and whatever other clients
do with the page allocator, `schedule` does not fault, and in as many calls as there are tasks each of
them, and the boot task, runs exactly once. -/
theorem tasks_run (run : KernelRun swapperPageDir node startPfn endPfn freed swapper others tasks s)
    (h0 : node.startPfn = 0) (hle : startPfn ≤ endPfn) (hend : endPfn ≤ lowmemPageFrames)
    (hswapper : Disjoint (frames (pageOfAddress swapper, kernelStackOrder)) freed) :
    (∃ t ∈ tasks ++ [swapper], Running s.sched.machine t ∧
      ∀ sp, t ≤ sp → sp < t + kernelStackSize → ∃ sched, Auos.schedule s.sched sp = some sched) ∧
    ∀ (tr : ℕ → Scheduler) (k : ℕ), tr 0 = s.sched →
      (∀ i < k + (tasks.length + 1), Scheduled (tr i) (tr (i + 1))) →
        ∀ u ∈ tasks ++ [swapper],
          ∃! j, (k < j ∧ j ≤ k + (tasks.length + 1)) ∧ Running (tr j).machine u := by
  obtain ⟨t, q, hfair, hperm⟩ := run.fair h0 hle hend hswapper
  refine ⟨⟨t, hperm.mem_iff.mp List.mem_cons_self, hfair.running, fun sp hlow hhigh => ?_⟩, ?_⟩
  · obtain ⟨sched, -, -, hs, -⟩ := hfair.schedule hlow hhigh
    exact ⟨sched, hs⟩
  · intro tr k htr hstep u hu
    have hlen : (t :: q).length = tasks.length + 1 := by
      rw [hperm.length_eq, List.length_append, List.length_singleton]
    have hiff : ∀ j, (k < j ∧ j ≤ k + (tasks.length + 1)) ∧ Running (tr j).machine u ↔
        (k < j ∧ j ≤ k + (t :: q).length) ∧ ((t :: q).rotate j)[0]? = some u := by
      intro j
      rw [hlen]
      exact and_congr_right fun hj => hfair.running_iff htr (fun i hi => hstep i (by omega)) u
    rw [existsUnique_congr hiff]
    exact existsUnique_rotate hfair.nodup (hperm.mem_iff.mpr hu) k

end KernelRun

/-- The boot task sets itself up. -/
theorem exists_schedRun_boot : ∃ s, SchedRun 0xC0105000 s [0xC0100000] := by
  have hboot : currentTask 0xC0101F00 = 0xC0100000 := by decide
  have ht : IsTask 0xC0100000 := ⟨by decide, by decide⟩
  have hesp : OnStack 0xC0100000 0xC0101F00 := ⟨by decide, by decide⟩
  let m₀ : Machine := ⟨fun _ => 0, fun _ => blankState, { blankContext with esp := 0xC0101F00 },
    0, 0, 0, 0⟩
  obtain ⟨m₁, h₁, -⟩ := @exists_setupSwapper 0xC0105000 m₀ 0xC0101F00 (by rwa [hboot]) (by rwa [hboot])
  have run := @SchedRun.boot 0xC0105000 m₀ m₁ ⟨fun _ => .active, fun _ => .active⟩ 0xC0101F00
    (by rwa [hboot]) (by rwa [hboot]) h₁ rfl rfl
  exact ⟨_, hboot ▸ run⟩

/-- The first two frames are the allocator's, and the boot task starts a task in them. -/
theorem exists_kernelRun : ∃ s s' task,
    KernelRun 0xC0105000 blankNode 0 4 {1, 0} 0xC0100000 [] [] s ∧
      s.startTask 0xC0105000 0xC0300000 = some (s', task) ∧
      Disjoint (frames (pageOfAddress 0xC0100000, kernelStackOrder)) {1, 0} := by
  obtain ⟨node, node', mem', task, hzone, hret⟩ := exists_allocTask_blankNode fun _ => 7
  obtain ⟨sched, hsched⟩ := exists_schedRun_boot
  refine ⟨⟨node, fun _ => 7, sched⟩, _, task, .boot hzone hsched,
    Kernel.startTask_eq_some.mpr ⟨node', mem', hret, rfl⟩, Set.disjoint_left.mpr ?_⟩
  rintro n ⟨hn, -⟩ hmem
  have hn' : 256 ≤ n := hn
  have hlow : n = 1 ∨ n = 0 := by simpa using hmem
  omega

theorem KernelRun.tasks_run_two : ∃ s task, ∃ t ∈ [task, 0xC0100000],
    KernelRun 0xC0105000 blankNode 0 4 {1, 0} 0xC0100000 [] [task] s ∧
      Running s.sched.machine t := by
  obtain ⟨s, s', task, run, hstart, hswapper⟩ := exists_kernelRun
  have run' := run.startTask hstart
  obtain ⟨⟨t, ht, hrun, -⟩, -⟩ := run'.tasks_run rfl (by decide) (by decide) hswapper
  exact ⟨s', task, t, ht, run', hrun⟩

end Auos
