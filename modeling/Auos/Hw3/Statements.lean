import Auos.Hw3.Invariant

/-!
# The statements of the scheduler

Every statement of `task_start`, `irq_raw_handler`, `schedule` and `task_new` keeps the invariant. Most
of them move the innermost frame on. `schedule` queues the running task, takes the first task off the
queue and switches to it; the stack it enters is as the task left it, so nothing is cut off
(`Inv.switch_eq`). `task_new` puts a task on the queue that is parked at the entry of `task_start`.

## Main results

* `Inv.switch` — the switch parks the running task and goes on with a parked one
* `Inv.schedule`, `Inv.taskStart`, `Inv.taskNew`, `Inv.irq` — one statement
-/

namespace Auos

namespace Hw3

open Links

variable {Task : Type*} [DecidableEq Task] {s s' : Machine Task} {t : Task}
  {rest : List (Frame Task)}

/-! ### `task_start` -/

theorem Inv.taskStart {this : Task} {pc : StartPc} (h : Inv s)
    (hs : s.stack s.exec = .taskStart this pc :: rest) : Inv (s.taskStartStep rest this pc) := by
  have htop := h.topOk hs
  obtain ⟨rfl, hstarted⟩ := h.frameOk hs
  cases pc with
  | enable =>
    obtain ⟨hlive, hcur, hqueue, -⟩ := htop
    have hst : Started s := by
      intro t ht
      rw [h.main_eq t ht] at ht
      cases ht.symm.trans hlive
    exact h.goto hs (.of_setStack s) ⟨rfl, fun _ => hst⟩
      ⟨hlive, hcur, hqueue, rfl⟩
  | current =>
    obtain ⟨hlive, -, hqueue, -⟩ := htop
    exact h.goto hs (.of_setStack s)
      ⟨rfl, fun _ => hstarted nofun⟩ ⟨⟨hlive, rfl⟩, hqueue⟩
  | call =>
    exact h.call hs (.of_setStack s) ⟨hstarted nofun, Nat.succ_pos _⟩
      ⟨rfl, fun _ => hstarted nofun⟩ trivial ⟨Or.inl htop.1, htop.2⟩
  | finish =>
    refine h.goto hs ⟨rfl, rfl, rfl, rfl, fun t ht => Function.update_of_ne ht _ _, rfl⟩
      ⟨rfl, fun _ => hstarted nofun⟩ ⟨htop.1, ?_⟩
    -- the task is not queued, so the queue need not change
    refine htop.2.congr rfl fun u hu => ?_
    have hstate : Function.update s.state s.exec .finished u = s.state u :=
      Function.update_of_ne hu _ _
    exact and_congr_right fun _ => by rw [← hstate]; rfl
  | loop =>
    exact h.call hs (.of_setStack s)
      ⟨Nat.succ_pos _, hstarted nofun, nofun⟩
      ⟨rfl, fun _ => hstarted nofun⟩ trivial htop

/-! ### `irq_raw_handler` -/

theorem Inv.irq {pc : IrqPc} (h : Inv s) (hs : s.stack s.exec = .irq pc :: rest)
    (hstep : s.irqStep rest pc = some s') : Inv s' := by
  obtain ⟨hcalm, hqueue⟩ := h.topOk hs
  obtain ⟨hpos, hstarted⟩ := h.frameOk hs
  cases pc with
  | ticks =>
    obtain rfl := Option.some.inj hstep
    exact h.goto hs (.of_setStack s) ⟨hpos, hstarted⟩ ⟨hcalm, hqueue⟩
  | remain =>
    rw [Machine.irqStep, hcalm.2] at hstep
    obtain rfl := Option.some.inj hstep
    exact h.goto hs (.of_setStack s) ⟨hpos, hstarted⟩
      ⟨⟨hcalm.1, rfl⟩, hqueue⟩
  | eoi =>
    obtain rfl := Option.some.inj hstep
    exact h.goto hs (.of_setStack s) ⟨hpos, hstarted⟩ ⟨hcalm, hqueue⟩
  | test =>
    rw [Machine.irqStep, hcalm.2, Option.bind_eq_bind, Option.bind_some] at hstep
    split_ifs at hstep with hslice
    · obtain rfl := Option.some.inj hstep
      exact h.call hs (.of_setStack s)
        ⟨Nat.succ_pos _, hstarted, nofun⟩ ⟨hpos, hstarted⟩ trivial
        ⟨hcalm, hqueue⟩
    · obtain rfl := Option.some.inj hstep
      exact h.goto hs (.of_setStack s) ⟨hpos, hstarted⟩ ⟨hcalm, hqueue⟩
  | iret =>
    obtain rfl := Option.some.inj hstep
    exact h.return hs (.of_setStack s) hpos ⟨Or.inl hcalm, hqueue⟩

/-! ### `schedule` -/

/-- Queueing the running task if it is ready: the queue then holds every ready task, and its first is
another one. -/
theorem QueuedBut.add {links : Links (Option Task)} (hqueue : QueuedBut s s.exec)
    (hne : s.links.next none ≠ none) (hlive : s.life s.exec = .live)
    (hlinks : links = if s.state s.exec = .ready then listAddTail s.links none (some s.exec)
      else s.links) :
    ∃ n nodes, n ≠ s.exec ∧ links.IsRing none ((n :: nodes).map some) ∧
      ∀ t, t ∈ n :: nodes ↔ s.life t = .live ∧ s.state t = .ready := by
  obtain ⟨nodes, hring, hmem⟩ := hqueue
  cases nodes with
  | nil => exact absurd (hring.next_eq_iff.mpr rfl) hne
  | cons n nodes =>
    have hn : n ≠ s.exec := ((hmem n).mp List.mem_cons_self).2
    by_cases hready : s.state s.exec = .ready
    · rw [if_pos hready] at hlinks
      refine ⟨n, nodes ++ [s.exec], hn, ?_, fun t => ?_⟩
      · have hout : s.exec ∉ n :: nodes := fun hin => ((hmem s.exec).mp hin).2 rfl
        have hadd := isRing_listAddTail hring (some_notMem hout)
        rw [hlinks]
        simpa using hadd
      · rw [← List.cons_append, List.mem_append, List.mem_singleton, hmem]
        constructor
        · rintro (⟨ht, -⟩ | rfl)
          · exact ht
          · exact ⟨hlive, hready⟩
        · intro ht
          rcases eq_or_ne t s.exec with heq | hte
          · exact Or.inr heq
          · exact Or.inl ⟨ht, hte⟩
    · rw [if_neg hready] at hlinks
      refine ⟨n, nodes, hn, hlinks ▸ hring, fun t => ?_⟩
      rw [hmem, and_iff_left_iff_imp]
      rintro ⟨-, ht⟩ rfl
      exact hready ht

/-- Taking the first task off the queue. -/
theorem QueuedBut.del {m : Task} {nodes : List Task}
    (hring : s.links.IsRing none ((m :: nodes).map some))
    (hmem : ∀ t, t ∈ m :: nodes ↔ s.life t = .live ∧ s.state t = .ready)
    (hlinks : s'.links = listDel s.links (s.links.next none)) (hlife : s'.life = s.life)
    (hstate : s'.state = s.state) : QueuedBut s' m := by
  have hfirst : s.links.next none = some m := hring.next_head
  have hnd : (m :: nodes).Nodup := by
    have := (List.nodup_cons.mp hring.2).2
    exact List.Nodup.of_map some this
  refine ⟨nodes, ?_, fun t => ?_⟩
  · rw [hlinks, hfirst]
    exact isRing_listDel hring
  · rw [hlife, hstate, ← hmem, List.mem_cons]
    constructor
    · intro ht
      exact ⟨Or.inr ht, fun heq => (List.nodup_cons.mp hnd).1 (heq ▸ ht)⟩
    · rintro ⟨heq | ht, hne⟩
      · exact absurd heq hne
      · exact ht

/-- The state `task_state_switch` leaves: the stack it enters was left alone since its task was
switched out, so nothing is cut off. -/
theorem Inv.switch_eq {flags : Bool} {m : Task} (h : Inv s) (hne : m ≠ s.exec)
    (hready : s.life m = .live ∧ s.state m = .ready)
    (hstep : s.scheduleStep rest .switch flags (some s.exec) (some m) = some s') :
    s' = { s with
      taskState := Function.update s.taskState s.exec (some ⟨s.exec, rest.length + 1⟩)
      saved := Function.update s.saved s.exec (some ⟨s.exec, rest.length + 1⟩)
      exec := m
      stack := Function.update s.stack s.exec
        (.schedule .current flags (some s.exec) (some m) :: rest) } := by
  obtain ⟨hsp, -⟩ := h.parked m hready.1 hready.2 hne
  have hstep' : (s.setStack (.schedule .current flags (some s.exec) (some m) :: rest)).taskStateSwitch
      s.exec ⟨m, (s.stack m).length⟩ = some s' := by
    simpa only [Machine.scheduleStep, Option.bind_eq_bind, Option.bind_some, hsp] using hstep
  have hstack : ∀ frames, Function.update s.stack s.exec frames m = s.stack m :=
    fun frames => Function.update_of_ne hne _ _
  rw [Machine.taskStateSwitch] at hstep'
  simp only [Machine.setStack, hstack, le_refl, if_true, Nat.sub_self, List.drop_zero,
    Function.update_self, List.length_cons] at hstep'
  have hcut : Function.update (Function.update s.stack s.exec
      (.schedule .current flags (some s.exec) (some m) :: rest)) m (s.stack m) =
      Function.update s.stack s.exec (.schedule .current flags (some s.exec) (some m) :: rest) :=
    Function.update_eq_self_iff.mpr (hstack _).symm
  rw [← Option.some.inj hstep', hcut]

/-- **The switch** parks the running task and goes on with a parked one. -/
theorem Inv.switch {flags : Bool} {m : Task} (h : Inv s)
    (hs : s.stack s.exec = .schedule .switch flags (some s.exec) (some m) :: rest)
    (hne : m ≠ s.exec) (hready : s.life m = .live ∧ s.state m = .ready) (hqueue : QueuedBut s m)
    (hcalm : Calm s) (hoff : s.interrupts = false)
    (hstep : s.scheduleStep rest .switch flags (some s.exec) (some m) = some s') : Inv s' := by
  obtain ⟨hpos, hstarted, -⟩ := h.frameOk hs
  obtain ⟨-, hwhere⟩ := h.parked m hready.1 hready.2 hne
  have hstack : StackOk s s.exec (.schedule .switch flags (some s.exec) (some m) :: rest) :=
    hs ▸ h.frames s.exec
  obtain rfl := h.switch_eq hne hready hstep
  have hsame : ∀ t frames, StackOk s t frames → StackOk { s with
      taskState := Function.update s.taskState s.exec (some ⟨s.exec, rest.length + 1⟩)
      saved := Function.update s.saved s.exec (some ⟨s.exec, rest.length + 1⟩)
      exec := m
      stack := Function.update s.stack s.exec
        (.schedule .current flags (some s.exec) (some m) :: rest) } t frames := by
    intro t frames ht
    refine ht.congr id id fun task d _ hb => ?_
    have htask := h.ne_exec hb
    exact ⟨rfl, Function.update_of_ne htask _ _, Function.update_of_ne htask _ _, rfl⟩
  constructor
  · exact fun t ht => absurd ht (hstarted t)
  · exact Or.inl hready.1
  · intro t
    rcases eq_or_ne t s.exec with rfl | hte
    · simp only [Function.update_self]
      exact ⟨⟨hpos, hstarted, fun _ => rfl⟩, hstack.2.1, hsame _ _ hstack.2.2⟩
    · simp only [Function.update_of_ne hte]
      exact hsame _ _ (h.frames t)
  · intro t hlive hst htm
    rcases eq_or_ne t s.exec with rfl | hte
    · simp only [Parked, Function.update_self]
      exact ⟨rfl, Or.inl ⟨flags, some m, rest, rfl⟩⟩
    · simp only [Parked, Function.update_of_ne hte]
      exact h.parked t hlive hst hte
  · intro t
    rcases eq_or_ne t s.exec with rfl | hte
    · simp only [Function.update_self]
    · simp only [Function.update_of_ne hte]
      exact h.saved_eq t
  · simp only [Function.update_of_ne hne]
    rcases hwhere with ⟨fl, nx, rest', hm⟩ | ⟨rest', hm⟩
    · exact ⟨_, rest', hm, hready.1, hqueue, hoff, rfl⟩
    · refine ⟨_, rest', hm, hready.1, ?_, hqueue, hoff⟩
      rw [hcalm.2]
      exact fun heq => hne (Option.some.inj heq).symm

/-- `schedule` goes to its next statement, other than by the switch. -/
theorem Inv.gotoSchedule {pc pc' : SchedulePc} {flags flags' : Bool}
    {this next this' next' : Option Task} (h : Inv s)
    (hs : s.stack s.exec = .schedule pc flags this next :: rest)
    (hstep : OwnStep s s' (.schedule pc' flags' this' next' :: rest)) (hpc : pc' ≠ .current)
    (htop : ScheduleOk s' this' next' pc') : Inv s' := by
  obtain ⟨hpos, hstarted, -⟩ := h.frameOk hs
  have hst : Started s' := by
    intro t
    rw [hstep.life]
    exact hstarted t
  exact h.goto hs hstep ⟨hpos, hst, fun heq => absurd heq hpc⟩ htop

theorem Inv.schedule {pc : SchedulePc} {flags : Bool} {this next : Option Task} (h : Inv s)
    (hs : s.stack s.exec = .schedule pc flags this next :: rest)
    (hstep : s.scheduleStep rest pc flags this next = some s') : Inv s' := by
  have htop : ScheduleOk s this next pc := h.topOk hs
  obtain ⟨hpos, -⟩ := h.frameOk hs
  cases pc with
  | flags =>
    obtain rfl := Option.some.inj hstep
    exact h.gotoSchedule hs (.of_setStack s) nofun htop
  | cli =>
    obtain rfl := Option.some.inj hstep
    exact h.gotoSchedule hs (.of_setStack s) nofun ⟨htop.1, htop.2, rfl⟩
  | test =>
    rw [Machine.scheduleStep] at hstep
    split_ifs at hstep with hsome
    · have hne : s.links.next none ≠ none := by simpa [listEmpty] using hsome
      obtain rfl := Option.some.inj hstep
      exact h.gotoSchedule hs (.of_setStack s) nofun ⟨htop.1, htop.2.1, htop.2.2, hne⟩
    · obtain rfl := Option.some.inj hstep
      exact h.gotoSchedule hs (.of_setStack s) nofun htop
  | this =>
    obtain rfl := Option.some.inj hstep
    obtain ⟨hcalm, hqueue, hoff, hne⟩ := htop
    exact h.gotoSchedule hs (.of_setStack s) nofun ⟨hcalm, hqueue, hoff, hne, hcalm.2⟩
  | add =>
    obtain ⟨hcalm, hqueue, hoff, hne, rfl⟩ := htop
    obtain rfl := Option.some.inj hstep
    exact h.gotoSchedule hs (.of_setStack s) nofun
      ⟨hcalm, hoff, rfl, hqueue.add hne hcalm.1 rfl⟩
  | next =>
    obtain ⟨hcalm, hoff, rfl, m, nodes, hne, hring, hmem⟩ := htop
    obtain rfl := Option.some.inj hstep
    exact h.gotoSchedule hs (.of_setStack s) nofun
      ⟨hcalm, hoff, rfl, m, nodes, hne, hring, hmem, hring.next_head⟩
  | del =>
    obtain ⟨hcalm, hoff, rfl, m, nodes, hne, hring, hmem, rfl⟩ := htop
    obtain rfl := Option.some.inj hstep
    exact h.gotoSchedule hs (.of_setStack s) nofun
      ⟨hcalm, hoff, rfl, m, hne, (hmem m).mp List.mem_cons_self, .del hring hmem rfl rfl rfl, rfl⟩
  | switch =>
    obtain ⟨hcalm, hoff, rfl, m, hne, hready, hqueue, rfl⟩ := htop
    exact h.switch hs hne hready hqueue hcalm hoff hstep
  | current =>
    obtain ⟨hlive, hqueue, hoff, rfl⟩ := htop
    obtain rfl := Option.some.inj hstep
    exact h.gotoSchedule hs (.of_setStack s) nofun ⟨⟨hlive, rfl⟩, hqueue, hoff⟩
  | remain =>
    obtain ⟨hcalm, hqueue, hoff⟩ := htop
    rw [Machine.scheduleStep, hcalm.2] at hstep
    obtain rfl := Option.some.inj hstep
    exact h.gotoSchedule hs (.of_setStack s) nofun ⟨⟨hcalm.1, rfl⟩, hqueue, hoff⟩
  | restore =>
    obtain rfl := Option.some.inj hstep
    exact h.return hs (.of_setStack s) hpos ⟨Or.inl htop.1, htop.2.1⟩

/-! ### `task_new` -/

/-- Queueing a task that was not known before. -/
theorem QueuedBut.insert {task : Task} (hqueue : QueuedBut s t) (htask : task ≠ t)
    (hlife : s.life task ≠ .live) (hready : s.state task = .ready)
    (hlinks : s'.links = listAddTail s.links none (some task))
    (hlife' : s'.life = Function.update s.life task .live) (hstate : s'.state = s.state) :
    QueuedBut s' t := by
  obtain ⟨nodes, hring, hmem⟩ := hqueue
  refine ⟨nodes ++ [task], ?_, fun u => ?_⟩
  · have hout : task ∉ nodes := fun hin => hlife ((hmem task).mp hin).1.1
    rw [hlinks, List.map_append]
    exact isRing_listAddTail hring (some_notMem hout)
  · rw [List.mem_append, List.mem_singleton, hmem, hlife', hstate]
    rcases eq_or_ne u task with rfl | hne
    · rw [Function.update_self]
      exact ⟨fun _ => ⟨⟨rfl, hready⟩, htask⟩, fun _ => Or.inr rfl⟩
    · rw [Function.update_of_ne hne]
      exact or_iff_left hne

theorem Inv.taskNew {task : Task} {pc : NewPc} {flags : Bool} (h : Inv s)
    (hs : s.stack s.exec = .taskNew task pc flags :: rest) :
    Inv (s.taskNewStep rest task flags pc) := by
  have hq : Quiet s := h.topOk hs
  obtain ⟨hpos, hflags, hlife, hbuilt⟩ := h.frameOk hs
  have hstack := h.frames s.exec
  rw [hs] at hstack
  obtain ⟨-, hwait, hrest⟩ := hstack
  have hown : ∀ (s' : Machine Task) (frames : List (Frame Task)), OwnStep s s' frames →
      pc ≠ .restore → SameTask s s' task := by
    intro s' frames hstep hpc
    have htask := h.ne_exec (hlife hpc)
    exact ⟨by rw [hstep.life], by rw [hstep.stack, Function.update_of_ne htask],
      by rw [hstep.taskState], hstep.state task htask⟩
  have hbuild : pc ≠ .restore → ∀ t d, s.life task = .building t d → t = s.exec ∧ rest.length ≤ d := by
    intro hpc t d hb
    obtain ⟨rfl, rfl⟩ := Life.building.inj ((hlife hpc).symm.trans hb)
    exact ⟨rfl, le_rfl⟩
  cases pc with
  | frame =>
    have hl := hlife nofun
    have htask := h.ne_exec hl
    have hnew : (s.taskNewStep rest task flags .frame).stack task = [.taskStart task .enable] := by
      simp [Machine.taskNewStep, Machine.setStack, Function.update_of_ne htask]
    have hstep : BuildStep s (s.taskNewStep rest task flags .frame) task
        (.taskNew task .taskState flags :: rest) := by
      refine ⟨rfl, fun _ _ => rfl, fun _ _ => rfl, fun _ _ => rfl, fun _ _ => rfl, fun t ht => ?_,
        fun hm => by cases hl.symm.trans hm⟩
      rcases eq_or_ne t s.exec with rfl | hte
      · simp [Machine.taskNewStep, Machine.setStack]
      · simp [Machine.taskNewStep, Machine.setStack, Function.update_of_ne hte,
          Function.update_of_ne ht]
    exact h.buildStep hstep htask (hbuild nofun) hrest
      (fun hr => ⟨⟨hpos, hflags, fun _ => hl, hnew⟩, hwait, hr⟩) (fun _ => hnew ▸ stackOk_enable _ task)
      (fun hlive => by cases hl.symm.trans hlive) (h.saved_eq task) ⟨_, rest, rfl, hq⟩
  | taskState =>
    have hl := hlife nofun
    have htask := h.ne_exec hl
    have hnew : (s.taskNewStep rest task flags .taskState).stack task =
        [.taskStart task .enable] := (Function.update_of_ne htask _ _).trans hbuilt
    have hstep : BuildStep s (s.taskNewStep rest task flags .taskState) task
        (.taskNew task .state flags :: rest) :=
      ⟨rfl, fun _ _ => rfl, fun t ht => Function.update_of_ne ht _ _,
        fun t ht => Function.update_of_ne ht _ _, fun _ _ => rfl, fun _ _ => rfl,
        fun hm => by cases hl.symm.trans hm⟩
    have hts : (s.taskNewStep rest task flags .taskState).taskState task = some ⟨task, 1⟩ :=
      Function.update_self ..
    have hsaved : (s.taskNewStep rest task flags .taskState).saved task = some ⟨task, 1⟩ :=
      Function.update_self ..
    exact h.buildStep hstep htask (hbuild nofun) hrest
      (fun hr => ⟨⟨hpos, hflags, fun _ => hl, hnew, hts⟩, hwait, hr⟩) (fun _ => hnew ▸ stackOk_enable _ task)
      (fun hlive => by cases hl.symm.trans hlive) (hts.trans hsaved.symm) ⟨_, rest, rfl, hq⟩
  | state =>
    have hl := hlife nofun
    have htask := h.ne_exec hl
    have hnew : (s.taskNewStep rest task flags .state).stack task =
        [.taskStart task .enable] := (Function.update_of_ne htask _ _).trans hbuilt.1
    have hstep : BuildStep s (s.taskNewStep rest task flags .state) task
        (.taskNew task .flags flags :: rest) :=
      ⟨rfl, fun _ _ => rfl, fun _ _ => rfl, fun _ _ => rfl, fun t ht => Function.update_of_ne ht _ _,
        fun _ _ => rfl, fun hm => by cases hl.symm.trans hm⟩
    have hready : (s.taskNewStep rest task flags .state).state task = .ready :=
      Function.update_self ..
    -- the task is not known to the scheduler yet
    have hqueue : QueuedBut (s.taskNewStep rest task flags .state) s.exec := by
      refine hq.2.congr rfl fun u _ => and_congr_right fun hlive => ?_
      have hne : u ≠ task := by
        rintro rfl
        cases hl.symm.trans hlive
      rw [hstep.state u hne]
    exact h.buildStep hstep htask (hbuild nofun) hrest
      (fun hr => ⟨⟨hpos, hflags, fun _ => hl, hnew, hbuilt.2, hready⟩, hwait, hr⟩)
      (fun _ => hnew ▸ stackOk_enable _ task) (fun hlive => by cases hl.symm.trans hlive) (h.saved_eq task)
      ⟨_, rest, rfl, hq.1, hqueue⟩
  | flags =>
    have hstep : OwnStep s (s.taskNewStep rest task flags .flags)
      (.taskNew task .cli s.interrupts :: rest) := .of_setStack s
    have hon : s.interrupts = true → Started s := by
      intro hon
      rcases hq.1 with hcalm | hboot
      · exact hcalm.started h
      · exact absurd (hon.symm.trans hboot.2.1) (by decide)
    exact h.goto hs hstep ⟨hpos, hon, fun _ => hlife nofun,
      hbuilt.congr (hown _ _ hstep nofun)⟩ hq
  | cli =>
    have hstep : OwnStep s (s.taskNewStep rest task flags .cli)
      (.taskNew task .add flags :: rest) := .of_setStack s
    exact h.goto hs hstep ⟨hpos, hflags, fun _ => hlife nofun,
      hbuilt.congr (hown _ _ hstep nofun)⟩
      ⟨hq.1.imp_right fun hboot => ⟨hboot.1, rfl, hboot.2.2⟩, hq.2⟩
  | add =>
    have hl := hlife nofun
    have htask := h.ne_exec hl
    obtain ⟨hold, hts, hready⟩ := hbuilt
    have hnew : (s.taskNewStep rest task flags .add).stack task =
        [.taskStart task .enable] := (Function.update_of_ne htask _ _).trans hold
    have hstep : BuildStep s (s.taskNewStep rest task flags .add) task
        (.taskNew task .restore flags :: rest) := by
      refine ⟨rfl, fun t ht => Function.update_of_ne ht _ _, fun _ _ => rfl, fun _ _ => rfl,
        fun _ _ => rfl, fun _ _ => rfl, ?_⟩
      show Function.update s.life task .live task ≠ .main
      rw [Function.update_self]
      exact fun hm => by cases hm
    have hexec : (s.taskNewStep rest task flags .add).life s.exec = s.life s.exec :=
      hstep.life _ htask.symm
    have hqueue : QueuedBut (s.taskNewStep rest task flags .add) s.exec :=
      hq.2.insert htask (fun hlive => by cases hl.symm.trans hlive) hready rfl rfl rfl
    have hcur : Calm (s.taskNewStep rest task flags .add) ∨
        Booting (s.taskNewStep rest task flags .add) :=
      hq.1.imp (fun hcalm => ⟨hexec.trans hcalm.1, hcalm.2⟩)
        fun hboot => ⟨hexec.trans hboot.1, hboot.2⟩
    exact h.buildStep hstep htask (hbuild nofun) hrest
      (fun hr => ⟨⟨hpos, fun hon => hstep.started (hflags hon), fun hpc => absurd rfl hpc, trivial⟩, hwait,
        hr⟩)
      (fun _ => hnew ▸ stackOk_enable _ task)
      (fun _ _ => ⟨by rw [hnew]; exact hts, Or.inr ⟨[], hnew⟩⟩) (h.saved_eq task)
      ⟨_, rest, rfl, hcur, hqueue⟩
  | restore =>
    refine h.return hs (.of_setStack s) hpos ⟨?_, hq.2⟩
    refine hq.1.imp_right fun hboot => ⟨hboot.1, ?_, hboot.2.2⟩
    -- before `task_start` the flags were read with interrupts disabled
    have hoff : flags = false := by
      rw [← Bool.not_eq_true]
      exact fun hon => hflags hon _ hboot.1
    show (flags || s.interrupts) = false
    rw [hoff, hboot.2.1]
    rfl

end Hw3

end Auos
