import Auos.Hw3.Statements

/-!
# Preemption

The invariant holds in every run in which no interrupt is taken in the window of `task_start`, between
`enable_interrupts()` and `current = this`: there `current` is the task switched out before, or null.
It makes the scheduler coherent at every other statement at which interrupts are enabled, or at which
`schedule` is entered (`schedRun_coherent_iff`). A tick in the window queues and saves the wrong task
(`schedRun_tick_in_window`).

## Main results

* `Inv.handle` — every event keeps the invariant, except an interrupt in the window
* `schedRun_coherent_iff` — coherence holds at every statement outside the window
-/

namespace Auos

namespace Hw3

open Links

variable {Task : Type*} [DecidableEq Task] {s s' : Machine Task} {t : Task} {f : Frame Task}
  {rest : List (Frame Task)}

/-! ### Calls, returns and interrupts -/

theorem Inv.callTaskNew {task : Task} (h : Inv s) (hs : s.stack s.exec = f :: rest) (hw : Waits f)
    (hq : Quiet s) (hstep : s.callTaskNew task = some s') : Inv s' := by
  rw [Machine.callTaskNew] at hstep
  cases hl : s.life task with
  | main => simp [hl] at hstep
  | building owner d => simp [hl] at hstep
  | live => simp [hl] at hstep
  | unused =>
    rw [hl] at hstep
    obtain rfl := Option.some.inj hstep
    have htask : task ≠ s.exec := by
      rintro rfl
      rcases h.exec_life with hlive | hmain
      · cases hl.symm.trans hlive
      · cases hl.symm.trans hmain
    obtain ⟨life, hlife⟩ : ∃ life, Function.update s.life task
      (.building s.exec (s.stack s.exec).length) = life := ⟨_, rfl⟩
    rw [hlife]
    have hself : life task = .building s.exec (s.stack s.exec).length := by
      rw [← hlife, Function.update_self]
    have hother : ∀ t ≠ task, life t = s.life t := fun t ht => by
      rw [← hlife, Function.update_of_ne ht]
    refine h.buildStep ⟨rfl, hother, fun _ _ => rfl, fun _ _ => rfl, fun _ _ => rfl, fun _ _ => rfl,
      fun hm => by cases hself.symm.trans hm⟩ htask (fun t d hb => by cases hl.symm.trans hb)
      (h.frames s.exec) (fun hlow => ⟨⟨?_, nofun, fun _ => hself,
        trivial⟩, ?_, hlow⟩)
      (fun hold => ?_) (fun hlive => by cases hself.symm.trans hlive) (h.saved_eq task)
      ⟨_, _, rfl, ?_, ?_⟩
    · rw [hs]
      exact Nat.succ_pos _
    · rw [hs]
      rintro _ ⟨⟩
      exact hw
    · rw [Machine.setStack_stack, Function.update_of_ne htask]
      exact hold
    · exact hq.1.imp (fun hcalm => ⟨(hother _ htask.symm).trans hcalm.1, hcalm.2⟩)
        fun hboot => ⟨(hother _ htask.symm).trans hboot.1, hboot.2⟩
    · refine hq.2.congr rfl fun u _ => and_congr_left fun _ => ?_
      rcases eq_or_ne u task with rfl | hne
      · constructor
        · intro hlive
          cases hself.symm.trans hlive
        · intro hlive
          cases hl.symm.trans hlive
      · show life u = .live ↔ s.life u = .live
        rw [hother u hne]

theorem Inv.interrupt {timer : Bool} (h : Inv s) (hwindow : ¬InWindow s)
    (hstep : s.handle (.interrupt timer) = some s') : Inv s' := by
  rw [Machine.handle] at hstep
  by_cases hon : s.interrupts = true
  · rw [if_pos hon] at hstep
    obtain rfl := Option.some.inj hstep
    obtain ⟨f, rest, hs, htop⟩ := h.top
    obtain ⟨hw, hcalm, hqueue⟩ :=
      htop.calm_of_interrupts hon fun this hf => hwindow ⟨this, rest, hf ▸ hs⟩
    have hstarted := hcalm.started h
    have hpos : 0 < (s.stack s.exec).length := by
      rw [hs]
      exact Nat.succ_pos _
    exact h.enter hs (.of_setStack s) ⟨hpos, hstarted⟩ hw ⟨hcalm, hqueue⟩
  · rw [if_neg hon] at hstep
    cases hstep

/-- `main` calls `task_start` for the task whose stack is its own. -/
theorem Inv.callTaskStart (h : Inv s) (hs : s.stack s.exec = .main .setup :: rest) :
    Inv ({ s with life := Function.update s.life s.exec .live }.setStack
      (.taskStart s.exec .enable :: .main .spin :: rest)) := by
  obtain ⟨hmain, hnil⟩ := h.frameOk hs
  obtain rfl : rest = [] := List.length_eq_zero_iff.mp hnil
  have hq : Quiet s := h.topOk hs
  obtain ⟨-, hoff, hnull⟩ := hq.1.resolve_left fun hcalm => by cases hmain.symm.trans hcalm.1
  have hlife : ∀ t ≠ s.exec, Function.update s.life s.exec .live t = s.life t :=
    fun t ht => Function.update_of_ne ht _ _
  have hlive : Function.update s.life s.exec .live s.exec = .live := Function.update_self ..
  have hstarted : ∀ t, Function.update s.life s.exec .live t ≠ .main := by
    intro t ht
    rcases eq_or_ne t s.exec with rfl | hne
    · cases hlive.symm.trans ht
    · exact hne (h.main_eq t (hlife t hne ▸ ht))
  constructor
  · exact fun t ht => absurd ht (hstarted t)
  · exact Or.inl hlive
  · intro t
    rcases eq_or_ne t s.exec with rfl | hne
    · rw [Machine.setStack_stack, Function.update_self]
      refine ⟨⟨rfl, fun _ => hstarted⟩, ?_, trivial, by simp, trivial⟩
      rintro _ ⟨⟩
      trivial
    · rw [Machine.setStack_stack, Function.update_of_ne hne]
      refine (h.frames t).congr (fun _ => hstarted) (fun ht => absurd (h.main_eq t ht) hne)
        fun task d _ hb => ?_
      have htask := h.ne_exec hb
      exact ⟨hlife task htask, Function.update_of_ne htask _ _, rfl, rfl⟩
  · intro t ht hready hne
    change t ≠ s.exec at hne
    have hpark := h.parked t (hlife t hne ▸ ht) hready hne
    rw [Parked, Machine.setStack_stack, Function.update_of_ne hne]
    exact hpark
  · exact h.saved_eq
  · refine ⟨_, _, Function.update_self .., hlive, ?_, ?_, hoff⟩
    · show s.current ≠ some s.exec
      rw [hnull]
      exact fun heq => by cases heq
    · exact hq.2.congr rfl fun u hu => by
        show (Function.update s.life s.exec .live u = .live ∧ _) ↔ _
        rw [hlife u hu]
        rfl

/-- **Every event keeps the invariant**, except an interrupt in the window. -/
theorem Inv.handle {event : SchedEvent Task} (h : Inv s)
    (hevent : InWindow s → ∀ timer, event ≠ .interrupt timer) (hstep : s.handle event = some s') :
    Inv s' := by
  obtain ⟨f, rest, hs, -⟩ := h.top
  cases event with
  | interrupt timer => exact h.interrupt (fun hwindow => hevent hwindow timer rfl) hstep
  | step =>
    simp only [Machine.handle, Machine.next, hs] at hstep
    cases f with
    | main pc => cases hstep
    | fptr => cases hstep
    | taskStart this pc =>
      obtain rfl := Option.some.inj hstep
      exact h.taskStart hs
    | taskNew task pc flags =>
      obtain rfl := Option.some.inj hstep
      exact h.taskNew hs
    | schedule pc flags this next => exact h.schedule hs hstep
    | irq pc => exact h.irq hs hstep
  | schedule =>
    simp only [Machine.handle, hs] at hstep
    cases f with
    | fptr =>
      obtain rfl := Option.some.inj hstep
      have hstarted := (h.frameOk hs).1
      have hq : Quiet s := h.topOk hs
      exact h.enter hs (g := .schedule .flags false none none)
        ⟨rfl, rfl, rfl, rfl, fun _ _ => rfl, by rw [hs]; rfl⟩
        ⟨by rw [hs]; exact Nat.succ_pos _, hstarted, nofun⟩ trivial
        ⟨hq.calm hstarted, hq.2⟩
    | main pc => cases hstep
    | taskStart this pc => cases hstep
    | taskNew task pc flags => cases hstep
    | schedule pc flags this next => cases hstep
    | irq pc => cases hstep
  | taskNew task =>
    simp only [Machine.handle, hs] at hstep
    cases f with
    | fptr => exact h.callTaskNew hs trivial (h.topOk hs) hstep
    | main pc =>
      cases pc with
      | setup => exact h.callTaskNew hs trivial (h.topOk hs) hstep
      | spin => cases hstep
    | taskStart this pc => cases hstep
    | taskNew task pc flags => cases hstep
    | schedule pc flags this next => cases hstep
    | irq pc => cases hstep
  | ret =>
    simp only [Machine.handle, hs] at hstep
    cases f with
    | fptr =>
      obtain rfl := Option.some.inj hstep
      exact h.return hs (.of_setStack s) (h.frameOk hs).2 (h.topOk hs)
    | main pc => cases hstep
    | taskStart this pc => cases hstep
    | taskNew task pc flags => cases hstep
    | schedule pc flags this next => cases hstep
    | irq pc => cases hstep
  | taskStart =>
    simp only [Machine.handle, hs] at hstep
    cases f with
    | main pc =>
      cases pc with
      | setup =>
        obtain rfl := Option.some.inj hstep
        exact h.callTaskStart hs
      | spin => cases hstep
    | fptr => cases hstep
    | taskStart this pc => cases hstep
    | taskNew task pc flags => cases hstep
    | schedule pc flags this next => cases hstep
    | irq pc => cases hstep

/-! ### Runs -/

theorem inv_init (boot : Task) : Inv (Machine.init boot) := by
  have hlife : ∀ t, t ≠ boot → (Machine.init boot).life t = .unused :=
    fun t ht => by simp [Machine.init, ht]
  have hboot : (Machine.init boot).life boot = .main := by simp [Machine.init]
  have hstack : (Machine.init boot).stack boot = [.main .setup] := by simp [Machine.init]
  have hlive : ∀ t, (Machine.init boot).life t ≠ .live := by
    intro t ht
    rcases eq_or_ne t boot with rfl | hne
    · cases hboot.symm.trans ht
    · cases (hlife t hne).symm.trans ht
  constructor
  · intro t ht
    by_contra hne
    cases (hlife t hne).symm.trans ht
  · exact Or.inr hboot
  · intro t
    rcases eq_or_ne t boot with rfl | hne
    · rw [hstack]
      exact ⟨⟨hboot, rfl⟩, by simp, trivial⟩
    · have hnil : (Machine.init boot).stack t = [] := by simp [Machine.init, hne]
      rw [hnil]
      trivial
  · exact fun t ht => absurd ht (hlive t)
  · exact fun t => rfl
  · refine ⟨_, _, hstack, Or.inr ⟨hboot, rfl, rfl⟩, [], isRing_listInit _ _, fun t => ?_⟩
    simp [hlive t]

/-- Outside the window the running task is coherent with the scheduler's variables while interrupts
are enabled and where `schedule` is entered. -/
theorem Inv.coherent_of_not_inWindow (h : Inv s) (hwindow : ¬InWindow s)
    (hat : s.interrupts = true ∨ AtSchedule s) : Coherent s := by
  obtain ⟨f, rest, hs, htop⟩ := h.top
  have hcalm : Calm s ∧ QueuedBut s s.exec := by
    rcases hat with hon | ⟨flags, this, next, rest', heq⟩
    · exact (htop.calm_of_interrupts hon fun this hf => hwindow ⟨this, rest, hf ▸ hs⟩).2
    · obtain rfl : f = .schedule .flags flags this next := (List.cons.inj (hs.symm.trans heq)).1
      exact htop
  obtain ⟨⟨-, hcur⟩, nodes, hring, hmem⟩ := hcalm
  have hnd : nodes.Nodup := List.Nodup.of_map some (List.nodup_cons.mp hring.2).2
  refine ⟨hcur, ⟨nodes, hring, fun t hlive hready => ?_⟩, fun t _ => h.saved_eq t⟩
  rcases eq_or_ne t s.exec with heq | hne
  · exact Or.inl ⟨heq, List.count_eq_zero_of_not_mem fun hin => ((hmem t).mp hin).2 heq⟩
  · exact Or.inr ⟨hne, List.count_eq_one_of_mem hnd ((hmem t).mpr ⟨⟨hlive, hready⟩, hne⟩)⟩

/-- No interrupt is taken in the window. -/
def NoTickInWindow (s : Machine Task) (event : SchedEvent Task) : Prop :=
  InWindow s → ∀ timer, event ≠ .interrupt timer

theorem SchedRun.inv {boot : Task} (run : SchedRun NoTickInWindow boot s) : Inv s :=
  Run.invariant (inv_init boot) (fun _ _ _ h hevent hstep => h.handle hevent hstep) run

/-- **The scheduler is coherent outside the window.** In a run in which no interrupt is taken between
`enable_interrupts()` and `current = this` in `task_start`, the running task is `current`, the ready
tasks are queued and every saved stack pointer is right, at every statement at which interrupts are
enabled or `schedule` is entered, except between those two. -/
theorem schedRun_coherent_iff {boot : Task} (run : SchedRun NoTickInWindow boot s) :
    (s.interrupts = true ∨ AtSchedule s → Coherent s) ↔ ¬InWindow s := by
  have h := SchedRun.inv run
  constructor
  · intro hcoherent hwindow
    obtain ⟨hon, hcur⟩ := h.of_inWindow hwindow
    exact hcur (hcoherent (Or.inl hon)).current_eq
  · exact fun hwindow hat => h.coherent_of_not_inWindow hwindow hat

/-- `main` makes a second task and starts the first, whose function calls `schedule`; the second task
enables interrupts in `task_start`. -/
def enterSecond : List (SchedEvent Bool) :=
  .taskNew true :: List.replicate 7 .step ++ .taskStart :: List.replicate 3 .step ++
    .schedule :: List.replicate 9 .step

/-- The second task leaves the window and calls its function. -/
def leaveWindow : List (SchedEvent Bool) := enterSecond ++ [.step, .step]

/-- Once the second task has left the window, it is coherent. -/
theorem schedRun_coherent_iff_two : ∃ s : Machine Bool, SchedRun NoTickInWindow false s ∧
    s.exec = true ∧ s.interrupts = true ∧
    ((s.interrupts = true ∨ AtSchedule s → Coherent s) ↔ ¬InWindow s) := by
  have hquiet : ∀ event ∈ leaveWindow, ∀ s, NoTickInWindow s event := by
    have hnone : ∀ event ∈ leaveWindow, ∀ timer, event ≠ .interrupt timer := by decide
    exact fun event hevent _ _ => hnone event hevent
  obtain ⟨s, run, hs⟩ : ∃ s : Machine Bool, SchedRun NoTickInWindow false s ∧
      decide (s.exec = true ∧ s.interrupts = true) = true :=
    Run.exists_of_any hquiet
      (show (leaveWindow.foldlM Machine.handle (.init false)).any _ = true by decide +kernel)
  obtain ⟨hexec, hon⟩ := of_decide_eq_true hs
  exact ⟨s, run, hexec, hon, schedRun_coherent_iff run⟩

/-! ### A tick in the window -/

/-- The timer interrupt runs to the end of `schedule`. -/
def tick : List (SchedEvent Bool) := .interrupt true :: List.replicate 15 .step

/-- A tick in the window of the second task. `current` is still the first one: it is queued a second
time, and the stack pointer into the second stack goes to its `task_state`. The first task runs on with
interrupts enabled, and the second is ready and on no queue. -/
theorem schedRun_tick_in_window :
    (∃ s : Machine Bool, SchedRun (fun _ _ => True) false s ∧ s.interrupts = true ∧
      s.exec = true ∧ s.current = some false) ∧
    ∃ s : Machine Bool, SchedRun (fun _ _ => True) false s ∧ s.interrupts = true ∧ ¬InWindow s ∧
      s.exec = false ∧ s.life true = .live ∧ s.state true = .ready ∧
      (∀ nodes : List Bool, s.links.IsRing none (nodes.map some) → true ∉ nodes) ∧
      s.taskState false = some ⟨true, 3⟩ ∧ s.saved false = some ⟨false, 4⟩ ∧ ¬Coherent s := by
  constructor
  · obtain ⟨s, run, hs⟩ : ∃ s : Machine Bool, SchedRun (fun _ _ => True) false s ∧
        decide (s.interrupts = true ∧ s.exec = true ∧ s.current = some false) = true :=
      Run.exists_of_any (fun _ _ _ => trivial)
        (show (enterSecond.foldlM Machine.handle (.init false)).any _ = true by decide +kernel)
    exact ⟨s, run, of_decide_eq_true hs⟩
  · obtain ⟨s, run, hs⟩ : ∃ s : Machine Bool, SchedRun (fun _ _ => True) false s ∧
        decide (s.interrupts = true ∧ s.exec = false ∧
          s.stack false = [.fptr, .taskStart false .finish, .main .spin] ∧
          (s.life true = .live ∧ s.state true = .ready ∧ s.life false = .live) ∧
          (s.links.next none = some false ∧ s.links.next (some false) = none) ∧
          s.taskState false = some ⟨true, 3⟩ ∧ s.saved false = some ⟨false, 4⟩) = true :=
      Run.exists_of_any (fun _ _ _ => trivial)
        (show ((enterSecond ++ tick).foldlM Machine.handle (.init false)).any _ = true by
          decide +kernel)
    obtain ⟨hon, hexec, hstack, ⟨hlive, hready, hlife⟩, ⟨hfirst, hlast⟩, hts, hsaved⟩ :=
      of_decide_eq_true hs
    refine ⟨s, run, hon, ?_, hexec, hlive, hready, ?_, hts, hsaved, ?_⟩
    · rintro ⟨this, rest, heq⟩
      rw [hexec, hstack] at heq
      cases heq
    · rintro nodes ⟨hpath, -⟩ hmem
      -- the list is the first task alone
      cases nodes with
      | nil => cases hmem
      | cons x nodes =>
        obtain rfl : false = x := Option.some.inj (hfirst.symm.trans hpath.1.1)
        cases nodes with
        | nil => cases List.mem_singleton.mp hmem
        | cons y nodes => cases hlast.symm.trans hpath.2.1.1
    · intro hcoherent
      have heq := hcoherent.saved_eq false hlife
      rw [hts, hsaved] at heq
      cases heq

end Hw3

end Auos
