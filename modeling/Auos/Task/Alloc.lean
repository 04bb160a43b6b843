import Auos.Memcpy
import Auos.SlabCache.Destroy
import Auos.Task.Switch
import Mathlib.Data.List.Pairwise

/-!
# Tasks from the page allocator

`alloc_task` and `free_task` of `task.c`. A task and its stack are two pages from the page allocator,
the task at the lower end; `current_task` finds it by clearing the low bits of a stack pointer, which
needs the two pages to be aligned to their size.

A run is one of the page allocator. Tasks are allocated and freed in it, in any order, other clients
allocate and free blocks of their own, and everyone writes to memory.

## Main definitions

* `allocTask`, `freeTask` — the source
* `TaskAllocRun` — the runs, with the blocks of the other clients and the tasks

## Main results

* `TaskAllocRun.backed` — the page allocator knows the tasks and the other blocks, and nothing else
* `TaskAllocRun.tasks_sound` — tasks are aligned, apart, and found from their stacks; freeing one succeeds
* `TaskAllocRun.allocTask_correct` — `alloc_task` panics exactly if there is no pair of frames
-/

namespace Auos

open Block

/-! ### `task.c` -/

/-- `KERNEL_STACK_ORDER`. -/
abbrev kernelStackOrder : ℕ := 1

/-- The rest of `alloc_task`, with the pages. -/
def taskInPages (s : PageListData) (mem : Memory) (pages : ℕ) : Option (PageListData × Memory × ℕ) :=
  let task := pageVirtualAddress pages
  (memset mem task 0 sizeofTask).map fun mem => (s, mem, task)

/-- `alloc_task`, on the page allocator and memory. It is `none` where the assertion fails. -/
def allocTask (s : PageListData) (mem : Memory) : Option (PageListData × Memory × ℕ) :=
  match allocPages s kernelStackOrder allocNormal with
  | some (s, some pages) => taskInPages s mem pages
  | _ => none

/-- `free_task`. -/
def freeTask (s : PageListData) (task : ℕ) : Option PageListData :=
  freePages s (pageOfAddress task) kernelStackOrder

/-! ### Runs -/

/-- The runs of the page allocator with the tasks that are allocated and the outstanding blocks of the
other clients, starting in any reached state of the allocator. -/
inductive TaskAllocRun (node : PageListData) (startPfn endPfn : ℕ) (freed : Set ℕ) :
    List (ℕ × ℕ) → List ℕ → PageListData → Memory → Prop
  | start {others : List (ℕ × ℕ)} {s : PageListData} (mem : Memory) :
      ZoneRun node .normal startPfn endPfn freed others s →
      TaskAllocRun node startPfn endPfn freed others [] s mem
  | allocTask {others : List (ℕ × ℕ)} {tasks : List ℕ} {s s' : PageListData} {mem mem' : Memory}
      {task : ℕ} :
      TaskAllocRun node startPfn endPfn freed others tasks s mem →
      allocTask s mem = some (s', mem', task) →
      TaskAllocRun node startPfn endPfn freed others (task :: tasks) s' mem'
  | freeTask {others : List (ℕ × ℕ)} {tasks : List ℕ} {s s' : PageListData} {mem : Memory}
      {task : ℕ} :
      TaskAllocRun node startPfn endPfn freed others tasks s mem → task ∈ tasks →
      freeTask s task = some s' →
      TaskAllocRun node startPfn endPfn freed others (tasks.erase task) s' mem
  | alloc {others : List (ℕ × ℕ)} {tasks : List ℕ} {s s' : PageListData} {mem : Memory}
      {order flags : ℕ} {ret : Option ℕ} :
      TaskAllocRun node startPfn endPfn freed others tasks s mem →
      allocPages s order flags = some (s', ret) →
      TaskAllocRun node startPfn endPfn freed (ret.toList.map (·, order) ++ others) tasks s' mem
  | free {others : List (ℕ × ℕ)} {tasks : List ℕ} {s s' : PageListData} {mem : Memory}
      {page order : ℕ} :
      TaskAllocRun node startPfn endPfn freed others tasks s mem → (page, order) ∈ others →
      freePages s page order = some s' →
      TaskAllocRun node startPfn endPfn freed (others.erase (page, order)) tasks s' mem
  | write {others : List (ℕ × ℕ)} {tasks : List ℕ} {s : PageListData} {mem : Memory}
      (mem' : Memory) :
      TaskAllocRun node startPfn endPfn freed others tasks s mem →
      TaskAllocRun node startPfn endPfn freed others tasks s mem'

variable {node s s' : PageListData} {freed : Set ℕ} {startPfn endPfn page order task : ℕ}
  {others taken : List (ℕ × ℕ)} {tasks pages : List ℕ} {mem mem' : Memory}

/-! ### One call -/

theorem virtualAddress_of_block (hend : page + 2 ≤ lowmemPageFrames) :
    pageVirtualAddress page = page * 4096 + 0xC0000000 := by
  have hend' : page + 2 ≤ 0x38000 := hend
  rw [pageVirtualAddress_eq (by omega)]
  omega

/-- A block of the allocator holds a task. -/
theorem isTask_pageVirtualAddress (h : BlockOk page) (hend : page + 2 ≤ lowmemPageFrames) :
    IsTask (pageVirtualAddress page) := by
  obtain ⟨⟨k, hk⟩, -⟩ := h
  have hend' : page + 2 ≤ 0x38000 := hend
  rw [virtualAddress_of_block hend]
  refine ⟨⟨k + 0x60000, ?_⟩, ?_⟩
  · show page * 4096 + 0xC0000000 = 8192 * (k + 0x60000)
    omega
  · show page * 4096 + 0xC0000000 + 8192 < 2 ^ 32
    omega

theorem allocTask_of_some (hpages : allocPages s kernelStackOrder allocNormal = some (s', some page))
    (hset : memset mem (pageVirtualAddress page) 0 sizeofTask = some mem') :
    allocTask s mem = some (s', mem', pageVirtualAddress page) := by
  rw [allocTask, hpages]
  show taskInPages s' mem page = _
  rw [taskInPages, hset]
  rfl

/-- `alloc_task` gets a block and clears the task in it; or there is no block. -/
theorem allocTask_cases (h : ZoneRun node .normal startPfn endPfn freed taken s)
    (h0 : node.startPfn = 0) (hle : startPfn ≤ endPfn) (hend : endPfn ≤ 2 ^ 20) (mem : Memory) :
    (allocTask s mem = none ∧ ¬∃ pfn, 2 ^ 1 ∣ pfn ∧ frames (pfn, 1) ⊆ freeFrames s .normal) ∨
    ∃ s' mem' page, allocTask s mem = some (s', mem', pageVirtualAddress page) ∧
      ZoneRun node .normal startPfn endPfn freed ((page, kernelStackOrder) :: taken) s' ∧
      (2 ^ 1 ∣ page ∧ frames (page, 1) ⊆ freeFrames s .normal) ∧
      (∀ i < sizeofTask, mem' (wadd (pageVirtualAddress page) i) = 0) ∧
      ∀ b, (∀ i < sizeofTask, b ≠ wadd (pageVirtualAddress page) i) → mem' b = mem b := by
  obtain ⟨blocks, nodes, p, hs⟩ := h.accounts h0 hle (by omega)
  have hcall : allocPages s kernelStackOrder allocNormal = allocPagesNode s 1 .normal :=
    if_pos (by decide)
  rcases hs.alloc (show 1 < maxOrder by decide) with ⟨hret, hsmall⟩ | ⟨b, s', -, -, hret, hb, hsub, -⟩
  · refine Or.inl ⟨by rw [allocTask, hcall, hret], ?_⟩
    rintro ⟨pfn, hdvd, hsub⟩
    obtain ⟨b, hb, hle⟩ := (p.buddy.exists_le_order_iff (show 1 < maxOrder by decide)).mpr
      ⟨around 1 pfn, rfl, by rw [← frames_toPair, toPair, base_around hdvd, ← hs.freeFrames_eq]; exact hsub⟩
    exact absurd (hsmall b hb) (Nat.not_lt.mpr hle)
  · obtain ⟨mem', hset, hzero, hframe⟩ := @memset_spec (pageVirtualAddress b.base)
      sizeofTask mem (wadd_lt _ _) 0 (by decide)
    have hbyte : UInt8.ofNat ((0 : ℤ) % 256).toNat = 0 := by decide
    rw [hbyte] at hzero
    refine Or.inr ⟨s', mem', b.base, allocTask_of_some (hcall.trans hret) hset,
      h.alloc (by decide) hret, ⟨hb ▸ b.dvd_base, ?_⟩, hzero, hframe⟩
    · rw [hs.freeFrames_eq, ← hb]
      exact (frames_toPair b).trans_subset hsub

/-! ### The invariant -/

/-- Taking a value out of a list and out of its image. -/
theorem map_erase_of_injOn {f : ℕ → ℕ} {l : List ℕ} {a : ℕ} (h : ∀ x ∈ l, f x = f a → x = a) :
    (l.erase a).map f = (l.map f).erase (f a) := by
  induction l with
  | nil => rfl
  | cons x l ih =>
    rcases eq_or_ne x a with rfl | hne
    · rw [List.erase_cons_head, List.map_cons, List.erase_cons_head]
    · have hne' : f x ≠ f a := fun heq => hne (h x List.mem_cons_self heq)
      rw [List.erase_cons_tail (by simpa using hne), List.map_cons, List.map_cons,
        List.erase_cons_tail (by simpa using hne'),
        ih fun y hy => h y (List.mem_cons_of_mem x hy)]

/-- **The page allocator has handed out the blocks of the tasks and those of the other clients**, and
nothing else. -/
theorem TaskAllocRun.backed (run : TaskAllocRun node startPfn endPfn freed others tasks s mem)
    (h0 : node.startPfn = 0) (hle : startPfn ≤ endPfn) (hend : endPfn ≤ 2 ^ 20) :
    ∃ (pages : List ℕ) (taken : List (ℕ × ℕ)), tasks = pages.map pageVirtualAddress ∧
      ZoneRun node .normal startPfn endPfn freed taken s ∧
      taken.Perm (pages.map (·, kernelStackOrder) ++ others) := by
  induction run with
  | start mem hzone => exact ⟨[], _, rfl, hzone, .refl _⟩
  | allocTask _ hret ih =>
    obtain ⟨pages, taken, rfl, hzone, hperm⟩ := ih
    rcases allocTask_cases hzone h0 hle hend _ with ⟨hnone, -⟩ | ⟨s₁, mem₁, page, hsome, hzone₁, -⟩
    · cases hret.symm.trans hnone
    · cases hret.symm.trans hsome
      exact ⟨page :: pages, _, rfl, hzone₁, hperm.cons _⟩
  | freeTask _ hmem hret ih =>
    obtain ⟨pages, taken, rfl, hzone, hperm⟩ := ih
    have hblock : ∀ page ∈ pages, BlockOk page := fun page hpage =>
      hzone.blockOk h0 hle hend (hperm.mem_iff.mpr (List.mem_append_left _ (List.mem_map_of_mem hpage)))
    obtain ⟨page, hpage, rfl⟩ := List.mem_map.mp hmem
    have htaken : (page, kernelStackOrder) ∈ pages.map (·, kernelStackOrder) := List.mem_map_of_mem hpage
    rw [Auos.freeTask, pageOfAddress_pageVirtualAddress (hblock page hpage)] at hret
    refine ⟨pages.erase page, _, ?_, hzone.free (hperm.mem_iff.mpr (List.mem_append_left _ htaken)) hret,
      ?_⟩
    · exact (map_erase_of_injOn fun q hq heq =>
        (pageVirtualAddress_inj (hblock q hq) (hblock page hpage)).mp heq).symm
    · have herase := hperm.erase (page, kernelStackOrder)
      rw [List.erase_append_left _ htaken] at herase
      rwa [List.map_erase fun x y hxy => (Prod.mk.inj hxy).1]
  | alloc _ hret ih =>
    obtain ⟨pages, taken, rfl, hzone, hperm⟩ := ih
    refine ⟨pages, _, rfl, hzone.allocPages hret, ?_⟩
    exact (hperm.append_left _).trans (List.perm_append_comm_assoc _ _ _)
  | @free _ _ _ _ _ page order _ hmem hret ih =>
    obtain ⟨pages, taken, rfl, hzone, hperm⟩ := ih
    refine ⟨pages, _, rfl, hzone.free (hperm.mem_iff.mpr (List.mem_append_right _ hmem)) hret, ?_⟩
    have hcomm := (hperm.trans List.perm_append_comm).erase (page, order)
    rw [List.erase_append_left _ hmem] at hcomm
    exact hcomm.trans List.perm_append_comm
  | write mem' _ ih => exact ih

/-! ### Freeing a block -/

namespace ZoneRun

theorem frames_subset (h : ZoneRun node .normal startPfn endPfn freed taken s) (h0 : node.startPfn = 0)
    (hle : startPfn ≤ endPfn) (hend : endPfn < 2 ^ 32) (hmem : (page, order) ∈ taken) :
    frames (page, order) ⊆ freed := by
  obtain ⟨blocks, nodes, p, hs⟩ := h.accounts h0 hle hend
  obtain ⟨b, hb, hpair⟩ := List.mem_map.mp (hs.out_eq ▸ hmem)
  rw [← hpair, frames_toPair]
  exact hs.points_subset b hb

theorem pairwise_disjoint (h : ZoneRun node .normal startPfn endPfn freed taken s)
    (h0 : node.startPfn = 0) (hle : startPfn ≤ endPfn) (hend : endPfn < 2 ^ 32) :
    taken.Pairwise fun a b => Disjoint (frames a) (frames b) := by
  obtain ⟨blocks, nodes, p, hs⟩ := h.accounts h0 hle hend
  rw [hs.out_eq, List.pairwise_map]
  refine hs.nodup.imp_of_mem fun hb hc hne => ?_
  rw [frames_toPair, frames_toPair]
  exact p.live_disjoint (hs.mem_live hb) (hs.mem_live hc) hne

/-- An outstanding block can be freed, and its frames are free afterwards. -/
theorem exists_freePages (h : ZoneRun node .normal startPfn endPfn freed taken s)
    (h0 : node.startPfn = 0) (hle : startPfn ≤ endPfn) (hend : endPfn < 2 ^ 32)
    (hmem : (page, order) ∈ taken) :
    ∃ s', freePages s page order = some s' ∧
      freeFrames s' .normal = freeFrames s .normal ∪ frames (page, order) := by
  obtain ⟨blocks, nodes, p, hs⟩ := h.accounts h0 hle hend
  obtain ⟨b, hb, hpair⟩ := List.mem_map.mp (hs.out_eq ▸ hmem)
  obtain ⟨rfl, rfl⟩ := Prod.mk.inj hpair
  obtain ⟨s', -, -, hret, -⟩ := hs.free hb
  refine ⟨s', hret, ?_⟩
  rw [(h.free hmem hret).freeFrames_eq h0 hle hend, h.freeFrames_eq h0 hle hend]
  have hsub := h.frames_subset h0 hle hend hmem
  have hnd := h.nodup h0 hle hend
  have hapart := h.pairwise_disjoint h0 hle hend
  have : Std.Symm fun a b : ℕ × ℕ => Disjoint (frames a) (frames b) := ⟨fun _ _ h => h.symm⟩
  ext n
  simp only [Set.mem_sdiff, Set.mem_union, Set.mem_iUnion, exists_prop, hnd.mem_erase_iff, not_exists,
    not_and]
  constructor
  · rintro ⟨hn, hout⟩
    by_cases hframe : n ∈ frames (b.base, b.order)
    · exact Or.inr hframe
    · refine Or.inl ⟨hn, fun a ha => ?_⟩
      rcases eq_or_ne a (b.base, b.order) with rfl | hne
      · exact hframe
      · exact hout a ⟨hne, ha⟩
  · rintro (⟨hn, hout⟩ | hframe)
    · exact ⟨hn, fun a ha => hout a ha.2⟩
    · exact ⟨hsub hframe, fun a ha =>
        Set.disjoint_right.mp (hapart.forall ha.2 hmem ha.1) hframe⟩

end ZoneRun

/-! ### Tasks -/

/-- The tasks in two blocks are as far apart as a block is long. -/
theorem pageVirtualAddress_apart {p q : ℕ} (hp : BlockOk p) (hq : BlockOk q)
    (hpend : p + 2 ≤ lowmemPageFrames) (hqend : q + 2 ≤ lowmemPageFrames) (hne : p ≠ q) :
    pageVirtualAddress p + kernelStackSize ≤ pageVirtualAddress q ∨
      pageVirtualAddress q + kernelStackSize ≤ pageVirtualAddress p := by
  have hpdvd := hp.dvd
  have hqdvd := hq.dvd
  rw [virtualAddress_of_block hpend, virtualAddress_of_block hqend,
    show kernelStackSize = 8192 from rfl]
  omega

/-- An outstanding pair of frames is a block in low memory. -/
theorem ZoneRun.block_lowmem (h : ZoneRun node .normal startPfn endPfn freed taken s)
    (h0 : node.startPfn = 0) (hle : startPfn ≤ endPfn) (hend : endPfn ≤ lowmemPageFrames)
    (hmem : (page, kernelStackOrder) ∈ taken) : BlockOk page ∧ page + 2 ≤ lowmemPageFrames := by
  have hend' : endPfn ≤ 0x38000 := hend
  have hlast : page + 1 ∈ frames (page, kernelStackOrder) :=
    ⟨Nat.le_succ _, show page + 1 < page + 2 by omega⟩
  obtain ⟨blocks, nodes, p, hs⟩ := h.accounts h0 hle (by omega)
  have hlt := (hs.freed_subset (h.frames_subset h0 hle (by omega) hmem hlast)).2
  exact ⟨h.blockOk h0 hle (by omega) hmem, show page + 2 ≤ 0x38000 by omega⟩

section Tasks

variable (run : TaskAllocRun node startPfn endPfn freed others tasks s mem) (h0 : node.startPfn = 0)
  (hle : startPfn ≤ endPfn) (hend : endPfn ≤ lowmemPageFrames)

include run h0 hle hend

/-- A task lies in frames of the allocator. -/
theorem TaskAllocRun.task_frames (ht : task ∈ tasks) :
    IsTask task ∧ frames (pageOfAddress task, kernelStackOrder) ⊆ freed := by
  have hend' : endPfn ≤ 0x38000 := hend
  obtain ⟨pages, taken, rfl, hzone, hperm⟩ := run.backed h0 hle (by omega)
  obtain ⟨page, hpage, rfl⟩ := List.mem_map.mp ht
  have htaken : (page, kernelStackOrder) ∈ taken :=
    hperm.mem_iff.mpr (List.mem_append_left _ (List.mem_map_of_mem hpage))
  obtain ⟨hblock, hlow⟩ := hzone.block_lowmem h0 hle hend htaken
  rw [pageOfAddress_pageVirtualAddress hblock]
  exact ⟨isTask_pageVirtualAddress hblock hlow, hzone.frames_subset h0 hle (by omega) htaken⟩

/-- No task is allocated twice. -/
theorem TaskAllocRun.nodup_tasks : tasks.Nodup := by
  have hend' : endPfn ≤ 0x38000 := hend
  obtain ⟨pages, taken, rfl, hzone, hperm⟩ := run.backed h0 hle (by omega)
  have hblock : ∀ page ∈ pages, BlockOk page := fun page hpage => hzone.blockOk h0 hle (by omega)
    (hperm.mem_iff.mpr (List.mem_append_left _ (List.mem_map_of_mem hpage)))
  have hnd := hperm.nodup_iff.mp (hzone.nodup h0 hle (by omega))
  have hpages : pages.Nodup := (List.nodup_append.mp hnd).1.of_map
  exact hpages.map_on fun p hp q hq => (pageVirtualAddress_inj (hblock p hp) (hblock q hq)).mp

end Tasks

/-- **Tasks from the page allocator are sound.** In every reached state, with the zone in low memory,
a task lies aligned in memory of its own, apart from the other tasks and from the blocks of the other
clients, and every stack pointer on its stack leads `current_task` to it. Freeing it succeeds, and gives
back exactly its two frames. -/
theorem TaskAllocRun.tasks_sound (run : TaskAllocRun node startPfn endPfn freed others tasks s mem)
    (h0 : node.startPfn = 0) (hle : startPfn ≤ endPfn) (hend : endPfn ≤ lowmemPageFrames) :
    (∀ t ∈ tasks, IsTask t ∧ ∀ sp, t ≤ sp → sp < t + kernelStackSize → currentTask sp = t) ∧
    (tasks.Pairwise fun t u => t + kernelStackSize ≤ u ∨ u + kernelStackSize ≤ t) ∧
    (∀ t ∈ tasks, frames (pageOfAddress t, kernelStackOrder) ⊆ freed ∧
      ∀ a ∈ others, Disjoint (frames (pageOfAddress t, kernelStackOrder)) (frames a)) ∧
    ∀ t ∈ tasks, ∃ s', Auos.freeTask s t = some s' ∧
      freeFrames s' .normal = freeFrames s .normal ∪ frames (pageOfAddress t, kernelStackOrder) := by
  have hend' : endPfn ≤ 0x38000 := hend
  have hframes : ∀ t ∈ tasks, IsTask t ∧ frames (pageOfAddress t, kernelStackOrder) ⊆ freed :=
    fun t ht => run.task_frames h0 hle hend ht
  obtain ⟨pages, taken, rfl, hzone, hperm⟩ := run.backed h0 hle (by omega)
  have htaken : ∀ page ∈ pages, (page, kernelStackOrder) ∈ taken := fun page hpage =>
    hperm.mem_iff.mpr (List.mem_append_left _ (List.mem_map_of_mem hpage))
  have hblock : ∀ page ∈ pages, BlockOk page ∧ page + 2 ≤ lowmemPageFrames := fun page hpage =>
    hzone.block_lowmem h0 hle hend (htaken page hpage)
  have hback : ∀ page ∈ pages, pageOfAddress (pageVirtualAddress page) = page := fun page hpage =>
    pageOfAddress_pageVirtualAddress (hblock page hpage).1
  have hnd : (pages.map (·, kernelStackOrder) ++ others).Nodup :=
    hperm.nodup_iff.mp (hzone.nodup h0 hle (by omega))
  have hapart := (hperm.pairwise_iff fun h => h.symm).mp (hzone.pairwise_disjoint h0 hle (by omega))
  refine ⟨?_, ?_, ?_, ?_⟩
  · intro t ht
    have htask := (hframes t ht).1
    exact ⟨htask, fun sp => htask.currentTask_eq⟩
  · rw [List.pairwise_map]
    refine (List.nodup_append.mp hnd).1.of_map.imp_of_mem fun hp hq hne => ?_
    exact pageVirtualAddress_apart (hblock _ hp).1 (hblock _ hq).1 (hblock _ hp).2 (hblock _ hq).2 hne
  · intro t ht
    refine ⟨(hframes t ht).2, fun a ha => ?_⟩
    obtain ⟨page, hpage, rfl⟩ := List.mem_map.mp ht
    rw [hback page hpage]
    exact (List.pairwise_append.mp hapart).2.2 _ (List.mem_map_of_mem hpage) a ha
  · intro t ht
    obtain ⟨page, hpage, rfl⟩ := List.mem_map.mp ht
    rw [Auos.freeTask, hback page hpage]
    exact hzone.exists_freePages h0 hle (by omega) (htaken page hpage)

/-- **Allocating a task.** In every reached state `alloc_task` fails its assertion exactly if no aligned
pair of frames is free. Otherwise the task gets free frames and is a new one, its fields are zero, and no
other byte of memory changes. -/
theorem TaskAllocRun.allocTask_correct
    (run : TaskAllocRun node startPfn endPfn freed others tasks s mem)
    (h0 : node.startPfn = 0) (hle : startPfn ≤ endPfn) (hend : endPfn ≤ lowmemPageFrames) :
    (Auos.allocTask s mem = none ↔
      ¬∃ pfn, 2 ^ kernelStackOrder ∣ pfn ∧ frames (pfn, kernelStackOrder) ⊆ freeFrames s .normal) ∧
    ∀ s' mem' t, Auos.allocTask s mem = some (s', mem', t) →
      frames (pageOfAddress t, kernelStackOrder) ⊆ freeFrames s .normal ∧
      (∀ u ∈ tasks, t + kernelStackSize ≤ u ∨ u + kernelStackSize ≤ t) ∧
      (∀ i < sizeofTask, mem' (t + i) = 0) ∧
      ∀ b, (b < t ∨ t + sizeofTask ≤ b) → mem' b = mem b := by
  have hend' : endPfn ≤ 0x38000 := hend
  obtain ⟨pages, taken, rfl, hzone, hperm⟩ := run.backed h0 hle (by omega)
  rcases allocTask_cases hzone h0 hle (by omega) mem with
    ⟨hnone, hno⟩ | ⟨s', mem', page, hret, hzone', hfree, hzero, hframe⟩
  · refine ⟨iff_of_true hnone hno, fun _ _ _ hret => ?_⟩
    cases hnone.symm.trans hret
  · refine ⟨iff_of_false (by rw [hret]; simp) (not_not.mpr ⟨page, hfree⟩), ?_⟩
    rintro _ _ _ hret'
    cases hret.symm.trans hret'
    obtain ⟨hblock, hlow⟩ := hzone'.block_lowmem h0 hle hend List.mem_cons_self
    have htask := (isTask_pageVirtualAddress hblock hlow).lt
    have hadd : ∀ i < sizeofTask, wadd (pageVirtualAddress page) i = pageVirtualAddress page + i :=
      fun i hi => wadd_of_lt (by
        have hi' : i < 12 := hi
        have htask' : pageVirtualAddress page + 8192 < 2 ^ 32 := htask
        omega)
    refine ⟨?_, ?_, fun i hi => ?_, fun b hb => hframe b fun i hi => ?_⟩
    · rw [pageOfAddress_pageVirtualAddress hblock]
      exact hfree.2
    · intro u hu
      obtain ⟨q, hq, rfl⟩ := List.mem_map.mp hu
      have hmem : (q, kernelStackOrder) ∈ taken :=
        hperm.mem_iff.mpr (List.mem_append_left _ (List.mem_map_of_mem hq))
      obtain ⟨hqblock, hqlow⟩ := hzone.block_lowmem h0 hle hend hmem
      refine pageVirtualAddress_apart hblock hqblock hlow hqlow ?_
      rintro rfl
      exact (List.nodup_cons.mp (hzone'.nodup h0 hle (by omega))).1 hmem
    · rw [← hadd i hi]
      exact hzero i hi
    · rw [hadd i hi]
      omega

/-! ### A run -/

/-- Two frames are freed, and a task can get them. -/
theorem exists_allocTask_blankNode (mem : Memory) :
    ∃ s s' mem' t, ZoneRun blankNode .normal 0 4 {1, 0} [] s ∧
      allocTask s mem = some (s', mem', t) := by
  obtain ⟨s, s', hzone, hpages⟩ := exists_zoneRun_pair (show 2 ≤ 4 by decide) (by decide)
  obtain ⟨mem', hset, -⟩ :=
    @memset_spec (pageVirtualAddress 0) sizeofTask mem (wadd_lt _ _) 0 (by decide)
  exact ⟨s, s', mem', _, hzone, allocTask_of_some hpages hset⟩

theorem exists_taskAllocRun : ∃ s mem t, TaskAllocRun blankNode 0 4 {1, 0} [] [t] s mem := by
  obtain ⟨s, s', mem', t, hzone, hret⟩ := exists_allocTask_blankNode fun _ => 7
  exact ⟨s', mem', t, (TaskAllocRun.start _ hzone).allocTask hret⟩

theorem TaskAllocRun.tasks_sound_blankNode : ∃ s mem t s',
    TaskAllocRun blankNode 0 4 {1, 0} [] [t] s mem ∧ currentTask (t + 8191) = t ∧
      Auos.freeTask s t = some s' := by
  obtain ⟨s, mem, t, run⟩ := exists_taskAllocRun
  obtain ⟨htask, -, -, hfree⟩ := run.tasks_sound rfl (by decide) (by decide)
  obtain ⟨s', hret, -⟩ := hfree t List.mem_cons_self
  exact ⟨s, mem, t, s', run, (htask t List.mem_cons_self).2 _ (by omega)
    (show t + 8191 < t + 8192 by omega), hret⟩

theorem TaskAllocRun.allocTask_correct_blankNode : ∃ s mem t,
    TaskAllocRun blankNode 0 4 {1, 0} [] [t] s mem ∧
      (Auos.allocTask s mem = none ↔ ¬∃ pfn, 2 ^ kernelStackOrder ∣ pfn ∧
        frames (pfn, kernelStackOrder) ⊆ freeFrames s .normal) := by
  obtain ⟨s, mem, t, run⟩ := exists_taskAllocRun
  exact ⟨s, mem, t, run, (run.allocTask_correct rfl (by decide) (by decide)).1⟩

end Auos
