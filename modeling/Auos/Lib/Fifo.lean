import Mathlib.Data.List.Range
import Mathlib.Data.Nat.ModEq
import Mathlib.Logic.Function.Basic

/-!
# Bounded queues in circular arrays

A queue of bounded capacity takes an arriving element only while it has room, and gives elements back
in the order they arrived. `Fifo.Log` runs one on arrivals and requests in any order and records what
it took and what it gave back.

A circular array holds such a queue in the cells from `first` on, modulo the capacity. Only the two
facts about its ends are needed: writing the cell after the last appends (`slots_update`), and the
queue without its first element starts one cell later (`slots_succ`).

## Main definitions

* `Fifo.offer`, `Fifo.taken` — one arrival, and which of many arrivals are taken
* `Fifo.Log` — a queue with its history
* `slots` — the contents of a circular array

## Main results

* `Fifo.Log.conserves_run` — no element is lost, repeated or reordered, and the bound is kept
-/

namespace Auos

variable {α : Type*}

namespace Fifo

/-- The queue after `x` arrives: it is taken while there is room. -/
def offer (cap : ℕ) (queue : List α) (x : α) : List α :=
  if queue.length < cap then queue ++ [x] else queue

/-- The elements of `xs`, arriving in this order, that are taken. -/
def taken (cap : ℕ) : List α → List α → List α
  | _, [] => []
  | queue, x :: xs =>
    if queue.length < cap then x :: taken cap (queue ++ [x]) xs else taken cap queue xs

theorem offer_length_le {cap : ℕ} {queue : List α} (h : queue.length ≤ cap) (x : α) :
    (offer cap queue x).length ≤ cap := by
  rw [offer]
  split_ifs with hroom
  · rw [List.length_append, List.length_singleton]
    exact hroom
  · exact h

theorem foldl_offer (cap : ℕ) (queue xs : List α) :
    xs.foldl (offer cap) queue = queue ++ taken cap queue xs := by
  induction xs generalizing queue with
  | nil => rw [List.foldl_nil, taken, List.append_nil]
  | cons x xs ih =>
    rw [List.foldl_cons, ih, offer, taken]
    split_ifs with hroom
    · rw [List.append_assoc, List.singleton_append]
    · rfl

theorem foldl_offer_length_le {cap : ℕ} {queue : List α} (h : queue.length ≤ cap) (xs : List α) :
    (xs.foldl (offer cap) queue).length ≤ cap := by
  induction xs generalizing queue with
  | nil => exact h
  | cons x xs ih => exact ih (offer_length_le h x)

/-- What can happen to a queue. -/
inductive Event (α : Type*)
  /-- Elements arrive. -/
  | arrive (xs : List α)
  /-- Up to `n` elements are asked for. -/
  | request (n : ℕ)

/-- A queue, with the elements taken and given back so far. -/
structure Log (α : Type*) where
  /-- The elements in the queue. -/
  queue : List α
  /-- The elements taken. -/
  accepted : List α
  /-- The elements given back. -/
  returned : List α

namespace Log

/-- The empty queue, without a history. -/
def empty : Log α := ⟨[], [], []⟩

/-- One event. -/
def step (cap : ℕ) (log : Log α) : Event α → Log α
  | .arrive xs =>
    { log with
      queue := xs.foldl (offer cap) log.queue
      accepted := log.accepted ++ taken cap log.queue xs }
  | .request n =>
    { log with
      queue := log.queue.drop n
      returned := log.returned ++ log.queue.take n }

/-- The events from the empty queue on. -/
def run (cap : ℕ) (events : List (Event α)) : Log α := events.foldl (step cap) empty

/-- The queue within its bound, and everything taken either given back or still there, in order. -/
def Conserves (cap : ℕ) (log : Log α) : Prop :=
  log.returned ++ log.queue = log.accepted ∧ log.queue.length ≤ cap

theorem Conserves.step {cap : ℕ} {log : Log α} (h : log.Conserves cap) (event : Event α) :
    (log.step cap event).Conserves cap := by
  cases event with
  | arrive xs =>
    refine ⟨?_, foldl_offer_length_le h.2 xs⟩
    simp only [Log.step]
    rw [foldl_offer, ← List.append_assoc, h.1]
  | request n =>
    refine ⟨?_, ?_⟩
    · simp only [Log.step]
      rw [List.append_assoc, List.take_append_drop, h.1]
    · simp only [Log.step, List.length_drop]
      exact (Nat.sub_le _ _).trans h.2

/-- **A bounded queue conserves its elements**, whatever the order of arrivals and requests. -/
theorem conserves_run (cap : ℕ) (events : List (Event α)) : (run cap events).Conserves cap := by
  have hstep : ∀ log : Log α, log.Conserves cap → (events.foldl (Log.step cap) log).Conserves cap := by
    induction events with
    | nil => exact fun log h => h
    | cons event events ih => exact fun log h => ih _ (h.step event)
  exact hstep empty ⟨rfl, Nat.zero_le cap⟩

end Log

end Fifo

/-! ### Circular arrays -/

/-- The contents of the `n` cells from `first` on, modulo the capacity. -/
def slots (mem : ℕ → α) (cap first n : ℕ) : List α :=
  (List.range n).map fun i => mem ((first + i) % cap)

variable {mem : ℕ → α} {cap first n : ℕ}

@[simp] theorem length_slots : (slots mem cap first n).length = n := by simp [slots]

@[simp] theorem slots_zero : slots mem cap first 0 = [] := rfl

/-- The start counts modulo the capacity. -/
@[simp] theorem slots_mod : slots mem cap (first % cap) n = slots mem cap first n := by
  simp [slots]

/-- The first element and the others. -/
theorem slots_succ :
    slots mem cap first (n + 1) = mem (first % cap) :: slots mem cap (first + 1) n := by
  rw [slots, List.range_succ_eq_map, List.map_cons, List.map_map, slots, Nat.add_zero]
  congr 1
  refine List.map_congr_left fun i _ => ?_
  rw [Function.comp_apply, Nat.add_right_comm, Nat.add_assoc]

/-- Writing the cell after the last appends, as long as there is a free cell. -/
theorem slots_update (h : n < cap) (x : α) :
    slots (Function.update mem ((first + n) % cap) x) cap first (n + 1) =
      slots mem cap first n ++ [x] := by
  rw [slots, List.range_succ, List.map_append, List.map_singleton, Function.update_self, slots]
  congr 1
  refine List.map_congr_left fun i hi => Function.update_of_ne ?_ _ _
  intro heq
  -- two cells of the window at most `n` apart are different
  have hi' := List.mem_range.mp hi
  have hmod : Nat.ModEq cap i n := Nat.ModEq.add_left_cancel' first heq
  exact hi'.ne (hmod.eq_of_lt_of_lt (hi'.trans h) h)

end Auos
