import Mathlib.Data.List.GetD
import Mathlib.Logic.Function.Basic

/-!
# Memory of a known size

A buffer of `size` cells. A load or a store outside is an error.

## Main definitions

* `Buffer.store`, `Buffer.load`
* `Buffer.put` — a buffer that holds a list from some offset on

## Main results

* `Buffer.store_append`, `Buffer.store_middle`, `Buffer.load_middle` — one store or load as an
  operation on the list
-/

namespace Auos

namespace Buffer

variable {β : Type*} {size off i : ℕ} {mem : ℕ → β} {b c : β} {s l r : List β}

/-- Store a value at `i`. -/
def store (size : ℕ) (mem : ℕ → β) (i : ℕ) (b : β) : Option (ℕ → β) :=
  if i < size then some (Function.update mem i b) else none

/-- Load the value at `i`. -/
def load (size : ℕ) (mem : ℕ → β) (i : ℕ) : Option β := if i < size then some (mem i) else none

theorem store_of_lt (h : i < size) : store size mem i b = some (Function.update mem i b) := if_pos h

theorem load_of_lt (h : i < size) : load size mem i = some (mem i) := if_pos h

/-! ### Lists in a buffer -/

/-- The values of `s` from `off` on, and what was there before elsewhere. -/
def put (mem : ℕ → β) (off : ℕ) (s : List β) (i : ℕ) : β :=
  if off ≤ i then s.getD (i - off) (mem i) else mem i

@[simp] theorem put_nil (mem : ℕ → β) (off : ℕ) : put mem off [] = mem := by
  funext i
  simp [put]

theorem put_of_lt (h : i < off) : put mem off s i = mem i := if_neg (Nat.not_le.mpr h)

theorem put_of_ge (h : off + s.length ≤ i) : put mem off s i = mem i := by
  rw [put, if_pos (by omega), List.getD_eq_default _ _ (by omega)]

theorem put_add (h : i < s.length) : put mem off s (off + i) = s.get ⟨i, h⟩ := by
  rw [put, if_pos (Nat.le_add_right off i), Nat.add_sub_cancel_left, List.getD_eq_getElem _ _ h]
  rfl

/-- The value that follows a prefix. -/
theorem put_middle : put mem off (l ++ c :: r) (off + l.length) = c := by
  rw [put_add (by simp)]
  simp

/-- One list behind another. -/
theorem put_put : put (put mem off l) (off + l.length) r = put mem off (l ++ r) := by
  funext i
  rcases Nat.lt_or_ge i off with hlt | hge
  · rw [put_of_lt (by omega), put_of_lt hlt, put_of_lt hlt]
  rcases Nat.lt_or_ge i (off + l.length) with hlt | hge'
  · rw [put_of_lt hlt, put, put, if_pos hge, if_pos hge, List.getD_append _ _ _ _ (by omega)]
  · rw [put, if_pos hge', put_of_ge hge', put, if_pos hge, List.getD_append_right _ _ _ _ (by omega),
      Nat.sub_sub]

/-- Storing over the value that follows a prefix. -/
theorem update_put_middle :
    Function.update (put mem off (l ++ c :: r)) (off + l.length) b = put mem off (l ++ b :: r) := by
  funext i
  rw [Function.update_apply]
  split
  · next heq => rw [heq, put_middle]
  · next hne =>
    rcases Nat.lt_or_ge i off with hlt | hge
    · rw [put_of_lt hlt, put_of_lt hlt]
    · have hne' : i - off ≠ l.length := by omega
      rw [put, put, if_pos hge, if_pos hge, List.getD_eq_getElem?_getD, List.getD_eq_getElem?_getD,
        List.getElem?_append, List.getElem?_append]
      split
      · rfl
      · rw [List.getElem?_cons, List.getElem?_cons, if_neg (by omega), if_neg (by omega)]

/-- Storing behind a list. -/
theorem update_put_append :
    Function.update (put mem off s) (off + s.length) b = put mem off (s ++ [b]) := by
  funext i
  rw [Function.update_apply]
  split
  · next heq => rw [heq, put_middle]
  · next hne =>
    rcases Nat.lt_or_ge i off with hlt | hge
    · rw [put_of_lt hlt, put_of_lt hlt]
    · have hne' : i - off ≠ s.length := by omega
      rw [put, put, if_pos hge, if_pos hge, List.getD_eq_getElem?_getD, List.getD_eq_getElem?_getD,
        List.getElem?_append]
      split
      · rfl
      · rw [List.getElem?_eq_none (by omega), List.getElem?_cons, if_neg (by omega)]
        simp

/-- A store behind a list makes it longer. -/
theorem store_append (h : off + s.length < size) :
    store size (put mem off s) (off + s.length) b = some (put mem off (s ++ [b])) := by
  rw [store_of_lt h, update_put_append]

/-- A store within a list. -/
theorem store_middle (h : off + l.length < size) :
    store size (put mem off (l ++ c :: r)) (off + l.length) b = some (put mem off (l ++ b :: r)) := by
  rw [store_of_lt h, update_put_middle]

/-- A load within a list. -/
theorem load_middle (h : off + l.length < size) :
    load size (put mem off (l ++ c :: r)) (off + l.length) = some c := by
  rw [load_of_lt h, put_middle]

end Buffer

end Auos
