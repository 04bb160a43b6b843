import Auos.BootMem.Defs
import Mathlib.Data.List.TakeWhile
import Mathlib.Data.Vector.Basic

/-!
# A boot memory table as a list of ranges

The array code of `boot_mem_add_range` shifts cells up and down in place. This file says once what it
does to the list of ranges in use: `tableAdd` splits the list at the first range that ends at or after
the new one begins, merges the new range into that one (and then into the next) or inserts it, and
is `none` when the table is full. `bootMemAddRange_eq` is the refinement; everything proved about
tables afterwards is about `tableAdd`.

## Main definitions

* `BootMemType.contents` — the ranges in use
* `tableMerge`, `tableAdd` — one insertion, on lists

## Main results

* `bootMemAddRange_eq` — the array code never leaves the array and computes `tableAdd`
-/

namespace Auos

variable {capacity : ℕ}

namespace BootMemType

/-- The ranges in use. -/
def contents (t : BootMemType capacity) : List BootMemRange := t.ranges.toList.take t.size

/-- The table has no more ranges than cells. -/
def Fits (t : BootMemType capacity) : Prop := t.size ≤ capacity

variable {t t' : BootMemType capacity}

theorem length_contents (h : t.Fits) : t.contents.length = t.size := by
  simpa [contents, Fits] using h

theorem getElem?_contents (t : BootMemType capacity) (m : ℕ) :
    t.contents[m]? = if m < t.size then t.get m else none := by
  simp [contents, get, List.getElem?_take]

theorem get_eq_getElem? {m : ℕ} (h : m < t.size) : t.get m = t.contents[m]? := by
  simp [getElem?_contents, h]

theorem get_eq_getElem {i : ℕ} (h : t.Fits) (hlt : i < t.contents.length) :
    t.get i = some t.contents[i] := by
  rw [get_eq_getElem? (by rwa [← length_contents h]), List.getElem?_eq_getElem hlt]

theorem get_of_contents {pre post : List BootMemRange} {d : BootMemRange} (h : t.Fits)
    (hc : t.contents = pre ++ d :: post) : t.get pre.length = some d := by
  have hlt : pre.length < t.size := by rw [← length_contents h, hc]; simp
  simp [get_eq_getElem? hlt, hc]

theorem get_set {i : ℕ} {r : BootMemRange} (hi : i < capacity) :
    ∃ t', t.set i r = some t' ∧ t'.size = t.size ∧
      ∀ m, t'.get m = if m = i then some r else t.get m := by
  refine ⟨{ t with ranges := t.ranges.set i r }, by simp [set, hi], rfl, ?_⟩
  intro m
  simp only [get, Vector.getElem?_set, eq_comm]

theorem contents_ext {l : List BootMemRange} (hsize : t'.size = l.length)
    (h : ∀ m < l.length, t'.get m = l[m]?) : t'.contents = l := by
  apply List.ext_getElem?
  intro m
  rw [getElem?_contents, hsize]
  split
  · exact h m ‹_›
  · rw [List.getElem?_eq_none (by omega)]

/-- Writing the cell of a range in use replaces it. -/
theorem set_contents {pre post : List BootMemRange} {d r : BootMemRange} (h : t.Fits)
    (hc : t.contents = pre ++ d :: post) :
    ∃ t', t.set pre.length r = some t' ∧ t'.Fits ∧ t'.size = t.size ∧
      t'.contents = pre ++ r :: post := by
  have hlen : t.size = pre.length + (post.length + 1) := by
    rw [← length_contents h, hc]; simp
  obtain ⟨t', hset, hsize, hget⟩ := get_set (t := t) (i := pre.length) (r := r)
    (by have : t.size ≤ capacity := h; omega)
  refine ⟨t', hset, by rw [Fits, hsize]; exact h, hsize, contents_ext (by simp; omega) ?_⟩
  intro m hm
  simp only [List.length_append, List.length_cons] at hm
  rw [hget]
  split
  · simp [*]
  · rw [get_eq_getElem? (by omega), hc]
    rcases Nat.lt_or_ge m pre.length with hlt | hge
    · simp [List.getElem?_append_left hlt]
    · obtain ⟨e, rfl⟩ := Nat.exists_eq_add_of_le hge
      obtain ⟨e, rfl⟩ := Nat.exists_eq_succ_of_ne_zero (show e ≠ 0 by omega)
      rw [List.getElem?_append_right hge, List.getElem?_append_right hge]
      simp

end BootMemType

open BootMemType

variable {t t' : BootMemType capacity}

/-! ### Shifting cells -/

theorem bootMemRemoveLoop_spec {k i : ℕ} (h : i + k < capacity) :
    ∃ t', bootMemRemoveLoop t i k = some t' ∧ t'.size = t.size ∧
      ∀ m, t'.get m = if i ≤ m ∧ m < i + k then t.get (m + 1) else t.get m := by
  induction k generalizing t i with
  | zero => exact ⟨t, rfl, rfl, fun m => by rw [if_neg (by omega)]⟩
  | succ k ih =>
    obtain ⟨next, hnext⟩ : ∃ next, t.get (i + 1) = some next :=
      ⟨t.ranges[i + 1], by simp [BootMemType.get]⟩
    obtain ⟨t₁, hset, hsize, hget⟩ := get_set (t := t) (i := i) (r := next) (by omega)
    obtain ⟨t', hloop, hsize', hget'⟩ := ih (t := t₁) (i := i + 1) (by omega)
    refine ⟨t', by simp [bootMemRemoveLoop, hnext, hset, hloop], hsize'.trans hsize, ?_⟩
    intro m
    rw [hget', hget, hget, ← hnext]
    grind

/-- Removing the range after `pre ++ [d]` shifts the later ranges down. -/
theorem bootMemRemove_spec {pre post : List BootMemRange} {d n : BootMemRange} (h : t.Fits)
    (hc : t.contents = pre ++ d :: n :: post) :
    ∃ t', bootMemRemove t (pre.length + 1) = some t' ∧ t'.Fits ∧
      t'.contents = pre ++ d :: post := by
  have hlen : t.size = pre.length + (post.length + 2) := by
    rw [← length_contents h, hc]; simp
  have hcap : t.size ≤ capacity := h
  obtain ⟨t', hloop, hsize, hget⟩ := bootMemRemoveLoop_spec (t := t)
    (k := t.size - (pre.length + 2)) (i := pre.length + 1) (by omega)
  refine ⟨{ t' with size := t'.size - 1 }, by simp [bootMemRemove, hloop],
    by simp only [Fits]; omega, contents_ext (by simp; omega) ?_⟩
  intro m hm
  simp only [List.length_append, List.length_cons] at hm
  change t'.get m = _
  rw [hget]
  split
  · rw [get_eq_getElem? (by omega), hc]
    obtain ⟨e, rfl⟩ := Nat.exists_eq_add_of_le (show pre.length + 1 ≤ m by omega)
    rw [List.getElem?_append_right (by omega), List.getElem?_append_right (by omega),
      show pre.length + 1 + e + 1 - pre.length = e + 2 by omega,
      show pre.length + 1 + e - pre.length = e + 1 by omega]
    simp
  · rw [get_eq_getElem? (by omega), hc]
    rcases Nat.lt_or_ge m pre.length with hlt | hge
    · simp [List.getElem?_append_left hlt]
    · obtain rfl : m = pre.length := by omega
      simp

theorem bootMemInsertLoop_spec {i j : ℕ} (h : j < capacity) :
    ∃ t', bootMemInsertLoop t i j = some t' ∧ t'.size = t.size ∧
      ∀ m, t'.get m = if i < m ∧ m ≤ j then t.get (m - 1) else t.get m := by
  induction j generalizing t with
  | zero => exact ⟨t, rfl, rfl, fun m => by rw [if_neg (by omega)]⟩
  | succ j ih =>
    by_cases hij : j + 1 > i
    · obtain ⟨prev, hprev⟩ : ∃ prev, t.get j = some prev :=
        ⟨t.ranges[j], by simp [BootMemType.get]⟩
      obtain ⟨t₁, hset, hsize, hget⟩ := get_set (t := t) (i := j + 1) (r := prev) h
      obtain ⟨t', hloop, hsize', hget'⟩ := ih (t := t₁) (by omega)
      refine ⟨t', by simp [bootMemInsertLoop, hij, hprev, hset, hloop], hsize'.trans hsize, ?_⟩
      intro m
      rw [hget', hget, hget, ← hprev]
      grind
    · exact ⟨t, by simp [bootMemInsertLoop, hij], rfl, fun m => by rw [if_neg (by omega)]⟩

/-- Inserting shifts the later ranges up, unless the table is full. -/
theorem bootMemInsert_spec {pre post : List BootMemRange} {r : BootMemRange} (h : t.Fits)
    (hc : t.contents = pre ++ post) (hfull : t.size ≠ capacity) :
    ∃ t', bootMemInsert t r pre.length = some (0, t') ∧ t'.Fits ∧
      t'.contents = pre ++ r :: post := by
  have hlen : t.size = pre.length + post.length := by rw [← length_contents h, hc]; simp
  have hlt : t.size < capacity := lt_of_le_of_ne h hfull
  obtain ⟨t₁, hloop, hsize, hget⟩ := bootMemInsertLoop_spec (t := t) (i := pre.length) hlt
  obtain ⟨t₂, hset, hsize', hget'⟩ := get_set (t := t₁) (i := pre.length) (r := r) (by omega)
  refine ⟨{ t₂ with size := t.size + 1 }, by simp [bootMemInsert, hfull, hloop, hset], hlt,
    contents_ext (by simp; omega) ?_⟩
  intro m hm
  simp only [List.length_append, List.length_cons] at hm
  change t₂.get m = _
  rw [hget']
  split
  · simp [*]
  rw [hget]
  split
  · rw [get_eq_getElem? (by omega), hc]
    obtain ⟨e, rfl⟩ := Nat.exists_eq_add_of_le (show pre.length + 1 ≤ m by omega)
    rw [List.getElem?_append_right (by omega), List.getElem?_append_right (by omega),
      show pre.length + 1 + e - 1 - pre.length = e by omega,
      show pre.length + 1 + e - pre.length = e + 1 by omega]
    simp
  · rw [get_eq_getElem? (by omega), hc, List.getElem?_append_left (by omega),
      List.getElem?_append_left (by omega)]

/-! ### Insertion on lists -/

/-- Does a range end before the address? -/
def BootMemRange.endsBefore (addr : ℕ) (r : BootMemRange) : Bool := decide (r.endAddr < addr)

/-- The merging part of `boot_mem_add_range` at the ranges from the split point on; `none` when the
new range does not overlap the first of them. -/
def tableMerge (r : BootMemRange) : List BootMemRange → Option (List BootMemRange)
  | [] => none
  | [d] => if bootMemOverlap d r then some [bootMemMerge d r] else none
  | d :: n :: rest =>
    if bootMemOverlap d r then
      if bootMemOverlap (bootMemMerge d r) n then some (bootMemMerge (bootMemMerge d r) n :: rest)
      else some (bootMemMerge d r :: n :: rest)
    else none

/-- `boot_mem_add_range` on the list of ranges in use; `none` when the table is full. -/
def tableAdd (capacity : ℕ) (l : List BootMemRange) (r : BootMemRange) :
    Option (List BootMemRange) :=
  if r.endAddr ≤ r.beginAddr then some l
  else
    let pre := l.takeWhile (·.endsBefore r.beginAddr)
    let post := l.dropWhile (·.endsBefore r.beginAddr)
    match tableMerge r post with
    | some post' => some (pre ++ post')
    | none => if l.length = capacity then none else some (pre ++ r :: post)

/-- The search loop stops at the split point. -/
theorem bootMemAddRangeSearch_spec {beginAddr k i : ℕ} (h : t.Fits) (hi : i + k = t.size) :
    bootMemAddRangeSearch t beginAddr i k =
      some (i + ((t.contents.drop i).takeWhile (·.endsBefore beginAddr)).length) := by
  induction k generalizing i with
  | zero =>
    have hnil : t.contents.drop i = [] :=
      List.drop_eq_nil_of_le (by rw [length_contents h]; omega)
    simp [bootMemAddRangeSearch, hnil]
  | succ k ih =>
    have hlt : i < t.contents.length := by rw [length_contents h]; omega
    have hget : t.get i = some t.contents[i] := get_eq_getElem h hlt
    rw [List.drop_eq_getElem_cons hlt, bootMemAddRangeSearch, hget, List.takeWhile_cons]
    by_cases hend : t.contents[i].endAddr < beginAddr
    · have hend' : ¬ t.contents[i].endAddr ≥ beginAddr := by omega
      simp only [Option.bind_eq_bind, Option.bind_some, hend', if_false, ih (i := i + 1) (by omega),
        BootMemRange.endsBefore, hend, decide_true, if_true, List.length_cons]
      congr 1
      omega
    · have hend' : t.contents[i].endAddr ≥ beginAddr := by omega
      simp [hend', BootMemRange.endsBefore, hend]

/-- **The array code computes `tableAdd`**, without ever leaving the array. A refused insertion
returns the very table it was given. -/
theorem bootMemAddRange_eq (h : t.Fits) (beginAddr endAddr : ℕ) :
    (∃ t', bootMemAddRange t beginAddr endAddr = some (0, t') ∧ t'.Fits ∧
      tableAdd capacity t.contents ⟨beginAddr, endAddr⟩ = some t'.contents) ∨
    (bootMemAddRange t beginAddr endAddr = some (-1, t) ∧
      tableAdd capacity t.contents ⟨beginAddr, endAddr⟩ = none) := by
  by_cases hempty : endAddr ≤ beginAddr
  · exact Or.inl ⟨t, by simp [bootMemAddRange, hempty], h, by simp [tableAdd, hempty]⟩
  obtain ⟨pre, hpre⟩ : ∃ pre, t.contents.takeWhile (·.endsBefore beginAddr) = pre := ⟨_, rfl⟩
  obtain ⟨post, hpost⟩ : ∃ post, t.contents.dropWhile (·.endsBefore beginAddr) = post := ⟨_, rfl⟩
  have hc : t.contents = pre ++ post := by
    rw [← hpre, ← hpost, List.takeWhile_append_dropWhile]
  have hlen : t.size = pre.length + post.length := by rw [← length_contents h, hc]; simp
  have hsearch : bootMemAddRangeSearch t beginAddr 0 t.size = some pre.length := by
    rw [bootMemAddRangeSearch_spec h (by omega), List.drop_zero, hpre, Nat.zero_add]
  have hfull : t.contents.length = capacity ↔ t.size = capacity := by rw [length_contents h]
  -- inserting, whichever test led there
  have hins : tableMerge ⟨beginAddr, endAddr⟩ post = none →
      bootMemAddRange t beginAddr endAddr
        = bootMemInsert t ⟨beginAddr, endAddr⟩ pre.length →
      (∃ t', bootMemAddRange t beginAddr endAddr = some (0, t') ∧ t'.Fits ∧
        tableAdd capacity t.contents ⟨beginAddr, endAddr⟩ = some t'.contents) ∨
      (bootMemAddRange t beginAddr endAddr = some (-1, t) ∧
        tableAdd capacity t.contents ⟨beginAddr, endAddr⟩ = none) := by
    intro hmerge heq
    by_cases hcap : t.size = capacity
    · exact Or.inr ⟨by rw [heq]; simp [bootMemInsert, hcap],
        by simp [tableAdd, hempty, hpost, hmerge, hfull.mpr hcap]⟩
    · obtain ⟨t', hret, hfits, hcont⟩ :=
        bootMemInsert_spec (r := ⟨beginAddr, endAddr⟩) h hc hcap
      exact Or.inl ⟨t', by rw [heq, hret], hfits,
        by simp [tableAdd, hempty, hpre, hpost, hmerge, hfull, hcap, hcont]⟩
  cases post with
  | nil =>
    refine hins rfl ?_
    have hi : pre.length = t.size := by rw [hlen]; rfl
    simp [bootMemAddRange, hempty, hsearch, hi]
  | cons d rest =>
    have hi : pre.length ≠ t.size := by rw [hlen]; simp
    have hget := get_of_contents h hc
    by_cases hov : bootMemOverlap d ⟨beginAddr, endAddr⟩ = true
    · obtain ⟨t₁, hset, hfits, hsize, hcont⟩ :=
        set_contents (r := bootMemMerge d ⟨beginAddr, endAddr⟩) h hc
      refine Or.inl ?_
      cases rest with
      | nil =>
        have hlast : pre.length + 1 = t₁.size := by rw [hsize, hlen]; rfl
        exact ⟨t₁, by simp [bootMemAddRange, hempty, hsearch, hi, hget, hov, hset, hlast], hfits,
          by simp [tableAdd, hempty, hpre, hpost, tableMerge, hov, hcont]⟩
      | cons n rest =>
        have hnext : pre.length + 1 ≠ t₁.size := by rw [hsize, hlen]; simp
        have hcont' : t₁.contents
            = (pre ++ [bootMemMerge d ⟨beginAddr, endAddr⟩]) ++ n :: rest := by simpa using hcont
        have hgetn := get_of_contents hfits hcont'
        rw [List.length_append, List.length_singleton] at hgetn
        by_cases hov' : bootMemOverlap (bootMemMerge d ⟨beginAddr, endAddr⟩) n = true
        · obtain ⟨t₂, hset₂, hfits₂, -, hcont₂⟩ :=
            set_contents (r := bootMemMerge (bootMemMerge d ⟨beginAddr, endAddr⟩) n) hfits hcont
          obtain ⟨t₃, hrem, hfits₃, hcont₃⟩ := bootMemRemove_spec hfits₂ hcont₂
          exact ⟨t₃, by simp [bootMemAddRange, hempty, hsearch, hi, hget, hov, hset, hnext, hgetn,
            hov', hset₂, hrem], hfits₃,
            by simp [tableAdd, hempty, hpre, hpost, tableMerge, hov, hov', hcont₃]⟩
        · exact ⟨t₁, by simp [bootMemAddRange, hempty, hsearch, hi, hget, hov, hset, hnext, hgetn,
            hov'], hfits, by simp [tableAdd, hempty, hpre, hpost, tableMerge, hov, hov', hcont]⟩
    · refine hins (by cases rest <;> simp [tableMerge, hov]) ?_
      simp [bootMemAddRange, hempty, hsearch, hi, hget, hov]

theorem fits_empty : (BootMemType.empty capacity).Fits := Nat.zero_le _

@[simp] theorem contents_empty : (BootMemType.empty capacity).contents = [] := by
  simp [BootMemType.empty, contents]

end Auos
