import Auos.BootMem.Table
import Mathlib.Order.Interval.Set.Basic
import Mathlib.Data.Set.Lattice

/-!
# A boot memory table as a set of addresses

What an insertion does to the set of addresses a table covers. The invariant that carries it is that
every reachable table is *ordered*: its ranges are non-empty and their begins increase. Ranges of a
reachable table may overlap, and nothing here assumes that they do not.

## Main definitions

* `BootMemRange.addrs`, `covered` — the addresses of a range and of a list of ranges
* `Ordered` — non-empty ranges with increasing begins
* `AddRun` — tables reached by `boot_mem_add_range` calls from the empty one

## Main results

* `tableAdd_spec` — one insertion
* `bootMemAddRange_covers` — the effect of a call in any reachable table
-/

namespace Auos

open BootMemType

/-! ### Addresses -/

/-- The addresses of a range. -/
def BootMemRange.addrs (r : BootMemRange) : Set ℕ := Set.Ico r.beginAddr r.endAddr

/-- The addresses covered by a list of ranges. -/
def covered (l : List BootMemRange) : Set ℕ := {x | ∃ r ∈ l, x ∈ r.addrs}

variable {l l' pre post : List BootMemRange} {r d : BootMemRange} {capacity x : ℕ}

theorem BootMemRange.mem_addrs : x ∈ r.addrs ↔ r.beginAddr ≤ x ∧ x < r.endAddr := Iff.rfl

theorem mem_covered : x ∈ covered l ↔ ∃ r ∈ l, x ∈ r.addrs := Iff.rfl

@[simp] theorem covered_nil : covered [] = ∅ := by simp [covered]

theorem covered_cons : covered (r :: l) = r.addrs ∪ covered l := by
  ext x; simp [mem_covered]

theorem covered_append : covered (pre ++ post) = covered pre ∪ covered post := by
  ext x; simp [mem_covered, or_and_right, exists_or]

/-- The hull of two ranges that overlap or touch is their union. -/
theorem addrs_bootMemMerge (h : bootMemOverlap d r = true) :
    (bootMemMerge d r).addrs = d.addrs ∪ r.addrs := by
  simp only [bootMemOverlap, Bool.or_eq_true, Bool.and_eq_true, decide_eq_true_eq] at h
  ext x
  simp only [Set.mem_union, BootMemRange.mem_addrs, bootMemMerge, minu_eq, maxu_eq]
  omega

theorem bootMemMerge_nonempty (hd : d.beginAddr < d.endAddr) :
    (bootMemMerge d r).beginAddr < (bootMemMerge d r).endAddr := by
  simp only [bootMemMerge, minu_eq, maxu_eq]; omega

/-! ### Ordered tables -/

/-- Non-empty ranges with increasing begins. -/
structure Ordered (l : List BootMemRange) : Prop where
  /-- No range is empty. -/
  nonempty : ∀ r ∈ l, r.beginAddr < r.endAddr
  /-- Begins increase. -/
  sorted : l.Pairwise fun a b => a.beginAddr < b.beginAddr

theorem ordered_iff : Ordered l ↔
    (∀ r ∈ l, r.beginAddr < r.endAddr) ∧ l.Pairwise fun a b => a.beginAddr < b.beginAddr :=
  ⟨fun h => ⟨h.nonempty, h.sorted⟩, fun h => ⟨h.1, h.2⟩⟩

section Pairwise

variable {R : BootMemRange → BootMemRange → Prop}

theorem nonempty_pairwise_cons :
    ((∀ a ∈ d :: l, a.beginAddr < a.endAddr) ∧ (d :: l).Pairwise R) ↔
      d.beginAddr < d.endAddr ∧ (∀ a ∈ l, R d a) ∧
        (∀ a ∈ l, a.beginAddr < a.endAddr) ∧ l.Pairwise R := by
  rw [List.forall_mem_cons, List.pairwise_cons, and_assoc, and_left_comm (b := ∀ a ∈ l, R d a)]

theorem nonempty_pairwise_append :
    ((∀ a ∈ pre ++ post, a.beginAddr < a.endAddr) ∧ (pre ++ post).Pairwise R) ↔
      ((∀ a ∈ pre, a.beginAddr < a.endAddr) ∧ pre.Pairwise R) ∧
        ((∀ a ∈ post, a.beginAddr < a.endAddr) ∧ post.Pairwise R) ∧
          ∀ a ∈ pre, ∀ b ∈ post, R a b := by
  rw [List.forall_mem_append, List.pairwise_append, and_and_and_comm]
  exact and_congr_right fun _ => and_assoc.symm

end Pairwise

theorem ordered_nil : Ordered [] := ⟨by simp, List.Pairwise.nil⟩

theorem ordered_cons :
    Ordered (d :: l) ↔ d.beginAddr < d.endAddr ∧ (∀ a ∈ l, d.beginAddr < a.beginAddr) ∧ Ordered l := by
  rw [ordered_iff, nonempty_pairwise_cons, ordered_iff]

theorem ordered_append : Ordered (pre ++ post) ↔
    Ordered pre ∧ Ordered post ∧ ∀ a ∈ pre, ∀ b ∈ post, a.beginAddr < b.beginAddr := by
  rw [ordered_iff, nonempty_pairwise_append, ← ordered_iff, ← ordered_iff]

/-- The split point of an insertion: everything before it ends before the new range begins, and
the first range after it does not. -/
theorem split_spec (l : List BootMemRange) (addr : ℕ) :
    ∃ pre post, l = pre ++ post ∧ l.takeWhile (·.endsBefore addr) = pre ∧
      l.dropWhile (·.endsBefore addr) = post ∧ (∀ a ∈ pre, a.endAddr < addr) ∧
      ∀ d rest, post = d :: rest → addr ≤ d.endAddr := by
  refine ⟨_, _, List.takeWhile_append_dropWhile.symm, rfl, rfl, ?_, ?_⟩
  · intro a ha
    simpa [BootMemRange.endsBefore] using List.mem_takeWhile_imp ha
  · intro d rest hpost
    have hhead := List.head?_dropWhile_not (p := (·.endsBefore addr)) l
    rw [hpost] at hhead
    simpa [BootMemRange.endsBefore] using hhead

/-- What a merge can do, said once: the new range is merged with the first range from the split point
on, and the result with the second one if they overlap. -/
theorem tableMerge_cases (hm : tableMerge r post = some l') :
    ∃ d rest, post = d :: rest ∧ bootMemOverlap d r = true ∧
      ((l' = bootMemMerge d r :: rest ∧
          ∀ n ∈ rest.head?, ¬ bootMemOverlap (bootMemMerge d r) n = true) ∨
        ∃ n rest', rest = n :: rest' ∧ bootMemOverlap (bootMemMerge d r) n = true ∧
          l' = bootMemMerge (bootMemMerge d r) n :: rest') := by
  match post with
  | [] => cases hm
  | [d] =>
    rw [tableMerge] at hm
    split at hm
    · rename_i hov
      cases hm
      exact ⟨d, [], rfl, hov, Or.inl ⟨rfl, by simp⟩⟩
    · cases hm
  | d :: n :: rest =>
    rw [tableMerge] at hm
    split at hm
    · rename_i hov
      split at hm
      · rename_i hov'
        cases hm
        exact ⟨d, n :: rest, rfl, hov, Or.inr ⟨n, rest, rfl, hov', rfl⟩⟩
      · rename_i hov'
        cases hm
        exact ⟨d, n :: rest, rfl, hov, Or.inl ⟨rfl, by simpa using hov'⟩⟩
    · cases hm

theorem begin_bootMemMerge (d r : BootMemRange) :
    (bootMemMerge d r).beginAddr = min r.beginAddr d.beginAddr := by simp [bootMemMerge]

theorem end_bootMemMerge (d r : BootMemRange) :
    (bootMemMerge d r).endAddr = max r.endAddr d.endAddr := by simp [bootMemMerge]

/-- What merging does to the ranges from the split point on. -/
theorem tableMerge_spec (h : Ordered post)
    (hfirst : ∀ d rest, post = d :: rest → r.beginAddr ≤ d.endAddr)
    (hm : tableMerge r post = some l') :
    Ordered l' ∧ covered l' = covered post ∪ r.addrs ∧
      ∀ a, a < r.beginAddr → (∀ b ∈ post, a < b.beginAddr) → ∀ b ∈ l', a < b.beginAddr := by
  obtain ⟨d, rest, rfl, hov, ⟨rfl, -⟩ | ⟨n, rest, rfl, hov', rfl⟩⟩ := tableMerge_cases hm
  · obtain ⟨hd, hdl, hrest⟩ := ordered_cons.mp h
    refine ⟨ordered_cons.mpr ⟨bootMemMerge_nonempty hd, ?_, hrest⟩, ?_, ?_⟩
    · intro a ha
      rw [begin_bootMemMerge]
      exact min_lt_of_right_lt (hdl a ha)
    · rw [covered_cons, covered_cons, addrs_bootMemMerge hov]
      ac_rfl
    · intro a har hab b hb
      rcases List.mem_cons.mp hb with rfl | hb
      · rw [begin_bootMemMerge]
        exact lt_min har (hab d List.mem_cons_self)
      · exact hab b (List.mem_cons_of_mem d hb)
  · obtain ⟨hd, hdl, htail⟩ := ordered_cons.mp h
    obtain ⟨hn, hnl, hrest⟩ := ordered_cons.mp htail
    have hne := bootMemMerge_nonempty (r := n) (bootMemMerge_nonempty (r := r) hd)
    refine ⟨ordered_cons.mpr ⟨hne, ?_, hrest⟩, ?_, ?_⟩
    · intro a ha
      rw [begin_bootMemMerge]
      exact min_lt_of_left_lt (hnl a ha)
    · rw [covered_cons, covered_cons, covered_cons, addrs_bootMemMerge hov',
        addrs_bootMemMerge hov]
      ac_rfl
    · intro a har hab b hb
      rcases List.mem_cons.mp hb with rfl | hb
      · rw [begin_bootMemMerge, begin_bootMemMerge]
        exact lt_min (hab n (by simp)) (lt_min har (hab d List.mem_cons_self))
      · exact hab b (by simp [hb])

/-- Nothing is merged exactly when the first range from the split point on does not overlap. -/
theorem tableMerge_eq_none_iff {rest : List BootMemRange} :
    tableMerge r (d :: rest) = none ↔ ¬ bootMemOverlap d r = true := by
  cases rest with
  | nil => simp [tableMerge]
  | cons n rest =>
    rw [tableMerge]
    by_cases hov : bootMemOverlap d r = true
    · rw [if_pos hov]
      split <;> simp [hov]
    · rw [if_neg hov]
      simp [hov]

/-- When nothing is merged the new range begins before everything from the split point on. -/
theorem begin_lt_of_tableMerge_eq_none (h : Ordered post)
    (hfirst : ∀ d rest, post = d :: rest → r.beginAddr ≤ d.endAddr)
    (hm : tableMerge r post = none) : ∀ b ∈ post, r.beginAddr < b.beginAddr := by
  match post, h, hfirst with
  | [], _, _ => simp
  | d :: rest, h, hfirst =>
    obtain ⟨-, hdl, -⟩ := ordered_cons.mp h
    have hde := hfirst d rest rfl
    have hov := tableMerge_eq_none_iff.mp hm
    have hrd : r.beginAddr < d.beginAddr := by
      simp only [bootMemOverlap, Bool.or_eq_true, Bool.and_eq_true, decide_eq_true_eq] at hov
      omega
    intro b hb
    rcases List.mem_cons.mp hb with rfl | hb
    · exact hrd
    · exact hrd.trans (hdl b hb)

/-- What an insertion can do, said once: the ranges from the split point on are merged, or the new range
is put there. -/
theorem tableAdd_cases (hr : r.beginAddr < r.endAddr) (ha : tableAdd capacity l r = some l') :
    ∃ pre post, l = pre ++ post ∧ l.dropWhile (·.endsBefore r.beginAddr) = post ∧
      (∀ a ∈ pre, a.endAddr < r.beginAddr) ∧
      (∀ d rest, post = d :: rest → r.beginAddr ≤ d.endAddr) ∧
      ((∃ post', tableMerge r post = some post' ∧ l' = pre ++ post') ∨
        (tableMerge r post = none ∧ l' = pre ++ r :: post)) := by
  obtain ⟨pre, post, hl, htake, hdrop, hpre, hfirst⟩ := split_spec l r.beginAddr
  refine ⟨pre, post, hl, hdrop, hpre, hfirst, ?_⟩
  simp only [tableAdd, not_le.mpr hr, if_false, htake, hdrop] at ha
  cases hm : tableMerge r post with
  | some post' =>
    rw [hm] at ha
    cases ha
    exact Or.inl ⟨post', rfl, rfl⟩
  | none =>
    simp only [hm] at ha
    split at ha
    · cases ha
    · cases ha
      exact Or.inr ⟨rfl, rfl⟩

/-- **One insertion adds exactly the addresses of the new range and keeps the table ordered.** -/
theorem tableAdd_spec (h : Ordered l) (ha : tableAdd capacity l r = some l') :
    Ordered l' ∧ covered l' = covered l ∪ r.addrs := by
  by_cases hempty : r.endAddr ≤ r.beginAddr
  · rw [tableAdd, if_pos hempty] at ha
    cases ha
    have hnil : r.addrs = ∅ := Set.Ico_eq_empty (by omega)
    exact ⟨h, by rw [hnil, Set.union_empty]⟩
  have hr : r.beginAddr < r.endAddr := not_le.mp hempty
  obtain ⟨pre, post, rfl, -, hpre, hfirst, hcases⟩ := tableAdd_cases hr ha
  obtain ⟨h₁, h₂, h₃⟩ := ordered_append.mp h
  have hlt : ∀ a ∈ pre, a.beginAddr < r.beginAddr := fun a ha =>
    (h₁.nonempty a ha).trans (hpre a ha)
  rcases hcases with ⟨post', hm, rfl⟩ | ⟨hm, rfl⟩
  · obtain ⟨hord, hcov, hbeg⟩ := tableMerge_spec h₂ hfirst hm
    refine ⟨ordered_append.mpr ⟨h₁, hord, fun a ha => hbeg _ (hlt a ha) (h₃ a ha)⟩, ?_⟩
    rw [covered_append, covered_append, hcov, Set.union_assoc]
  · have hbeg := begin_lt_of_tableMerge_eq_none h₂ hfirst hm
    refine ⟨ordered_append.mpr ⟨h₁, ordered_cons.mpr ⟨hr, hbeg, h₂⟩, ?_⟩, ?_⟩
    · intro a hmem b hb
      rcases List.mem_cons.mp hb with rfl | hb
      · exact hlt a hmem
      · exact h₃ a hmem b hb
    · rw [covered_append, covered_append, covered_cons]
      ac_rfl

/-! ### Runs -/

/-- The tables reached from the empty one by `boot_mem_add_range` calls, with arbitrary arguments,
each of which satisfies `P` in the table it is made in. -/
inductive AddRun (P : BootMemType capacity → ℕ → ℕ → Prop) : BootMemType capacity → Prop
  | empty : AddRun P (.empty capacity)
  | add {t t' : BootMemType capacity} {ret : ℤ} {beginAddr endAddr : ℕ} : AddRun P t →
      P t beginAddr endAddr → bootMemAddRange t beginAddr endAddr = some (ret, t') → AddRun P t'

/-- What a call can do to a table, said once: nothing when it is refused, `tableAdd` otherwise. -/
theorem bootMemAddRange_cases {t t' : BootMemType capacity} {ret : ℤ} {beginAddr endAddr : ℕ}
    (hf : t.Fits) (h : bootMemAddRange t beginAddr endAddr = some (ret, t')) :
    t'.Fits ∧
      ((ret = 0 ∧ tableAdd capacity t.contents ⟨beginAddr, endAddr⟩ = some t'.contents) ∨
        (ret = -1 ∧ t' = t ∧ tableAdd capacity t.contents ⟨beginAddr, endAddr⟩ = none)) := by
  rcases bootMemAddRange_eq hf beginAddr endAddr with
    ⟨t₁, hret, hfits, hadd⟩ | ⟨hret, hadd⟩
  · rw [hret] at h
    cases h
    exact ⟨hfits, Or.inl ⟨rfl, hadd⟩⟩
  · rw [hret] at h
    cases h
    exact ⟨hf, Or.inr ⟨rfl, rfl, hadd⟩⟩

/-- Every reachable table fits its array and is ordered. -/
theorem AddRun.fits_ordered {P : BootMemType capacity → ℕ → ℕ → Prop} {t : BootMemType capacity}
    (h : AddRun P t) : t.Fits ∧ Ordered t.contents := by
  induction h with
  | empty => exact ⟨fits_empty, by rw [contents_empty]; exact ordered_nil⟩
  | add _ _ hadd ih =>
    obtain ⟨hfits, ⟨-, hok⟩ | ⟨-, rfl, -⟩⟩ := bootMemAddRange_cases ih.1 hadd
    · exact ⟨hfits, (tableAdd_spec ih.2 hok).1⟩
    · exact ih

/-- **A table is the set of addresses added to it.** In every reachable table, for every range, the
call stays inside the array; returning `0` it adds exactly the addresses of the range, returning
`-1` it leaves the table as it was. -/
theorem bootMemAddRange_covers {t : BootMemType bootMemRanges} (h : AddRun (fun _ _ _ => True) t)
    (beginAddr endAddr : ℕ) :
    ∃ ret t', bootMemAddRange t beginAddr endAddr = some (ret, t') ∧ t'.size ≤ bootMemRanges ∧
      (ret = 0 ∧ covered t'.contents = covered t.contents ∪ Set.Ico beginAddr endAddr ∨
        ret = -1 ∧ t' = t) ∧
      (endAddr ≤ beginAddr → ret = 0 ∧ t' = t) := by
  obtain ⟨hfits, hord⟩ := h.fits_ordered
  have hempty : endAddr ≤ beginAddr → bootMemAddRange t beginAddr endAddr = some (0, t) :=
    fun hle => by rw [bootMemAddRange, if_pos hle]
  rcases bootMemAddRange_eq hfits beginAddr endAddr with
    ⟨t', hret, hfits', hadd⟩ | ⟨hret, -⟩
  · refine ⟨0, t', hret, hfits', Or.inl ⟨rfl, (tableAdd_spec hord hadd).2⟩, fun hle => ⟨rfl, ?_⟩⟩
    rw [hempty hle] at hret
    cases hret
    rfl
  · refine ⟨-1, t, hret, hfits, Or.inr ⟨rfl, rfl⟩, ?_⟩
    intro hle
    rw [hempty hle] at hret
    cases hret

/-- A range that overlaps one stored range, swallows the next and touches the last. -/
theorem bootMemAddRange_covers_bridge : ∃ t t' : BootMemType bootMemRanges,
    AddRun (fun _ _ _ => True) t ∧ t.contents = [⟨16, 32⟩, ⟨48, 64⟩, ⟨80, 96⟩] ∧
      bootMemAddRange t 24 80 = some (0, t') ∧ t'.contents = [⟨16, 80⟩, ⟨80, 96⟩] ∧
      covered t'.contents = covered t.contents ∪ Set.Ico 24 80 := by
  obtain ⟨t₁, t₂, t, t', h₁, h₂, h₃, hc, hret, hc'⟩ : ∃ t₁ t₂ t t',
      bootMemAddRange (.empty bootMemRanges) 48 64 = some (0, t₁) ∧
      bootMemAddRange t₁ 16 32 = some (0, t₂) ∧ bootMemAddRange t₂ 80 96 = some (0, t) ∧
      t.contents = [⟨16, 32⟩, ⟨48, 64⟩, ⟨80, 96⟩] ∧ bootMemAddRange t 24 80 = some (0, t') ∧
      t'.contents = [⟨16, 80⟩, ⟨80, 96⟩] := ⟨_, _, _, _, rfl, rfl, rfl, rfl, rfl, rfl⟩
  have hrun : AddRun (fun _ _ _ => True) t :=
    .add (.add (.add .empty trivial h₁) trivial h₂) trivial h₃
  obtain ⟨ret, t'', hret', -, hcases, -⟩ := bootMemAddRange_covers hrun 24 80
  cases hret.symm.trans hret'
  obtain ⟨-, hcov⟩ := hcases.resolve_right fun h => absurd h.1 (by decide)
  exact ⟨t, t', hrun, hc, hret, hc', hcov⟩

end Auos
