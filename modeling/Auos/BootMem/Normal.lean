import Auos.BootMem.Coverage

/-!
# When a boot memory table stays normal

A table is *normal* when its ranges are non-empty and each ends before the next one begins. Insertion
looks at one range to the right of the one it merges with, and its overlap test is asymmetric: it
misses a new range that reaches beyond the stored one on both sides. `MergesCleanly` says that
neither happens, and `normal_tableAdd_iff` that nothing else can go wrong.

## Main definitions

* `Normal`, `MergesCleanly`

## Main results

* `normal_tableAdd_iff` — an insertion keeps a normal table normal iff it merges cleanly
* `addRun_normal` — runs of clean insertions
-/

namespace Auos

open BootMemType

variable {l l' pre post rest : List BootMemRange} {r d : BootMemRange} {capacity : ℕ}

/-- Non-empty ranges, each of which ends before the next one begins. -/
structure Normal (l : List BootMemRange) : Prop where
  /-- No range is empty. -/
  nonempty : ∀ r ∈ l, r.beginAddr < r.endAddr
  /-- Ranges neither overlap nor touch. -/
  separated : l.Pairwise fun a b => a.endAddr < b.beginAddr

/-- The first stored range `d` that ends at or after the new range begins does not lie strictly
inside the new range, and the new range ends before the second stored range after `d` begins. -/
def MergesCleanly (l : List BootMemRange) (r : BootMemRange) : Prop :=
  ∀ d rest, l.dropWhile (·.endsBefore r.beginAddr) = d :: rest →
    (d.beginAddr ≤ r.beginAddr ∨ r.endAddr ≤ d.endAddr) ∧
      ∀ n ∈ rest.drop 1, r.endAddr < n.beginAddr

theorem normal_iff : Normal l ↔
    (∀ r ∈ l, r.beginAddr < r.endAddr) ∧ l.Pairwise fun a b => a.endAddr < b.beginAddr :=
  ⟨fun h => ⟨h.nonempty, h.separated⟩, fun h => ⟨h.1, h.2⟩⟩

theorem normal_nil : Normal [] := ⟨by simp, List.Pairwise.nil⟩

theorem normal_cons :
    Normal (d :: l) ↔ d.beginAddr < d.endAddr ∧ (∀ a ∈ l, d.endAddr < a.beginAddr) ∧ Normal l := by
  rw [normal_iff, nonempty_pairwise_cons, normal_iff]

theorem normal_append : Normal (pre ++ post) ↔
    Normal pre ∧ Normal post ∧ ∀ a ∈ pre, ∀ b ∈ post, a.endAddr < b.beginAddr := by
  rw [normal_iff, nonempty_pairwise_append, ← normal_iff, ← normal_iff]

theorem Normal.ordered (h : Normal l) : Ordered l :=
  ⟨h.nonempty, h.separated.imp_of_mem fun ha _ hab => (h.nonempty _ ha).trans hab⟩

/-- A normal table, cell by cell. -/
theorem Normal.getElem? (h : Normal l) {k : ℕ} {a : BootMemRange} (ha : l[k]? = some a) :
    a.beginAddr < a.endAddr ∧ ∀ b, l[k + 1]? = some b → a.endAddr < b.beginAddr := by
  obtain ⟨hk, rfl⟩ := List.getElem?_eq_some_iff.mp ha
  refine ⟨h.nonempty _ (List.getElem_mem hk), ?_⟩
  intro b hb
  obtain ⟨hk', rfl⟩ := List.getElem?_eq_some_iff.mp hb
  exact List.pairwise_iff_getElem.mp h.separated k (k + 1) hk hk' (Nat.lt_succ_self k)

/-! ### One insertion -/

theorem overlap_iff (d r : BootMemRange) : bootMemOverlap d r = true ↔
    (d.beginAddr ≤ r.beginAddr ∧ r.beginAddr ≤ d.endAddr) ∨
      (d.beginAddr ≤ r.endAddr ∧ r.endAddr ≤ d.endAddr) := by
  simp [bootMemOverlap]

/-- The ranges from the split point on, after a clean insertion. -/
theorem normal_tableMerge_iff (h : Normal (d :: rest)) (hr : r.beginAddr < r.endAddr)
    (hde : r.beginAddr ≤ d.endAddr) (hm : tableMerge r (d :: rest) = some l') :
    Normal l' ↔ ∀ n ∈ rest.drop 1, r.endAddr < n.beginAddr := by
  obtain ⟨hd, hdl, hrest⟩ := normal_cons.mp h
  obtain ⟨d, rest, hpost, -, ⟨rfl, hfar⟩ | ⟨n, rest, rfl, -, rfl⟩⟩ := tableMerge_cases hm
  · cases hpost
    rw [normal_cons, begin_bootMemMerge, end_bootMemMerge]
    constructor
    · rintro ⟨-, hlt, -⟩ m hm
      exact (le_max_left _ _).trans_lt (hlt m (List.mem_of_mem_drop hm))
    · intro hlt
      refine ⟨by omega, fun m hm => max_lt ?_ (hdl m hm), hrest⟩
      cases rest with
      | nil => cases hm
      | cons n rest =>
        rcases List.mem_cons.mp hm with rfl | hm
        · have hov := hfar m rfl
          rw [overlap_iff, begin_bootMemMerge, end_bootMemMerge] at hov
          have := hdl m List.mem_cons_self
          have := hrest.nonempty m List.mem_cons_self
          omega
        · exact hlt m hm
  · cases hpost
    obtain ⟨hn, hnl, hrest⟩ := normal_cons.mp hrest
    rw [normal_cons, begin_bootMemMerge, end_bootMemMerge, begin_bootMemMerge, end_bootMemMerge,
      List.drop_one, List.tail_cons]
    constructor
    · rintro ⟨-, hlt, -⟩ m hm
      have := hlt m hm
      omega
    · intro hlt
      refine ⟨by omega, ?_, hrest⟩
      intro m hm
      have := hlt m hm
      have := hnl m hm
      have := hdl m (List.mem_cons_of_mem n hm)
      omega

/-- **An insertion that is not refused keeps a normal table normal exactly when it merges cleanly.** -/
theorem normal_tableAdd_iff (h : Normal l) (hr : r.beginAddr < r.endAddr)
    (ha : tableAdd capacity l r = some l') : Normal l' ↔ MergesCleanly l r := by
  obtain ⟨pre, post, rfl, hdrop, hpre, hfirst, hcases⟩ := tableAdd_cases hr ha
  obtain ⟨h₁, h₂, h₃⟩ := normal_append.mp h
  rw [MergesCleanly, hdrop]
  rcases hcases with ⟨post', hm, rfl⟩ | ⟨hm, rfl⟩
  · obtain ⟨-, -, hbeg⟩ := tableMerge_spec h₂.ordered hfirst hm
    obtain ⟨d, rest, rfl, hov, -⟩ := tableMerge_cases hm
    have hends : ∀ a ∈ pre, ∀ b ∈ post', a.endAddr < b.beginAddr := fun a ha b hb =>
      hbeg _ (hpre a ha) (h₃ a ha) b hb
    rw [normal_append, normal_tableMerge_iff h₂ hr (hfirst d rest rfl) hm]
    rw [overlap_iff] at hov
    constructor
    · rintro ⟨-, hlt, -⟩ d' rest' hpost
      cases hpost
      exact ⟨by omega, hlt⟩
    · intro hclean
      exact ⟨h₁, (hclean d rest rfl).2, hends⟩
  · have hbeg := begin_lt_of_tableMerge_eq_none h₂.ordered hfirst hm
    have hends : ∀ a ∈ pre, ∀ b ∈ r :: post, a.endAddr < b.beginAddr := by
      intro a hmem b hb
      rcases List.mem_cons.mp hb with rfl | hb
      · exact hpre a hmem
      · exact h₃ a hmem b hb
    rw [normal_append, normal_cons]
    constructor
    · rintro ⟨-, ⟨-, hlt, -⟩, -⟩ d rest rfl
      have hrd := hlt d List.mem_cons_self
      have hd := (normal_cons.mp h₂).1
      exact ⟨by omega, fun n hn => hlt n (List.mem_cons_of_mem _ (List.mem_of_mem_drop hn))⟩
    · intro hclean
      refine ⟨h₁, ⟨hr, ?_, h₂⟩, hends⟩
      intro n hn
      cases post with
      | nil => cases hn
      | cons d rest =>
        obtain ⟨hd, hdl, -⟩ := normal_cons.mp h₂
        have hrd := hbeg d List.mem_cons_self
        have hde := (hclean d rest rfl).1
        have hov := tableMerge_eq_none_iff.mp hm
        rw [overlap_iff] at hov
        rcases List.mem_cons.mp hn with rfl | hn
        · omega
        · have := hdl n hn
          omega

/-! ### Runs -/

/-- **Clean insertions keep every table normal**: in every table reached by insertions each of which
is empty or merges cleanly, ranges are non-empty and end before the next one begins. -/
theorem addRun_normal {t : BootMemType bootMemRanges}
    (h : AddRun (fun t beginAddr endAddr =>
      beginAddr < endAddr → MergesCleanly t.contents ⟨beginAddr, endAddr⟩) t) :
    ∀ k a, t.contents[k]? = some a →
      a.beginAddr < a.endAddr ∧ ∀ b, t.contents[k + 1]? = some b → a.endAddr < b.beginAddr := by
  suffices hn : Normal t.contents from fun k a ha => hn.getElem? ha
  induction h with
  | empty => rw [contents_empty]; exact normal_nil
  | @add t t' ret beginAddr endAddr hrun hclean hadd ih =>
    obtain ⟨-, ⟨-, hok⟩ | ⟨-, rfl, -⟩⟩ := bootMemAddRange_cases hrun.fits_ordered.1 hadd
    · by_cases hr : beginAddr < endAddr
      · exact (normal_tableAdd_iff ih hr hok).mpr (hclean hr)
      · rw [tableAdd, if_pos (not_lt.mp hr)] at hok
        exact Option.some.inj hok ▸ ih
    · exact ih

theorem addRun_normal_bridge : ∃ t : BootMemType bootMemRanges,
    t.contents = [⟨0x1000, 0x4000⟩] ∧ ∀ k a, t.contents[k]? = some a →
      a.beginAddr < a.endAddr ∧ ∀ b, t.contents[k + 1]? = some b → a.endAddr < b.beginAddr := by
  obtain ⟨t₁, h₁, hc₁⟩ : ∃ t, bootMemAddRange (.empty bootMemRanges) 0x1000 0x2000 = some (0, t) ∧
    t.contents = [⟨0x1000, 0x2000⟩] := ⟨_, rfl, rfl⟩
  obtain ⟨t₂, h₂, hc₂⟩ : ∃ t, bootMemAddRange t₁ 0x2000 0x4000 = some (0, t) ∧
      t.contents = [⟨0x1000, 0x4000⟩] := by
    cases h₁; exact ⟨_, rfl, rfl⟩
  refine ⟨t₂, hc₂, addRun_normal (.add (.add .empty ?_ h₁) ?_ h₂)⟩
  · simp [MergesCleanly]
  · simp [MergesCleanly, hc₁, BootMemRange.endsBefore]

/-- A range added around a stored one is not merged with it: the table then holds both, the
larger one first. -/
theorem bootMemAddRange_around_stored : ∃ t : BootMemType bootMemRanges,
    AddRun (fun _ _ _ => True) t ∧ t.contents = [⟨0, 0x3000⟩, ⟨0x1000, 0x2000⟩] ∧
      ¬ ∀ k a, t.contents[k]? = some a →
        a.beginAddr < a.endAddr ∧ ∀ b, t.contents[k + 1]? = some b → a.endAddr < b.beginAddr := by
  obtain ⟨t₁, h₁⟩ : ∃ t, bootMemAddRange (.empty bootMemRanges) 0x1000 0x2000 = some (0, t) :=
    ⟨_, rfl⟩
  obtain ⟨t₂, h₂, hc₂⟩ : ∃ t, bootMemAddRange t₁ 0 0x3000 = some (0, t) ∧
      t.contents = [⟨0, 0x3000⟩, ⟨0x1000, 0x2000⟩] := by
    cases h₁; exact ⟨_, rfl, rfl⟩
  refine ⟨t₂, .add (.add .empty trivial h₁) trivial h₂, hc₂, ?_⟩
  intro h
  rw [hc₂] at h
  have := (h 0 _ rfl).2 _ rfl
  simp at this

end Auos
