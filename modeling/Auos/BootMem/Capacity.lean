import Auos.BootMem.Normal

/-!
# When a boot memory table has to be full

A set of addresses has at most one normal table (`normal_ext`), so it makes sense to ask how many
ranges it takes. `normalInsert` is the insertion that keeps a table normal: it absorbs every stored
range the new one overlaps or touches. Its length decides whether a new range fits at all.

`boot_mem_add_range` refuses a range when the table is full and its overlap test fails on the first
stored range from the split point on. The test also fails when that range lies strictly inside the
new one. In a full table this is the only way to refuse a range that would fit.

## Main definitions

* `normalInsert` — the insertion on normal tables
* `NeedsMoreThan` — how many ranges a set of addresses takes
* `SwallowsFirst` — the case the overlap test misses

## Main results

* `normal_ext` — a set of addresses has one normal table
* `bootMemAddRange_refuses_iff` — a refusal is right iff that case does not meet a full table
-/

namespace Auos

open BootMemType

variable {l l' : List BootMemRange} {r d a : BootMemRange} {capacity c : ℕ}

/-! ### The normal table of a set of addresses -/

theorem begin_mem_covered (h : Normal l) (ha : a ∈ l) : a.beginAddr ∈ covered l :=
  ⟨a, ha, BootMemRange.mem_addrs.mpr ⟨le_rfl, h.nonempty a ha⟩⟩

/-- Below the first range nothing is covered, and neither is its end. -/
theorem Normal.covered_cons_bounds (h : Normal (d :: l)) :
    (∀ x ∈ covered (d :: l), d.beginAddr ≤ x) ∧ d.endAddr ∉ covered (d :: l) ∧
      ∀ x, x ∈ covered l ↔ x ∈ covered (d :: l) ∧ d.endAddr ≤ x := by
  obtain ⟨hd, hdl, hl⟩ := normal_cons.mp h
  have hfar : ∀ x ∈ covered l, d.endAddr < x := by
    rintro x ⟨a, ha, hx⟩
    exact (hdl a ha).trans_le (BootMemRange.mem_addrs.mp hx).1
  have hin : ∀ x ∈ d.addrs, d.beginAddr ≤ x ∧ x < d.endAddr := fun x => BootMemRange.mem_addrs.mp
  refine ⟨?_, ?_, ?_⟩
  · intro x hx
    rw [covered_cons] at hx
    rcases hx with hx | hx
    · exact (hin x hx).1
    · have := hfar x hx
      omega
  · intro hx
    rw [covered_cons] at hx
    rcases hx with hx | hx
    · exact lt_irrefl _ (hin _ hx).2
    · exact lt_irrefl _ (hfar _ hx)
  · intro x
    rw [covered_cons]
    constructor
    · intro hx
      exact ⟨Or.inr hx, (hfar x hx).le⟩
    · rintro ⟨hx | hx, hle⟩
      · exact absurd (hin x hx).2 (not_lt.mpr hle)
      · exact hx

/-- **A set of addresses has one normal table.** -/
theorem normal_ext (h : Normal l) (h' : Normal l') (hcov : covered l = covered l') : l = l' := by
  induction l generalizing l' with
  | nil =>
    cases l' with
    | nil => rfl
    | cons d' l' =>
      have hmem := begin_mem_covered h' List.mem_cons_self
      rw [← hcov, covered_nil] at hmem
      cases hmem
  | cons d l ih =>
    have hd := begin_mem_covered h List.mem_cons_self
    cases l' with
    | nil =>
      rw [hcov, covered_nil] at hd
      cases hd
    | cons d' l' =>
      have hd' := begin_mem_covered h' List.mem_cons_self
      obtain ⟨hlow, hend, htail⟩ := h.covered_cons_bounds
      obtain ⟨hlow', hend', htail'⟩ := h'.covered_cons_bounds
      have hne := (normal_cons.mp h).1
      have hne' := (normal_cons.mp h').1
      have hbegin : d.beginAddr = d'.beginAddr :=
        le_antisymm (hlow _ (hcov ▸ hd')) (hlow' _ (hcov ▸ hd))
      -- the end of the shorter first range would be covered by the other one
      have hfirst : ∀ x, d.beginAddr ≤ x → x < d.endAddr → x ∈ covered (d :: l) := fun x h₁ h₂ =>
        ⟨d, List.mem_cons_self, BootMemRange.mem_addrs.mpr ⟨h₁, h₂⟩⟩
      have hfirst' : ∀ x, d'.beginAddr ≤ x → x < d'.endAddr → x ∈ covered (d' :: l') :=
        fun x h₁ h₂ => ⟨d', List.mem_cons_self, BootMemRange.mem_addrs.mpr ⟨h₁, h₂⟩⟩
      have hendeq : d.endAddr = d'.endAddr := by
        rcases lt_trichotomy d.endAddr d'.endAddr with hlt | heq | hlt
        · exact absurd (hcov ▸ hfirst' _ (by omega) hlt) hend
        · exact heq
        · exact absurd (hcov ▸ hfirst _ (by omega) hlt) hend'
      have hdeq : d = d' := by
        cases d
        cases d'
        exact congrArg₂ _ hbegin hendeq
      subst hdeq
      have hrest : covered l = covered l' := by
        ext x
        rw [htail x, htail' x, hcov]
      rw [ih (normal_cons.mp h).2.2 (normal_cons.mp h').2.2 hrest]

/-- Writing the addresses `U` as a normal table takes more than `c` ranges. -/
def NeedsMoreThan (c : ℕ) (U : Set ℕ) : Prop := ∃ l, Normal l ∧ covered l = U ∧ c < l.length

theorem needsMoreThan_iff (h : Normal l) : NeedsMoreThan c (covered l) ↔ c < l.length := by
  constructor
  · rintro ⟨l', h', hcov, hlt⟩
    rwa [← normal_ext h' h hcov]
  · intro hlt
    exact ⟨l, h, rfl, hlt⟩

/-! ### Insertion into a normal table -/

/-- A new range in a normal table: the ranges it overlaps or touches are absorbed. -/
def normalInsert (r : BootMemRange) : List BootMemRange → List BootMemRange
  | [] => [r]
  | d :: l =>
    if d.endAddr < r.beginAddr then d :: normalInsert r l
    else if r.endAddr < d.beginAddr then r :: d :: l
    else normalInsert (bootMemMerge d r) l

/-- The result is normal, covers what it should, and begins no earlier than its parts. -/
theorem normalInsert_spec (h : Normal l) (hr : r.beginAddr < r.endAddr) :
    Normal (normalInsert r l) ∧ covered (normalInsert r l) = covered l ∪ r.addrs ∧
      ∀ x, x < r.beginAddr → (∀ a ∈ l, x < a.beginAddr) →
        ∀ a ∈ normalInsert r l, x < a.beginAddr := by
  induction l generalizing r with
  | nil =>
    refine ⟨normal_cons.mpr ⟨hr, by simp, normal_nil⟩, by simp [normalInsert, covered_cons], ?_⟩
    intro x hx _ a ha
    rwa [List.mem_singleton.mp ha]
  | cons d l ih =>
    obtain ⟨hd, hdl, hl⟩ := normal_cons.mp h
    rw [normalInsert]
    split_ifs with hbefore hafter
    · obtain ⟨hnorm, hcov, hbeg⟩ := ih hl hr
      refine ⟨normal_cons.mpr ⟨hd, hbeg _ hbefore hdl, hnorm⟩, ?_, ?_⟩
      · rw [covered_cons, covered_cons, hcov, Set.union_assoc]
      · intro x hx hxl a ha
        rcases List.mem_cons.mp ha with rfl | ha
        · exact hxl a List.mem_cons_self
        · exact hbeg x hx (fun a ha => hxl a (List.mem_cons_of_mem d ha)) a ha
    · refine ⟨normal_cons.mpr ⟨hr, ?_, h⟩, ?_, ?_⟩
      · intro a ha
        rcases List.mem_cons.mp ha with rfl | ha
        · exact hafter
        · have := hdl a ha
          omega
      · rw [covered_cons (l := d :: l), Set.union_comm]
      · intro x hx hxl a ha
        rcases List.mem_cons.mp ha with rfl | ha
        · exact hx
        · exact hxl a ha
    · obtain ⟨hnorm, hcov, hbeg⟩ := ih hl (bootMemMerge_nonempty (r := r) hd)
      have hunion : (bootMemMerge d r).addrs = d.addrs ∪ r.addrs := by
        ext x
        rw [Set.mem_union, BootMemRange.mem_addrs, BootMemRange.mem_addrs, BootMemRange.mem_addrs,
          begin_bootMemMerge, end_bootMemMerge]
        omega
      refine ⟨hnorm, by rw [hcov, hunion, covered_cons]; ac_rfl, ?_⟩
      intro x hx hxl
      refine hbeg x ?_ fun a ha => hxl a (List.mem_cons_of_mem d ha)
      rw [begin_bootMemMerge]
      exact lt_min hx (hxl d List.mem_cons_self)

/-- The new range and a stored one overlap or touch. -/
def Touches (r d : BootMemRange) : Prop := r.beginAddr ≤ d.endAddr ∧ d.beginAddr ≤ r.endAddr

theorem length_normalInsert_le (r : BootMemRange) (l : List BootMemRange) :
    (normalInsert r l).length ≤ l.length + 1 := by
  induction l generalizing r with
  | nil => exact le_rfl
  | cons d l ih =>
    rw [normalInsert]
    split_ifs
    · exact Nat.succ_le_succ (ih r)
    · exact le_rfl
    · exact (ih _).trans (Nat.le_succ _)

/-- A range that touches nothing takes a place of its own. -/
theorem length_normalInsert_of_apart (h : ∀ a ∈ l, ¬ Touches r a) :
    (normalInsert r l).length = l.length + 1 := by
  induction l with
  | nil => rfl
  | cons d l ih =>
    have hd := h d List.mem_cons_self
    rw [Touches] at hd
    rw [normalInsert]
    split_ifs with hbefore hafter
    · rw [List.length_cons, ih fun a ha => h a (List.mem_cons_of_mem d ha), List.length_cons]
    · rfl
    · omega

/-- A range that touches a stored one does not. -/
theorem length_normalInsert_of_touches (h : Normal l) (ha : a ∈ l) (hra : Touches r a) :
    (normalInsert r l).length ≤ l.length := by
  induction l with
  | nil => cases ha
  | cons d l ih =>
    obtain ⟨hd, hdl, hl⟩ := normal_cons.mp h
    rw [normalInsert]
    split_ifs with hbefore hafter
    · rcases List.mem_cons.mp ha with rfl | ha
      · exact absurd hra.1 (not_le.mpr hbefore)
      · exact Nat.succ_le_succ (ih hl ha)
    · have := hra.2
      rcases List.mem_cons.mp ha with rfl | ha
      · omega
      · have := hdl a ha
        omega
    · exact length_normalInsert_le _ l

/-! ### A full table -/

/-- A full table of ranges of one byte. -/
def spacedTable : BootMemType bootMemRanges :=
  ⟨⟨((List.range bootMemRanges).map fun i => ⟨4 * i + 4, 4 * i + 5⟩).toArray, by simp⟩, bootMemRanges⟩

theorem fits_spacedTable : spacedTable.Fits := le_refl bootMemRanges

theorem contents_spacedTable :
    spacedTable.contents = (List.range bootMemRanges).map fun i => ⟨4 * i + 4, 4 * i + 5⟩ := by
  simp [BootMemType.contents, spacedTable]

theorem normal_spacedTable : Normal spacedTable.contents := by
  rw [contents_spacedTable]
  refine ⟨by simp, ?_⟩
  rw [List.pairwise_map]
  refine List.pairwise_lt_range.imp ?_
  intro i j hij
  show 4 * i + 5 < 4 * j + 4
  omega

/-! ### Refusals -/

/-- The first stored range that ends at or after the new one begins lies strictly inside it. -/
def SwallowsFirst (l : List BootMemRange) (r : BootMemRange) : Prop :=
  ∃ d rest, l.dropWhile (·.endsBefore r.beginAddr) = d :: rest ∧ r.beginAddr < d.beginAddr ∧
    d.endAddr < r.endAddr

/-- What a refusal means: the table is full, and the new range swallows the first stored range from the
split point on or touches none. -/
theorem tableAdd_eq_none_cases (h : Normal l) (hr : r.beginAddr < r.endAddr)
    (ha : tableAdd capacity l r = none) :
    l.length = capacity ∧ (SwallowsFirst l r ∨ ∀ a ∈ l, ¬ Touches r a) := by
  obtain ⟨pre, post, hl, htake, hdrop, hpre, hfirst⟩ := split_spec l r.beginAddr
  simp only [tableAdd, not_le.mpr hr, if_false, htake, hdrop] at ha
  cases hm : tableMerge r post with
  | some post' =>
    rw [hm] at ha
    cases ha
  | none =>
    simp only [hm] at ha
    split_ifs at ha with hfull
    refine ⟨hfull, ?_⟩
    have hapart : (∀ a ∈ post, r.endAddr < a.beginAddr) → ∀ a ∈ l, ¬ Touches r a := by
      rintro hpost a hmem ⟨hra, har⟩
      rcases List.mem_append.mp (hl ▸ hmem) with hmem | hmem
      · exact absurd (hpre a hmem) (not_lt.mpr hra)
      · exact absurd (hpost a hmem) (not_lt.mpr har)
    cases post with
    | nil => exact Or.inr (hapart (by simp))
    | cons d rest =>
      have hde := hfirst d rest rfl
      obtain ⟨-, hdl, -⟩ := normal_cons.mp (normal_append.mp (hl ▸ h)).2.1
      have hov := tableMerge_eq_none_iff.mp hm
      rw [overlap_iff] at hov
      by_cases hin : d.endAddr < r.endAddr
      · exact Or.inl ⟨d, rest, hdrop, by omega, hin⟩
      · refine Or.inr (hapart ?_)
        intro a hmem
        rcases List.mem_cons.mp hmem with rfl | hmem
        · have := (normal_append.mp (hl ▸ h)).2.1.nonempty a List.mem_cons_self
          omega
        · have := hdl a hmem
          omega

/-- What success means: the table is not full, or the new range touches a stored one that it does not
swallow. -/
theorem tableAdd_eq_some_cases (h : Normal l) (hr : r.beginAddr < r.endAddr)
    (ha : tableAdd capacity l r = some l') (hfull : l.length = capacity) :
    ¬ SwallowsFirst l r ∧ ∃ a ∈ l, Touches r a := by
  obtain ⟨pre, post, hl, htake, hdrop, -, hfirst⟩ := split_spec l r.beginAddr
  simp only [tableAdd, not_le.mpr hr, if_false, htake, hdrop] at ha
  cases hm : tableMerge r post with
  | none =>
    simp only [hm, if_pos hfull] at ha
    cases ha
  | some post' =>
    obtain ⟨d, rest, rfl, hov, -⟩ := tableMerge_cases hm
    rw [overlap_iff] at hov
    have hd := (normal_append.mp (hl ▸ h)).2.1.nonempty d List.mem_cons_self
    refine ⟨?_, d, hl ▸ List.mem_append_right _ List.mem_cons_self, hfirst d rest rfl, by omega⟩
    rintro ⟨d', rest', hdrop', hlt, hgt⟩
    rw [hdrop] at hdrop'
    cases hdrop'
    omega

/-- A new range that swallows the first stored range from the split point on touches it. -/
theorem SwallowsFirst.touches (h : Normal l) (hs : SwallowsFirst l r) : ∃ a ∈ l, Touches r a := by
  obtain ⟨d, rest, hdrop, hlt, hgt⟩ := hs
  obtain ⟨pre, post, hl, -, hpost, -, hfirst⟩ := split_spec l r.beginAddr
  obtain rfl : post = d :: rest := hpost.symm.trans hdrop
  have hmem : d ∈ l := hl ▸ List.mem_append_right _ List.mem_cons_self
  have := h.nonempty d hmem
  exact ⟨d, hmem, hfirst d rest rfl, by omega⟩

/-- How many ranges the table takes with the new range. -/
theorem needsMoreThan_union_iff (h : Normal l) (hr : r.beginAddr < r.endAddr) :
    NeedsMoreThan c (covered l ∪ r.addrs) ↔ c < (normalInsert r l).length := by
  obtain ⟨hnorm, hcov, -⟩ := normalInsert_spec h hr
  rw [← hcov, needsMoreThan_iff hnorm]

/-- A full table refuses a range that swallows, although the union takes no more ranges than it
has. -/
theorem bootMemAddRange_of_swallowsFirst {t : BootMemType capacity} {beginAddr endAddr : ℕ}
    (hf : t.Fits) (h : Normal t.contents) (hr : beginAddr < endAddr) (hfull : t.size = capacity)
    (hs : SwallowsFirst t.contents ⟨beginAddr, endAddr⟩) :
    bootMemAddRange t beginAddr endAddr = some (-1, t) ∧
      ¬ NeedsMoreThan capacity (covered t.contents ∪ Set.Ico beginAddr endAddr) := by
  have hlen : t.contents.length = capacity := (length_contents hf).trans hfull
  constructor
  · rcases bootMemAddRange_eq hf beginAddr endAddr with ⟨t', -, -, hadd⟩ | ⟨hret, -⟩
    · exact absurd hs (tableAdd_eq_some_cases h hr hadd hlen).1
    · exact hret
  · intro hneed
    obtain ⟨a, ha, htouch⟩ := hs.touches h
    have := (needsMoreThan_union_iff (r := ⟨beginAddr, endAddr⟩) h hr).mp hneed
    have := length_normalInsert_of_touches h ha htouch
    omega

/-- **When a refusal is right.** On a normal table, `boot_mem_add_range` returns `-1` exactly when the
union takes more ranges than the table has cells, if and only if the table is not full or the new
range does not swallow the first stored range from the split point on. -/
theorem bootMemAddRange_refuses_iff {t : BootMemType bootMemRanges} {beginAddr endAddr : ℕ}
    (hf : t.Fits) (h : Normal t.contents) (hr : beginAddr < endAddr) :
    ∃ ret t', bootMemAddRange t beginAddr endAddr = some (ret, t') ∧
      ((ret = -1 ↔
          NeedsMoreThan bootMemRanges (covered t.contents ∪ Set.Ico beginAddr endAddr)) ↔
        (t.size = bootMemRanges → ¬ SwallowsFirst t.contents ⟨beginAddr, endAddr⟩)) := by
  have hlen := length_contents hf
  have hle : t.contents.length ≤ bootMemRanges := hlen ▸ hf
  have hneeds := needsMoreThan_union_iff (c := bootMemRanges) (r := ⟨beginAddr, endAddr⟩) h hr
  rcases bootMemAddRange_eq hf beginAddr endAddr with ⟨t', hret, -, hadd⟩ | ⟨hret, hadd⟩
  · refine ⟨0, t', hret, ?_⟩
    -- a successful insertion fits, and is not the bad case
    have hnot : ¬ NeedsMoreThan bootMemRanges (covered t.contents ∪ Set.Ico beginAddr endAddr) := by
      refine mt hneeds.mp (not_lt.mpr ?_)
      rcases Nat.eq_or_lt_of_le hle with hfull | hroom
      · obtain ⟨-, a, ha, htouch⟩ := tableAdd_eq_some_cases h hr hadd hfull
        exact (length_normalInsert_of_touches h ha htouch).trans hle
      · exact (length_normalInsert_le _ _).trans hroom
    refine iff_of_true (iff_of_false (by decide) hnot) ?_
    intro hfull
    exact (tableAdd_eq_some_cases h hr hadd (hlen.trans hfull)).1
  · refine ⟨-1, t, hret, ?_⟩
    obtain ⟨hfull, hcase⟩ := tableAdd_eq_none_cases h hr hadd
    rw [hlen] at hfull
    rw [eq_self, true_iff, eq_true hfull, forall_const]
    constructor
    · intro hneed hswallow
      exact (bootMemAddRange_of_swallowsFirst hf h hr hfull hswallow).2 hneed
    · intro hswallow
      refine hneeds.mpr ?_
      rw [length_normalInsert_of_apart (hcase.resolve_left hswallow)]
      omega

/-- A full table takes a range that begins at the end of a stored one, and refuses one that is apart. -/
theorem bootMemAddRange_refuses_iff_spacedTable :
    (∃ t', bootMemAddRange spacedTable 5 6 = some (0, t') ∧
        ¬ NeedsMoreThan bootMemRanges (covered spacedTable.contents ∪ Set.Ico 5 6)) ∧
      ∃ t', bootMemAddRange spacedTable 600 601 = some (-1, t') ∧
        NeedsMoreThan bootMemRanges (covered spacedTable.contents ∪ Set.Ico 600 601) := by
  have htouching : ¬ SwallowsFirst spacedTable.contents ⟨5, 6⟩ := by
    rintro ⟨d, rest, hdrop, hlt, -⟩
    rw [contents_spacedTable, List.range_succ_eq_map, List.map_cons, List.dropWhile_cons] at hdrop
    cases hdrop
    exact absurd hlt (by decide)
  have hapart : ¬ SwallowsFirst spacedTable.contents ⟨600, 601⟩ := by
    rintro ⟨d, rest, hdrop, -, -⟩
    have hnil : spacedTable.contents.dropWhile (·.endsBefore 600) = [] := by
      rw [List.dropWhile_eq_nil_iff, contents_spacedTable, List.forall_mem_map]
      intro i hi
      have hlt : i < 128 := List.mem_range.mp hi
      exact decide_eq_true (show 4 * i + 5 < 600 by omega)
    rw [hnil] at hdrop
    cases hdrop
  obtain ⟨ret, t', hret, hiff⟩ := bootMemAddRange_refuses_iff fits_spacedTable normal_spacedTable
    (show 5 < 6 by decide)
  obtain ⟨ret', t'', hret', hiff'⟩ := bootMemAddRange_refuses_iff fits_spacedTable normal_spacedTable
    (show 600 < 601 by decide)
  have hzero : (bootMemAddRange spacedTable 5 6).map Prod.fst = some 0 := by decide +kernel
  have hrefused : (bootMemAddRange spacedTable 600 601).map Prod.fst = some (-1) := by decide +kernel
  rw [hret] at hzero
  rw [hret'] at hrefused
  obtain rfl := Option.some.inj hzero
  obtain rfl := Option.some.inj hrefused
  exact ⟨⟨t', hret, fun hneed => absurd ((hiff.mpr fun _ => htouching).mpr hneed) (by decide)⟩,
    t'', hret', (hiff'.mpr fun _ => hapart).mp rfl⟩

/-- **A full table refuses a range that would fit.** The ranges of the table are `[4, 5)`, `[8, 9)`
and so on; `[3, 6)` would only replace the first one. -/
theorem bootMemAddRange_refuses_swallow :
    ¬ ∀ (t : BootMemType bootMemRanges) (beginAddr endAddr : ℕ), t.Fits → Normal t.contents →
      beginAddr < endAddr → ∃ ret t', bootMemAddRange t beginAddr endAddr = some (ret, t') ∧
        (ret = -1 ↔
          NeedsMoreThan bootMemRanges (covered t.contents ∪ Set.Ico beginAddr endAddr)) := by
  intro hall
  have hswallow : SwallowsFirst spacedTable.contents ⟨3, 6⟩ := by
    refine ⟨⟨4, 5⟩, ((List.range 127).map Nat.succ).map fun i => ⟨4 * i + 4, 4 * i + 5⟩, ?_,
      by decide, by decide⟩
    rw [contents_spacedTable, List.range_succ_eq_map, List.map_cons, List.dropWhile_cons]
    rfl
  obtain ⟨hret, hneed⟩ := bootMemAddRange_of_swallowsFirst fits_spacedTable normal_spacedTable
    (by decide) rfl hswallow
  obtain ⟨ret, t', hret', hiff⟩ := hall spacedTable 3 6 fits_spacedTable normal_spacedTable (by decide)
  rw [hret] at hret'
  cases hret'
  exact hneed (hiff.mp rfl)

end Auos
