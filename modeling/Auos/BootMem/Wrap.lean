import Auos.BootMem.Alloc
import Auos.BootMem.Steps

/-!
# The search over the whole address space

`boot_mem_find` computes `align_up` and `begin + size` modulo `2 ^ 32`, and compares what comes out.
`StandsAt` lists the addresses at which it makes these additions, in terms of the tables and the
arguments only; when none of them wraps there, the search is exact first fit with bounds of any size.

`boot_mem_is_free` calls the search with alignment `1`, which never wraps, and with a size for which the
second addition may. It encodes its answer through the address it gets back: an address other than
`0`. But the search returns `end` when the range is not free and `begin` when it is, so the answer is
"not free" for a free range that begins at `0`, and "free" for every range that does not.

## Main results

* `bootMemFind_inBounds` — the result is in bounds when no addition wraps at these addresses
* `noWrap_of_visits` — otherwise some addition of the search does wrap
* `bootMemIsFree_iff` — the answer is right iff the range is free and does not begin at `0`
-/

namespace Auos

open BootMemType

variable {size align fromAddr toAddr beginAddr endAddr addr j k n i : ℕ} {b : BootMem}
  {M R : List BootMemRange} {m : BootMemRange}

/-- Two elements of a list that is pairwise related are the same or related. -/
theorem eq_or_of_pairwise {P : BootMemRange → BootMemRange → Prop} {a c : BootMemRange}
    (h : M.Pairwise P) (ha : a ∈ M) (hc : c ∈ M) : a = c ∨ P a c ∨ P c a := by
  obtain ⟨p, hp, rfl⟩ := List.getElem_of_mem ha
  obtain ⟨q, hq, rfl⟩ := List.getElem_of_mem hc
  have hsep := List.pairwise_iff_getElem.mp h
  rcases lt_trichotomy p q with hlt | rfl | hlt
  · exact Or.inr (Or.inl (hsep p q hp hq hlt))
  · exact Or.inl rfl
  · exact Or.inr (Or.inr (hsep q p hq hp hlt))

/-! ### Where the search stands -/

/-- The search comes to `addr` inside the `i`-th memory range `m`. -/
def Visits (b : BootMem) (size align fromAddr toAddr i : ℕ) (m : BootMemRange) (addr : ℕ) : Prop :=
  b.memory.get i = some m ∧ addr < min m.endAddr toAddr ∧
    ∃ j, FindRun b size align fromAddr toAddr (bootMemFindStart size fromAddr toAddr)
      (.inr (.whileHead i addr j))

/-- A turn of the `while` loop in which nothing wraps. -/
theorem bootMemFindStep_round (hrf : b.reserved.Fits) (hord : Ordered b.reserved.contents) (hk : k < 32)
    (hm : b.memory.get i = some m) (hj : j ≤ b.reserved.size) (hwrap : NoWrap size (2 ^ k) addr)
    (hpast : PastCursor b.reserved.contents j addr) (hlt : addr < min m.endAddr toAddr) :
    min m.endAddr toAddr < alignUp addr (2 ^ k) + size ∨
    Clear b.reserved.contents (alignUp addr (2 ^ k)) size ∨
    ∃ j' r, j' < b.reserved.size ∧ b.reserved.contents[j']? = some r ∧
      alignUp addr (2 ^ k) < r.endAddr ∧ PastCursor b.reserved.contents j' (alignUp addr (2 ^ k)) ∧
      bootMemFindStep b size (2 ^ k) fromAddr toAddr (.whileHead i addr j) =
        some (.inr (.whileHead i r.endAddr j')) := by
  have hge := le_alignUp hk hwrap.1
  have hstep := @bootMemFindStep_while b size (2 ^ k) fromAddr toAddr addr i j m hm
  rw [if_pos hlt, wadd_of_lt hwrap.2] at hstep
  generalize alignUp addr (2 ^ k) = a at *
  by_cases hfit : a + size > min m.endAddr toAddr
  · exact Or.inl hfit
  obtain ⟨j', hscan, -, hj', hpast', hcur⟩ := bootMemFindReserved_spec (n := b.reserved.size - j) hrf
    (by omega) (hpast.mono hge)
  rw [if_neg hfit, hscan, Option.bind_some] at hstep
  refine Or.inr ?_
  by_cases hclear : ∀ r, b.reserved.contents[j']? = some r → a + size ≤ r.beginAddr
  · exact Or.inl (apart_of_pastCursor hord hpast' hclear)
  · push Not at hclear
    obtain ⟨r, hr, hmeet⟩ := hclear
    have hlast : j' < b.reserved.size := by
      have := (List.getElem?_eq_some_iff.mp hr).1
      rwa [length_contents hrf] at this
    rw [if_neg hlast.ne, get_eq_getElem? hlast, hr, Option.bind_some, if_neg (not_le.mpr hmeet)] at hstep
    exact Or.inr ⟨j', r, hlast, hr, hcur r hr, hpast', hstep⟩

theorem Stop.begin_le (h : Stop R size align beginAddr endAddr addr) : beginAddr ≤ addr := by
  obtain rfl | ⟨r, -, rfl, a, -, hba, har, -⟩ := h.reached
  · exact le_rfl
  · omega

/-- The first range that ends after an address ends no later than any other that does. -/
theorem end_le_of_pastCursor (hR : Apart R) {r q : BootMemRange} {a : ℕ} (hq : R[j]? = some q)
    (hpast : PastCursor R j a) (hr : r ∈ R) (har : a < r.endAddr) : q.endAddr ≤ r.endAddr := by
  obtain ⟨p, hp, rfl⟩ := List.getElem_of_mem hr
  obtain ⟨hj, rfl⟩ := List.getElem?_eq_some_iff.mp hq
  rcases lt_trichotomy p j with hlt | rfl | hlt
  · exact absurd (hpast p _ hlt (List.getElem?_eq_getElem hp)) (not_le.mpr har)
  · exact le_rfl
  · have := List.pairwise_iff_getElem.mp hR.sorted j p hj hp hlt
    have := hR.nonempty _ hr
    omega

/-- Inside one memory range, the search comes to every address where it can stand, unless something
wraps on the way. -/
theorem visits_of_stop (hrf : b.reserved.Fits) (hres : Apart b.reserved.contents) (hk : k < 32)
    (hm : b.memory.get i = some m) {start addr x : ℕ}
    (hwrap : ∀ y, Visits b size (2 ^ k) fromAddr toAddr i m y → NoWrap size (2 ^ k) y)
    (hx : Stop b.reserved.contents size (2 ^ k) start (min m.endAddr toAddr) x)
    (hj : j ≤ b.reserved.size) (hpast : PastCursor b.reserved.contents j addr)
    (hrun : FindRun b size (2 ^ k) fromAddr toAddr (bootMemFindStart size fromAddr toAddr)
      (.inr (.whileHead i addr j)))
    (haddr : addr = start ∨ start ≤ addr ∧ ∃ q ∈ b.reserved.contents, addr = q.endAddr)
    (hle : addr ≤ x) : Visits b size (2 ^ k) fromAddr toAddr i m x := by
  obtain ⟨d, hd⟩ := Nat.exists_eq_add_of_le hle
  induction d using Nat.strong_induction_on generalizing addr j with
  | _ d ih =>
    rcases Nat.eq_zero_or_pos d with rfl | hpos
    · obtain rfl : x = addr := hd
      exact ⟨hm, hx.lt_end, j, hrun⟩
    have hlt : addr < min m.endAddr toAddr := hle.trans_lt hx.lt_end
    obtain rfl | ⟨r, hr, rfl, a, hda, hsa, har, hra, hae, hfirst⟩ := hx.reached
    · omega
    -- the search has not passed the block that meets `r`
    have haddra : addr ≤ a := by
      rcases haddr with rfl | ⟨-, q, hq, rfl⟩
      · exact hsa
      · by_contra hqa
        have hbegin : ¬ q.beginAddr < r.beginAddr := fun hqr => hqa (hfirst q hq hqr)
        have := hres.nonempty q hq
        rcases eq_or_of_pairwise hres.sorted hq hr with rfl | hqr | hrq <;> omega
    have hround := alignUp_le_of_dvd hk (hwrap addr ⟨hm, hlt, j, hrun⟩).1 hda haddra
    have hge := le_alignUp hk (hwrap addr ⟨hm, hlt, j, hrun⟩).1
    rcases bootMemFindStep_round hrf hres.ordered hk hm hj (hwrap addr ⟨hm, hlt, j, hrun⟩) hpast hlt with
      hfit | hclear | ⟨j', q, hj', hq, haq, hpast', hstep⟩
    · omega
    · refine absurd hclear (hx.none_before _ (dvd_alignUp hk) ?_ (by omega) (by omega))
      rcases haddr with rfl | ⟨hs, -⟩ <;> omega
    · have hqr := end_le_of_pastCursor hres hq hpast' hr (by omega)
      refine ih (r.endAddr - q.endAddr) (by omega) hj'.le (hpast'.mono haq.le)
        (hrun.tail ⟨_, rfl, hstep⟩) (Or.inr ⟨?_, q, List.mem_of_getElem? hq, rfl⟩) hqr (by omega)
      rcases haddr with rfl | ⟨hs, -⟩ <;> omega

/-- The search comes to every address where it can stand, unless something wraps on the way. -/
theorem visits_of_standsAt (hmf : b.memory.Fits) (hrf : b.reserved.Fits)
    (hmem : Apart b.memory.contents) (hres : Apart b.reserved.contents) (hk : k < 32)
    (hsize : 0 < size)
    (hwrap : ∀ i m y, Visits b size (2 ^ k) fromAddr toAddr i m y → NoWrap size (2 ^ k) y)
    (hi : i + n = b.memory.size) (hj : j ≤ b.reserved.size)
    (hpast : ∀ m ∈ b.memory.contents.drop i,
      PastCursor b.reserved.contents j (max m.beginAddr fromAddr))
    (hpast' : PastCursor b.reserved.contents j toAddr)
    (hrun : FindRun b size (2 ^ k) fromAddr toAddr (bootMemFindStart size fromAddr toAddr)
      (.inr (.forHead i j))) {x : ℕ}
    (hx : StandsAt (b.memory.contents.drop i) b.reserved.contents size (2 ^ k) fromAddr toAddr x) :
    ∃ i m, Visits b size (2 ^ k) fromAddr toAddr i m x := by
  induction n generalizing i j with
  | zero =>
    obtain ⟨⟨m, hm, -⟩, -⟩ := hx
    rw [List.drop_eq_nil_of_le (by rw [length_contents hmf]; omega)] at hm
    cases hm
  | succ n ih =>
    have hlt : i < b.memory.contents.length := by rw [length_contents hmf]; omega
    have hdrop := List.drop_eq_getElem_cons hlt
    have hget : b.memory.get i = some b.memory.contents[i] := get_eq_getElem hmf hlt
    have hne := hmem.nonempty _ (List.getElem_mem hlt)
    have hafter : ∀ m ∈ b.memory.contents.drop (i + 1), b.memory.contents[i].endAddr ≤ m.beginAddr := by
      have hsorted := hmem.sorted.drop (i := i)
      rw [hdrop] at hsorted
      exact (List.pairwise_cons.mp hsorted).1
    rw [hdrop] at hpast hx
    generalize b.memory.contents[i] = m at *
    have hpastm := hpast m (by simp)
    obtain ⟨⟨m', hm', hstop⟩, hfirst⟩ := hx
    have hbegin := hstop.begin_le
    have hend := hstop.lt_end
    have hstep : bootMemFindStep b size (2 ^ k) fromAddr toAddr (.forHead i j) =
        if m.endAddr ≤ fromAddr then some (.inr (.forHead (i + 1) j))
        else if m.beginAddr ≥ toAddr then some (.inl toAddr)
        else some (.inr (.whileHead i (maxu m.beginAddr fromAddr) j)) := by
      rw [bootMemFindStep, if_pos (by omega), hget]
      rfl
    have hmm' : m' = m ∨ m' ∈ b.memory.contents.drop (i + 1) ∧ m.endAddr ≤ m'.beginAddr :=
      (List.mem_cons.mp hm').imp id fun h => ⟨h, hafter m' h⟩
    by_cases hskip : m.endAddr ≤ fromAddr
    · rw [if_pos hskip] at hstep
      have hrest := (hmm'.resolve_left (by rintro rfl; omega)).1
      exact ih (by omega) hj (fun m hm => hpast m (by simp [hm])) hpast'
        (hrun.tail ⟨_, rfl, hstep⟩) ⟨⟨m', hrest, hstop⟩, fun c hc => hfirst c hc.cons⟩
    have hbreak : ¬ m.beginAddr ≥ toAddr := by
      rcases hmm' with rfl | ⟨-, hle⟩ <;> omega
    rw [if_neg hskip, if_neg hbreak, maxu_eq] at hstep
    have hhead := hrun.tail ⟨_, rfl, hstep⟩
    have hall : ∀ y, Stop b.reserved.contents size (2 ^ k) (max m.beginAddr fromAddr)
        (min m.endAddr toAddr) y → Visits b size (2 ^ k) fromAddr toAddr i m y := fun y hy =>
      visits_of_stop hrf hres hk hget (hwrap i m) hy hj hpastm hhead (Or.inl rfl) hy.begin_le
    rcases hmm' with rfl | ⟨hrest, hle⟩
    · exact ⟨i, m', hall x hstop⟩
    -- the search of this memory range finds nothing, because no candidate is before `x`
    have hpastEnd : PastCursor b.reserved.contents j (min m.endAddr toAddr) :=
      fun q r hq hr => le_min ((hpastm q r hq hr).trans (by omega)) (hpast' q r hq hr)
    rcases bootMemFindWhile_spec hrf hres.ordered hk hsize (fun y hy => hwrap i m y (hall y hy)) hj
      hpastm hpastEnd (Or.inl (Nat.lt_succ_of_le (Nat.sub_le _ _))) le_rfl stop_begin
      (fun a _ h₁ h₂ => by omega) with ⟨a, -, hclear⟩ | ⟨j', hret, hj', hp, -⟩
    · have hae := hclear.le_end
      have hba := hclear.begin_le
      have := hfirst a ⟨hclear.dvd, by omega, by omega, ⟨m, List.mem_cons_self, by omega, by omega⟩,
        hclear.clear⟩
      omega
    · have hfall := (findRun_of_bootMemFindWhile fromAddr hrf hget hj hret).1
      exact ih (by omega) hj' (fun m' hm' => hp.mono (by have := hafter m' hm'; omega))
        (hp.mono (min_le_right _ _)) (hhead.trans hfall) ⟨⟨m', hrest, hstop⟩, fun c hc => hfirst c hc.cons⟩

/-- **The addresses where the search can stand are where it wraps first**: if an addition would wrap at
one of them, then some addition of the search does wrap. -/
theorem noWrap_of_visits (hmf : b.memory.Fits) (hrf : b.reserved.Fits)
    (hmem : Apart b.memory.contents) (hres : Apart b.reserved.contents) (hk : k < 32)
    (hsize : 0 < size) (hbig : fromAddr + size ≤ toAddr) (hto : toAddr < 2 ^ 32)
    (hwrap : ∀ i m y, Visits b size (2 ^ k) fromAddr toAddr i m y → NoWrap size (2 ^ k) y) :
    ∀ x, StandsAt b.memory.contents b.reserved.contents size (2 ^ k) fromAddr toAddr x →
      NoWrap size (2 ^ k) x := by
  intro x hx
  have hstart : bootMemFindStart size fromAddr toAddr = .inr (.forHead 0 0) := by
    rw [bootMemFindStart, wsub_of_le (by omega) hto, if_neg (by omega), if_neg (by omega)]
  obtain ⟨i, m, hvisit⟩ := visits_of_standsAt hmf hrf hmem hres hk hsize hwrap (Nat.zero_add _)
    (Nat.zero_le _) (fun _ _ m r hm _ => by omega) (fun m r hm _ => by omega)
    (by rw [hstart]) (by simpa using hx)
  exact hwrap i m x hvisit

/-! ### Bounds -/

/-- **The search stays in bounds as long as nothing wraps.** On tables without overlaps, if no addition
wraps at an address where the search can stand, it returns, and the result is `to` or an aligned
address whose block lies in `[from, to)`. -/
theorem bootMemFind_inBounds (hmf : b.memory.Fits) (hrf : b.reserved.Fits)
    (hmem : Apart b.memory.contents) (hres : Apart b.reserved.contents) (hk : k < 32)
    (hsize : 0 < size) (hft : fromAddr ≤ toAddr) (hto : toAddr < 2 ^ 32)
    (hwrap : fromAddr + size ≤ toAddr → ∀ x, StandsAt b.memory.contents b.reserved.contents size (2 ^ k)
      fromAddr toAddr x → NoWrap size (2 ^ k) x) :
    ∃ x, bootMemFind b size (2 ^ k) fromAddr toAddr = some x ∧
      (x = toAddr ∨ 2 ^ k ∣ x ∧ fromAddr ≤ x ∧ x + size ≤ toAddr) := by
  by_cases hbig : fromAddr + size ≤ toAddr
  · obtain ⟨x, hret, hfit⟩ := bootMemFind_spec_of_noWrap hmf hrf hmem.ordered hres.ordered
      (hmem.cursorSafe _ _ _) hk hsize hft hto (hwrap hbig)
    refine ⟨x, hret, ?_⟩
    rcases hfit with ⟨hx, -⟩ | ⟨hcand, -⟩
    · exact Or.inl hx
    · exact Or.inr ⟨hcand.dvd, hcand.from_le, hcand.le_to⟩
  · have hret : bootMemFind b size (2 ^ k) fromAddr toAddr = some toAddr := by
      rw [bootMemFind, wsub_of_le hft hto, if_pos (by omega)]
    exact ⟨toAddr, hret, Or.inl rfl⟩

theorem bootMemFind_inBounds_one : ∃ x,
    bootMemFind ⟨single ⟨16, 1000⟩, single ⟨16, 20⟩⟩ 5 (2 ^ 3) 0 2000 = some x ∧
      (x = 2000 ∨ 2 ^ 3 ∣ x ∧ 0 ≤ x ∧ x + 5 ≤ 2000) := by
  refine bootMemFind_inBounds fits_single fits_single (apart_single (by decide))
    (apart_single (by decide)) (by decide) (by decide) (by decide) (by decide) ?_
  rintro - x ⟨⟨m, -, hstop⟩, -⟩
  have hlt := hstop.lt_end
  have hround : x + (2 ^ 3 - 1) < 2 ^ 32 := by omega
  have := alignUp_le (by decide) hround
  exact ⟨hround, by omega⟩

/-- **The search can leave its bounds.** Of the memory below `0xFFFFFFFF` the range
`[0x1000, 0xFFFFF800)` is reserved; the request is for 16 bytes from `0x1000` on, and `align_up` takes
`0xFFFFF800` back to `0`. -/
theorem bootMemFind_below_from : ¬ ∀ (b : BootMem) (size k fromAddr toAddr x : ℕ), b.memory.Fits →
    b.reserved.Fits → Apart b.memory.contents → Apart b.reserved.contents →
    (∀ r ∈ b.memory.contents ++ b.reserved.contents, r.endAddr < 2 ^ 32) → k < 32 → 0 < size →
    fromAddr ≤ toAddr → toAddr < 2 ^ 32 → bootMemFind b size (2 ^ k) fromAddr toAddr = some x →
    x = toAddr ∨ 2 ^ k ∣ x ∧ fromAddr ≤ x ∧ x + size ≤ toAddr := by
  intro hall
  have hret : bootMemFind ⟨single ⟨0, 0xFFFFFFFF⟩, single ⟨0x1000, 0xFFFFF800⟩⟩ 16 (2 ^ 12) 0x1000
    0xFFFFFFFF = some 0 := by decide
  have h := hall _ _ _ _ _ _ fits_single fits_single (apart_single (by decide))
    (apart_single (by decide)) (by simp [contents_single]) (by decide) (by decide) (by decide)
    (by decide) hret
  omega

/-! ### `boot_mem_is_free` -/

theorem alignUp_one {x : ℕ} (hx : x < 2 ^ 32) : alignUp x (2 ^ 0) = x := by
  have h := alignUp_eq (x := x) (k := 0) (by decide) (by simpa using hx)
  simpa using h

/-- The addresses of a range all lie in a normal table exactly when one of its ranges holds them. -/
theorem Normal.subset_covered_iff (h : Normal M) (hlt : beginAddr < endAddr) :
    Set.Ico beginAddr endAddr ⊆ covered M ↔
      ∃ m ∈ M, m.beginAddr ≤ beginAddr ∧ endAddr ≤ m.endAddr := by
  constructor
  · intro hsub
    obtain ⟨m, hm, hbegin⟩ := hsub (Set.left_mem_Ico.mpr hlt)
    rw [BootMemRange.mem_addrs] at hbegin
    refine ⟨m, hm, hbegin.1, ?_⟩
    by_contra hend
    -- the end of `m` would lie in another range, which would touch `m`
    obtain ⟨m', hm', hin⟩ := hsub (show m.endAddr ∈ Set.Ico beginAddr endAddr from ⟨by omega, by omega⟩)
    rw [BootMemRange.mem_addrs] at hin
    rcases eq_or_of_pairwise h.separated hm hm' with rfl | hsep | hsep <;> omega
  · rintro ⟨m, hm, hle⟩ x hx
    exact ⟨m, hm, BootMemRange.mem_addrs.mpr ⟨hle.1.trans hx.1, hx.2.trans_le hle.2⟩⟩

theorem normal_single {r : BootMemRange} (h : r.beginAddr < r.endAddr) :
    Normal (single r).contents := by
  rw [contents_single]
  exact normal_cons.mpr ⟨h, by simp, normal_nil⟩

/-- With alignment `1` the search of one memory range only goes up, and what it returns is clear up to
the sum it computed. -/
theorem bootMemFindWhile_one {capacity fuel : ℕ} {res : BootMemType capacity} (hf : res.Fits)
    (hord : Ordered res.contents) (hend : endAddr < 2 ^ 32) {out : ℕ ⊕ ℕ} (hj : j ≤ res.size)
    (hpast : PastCursor res.contents j beginAddr) (hpast' : PastCursor res.contents j endAddr)
    (h : bootMemFindWhile res size (2 ^ 0) endAddr fuel beginAddr j = some out) :
    (∃ a, out = .inl a ∧ beginAddr ≤ a ∧ wadd a size ≤ endAddr ∧
      ∀ r ∈ res.contents, r.endAddr ≤ a ∨ wadd a size ≤ r.beginAddr) ∨
    ∃ j', out = .inr j' ∧ j' ≤ res.size ∧ PastCursor res.contents j' endAddr := by
  induction fuel generalizing beginAddr j with
  | zero => cases h
  | succ fuel ih =>
    by_cases hlt : beginAddr < endAddr
    · have hround : beginAddr + (2 ^ 0 - 1) < 2 ^ 32 := hlt.trans hend
      rcases bootMemFindWhile_round_wadd hf hord (by decide) hround fuel hj hpast hlt
        (alignUp_one (hlt.trans hend)) rfl with ⟨-, hret⟩ | ⟨hfit, hret, hclear⟩ |
        ⟨hfit, j', r, hjj', hj', hr, hrend, -, hpast₁, hret⟩
      · rw [hret] at h
        cases h
        exact Or.inr ⟨j, rfl, hj, hpast'⟩
      · rw [hret] at h
        cases h
        exact Or.inl ⟨beginAddr, rfl, le_rfl, hfit, hclear⟩
      · rw [hret] at h
        rcases ih hj'.le (hpast₁.mono hrend.le) (hpast₁.mono hlt.le) h with
          ⟨a, rfl, hle, hrest⟩ | hout
        · exact Or.inl ⟨a, rfl, by omega, hrest⟩
        · exact Or.inr hout
    · rw [bootMemFindWhile_of_ge hlt] at h
      cases h
      exact Or.inr ⟨j, rfl, hj, hpast'⟩

/-- What the search returns with alignment `1`: `to`, or an address from `from` on that is clear inside
one memory range, up to the sum it computed. -/
theorem bootMemFindFor_one {capacity : ℕ} {mem res : BootMemType capacity} (hmf : mem.Fits)
    (hf : res.Fits) (hord : Ordered res.contents) (hmem : Apart mem.contents) (hto : toAddr < 2 ^ 32)
    {x : ℕ} (hi : i + n = mem.size) (hj : j ≤ res.size)
    (hpast : ∀ m ∈ mem.contents.drop i, PastCursor res.contents j (max m.beginAddr fromAddr))
    (hpast' : PastCursor res.contents j toAddr)
    (h : bootMemFindFor mem res size (2 ^ 0) fromAddr toAddr n i j = some x) :
    x = toAddr ∨ fromAddr ≤ x ∧ wadd x size ≤ toAddr ∧
      (∃ m ∈ mem.contents, m.beginAddr ≤ x ∧ wadd x size ≤ m.endAddr) ∧
      ∀ r ∈ res.contents, r.endAddr ≤ x ∨ wadd x size ≤ r.beginAddr := by
  induction n generalizing i j with
  | zero =>
    cases h
    exact Or.inl rfl
  | succ n ih =>
    have hlt : i < mem.contents.length := by rw [length_contents hmf]; omega
    have hdrop := List.drop_eq_getElem_cons hlt
    have hget : mem.get i = some mem.contents[i] := get_eq_getElem hmf hlt
    have hin : mem.contents[i] ∈ mem.contents := List.getElem_mem hlt
    have hafter : ∀ m ∈ mem.contents.drop (i + 1), mem.contents[i].endAddr ≤ m.beginAddr := by
      have hsorted := hmem.sorted.drop (i := i)
      rw [hdrop] at hsorted
      exact (List.pairwise_cons.mp hsorted).1
    rw [hdrop] at hpast
    rw [bootMemFindFor, hget, Option.bind_eq_bind, Option.bind_some] at h
    generalize mem.contents[i] = m at *
    have hne := hmem.nonempty m hin
    have hpastm := hpast m (by simp)
    split_ifs at h with hskip hbreak
    · exact ih (by omega) hj (fun m' hm' => hpast m' (by simp [hm'])) hpast' h
    · cases h
      exact Or.inl rfl
    · dsimp only at h
      rw [minu_eq, maxu_eq] at h
      obtain ⟨out, hwhile, h⟩ := Option.bind_eq_some_iff.mp h
      have hpastEnd : PastCursor res.contents j (min m.endAddr toAddr) :=
        fun q r hq hr => le_min ((hpastm q r hq hr).trans (by omega)) (hpast' q r hq hr)
      rcases bootMemFindWhile_one hf hord (by omega) hj hpastm hpastEnd hwhile with
        ⟨a, rfl, hle, hfit, hclear⟩ | ⟨j', rfl, hj', hp⟩
      · cases h
        exact Or.inr ⟨(le_max_right _ _).trans hle, hfit.trans (min_le_right _ _),
          ⟨m, hin, (le_max_left _ _).trans hle, hfit.trans (min_le_left _ _)⟩, hclear⟩
      · exact ih (by omega) hj' (fun m' hm' => hp.mono ((min_le_left _ _).trans
          ((hafter m' hm').trans (le_max_left _ _)))) (hp.mono (min_le_right _ _)) h

/-- Every byte of `[begin, end)` lies in the memory table and none lies in the reserved table. -/
def IsFree (b : BootMem) (beginAddr endAddr : ℕ) : Prop :=
  Set.Ico beginAddr endAddr ⊆ covered b.memory.contents ∧
    Disjoint (Set.Ico beginAddr endAddr) (covered b.reserved.contents)

/-- The search made for a range from `0` on returns `0` exactly when the range is free. -/
theorem bootMemFind_zero_iff (hmf : b.memory.Fits) (hrf : b.reserved.Fits)
    (hmem : Normal b.memory.contents) (hres : Normal b.reserved.contents) (hpos : 0 < endAddr)
    (hend : endAddr < 2 ^ 32) {x : ℕ} (hx : bootMemFind b endAddr (2 ^ 0) 0 endAddr = some x) :
    x = 0 ↔ IsFree b 0 endAddr := by
  have hclear := @clear_iff_disjoint endAddr 0 b.reserved.contents hres.nonempty hpos
  rw [Nat.zero_add] at hclear
  constructor
  · rintro rfl
    rw [bootMemFind, wsub_of_le (Nat.zero_le _) hend, if_neg (by omega), if_neg (by omega)] at hx
    rcases bootMemFindFor_one hmf hrf hres.ordered hmem.apart hend (Nat.zero_add _) (Nat.zero_le _)
      (fun _ _ m r hm _ => by omega) (fun m r hm _ => by omega) hx with h | ⟨-, -, ⟨m, hm, hin⟩, hc⟩
    · omega
    · rw [wadd_of_lt (by omega), Nat.zero_add] at hin hc
      refine ⟨(hmem.subset_covered_iff hpos).mpr ⟨m, hm, hin⟩, hclear.mp ?_⟩
      simpa [Clear] using hc
  · rintro ⟨hsub, hdisj⟩
    obtain ⟨m, hm, hin⟩ := (hmem.subset_covered_iff hpos).mp hsub
    have hcand : Candidate b.memory.contents b.reserved.contents endAddr (2 ^ 0) 0 endAddr 0 :=
      ⟨Nat.one_dvd _, le_rfl, by omega, ⟨m, hm, by omega⟩, hclear.mpr hdisj⟩
    -- the search stands nowhere but at the candidate
    have hwrap : ∀ y, StandsAt b.memory.contents b.reserved.contents endAddr (2 ^ 0) 0 endAddr y →
        NoWrap endAddr (2 ^ 0) y := by
      intro y hy
      obtain rfl : y = 0 := Nat.le_zero.mp (hy.2 0 hcand)
      exact ⟨by decide, by rw [alignUp_one (by decide)]; omega⟩
    obtain ⟨y, hret, hfit⟩ := bootMemFind_spec_of_noWrap hmf hrf hmem.ordered hres.ordered
      (hmem.apart.cursorSafe _ _ _) (by decide) hpos (Nat.zero_le _) hend hwrap
    rw [hx] at hret
    cases hret
    rcases hfit with ⟨-, hnone⟩ | ⟨-, hmin⟩
    · exact absurd hcand (hnone 0)
    · exact Nat.le_zero.mp (hmin 0 hcand)

/-- **When `boot_mem_is_free` is right.** On normal tables the call returns; its answer is "free"
exactly for a free range, if and only if the range is free and does not begin at `0`. -/
theorem bootMemIsFree_iff (hmf : b.memory.Fits) (hrf : b.reserved.Fits)
    (hmem : Normal b.memory.contents) (hres : Normal b.reserved.contents)
    (hwords : ∀ r ∈ b.reserved.contents, r.endAddr < 2 ^ 32) (hlt : beginAddr < endAddr)
    (hend : endAddr < 2 ^ 32) :
    ∃ answer, bootMemIsFree b beginAddr endAddr = some answer ∧
      ((answer = true ↔ IsFree b beginAddr endAddr) ↔ 0 < beginAddr ∧ IsFree b beginAddr endAddr) := by
  have hsize : wsub endAddr beginAddr = endAddr - beginAddr := wsub_of_le hlt.le hend
  obtain ⟨x, hx⟩ := @exists_bootMemFind b (endAddr - beginAddr) beginAddr endAddr 0 hmf hrf hwords
    (by decide) (by omega) (fun r hr _ _ => by have := hwords r hr; omega)
  refine ⟨decide (x ≠ 0), by rw [bootMemIsFree, hsize, ← Nat.pow_zero 2, hx]; rfl, ?_⟩
  rw [decide_eq_true_eq]
  rcases Nat.eq_zero_or_pos beginAddr with rfl | hpos
  · have hzero := bootMemFind_zero_iff hmf hrf hmem hres hlt hend (by simpa using hx)
    rw [← hzero]
    simp
  · rw [bootMemFind, wsub_of_le hlt.le hend, if_neg (by omega), if_neg (by omega)] at hx
    have hne : x ≠ 0 := by
      rcases bootMemFindFor_one hmf hrf hres.ordered hmem.apart hend (Nat.zero_add _) (Nat.zero_le _)
        (fun _ _ m r hm _ => by omega) (fun m r hm _ => by omega) hx with rfl | ⟨hle, -⟩
      · omega
      · omega
    simp [hne, hpos]

theorem bootMemIsFree_iff_one : ∃ answer,
    bootMemIsFree ⟨single ⟨16, 1000⟩, single ⟨16, 20⟩⟩ 32 64 = some answer ∧
      ((answer = true ↔ IsFree ⟨single ⟨16, 1000⟩, single ⟨16, 20⟩⟩ 32 64) ↔
        0 < 32 ∧ IsFree ⟨single ⟨16, 1000⟩, single ⟨16, 20⟩⟩ 32 64) :=
  bootMemIsFree_iff fits_single fits_single (normal_single (by decide)) (normal_single (by decide))
    (by simp [contents_single]) (by decide) (by decide)

/-- **A range outside all memory is called free.** -/
theorem bootMemIsFree_outside_memory : ¬ ∀ (b : BootMem) (beginAddr endAddr : ℕ), b.memory.Fits →
    b.reserved.Fits → Normal b.memory.contents → Normal b.reserved.contents →
    (∀ r ∈ b.memory.contents ++ b.reserved.contents, r.endAddr < 2 ^ 32) → beginAddr < endAddr →
    endAddr < 2 ^ 32 → ∃ answer, bootMemIsFree b beginAddr endAddr = some answer ∧
      (answer = true ↔ IsFree b beginAddr endAddr) := by
  intro hall
  obtain ⟨answer, hret, hiff⟩ := hall ⟨single ⟨0x1000, 0x2000⟩, .empty _⟩ 0x3000 0x4000 fits_single
    fits_empty (normal_single (by decide)) (by rw [contents_empty]; exact normal_nil)
    (by simp [contents_single]) (by decide) (by decide)
  have hans : bootMemIsFree ⟨single ⟨0x1000, 0x2000⟩, .empty _⟩ 0x3000 0x4000 = some true := by decide
  rw [hans] at hret
  cases hret
  obtain ⟨m, hm, hin⟩ := (hiff.mp rfl).1 (show 0x3000 ∈ Set.Ico 0x3000 0x4000 from ⟨le_rfl, by decide⟩)
  rw [contents_single, List.mem_singleton] at hm
  subst hm
  exact absurd (BootMemRange.mem_addrs.mp hin).2 (by decide)

end Auos
