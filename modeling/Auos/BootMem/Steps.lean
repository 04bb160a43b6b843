import Auos.BootMem.Find
import Mathlib.Logic.Relation

/-!
# When the search of the boot allocator returns

The nested loops of `boot_mem_find` as a transition system, one step for each turn of a loop, and when
its runs end. A turn of the `while` loop that does not leave it ends at the end of the reserved range
under the cursor. If the next turn leaves the cursor where it is, it ends there again, and so do all
later ones. That takes an `align_up` that goes down, so one that wraps.

`bootMemFind` cuts the `while` loop off; `bootMemFind_eq_some_iff` says that this loses nothing.

## Main definitions

* `FindState`, `bootMemFindStep` — the loops, one turn at a time
* `FindRun` — their runs
* `WrapsAt` — the turns that repeat for ever

## Main results

* `bootMemFind_eq_some_iff` — `bootMemFind` returns what the runs return
* `bootMemFind_returns_iff` — a run ends iff it never comes to such a turn
-/

namespace Auos

open BootMemType Relation

/-- A place in the loops of `boot_mem_find`: the head of the `for` loop or of the `while` loop. -/
inductive FindState
  | forHead (i j : ℕ)
  | whileHead (i beginAddr j : ℕ)
  deriving DecidableEq

variable {b : BootMem} {size align fromAddr toAddr beginAddr i j k x fuel n : ℕ} {m r : BootMemRange}
  {p : FindState} {c : ℕ ⊕ FindState}

/-- One turn of a loop of `boot_mem_find`: it returns an address, or it goes to the head of a loop. -/
def bootMemFindStep (b : BootMem) (size align fromAddr toAddr : ℕ) :
    FindState → Option (ℕ ⊕ FindState)
  | .forHead i j =>
    if i ≠ b.memory.size then do
      let range ← b.memory.get i
      if range.endAddr ≤ fromAddr then some (.inr (.forHead (i + 1) j))
      else if range.beginAddr ≥ toAddr then some (.inl toAddr)
      else some (.inr (.whileHead i (maxu range.beginAddr fromAddr) j))
    else some (.inl toAddr)
  | .whileHead i beginAddr j => do
    let range ← b.memory.get i
    let endAddr := minu range.endAddr toAddr
    if beginAddr < endAddr then
      let beginAddr := alignUp beginAddr align
      if wadd beginAddr size > endAddr then some (.inr (.forHead (i + 1) j))
      else do
        let j ← bootMemFindReserved b.reserved beginAddr j (b.reserved.size - j)
        if j = b.reserved.size then some (.inl beginAddr)
        else
          let range ← b.reserved.get j
          if range.beginAddr ≥ wadd beginAddr size then some (.inl beginAddr)
          else some (.inr (.whileHead i range.endAddr j))
    else some (.inr (.forHead (i + 1) j))

/-- Where a call starts, after the tests of its arguments. -/
def bootMemFindStart (size fromAddr toAddr : ℕ) : ℕ ⊕ FindState :=
  if fromAddr > toAddr ∨ size > wsub toAddr fromAddr then .inl toAddr
  else if size = 0 then .inl fromAddr
  else .inr (.forHead 0 0)

/-- A turn of a loop, as a relation. -/
def FindNext (b : BootMem) (size align fromAddr toAddr : ℕ) (a c : ℕ ⊕ FindState) : Prop :=
  ∃ p, a = .inr p ∧ bootMemFindStep b size align fromAddr toAddr p = some c

/-- Finitely many turns. -/
abbrev FindRun (b : BootMem) (size align fromAddr toAddr : ℕ) :
    ℕ ⊕ FindState → ℕ ⊕ FindState → Prop :=
  ReflTransGen (FindNext b size align fromAddr toAddr)

/-! ### One turn -/

theorem FindRun.step (h : bootMemFindStep b size align fromAddr toAddr p = some c)
    {d : ℕ ⊕ FindState} (hrun : FindRun b size align fromAddr toAddr c d) :
    FindRun b size align fromAddr toAddr (.inr p) d :=
  ReflTransGen.head ⟨p, rfl, h⟩ hrun

theorem findNext_rightUnique : Relator.RightUnique (FindNext b size align fromAddr toAddr) := by
  rintro a c c' ⟨p, rfl, hc⟩ ⟨p', hp, hc'⟩
  cases hp
  exact Option.some.inj (hc.symm.trans hc')

/-- A run does not go on after a return. -/
theorem FindRun.eq_of_inl (h : FindRun b size align fromAddr toAddr (.inl x) c) : c = .inl x := by
  rcases ReflTransGen.cases_head h with rfl | ⟨d, ⟨p, hp, -⟩, -⟩
  · rfl
  · cases hp

/-- A turn of the `while` loop, over the memory range it belongs to. -/
theorem bootMemFindStep_while (hm : b.memory.get i = some m) :
    bootMemFindStep b size align fromAddr toAddr (.whileHead i beginAddr j) =
      if beginAddr < min m.endAddr toAddr then
        if wadd (alignUp beginAddr align) size > min m.endAddr toAddr then
          some (.inr (.forHead (i + 1) j))
        else (bootMemFindReserved b.reserved (alignUp beginAddr align) j (b.reserved.size - j)).bind
          fun j => if j = b.reserved.size then some (.inl (alignUp beginAddr align))
            else (b.reserved.get j).bind fun r =>
              if r.beginAddr ≥ wadd (alignUp beginAddr align) size then
                some (.inl (alignUp beginAddr align))
              else some (.inr (.whileHead i r.endAddr j))
      else some (.inr (.forHead (i + 1) j)) := by
  rw [bootMemFindStep, hm, Option.bind_eq_bind, Option.bind_some, minu_eq]
  rfl

theorem exists_get {capacity : ℕ} {t : BootMemType capacity} (hf : t.Fits) (hj : j < t.size) :
    ∃ r, t.get j = some r := by
  refine ⟨_, get_eq_getElem? hj ▸ List.getElem?_eq_getElem ?_⟩
  rw [length_contents hf]
  exact hj

/-- The scan of the reserved table never fails; it ends at a range that ends after the address. -/
theorem exists_bootMemFindReserved {capacity : ℕ} {res : BootMemType capacity} (addr : ℕ)
    (hf : res.Fits) (hj : j + n = res.size) :
    ∃ j', bootMemFindReserved res addr j n = some j' ∧ j ≤ j' ∧ j' ≤ res.size ∧
      ∀ r, j' < res.size → res.get j' = some r → addr < r.endAddr := by
  induction n generalizing j with
  | zero => exact ⟨j, rfl, le_rfl, by omega, fun r hlt => by omega⟩
  | succ n ih =>
    obtain ⟨r, hr⟩ := exists_get hf (show j < res.size by omega)
    rw [bootMemFindReserved, hr, Option.bind_eq_bind, Option.bind_some]
    split_ifs with hend
    · refine ⟨j, rfl, le_rfl, by omega, fun r' _ hr' => ?_⟩
      rw [hr] at hr'
      cases hr'
      exact hend
    · obtain ⟨j', hscan, hle, hrest⟩ := ih (j := j + 1) (by omega)
      exact ⟨j', hscan, by omega, hrest⟩

/-- What a turn of the `while` loop can do, said once: it returns the rounded address, it leaves the
loop, or it goes on from the end of the reserved range under the cursor. It never fails. -/
theorem bootMemFindStep_while_cases (size align fromAddr toAddr beginAddr : ℕ) (hf : b.reserved.Fits)
    (hm : b.memory.get i = some m) (hj : j ≤ b.reserved.size) :
    bootMemFindStep b size align fromAddr toAddr (.whileHead i beginAddr j) =
      some (.inl (alignUp beginAddr align)) ∨
    bootMemFindStep b size align fromAddr toAddr (.whileHead i beginAddr j) =
      some (.inr (.forHead (i + 1) j)) ∨
    ∃ j' r, j ≤ j' ∧ j' < b.reserved.size ∧ b.reserved.get j' = some r ∧
      bootMemFindStep b size align fromAddr toAddr (.whileHead i beginAddr j) =
        some (.inr (.whileHead i r.endAddr j')) := by
  obtain ⟨j', hscan, hjj', hj', -⟩ := exists_bootMemFindReserved (alignUp beginAddr align) hf
    (show j + (b.reserved.size - j) = b.reserved.size by omega)
  rw [bootMemFindStep_while hm, hscan, Option.bind_some]
  split_ifs with hlt hfit hend
  · exact Or.inr (Or.inl rfl)
  · exact Or.inl rfl
  · obtain ⟨r, hr⟩ := exists_get hf (show j' < b.reserved.size by omega)
    rw [hr, Option.bind_some]
    split_ifs with hmeet
    · exact Or.inl rfl
    · exact Or.inr (Or.inr ⟨j', r, hjj', by omega, hr, rfl⟩)
  · exact Or.inr (Or.inl rfl)

/-! ### The cut-off loops and the steps -/

/-- Where the `while` loop over the `i`-th memory range leaves to. -/
def afterWhile (i : ℕ) : ℕ ⊕ ℕ → ℕ ⊕ FindState
  | .inl addr => .inl addr
  | .inr j => .inr (.forHead (i + 1) j)

/-- What the cut-off `while` loop makes of the place a turn ends at. -/
def resumeWhile (b : BootMem) (size align endAddr fuel : ℕ) : ℕ ⊕ FindState → Option (ℕ ⊕ ℕ)
  | .inl addr => some (.inl addr)
  | .inr (.forHead _ j) => some (.inr j)
  | .inr (.whileHead _ beginAddr j) =>
    bootMemFindWhile b.reserved size align endAddr fuel beginAddr j

/-- One round of the cut-off loop is one turn. -/
theorem bootMemFindWhile_succ (fromAddr : ℕ) (hm : b.memory.get i = some m) :
    bootMemFindWhile b.reserved size align (min m.endAddr toAddr) (fuel + 1) beginAddr j =
      (bootMemFindStep b size align fromAddr toAddr (.whileHead i beginAddr j)).bind
        (resumeWhile b size align (min m.endAddr toAddr) fuel) := by
  rw [bootMemFindStep_while hm]
  split_ifs with hlt hfit
  · rw [bootMemFindWhile_of_gt hlt hfit]
    rfl
  · rw [bootMemFindWhile_of_le hlt hfit, Option.bind_assoc]
    congr 1
    funext j'
    split_ifs
    · rfl
    · rw [Option.bind_assoc]
      congr 1
      funext r
      split_ifs <;> rfl
  · rw [bootMemFindWhile_of_ge hlt]
    rfl

/-- A `while` loop that ends within the cut-off is a run. -/
theorem findRun_of_bootMemFindWhile (fromAddr : ℕ) (hf : b.reserved.Fits)
    (hm : b.memory.get i = some m) (hj : j ≤ b.reserved.size) {out : ℕ ⊕ ℕ}
    (h : bootMemFindWhile b.reserved size align (min m.endAddr toAddr) fuel beginAddr j = some out) :
    FindRun b size align fromAddr toAddr (.inr (.whileHead i beginAddr j)) (afterWhile i out) ∧
      ∀ j', out = .inr j' → j' ≤ b.reserved.size := by
  induction fuel generalizing beginAddr j with
  | zero => cases h
  | succ fuel ih =>
    rw [bootMemFindWhile_succ fromAddr hm] at h
    rcases bootMemFindStep_while_cases size align fromAddr toAddr beginAddr hf hm hj with
      hstep | hstep | ⟨j', r, -, hj', hr, hstep⟩
    · rw [hstep] at h
      cases h
      exact ⟨.step hstep .refl, by simp⟩
    · rw [hstep] at h
      cases h
      exact ⟨.step hstep .refl, by simp [hj]⟩
    · rw [hstep] at h
      obtain ⟨hrun, hle⟩ := ih hj'.le h
      exact ⟨.step hstep hrun, hle⟩

/-- A turn that comes back to where it started. -/
def Stuck (b : BootMem) (size align fromAddr toAddr : ℕ) (p : FindState) : Prop :=
  bootMemFindStep b size align fromAddr toAddr p = some (.inr p)

/-- From the end of the range under the cursor, a `while` loop that outlasts the ranges that are left
comes to a turn that repeats. -/
theorem stuck_of_settled (hf : b.reserved.Fits) (hm : b.memory.get i = some m)
    (hj : j < b.reserved.size) (hr : b.reserved.get j = some r) (hn : b.reserved.size - j ≤ n)
    (h : bootMemFindWhile b.reserved size align (min m.endAddr toAddr) n r.endAddr j = none) :
    ∃ j' r', FindRun b size align fromAddr toAddr (.inr (.whileHead i r.endAddr j))
      (.inr (.whileHead i r'.endAddr j')) ∧ b.reserved.get j' = some r' ∧ j' < b.reserved.size ∧
      Stuck b size align fromAddr toAddr (.whileHead i r'.endAddr j') := by
  induction n generalizing j r with
  | zero => omega
  | succ n ih =>
    rw [bootMemFindWhile_succ fromAddr hm] at h
    rcases bootMemFindStep_while_cases size align fromAddr toAddr r.endAddr hf hm hj.le with
      hstep | hstep | ⟨j', r', hjj', hj', hr', hstep⟩
    · rw [hstep] at h
      cases h
    · rw [hstep] at h
      cases h
    · rcases Nat.eq_or_lt_of_le hjj' with rfl | hlt
      · obtain rfl : r = r' := Option.some.inj (hr.symm.trans hr')
        exact ⟨j, r, .refl, hr, hj, hstep⟩
      · rw [hstep] at h
        obtain ⟨j'', r'', hrun, hrest⟩ := ih hj' hr' (by omega) h
        exact ⟨j'', r'', .step hstep hrun, hrest⟩

/-- A `while` loop that does not end within the cut-off comes to a turn that repeats. -/
theorem stuck_of_bootMemFindWhile (fromAddr : ℕ) (hf : b.reserved.Fits)
    (hm : b.memory.get i = some m) (hj : j ≤ b.reserved.size)
    (h : bootMemFindWhile b.reserved size align (min m.endAddr toAddr) (b.reserved.size + 1) beginAddr
      j = none) :
    ∃ j' r', FindRun b size align fromAddr toAddr (.inr (.whileHead i beginAddr j))
      (.inr (.whileHead i r'.endAddr j')) ∧ b.reserved.get j' = some r' ∧ j' < b.reserved.size ∧
      Stuck b size align fromAddr toAddr (.whileHead i r'.endAddr j') := by
  rw [bootMemFindWhile_succ fromAddr hm] at h
  rcases bootMemFindStep_while_cases size align fromAddr toAddr beginAddr hf hm hj with
    hstep | hstep | ⟨j', r', -, hj', hr', hstep⟩
  · rw [hstep] at h
    cases h
  · rw [hstep] at h
    cases h
  · rw [hstep] at h
    obtain ⟨j'', r'', hrun, hrest⟩ := stuck_of_settled hf hm hj' hr' (Nat.sub_le _ _) h
    exact ⟨j'', r'', .step hstep hrun, hrest⟩

/-- A place in the `while` loop, at the end of the reserved range under the cursor. -/
structure AtCursor (b : BootMem) (m r : BootMemRange) (i j : ℕ) : Prop where
  memory_get : b.memory.get i = some m
  reserved_get : b.reserved.get j = some r
  lt_size : j < b.reserved.size

/-- What the cut-off `for` loop computes: what its run returns, or the run comes to a turn that
repeats. -/
theorem bootMemFindFor_cases (size align fromAddr toAddr : ℕ) (hmf : b.memory.Fits)
    (hf : b.reserved.Fits) (hi : i + n = b.memory.size) (hj : j ≤ b.reserved.size) :
    (∃ x, bootMemFindFor b.memory b.reserved size align fromAddr toAddr n i j = some x ∧
      FindRun b size align fromAddr toAddr (.inr (.forHead i j)) (.inl x)) ∨
    (bootMemFindFor b.memory b.reserved size align fromAddr toAddr n i j = none ∧
      ∃ i' m j' r, AtCursor b m r i' j' ∧
        FindRun b size align fromAddr toAddr (.inr (.forHead i j)) (.inr (.whileHead i' r.endAddr j')) ∧
        Stuck b size align fromAddr toAddr (.whileHead i' r.endAddr j')) := by
  induction n generalizing i j with
  | zero =>
    have hstep : bootMemFindStep b size align fromAddr toAddr (.forHead i j) = some (.inl toAddr) := by
      rw [bootMemFindStep, if_neg (by omega)]
    exact Or.inl ⟨toAddr, rfl, .step hstep .refl⟩
  | succ n ih =>
    obtain ⟨m, hm⟩ := exists_get hmf (show i < b.memory.size by omega)
    have hstep : bootMemFindStep b size align fromAddr toAddr (.forHead i j) =
        if m.endAddr ≤ fromAddr then some (.inr (.forHead (i + 1) j))
        else if m.beginAddr ≥ toAddr then some (.inl toAddr)
        else some (.inr (.whileHead i (maxu m.beginAddr fromAddr) j)) := by
      rw [bootMemFindStep, if_pos (by omega), hm]
      rfl
    rw [bootMemFindFor, hm, Option.bind_eq_bind, Option.bind_some]
    split_ifs at hstep ⊢ with hskip hbreak
    · rcases ih (i := i + 1) (by omega) hj with ⟨x, hret, hrun⟩ | ⟨hret, i', m', j', r, hat, hrun, hstuck⟩
      · exact Or.inl ⟨x, hret, .step hstep hrun⟩
      · exact Or.inr ⟨hret, i', m', j', r, hat, .step hstep hrun, hstuck⟩
    · exact Or.inl ⟨toAddr, rfl, .step hstep .refl⟩
    · dsimp only
      rw [minu_eq]
      cases hwhile : bootMemFindWhile b.reserved size align (min m.endAddr toAddr) (b.reserved.size + 1)
        (maxu m.beginAddr fromAddr) j with
      | none =>
        obtain ⟨j', r, hrun, hr, hj', hstuck⟩ :=
          stuck_of_bootMemFindWhile fromAddr hf hm hj hwhile
        exact Or.inr ⟨rfl, i, m, j', r, ⟨hm, hr, hj'⟩, .step hstep hrun, hstuck⟩
      | some out =>
        obtain ⟨hrun, hle⟩ := findRun_of_bootMemFindWhile fromAddr hf hm hj hwhile
        cases out with
        | inl addr => exact Or.inl ⟨addr, rfl, .step hstep hrun⟩
        | inr j' =>
          rcases ih (i := i + 1) (by omega) (hle j' rfl) with
            ⟨x, hret, hrun'⟩ | ⟨hret, i', m', j'', r, hat, hrun', hstuck⟩
          · exact Or.inl ⟨x, hret, .step hstep (hrun.trans hrun')⟩
          · exact Or.inr ⟨hret, i', m', j'', r, hat, .step hstep (hrun.trans hrun'), hstuck⟩

/-- The same for a call. -/
theorem bootMemFind_cases (size align fromAddr toAddr : ℕ) (hmf : b.memory.Fits)
    (hf : b.reserved.Fits) :
    (∃ x, bootMemFind b size align fromAddr toAddr = some x ∧
      FindRun b size align fromAddr toAddr (bootMemFindStart size fromAddr toAddr) (.inl x)) ∨
    (bootMemFind b size align fromAddr toAddr = none ∧
      ∃ i m j r, AtCursor b m r i j ∧
        FindRun b size align fromAddr toAddr (bootMemFindStart size fromAddr toAddr)
          (.inr (.whileHead i r.endAddr j)) ∧
        Stuck b size align fromAddr toAddr (.whileHead i r.endAddr j)) := by
  rw [bootMemFind, bootMemFindStart]
  split_ifs
  · exact Or.inl ⟨toAddr, rfl, .refl⟩
  · exact Or.inl ⟨fromAddr, rfl, .refl⟩
  · exact bootMemFindFor_cases size align fromAddr toAddr hmf hf (Nat.zero_add _) (Nat.zero_le _)

/-! ### Runs that end -/

/-- A run that comes to a turn that repeats never returns. -/
theorem Stuck.not_returns (h : Stuck b size align fromAddr toAddr p)
    (hp : FindRun b size align fromAddr toAddr c (.inr p)) :
    ¬ FindRun b size align fromAddr toAddr c (.inl x) := by
  intro hx
  have hself : ∀ d, FindRun b size align fromAddr toAddr (.inr p) d → d = .inr p := by
    intro d hd
    induction hd with
    | refl => rfl
    | tail _ hnext ih =>
      subst ih
      exact findNext_rightUnique hnext ⟨p, rfl, h⟩
  rcases ReflTransGen.total_of_right_unique findNext_rightUnique hp hx with hrun | hrun
  · cases hself _ hrun
  · cases FindRun.eq_of_inl hrun

/-- **The cut-off loses nothing**: `bootMemFind` returns what the runs of the loops return. -/
theorem bootMemFind_eq_some_iff (hmf : b.memory.Fits) (hf : b.reserved.Fits) :
    bootMemFind b size align fromAddr toAddr = some x ↔
      FindRun b size align fromAddr toAddr (bootMemFindStart size fromAddr toAddr) (.inl x) := by
  rcases bootMemFind_cases size align fromAddr toAddr hmf hf with
    ⟨y, hret, hrun⟩ | ⟨hret, i, m, j, r, -, hrun, hstuck⟩
  · rw [hret]
    constructor
    · intro hxy
      cases hxy
      exact hrun
    · intro hx
      rcases ReflTransGen.total_of_right_unique findNext_rightUnique hrun hx with h | h
      · cases FindRun.eq_of_inl h
        rfl
      · cases FindRun.eq_of_inl h
        rfl
  · rw [hret]
    exact iff_of_false (by simp) (hstuck.not_returns hrun)

/-! ### Turns that repeat -/

/-- `align_up` wraps for a turn that starts at the end of the reserved range `r` under the cursor:
it goes to `0`, from where a block of the request fits below the end of the memory range `m` but meets
`r`. -/
structure WrapsAt (m r : BootMemRange) (size align toAddr : ℕ) : Prop where
  wraps : 2 ^ 32 - align < r.endAddr
  lt_end : r.endAddr < min m.endAddr toAddr
  fits : size ≤ min m.endAddr toAddr
  meets : r.beginAddr < size

theorem stuck_iff (h : AtCursor b m r i j) (hf : b.reserved.Fits) (hend : r.endAddr < 2 ^ 32)
    (hsize : size < 2 ^ 32) (hk : k < 32) :
    Stuck b size (2 ^ k) fromAddr toAddr (.whileHead i r.endAddr j) ↔ WrapsAt m r size (2 ^ k) toAddr := by
  rw [Stuck, bootMemFindStep_while h.memory_get]
  constructor
  · intro hstep
    split_ifs at hstep with hlt hfit
    · cases hstep
    · obtain ⟨j', hscan, -, -, hafter⟩ := exists_bootMemFindReserved (alignUp r.endAddr (2 ^ k)) hf
        (show j + (b.reserved.size - j) = b.reserved.size by have := h.lt_size; omega)
      rw [hscan, Option.bind_some] at hstep
      split_ifs at hstep with hlast
      · cases hstep
      · obtain ⟨r', hr', hstep⟩ := Option.bind_eq_some_iff.mp hstep
        split_ifs at hstep with hmeet
        · cases hstep
        -- the cursor has not moved, so rounding up has gone down
        obtain ⟨-, -, rfl⟩ := FindState.whileHead.inj (Sum.inr.inj (Option.some.inj hstep))
        obtain rfl : r' = r := Option.some.inj (hr'.symm.trans h.reserved_get)
        have hdown := hafter r' h.lt_size hr'
        have hwrap : 2 ^ 32 - 2 ^ k < r'.endAddr := by
          by_contra hle
          have hpos : 0 < 2 ^ k := Nat.two_pow_pos k
          have hpow : 2 ^ k < 2 ^ 32 := Nat.pow_lt_pow_right (by omega) hk
          have := @le_alignUp r'.endAddr k hk (by omega)
          omega
        rw [alignUp_of_wrap hk hend hwrap, wadd_of_lt (by omega), Nat.zero_add] at hfit hmeet
        exact ⟨hwrap, hlt, not_lt.mp hfit, not_le.mp hmeet⟩
    · cases hstep
  · intro hw
    have hscan : bootMemFindReserved b.reserved 0 j (b.reserved.size - j) = some j := by
      have hlt := h.lt_size
      obtain ⟨n, hn⟩ : ∃ n, b.reserved.size - j = n + 1 := ⟨b.reserved.size - j - 1, by omega⟩
      have hpos : r.endAddr > 0 := (Nat.zero_le _).trans_lt hw.wraps
      rw [hn, bootMemFindReserved, h.reserved_get, Option.bind_eq_bind, Option.bind_some, if_pos hpos]
    rw [alignUp_of_wrap hk hend hw.wraps, wadd_of_lt (by omega), Nat.zero_add, if_pos hw.lt_end,
      if_neg (not_lt.mpr hw.fits), hscan, Option.bind_some, if_neg h.lt_size.ne, h.reserved_get,
      Option.bind_some, if_neg (not_le.mpr hw.meets)]

theorem AtCursor.mem_contents (h : AtCursor b m r i j) : r ∈ b.reserved.contents :=
  List.mem_of_getElem? ((get_eq_getElem? h.lt_size).symm.trans h.reserved_get)

/-- It returns when no reserved range begins below `size` and ends in the last `align` addresses before
`2 ^ 32` and below `to`. -/
theorem exists_bootMemFind (hmf : b.memory.Fits) (hrf : b.reserved.Fits)
    (hwords : ∀ r ∈ b.reserved.contents, r.endAddr < 2 ^ 32) (hk : k < 32) (hsize : size < 2 ^ 32)
    (hno : ∀ r ∈ b.reserved.contents, r.beginAddr < size → r.endAddr < toAddr →
      r.endAddr ≤ 2 ^ 32 - 2 ^ k) :
    ∃ x, bootMemFind b size (2 ^ k) fromAddr toAddr = some x := by
  rcases bootMemFind_cases size (2 ^ k) fromAddr toAddr hmf hrf with
    ⟨x, hret, -⟩ | ⟨-, i, m, j, r, hat, -, hstuck⟩
  · exact ⟨x, hret⟩
  · have hmem := hat.mem_contents
    have hw := (stuck_iff hat hrf (hwords r hmem) hsize hk).mp hstuck
    have hle := hno r hmem hw.meets (hw.lt_end.trans_le (min_le_right _ _))
    exact absurd hw.wraps (not_lt.mpr hle)

/-- **When `boot_mem_find` returns.** Whatever the arguments and the tables, the loops return after
finitely many turns if and only if they never come to the end of a reserved range under the cursor
at which `align_up` wraps to an address where the request fits but meets that range. -/
theorem bootMemFind_returns_iff (hmf : b.memory.Fits) (hrf : b.reserved.Fits)
    (hwords : ∀ r ∈ b.reserved.contents, r.endAddr < 2 ^ 32) (hk : k < 32) (hsize : size < 2 ^ 32) :
    (∃ x, FindRun b size (2 ^ k) fromAddr toAddr (bootMemFindStart size fromAddr toAddr) (.inl x)) ↔
      ∀ i m j r, AtCursor b m r i j →
        FindRun b size (2 ^ k) fromAddr toAddr (bootMemFindStart size fromAddr toAddr)
          (.inr (.whileHead i r.endAddr j)) → ¬ WrapsAt m r size (2 ^ k) toAddr := by
  constructor
  · rintro ⟨x, hx⟩ i m j r hat hrun hw
    have hstuck : Stuck b size (2 ^ k) fromAddr toAddr (.whileHead i r.endAddr j) :=
      (stuck_iff hat hrf (hwords r hat.mem_contents) hsize hk).mpr hw
    exact hstuck.not_returns hrun hx
  · intro hnever
    rcases bootMemFind_cases size (2 ^ k) fromAddr toAddr hmf hrf with
      ⟨x, -, hrun⟩ | ⟨-, i, m, j, r, hat, hrun, hstuck⟩
    · exact ⟨x, hrun⟩
    · have hw := (stuck_iff hat hrf (hwords r hat.mem_contents) hsize hk).mp hstuck
      exact absurd hw (hnever i m j r hat hrun)

/-! ### A search that does not return -/

/-- A table of one range. -/
def BootMemType.single (r : BootMemRange) : BootMemType bootMemRanges :=
  ⟨(Vector.replicate _ ⟨0, 0⟩).set 0 r, 1⟩

theorem fits_single : (single r).Fits := show 1 ≤ 128 by decide

theorem contents_single : (single r).contents = [r] := rfl

theorem apart_single (h : r.beginAddr < r.endAddr) : Apart (single r).contents := by
  rw [contents_single]
  exact ⟨by simpa using h, List.pairwise_singleton _ _⟩

theorem bootMemFind_returns_iff_one :
    (∃ x, FindRun ⟨single ⟨16, 1000⟩, single ⟨16, 20⟩⟩ 5 (2 ^ 3) 0 2000
        (bootMemFindStart 5 0 2000) (.inl x)) ↔
      ∀ i m j r, AtCursor ⟨single ⟨16, 1000⟩, single ⟨16, 20⟩⟩ m r i j →
        FindRun ⟨single ⟨16, 1000⟩, single ⟨16, 20⟩⟩ 5 (2 ^ 3) 0 2000 (bootMemFindStart 5 0 2000)
          (.inr (.whileHead i r.endAddr j)) → ¬ WrapsAt m r 5 (2 ^ 3) 2000 :=
  bootMemFind_returns_iff fits_single fits_single (by simp [contents_single]) (by decide) (by decide)

/-- **`boot_mem_find` can loop for ever.** All memory below `0xFFFFFFFF` is available and all of it
below `0xFFFFF800` is reserved; a request for a page jumps to `0xFFFFF800`, which `align_up` takes back
to `0`. -/
theorem bootMemFind_loops : ¬ ∀ (b : BootMem) (size k fromAddr toAddr : ℕ), b.memory.Fits →
    b.reserved.Fits → Apart b.memory.contents → Apart b.reserved.contents →
    (∀ r ∈ b.memory.contents ++ b.reserved.contents, r.endAddr < 2 ^ 32) → k < 32 → size < 2 ^ 32 →
    fromAddr < 2 ^ 32 → toAddr < 2 ^ 32 →
    ∃ x, FindRun b size (2 ^ k) fromAddr toAddr (bootMemFindStart size fromAddr toAddr) (.inl x) := by
  intro hall
  obtain ⟨x, hx⟩ := hall ⟨single ⟨0, 0xFFFFFFFF⟩, single ⟨0, 0xFFFFF800⟩⟩ 4096 12 0 0xFFFFFFFF fits_single
    fits_single (apart_single (by decide)) (apart_single (by decide)) (by simp [contents_single])
    (by decide) (by decide) (by decide) (by decide)
  have hat : AtCursor ⟨single ⟨0, 0xFFFFFFFF⟩, single ⟨0, 0xFFFFF800⟩⟩ ⟨0, 0xFFFFFFFF⟩ ⟨0, 0xFFFFF800⟩
      0 0 := ⟨rfl, rfl, by decide⟩
  have hstuck := (@stuck_iff _ 4096 0 0xFFFFFFFF _ _ 12 _ _ hat fits_single (by decide) (by decide)
    (by decide)).mpr ⟨by decide, by decide, by decide, by decide⟩
  refine hstuck.not_returns (c := bootMemFindStart 4096 0 0xFFFFFFFF) ?_ hx
  have hstart : bootMemFindStart 4096 0 0xFFFFFFFF = .inr (.forHead 0 0) := by decide
  rw [hstart]
  exact .step (c := .inr (.whileHead 0 0 0)) (by decide) (.step (by decide) .refl)

end Auos
