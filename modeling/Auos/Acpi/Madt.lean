import Auos.Apic
import Auos.Lib.Cursor
import Mathlib.Data.Nat.Count
import Mathlib.Tactic.IntervalCases

/-!
# What the MADT walk relies on

`acpi_parse_madt` moves from entry to entry by the length that each entry names, until it is no longer
below the end of the table. It does not look whether a length is zero, or whether an entry that starts
below the end also ends there. So whether the walk ends and whether it stays in the table is up to the
firmware, and this is what it has to do.

## Main definitions

* `madtPos` — where the entries of a walk start
* `acpiHandleLocalApic` — the handler of local APICs
* `MadtHandler` — the three handlers, with what they do and the part of an entry that they read
* `acpiParseMadtReads` — the addresses that the loop and its handler read
* `ioApicSizeAt` — how many IO APICs are registered when the walk comes to an entry

## Main results

* `acpiParseMadt_ends_iff` — when the walk ends
* `isSome_acpiParseMadtReads` — the reads are known whenever the loop ends
* `acpiParseMadtLoop_congr` — the loop reads nothing else
* `acpiParseMadtReads_inTable_iff` — when the walk stays in the table
-/

namespace Auos

open Finset

/-! ### Handlers and reads -/

/-- `LOCAL_APIC_MAX_COUNT`. -/
abbrev localApicMaxCount : ℕ := 32

/-- `acpi_handle_local_apic`, on the `pid` fields of `local_apic` up to `local_apic_count`. -/
def acpiHandleLocalApic (mem : Memory) (pids : List ℕ) (header : ℕ) : Option (List ℕ) :=
  if pids.length = localApicMaxCount then some pids
  else some (pids ++ [(mem (wadd header 3)).toNat])

/-- The handlers that are passed to `acpi_parse_madt`. -/
inductive MadtHandler
  /-- `acpi_handle_local_apic`. -/
  | localApic
  /-- `acpi_handle_io_apic`. -/
  | ioApic
  /-- `acpi_handle_isa_source`. -/
  | isaSource
  deriving DecidableEq

namespace MadtHandler

/-- The type of the entries that are handled. -/
def type : MadtHandler → ℕ
  | localApic => 0
  | ioApic => madtIoApic
  | isaSource => madtIsaSource

/-- The end of the last field of an entry that the handler reads, when `io_apic_size` is `n`: `apic_id`
of a local APIC, `flags` of an ISA source as the source declares it, `gsi_base` of an IO APIC. Of an IO
APIC that the array has no room for, only `apic_id` is read, to be printed. -/
def extent : MadtHandler → ℕ → ℕ
  | localApic, _ => 4
  | ioApic, n => if n = ioApicMaxCount then 3 else 12
  | isaSource, _ => 7

end MadtHandler

/-- The static data that the handlers work on. -/
structure MadtState where
  /-- `io_apic` and `isa_irq`. -/
  apic : Apic
  /-- The `pid` fields of `local_apic`, up to `local_apic_count`. -/
  pids : List ℕ

/-- `io_apic_size`. -/
def MadtState.ioApicSize (s : MadtState) : ℕ := s.apic.ioApic.length

namespace MadtHandler

/-- The handler on an entry. It is `none` where it panics. -/
def handle (mem : Memory) (regs : IoApicRegs) : MadtHandler → MadtState → ℕ → Option MadtState
  | localApic, s, header => do
    let pids ← acpiHandleLocalApic mem s.pids header
    some { s with pids := pids }
  | ioApic, s, header => do
    let apic ← acpiHandleIoApic mem regs s.apic header
    some { s with apic := apic }
  | isaSource, s, header => do
    let apic ← acpiHandleIsaSource mem s.apic header
    some { s with apic := apic }

/-- What a round of the loop does with an entry: the handler is called on those of its type. -/
def step (mem : Memory) (regs : IoApicRegs) (h : MadtHandler) (s : MadtState) (header : ℕ) :
    Option MadtState :=
  if madtType mem header = h.type then h.handle mem regs s header else some s

end MadtHandler

/-- The bytes from `p` on that are read of an entry: type and length, and what the handler needs. -/
def entryExtent (mem : Memory) (h : MadtHandler) (n p : ℕ) : ℕ :=
  if madtType mem p = h.type then h.extent n else 2

/-- The addresses that the loop of `acpi_parse_madt` and its handler read, cut off after `fuel` rounds:
of each entry, what is in front of the last byte that is read. -/
def acpiParseMadtReads (mem : Memory) (regs : IoApicRegs) (endAddr : ℕ) (h : MadtHandler) :
    ℕ → ℕ → MadtState → Option (List ℕ)
  | 0, _, _ => none
  | fuel + 1, hdr, s =>
    if hdr < endAddr then do
      let header := hdr
      let hdr := wadd hdr (madtLength mem header)
      let entry := (List.range (entryExtent mem h s.ioApicSize header)).map (wadd header)
      let s ← h.step mem regs s header
      let reads ← acpiParseMadtReads mem regs endAddr h fuel hdr s
      some (entry ++ reads)
    else some []

variable {σ : Type*} {mem mem' : Memory} {regs : IoApicRegs} {tbl type fuel hdr endAddr p n : ℕ}

/-! ### The end of the walk -/

/-- The start of the `n`-th entry that the walk comes to. -/
def madtPos (mem : Memory) (tbl n : ℕ) : ℕ :=
  Cursor.pos (2 ^ 32) (madtLength mem) (wadd tbl sizeofAcpiMadt) n

/-- The walk comes to `n + 1` entries at least. -/
def MadtGoing (mem : Memory) (tbl n : ℕ) : Prop :=
  Cursor.Going (2 ^ 32) (madtLength mem) (madtEnd mem tbl) (wadd tbl sizeofAcpiMadt) n

/-- The loop ends when the cursor has reached the end, if the handler returns. -/
theorem isSome_acpiParseMadtLoop (handler : σ → ℕ → σ) (s : σ) (count : ℕ) :
    (acpiParseMadtLoop mem endAddr type (fun s p => some (handler s p)) fuel hdr s count).isSome ↔
      ∃ n < fuel, endAddr ≤ Cursor.pos (2 ^ 32) (madtLength mem) hdr n := by
  refine @Cursor.ends_within_iff (2 ^ 32) (madtLength mem) hdr endAddr (σ × ℕ) (fun _ => True)
    (fun fuel hdr s => (acpiParseMadtLoop mem endAddr type (fun s p => some (handler s p)) fuel hdr
      s.1 s.2).isSome) fuel (s, count) (fun _ _ => Bool.false_ne_true) ?_ ?_ trivial
  · intro fuel hdr s hge
    rw [acpiParseMadtLoop, if_neg (Nat.not_lt.mpr hge)]
    rfl
  · rintro hdr ⟨s, count⟩ hlt -
    by_cases htype : madtType mem hdr = type
    · refine ⟨(handler s hdr, count + 1), trivial, fun fuel => ?_⟩
      rw [acpiParseMadtLoop, if_pos hlt]
      dsimp only
      rw [if_pos htype]
      rfl
    · refine ⟨(s, count), trivial, fun fuel => ?_⟩
      rw [acpiParseMadtLoop, if_pos hlt]
      dsimp only
      rw [if_neg htype]
      rfl

/-- **The walk ends exactly if no lengths of entries in a row add up to a multiple of `2 ^ 32`**,
among the entries that it comes to. A single length of zero is one. -/
theorem acpiParseMadt_ends_iff (mem : Memory) (tbl type : ℕ) (handler : σ → ℕ → σ) (s : σ) :
    (∃ fuel, (acpiParseMadt mem tbl type (fun s p => some (handler s p)) fuel s).isSome) ↔
      ∀ m n, m < n → MadtGoing mem tbl n →
        ¬ 2 ^ 32 ∣ ∑ k ∈ Ico m n, madtLength mem (madtPos mem tbl k) := by
  have hloop : (∃ fuel, (acpiParseMadt mem tbl type (fun s p => some (handler s p)) fuel s).isSome) ↔
      ∃ n, madtEnd mem tbl ≤ madtPos mem tbl n := by
    simp only [acpiParseMadt, isSome_acpiParseMadtLoop]
    exact Cursor.exists_bound_iff
  rw [hloop]
  exact Cursor.ends_iff (wrap_lt _)

theorem madtLength_lt (mem : Memory) (p : ℕ) : madtLength mem p < 256 := UInt8.toNat_lt _

/-- In a table that does not end right below `2 ^ 32` only a length of zero keeps the walk from
ending. -/
theorem exists_le_madtPos_iff (hend : madtEnd mem tbl + 255 ≤ 2 ^ 32) :
    (∃ n, madtEnd mem tbl ≤ madtPos mem tbl n) ↔
      ∀ n, MadtGoing mem tbl n → madtLength mem (madtPos mem tbl n) ≠ 0 := by
  refine Cursor.ends_iff_ne_zero (wrap_lt _) fun p hp => ?_
  have hlen := madtLength_lt mem p
  omega

/-- A table at `0xC0001000` with an entry of length zero. -/
def emptyEntryMadt : Memory := fun a => if a = 0xC0001004 then 52 else 0

/-- **The walk stays at an entry of length zero.** -/
theorem acpiParseMadt_never_ends :
    ¬ ∃ fuel, (acpiParseMadt emptyEntryMadt 0xC0001000 madtIoApic (fun calls p => some (calls ++ [p]))
      fuel []).isSome := by
  have hend : madtEnd emptyEntryMadt 0xC0001000 = 0xC0001034 := by decide
  have hstart : wadd 0xC0001000 sizeofAcpiMadt = 0xC000102C := by decide
  have hnext : Cursor.next (2 ^ 32) (madtLength emptyEntryMadt) 0xC000102C = 0xC000102C := by
    decide
  have hpos : ∀ n, Cursor.pos (2 ^ 32) (madtLength emptyEntryMadt) 0xC000102C n = 0xC000102C :=
    Function.iterate_fixed hnext
  rintro ⟨fuel, hsome⟩
  rw [acpiParseMadt, isSome_acpiParseMadtLoop (fun calls p => calls ++ [p]), hend, hstart] at hsome
  obtain ⟨n, -, hle⟩ := hsome
  rw [hpos] at hle
  omega

/-! ### What the walk reads -/

section Locality

variable {h : MadtHandler} {s s' : MadtState} {reads : List ℕ}

theorem two_le_entryExtent (mem : Memory) (h : MadtHandler) (n p : ℕ) : 2 ≤ entryExtent mem h n p := by
  unfold entryExtent
  cases h <;> dsimp only [MadtHandler.extent] <;> (repeat' split) <;> omega

/-- The memories have the same `n` bytes from `p` on. -/
def SameFrom (mem mem' : Memory) (p n : ℕ) : Prop := ∀ i < n, mem' (wadd p i) = mem (wadd p i)

theorem SameFrom.shift {n m k : ℕ} (hsame : SameFrom mem mem' p n) (hle : m + k ≤ n) :
    SameFrom mem mem' (wadd p m) k := by
  intro i hi
  rw [wadd_wadd]
  exact hsame (m + i) (by omega)

theorem readLE_congr {n : ℕ} (hsame : SameFrom mem mem' p n) (hp : p < 2 ^ 32) :
    readLE mem' p n = readLE mem p n := by
  induction n generalizing p with
  | zero => rfl
  | succ n ih =>
    have hfirst := hsame 0 (Nat.succ_pos n)
    rw [wadd_zero hp] at hfirst
    have hrest := ih (hsame.shift (show 1 + n ≤ n + 1 by omega)) (wadd_lt p 1)
    rw [readLE, readLE, hfirst, hrest]

/-- The handler of IO APICs reads the first 12 bytes of an entry, and once the array is full nothing
that it works with. -/
theorem acpiHandleIoApic_congr {s : Apic}
    (hsame : SameFrom mem mem' p (MadtHandler.ioApic.extent s.ioApic.length)) :
    acpiHandleIoApic mem' regs s p = acpiHandleIoApic mem regs s p := by
  rw [acpiHandleIoApic, acpiHandleIoApic]
  by_cases hfull : s.ioApic.length = ioApicMaxCount
  · rw [if_pos hfull, if_pos hfull]
  · have hextent : MadtHandler.ioApic.extent s.ioApic.length = 12 := if_neg hfull
    rw [hextent] at hsame
    have hpaddr : readLE mem' (wadd p 4) 4 = readLE mem (wadd p 4) 4 :=
      readLE_congr (hsame.shift (show 4 + 4 ≤ 12 by decide)) (wrap_lt _)
    have hgsi : readLE mem' (wadd p 8) 4 = readLE mem (wadd p 8) 4 :=
      readLE_congr (hsame.shift (show 8 + 4 ≤ 12 by decide)) (wrap_lt _)
    rw [hpaddr, hgsi]

/-- The handler of interrupt source overrides reads the first 7 bytes of an entry. -/
theorem acpiHandleIsaSource_congr {s : Apic}
    (hsame : SameFrom mem mem' p (MadtHandler.isaSource.extent n)) :
    acpiHandleIsaSource mem' s p = acpiHandleIsaSource mem s p := by
  have hsource : mem' (wadd p 3) = mem (wadd p 3) := hsame 3 (show 3 < 7 by decide)
  have hgsi : mem' (wadd p 4) = mem (wadd p 4) := hsame 4 (show 4 < 7 by decide)
  have hflags : readLE mem' (wadd p 5) 2 = readLE mem (wadd p 5) 2 :=
    readLE_congr (hsame.shift (show 5 + 2 ≤ 7 by decide)) (wrap_lt _)
  have hread : readIsaSource mem' p = readIsaSource mem p := by
    rw [readIsaSource, readIsaSource, hsource, hgsi, hflags]
  rw [acpiHandleIsaSource, acpiHandleIsaSource, hread]

/-- The handler of local APICs reads the first 4 bytes of an entry. -/
theorem acpiHandleLocalApic_congr {pids : List ℕ}
    (hsame : SameFrom mem mem' p (MadtHandler.localApic.extent n)) :
    acpiHandleLocalApic mem' pids p = acpiHandleLocalApic mem pids p := by
  have hpid : mem' (wadd p 3) = mem (wadd p 3) := hsame 3 (show 3 < 4 by decide)
  rw [acpiHandleLocalApic, acpiHandleLocalApic, hpid]

/-- A handler does the same in memories that agree on what it reads. -/
theorem MadtHandler.handle_congr (hsame : SameFrom mem mem' p (h.extent s.ioApicSize)) :
    h.handle mem' regs s p = h.handle mem regs s p := by
  cases h with
  | localApic => rw [handle, handle, acpiHandleLocalApic_congr hsame]
  | ioApic => rw [handle, handle, acpiHandleIoApic_congr hsame]
  | isaSource => rw [handle, handle, acpiHandleIsaSource_congr hsame]

/-- **The reads are known exactly if the loop ends.** -/
theorem isSome_acpiParseMadtReads (count : ℕ) :
    (acpiParseMadtReads mem regs endAddr h fuel hdr s).isSome ↔
      (acpiParseMadtLoop mem endAddr h.type (h.handle mem regs) fuel hdr s count).isSome := by
  induction fuel generalizing hdr s count with
  | zero => exact Iff.rfl
  | succ fuel ih =>
    rw [acpiParseMadtReads, acpiParseMadtLoop]
    by_cases hlt : hdr < endAddr
    · rw [if_pos hlt, if_pos hlt]
      dsimp only
      have hrest : ∀ s count entry, ((acpiParseMadtReads mem regs endAddr h fuel
          (wadd hdr (madtLength mem hdr)) s).bind fun reads => some (entry ++ reads)).isSome ↔
          (acpiParseMadtLoop mem endAddr h.type (h.handle mem regs) fuel
            (wadd hdr (madtLength mem hdr)) s count).isSome := by
        intro s count entry
        rw [← ih, Option.isSome_bind]
        exact iff_of_eq (congrArg (· = true) Option.any_true)
      by_cases hhandled : madtType mem hdr = h.type
      · rw [MadtHandler.step, if_pos hhandled, if_pos hhandled]
        cases h.handle mem regs s hdr with
        | none => exact Iff.rfl
        | some s' => exact hrest s' (count + 1) _
      · rw [MadtHandler.step, if_neg hhandled, if_neg hhandled]
        exact hrest s count _
    · rw [if_neg hlt, if_neg hlt]
      exact Iff.rfl

/-- **The loop reads nothing else**: it does the same in every memory that agrees on these addresses. -/
theorem acpiParseMadtLoop_congr
    (hret : acpiParseMadtReads mem regs endAddr h fuel hdr s = some reads) (hhdr : hdr < 2 ^ 32)
    (hsame : ∀ a ∈ reads, mem' a = mem a) (count : ℕ) :
    acpiParseMadtLoop mem' endAddr h.type (h.handle mem' regs) fuel hdr s count =
      acpiParseMadtLoop mem endAddr h.type (h.handle mem regs) fuel hdr s count := by
  induction fuel generalizing hdr reads s count with
  | zero => cases hret
  | succ fuel ih =>
    rw [acpiParseMadtReads] at hret
    rw [acpiParseMadtLoop, acpiParseMadtLoop]
    by_cases hlt : hdr < endAddr
    · rw [if_pos hlt] at hret
      obtain ⟨s', hstep, hret⟩ := Option.bind_eq_some_iff.mp hret
      obtain ⟨rest, hrest, hsome⟩ := Option.bind_eq_some_iff.mp hret
      obtain rfl := Option.some.inj hsome
      have hentry : SameFrom mem mem' hdr (entryExtent mem h s.ioApicSize hdr) := fun i hi =>
        hsame _ (List.mem_append_left _ (List.mem_map_of_mem (List.mem_range.mpr hi)))
      have htwo := two_le_entryExtent mem h s.ioApicSize hdr
      have htype : madtType mem' hdr = madtType mem hdr := by
        have hbyte := hentry 0 (by omega)
        rw [wadd_zero hhdr] at hbyte
        rw [madtType, madtType, hbyte]
      have hlength : madtLength mem' hdr = madtLength mem hdr := by
        rw [madtLength, madtLength, hentry 1 (by omega)]
      have hnext := ih hrest (wrap_lt _) fun a ha => hsame a (List.mem_append_right _ ha)
      rw [if_pos hlt, if_pos hlt]
      dsimp only
      rw [htype, hlength]
      by_cases hhandled : madtType mem hdr = h.type
      · have hextent : entryExtent mem h s.ioApicSize hdr = h.extent s.ioApicSize := if_pos hhandled
        rw [MadtHandler.step, if_pos hhandled] at hstep
        rw [if_pos hhandled, if_pos hhandled, MadtHandler.handle_congr (hextent ▸ hentry), hstep]
        exact hnext (count + 1)
      · rw [MadtHandler.step, if_neg hhandled] at hstep
        obtain rfl := Option.some.inj hstep
        rw [if_neg hhandled, if_neg hhandled]
        exact hnext count
    · rw [if_neg hlt, if_neg hlt]

end Locality

/-! ### Staying in the table -/

section InTable

variable {h : MadtHandler} {s s' : MadtState} {reads : List ℕ} {k m : ℕ}

/-- `header.length` of the table. -/
def madtTableLength (mem : Memory) (tbl : ℕ) : ℕ := readLE mem (wadd tbl 4) 4

/-- The address is one of the bytes of the table. -/
def InTable (mem : Memory) (tbl a : ℕ) : Prop := tbl ≤ a ∧ a < tbl + madtTableLength mem tbl

/-- What is read of the entry at `p` is in the table, when `io_apic_size` is `n`. -/
def EntryFits (mem : Memory) (tbl : ℕ) (h : MadtHandler) (n p : ℕ) : Prop :=
  tbl ≤ p ∧ p + entryExtent mem h n p ≤ tbl + madtTableLength mem tbl

/-- `io_apic_size` when a walk from `hdr` that looks for entries of `type` comes to entry `k`, from `n`
on, if these entries are IO APICs: the ones before it were registered while there was room. -/
def ioApicSizeAt (mem : Memory) (type hdr n k : ℕ) : ℕ :=
  min (n + Nat.count (fun j => madtType mem (Cursor.pos (2 ^ 32) (madtLength mem) hdr j) = type) k)
    ioApicMaxCount

/-- A handler that returns has found room in the array, or has found it just full. -/
theorem MadtHandler.extent_of_handle (hret : h.handle mem regs s p = some s') :
    h.extent (min s.ioApicSize ioApicMaxCount) = h.extent s.ioApicSize := by
  cases h with
  | localApic => rfl
  | isaSource => rfl
  | ioApic =>
    obtain ⟨apic, hapic, -⟩ := Option.bind_eq_some_iff.mp hret
    have hle : s.ioApicSize ≤ ioApicMaxCount := by
      rw [acpiHandleIoApic, ioApicAdd] at hapic
      unfold MadtState.ioApicSize
      split_ifs at hapic with hfull hroom
      · exact hfull.le
      · exact hroom.le
    rw [min_eq_left hle]

/-- An entry that is handled counts. -/
theorem MadtHandler.extent_handle_add (hret : h.handle mem regs s p = some s') (m : ℕ) :
    h.extent (min (s'.ioApicSize + m) ioApicMaxCount) =
      h.extent (min (s.ioApicSize + (m + 1)) ioApicMaxCount) := by
  cases h with
  | localApic => rfl
  | isaSource => rfl
  | ioApic =>
    obtain ⟨apic, hapic, hs'⟩ := Option.bind_eq_some_iff.mp hret
    obtain rfl := Option.some.inj hs'
    have hsize : min (apic.ioApic.length + m) ioApicMaxCount =
        min (s.apic.ioApic.length + (m + 1)) ioApicMaxCount := by
      rw [acpiHandleIoApic, ioApicAdd] at hapic
      split_ifs at hapic with hfull hroom
      · obtain rfl := Option.some.inj hapic
        omega
      · obtain rfl := Option.some.inj hapic
        rw [List.length_append, List.length_singleton, Nat.add_assoc, Nat.add_comm 1]
    exact congrArg MadtHandler.ioApic.extent hsize

/-- What is read of the first entry. -/
theorem entryExtent_ioApicSizeAt_zero (hstep : h.step mem regs s hdr = some s') :
    entryExtent mem h (ioApicSizeAt mem h.type hdr s.ioApicSize 0) hdr =
      entryExtent mem h s.ioApicSize hdr := by
  unfold MadtHandler.step at hstep
  rw [ioApicSizeAt, Nat.count_zero, Nat.add_zero, entryExtent, entryExtent]
  by_cases hhandled : madtType mem hdr = h.type
  · rw [if_pos hhandled] at hstep
    rw [if_pos hhandled, if_pos hhandled, MadtHandler.extent_of_handle hstep]
  · rw [if_neg hhandled, if_neg hhandled]

/-- What is read of a later entry, from the next one on. -/
theorem entryExtent_ioApicSizeAt_succ (hstep : h.step mem regs s hdr = some s') :
    entryExtent mem h (ioApicSizeAt mem h.type hdr s.ioApicSize (k + 1)) p =
      entryExtent mem h
        (ioApicSizeAt mem h.type (wadd hdr (madtLength mem hdr)) s'.ioApicSize k) p := by
  have hcount : Nat.count (fun j => madtType mem (Cursor.pos (2 ^ 32) (madtLength mem) hdr j) =
      h.type) (k + 1) = Nat.count (fun j => madtType mem (Cursor.pos (2 ^ 32) (madtLength mem)
        (wadd hdr (madtLength mem hdr)) j) = h.type) k + if madtType mem hdr = h.type then 1 else 0 :=
    Nat.count_succ' _ _
  unfold MadtHandler.step at hstep
  rw [entryExtent, entryExtent, ioApicSizeAt, ioApicSizeAt, hcount]
  by_cases hhandled : madtType mem hdr = h.type
  · rw [if_pos hhandled] at hstep
    rw [if_pos hhandled, MadtHandler.extent_handle_add hstep]
  · rw [if_neg hhandled] at hstep
    obtain rfl := Option.some.inj hstep
    rw [if_neg hhandled, Nat.add_zero]

/-- The addresses that a walk reads are those of the entries that it comes to. -/
theorem mem_acpiParseMadtReads {a : ℕ}
    (hret : acpiParseMadtReads mem regs endAddr h fuel hdr s = some reads) :
    a ∈ reads ↔ ∃ k, Cursor.Going (2 ^ 32) (madtLength mem) endAddr hdr k ∧
      ∃ i < entryExtent mem h (ioApicSizeAt mem h.type hdr s.ioApicSize k)
        (Cursor.pos (2 ^ 32) (madtLength mem) hdr k),
        a = wadd (Cursor.pos (2 ^ 32) (madtLength mem) hdr k) i := by
  induction fuel generalizing hdr reads s with
  | zero => cases hret
  | succ fuel ih =>
    rw [acpiParseMadtReads] at hret
    by_cases hlt : hdr < endAddr
    · rw [if_pos hlt] at hret
      obtain ⟨s', hstep, hret⟩ := Option.bind_eq_some_iff.mp hret
      obtain ⟨rest, hrest, hsome⟩ := Option.bind_eq_some_iff.mp hret
      obtain rfl := Option.some.inj hsome
      have hnext : Cursor.next (2 ^ 32) (madtLength mem) hdr = wadd hdr (madtLength mem hdr) := rfl
      have hgoing : ∀ k, Cursor.Going (2 ^ 32) (madtLength mem) endAddr hdr (k + 1) ↔
          Cursor.Going (2 ^ 32) (madtLength mem) endAddr (wadd hdr (madtLength mem hdr)) k :=
        fun k => Cursor.going_succ'.trans (and_iff_right hlt)
      have hfirst : Cursor.Going (2 ^ 32) (madtLength mem) endAddr hdr 0 := by
        intro k hk
        rw [Nat.le_zero.mp hk]
        exact hlt
      have hsplit := Nat.or_exists_add_one (p := fun k =>
        Cursor.Going (2 ^ 32) (madtLength mem) endAddr hdr k ∧
          ∃ i < entryExtent mem h (ioApicSizeAt mem h.type hdr s.ioApicSize k)
            (Cursor.pos (2 ^ 32) (madtLength mem) hdr k),
            a = wadd (Cursor.pos (2 ^ 32) (madtLength mem) hdr k) i)
      rw [List.mem_append, ih hrest, List.mem_map, ← hsplit]
      simp only [hgoing, hfirst, Cursor.pos_zero, Cursor.pos_succ', hnext, true_and, List.mem_range,
        eq_comm (a := a), entryExtent_ioApicSizeAt_zero hstep, entryExtent_ioApicSizeAt_succ hstep]
    · rw [if_neg hlt] at hret
      obtain rfl := Option.some.inj hret
      have hstopped : ∀ k, ¬ Cursor.Going (2 ^ 32) (madtLength mem) endAddr hdr k :=
        fun k hk => hlt (hk 0 (Nat.zero_le k))
      exact ⟨fun ha => absurd ha List.not_mem_nil, fun ⟨k, hk, _⟩ => absurd hk (hstopped k)⟩

theorem madtTableLength_lt (mem : Memory) (tbl : ℕ) : madtTableLength mem tbl < 2 ^ 32 :=
  readLE_lt _ _ _

/-- Where an entry can start below the end and not below the table, the table does not wrap. -/
theorem madtEnd_eq_of_le (htbl : tbl ≤ p) (hp : p < madtEnd mem tbl) :
    madtEnd mem tbl = tbl + madtTableLength mem tbl := by
  have hend : madtEnd mem tbl = (tbl + madtTableLength mem tbl) % 2 ^ 32 := rfl
  have hlen := madtTableLength_lt mem tbl
  omega

/-- All that is read of an entry is in the table exactly if the entry does not start too close to its
end. -/
theorem entryFits_iff (hp : p < madtEnd mem tbl) :
    (∀ i < entryExtent mem h n p, InTable mem tbl (wadd p i)) ↔ EntryFits mem tbl h n p := by
  have hlt : p < 2 ^ 32 := hp.trans (wrap_lt _)
  have htwo := two_le_entryExtent mem h n p
  constructor
  · intro hin
    have hfirst := hin 0 (by omega)
    rw [wadd_zero hlt] at hfirst
    refine ⟨hfirst.1, ?_⟩
    by_contra hlong
    -- the first byte after the table would be read too
    have hend := madtEnd_eq_of_le hfirst.1 hp
    have hend_lt : madtEnd mem tbl < 2 ^ 32 := wrap_lt _
    have hafter := hin (tbl + madtTableLength mem tbl - p) (by omega)
    have haddr : wadd p (tbl + madtTableLength mem tbl - p) = tbl + madtTableLength mem tbl := by
      rw [wadd, Nat.add_sub_cancel' hfirst.2.le]
      exact Nat.mod_eq_of_lt (hend ▸ hend_lt)
    rw [haddr] at hafter
    exact absurd hafter.2 (lt_irrefl _)
  · rintro ⟨htbl, hfits⟩ i hi
    have hend := madtEnd_eq_of_le htbl hp
    have hend_lt : madtEnd mem tbl < 2 ^ 32 := wrap_lt _
    have haddr : wadd p i = p + i := Nat.mod_eq_of_lt (by omega)
    rw [haddr]
    exact ⟨by omega, by omega⟩

/-- **The walk stays in the table exactly if no entry that it comes to starts too close to the end**:
two bytes of every entry have to be left, and all that the handler reads of an entry of its type, which
for an IO APIC is up to how many there were before. -/
theorem acpiParseMadtReads_inTable_iff
    (hret : acpiParseMadtReads mem regs (madtEnd mem tbl) h fuel (wadd tbl sizeofAcpiMadt) s =
      some reads) :
    (∀ a ∈ reads, InTable mem tbl a) ↔
      ∀ k, MadtGoing mem tbl k →
        EntryFits mem tbl h (ioApicSizeAt mem h.type (wadd tbl sizeofAcpiMadt) s.ioApicSize k)
          (madtPos mem tbl k) := by
  have hentries : (∀ a ∈ reads, InTable mem tbl a) ↔ ∀ k, MadtGoing mem tbl k →
      ∀ i < entryExtent mem h (ioApicSizeAt mem h.type (wadd tbl sizeofAcpiMadt) s.ioApicSize k)
        (madtPos mem tbl k), InTable mem tbl (wadd (madtPos mem tbl k) i) := by
    constructor
    · exact fun hin k hk i hi => hin _ ((mem_acpiParseMadtReads hret).mpr ⟨k, hk, i, hi, rfl⟩)
    · intro hin a ha
      obtain ⟨k, hk, i, hi, rfl⟩ := (mem_acpiParseMadtReads hret).mp ha
      exact hin k hk i hi
  rw [hentries]
  exact forall₂_congr fun k hk => entryFits_iff (hk k le_rfl)

/-- A table at `0xC0001000` of a local APIC, an IO APIC and an entry of length 4 which says that it is an
IO APIC too. -/
def cutIoApicMadt : Memory := fun a =>
  if a = 0xC0001004 then 68 else if a = 0xC000102D then 8 else if a = 0xC0001034 then 1
  else if a = 0xC0001035 then 12 else if a = 0xC0001040 then 1 else if a = 0xC0001041 then 4 else 0

/-- `n` IO APICs are registered, and nothing else. -/
def ioApicsRegistered (n : ℕ) : MadtState := ⟨⟨List.replicate n ⟨0, 0, 0, 0⟩, Apic.init.isaIrq⟩, []⟩

/-- The last entry of this table is long enough for the handler where it finds the array full. -/
theorem acpiParseMadtReads_inTable_of_full : ∃ reads,
    acpiParseMadtReads cutIoApicMadt (fun _ _ => 0) (madtEnd cutIoApicMadt 0xC0001000) .ioApic 4
      (wadd 0xC0001000 sizeofAcpiMadt) (ioApicsRegistered 31) = some reads ∧
      wadd 0xC0001040 2 ∈ reads ∧ ∀ a ∈ reads, InTable cutIoApicMadt 0xC0001000 a := by
  have hret : acpiParseMadtReads cutIoApicMadt (fun _ _ => 0) (madtEnd cutIoApicMadt 0xC0001000)
      .ioApic 4 (wadd 0xC0001000 sizeofAcpiMadt) (ioApicsRegistered 31) =
        some ((List.range 2).map (wadd 0xC000102C) ++ ((List.range 12).map (wadd 0xC0001034) ++
          ((List.range 3).map (wadd 0xC0001040) ++ []))) := by decide
  refine ⟨_, hret, by decide, (acpiParseMadtReads_inTable_iff hret).mpr fun k hk => ?_⟩
  have hlast : madtEnd cutIoApicMadt 0xC0001000 ≤ madtPos cutIoApicMadt 0xC0001000 3 := by decide
  have hk3 : k < 3 := by
    by_contra hge
    exact absurd (hk 3 (by omega)) (Nat.not_lt.mpr hlast)
  unfold EntryFits
  interval_cases k <;> decide

/-- A table at `0xC0001000` of one entry of length 8, which says that it is an IO APIC. -/
def shortIoApicMadt : Memory := fun a =>
  if a = 0xC0001004 then 52 else if a = 0xC000102C then 1 else if a = 0xC000102D then 8 else 0

/-- **The handler of IO APICs reads beyond a table whose last entry is too short for it**: the table
ends at `0xC0001034`, and the handler takes `gsi_base` from there. -/
theorem acpiParseMadtReads_leaves_table :
    ∃ reads, 44 ≤ madtTableLength shortIoApicMadt 0xC0001000 ∧
      acpiParseMadtReads shortIoApicMadt (fun _ _ => 0) (madtEnd shortIoApicMadt 0xC0001000) .ioApic 2
        (wadd 0xC0001000 sizeofAcpiMadt) ⟨Apic.init, []⟩ = some reads ∧
      ∃ a ∈ reads, ¬ InTable shortIoApicMadt 0xC0001000 a := by
  have hlen : madtTableLength shortIoApicMadt 0xC0001000 = 52 := by decide
  have hret : acpiParseMadtReads shortIoApicMadt (fun _ _ => 0) (madtEnd shortIoApicMadt 0xC0001000)
      .ioApic 2 (wadd 0xC0001000 sizeofAcpiMadt) ⟨Apic.init, []⟩ =
        some ((List.range 12).map (wadd 0xC000102C)) := by decide
  refine ⟨_, by omega, hret, wadd 0xC000102C 8, by decide, fun hin => ?_⟩
  have hlt : wadd 0xC000102C 8 < 0xC0001000 + madtTableLength shortIoApicMadt 0xC0001000 := hin.2
  rw [hlen] at hlt
  exact absurd hlt (by decide)

end InTable

end Auos
