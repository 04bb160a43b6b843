import Mathlib.Data.Nat.Notation
import Mathlib.Logic.Function.Basic

/-!
# An interval timer

The 8254: three counters, each with a data port, and a port for control words. A control word chooses
a counter, its mode, and which bytes of a count will be written to its data port; until a count has
been written, the counter does not run. Of a count of two bytes the low one comes first.

A rate generator gives a pulse every time it has counted down. The count `0` stands for `65536`, and
`1` is not allowed.

## Main definitions

* `PitCounter`, `Pit`, `Pit.out` — the device, as a program sees it
* `PitCounter.period` — how often a counter that is a rate generator gives a pulse
-/

namespace Auos

/-- One of the counters. -/
structure PitCounter where
  /-- The mode. -/
  mode : ℕ
  /-- The bytes of a count that are written: the low one in bit 0, the high one in bit 1. -/
  access : ℕ
  /-- It counts in decimal. -/
  bcd : Bool
  /-- The low byte of a count whose high byte has not been written. -/
  low : Option ℕ
  /-- The count that has been written since the control word. -/
  count : Option ℕ
  deriving DecidableEq

namespace PitCounter

/-- A control word for this counter. Without bytes it only latches the count, to be read. -/
def control (c : PitCounter) (value : ℕ) : PitCounter :=
  let access := (value >>> 4) &&& 3
  let mode := (value >>> 1) &&& 7
  if access = 0 then c
  else ⟨if mode < 6 then mode else mode - 4, access, value &&& 1 ≠ 0, none, none⟩

/-- A byte at the data port. -/
def data (c : PitCounter) (value : ℕ) : PitCounter :=
  if c.access = 3 then
    match c.low with
    | none => { c with low := some value }
    | some low => { c with low := none, count := some (low + 256 * value) }
  else if c.access = 2 then { c with count := some (256 * value) }
  else { c with count := some value }

/-- The clocks from one pulse to the next, for a rate generator that runs. -/
def period (c : PitCounter) : Option ℕ :=
  if c.mode = 2 ∧ c.bcd = false then
    c.count.bind fun n => if n = 1 then none else some (if n = 0 then 65536 else n)
  else none

end PitCounter

/-- The counters, by their numbers. -/
abbrev Pit := ℕ → PitCounter

/-- A write to a port: from `0x40` on the data ports, and `0x43` for control words. -/
def Pit.out (p : Pit) (port value : ℕ) : Pit :=
  if port = 0x43 then
    let i := (value >>> 6) &&& 3
    if i = 3 then p else Function.update p i ((p i).control value)
  else if 0x40 ≤ port ∧ port < 0x43 then
    Function.update p (port - 0x40) ((p (port - 0x40)).data value)
  else p

variable {c : PitCounter} {low high : ℕ}

/-- A count of two bytes. -/
theorem PitCounter.data_data (haccess : c.access = 3) (hlow : c.low = none) :
    (c.data low).data high = { c with count := some (low + 256 * high) } := by
  obtain ⟨mode, access, bcd, low', count⟩ := c
  obtain rfl : access = 3 := haccess
  obtain rfl : low' = none := hlow
  rfl

end Auos
