import Auos.Apic
import Mathlib.Data.List.Induction
import Mathlib.Tactic.IntervalCases

/-!
# The IO APIC driver

`io_apic_setup_irq`, `apic_setup`, `apic_mask` and `apic_unmask` of `apic.c`. An IO APIC is an index
register and a window onto its 32-bit registers: the driver writes the number of a register to the
index and then reads or writes the window. The state of the APICs is keyed by the address `iospace`;
the routing of interrupts to pins is the static state that the set-up left.

The abstract side is a table of lines. Each pin remembers what the last `apic_setup` resolving to it
asked for and the mask bit that the last call left; it says what the two registers of the pin hold.

## Main definitions

* `ioApicWrite`, `ioApicReadWindow`, `ioApicSetupIrq`, `apicSetup`, `apicMask`, `apicUnmask`
* `Redirection` — an entry by its fields, `Redirection.low`, `Redirection.high` — its registers
* `Resolves` — where an interrupt goes by the routing map and the registered APICs
* `Line`, `lineTable` — the abstract table and what a sequence of calls makes of it
* `Refines` — the registers are those of the table

## Main results

* `apicResolve_eq_some_iff`, `redirectionOf_setupFlags` — what the driver finds for an interrupt
* `setupIrqLow_eq` — the low register the driver computes, field by field
* `Refines.setup`, `Refines.setMask` — one call
* `apicRun_refines` — every sequence of calls
-/

namespace Auos

/-! ### The device -/

/-- One IO APIC: the index register and the registers behind the window. -/
structure IoApicDevice where
  /-- The index register. -/
  index : ℕ
  /-- The registers. -/
  regs : ℕ → BitVec 32

/-- The IO APICs, by `iospace`. -/
abbrev IoApicDevices := ℕ → IoApicDevice

/-- `*io = reg & 0xFFU`. -/
def ioApicSelect (d : IoApicDevices) (iospace reg : ℕ) : IoApicDevices :=
  Function.update d iospace { d iospace with index := reg &&& 0xFF }

/-- `io_apic_read`. It changes the index register. -/
def ioApicReadWindow (d : IoApicDevices) (iospace reg : ℕ) : IoApicDevices × BitVec 32 :=
  let d := ioApicSelect d iospace reg
  (d, (d iospace).regs (d iospace).index)

/-- `io_apic_write`. -/
def ioApicWrite (d : IoApicDevices) (iospace reg : ℕ) (value : BitVec 32) : IoApicDevices :=
  let d := ioApicSelect d iospace reg
  Function.update d iospace
    { d iospace with regs := Function.update (d iospace).regs (d iospace).index value }

/-! ### `apic.c` -/

/-- `IO_APIC_REDTBL_REG`. -/
abbrev ioApicRedtblReg : ℕ := 0x10

/-- `IO_APIC_LOW_PRI`. -/
abbrev ioApicLowPri : BitVec 32 := BitVec.twoPow 32 8

/-- `IO_APIC_LOGICAL`. -/
abbrev ioApicLogical : BitVec 32 := BitVec.twoPow 32 11

/-- `IO_APIC_LOW`. -/
abbrev ioApicLow : BitVec 32 := BitVec.twoPow 32 13

/-- `IO_APIC_LEVEL`. -/
abbrev ioApicLevel : BitVec 32 := BitVec.twoPow 32 15

/-- `IO_APIC_MASK`. -/
abbrev ioApicMask : BitVec 32 := BitVec.twoPow 32 16

/-- `IO_APIC_DEST_ALL`. -/
abbrev ioApicDestAll : ℕ := 0xFF

/-- The value `low` of `io_apic_setup_irq`. -/
def setupIrqLow (ino flags : ℕ) : BitVec 32 :=
  let low := (BitVec.ofNat 32 ino &&& 0xFF#32) ||| ioApicLowPri ||| ioApicLogical
  let low := if flags &&& hwirqDisabled ≠ 0 then low ||| ioApicMask else low
  let low := if flags &&& (hwirqFalling ||| hwirqLow) ≠ 0 then low ||| ioApicLow else low
  if flags &&& (hwirqHigh ||| hwirqLow) ≠ 0 then low ||| ioApicLevel else low

/-- The value `high` of `io_apic_setup_irq`. -/
def setupIrqHigh (cpus : ℕ) : BitVec 32 := (BitVec.ofNat 32 cpus &&& 0xFF#32) <<< 24

/-- `io_apic_setup_irq`. -/
def ioApicSetupIrq (d : IoApicDevices) (apic : IoApic) (pin ino flags cpus : ℕ) : IoApicDevices :=
  let d := ioApicWrite d apic.iospace (ioApicRedtblReg + 2 * pin + 1) (setupIrqHigh cpus)
  ioApicWrite d apic.iospace (ioApicRedtblReg + 2 * pin) (setupIrqLow ino flags)

/-- The APIC, the pin and the global interrupt of an interrupt, as `apic_setup`, `apic_mask` and
`apic_unmask` find them. `none` is the panic of `io_apic_find`. -/
def apicResolve (s : Apic) (irq : ℕ) : Option (IoApic × ℕ × ℕ) :=
  let gsi := if irq < isaIrqCount then (s.isaIrq irq).gsi else irq
  match if irq < isaIrqCount then (s.isaIrq irq).ioApic else none with
  | some i => do
    let apic ← s.ioApic[i]?
    some (apic, (s.isaIrq irq).pin, gsi)
  | none => do
    let i ← ioApicFind s gsi
    let apic ← s.ioApic[i]?
    some (apic, wsub gsi apic.gsi, gsi)

/-- The flags that `apic_setup` uses: those of the routing map for an ISA interrupt. -/
def setupFlags (s : Apic) (irq flags : ℕ) : ℕ :=
  if irq < isaIrqCount then
    if flags &&& hwirqDisabled ≠ 0 then (s.isaIrq irq).flags ||| hwirqDisabled
    else (s.isaIrq irq).flags
  else flags

/-- `apic_setup`. -/
def apicSetup (s : Apic) (d : IoApicDevices) (irq flags : ℕ) : Option IoApicDevices := do
  let (apic, pin, gsi) ← apicResolve s irq
  some (ioApicSetupIrq d apic pin (wadd gsi 0x20) (setupFlags s irq flags) ioApicDestAll)

/-- `apic_mask`. -/
def apicMask (s : Apic) (d : IoApicDevices) (irq : ℕ) : Option IoApicDevices := do
  let (apic, pin, _) ← apicResolve s irq
  let (d, low) := ioApicReadWindow d apic.iospace (ioApicRedtblReg + 2 * pin)
  some (ioApicWrite d apic.iospace (ioApicRedtblReg + 2 * pin) (low ||| ioApicMask))

/-- `apic_unmask`. -/
def apicUnmask (s : Apic) (d : IoApicDevices) (irq : ℕ) : Option IoApicDevices := do
  let (apic, pin, _) ← apicResolve s irq
  let (d, low) := ioApicReadWindow d apic.iospace (ioApicRedtblReg + 2 * pin)
  some (ioApicWrite d apic.iospace (ioApicRedtblReg + 2 * pin) (low &&& ~~~ioApicMask))

/-- A call of the driver. -/
inductive ApicOp
  /-- `apic_setup`. -/
  | setup (irq flags : ℕ)
  /-- `apic_mask`. -/
  | mask (irq : ℕ)
  /-- `apic_unmask`. -/
  | unmask (irq : ℕ)

/-- The interrupt of a call. -/
def ApicOp.irq : ApicOp → ℕ
  | setup irq _ => irq
  | mask irq => irq
  | unmask irq => irq

/-- The call. -/
def ApicOp.run (s : Apic) (d : IoApicDevices) : ApicOp → Option IoApicDevices
  | setup irq flags => apicSetup s d irq flags
  | mask irq => apicMask s d irq
  | unmask irq => apicUnmask s d irq

/-- The calls in order. -/
def apicRun (s : Apic) (d : IoApicDevices) (ops : List ApicOp) : Option IoApicDevices :=
  ops.foldlM (ApicOp.run s) d

/-! ### The table of lines -/

/-- A redirection entry by its fields. -/
structure Redirection where
  /-- Bits 0 to 7. -/
  vector : BitVec 8
  /-- Bits 8 to 10; `1` is lowest priority. -/
  deliveryMode : BitVec 3
  /-- Bit 11: the destination is logical. -/
  logical : Bool
  /-- Bit 13: the pin is active low. -/
  activeLow : Bool
  /-- Bit 15: the pin is level triggered. -/
  level : Bool
  /-- Bit 16: the pin is masked. -/
  masked : Bool
  /-- Bits 56 to 63. -/
  destination : BitVec 8

/-- The low register of an entry. Bits 12 and 14 are read-only and written as zero. -/
def Redirection.low (r : Redirection) : BitVec 32 :=
  0#15 ++ BitVec.ofBool r.masked ++ BitVec.ofBool r.level ++ 0#1 ++ BitVec.ofBool r.activeLow ++
    0#1 ++ BitVec.ofBool r.logical ++ r.deliveryMode ++ r.vector

/-- The high register of an entry. -/
def Redirection.high (r : Redirection) : BitVec 32 := r.destination ++ 0#24

/-- A low register with another mask bit. -/
def setMask (low : BitVec 32) (masked : Bool) : BitVec 32 :=
  if masked then low ||| ioApicMask else low &&& ~~~ioApicMask

/-- What the calls resolving to a pin have asked for. -/
structure Line where
  /-- The entry of the last set-up. -/
  setup : Option Redirection
  /-- The mask bit of the last call. -/
  masked : Option Bool

/-- The low register of a line which had `low` before any call. -/
def Line.low (l : Line) (low : BitVec 32) : BitVec 32 :=
  let entry := (l.setup.map Redirection.low).getD low
  match l.masked with
  | none => entry
  | some masked => setMask entry masked

/-- The high register of a line which had `high` before any call. -/
def Line.high (l : Line) (high : BitVec 32) : BitVec 32 := (l.setup.map Redirection.high).getD high

/-- The entry that a set-up asks for: the vector of the global interrupt, lowest-priority logical
delivery to all, polarity and trigger by the flags. -/
def redirectionOf (gsi flags : ℕ) : Redirection where
  vector := BitVec.ofNat 8 (gsi + 0x20)
  deliveryMode := 1
  logical := true
  activeLow := decide (flags &&& (hwirqFalling ||| hwirqLow) ≠ 0)
  level := decide (flags &&& (hwirqHigh ||| hwirqLow) ≠ 0)
  masked := decide (flags &&& hwirqDisabled ≠ 0)
  destination := 0xFF

/-- What a call does to the line it resolves to. -/
def ApicOp.update (s : Apic) (gsi : ℕ) (l : Line) : ApicOp → Line
  | setup irq flags =>
    let r := redirectionOf gsi (setupFlags s irq flags)
    ⟨some r, some r.masked⟩
  | mask _ => { l with masked := some true }
  | unmask _ => { l with masked := some false }

/-- The lines, by `iospace` and pin. -/
abbrev Lines := ℕ → ℕ → Line

/-- The lines after a call. -/
def ApicOp.apply (s : Apic) (t : Lines) (op : ApicOp) : Lines :=
  match apicResolve s op.irq with
  | none => t
  | some (apic, pin, gsi) =>
    Function.update t apic.iospace
      (Function.update (t apic.iospace) pin (op.update s gsi (t apic.iospace pin)))

/-- **The table of lines** that a sequence of calls leaves. -/
def lineTable (s : Apic) (ops : List ApicOp) : Lines :=
  ops.foldl (ApicOp.apply s) fun _ _ => ⟨none, none⟩

/-- The registers of the devices `d`, which were `d₀` before any call, are those of the table. -/
structure Refines (d₀ d : IoApicDevices) (t : Lines) : Prop where
  /-- The identification, version and arbitration registers. -/
  fixed : ∀ a, ∀ r < 0x10, (d a).regs r = (d₀ a).regs r
  /-- The low registers. -/
  low : ∀ a, ∀ pin < 120, (d a).regs (0x10 + 2 * pin) =
    (t a pin).low ((d₀ a).regs (0x10 + 2 * pin))
  /-- The high registers. -/
  high : ∀ a, ∀ pin < 120, (d a).regs (0x10 + 2 * pin + 1) =
    (t a pin).high ((d₀ a).regs (0x10 + 2 * pin + 1))

/-! ### Where an interrupt goes -/

section Resolving

variable {s : Apic} {irq pin gsi : ℕ} {apic : IoApic}

/-- The interrupts of an APIC include a global interrupt, as `io_apic_find` tests it. -/
def IoApic.Includes (apic : IoApic) (gsi : ℕ) : Prop :=
  apic.gsi ≤ gsi ∧ gsi < wadd apic.gsi apic.irqs

/-- The first registered APIC whose interrupts include a global interrupt. -/
def FirstIncluding (s : Apic) (gsi : ℕ) (apic : IoApic) : Prop :=
  apic.Includes gsi ∧ ∃ l l', s.ioApic = l ++ apic :: l' ∧ ∀ a ∈ l, ¬a.Includes gsi

/-- **Where an interrupt goes**: the APIC, the pin and the global interrupt. -/
inductive Resolves (s : Apic) (irq : ℕ) : IoApic → ℕ → ℕ → Prop
  /-- An ISA interrupt with a route goes where the routing map says. -/
  | mapped {i : ℕ} {apic : IoApic} (hisa : irq < isaIrqCount)
      (hmap : (s.isaIrq irq).ioApic = some i) (hi : s.ioApic[i]? = some apic) :
      Resolves s irq apic (s.isaIrq irq).pin (s.isaIrq irq).gsi
  /-- An ISA interrupt without an APIC goes to the one that has its global interrupt. -/
  | unmapped {apic : IoApic} (hisa : irq < isaIrqCount) (hmap : (s.isaIrq irq).ioApic = none)
      (hfirst : FirstIncluding s (s.isaIrq irq).gsi apic) :
      Resolves s irq apic ((s.isaIrq irq).gsi - apic.gsi) (s.isaIrq irq).gsi
  /-- Any other interrupt is a global one. -/
  | plain {apic : IoApic} (hplain : isaIrqCount ≤ irq) (hfirst : FirstIncluding s irq apic) :
      Resolves s irq apic (irq - apic.gsi) irq

theorem FirstIncluding.mem (h : FirstIncluding s gsi apic) : apic ∈ s.ioApic := by
  obtain ⟨-, l, l', heq, -⟩ := h
  rw [heq]
  exact List.mem_append_right l List.mem_cons_self

theorem exists_firstIncluding (hapic : apic ∈ s.ioApic) (h : apic.Includes gsi) :
    ∃ first, FirstIncluding s gsi first := by
  classical
  have hsome : (s.ioApic.find? fun a => decide (a.Includes gsi)).isSome :=
    List.find?_isSome.mpr ⟨apic, hapic, decide_eq_true h⟩
  obtain ⟨first, hfirst⟩ := Option.isSome_iff_exists.mp hsome
  obtain ⟨htest, l, l', heq, hbefore⟩ := List.find?_eq_some_iff_append.mp hfirst
  exact ⟨first, of_decide_eq_true htest, l, l', heq, by simpa using hbefore⟩

/-- The pin that the driver computes does not wrap. -/
theorem FirstIncluding.wsub_eq (h : FirstIncluding s gsi apic) :
    wsub gsi apic.gsi = gsi - apic.gsi :=
  wsub_of_le h.1.1 (h.1.2.trans (wrap_lt _))

/-- The search for the APIC of a global interrupt, as the three functions continue it. -/
theorem ioApicFind_bind_eq_some_iff {gsi' : ℕ} :
    (do
      let i ← ioApicFind s gsi
      let apic ← s.ioApic[i]?
      some (apic, wsub gsi apic.gsi, gsi)) = some (apic, pin, gsi') ↔
      FirstIncluding s gsi apic ∧ gsi - apic.gsi = pin ∧ gsi = gsi' := by
  have hfind : ((ioApicFind s gsi).bind fun i => s.ioApic[i]?) = some apic ↔
      FirstIncluding s gsi apic := by
    rw [ioApicFind, ← List.find?_eq_bind_findIdx?_getElem?, List.find?_eq_some_iff_append]
    simp only [FirstIncluding, IoApic.Includes, Bool.and_eq_true, decide_eq_true_eq,
      Bool.not_eq_true', gt_iff_lt, Bool.eq_false_iff, ne_eq]
  have hbind : ∀ x : Option ℕ, (do
      let i ← x
      let apic ← s.ioApic[i]?
      some (apic, wsub gsi apic.gsi, gsi)) =
      (x.bind fun i => s.ioApic[i]?).map fun apic => (apic, wsub gsi apic.gsi, gsi) := by
    rintro (_ | i)
    · rfl
    · exact Option.map_eq_bind.symm
  rw [hbind, Option.map_eq_some_iff]
  constructor
  · rintro ⟨apic', hsome, heq⟩
    obtain ⟨rfl, rfl, rfl⟩ : apic' = apic ∧ wsub gsi apic'.gsi = pin ∧ gsi = gsi' := by
      simpa using heq
    exact ⟨hfind.mp hsome, (hfind.mp hsome).wsub_eq.symm, rfl⟩
  · rintro ⟨hfirst, rfl, rfl⟩
    exact ⟨apic, hfind.mpr hfirst, by rw [hfirst.wsub_eq]⟩

/-- **What `apic_setup`, `apic_mask` and `apic_unmask` find** for an interrupt. -/
theorem apicResolve_eq_some_iff :
    apicResolve s irq = some (apic, pin, gsi) ↔ Resolves s irq apic pin gsi := by
  constructor
  · intro h
    by_cases hisa : irq < isaIrqCount
    · rw [apicResolve, if_pos hisa, if_pos hisa] at h
      rcases hmap : (s.isaIrq irq).ioApic with _ | i <;> rw [hmap] at h
      · obtain ⟨hfirst, rfl, rfl⟩ := ioApicFind_bind_eq_some_iff.mp h
        exact .unmapped hisa hmap hfirst
      · obtain ⟨apic', hi, heq⟩ := Option.bind_eq_some_iff.mp h
        obtain ⟨rfl, rfl, rfl⟩ : apic' = apic ∧ (s.isaIrq irq).pin = pin ∧
            (s.isaIrq irq).gsi = gsi := by simpa using heq
        exact .mapped hisa hmap hi
    · rw [apicResolve, if_neg hisa, if_neg hisa] at h
      obtain ⟨hfirst, rfl, rfl⟩ := ioApicFind_bind_eq_some_iff.mp h
      exact .plain (not_lt.mp hisa) hfirst
  · intro h
    cases h with
    | mapped hisa hmap hi =>
      rw [apicResolve, if_pos hisa, if_pos hisa, hmap]
      exact Option.bind_eq_some_iff.mpr ⟨apic, hi, rfl⟩
    | unmapped hisa hmap hfirst =>
      rw [apicResolve, if_pos hisa, if_pos hisa, hmap]
      exact ioApicFind_bind_eq_some_iff.mpr ⟨hfirst, rfl, rfl⟩
    | plain hplain hfirst =>
      rw [apicResolve, if_neg (not_lt.mpr hplain), if_neg (not_lt.mpr hplain)]
      exact ioApicFind_bind_eq_some_iff.mpr ⟨hfirst, rfl, rfl⟩

/-- **What a set-up asks for.** For an ISA interrupt polarity and trigger are those of the routing map,
and the caller can only ask for the line to start masked. -/
theorem redirectionOf_setupFlags (s : Apic) (irq gsi flags : ℕ) :
    redirectionOf gsi (setupFlags s irq flags) =
      if irq < isaIrqCount then
        { redirectionOf gsi (s.isaIrq irq).flags with
          masked := decide ((s.isaIrq irq).flags &&& hwirqDisabled ≠ 0 ∨
            flags &&& hwirqDisabled ≠ 0) }
      else redirectionOf gsi flags := by
  have hlow : hwirqDisabled &&& (hwirqFalling ||| hwirqLow) = 0 := rfl
  have hlevel : hwirqDisabled &&& (hwirqHigh ||| hwirqLow) = 0 := rfl
  unfold setupFlags
  by_cases hisa : irq < isaIrqCount
  · rw [if_pos hisa, if_pos hisa]
    split
    · next h => simp [redirectionOf, h, Nat.and_or_distrib_right, hlow, hlevel]
    · next h => simp [redirectionOf, h]
  · rw [if_neg hisa, if_neg hisa]

end Resolving

/-! ### The window -/

section Window

variable {d : IoApicDevices} {a b reg r : ℕ} {v : BitVec 32}

theorem and_0xFF_of_lt (h : reg < 0x100) : reg &&& 0xFF = reg := by
  rw [show 0xFF = 2 ^ 8 - 1 from rfl, Nat.and_two_pow_sub_one_eq_mod]
  exact Nat.mod_eq_of_lt h

theorem ioApicSelect_regs : ((ioApicSelect d a reg) b).regs = (d b).regs := by
  rw [ioApicSelect, Function.update_apply]
  split
  · next h => rw [h]
  · rfl

/-- A write changes the register it names. -/
theorem ioApicWrite_regs (h : reg < 0x100) :
    ((ioApicWrite d a reg v) b).regs r =
      if b = a ∧ r = reg then v else (d b).regs r := by
  have hindex : (ioApicSelect d a reg a).index = reg := by
    rw [ioApicSelect, Function.update_self]
    exact and_0xFF_of_lt h
  rw [ioApicWrite, Function.update_apply]
  by_cases hb : b = a
  · subst hb
    simp only [if_pos, true_and, hindex, Function.update_apply, ioApicSelect_regs]
  · simp only [hb, false_and, if_false, ioApicSelect_regs]

/-- A read returns the register it names. -/
theorem ioApicReadWindow_snd (h : reg < 0x100) : (ioApicReadWindow d a reg).2 = (d a).regs reg := by
  have hindex : (ioApicSelect d a reg a).index = reg := by
    rw [ioApicSelect, Function.update_self]
    exact and_0xFF_of_lt h
  rw [ioApicReadWindow]
  dsimp only
  rw [hindex, ioApicSelect_regs]

theorem ioApicReadWindow_fst : ((ioApicReadWindow d a reg).1 b).regs = (d b).regs :=
  ioApicSelect_regs

end Window

/-! ### The low register -/

theorem getLsbD_setMask (e : BitVec 32) (m : Bool) {i : ℕ} (hi : i < 32) :
    (setMask e m).getLsbD i = if i = 16 then m else e.getLsbD i := by
  unfold setMask
  by_cases h : i = 16
  · subst h
    cases m <;> simp
  · cases m <;> simp [h, hi]

theorem setMask_setMask (e : BitVec 32) (m m' : Bool) : setMask (setMask e m) m' = setMask e m' := by
  apply BitVec.eq_of_getLsbD_eq
  intro i hi
  rw [getLsbD_setMask _ _ hi, getLsbD_setMask _ _ hi, getLsbD_setMask _ _ hi]
  split <;> rfl

/-- The bits of an entry. -/
theorem Redirection.getLsbD_low (r : Redirection) {i : ℕ} (hi : i < 32) :
    r.low.getLsbD i =
      if i < 8 then r.vector.getLsbD i
      else if i < 11 then r.deliveryMode.getLsbD (i - 8)
      else (decide (i = 11) && r.logical) || (decide (i = 13) && r.activeLow) ||
        (decide (i = 15) && r.level) || (decide (i = 16) && r.masked) := by
  unfold low
  simp only [BitVec.getLsbD_append]
  interval_cases i <;> simp

theorem Redirection.setMask_low (r : Redirection) : setMask r.low r.masked = r.low := by
  apply BitVec.eq_of_getLsbD_eq
  intro i hi
  rw [getLsbD_setMask _ _ hi]
  split
  · next h => rw [h, r.getLsbD_low (by decide)]; simp
  · rfl

theorem getLsbD_or_ite (e m : BitVec 32) (c : Prop) [Decidable c] (i : ℕ) :
    (if c then e ||| m else e).getLsbD i = (e.getLsbD i || (decide c && m.getLsbD i)) := by
  split <;> simp [*]

/-- The bits that the driver computes. -/
theorem getLsbD_setupIrqLow (ino flags : ℕ) {i : ℕ} (hi : i < 32) :
    (setupIrqLow ino flags).getLsbD i =
      if i < 8 then ino.testBit i
      else decide (i = 8) || decide (i = 11) ||
        (decide (i = 13) && decide (flags &&& (hwirqFalling ||| hwirqLow) ≠ 0)) ||
        (decide (i = 15) && decide (flags &&& (hwirqHigh ||| hwirqLow) ≠ 0)) ||
        (decide (i = 16) && decide (flags &&& hwirqDisabled ≠ 0)) := by
  have hbyte : Nat.testBit 0xFF i = decide (i < 8) := Nat.testBit_two_pow_sub_one 8 i
  unfold setupIrqLow
  simp only [getLsbD_or_ite, BitVec.getLsbD_or, BitVec.getLsbD_and, BitVec.getLsbD_twoPow,
    BitVec.getLsbD_ofNat, hbyte]
  generalize decide (flags &&& (hwirqFalling ||| hwirqLow) ≠ 0) = activeLow
  generalize decide (flags &&& (hwirqHigh ||| hwirqLow) ≠ 0) = level
  generalize decide (flags &&& hwirqDisabled ≠ 0) = masked
  clear hbyte
  interval_cases i <;> simp

/-- **The low register that the driver computes**, field by field. -/
theorem setupIrqLow_eq (gsi flags : ℕ) :
    setupIrqLow (wadd gsi 0x20) flags = (redirectionOf gsi flags).low := by
  have hino : ∀ i < 32, (wadd gsi 0x20).testBit i = (gsi + 0x20).testBit i := by
    intro i hi
    rw [wadd, wrap, Nat.testBit_mod_two_pow]
    simp [hi]
  apply BitVec.eq_of_getLsbD_eq
  intro i hi
  rw [getLsbD_setupIrqLow _ _ hi, (redirectionOf gsi flags).getLsbD_low hi, hino i hi]
  by_cases h8 : i < 8
  · rw [if_pos h8, if_pos h8, redirectionOf, BitVec.getLsbD_ofNat]
    simp [h8]
  by_cases h11 : i < 11
  · obtain rfl | rfl | rfl : i = 8 ∨ i = 9 ∨ i = 10 := by omega
    all_goals simp [redirectionOf]
  · have hne : i ≠ 8 := by omega
    simp [redirectionOf, h8, h11, hne]

theorem setupIrqHigh_eq (gsi flags : ℕ) :
    setupIrqHigh ioApicDestAll = (redirectionOf gsi flags).high := by
  have hvalue : setupIrqHigh ioApicDestAll = (0xFF : BitVec 8) ++ 0#24 := by decide
  exact hvalue

/-! ### One call -/

section Steps

variable {s : Apic} {d₀ d d' : IoApicDevices} {t : Lines} {a pin : ℕ}

/-- A line as it was before any call. -/
theorem refines_refl (d₀ : IoApicDevices) : Refines d₀ d₀ fun _ _ => ⟨none, none⟩ :=
  ⟨fun _ _ _ => rfl, fun _ _ _ => rfl, fun _ _ _ => rfl⟩

/-- Replacing one line, when only its two registers changed. -/
theorem Refines.write (h : Refines d₀ d t) (hpin : pin < 120) {l : Line} {low high : BitVec 32}
    (hregs : ∀ b, ∀ r < 0x100, (d' b).regs r =
      if b = a ∧ r = 0x10 + 2 * pin then low
      else if b = a ∧ r = 0x10 + 2 * pin + 1 then high else (d b).regs r)
    (hlow : l.low ((d₀ a).regs (0x10 + 2 * pin)) = low)
    (hhigh : l.high ((d₀ a).regs (0x10 + 2 * pin + 1)) = high) :
    Refines d₀ d' (Function.update t a (Function.update (t a) pin l)) := by
  have hline : ∀ b p, Function.update t a (Function.update (t a) pin l) b p =
      if b = a ∧ p = pin then l else t b p := by
    intro b p
    rw [Function.update_apply]
    by_cases hb : b = a
    · subst hb
      rw [if_pos rfl, Function.update_apply]
      simp
    · rw [if_neg hb, if_neg fun hand => hb hand.1]
  refine ⟨?_, ?_, ?_⟩
  · intro b r hr
    rw [hregs b r (by omega), if_neg (by omega), if_neg (by omega)]
    exact h.fixed b r hr
  · intro b p hp
    rw [hregs b _ (by omega), hline]
    by_cases hand : b = a ∧ p = pin
    · obtain ⟨rfl, rfl⟩ := hand
      rw [if_pos ⟨rfl, rfl⟩, if_pos ⟨rfl, rfl⟩, hlow]
    · rw [if_neg (by omega), if_neg (by omega), if_neg hand]
      exact h.low b p hp
  · intro b p hp
    rw [hregs b _ (by omega), hline, if_neg (by omega)]
    by_cases hand : b = a ∧ p = pin
    · obtain ⟨rfl, rfl⟩ := hand
      rw [if_pos ⟨rfl, rfl⟩, if_pos ⟨rfl, rfl⟩, hhigh]
    · rw [if_neg (by omega), if_neg hand]
      exact h.high b p hp

/-- `io_apic_setup_irq` makes the line that of the entry asked for. -/
theorem Refines.setup (h : Refines d₀ d t) {apic : IoApic} (hpin : pin < 120) (gsi flags : ℕ) :
    Refines d₀ (ioApicSetupIrq d apic pin (wadd gsi 0x20) flags ioApicDestAll)
      (Function.update t apic.iospace (Function.update (t apic.iospace) pin
        ⟨some (redirectionOf gsi flags), some (redirectionOf gsi flags).masked⟩)) := by
  refine @Refines.write d₀ d _ t apic.iospace pin h hpin _ (setupIrqLow (wadd gsi 0x20) flags)
    (setupIrqHigh ioApicDestAll) ?_ ?_ ?_
  · intro b r hr
    rw [ioApicSetupIrq, ioApicWrite_regs (show 0x10 + 2 * pin < 0x100 by omega),
      ioApicWrite_regs (show 0x10 + 2 * pin + 1 < 0x100 by omega)]
  · rw [setupIrqLow_eq]
    exact (redirectionOf gsi flags).setMask_low
  · rw [setupIrqHigh_eq gsi flags]
    rfl

/-- The read-modify-write of `apic_mask` and `apic_unmask` changes the mask bit of the line. -/
theorem Refines.setMask (h : Refines d₀ d t) (hpin : pin < 120) (m : Bool) :
    Refines d₀ (ioApicWrite (ioApicReadWindow d a (0x10 + 2 * pin)).1 a (0x10 + 2 * pin)
        (setMask (ioApicReadWindow d a (0x10 + 2 * pin)).2 m))
      (Function.update t a (Function.update (t a) pin { t a pin with masked := some m })) := by
  refine @Refines.write d₀ d _ t a pin h hpin _ (Auos.setMask ((d a).regs (0x10 + 2 * pin)) m)
    ((d a).regs (0x10 + 2 * pin + 1)) ?_ ?_ ?_
  · intro b r hr
    have hreg : 0x10 + 2 * pin < 0x100 := by omega
    rw [ioApicWrite_regs hreg, ioApicReadWindow_snd hreg, ioApicReadWindow_fst]
    by_cases hand : b = a ∧ r = 0x10 + 2 * pin + 1
    · obtain ⟨rfl, rfl⟩ := hand
      simp
    · rw [if_neg hand]
  · rw [h.low a pin hpin]
    unfold Line.low
    cases (t a pin).masked with
    | none => rfl
    | some m' => exact (setMask_setMask _ m' m).symm
  · rw [h.high a pin hpin]
    rfl

end Steps

/-! ### Runs -/

/-- The set-up of the APICs that the driver needs: no APIC has more entries than the registers hold,
and the pins of the routing map are pins of their APICs. -/
structure Apic.PinsFit (s : Apic) : Prop where
  /-- An APIC has at most 120 entries. -/
  irqs : ∀ apic ∈ s.ioApic, apic.irqs ≤ 120
  /-- The routing map names pins of registered APICs. -/
  pin : ∀ irq < isaIrqCount, ∀ i apic, (s.isaIrq irq).ioApic = some i → s.ioApic[i]? = some apic →
    (s.isaIrq irq).pin < apic.irqs

section Runs

variable {s : Apic} {d₀ d : IoApicDevices} {t : Lines}

/-- The pin found for a global interrupt is a pin of its APIC. -/
theorem FirstIncluding.lt (h : s.PinsFit) {gsi : ℕ} {apic : IoApic}
    (hfirst : FirstIncluding s gsi apic) : gsi - apic.gsi < apic.irqs := by
  have hirqs := h.irqs _ hfirst.mem
  obtain ⟨⟨hle, hgt⟩, -⟩ := hfirst
  unfold wadd wrap at hgt
  omega

/-- Every interrupt resolves to one of the first 120 pins. -/
theorem Apic.PinsFit.resolve (h : s.PinsFit) {irq pin gsi : ℕ} {apic : IoApic}
    (hres : apicResolve s irq = some (apic, pin, gsi)) : pin < 120 := by
  cases apicResolve_eq_some_iff.mp hres with
  | mapped hisa hmap hi =>
    exact (h.pin irq hisa _ _ hmap hi).trans_le (h.irqs _ (List.mem_of_getElem? hi))
  | unmapped _ _ hfirst => exact (hfirst.lt h).trans_le (h.irqs _ hfirst.mem)
  | plain _ hfirst => exact (hfirst.lt h).trans_le (h.irqs _ hfirst.mem)

/-- The line that a call resolves to. -/
theorem ApicOp.apply_of_resolve {op : ApicOp} {apic : IoApic} {pin gsi : ℕ}
    (hres : apicResolve s op.irq = some (apic, pin, gsi)) :
    op.apply s t = Function.update t apic.iospace
      (Function.update (t apic.iospace) pin (op.update s gsi (t apic.iospace pin))) := by
  rw [ApicOp.apply, hres]

/-- **One call** on an interrupt that resolves. -/
theorem Refines.run (h : Refines d₀ d t) (hfit : s.PinsFit) {op : ApicOp}
    (hres : apicResolve s op.irq ≠ none) :
    ∃ d', op.run s d = some d' ∧ Refines d₀ d' (op.apply s t) := by
  obtain ⟨⟨apic, pin, gsi⟩, hsome⟩ := Option.ne_none_iff_exists'.mp hres
  have hpin := hfit.resolve hsome
  rw [ApicOp.apply_of_resolve hsome]
  cases op with
  | setup irq flags =>
    exact ⟨_, congrArg (Option.bind · _) hsome, h.setup hpin gsi (setupFlags s irq flags)⟩
  | mask irq => exact ⟨_, congrArg (Option.bind · _) hsome, h.setMask hpin true⟩
  | unmask irq => exact ⟨_, congrArg (Option.bind · _) hsome, h.setMask hpin false⟩

theorem lineTable_append (ops : List ApicOp) (op : ApicOp) :
    lineTable s (ops ++ [op]) = op.apply s (lineTable s ops) := by
  rw [lineTable, lineTable, List.foldl_append, List.foldl_cons, List.foldl_nil]

/-- An interrupt resolves to a pin of the APIC at an address. -/
def ResolvesTo (s : Apic) (irq a pin : ℕ) : Prop :=
  ∃ apic gsi, apicResolve s irq = some (apic, pin, gsi) ∧ apic.iospace = a

/-- A pin that no call resolves to has no line. -/
theorem lineTable_of_notResolved {ops : List ApicOp} {a pin : ℕ}
    (h : ∀ op ∈ ops, ¬ResolvesTo s op.irq a pin) : lineTable s ops a pin = ⟨none, none⟩ := by
  induction ops using List.reverseRecOn with
  | nil => rfl
  | append_singleton ops op ih =>
    have hold := ih fun op' hop' => h op' (by simp [hop'])
    rw [lineTable_append, ApicOp.apply]
    rcases hsome : apicResolve s op.irq with _ | ⟨apic, pin', gsi⟩
    · exact hold
    · dsimp only
      rw [Function.update_apply]
      by_cases ha : a = apic.iospace
      · have hpin : pin ≠ pin' := by
          rintro rfl
          exact h op (by simp) ⟨apic, gsi, hsome, ha.symm⟩
        rw [if_pos ha, Function.update_of_ne hpin, ← ha, hold]
      · rw [if_neg ha, hold]

theorem apicRun_append {d' : IoApicDevices} {ops : List ApicOp} {op : ApicOp}
    (hrun : apicRun s d₀ ops = some d) (hop : op.run s d = some d') :
    apicRun s d₀ (ops ++ [op]) = some d' := by
  have hbind : apicRun s d₀ (ops ++ [op]) = (apicRun s d₀ ops).bind fun d => apicRun s d [op] :=
    List.foldlM_append
  rw [hbind, hrun]
  simpa [apicRun] using hop

/-- **The driver refines the table of lines**: after any calls on interrupts that resolve, the entry
of every pin is the one that the last set-up of the pin asked for, or the one it had before, with the
mask bit that the last call on the pin left. The entries of pins that no call resolves to and the
registers below the entries are as they were. -/
theorem apicRun_refines (hfit : s.PinsFit) (d₀ : IoApicDevices) (ops : List ApicOp)
    (hres : ∀ op ∈ ops, apicResolve s op.irq ≠ none) :
    ∃ d, apicRun s d₀ ops = some d ∧ Refines d₀ d (lineTable s ops) ∧
      ∀ a, ∀ pin < 120, (∀ op ∈ ops, ¬ResolvesTo s op.irq a pin) →
        (d a).regs (0x10 + 2 * pin) = (d₀ a).regs (0x10 + 2 * pin) ∧
        (d a).regs (0x10 + 2 * pin + 1) = (d₀ a).regs (0x10 + 2 * pin + 1) := by
  have hmain : ∃ d, apicRun s d₀ ops = some d ∧ Refines d₀ d (lineTable s ops) := by
    induction ops using List.reverseRecOn with
    | nil => exact ⟨d₀, rfl, refines_refl d₀⟩
    | append_singleton ops op ih =>
      obtain ⟨d, hrun, href⟩ := ih fun op' hop' => hres op' (by simp [hop'])
      obtain ⟨d', hop, href'⟩ := href.run hfit (hres op (by simp))
      exact ⟨d', apicRun_append hrun hop, lineTable_append ops op ▸ href'⟩
  obtain ⟨d, hrun, href⟩ := hmain
  refine ⟨d, hrun, href, ?_⟩
  intro a pin hpin hno
  rw [href.low a pin hpin, href.high a pin hpin, lineTable_of_notResolved hno]
  exact ⟨rfl, rfl⟩

end Runs

/-- One IO APIC with 24 pins, and the timer on its third pin. -/
def sampleApic : Apic where
  ioApic := [⟨0xFEC00000, 0, 24, 0⟩]
  isaIrq := fun _ => ⟨some 0, hwirqRising, 2, 2⟩

theorem pinsFit_sampleApic : sampleApic.PinsFit where
  irqs := by decide
  pin := by
    rintro irq - i apic hi ha
    obtain rfl : 0 = i := Option.some.inj hi
    obtain rfl : _ = apic := Option.some.inj ha
    exact show (2 : ℕ) < 24 by decide

/-- Two IO APICs with 24 pins each. ISA interrupt `9` is level triggered and active low on pin `20`
of the first one, the other ISA interrupts have no route. -/
def sharedPinApic : Apic where
  ioApic := [⟨0xFEC00000, 0, 24, 0⟩, ⟨0xFEC10000, 24, 24, 1⟩]
  isaIrq := fun irq => if irq = 9 then ⟨some 0, hwirqLow, 20, 20⟩ else ⟨none, 0, 0, 0⟩

theorem pinsFit_sharedPinApic : sharedPinApic.PinsFit where
  irqs := by decide
  pin := by
    rintro irq - i apic hi ha
    by_cases hirq : irq = 9
    · subst hirq
      obtain rfl : 0 = i := Option.some.inj hi
      obtain rfl : _ = apic := Option.some.inj ha
      exact show (20 : ℕ) < 24 by decide
    · simp [sharedPinApic, hirq] at hi

/-- ISA interrupt `9` and interrupt `20` name the same pin. -/
def sharedPinOps : List ApicOp :=
  [.setup 20 hwirqRising, .setup 30 hwirqFalling, .setup 9 hwirqDisabled, .mask 30, .unmask 20]

/-- The shared pin is set up edge triggered as `20`, set up again and disabled as `9`, and unmasked as
`20`: it has the polarity and trigger of ISA interrupt `9` and is not masked. A line of the second
APIC is set up and masked in between. Pin `21` is not named. -/
theorem apicRun_refines_sharedPin : ∃ d,
    apicRun sharedPinApic (fun _ => ⟨0, fun _ => 0x10000#32⟩) sharedPinOps = some d ∧
      (d 0xFEC00000).regs 0x38 = 0xA934#32 ∧ (d 0xFEC00000).regs 0x39 = 0xFF000000#32 ∧
      (d 0xFEC10000).regs 0x1C = 0x1293E#32 ∧ (d 0xFEC10000).regs 0x1D = 0xFF000000#32 ∧
      (d 0xFEC00000).regs 0x3A = 0x10000#32 ∧ (d 0xFEC00000).regs 0x01 = 0x10000#32 := by
  obtain ⟨d, hrun, href, hother⟩ := apicRun_refines pinsFit_sharedPinApic
    (fun _ => ⟨0, fun _ => 0x10000#32⟩) sharedPinOps (by decide)
  have hpin : ∀ op ∈ sharedPinOps, ¬ResolvesTo sharedPinApic op.irq 0xFEC00000 21 := by
    have hne : ∀ op ∈ sharedPinOps, ∀ r ∈ apicResolve sharedPinApic op.irq,
        (r.1.iospace, r.2.1) ≠ (0xFEC00000, 21) := by decide
    rintro op hop ⟨apic, gsi, hres, ha⟩
    exact hne op hop _ hres (by rw [ha])
  refine ⟨d, hrun, (href.low 0xFEC00000 20 (by decide)).trans ?_,
    (href.high 0xFEC00000 20 (by decide)).trans ?_, (href.low 0xFEC10000 6 (by decide)).trans ?_,
    (href.high 0xFEC10000 6 (by decide)).trans ?_, (hother 0xFEC00000 21 (by decide) hpin).1,
    href.fixed 0xFEC00000 1 (by decide)⟩
  all_goals decide

end Auos
