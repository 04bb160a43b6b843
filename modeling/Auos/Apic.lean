import Auos.Acpi
import Mathlib.Data.List.Nodup
import Mathlib.Logic.Function.Basic
import Mathlib.Tactic.IntervalCases

/-!
# Routing of ISA interrupts

The set-up of the IO APICs in the kernel's `apic.c`: the MADT's IO APICs are registered, every ISA
interrupt gets a default route, and the MADT's interrupt source overrides replace some of these. The
defaults are written through a `struct isa_irq_cfg` whose initialiser lists its fields in another
order than the structure, so that the interrupt number lands in `flags` and `HWIRQ_RISING` in `gsi`.

The registers of an IO APIC are a parameter: only the identification and version registers are read
here, and they do not change. An APIC's `iospace` is the physical address it was mapped from.

## Main definitions

* `setupIoApicAcpi` — the source
* `polarityOf`, `triggerOf`, `hwirqSelected` — what an override selects
* `Routes` — an ISA interrupt goes to a pin of a registered APIC

## Main results

* `setupIoApicAcpi_routes_iff` — the routes are those the tables ask for iff no default matters
* `setupIoApicAcpi_default_misrouted` — interrupt `0` on the pin of interrupt `1`
-/

namespace Auos

/-! ### `apic.c` -/

/-- `HWIRQ_RISING`. -/
abbrev hwirqRising : ℕ := 1

/-- `HWIRQ_FALLING`. -/
abbrev hwirqFalling : ℕ := 2

/-- `HWIRQ_HIGH`. -/
abbrev hwirqHigh : ℕ := 4

/-- `HWIRQ_LOW`. -/
abbrev hwirqLow : ℕ := 8

/-- `HWIRQ_DISABLED`. -/
abbrev hwirqDisabled : ℕ := 16

/-- `HW_INTERRUPT_OFFSET`. -/
abbrev hwInterruptOffset : ℕ := 0x20

/-- `ISA_IRQ_COUNT`. -/
abbrev isaIrqCount : ℕ := 16

/-- `IO_APIC_MAX_COUNT`. -/
abbrev ioApicMaxCount : ℕ := 32

/-- `ISA_POLARITY_MASK`. -/
abbrev isaPolarityMask : ℕ := 0x03

/-- `ISA_POLARITY_HIGH`. -/
abbrev isaPolarityHigh : ℕ := 0x01

/-- `ISA_TRIGGER_MASK`. -/
abbrev isaTriggerMask : ℕ := 0x0C

/-- `ISA_TRIGGER_LEVEL`. -/
abbrev isaTriggerLevel : ℕ := 0x0C

/-- `ISA_TRIGGER_EDGE`. -/
abbrev isaTriggerEdge : ℕ := 0x04

/-- `struct io_apic`. -/
structure IoApic where
  /-- `iospace`. -/
  iospace : ℕ
  /-- `gsi`. -/
  gsi : ℕ
  /-- `irqs`. -/
  irqs : ℕ
  /-- `id`. -/
  id : ℕ
  deriving DecidableEq

/-- `struct isa_irq_map`; `io_apic` is an index into the array of APICs, or null. -/
structure IsaIrqMap where
  /-- `io_apic`. -/
  ioApic : Option ℕ
  /-- `flags`. -/
  flags : ℕ
  /-- `gsi`. -/
  gsi : ℕ
  /-- `pin`. -/
  pin : ℕ
  deriving DecidableEq

/-- `struct isa_irq_cfg`, with its fields in the order of the source. -/
structure IsaIrqCfg where
  /-- `flags`. -/
  flags : ℕ
  /-- `isa`. -/
  isa : ℕ
  /-- `gsi`. -/
  gsi : ℕ

/-- The static state: the APICs registered so far and the routing map. -/
structure Apic where
  /-- `io_apic`, up to `io_apic_size`. -/
  ioApic : List IoApic
  /-- `isa_irq`. -/
  isaIrq : ℕ → IsaIrqMap

/-- The state before any set-up. -/
def Apic.init : Apic := ⟨[], fun _ => ⟨none, 0, 0, 0⟩⟩

/-- The registers of the IO APICs, by physical address and register number. -/
abbrev IoApicRegs := ℕ → ℕ → ℕ

/-- `io_apic_read`. -/
def ioApicRead (regs : IoApicRegs) (iospace reg : ℕ) : ℕ := regs iospace (reg &&& 0xFF)

/-- `io_apic_irqs`. -/
def ioApicIrqs (regs : IoApicRegs) (iospace : ℕ) : ℕ :=
  1 + ((ioApicRead regs iospace 0x01 >>> 16) &&& 0xFF)

/-- `io_apic_id`. -/
def ioApicId (regs : IoApicRegs) (iospace : ℕ) : ℕ := (ioApicRead regs iospace 0x00 >>> 24) &&& 0x0F

/-- `io_apic_find`: the index of the first APIC whose interrupts include `gsi`. -/
def ioApicFind (s : Apic) (gsi : ℕ) : Option ℕ :=
  s.ioApic.findIdx? fun apic => decide (apic.gsi ≤ gsi) && decide (wadd apic.gsi apic.irqs > gsi)

/-- `io_apic_setup_isa`. -/
def ioApicSetupIsa (s : Apic) (cfg : IsaIrqCfg) : Option Apic :=
  if cfg.isa < isaIrqCount then do
    let i ← ioApicFind s cfg.gsi
    let apic ← s.ioApic[i]?
    let map : IsaIrqMap := ⟨some i, cfg.flags, cfg.gsi, wsub cfg.gsi apic.gsi⟩
    some { s with isaIrq := Function.update s.isaIrq cfg.isa map }
  else none

/-- The loop of `io_apic_isa_defaults`, with the number of iterations left. The initialiser of the
source is positional. -/
def ioApicIsaDefaultsLoop : ℕ → Apic → ℕ → Option Apic
  | 0, s, _ => some s
  | n + 1, s, i => do
    let cfg : IsaIrqCfg := ⟨i, i, hwirqRising⟩
    let s ← ioApicSetupIsa s cfg
    ioApicIsaDefaultsLoop n s (i + 1)

/-- `io_apic_isa_defaults`. -/
def ioApicIsaDefaults (s : Apic) : Option Apic := ioApicIsaDefaultsLoop isaIrqCount s 0

/-- `io_apic_add`. -/
def ioApicAdd (regs : IoApicRegs) (s : Apic) (paddr gsi : ℕ) : Option Apic :=
  if s.ioApic.length < ioApicMaxCount then
    let apic : IoApic := ⟨paddr, gsi, ioApicIrqs regs paddr, ioApicId regs paddr⟩
    some { s with ioApic := s.ioApic ++ [apic] }
  else none

/-- `acpi_handle_io_apic`. -/
def acpiHandleIoApic (mem : Memory) (regs : IoApicRegs) (s : Apic) (header : ℕ) : Option Apic :=
  if s.ioApic.length = ioApicMaxCount then some s
  else ioApicAdd regs s (readLE mem (wadd header 4) 4) (readLE mem (wadd header 8) 4)

/-- The fields of `struct acpi_isa_source`. -/
structure AcpiIsaSource where
  /-- `source`. -/
  source : ℕ
  /-- `gsi`, one byte. -/
  gsi : ℕ
  /-- `flags`. -/
  flags : ℕ

/-- The packed fields of an entry, as `struct acpi_isa_source` lays them out. -/
def readIsaSource (mem : Memory) (header : ℕ) : AcpiIsaSource where
  source := (mem (wadd header 3)).toNat
  gsi := (mem (wadd header 4)).toNat
  flags := readLE mem (wadd header 5) 2

/-- The test for an override that `acpi_handle_isa_source` skips. -/
def AcpiIsaSource.Useless (e : AcpiIsaSource) : Prop :=
  e.source = e.gsi ∧ e.flags &&& isaPolarityMask = 0 ∧ e.flags &&& isaTriggerMask = 0

instance (e : AcpiIsaSource) : Decidable e.Useless :=
  inferInstanceAs (Decidable (_ ∧ _ ∧ _))

/-- The flags `acpi_handle_isa_source` computes from polarity and trigger. -/
def AcpiIsaSource.hwirqFlags (e : AcpiIsaSource) : ℕ :=
  let polarity := e.flags &&& isaPolarityMask
  let trigger := e.flags &&& isaTriggerMask
  let polarity := if polarity = 0 then isaPolarityHigh else polarity
  let trigger := if trigger = 0 then isaTriggerEdge else trigger
  if trigger = isaTriggerLevel then
    if polarity = isaPolarityHigh then hwirqHigh else hwirqLow
  else
    if polarity = isaPolarityHigh then hwirqRising else hwirqFalling

/-- `acpi_handle_isa_source`. -/
def acpiHandleIsaSource (mem : Memory) (s : Apic) (header : ℕ) : Option Apic :=
  let source := readIsaSource mem header
  if source.Useless then some s
  else ioApicSetupIsa s ⟨source.hwirqFlags, source.source, source.gsi⟩

/-- `setup_io_apic_acpi`. -/
def setupIoApicAcpi (mem : Memory) (tbl : ℕ) (regs : IoApicRegs) (fuel : ℕ) (s : Apic) :
    Option Apic := do
  let (s, _) ← acpiParseMadt mem tbl madtIoApic (acpiHandleIoApic mem regs) fuel s
  let s ← ioApicIsaDefaults s
  let (s, _) ← acpiParseMadt mem tbl madtIsaSource (acpiHandleIsaSource mem) fuel s
  some s

variable {mem : Memory} {regs : IoApicRegs} {tbl fuel gsi flags i j : ℕ} {s s' : Apic} {l : List ℕ}

/-! ### Routes -/

/-- Some APIC of the list handles `gsi`. -/
def Handles (l : List IoApic) (gsi : ℕ) : Prop :=
  ∃ a ∈ l, a.gsi ≤ gsi ∧ gsi < a.gsi + a.irqs

/-- ISA interrupt `i` goes to the pin of a registered APIC that handles `gsi`, with these flags. -/
def Routes (s : Apic) (i gsi flags : ℕ) : Prop :=
  ∃ k a, s.isaIrq i = ⟨some k, flags, gsi, gsi - a.gsi⟩ ∧ s.ioApic[k]? = some a ∧
    a.gsi ≤ gsi ∧ gsi < a.gsi + a.irqs

/-- A route has one interrupt number and one set of flags. -/
theorem Routes.unique {gsi' flags' : ℕ} (h : Routes s i gsi flags) (h' : Routes s i gsi' flags') :
    gsi = gsi' ∧ flags = flags' := by
  obtain ⟨_, _, hmap, -⟩ := h
  obtain ⟨_, _, hmap', -⟩ := h'
  have heq := IsaIrqMap.mk.inj (hmap.symm.trans hmap')
  exact ⟨heq.2.2.1, heq.2.1⟩

theorem Routes.congr (h : Routes s i gsi flags) (hapic : s'.ioApic = s.ioApic)
    (hmap : s'.isaIrq i = s.isaIrq i) : Routes s' i gsi flags := by
  obtain ⟨k, a, hk, ha⟩ := h
  exact ⟨k, a, hmap.trans hk, hapic ▸ ha⟩

/-- The search succeeds on one-byte interrupt numbers, since an APIC has at most `256` interrupts and
no sum wraps. -/
theorem ioApicFind_spec (hirqs : ∀ a ∈ s.ioApic, a.irqs ≤ 256) (hgsi : gsi < 256)
    (h : Handles s.ioApic gsi) :
    ∃ k a, ioApicFind s gsi = some k ∧ s.ioApic[k]? = some a ∧ a.gsi ≤ gsi ∧
      gsi < a.gsi + a.irqs := by
  have hsum : ∀ a ∈ s.ioApic, a.gsi ≤ gsi → wadd a.gsi a.irqs = a.gsi + a.irqs := by
    intro a ha hle
    have := hirqs a ha
    exact wadd_of_lt (by omega)
  have hsome : (ioApicFind s gsi).isSome := by
    obtain ⟨a, ha, hle, hlt⟩ := h
    rw [ioApicFind, List.findIdx?_isSome, List.any_eq_true]
    exact ⟨a, ha, by simp [hsum a ha hle, hle, hlt]⟩
  obtain ⟨k, hk⟩ := Option.isSome_iff_exists.mp hsome
  obtain ⟨hlen, htest, -⟩ := List.findIdx?_eq_some_iff_getElem.mp hk
  simp only [Bool.and_eq_true, decide_eq_true_eq] at htest
  refine ⟨k, s.ioApic[k], hk, List.getElem?_eq_getElem hlen, htest.1, ?_⟩
  rw [← hsum _ (List.getElem_mem hlen) htest.1]
  exact htest.2

/-- `io_apic_setup_isa` sets one route and leaves the others. -/
theorem ioApicSetupIsa_spec {cfg : IsaIrqCfg} (hirqs : ∀ a ∈ s.ioApic, a.irqs ≤ 256)
    (hisa : cfg.isa < isaIrqCount) (hgsi : cfg.gsi < 256) (h : Handles s.ioApic cfg.gsi) :
    ∃ s', ioApicSetupIsa s cfg = some s' ∧ s'.ioApic = s.ioApic ∧
      Routes s' cfg.isa cfg.gsi cfg.flags ∧ ∀ j, j ≠ cfg.isa → s'.isaIrq j = s.isaIrq j := by
  obtain ⟨k, a, hfind, hk, hle, hlt⟩ := ioApicFind_spec hirqs hgsi h
  let map : IsaIrqMap := ⟨some k, cfg.flags, cfg.gsi, cfg.gsi - a.gsi⟩
  refine ⟨{ s with isaIrq := Function.update s.isaIrq cfg.isa map }, ?_, rfl,
    ⟨k, a, Function.update_self .., hk, hle, hlt⟩, fun j hj => Function.update_of_ne hj _ _⟩
  rw [ioApicSetupIsa, if_pos hisa, hfind, Option.bind_eq_bind, Option.bind_some, hk,
    Option.bind_eq_bind, Option.bind_some, wsub_of_le hle (by omega)]

/-! ### What an override selects -/

/-- The polarity of an interrupt. -/
inductive Polarity
  | high
  | low
  deriving DecidableEq

/-- The trigger of an interrupt. -/
inductive Trigger
  | edge
  | level
  deriving DecidableEq

/-- The polarity in the flags, if the code is defined. The default of the ISA bus is active high. -/
def polarityOf (flags : ℕ) : Option Polarity :=
  match flags % 4 with
  | 0 => some .high
  | 1 => some .high
  | 3 => some .low
  | _ => none

/-- The trigger in the flags, if the code is defined. The default of the ISA bus is edge. -/
def triggerOf (flags : ℕ) : Option Trigger :=
  match flags / 4 % 4 with
  | 0 => some .edge
  | 1 => some .edge
  | 3 => some .level
  | _ => none

/-- The `HWIRQ` flag of a polarity and a trigger. -/
def hwirqOf : Polarity → Trigger → ℕ
  | .high, .level => hwirqHigh
  | .low, .level => hwirqLow
  | .high, .edge => hwirqRising
  | .low, .edge => hwirqFalling

/-- The `HWIRQ` flag that polarity and trigger select. Codes that have no meaning are taken for active low
and for edge. -/
def hwirqSelected (flags : ℕ) : ℕ :=
  hwirqOf ((polarityOf flags).getD .low) ((triggerOf flags).getD .edge)

theorem and_polarityMask (x : ℕ) : x &&& isaPolarityMask = x % 4 :=
  Nat.and_two_pow_sub_one_eq_mod x 2

theorem and_triggerMask (x : ℕ) : x &&& isaTriggerMask = x / 4 % 4 * 4 := by
  have hshift : isaTriggerMask = (2 ^ 2 - 1) <<< 2 := rfl
  apply Nat.eq_of_testBit_eq
  intro i
  rw [hshift, Nat.testBit_and, Nat.testBit_shiftLeft, show x / 4 % 4 * 4 = x / 4 % 4 * 2 ^ 2 from rfl,
    Nat.testBit_mul_two_pow, show x / 4 % 4 = x / 2 ^ 2 % 2 ^ 2 from rfl, Nat.testBit_mod_two_pow,
    Nat.testBit_div_two_pow, Nat.testBit_two_pow_sub_one]
  by_cases hi : 2 ≤ i
  · simp [hi, Bool.and_comm]
  · simp [hi]

/-- The source computes the flag that polarity and trigger select. -/
theorem AcpiIsaSource.hwirqFlags_eq (e : AcpiIsaSource) : e.hwirqFlags = hwirqSelected e.flags := by
  rw [hwirqFlags, hwirqSelected, polarityOf, triggerOf, and_polarityMask, and_triggerMask]
  have hpolarity : e.flags % 4 < 4 := Nat.mod_lt _ (by decide)
  have htrigger : e.flags / 4 % 4 < 4 := Nat.mod_lt _ (by decide)
  generalize e.flags % 4 = polarity at hpolarity ⊢
  generalize e.flags / 4 % 4 = trigger at htrigger ⊢
  interval_cases polarity <;> interval_cases trigger <;> rfl

/-! ### The three passes -/

/-- The APIC an entry describes. -/
def ioApicOf (mem : Memory) (regs : IoApicRegs) (header : ℕ) : IoApic :=
  let paddr := readLE mem (wadd header 4) 4
  ⟨paddr, readLE mem (wadd header 8) 4, ioApicIrqs regs paddr, ioApicId regs paddr⟩

theorem irqs_ioApicOf_le (mem : Memory) (regs : IoApicRegs) (header : ℕ) :
    (ioApicOf mem regs header).irqs ≤ 256 := by
  have hand : (ioApicRead regs (readLE mem (wadd header 4) 4) 0x01 >>> 16) &&& 0xFF ≤ 0xFF :=
    Nat.and_le_right
  simp only [ioApicOf, ioApicIrqs]
  omega

/-- The first pass registers APICs in the order of the table, as many as there is room for. -/
theorem foldlM_acpiHandleIoApic (l : List ℕ) (hlen : s.ioApic.length ≤ ioApicMaxCount) :
    l.foldlM (acpiHandleIoApic mem regs) s = some
      ⟨s.ioApic ++ (l.map (ioApicOf mem regs)).take (ioApicMaxCount - s.ioApic.length),
        s.isaIrq⟩ := by
  induction l generalizing s with
  | nil => simp
  | cons p l ih =>
    rw [List.foldlM_cons, acpiHandleIoApic, List.map_cons]
    by_cases hfull : s.ioApic.length = ioApicMaxCount
    · rw [if_pos hfull, Option.bind_eq_bind, Option.bind_some, ih hlen, hfull]
      simp
    · have hroom : s.ioApic.length < ioApicMaxCount := by omega
      obtain ⟨m, hm⟩ := Nat.exists_eq_succ_of_ne_zero
        (show ioApicMaxCount - s.ioApic.length ≠ 0 by omega)
      have hm' : ioApicMaxCount - (s.ioApic.length + 1) = m := by omega
      rw [if_neg hfull, ioApicAdd, if_pos hroom, Option.bind_eq_bind, Option.bind_some, ih (by simpa)]
      simp only [List.length_append, List.length_singleton, hm', hm, List.take_succ_cons,
        List.append_assoc, List.singleton_append]
      rfl

/-- The second pass sends every interrupt to the pin of interrupt `HWIRQ_RISING`, with its own number
for flags. -/
theorem ioApicIsaDefaultsLoop_spec {n : ℕ} (hirqs : ∀ a ∈ s.ioApic, a.irqs ≤ 256)
    (h : Handles s.ioApic hwirqRising) (hn : i + n = isaIrqCount) :
    ∃ s', ioApicIsaDefaultsLoop n s i = some s' ∧ s'.ioApic = s.ioApic ∧
      (∀ j, i ≤ j → j < isaIrqCount → Routes s' j hwirqRising j) ∧
      ∀ j, j < i → s'.isaIrq j = s.isaIrq j := by
  induction n generalizing s i with
  | zero => exact ⟨s, rfl, rfl, fun j h₁ h₂ => by omega, fun _ _ => rfl⟩
  | succ n ih =>
    obtain ⟨s₁, hret₁, hapic₁, hroute, hother⟩ := @ioApicSetupIsa_spec s ⟨i, i, hwirqRising⟩ hirqs
      (show i < isaIrqCount by omega) (show hwirqRising < 256 by decide) h
    obtain ⟨s', hret, hapic, hroutes, hlow⟩ :=
      ih (s := s₁) (i := i + 1) (hapic₁ ▸ hirqs) (hapic₁ ▸ h) (by omega)
    refine ⟨s', ?_, hapic.trans hapic₁, ?_, ?_⟩
    · rw [ioApicIsaDefaultsLoop, hret₁]
      exact hret
    · intro j h₁ h₂
      rcases Nat.eq_or_lt_of_le h₁ with rfl | h₁
      · exact hroute.congr hapic (hlow i (Nat.lt_succ_self i))
      · exact hroutes j h₁ h₂
    · intro j hj
      rw [hlow j (by omega), hother j (by dsimp only; omega)]

/-- The third pass sets the routes of the overrides it does not skip and leaves the others. -/
theorem foldlM_acpiHandleIsaSource (hirqs : ∀ a ∈ s.ioApic, a.irqs ≤ 256)
    (hsource : ∀ p ∈ l, (readIsaSource mem p).source < isaIrqCount)
    (hgsi : ∀ p ∈ l, Handles s.ioApic (readIsaSource mem p).gsi)
    (hnd : (l.map fun p => (readIsaSource mem p).source).Nodup) :
    ∃ s', l.foldlM (acpiHandleIsaSource mem) s = some s' ∧ s'.ioApic = s.ioApic ∧
      (∀ p ∈ l, ¬ (readIsaSource mem p).Useless → Routes s' (readIsaSource mem p).source
        (readIsaSource mem p).gsi (readIsaSource mem p).hwirqFlags) ∧
      ∀ j, (∀ p ∈ l, (readIsaSource mem p).source = j → (readIsaSource mem p).Useless) →
        s'.isaIrq j = s.isaIrq j := by
  induction l generalizing s with
  | nil => exact ⟨s, rfl, rfl, by simp, fun _ _ => rfl⟩
  | cons p l ih =>
    obtain ⟨hfirst, hnd'⟩ := List.nodup_cons.mp hnd
    have hsource' := fun q hq => hsource q (List.mem_cons_of_mem p hq)
    have hgsi' := fun q hq => hgsi q (List.mem_cons_of_mem p hq)
    rw [List.foldlM_cons, acpiHandleIsaSource]
    by_cases huseless : (readIsaSource mem p).Useless
    · rw [if_pos huseless, Option.bind_eq_bind, Option.bind_some]
      obtain ⟨s', hret, hapic, hroutes, hother⟩ := ih hirqs hsource' hgsi' hnd'
      refine ⟨s', hret, hapic, ?_, ?_⟩
      · intro q hq huse
        rcases List.mem_cons.mp hq with rfl | hq
        · exact absurd huseless huse
        · exact hroutes q hq huse
      · intro j hj
        exact hother j fun q hq => hj q (List.mem_cons_of_mem p hq)
    · have hbyte : (readIsaSource mem p).gsi < 256 := (mem (wadd p 4)).toNat_lt
      obtain ⟨s₁, hret₁, hapic₁, hroute, hother₁⟩ := @ioApicSetupIsa_spec s
        ⟨(readIsaSource mem p).hwirqFlags, (readIsaSource mem p).source, (readIsaSource mem p).gsi⟩
        hirqs (hsource p List.mem_cons_self) hbyte (hgsi p List.mem_cons_self)
      rw [if_neg huseless, hret₁, Option.bind_eq_bind, Option.bind_some]
      obtain ⟨s', hret, hapic, hroutes, hother⟩ :=
        ih (s := s₁) (hapic₁ ▸ hirqs) hsource' (hapic₁ ▸ hgsi') hnd'
      have hkeep : s'.isaIrq (readIsaSource mem p).source =
          s₁.isaIrq (readIsaSource mem p).source :=
        hother _ fun q hq heq => absurd (List.mem_map.mpr ⟨q, hq, heq⟩) hfirst
      refine ⟨s', hret, hapic.trans hapic₁, ?_, ?_⟩
      · intro q hq huse
        rcases List.mem_cons.mp hq with rfl | hq
        · exact hroute.congr hapic hkeep
        · exact hroutes q hq huse
      · intro j hj
        rw [hother j fun q hq => hj q (List.mem_cons_of_mem p hq)]
        exact hother₁ j fun heq => huseless (hj p List.mem_cons_self heq.symm)

/-! ### The routing map -/

/-- The APICs that are registered from a table with the entries `l`. -/
def registered (mem : Memory) (regs : IoApicRegs) (l : List ℕ) : List IoApic :=
  ((madtEntries mem madtIoApic l).map (ioApicOf mem regs)).take ioApicMaxCount

/-- A table whose walk ends, whose registered APICs handle all ISA interrupts and those the overrides
name, and whose overrides are for different ISA interrupts. -/
structure RoutableMadt (mem : Memory) (tbl : ℕ) (regs : IoApicRegs) (l : List ℕ) : Prop where
  walk : MadtWalk mem (madtEnd mem tbl) (wadd tbl sizeofAcpiMadt) l
  handles_isa : ∀ gsi < isaIrqCount, Handles (registered mem regs l) gsi
  handles_source : ∀ p ∈ madtEntries mem madtIsaSource l,
    Handles (registered mem regs l) (readIsaSource mem p).gsi
  source_lt : ∀ p ∈ madtEntries mem madtIsaSource l, (readIsaSource mem p).source < isaIrqCount
  source_nodup : ((madtEntries mem madtIsaSource l).map fun p => (readIsaSource mem p).source).Nodup

/-- The routing map: overrides that are not skipped take effect, and every other interrupt keeps its
default. -/
theorem setupIoApicAcpi_spec (h : RoutableMadt mem tbl regs l) (hfuel : l.length < fuel) :
    ∃ s, setupIoApicAcpi mem tbl regs fuel .init = some s ∧ s.ioApic = registered mem regs l ∧
      (∀ p ∈ madtEntries mem madtIsaSource l, ¬ (readIsaSource mem p).Useless →
        Routes s (readIsaSource mem p).source (readIsaSource mem p).gsi
          (readIsaSource mem p).hwirqFlags) ∧
      ∀ i < isaIrqCount, (∀ p ∈ madtEntries mem madtIsaSource l,
        (readIsaSource mem p).source = i → (readIsaSource mem p).Useless) →
          Routes s i hwirqRising i := by
  have hreg : (madtEntries mem madtIoApic l).foldlM (acpiHandleIoApic mem regs) .init =
      some ⟨registered mem regs l, Apic.init.isaIrq⟩ :=
    foldlM_acpiHandleIoApic _ (Nat.zero_le ioApicMaxCount)
  have hirqs : ∀ a ∈ registered mem regs l, a.irqs ≤ 256 := by
    intro a ha
    obtain ⟨p, -, rfl⟩ := List.mem_map.mp (List.mem_of_mem_take ha)
    exact irqs_ioApicOf_le mem regs p
  obtain ⟨s₁, hret₁, hapic₁, hroutes₁, -⟩ :=
    @ioApicIsaDefaultsLoop_spec 0 ⟨registered mem regs l, Apic.init.isaIrq⟩ isaIrqCount hirqs
      (h.handles_isa _ (by decide)) (Nat.zero_add _)
  obtain ⟨s, hret, hapic, hroutes, hother⟩ := @foldlM_acpiHandleIsaSource mem s₁
    (madtEntries mem madtIsaSource l) (hapic₁ ▸ hirqs) h.source_lt (hapic₁ ▸ h.handles_source)
    h.source_nodup
  refine ⟨s, ?_, hapic.trans hapic₁, hroutes, ?_⟩
  · rw [setupIoApicAcpi, acpiParseMadt_eq h.walk hfuel, hreg]
    rw [Option.map_some, Option.bind_eq_bind, Option.bind_some]
    dsimp only
    rw [ioApicIsaDefaults, hret₁, Option.bind_eq_bind, Option.bind_some,
      acpiParseMadt_eq h.walk hfuel, hret]
    rfl
  · intro i hi huseless
    exact (hroutes₁ i (Nat.zero_le i) hi).congr hapic (hother i huseless)

/-- **The routes are those the table asks for exactly when every ISA interrupt but `1` has an override
that is not skipped.** Without one the interrupt keeps its default, which is the route of interrupt
`1`. -/
theorem setupIoApicAcpi_routes_iff (h : RoutableMadt mem tbl regs l) (hfuel : l.length < fuel) :
    ∃ s, setupIoApicAcpi mem tbl regs fuel .init = some s ∧ s.ioApic = registered mem regs l ∧
      (((∀ i < isaIrqCount,
          (∀ p ∈ madtEntries mem madtIsaSource l, (readIsaSource mem p).source ≠ i) →
          Routes s i i hwirqRising) ∧
        ∀ p ∈ madtEntries mem madtIsaSource l, Routes s (readIsaSource mem p).source
          (readIsaSource mem p).gsi (hwirqSelected (readIsaSource mem p).flags)) ↔
      ∀ i < isaIrqCount, i ≠ 1 → ∃ p ∈ madtEntries mem madtIsaSource l,
        (readIsaSource mem p).source = i ∧ ¬ (readIsaSource mem p).Useless) := by
  obtain ⟨s, hret, hapic, hroutes, hdefault⟩ := setupIoApicAcpi_spec h hfuel
  simp only [← AcpiIsaSource.hwirqFlags_eq]
  refine ⟨s, hret, hapic, ?_⟩
  constructor
  · rintro ⟨hnone, hsome⟩ i hi hne
    by_contra hno
    push Not at hno
    have hkept := hdefault i hi hno
    -- the claimed route and the default have different interrupt numbers
    by_cases hover : ∃ p ∈ madtEntries mem madtIsaSource l, (readIsaSource mem p).source = i
    · obtain ⟨p, hp, rfl⟩ := hover
      have hgsi := ((hsome p hp).unique hkept).1
      exact hne ((hno p hp rfl).1.trans hgsi)
    · push Not at hover
      exact hne ((hnone i hi hover).unique hkept).1
  · intro hall
    constructor
    · intro i hi hnone
      rcases eq_or_ne i 1 with rfl | hne
      · exact hdefault 1 hi fun p hp heq => absurd heq (hnone p hp)
      · obtain ⟨p, hp, heq, -⟩ := hall i hi hne
        exact absurd heq (hnone p hp)
    · intro p hp
      by_cases huseless : (readIsaSource mem p).Useless
      · -- overrides have different sources, so a skipped one can only be for interrupt `1`
        have hunique : ∀ q ∈ madtEntries mem madtIsaSource l,
            (readIsaSource mem q).source = (readIsaSource mem p).source → q = p :=
          fun q hq heq => List.inj_on_of_nodup_map h.source_nodup hq hp heq
        have hone : (readIsaSource mem p).source = 1 := by
          by_contra hne
          obtain ⟨q, hq, heq, huse⟩ := hall _ (h.source_lt p hp) hne
          exact huse (hunique q hq heq ▸ huseless)
        have hkept := hdefault _ (h.source_lt p hp) fun q hq heq => hunique q hq heq ▸ huseless
        have hflags : (readIsaSource mem p).hwirqFlags = hwirqRising := by
          simp only [AcpiIsaSource.hwirqFlags, huseless.2.1, huseless.2.2]
          decide
        rw [hflags, ← huseless.1]
        rwa [hone] at hkept ⊢
      · exact hroutes p hp huseless

/-- Source, interrupt and flags of overrides for all ISA interrupts but `1`. -/
def overrides : List (UInt8 × UInt8 × UInt8) :=
  [(0, 2, 0), (2, 0, 5), (3, 3, 5), (4, 4, 5), (5, 21, 0xF), (6, 6, 5), (7, 7, 5), (8, 8, 7),
    (9, 20, 0xD), (10, 10, 0xF), (11, 11, 0xF), (12, 12, 5), (13, 13, 5), (14, 14, 5), (15, 15, 5)]

/-- A table at address `0` with an IO APIC whose interrupts begin at `0`, and these overrides. -/
def overridesMadt : Memory := fun a =>
  if a = 4 then 206 else if a = 44 then 1 else if a = 45 then 12 else if a = 50 then 0xC0
  else if a = 51 then 0xFE else if a < 56 then 0
  else (overrides.flatMap fun o => [2, 10, 0, o.1, o.2.1, o.2.2, 0, 0, 0, 0]).getD (a - 56) 0

/-- An IO APIC with `24` interrupts. -/
def oneApicRegs : IoApicRegs := fun _ reg => if reg = 1 then 0x00170011 else 0

theorem routableMadt_overridesMadt : RoutableMadt overridesMadt 0 oneApicRegs
    [44, 56, 66, 76, 86, 96, 106, 116, 126, 136, 146, 156, 166, 176, 186, 196] where
  walk := by
    simp only [MadtWalk]
    decide +kernel
  handles_isa := by
    unfold Handles
    decide +kernel
  handles_source := by
    unfold Handles
    decide +kernel
  source_lt := by decide +kernel
  source_nodup := by decide +kernel

/-- Every interrupt but `1` has an override, and they all take effect. -/
theorem setupIoApicAcpi_routes_iff_overridesMadt : ∃ s,
    setupIoApicAcpi overridesMadt 0 oneApicRegs 17 .init = some s ∧ Routes s 0 2 hwirqRising ∧
      Routes s 1 1 hwirqRising ∧ Routes s 5 21 hwirqLow ∧ Routes s 8 8 hwirqFalling ∧
      Routes s 9 20 hwirqHigh := by
  obtain ⟨s, hret, -, hiff⟩ :=
    setupIoApicAcpi_routes_iff routableMadt_overridesMadt (show 16 < 17 by decide)
  obtain ⟨hdefault, hroutes⟩ := hiff.mpr (by decide +kernel)
  exact ⟨s, hret, hroutes 56 (by decide +kernel), hdefault 1 (by decide) (by decide +kernel),
    hroutes 96 (by decide +kernel), hroutes 126 (by decide +kernel), hroutes 136 (by decide +kernel)⟩

/-! ### A table without overrides -/

/-- A table at address `0` with one entry, an IO APIC whose interrupts begin at `0`. -/
def oneApicMadt : Memory := fun p =>
  match p with
  | 4 => 56
  | 44 => 1
  | 45 => 12
  | 50 => 0xC0
  | 51 => 0xFE
  | _ => 0

theorem registered_oneApicMadt :
    registered oneApicMadt oneApicRegs [44] = [⟨0xFEC00000, 0, 24, 0⟩] := by
  decide

theorem routableMadt_oneApicMadt : RoutableMadt oneApicMadt 0 oneApicRegs [44] where
  walk := ⟨by decide, by decide, show (56 : ℕ) ≤ 56 from le_rfl⟩
  handles_isa := by
    intro gsi hgsi
    rw [registered_oneApicMadt]
    exact ⟨_, List.mem_singleton_self _, Nat.zero_le gsi, hgsi.trans (by decide)⟩
  handles_source := by simp [madtEntries, madtType, oneApicMadt]
  source_lt := by simp [madtEntries, madtType, oneApicMadt]
  source_nodup := by simp [madtEntries, madtType, oneApicMadt]

/-- **Interrupt `0` is routed to the pin of interrupt `1`, without flags**, by a table that has no
overrides. -/
theorem setupIoApicAcpi_default_misrouted : ∃ s,
    RoutableMadt oneApicMadt 0 oneApicRegs [44] ∧
    setupIoApicAcpi oneApicMadt 0 oneApicRegs 2 .init = some s ∧
    (∀ p ∈ madtEntries oneApicMadt madtIsaSource [44],
      (readIsaSource oneApicMadt p).source ≠ 0) ∧
    Routes s 0 1 0 ∧ ¬ Routes s 0 0 hwirqRising := by
  obtain ⟨s, hret, -, -, hdefault⟩ :=
    setupIoApicAcpi_spec routableMadt_oneApicMadt (show 1 < 2 by decide)
  have hnone : ∀ p ∈ madtEntries oneApicMadt madtIsaSource [44],
      (readIsaSource oneApicMadt p).source ≠ 0 := by
    simp [madtEntries, madtType, oneApicMadt]
  have hroute := hdefault 0 (by decide) fun p hp heq => absurd heq (hnone p hp)
  exact ⟨s, routableMadt_oneApicMadt, hret, hnone, hroute,
    fun h => absurd (h.unique hroute).1 (by decide)⟩

end Auos
