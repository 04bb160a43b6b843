import Auos.Kernel
import Auos.Task.Gdt

/-!
# Gate descriptors

`init_gate` of `idt.c`, its two callers, and what the processor reads from the gates they build when it
takes an interrupt. As in a segment descriptor the fields are cut up: the offset of the handler stands
at both ends of the 64-bit entry, with selector and attributes between its halves.

## Main definitions

* `initGate`, `initIsrGate`, `initTrapGate` — the entries the code builds
* `gateOffset`, `gateSelector`, `gateAttributes` — what the processor reads

## Main results

* `initGate_decodes` — a gate decodes to what it was built from
* `initIsrGate_enters`, `initTrapGate_enters` — where the gates lead, and who may use them
* `descriptors_decode` — segments and gates together
-/

namespace Auos

/-! ### `idt.h` -/

/-- `IDT_USER`: the privilege level of user code. `IDT_KERNEL` is `0`. -/
abbrev idtUser : ℕ := 0x6000

/-- `INT_GATE`: present, a 32-bit interrupt gate. -/
abbrev intGate : ℕ := 0x8E00

/-- `TRAP_GATE`: present, a 32-bit trap gate. -/
abbrev trapGate : ℕ := 0x8F00

/-- `init_gate`: the value stored in `entry->entry`. -/
def initGate (offset selector type : ℕ) : ℕ :=
  let low := (offset &&& 0xFFFF) ||| wrap (selector <<< 16)
  let high := (offset &&& 0xFFFF0000) ||| type
  (high <<< 32) ||| low

/-- `init_isr_gate`. -/
def initIsrGate (isr dpl : ℕ) : ℕ := initGate isr kernelCodeSelector (intGate ||| dpl)

/-- `init_trap_gate`. -/
def initTrapGate (sc dpl : ℕ) : ℕ := initGate sc kernelCodeSelector (trapGate ||| dpl)

/-! ### What the processor reads -/

/-- The offset of the handler: bits 0 to 15 and 48 to 63. -/
def gateOffset (e : ℕ) : ℕ := e % 2 ^ 16 + e / 2 ^ 48 % 2 ^ 16 * 2 ^ 16

/-- The selector of the segment of the handler: bits 16 to 31. -/
def gateSelector (e : ℕ) : ℕ := e / 2 ^ 16 % 2 ^ 16

/-- The attribute word: bits 32 to 47. -/
def gateAttributes (e : ℕ) : ℕ := e / 2 ^ 32 % 2 ^ 16

/-- The type in an attribute word. It tells interrupt gates, which disable interrupts, from trap
gates. -/
def gateType (attributes : ℕ) : ℕ := attributes / 2 ^ 8 % 2 ^ 5

/-- The privilege level that may use the gate by an instruction. -/
def gateDpl (attributes : ℕ) : ℕ := attributes / 2 ^ 13 % 2 ^ 2

/-- The present bit. -/
def gatePresent (attributes : ℕ) : Prop := attributes / 2 ^ 15 % 2 = 1

variable {offset selector type dpl : ℕ}

/-! ### Gates -/

/-- **The entry that `init_gate` builds**, field by field. -/
theorem initGate_eq (hoffset : offset < 2 ^ 32) (hselector : selector < 2 ^ 16)
    (htype : type < 2 ^ 16) :
    initGate offset selector type =
      (offset / 2 ^ 16 * 2 ^ 16 + type) * 2 ^ 32 + (selector * 2 ^ 16 + offset % 2 ^ 16) := by
  have ho₁ : offset &&& 0xFFFF = offset % 2 ^ 16 := Nat.and_two_pow_sub_one_eq_mod offset 16
  have ho₂ : offset &&& 0xFFFF0000 = (offset / 2 ^ 16) <<< 16 := by
    have hmask := and_shiftLeft_mask offset 16 16
    rwa [Nat.mod_eq_of_lt (show offset / 2 ^ 16 < 2 ^ 16 by omega)] at hmask
  have hselector' : wrap (selector <<< 16) = selector <<< 16 := by
    rw [Nat.shiftLeft_eq]
    exact wrap_of_lt (by omega)
  have hlow : offset % 2 ^ 16 ||| selector <<< 16 = selector * 2 ^ 16 + offset % 2 ^ 16 :=
    or_shiftLeft (Nat.mod_lt _ (Nat.two_pow_pos 16)) _
  have hhigh : (offset / 2 ^ 16) <<< 16 ||| type = offset / 2 ^ 16 * 2 ^ 16 + type := by
    rw [Nat.or_comm, or_shiftLeft htype]
  unfold initGate
  dsimp only
  rw [ho₁, ho₂, hselector', hlow, hhigh, Nat.or_comm, or_shiftLeft (by omega)]

/-- **A gate decodes to what was encoded**: offset, selector and attribute word. -/
theorem initGate_decodes (hoffset : offset < 2 ^ 32) (hselector : selector < 2 ^ 16)
    (htype : type < 2 ^ 16) :
    gateOffset (initGate offset selector type) = offset ∧
      gateSelector (initGate offset selector type) = selector ∧
      gateAttributes (initGate offset selector type) = type := by
  rw [initGate_eq hoffset hselector htype, gateOffset, gateSelector, gateAttributes]
  generalize he :
    (offset / 2 ^ 16 * 2 ^ 16 + type) * 2 ^ 32 + (selector * 2 ^ 16 + offset % 2 ^ 16) = e
  have hlow : e % 2 ^ 16 = offset % 2 ^ 16 := by omega
  have hhigh : e / 2 ^ 48 = offset / 2 ^ 16 := by omega
  refine ⟨?_, ?_, ?_⟩
  · rw [hlow, hhigh]
    omega
  · omega
  · omega

/-- An attribute word: a gate type in the upper byte, which is put together with a privilege level. -/
theorem gate_or_dpl (hdpl : dpl < 2 ^ 2) {gate : ℕ} (hgate : gate / 2 ^ 13 % 2 ^ 2 = 0)
    (hlt : gate < 2 ^ 16) :
    (gate ||| dpl <<< 13) < 2 ^ 16 ∧ gateType (gate ||| dpl <<< 13) = gateType gate ∧
      gateDpl (gate ||| dpl <<< 13) = dpl ∧
      (gatePresent (gate ||| dpl <<< 13) ↔ gatePresent gate) := by
  -- the gate is its upper bit and the 13 bits below the privilege level
  have hupper : gate = (gate / 2 ^ 15) <<< 15 ||| gate % 2 ^ 13 := by
    rw [Nat.or_comm, or_shiftLeft (by omega)]
    omega
  have hsum : gate ||| dpl <<< 13 = gate + dpl * 2 ^ 13 := by
    have hsort : ∀ a b c : ℕ, (a ||| b) ||| c = (b ||| c) ||| a := by
      intro a b c
      ac_rfl
    conv_lhs => rw [hupper]
    rw [hsort, or_shiftLeft (n := 13) (by omega), or_shiftLeft (n := 15) (by omega)]
    omega
  rw [hsum, gateType, gateType, gateDpl, gatePresent, gatePresent]
  refine ⟨?_, ?_, ?_, ?_⟩
  · omega
  · omega
  · omega
  · omega

/-- What the processor finds in a gate to the code segment of the kernel. -/
theorem initGate_enters (hoffset : offset < 2 ^ 32) (hdpl : dpl < 2 ^ 2) {gate : ℕ}
    (hgate : gate / 2 ^ 13 % 2 ^ 2 = 0) (hlt : gate < 2 ^ 16) (hpresent : gatePresent gate) :
    let e := initGate offset kernelCodeSelector (gate ||| dpl <<< 13)
    gateOffset e = offset ∧ gateSelector e = 8 ∧ gatePresent (gateAttributes e) ∧
      gateType (gateAttributes e) = gateType gate ∧ gateDpl (gateAttributes e) = dpl := by
  intro e
  obtain ⟨hword, htype, hlevel, hpresent'⟩ := gate_or_dpl hdpl hgate hlt
  obtain ⟨hoff, hsel, hattr⟩ :=
    initGate_decodes hoffset (show kernelCodeSelector < 2 ^ 16 by decide) hword
  have hattr' : gateAttributes e = gate ||| dpl <<< 13 := hattr
  rw [hattr', htype, hlevel, hpresent']
  exact ⟨hoff, hsel, hpresent, rfl, rfl⟩

/-- **An interrupt gate leads to its handler in the code segment of the kernel**, and is open to the
privilege level it was made for. -/
theorem initIsrGate_enters (hoffset : offset < 2 ^ 32) (hdpl : dpl < 2 ^ 2) :
    let e := initIsrGate offset (dpl <<< 13)
    gateOffset e = offset ∧ gateSelector e = 8 ∧ gatePresent (gateAttributes e) ∧
      gateType (gateAttributes e) = 14 ∧ gateDpl (gateAttributes e) = dpl :=
  initGate_enters hoffset hdpl (by decide) (by decide) (show intGate / 2 ^ 15 % 2 = 1 by decide)

/-- **A trap gate leads to its handler in the code segment of the kernel**, and is open to the
privilege level it was made for. -/
theorem initTrapGate_enters (hoffset : offset < 2 ^ 32) (hdpl : dpl < 2 ^ 2) :
    let e := initTrapGate offset (dpl <<< 13)
    gateOffset e = offset ∧ gateSelector e = 8 ∧ gatePresent (gateAttributes e) ∧
      gateType (gateAttributes e) = 15 ∧ gateDpl (gateAttributes e) = dpl :=
  initGate_enters hoffset hdpl (by decide) (by decide) (show trapGate / 2 ^ 15 % 2 = 1 by decide)

/-- The gates that user code may use. -/
example : idtUser = 3 <<< 13 := rfl

/-- **Segment and gate descriptors decode to what was encoded.** -/
theorem descriptors_decode :
    (∀ limit base type, limit < 2 ^ 20 → base < 2 ^ 32 →
      initGdtSegment limit base type < 2 ^ 64 ∧
      descriptorBase (initGdtSegment limit base type) = base ∧
      descriptorLimitField (initGdtSegment limit base type) = limit ∧
      descriptorAttributes (initGdtSegment limit base type) = type &&& 0xF0FF00) ∧
    ∀ offset selector type, offset < 2 ^ 32 → selector < 2 ^ 16 → type < 2 ^ 16 →
      initGate offset selector type < 2 ^ 64 ∧
      gateOffset (initGate offset selector type) = offset ∧
      gateSelector (initGate offset selector type) = selector ∧
      gateAttributes (initGate offset selector type) = type := by
  constructor
  · intro limit base type hlimit hbase
    refine ⟨?_, initGdtSegment_decodes hlimit hbase type⟩
    rw [initGdtSegment_eq hlimit hbase]
    omega
  · intro offset selector type hoffset hselector htype
    refine ⟨?_, initGate_decodes hoffset hselector htype⟩
    rw [initGate_eq hoffset hselector htype]
    omega

/-- The data segment of the kernel, and the gate of a handler. -/
theorem descriptors_decode_kernel :
    descriptorLimitField (initGdtSegment 0xFFFFF 0 0xC09200) = 0xFFFFF ∧
      gateOffset (initGate 0xC0101230 kernelCodeSelector intGate) = 0xC0101230 := by
  obtain ⟨hsegment, hgate⟩ := descriptors_decode
  exact ⟨(hsegment 0xFFFFF 0 0xC09200 (by decide) (by decide)).2.2.1,
    (hgate 0xC0101230 kernelCodeSelector intGate (by decide) (by decide) (by decide)).2.1⟩

end Auos
