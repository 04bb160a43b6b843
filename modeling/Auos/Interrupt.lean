import Auos.Lib.Ia32
import Auos.Task.Idt
import Mathlib.Algebra.Order.BigOperators.Group.List

/-!
# Interrupt entries

`raw_irq_handler.S`, which makes a `struct arch_irq_context` of what the processor pushes, and
`setup_idt` of `setup.c`, which leads each of the 256 vectors to its entry. Some exceptions push an
error code, and the entries of the others push a zero in its place. Which do is a property of the
processor; the entries are right on the processors that agree with them, and on no others.

The entries are aligned to 16 bytes. Their lengths are the assembler's choice of encodings.

## Main definitions

* `rawIrqHandlerEntry`, `commonIrqHandlerSave`, `commonIrqHandlerRestore` — the code
* `ArchIrqContext` — what `raw_irq_handler` gets
* `setupIdt`, `entryAddr` — the gates, and where the assembler puts the entries

## Main results

* `rawIrqHandlerEntry_context_iff` — the context is right where processor and entry agree
* `commonIrqHandler_resumes` — what is resumed is what the context says
* `setupIdt_leads` — every gate leads to its entry, with interrupts disabled
-/

namespace Auos

open Ia32

/-! ### `raw_irq_handler.S` -/

/-- The exceptions whose entries push no zero. -/
def entryHasError (irq : ℕ) : Bool :=
  !(irq != 8 && irq != 17 && (decide (irq > 14) || decide (irq < 10)))

theorem entryHasError_iff (irq : ℕ) :
    entryHasError irq = true ↔ irq = 8 ∨ (10 ≤ irq ∧ irq ≤ 14) ∨ irq = 17 := by
  simp only [entryHasError, Bool.not_eq_true', Bool.and_eq_false_iff, Bool.or_eq_false_iff,
    bne_eq_false_iff_eq, decide_eq_false_iff_not]
  omega

/-- The entry of one vector, up to the jump. -/
def rawIrqHandlerEntry (irq : ℕ) : List Instr :=
  (if !entryHasError irq then [.pushImm 0] else []) ++ [.pushImm (BitVec.ofNat 32 irq)]

/-- `common_irq_handler`, up to the call of `raw_irq_handler`. -/
def commonIrqHandlerSave : List Instr :=
  [.push .eax, .push .ebx, .push .ecx, .push .edx, .push .ebp, .push .edi, .push .esi, .push .esp]

/-- `common_irq_handler` from the second pop after the call on. -/
def commonIrqHandlerReturn : List Instr :=
  [.esi, .edi, .ebp, .edx, .ecx, .ebx, .eax].map .pop ++ [.addImm 8 .esp, .iret]

/-- `common_irq_handler` after the call. -/
def commonIrqHandlerRestore : List Instr := .pop .esp :: commonIrqHandlerReturn

/-- `struct arch_irq_context`. -/
structure ArchIrqContext where
  /-- The general registers. -/
  (esi edi ebp edx ecx ebx eax : Word)
  /-- The vector and the error code. -/
  (irq err : Word)
  /-- Where the interrupted code goes on. -/
  (eip cs eflags : Word)

/-- The fields in the order of the declaration. -/
def ArchIrqContext.words (c : ArchIrqContext) : List Word :=
  [c.esi, c.edi, c.ebp, c.edx, c.ecx, c.ebx, c.eax, c.irq, c.err, c.eip, c.cs, c.eflags]

/-- The context of an interrupted machine. -/
def irqContext (s : State) (irq : ℕ) (err : Word) : ArchIrqContext where
  esi := s.reg .esi
  edi := s.reg .edi
  ebp := s.reg .ebp
  edx := s.reg .edx
  ecx := s.reg .ecx
  ebx := s.reg .ebx
  eax := s.reg .eax
  irq := BitVec.ofNat 32 irq
  err := err
  eip := s.eip
  cs := s.cs.setWidth 32
  eflags := s.eflags

/-- The first instruction of `raw_irq_handler`; the call has pushed a return address. -/
def enterHandler (irq : ℕ) (s : State) (ret : Word) : State :=
  (run (rawIrqHandlerEntry irq ++ commonIrqHandlerSave) s).push ret

/-- The registers are pushed, and then a pointer to them. -/
theorem run_commonIrqHandlerSave {s : State} {ws : List Word} (h : s.OnTop ws)
    (hlen : ws.length < 2 ^ 10) (ret : Word) :
    let e := (run commonIrqHandlerSave s).push ret
    e.peek 4 = s.reg .esp - 28 ∧ e.reg .esp = s.reg .esp - 36 ∧
      e.mem.Words (s.reg .esp - 28) ([s.reg .esi, s.reg .edi, s.reg .ebp, s.reg .edx, s.reg .ecx,
        s.reg .ebx, s.reg .eax] ++ ws) := by
  intro e
  have he : e = [s.reg .eax, s.reg .ebx, s.reg .ecx, s.reg .edx, s.reg .ebp, s.reg .edi, s.reg .esi,
      s.reg .esp - 4 - 4 - 4 - 4 - 4 - 4 - 4, ret].foldl State.push s := rfl
  have hesp : e.reg .esp = s.reg .esp - 36 := by
    rw [he]
    exact pushAll_esp s _
  have hwords : e.mem.Words (s.reg .esp - 36)
      ([ret, s.reg .esp - 4 - 4 - 4 - 4 - 4 - 4 - 4] ++ ([s.reg .esi, s.reg .edi, s.reg .ebp,
        s.reg .edx, s.reg .ecx, s.reg .ebx, s.reg .eax] ++ ws)) := by
    rw [← hesp, he]
    refine h.pushAll ?_
    simp only [List.length_cons, List.length_nil]
    omega
  obtain ⟨⟨-, hptr, -⟩, hctx⟩ := Mem.words_append.mp hwords
  refine ⟨?_, hesp, ?_⟩
  · rw [State.peek, hesp, hptr]
    bv_omega
  · have hoff : s.reg .esp - 36 + BitVec.ofNat 32 (4 * 2) = s.reg .esp - 28 := by bv_omega
    rw [← hoff]
    exact hctx

/-- What an entry puts on the stack. -/
def entryWords (irq : ℕ) : List Word :=
  BitVec.ofNat 32 irq :: (if !entryHasError irq then [0] else [])

theorem run_rawIrqHandlerEntry (irq : ℕ) (s : State) :
    run (rawIrqHandlerEntry irq) s = (entryWords irq).reverse.foldl State.push s := by
  rw [rawIrqHandlerEntry, entryWords]
  cases entryHasError irq <;> rfl

/-- **The entries**: what lies at the pointer that `raw_irq_handler` gets. -/
theorem enterHandler_words (irq : ℕ) (s : State) (gate : Word) (selector : BitVec 16) (mask : Word)
    (err : Option Word) (ret : Word) :
    let e := enterHandler irq (s.interrupt gate selector mask err) ret
    let len := (entryWords irq).length + err.toList.length
    e.peek 4 = s.reg .esp - BitVec.ofNat 32 (40 + 4 * len) ∧
      e.reg .esp = s.reg .esp - BitVec.ofNat 32 (48 + 4 * len) ∧
      e.mem.Words (e.peek 4) ([s.reg .esi, s.reg .edi, s.reg .ebp, s.reg .edx, s.reg .ecx, s.reg .ebx,
        s.reg .eax] ++ (entryWords irq ++ (err.toList ++ [s.eip, s.cs.setWidth 32, s.eflags]))) := by
  intro e len
  let s' := s.interrupt gate selector mask err
  have hlen : (entryWords irq).length ≤ 2 ∧ err.toList.length ≤ 1 := by
    constructor
    · rw [entryWords]
      split <;> simp
    · cases err <;> simp
  obtain ⟨htop, hesp, hreg⟩ := @State.interrupt_pushAll (entryWords irq) s gate selector mask err
    (by omega)
  have he : e = (run commonIrqHandlerSave ((entryWords irq).reverse.foldl State.push s')).push ret := by
    rw [← run_rawIrqHandlerEntry, ← run_append]
    rfl
  obtain ⟨hptr, hesp', hctx⟩ := run_commonIrqHandlerSave htop (by
    simp only [List.length_append, List.length_cons, List.length_nil]
    omega) ret
  rw [← he, hesp] at hptr hesp'
  rw [← he, hesp, hreg _ (by decide), hreg _ (by decide), hreg _ (by decide), hreg _ (by decide),
    hreg _ (by decide), hreg _ (by decide), hreg _ (by decide)] at hctx
  refine ⟨?_, ?_, ?_⟩
  · rw [hptr]
    bv_omega
  · rw [hesp']
    bv_omega
  · rw [hptr]
    exact hctx

/-! ### The context -/

theorem enterHandler_context (irq : ℕ) (s : State) (gate : Word) (selector : BitVec 16)
    (mask err ret : Word) :
    let e := enterHandler irq
      (s.interrupt gate selector mask (if entryHasError irq then some err else none)) ret
    e.mem.Words (e.peek 4) (irqContext s irq (if entryHasError irq then err else 0)).words := by
  have hseen := (enterHandler_words irq s gate selector mask
    (if entryHasError irq then some err else none) ret).2.2
  cases hentry : entryHasError irq <;>
    · simp only [hentry, entryWords] at hseen ⊢
      exact hseen

/-- **The context is right where processor and entry agree**: `raw_irq_handler` finds the registers,
the vector, the error code (zero where there is none), the next instruction, the code segment and the
flags of every interrupted machine, if and only if the processor pushes an error code exactly where the
entry does not push a zero. -/
theorem rawIrqHandlerEntry_context_iff (irq : ℕ) (pushes : Bool) :
    (∀ (s : State) (gate : Word) (selector : BitVec 16) (mask err ret : Word),
      let e := enterHandler irq (s.interrupt gate selector mask (if pushes then some err else none)) ret
      e.mem.Words (e.peek 4) (irqContext s irq (if pushes then err else 0)).words) ↔
      pushes = entryHasError irq := by
  constructor
  · intro h
    let s : State := ⟨fun _ => 0, 1, 0, 0, fun _ => 0⟩
    have hseen := (enterHandler_words irq s 0 0 0 (if pushes then some 1 else none) 0).2.2
    have hright := h s 0 0 0 1 0
    -- where they disagree, the word above the vector is the wrong one
    cases hpush : pushes <;> cases hentry : entryHasError irq
    · rfl
    · simp only [hpush, hentry, entryWords] at hseen hright
      obtain ⟨-, -, -, -, -, -, -, -, heip, -⟩ := hseen
      obtain ⟨-, -, -, -, -, -, -, -, hzero, -⟩ := hright
      have habsurd : (1 : Word) = 0 := heip.symm.trans hzero
      exact absurd habsurd (by decide)
    · simp only [hpush, hentry, entryWords] at hseen hright
      obtain ⟨-, -, -, -, -, -, -, -, hzero, -⟩ := hseen
      obtain ⟨-, -, -, -, -, -, -, -, herr, -⟩ := hright
      have habsurd : (0 : Word) = 1 := hzero.symm.trans herr
      exact absurd habsurd (by decide)
    · rfl
  · rintro rfl s gate selector mask err ret
    exact enterHandler_context irq s gate selector mask err ret

/-! ### The way back -/

/-- What a context says, on a stack that ends above it. -/
def ArchIrqContext.resume (c : ArchIrqContext) (ctx : Word) (m : Mem) : State where
  reg r := match r with
    | .eax => c.eax
    | .ecx => c.ecx
    | .edx => c.edx
    | .ebx => c.ebx
    | .esp => ctx + 48
    | .ebp => c.ebp
    | .esi => c.esi
    | .edi => c.edi
  eip := c.eip
  cs := c.cs.setWidth 16
  eflags := c.eflags
  mem := m

theorem run_commonIrqHandlerReturn {t : State} {c : ArchIrqContext} (h : t.OnTop c.words) :
    run commonIrqHandlerReturn t = c.resume (t.reg .esp) t.mem := by
  have hp := @State.OnTop.pops t _ [c.esi, c.edi, c.ebp, c.edx, c.ecx, c.ebx, c.eax]
    [.esi, .edi, .ebp, .edx, .ecx, .ebx, .eax] h rfl (by decide)
  rw [commonIrqHandlerReturn, run_append]
  generalize run _ t = u at hp
  have hesp : u.reg .esp = t.reg .esp + 28 := hp.esp
  have hmem : u.mem = t.mem := by rw [hp.same]
  have hkept : ∀ r : Reg, r ≠ .esp → Function.update u.reg .esp (u.reg .esp + 20) r = u.reg r :=
    fun r hr => Function.update_of_ne hr _ u.reg
  rw [hp.onTop.iret, hmem]
  refine State.ext (funext fun r => ?_) rfl rfl rfl rfl
  cases r with
  | esp =>
    have hend : u.reg .esp + 20 = t.reg .esp + 48 := by
      rw [hesp]
      bv_omega
    exact (Function.update_self Reg.esp (u.reg .esp + 20) u.reg).trans hend
  | eax => exact (hkept .eax (by decide)).trans (hp.reg .eax c.eax (by simp))
  | ecx => exact (hkept .ecx (by decide)).trans (hp.reg .ecx c.ecx (by simp))
  | edx => exact (hkept .edx (by decide)).trans (hp.reg .edx c.edx (by simp))
  | ebx => exact (hkept .ebx (by decide)).trans (hp.reg .ebx c.ebx (by simp))
  | ebp => exact (hkept .ebp (by decide)).trans (hp.reg .ebp c.ebp (by simp))
  | esi => exact (hkept .esi (by decide)).trans (hp.reg .esi c.esi (by simp))
  | edi => exact (hkept .edi (by decide)).trans (hp.reg .edi c.edi (by simp))

/-- The restoring half loads the registers from the context that the argument points to. -/
theorem run_commonIrqHandlerRestore {t : State} {c : ArchIrqContext}
    (h : t.mem.Words (t.peek 0) c.words) :
    run commonIrqHandlerRestore t = c.resume (t.peek 0) t.mem := by
  have hesp : (exec t (.pop .esp)).reg .esp = t.peek 0 := set_reg_self _ _ _
  have hctx : (exec t (.pop .esp)).OnTop c.words := by
    rw [State.OnTop, hesp]
    exact h
  have hmem : (exec t (.pop .esp)).mem = t.mem := rfl
  rw [commonIrqHandlerRestore, run_cons, run_commonIrqHandlerReturn hctx, hesp, hmem]

/-- **What is resumed is what the context says**: if `raw_irq_handler` returns with its argument in
place, every register, the next instruction and the flags come from the context, whatever the handler
left in it. A handler that does not write to the context resumes the interrupted machine, with only
memory changed. -/
theorem commonIrqHandler_resumes {irq : ℕ} {pushes : Bool} (hagree : pushes = entryHasError irq)
    (s : State) (gate : Word) (selector : BitVec 16) (mask err ret : Word) (t : State)
    (harg : t.peek 0 =
      (enterHandler irq (s.interrupt gate selector mask (if pushes then some err else none)) ret).peek 4)
    (c : ArchIrqContext) (hctx : t.mem.Words (t.peek 0) c.words) :
    run commonIrqHandlerRestore t = c.resume (s.reg .esp - 48) t.mem ∧
      (c = irqContext s irq (if pushes then err else 0) →
        run commonIrqHandlerRestore t = { s with mem := t.mem }) := by
  have hseen := (enterHandler_words irq s gate selector mask
    (if pushes then some err else none) ret).1
  have hlen : (entryWords irq).length + (if pushes then some err else none).toList.length = 2 := by
    rw [hagree, entryWords]
    cases entryHasError irq <;> rfl
  have hptr : t.peek 0 = s.reg .esp - 48 := by
    rw [harg, hseen, hlen]
    rfl
  have hresume := run_commonIrqHandlerRestore hctx
  rw [hptr] at hresume
  refine ⟨hresume, ?_⟩
  rintro rfl
  rw [hresume]
  refine State.ext (funext fun r => ?_) rfl ?_ rfl rfl
  · cases r with
    | esp => exact (by bv_omega : s.reg .esp - 48 + 48 = s.reg .esp)
    | _ => rfl
  · show (s.cs.setWidth 32).setWidth 16 = s.cs
    simp

/-- A page fault, and a handler that returns at once. -/
theorem commonIrqHandler_resumes_pageFault : ∃ s : State, s.eip = 0x1234 ∧
    run commonIrqHandlerRestore (exec (enterHandler 14 (s.interrupt 0 8 0 (some 2)) 0) .ret) =
      { s with mem := (enterHandler 14 (s.interrupt 0 8 0 (some 2)) 0).mem } := by
  obtain ⟨s, hs⟩ : ∃ s : State, s.eip = 0x1234 := ⟨⟨fun _ => 0, 0x1234, 8, 0, fun _ => 0⟩, rfl⟩
  refine ⟨s, hs, ?_⟩
  have hctx := enterHandler_context 14 s 0 8 0 2 0
  have herr : entryHasError 14 = true := rfl
  rw [if_pos herr, if_pos herr] at hctx
  generalize he : enterHandler 14 (s.interrupt 0 8 0 (some 2)) 0 = e at hctx ⊢
  have harg : (exec e .ret).peek 0 = e.peek 4 := by
    show e.mem.load ((e.drop 4).reg .esp + 0) = e.mem.load (e.reg .esp + 4)
    rw [drop_reg_esp, word_add_zero]
  have hptr : (exec e .ret).peek 0 = (enterHandler 14 (s.interrupt 0 8 0
      (if true then some 2 else none)) 0).peek 4 := by
    rw [if_pos rfl, he, harg]
  exact (@commonIrqHandler_resumes 14 true rfl s 0 8 0 2 0 (exec e .ret) hptr
    (irqContext s 14 2) (harg ▸ hctx)).2 rfl

/-! ### `setup_idt` -/

/-- The address of an entry: `.align 16` behind the entry before, which takes `len` bytes. -/
def entryAddr (entries : ℕ) (len : ℕ → ℕ) : ℕ → ℕ
  | 0 => entries
  | irq + 1 => (entryAddr entries len irq + len irq + 15) / 16 * 16

/-- What an entry takes: every push of a constant, and the jump, has an 8-bit operand and 2 bytes, or a
32-bit operand and 5 bytes. -/
def IsEntryLength (irq n : ℕ) : Prop :=
  ∃ sizes : List ℕ, sizes.length = (rawIrqHandlerEntry irq).length + 1 ∧
    (∀ k ∈ sizes, k = 2 ∨ k = 5) ∧ n = sizes.sum

/-- `struct idt_ptr`. -/
structure IdtPtr where
  /-- The last byte of the table that the processor reads. -/
  size : ℕ
  /-- Where the table is. -/
  base : ℕ

/-- `init_idt_ptr`. An entry has 8 bytes. -/
def initIdtPtr (table size : ℕ) : IdtPtr := ⟨size % 2 ^ 16 * 8 % 2 ^ 16, table⟩

/-- `setup_idt`: the loop over the 256 vectors, and the operand of `lidt`. -/
def setupIdt (idt : ℕ → ℕ) (table entries : ℕ) : (ℕ → ℕ) × IdtPtr :=
  ((List.range 256).foldl (fun idt i =>
      Function.update idt i (initIsrGate (wadd entries (wmul i 16)) 0)) idt,
    initIdtPtr table 256)

/-- A table filled entry by entry. -/
theorem foldl_update_range (f : ℕ → ℕ) (table : ℕ → ℕ) (n v : ℕ) :
    (List.range n).foldl (fun table i => Function.update table i (f i)) table v =
      if v < n then f v else table v := by
  induction n with
  | zero => rfl
  | succ n ih =>
    rw [List.range_succ, List.foldl_append, List.foldl_cons, List.foldl_nil, Function.update_apply, ih]
    rcases Nat.lt_trichotomy v n with hlt | rfl | hgt
    · rw [if_neg (by omega), if_pos hlt, if_pos (by omega)]
    · rw [if_pos rfl, if_pos (by omega)]
    · rw [if_neg (by omega), if_neg (by omega), if_neg (by omega)]

theorem IsEntryLength.le {irq n : ℕ} (h : IsEntryLength irq n) : 1 ≤ n ∧ n ≤ 15 := by
  obtain ⟨sizes, hlen, hsizes, rfl⟩ := h
  have hcode : 1 ≤ (rawIrqHandlerEntry irq).length ∧ (rawIrqHandlerEntry irq).length ≤ 2 := by
    rw [rawIrqHandlerEntry]
    split <;> simp
  have hle := List.sum_le_card_nsmul sizes 5 fun k hk => by rcases hsizes k hk with rfl | rfl <;> omega
  have hge := List.card_nsmul_le_sum sizes 2 fun k hk => by rcases hsizes k hk with rfl | rfl <;> omega
  change sizes.sum ≤ sizes.length * 5 at hle
  change sizes.length * 2 ≤ sizes.sum at hge
  omega

/-- The entries are 16 bytes apart if none is longer. -/
theorem entryAddr_eq {entries : ℕ} {len : ℕ → ℕ} (hentries : 16 ∣ entries) {v : ℕ}
    (hlen : ∀ u < v, 1 ≤ len u ∧ len u ≤ 16) : entryAddr entries len v = entries + v * 16 := by
  induction v with
  | zero => rfl
  | succ v ih =>
    have hv := hlen v (Nat.lt_succ_self v)
    rw [entryAddr, ih fun u hu => hlen u (by omega)]
    omega

/-- **Every gate leads to its entry**: however the assembler encodes them, the entry of each of the 256
vectors fits in its 16 bytes, and `setup_idt` makes the gate of the vector, which the processor finds
below the limit of the table, an interrupt gate of the kernel to that entry. -/
theorem setupIdt_leads {entries table : ℕ} {len : ℕ → ℕ} (hentries : 16 ∣ entries)
    (hlt : entries + 4096 ≤ 2 ^ 32) (hlen : ∀ v < 256, IsEntryLength v (len v)) (idt : ℕ → ℕ) {v : ℕ}
    (hv : v < 256) :
    let gate := (setupIdt idt table entries).1 v
    len v ≤ 16 ∧ gateOffset gate = entryAddr entries len v ∧ gateSelector gate = 8 ∧
      gatePresent (gateAttributes gate) ∧ gateType (gateAttributes gate) = 14 ∧
      gateDpl (gateAttributes gate) = 0 ∧ 8 * v + 7 ≤ (setupIdt idt table entries).2.size := by
  have hgate : (setupIdt idt table entries).1 v =
      initIsrGate (wadd entries (wmul v 16)) (0 <<< 13) := by
    rw [setupIdt]
    dsimp only
    rw [foldl_update_range fun i => initIsrGate (wadd entries (wmul i 16)) 0, if_pos hv, Nat.zero_shiftLeft]
  have haddr : wadd entries (wmul v 16) = entryAddr entries len v := by
    rw [wmul_of_lt (by omega), wadd_of_lt (by omega)]
    refine (entryAddr_eq hentries fun u hu => ?_).symm
    have := (hlen u (by omega)).le
    omega
  obtain ⟨hoff, hsel, hpresent, htype, hdpl⟩ :=
    @initIsrGate_enters (wadd entries (wmul v 16)) 0 (wadd_lt _ _) (by decide)
  rw [hgate]
  dsimp only
  refine ⟨(hlen v hv).le.2.trans (by decide), hoff.trans haddr, hsel, hpresent, htype, hdpl, ?_⟩
  show 8 * v + 7 ≤ 256 % 2 ^ 16 * 8 % 2 ^ 16
  omega

/-- An assembler that uses short operands where it can. -/
theorem setupIdt_leads_pageFault :
    gateOffset ((setupIdt (fun _ => 0) 0xC0110000 0xC0105000).1 14) = 0xC01050E0 := by
  let len : ℕ → ℕ := fun v => if v < 128 then 2 * ((rawIrqHandlerEntry v).length + 1) else 9
  have hlen : ∀ v < 256, IsEntryLength v (len v) := by
    intro v hv
    by_cases hshort : v < 128
    · exact ⟨List.replicate ((rawIrqHandlerEntry v).length + 1) 2, by simp, by simp,
        by simp [len, hshort, Nat.mul_comm]⟩
    · have hnone : entryHasError v = false := by
        simp only [entryHasError]
        simp
        omega
      exact ⟨[2, 5, 2], by simp [rawIrqHandlerEntry, hnone], by simp, by simp [len, hshort]⟩
  have hentries : 16 ∣ 0xC0105000 := by decide
  obtain ⟨-, hoff, -⟩ := @setupIdt_leads 0xC0105000 0xC0110000 len hentries (by decide) hlen (fun _ => 0)
    14 (by decide)
  exact hoff.trans (by decide)

end Auos
