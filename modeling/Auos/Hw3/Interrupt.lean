import Auos.Interrupt

/-!
# Generated interrupt entries

The assembly that `gen_interrupts.py` prints, and `raw_isr` of `idt.c`, which hands an interrupt to the
handler set for its number. The code around a handler saves the general registers with `pushal`; it
takes its argument off the stack without reading it, so that a handler may overwrite it.

## Main definitions

* `isrEntry`, `commonIsrSave`, `commonIsrRestore` — the generated code
* `TrapFrame`, `rawIsr` — what `raw_isr` gets and does

## Main results

* `interrupt_transparent` — the right handler is called, and the interrupted code goes on unchanged
* `isrHasError_ne_iff` — the one vector on which these entries differ from the kernel's
-/

namespace Auos

namespace Hw3

open Ia32

/-! ### The code -/

/-- `err_code`: the entries that push no zero. -/
def isrHasError (intno : ℕ) : Bool := [8, 10, 11, 12, 13, 14, 17, 30].contains intno

/-- `gen_entry`, up to the jump. -/
def isrEntry (intno : ℕ) : List Instr :=
  (if !isrHasError intno then [.pushImm 0] else []) ++ [.pushImm (BitVec.ofNat 32 intno)]

/-- `gen_save`. -/
def commonIsrSave : List Instr := [.pushal, .push .esp, .cld]

/-- `gen_restore`, and the return. -/
def commonIsrRestore : List Instr := [.addImm 4 .esp, .popal, .addImm 8 .esp, .iret]

/-- `struct trap_frame`. -/
structure TrapFrame where
  /-- The general registers, in the order of `pushal`. -/
  (edi esi ebp esp ebx edx ecx eax : Word)
  /-- The vector and the error code. -/
  (intno errno : Word)

/-- The fields in the order of the declaration. -/
def TrapFrame.words (f : TrapFrame) : List Word :=
  [f.edi, f.esi, f.ebp, f.esp, f.ebx, f.edx, f.ecx, f.eax, f.intno, f.errno]

/-- The frame of an interrupted machine; `pushal` stores the stack pointer it starts from. -/
def trapFrame (s : State) (intno : ℕ) (errno : Word) : TrapFrame where
  edi := s.reg .edi
  esi := s.reg .esi
  ebp := s.reg .ebp
  esp := s.reg .esp - 20
  ebx := s.reg .ebx
  edx := s.reg .edx
  ecx := s.reg .ecx
  eax := s.reg .eax
  intno := BitVec.ofNat 32 intno
  errno := errno

/-- `raw_isr`: the handler it calls, if there is one, and the two arguments. -/
def rawIsr {Isr : Type*} (handlers : ℕ → Option Isr) (m : Mem) (frame : Word) :
    Option (Isr × Word × Word) :=
  let intno := m.load (frame + 32)
  let errno := m.load (frame + 36)
  (handlers intno.toNat).map fun isr => (isr, intno, errno)

/-- The first instruction of `raw_isr`; the call has pushed a return address. -/
def enterRawIsr (intno : ℕ) (s : State) (ret : Word) : State :=
  (run (isrEntry intno ++ commonIsrSave) s).push ret

/-! ### The frame -/

/-- What an entry puts on the stack. -/
def isrWords (intno : ℕ) : List Word :=
  BitVec.ofNat 32 intno :: (if !isrHasError intno then [0] else [])

/-- The generated entries differ from those of the kernel in one vector, so that no processor suits
both. -/
theorem isrHasError_ne_iff (intno : ℕ) : isrHasError intno ≠ entryHasError intno ↔ intno = 30 := by
  have hisr : isrHasError intno = true ↔ intno = 8 ∨ (10 ≤ intno ∧ intno ≤ 14) ∨ intno = 17 ∨
      intno = 30 := by
    simp only [isrHasError, List.contains_eq_mem, decide_eq_true_eq, List.mem_cons, List.not_mem_nil,
      or_false]
    omega
  rw [ne_eq, Bool.eq_iff_iff, hisr, entryHasError_iff]
  omega

theorem run_isrEntry (intno : ℕ) (s : State) :
    run (isrEntry intno) s = (isrWords intno).reverse.foldl State.push s := by
  rw [isrEntry, isrWords]
  cases isrHasError intno <;> rfl

/-- The registers are pushed, and then a pointer to them. -/
theorem run_commonIsrSave {s : State} {ws : List Word} (h : s.OnTop ws) (hlen : ws.length < 2 ^ 10)
    (ret : Word) :
    let e := (run commonIsrSave s).push ret
    e.peek 4 = s.reg .esp - 32 ∧ e.reg .esp = s.reg .esp - 40 ∧
      e.mem.Words (s.reg .esp - 32) ([s.reg .edi, s.reg .esi, s.reg .ebp, s.reg .esp, s.reg .ebx,
        s.reg .edx, s.reg .ecx, s.reg .eax] ++ ws) := by
  intro e
  let vs := [s.reg .eax, s.reg .ecx, s.reg .edx, s.reg .ebx, s.reg .esp, s.reg .ebp, s.reg .esi,
    s.reg .edi, s.reg .esp - 4 - 4 - 4 - 4 - 4 - 4 - 4 - 4, ret]
  have hmem : e.mem = (vs.foldl State.push s).mem := rfl
  have hreg : e.reg = (vs.foldl State.push s).reg := rfl
  have hesp : e.reg .esp = s.reg .esp - 40 := by
    rw [hreg]
    exact pushAll_esp s _
  have hwords : e.mem.Words (s.reg .esp - 40)
      ([ret, s.reg .esp - 4 - 4 - 4 - 4 - 4 - 4 - 4 - 4] ++ ([s.reg .edi, s.reg .esi, s.reg .ebp,
        s.reg .esp, s.reg .ebx, s.reg .edx, s.reg .ecx, s.reg .eax] ++ ws)) := by
    rw [← hesp, hmem, hreg]
    refine State.OnTop.pushAll h ?_
    simp only [vs, List.length_cons, List.length_nil]
    omega
  obtain ⟨⟨-, hptr, -⟩, hctx⟩ := Mem.words_append.mp hwords
  refine ⟨?_, hesp, ?_⟩
  · rw [State.peek, hesp, hptr]
    bv_omega
  · have hoff : s.reg .esp - 40 + BitVec.ofNat 32 (4 * 2) = s.reg .esp - 32 := by bv_omega
    rw [← hoff]
    exact hctx

/-- Where the frame lies, and what is in it and above it. -/
theorem enterRawIsr_frame (intno : ℕ) (s : State) (gate : Word) (selector : BitVec 16)
    (mask errno ret : Word) :
    let e := enterRawIsr intno
      (s.interrupt gate selector mask (if isrHasError intno then some errno else none)) ret
    e.peek 4 = s.reg .esp - 52 ∧ e.reg .esp = s.reg .esp - 60 ∧
      e.mem.Words (e.peek 4)
        ((trapFrame s intno (if isrHasError intno then errno else 0)).words ++
          [s.eip, s.cs.setWidth 32, s.eflags]) := by
  intro e
  let err := if isrHasError intno then some errno else none
  let s' := s.interrupt gate selector mask err
  have hlen : (isrWords intno).length + err.toList.length = 2 := by
    simp only [err, isrWords]
    cases isrHasError intno <;> rfl
  obtain ⟨htop, hesp, hreg⟩ := @State.interrupt_pushAll (isrWords intno) s gate selector mask err
    (by omega)
  rw [hlen] at hesp
  have he : e = (run commonIsrSave ((isrWords intno).reverse.foldl State.push s')).push ret := by
    rw [← run_isrEntry, ← run_append]
    rfl
  obtain ⟨hptr, hesp', hctx⟩ := run_commonIsrSave htop (by
    simp only [List.length_append, List.length_cons, List.length_nil]
    omega) ret
  rw [← he, hesp] at hptr hesp'
  rw [← he, hesp, hreg _ (by decide), hreg _ (by decide), hreg _ (by decide), hreg _ (by decide),
    hreg _ (by decide), hreg _ (by decide), hreg _ (by decide)] at hctx
  have hbase : s.reg .esp - BitVec.ofNat 32 (12 + 4 * 2) - 32 = s.reg .esp - 52 := by bv_omega
  rw [hbase] at hptr hctx
  refine ⟨hptr, ?_, ?_⟩
  · rw [hesp']
    bv_omega
  · rw [hptr]
    simp only [err, isrWords] at hctx
    cases hentry : isrHasError intno <;>
      · simp only [hentry] at hctx ⊢
        exact hctx

/-- What a frame says, with the three words above it, on a stack that ends there. -/
def TrapFrame.resume (f : TrapFrame) (eip cs eflags frame : Word) (m : Mem) : State where
  reg r := match r with
    | .eax => f.eax
    | .ecx => f.ecx
    | .edx => f.edx
    | .ebx => f.ebx
    | .esp => frame + 52
    | .ebp => f.ebp
    | .esi => f.esi
    | .edi => f.edi
  eip := eip
  cs := cs.setWidth 16
  eflags := eflags
  mem := m

/-- The restoring half: the argument is skipped, and the frame above it loaded. -/
theorem run_commonIsrRestore {t : State} {f : TrapFrame} {eip cs eflags : Word}
    (h : t.mem.Words (t.reg .esp + 4) (f.words ++ [eip, cs, eflags])) :
    run commonIsrRestore t = f.resume eip cs eflags (t.reg .esp + 4) t.mem := by
  have hskip : (exec t (.addImm 4 .esp)).reg .esp = t.reg .esp + 4 :=
    set_reg_self t (t.reg .esp + 4) .esp
  have htop : (exec t (.addImm 4 .esp)).OnTop (f.words ++ [eip, cs, eflags]) := by
    rw [State.OnTop, hskip]
    exact h
  have hmem : (exec t (.addImm 4 .esp)).mem = t.mem := rfl
  rw [commonIsrRestore, run_cons, ← hskip, ← hmem]
  generalize exec t (.addImm 4 .esp) = u at htop
  obtain ⟨hrest, hpop⟩ := @State.OnTop.popal _ [f.intno, f.errno, eip, cs, eflags] _ _ _ _ _ _ _ _ htop
  rw [run_cons, hrest.iret, hpop]
  refine State.ext (funext fun r => ?_) rfl rfl rfl rfl
  cases r with
  | esp =>
    show u.reg .esp + 32 + 20 = u.reg .esp + 52
    bv_omega
  | _ => rfl

/-- **An interrupt is transparent**: on a processor that agrees with the entries on the error codes,
`raw_isr` finds the handler that was set for the vector and hands it the vector and the error code, with
the direction flag clear. When it returns, whatever it did to other memory and to its argument, the
interrupted code goes on with all its registers, its flags and its stack. -/
theorem interrupt_transparent {Isr : Type*} (handlers : ℕ → Option Isr) {intno : ℕ}
    (hintno : intno < 256) (s : State) (gate : Word) (selector : BitVec 16) (mask errno ret : Word) :
    let pushed := isrHasError intno
    let e := enterRawIsr intno
      (s.interrupt gate selector mask (if pushed then some errno else none)) ret
    rawIsr handlers e.mem (e.peek 4) =
        (handlers intno).map (fun isr => (isr, BitVec.ofNat 32 intno, if pushed then errno else 0)) ∧
      e.eflags.getLsbD 10 = false ∧
      ∀ t : State, t.reg .esp = e.reg .esp + 4 →
        (∀ b, (b - e.peek 4).toNat < 52 → t.mem b = e.mem b) →
          run commonIsrRestore t = { s with mem := t.mem } := by
  intro pushed e
  obtain ⟨hptr, hesp, hframe⟩ := enterRawIsr_frame intno s gate selector mask errno ret
  refine ⟨?_, ?_, ?_⟩
  · have hint : e.mem.load (e.peek 4 + 32) = BitVec.ofNat 32 intno :=
      ((@Mem.words_append _ _ [_, _, _, _, _, _, _, _] _).mp hframe).2.1
    have herr : e.mem.load (e.peek 4 + 36) = if pushed then errno else 0 :=
      ((@Mem.words_append _ _ [_, _, _, _, _, _, _, _, _] _).mp hframe).2.1
    rw [rawIsr, hint, herr, BitVec.toNat_ofNat, Nat.mod_eq_of_lt (by omega)]
  · have hflags : e.eflags = (run (isrEntry intno) (s.interrupt gate selector mask
        (if pushed then some errno else none))).eflags &&& ~~~0x400#32 := by
      show (run (isrEntry intno ++ commonIsrSave) _).eflags = _
      rw [run_append]
      rfl
    rw [hflags]
    simp
  · intro t ht hmem
    have hframe' : t.mem.Words (t.reg .esp + 4)
        ((trapFrame s intno (if pushed then errno else 0)).words ++
          [s.eip, s.cs.setWidth 32, s.eflags]) := by
      have hbase : t.reg .esp + 4 = e.peek 4 := by
        rw [ht, hesp, hptr]
        bv_omega
      rw [hbase]
      exact hframe.congr (by simp [TrapFrame.words]) fun b hb => (hmem b hb).symm
    rw [run_commonIsrRestore hframe']
    refine State.ext (funext fun r => ?_) rfl ?_ rfl rfl
    · cases r with
      | esp =>
        show t.reg .esp + 4 + 52 = s.reg .esp
        rw [ht, hesp]
        bv_omega
      | _ => rfl
    · show (s.cs.setWidth 32).setWidth 16 = s.cs
      simp

/-- The timer's interrupt, with a handler that returns at once. -/
theorem interrupt_transparent_timer : ∃ s e : State, s.eip = 0x1234 ∧
    rawIsr (fun v => if v = 32 then some "timer" else none) e.mem (e.peek 4) =
      some ("timer", 32, 0) ∧
    run commonIsrRestore (exec e .ret) = { s with mem := e.mem } := by
  obtain ⟨s, hs⟩ : ∃ s : State, s.eip = 0x1234 := ⟨⟨fun _ => 0, 0x1234, 8, 0, fun _ => 0⟩, rfl⟩
  obtain ⟨hcalled, -, hback⟩ := interrupt_transparent
    (fun v => if v = 32 then some "timer" else none) (show 32 < 256 by decide) s 0 8 0 0 0
  refine ⟨s, _, hs, hcalled, hback (exec _ .ret) ?_ fun _ _ => rfl⟩
  exact drop_reg_esp _ 4

end Hw3

end Auos
