import Mathlib.Algebra.Group.Nat.Defs
import Mathlib.Logic.Function.Basic

/-!
# A 32-bit machine with a stack

The instructions that context switches and interrupt entries are made of: registers, flags, memory of
bytes, and the stack that grows down through it. Addresses wrap around. A word is stored lowest byte
first. Straight-line code is a list of instructions; a jump or a call is where two lists meet.

What lies on the stack is a list of words, the top first (`Words`): a push adds one in front, a pop
takes one away, and what the list says does not depend on the bytes below it.

## Main definitions

* `Mem.load`, `Mem.store` — words in memory
* `State`, `Instr`, `exec`, `run` — the machine
* `State.interrupt` — what the processor does before the first instruction of a handler
* `Mem.Words` — the words from an address on

## Main results

* `Mem.load_store_self`, `Mem.load_congr` — a load sees four bytes
* `Mem.Words.push`, `Mem.Words.store` — the words on the stack after a push and after other stores
-/

namespace Auos

namespace Ia32

/-! ### Memory -/

/-- A machine word, and an address. -/
abbrev Word := BitVec 32

/-- Memory: a byte at every address. -/
abbrev Mem := Word → BitVec 8

@[simp] theorem word_add_zero (a : Word) : a + 0 = a := by bv_omega

namespace Mem

/-- The word in the four bytes from `a` on. -/
def load (m : Mem) (a : Word) : Word := m (a + 3) ++ m (a + 2) ++ m (a + 1) ++ m a

/-- Store a word in the four bytes from `a` on. -/
def store (m : Mem) (a v : Word) : Mem := fun b =>
  if (b - a).toNat < 4 then v.extractLsb' (8 * (b - a).toNat) 8 else m b

/-- The words from `a` on. -/
def Words (m : Mem) (a : Word) : List Word → Prop
  | [] => True
  | w :: ws => m.load a = w ∧ m.Words (a + 4) ws

variable {m m' : Mem} {a b c v w : Word} {ws ws' : List Word}

theorem store_of_le (h : 4 ≤ (b - a).toNat) : m.store a v b = m b := if_neg (Nat.not_lt.mpr h)

theorem store_add {i : Word} (h : i.toNat < 4) :
    m.store a v (a + i) = v.extractLsb' (8 * i.toNat) 8 := by
  have hi : a + i - a = i := by bv_omega
  rw [store, hi, if_pos h]

/-- A load sees four bytes. -/
theorem load_congr (h : ∀ b, (b - a).toNat < 4 → m b = m' b) : m.load a = m'.load a := by
  have h0 := h a (by bv_omega)
  have h1 := h (a + 1) (by bv_omega)
  have h2 := h (a + 2) (by bv_omega)
  have h3 := h (a + 3) (by bv_omega)
  rw [load, load, h0, h1, h2, h3]

theorem append_extract (v : Word) :
    v.extractLsb' 24 8 ++ v.extractLsb' 16 8 ++ v.extractLsb' 8 8 ++ v.extractLsb' 0 8 = v := by
  ext i hi
  simp only [BitVec.getElem_append, BitVec.getElem_extractLsb']
  split
  · rw [Nat.zero_add]
    exact BitVec.getLsbD_eq_getElem hi
  · split
    · rw [show 8 + (i - 8) = i by omega]
      exact BitVec.getLsbD_eq_getElem hi
    · split
      · rw [show 16 + (i - 8 - 8) = i by omega]
        exact BitVec.getLsbD_eq_getElem hi
      · rw [show 24 + (i - 8 - 8 - 8) = i by omega]
        exact BitVec.getLsbD_eq_getElem hi

theorem load_store_self (m : Mem) (a v : Word) : (m.store a v).load a = v := by
  have h0 := @store_add m a v 0 (by decide)
  rw [word_add_zero] at h0
  rw [load, h0, store_add (by decide), store_add (by decide), store_add (by decide)]
  exact append_extract v

/-- A store that does not touch the four bytes from `b` on. -/
theorem load_store_of_le (h : 4 ≤ (b - a).toNat) (h' : 4 ≤ (a - b).toNat) :
    (m.store a v).load b = m.load b := by
  refine load_congr fun x hx => ?_
  exact store_of_le (by bv_omega)

/-! ### The words on a stack -/

/-- The words depend only on their bytes. -/
theorem Words.congr (hw : m.Words a ws) (hlen : 4 * ws.length ≤ 2 ^ 32)
    (h : ∀ b, (b - a).toNat < 4 * ws.length → m b = m' b) : m'.Words a ws := by
  induction ws generalizing a with
  | nil => trivial
  | cons w ws ih =>
    rw [List.length_cons] at hlen h
    obtain ⟨hload, hrest⟩ := hw
    refine ⟨?_, ih hrest (by omega) fun b hb => h b (by bv_omega)⟩
    rw [← hload]
    exact (load_congr fun b hb => h b (by omega)).symm

/-- A store elsewhere. -/
theorem Words.store (hw : m.Words a ws) (hlen : 4 * ws.length ≤ 2 ^ 32)
    (h : ∀ b, (b - a).toNat < 4 * ws.length → 4 ≤ (b - c).toNat) : (m.store c v).Words a ws :=
  hw.congr hlen fun b hb => (store_of_le (h b hb)).symm

/-- A word pushed on the others. -/
theorem Words.push (hw : m.Words a ws) (hlen : 4 * (ws.length + 1) ≤ 2 ^ 32) :
    (m.store (a - 4) v).Words (a - 4) (v :: ws) := by
  refine ⟨load_store_self m (a - 4) v, ?_⟩
  rw [show a - 4 + 4 = a by bv_omega]
  exact hw.store (by omega) fun b hb => by bv_omega

/-- Any bytes are some words. -/
theorem exists_words (m : Mem) (a : Word) (n : ℕ) : ∃ ws, ws.length = n ∧ m.Words a ws := by
  induction n generalizing a with
  | zero => exact ⟨[], rfl, trivial⟩
  | succ n ih =>
    obtain ⟨ws, hlen, hws⟩ := ih (a + 4)
    exact ⟨m.load a :: ws, by rw [List.length_cons, hlen], rfl, hws⟩

/-- A store over one of the words. -/
theorem Words.set (hw : m.Words a ws) (hlen : 4 * ws.length ≤ 2 ^ 32) {i : ℕ} (hi : i < ws.length) :
    (m.store (a + BitVec.ofNat 32 (4 * i)) v).Words a (ws.set i v) := by
  induction ws generalizing a i with
  | nil => exact absurd hi (Nat.not_lt_zero i)
  | cons w ws ih =>
    rw [List.length_cons] at hlen hi
    obtain ⟨hload, hrest⟩ := hw
    cases i with
    | zero =>
      rw [show a + BitVec.ofNat 32 (4 * 0) = a by bv_omega]
      exact ⟨load_store_self m a v, hrest.store (by omega) fun b hb => by bv_omega⟩
    | succ i =>
      rw [show a + BitVec.ofNat 32 (4 * (i + 1)) = a + 4 + BitVec.ofNat 32 (4 * i) by bv_omega]
      refine ⟨?_, ih hrest (by omega) (by omega)⟩
      rw [load_store_of_le (by bv_omega) (by bv_omega), hload]

theorem words_append :
    m.Words a (ws ++ ws') ↔ m.Words a ws ∧ m.Words (a + BitVec.ofNat 32 (4 * ws.length)) ws' := by
  induction ws generalizing a with
  | nil =>
    rw [List.nil_append, List.length_nil, show a + BitVec.ofNat 32 (4 * 0) = a by bv_omega]
    exact ⟨fun h => ⟨trivial, h⟩, fun h => h.2⟩
  | cons w ws ih =>
    rw [List.cons_append, List.length_cons, Words, Words, ih, and_assoc,
      show a + 4 + BitVec.ofNat 32 (4 * ws.length) = a + BitVec.ofNat 32 (4 * (ws.length + 1)) by
        bv_omega]

end Mem

/-! ### The machine -/

/-- The general registers. -/
inductive Reg
  | eax
  | ecx
  | edx
  | ebx
  | esp
  | ebp
  | esi
  | edi
  deriving DecidableEq

/-- Registers and memory. -/
@[ext]
structure State where
  /-- The general registers. -/
  reg : Reg → Word
  /-- The address of the next instruction, where code is left by a return. -/
  eip : Word
  /-- The selector of the code segment. -/
  cs : BitVec 16
  /-- The flags. -/
  eflags : Word
  /-- Memory. -/
  mem : Mem

namespace State

/-- Write a register. -/
def set (s : State) (r : Reg) (v : Word) : State := { s with reg := Function.update s.reg r v }

/-- Push a word. -/
def push (s : State) (v : Word) : State :=
  { s.set .esp (s.reg .esp - 4) with mem := s.mem.store (s.reg .esp - 4) v }

/-- The word `off` bytes above the top of the stack. -/
def peek (s : State) (off : Word) : Word := s.mem.load (s.reg .esp + off)

/-- Take bytes off the stack. -/
def drop (s : State) (n : Word) : State := s.set .esp (s.reg .esp + n)

end State

/-- The instructions. -/
inductive Instr
  /-- `pushl r`. -/
  | push (r : Reg)
  /-- `pushl $v`. -/
  | pushImm (v : Word)
  /-- `popl r`. -/
  | pop (r : Reg)
  /-- `movl disp(base), dst`. -/
  | load (disp : Word) (base dst : Reg)
  /-- `movl src, (base)`. -/
  | store (src base : Reg)
  /-- `movl src, dst`. -/
  | mov (src dst : Reg)
  /-- `addl $v, dst`. -/
  | addImm (v : Word) (dst : Reg)
  /-- `pushal`. -/
  | pushal
  /-- `popal`. -/
  | popal
  /-- `cld`. -/
  | cld
  /-- `ret`. -/
  | ret
  /-- `iret`, without a change of privilege. -/
  | iret

/-- The flags after `x + y`: carry, parity, auxiliary carry, zero, sign and overflow. -/
def addFlags (flags x y : Word) : Word :=
  let r := x + y
  let bit (c : Bool) (n : ℕ) : Word := if c then 1#32 <<< n else 0#32
  let odd := (List.range 8).foldl (fun acc i => acc ^^ r.getLsbD i) false
  (flags &&& ~~~0x8D5#32) ||| bit (decide (r.toNat < x.toNat)) 0 ||| bit (!odd) 2 |||
    bit ((x ^^^ y ^^^ r).getLsbD 4) 4 ||| bit (decide (r = 0)) 6 ||| bit r.msb 7 |||
    bit (x.msb == y.msb && x.msb != r.msb) 11

/-- One instruction. A popped stack pointer replaces the one that the pop moved; `popal` skips the
stack pointer that `pushal` stored. -/
def exec (s : State) : Instr → State
  | .push r => s.push (s.reg r)
  | .pushImm v => s.push v
  | .pop r => (s.drop 4).set r (s.peek 0)
  | .load disp base dst => s.set dst (s.mem.load (s.reg base + disp))
  | .store src base => { s with mem := s.mem.store (s.reg base) (s.reg src) }
  | .mov src dst => s.set dst (s.reg src)
  | .addImm v dst => { s.set dst (s.reg dst + v) with eflags := addFlags s.eflags (s.reg dst) v }
  | .pushal =>
    [s.reg .eax, s.reg .ecx, s.reg .edx, s.reg .ebx, s.reg .esp, s.reg .ebp, s.reg .esi,
      s.reg .edi].foldl State.push s
  | .popal =>
    (((((((s.drop 32).set .edi (s.peek 0)).set .esi (s.peek 4)).set .ebp (s.peek 8)).set .ebx
      (s.peek 16)).set .edx (s.peek 20)).set .ecx (s.peek 24)).set .eax (s.peek 28)
  | .cld => { s with eflags := s.eflags &&& ~~~0x400#32 }
  | .ret => { s.drop 4 with eip := s.peek 0 }
  | .iret =>
    { s.drop 12 with
      eip := s.peek 0
      cs := (s.peek 4).setWidth 16
      eflags := s.peek 8 }

/-- A list of instructions. -/
def run (code : List Instr) (s : State) : State := code.foldl exec s

/-- An interrupt, without a change of privilege: the flags, the code segment, the next instruction
and, where there is one, the error code are pushed, and the gate is entered. An interrupt gate clears
the flags in `mask`. -/
def State.interrupt (s : State) (gate : Word) (selector : BitVec 16) (mask : Word)
    (err : Option Word) : State :=
  let s' := ((s.push s.eflags).push (s.cs.setWidth 32)).push s.eip
  { err.elim s' s'.push with eip := gate, cs := selector, eflags := s.eflags &&& ~~~mask }

/-! ### One instruction at a time -/

section Exec

variable (s : State) (v n : Word) (r q : Reg) (code code' : List Instr)

@[simp] theorem run_nil : run [] s = s := rfl

@[simp] theorem run_cons (i : Instr) : run (i :: code) s = run code (exec s i) := rfl

theorem run_append : run (code ++ code') s = run code' (run code s) := List.foldl_append

@[simp] theorem set_mem : (s.set r v).mem = s.mem := rfl

@[simp] theorem set_reg_self : (s.set r v).reg r = v := Function.update_self ..

theorem set_reg_of_ne (h : q ≠ r) : (s.set r v).reg q = s.reg q := Function.update_of_ne h ..

@[simp] theorem push_mem : (s.push v).mem = s.mem.store (s.reg .esp - 4) v := rfl

@[simp] theorem push_reg_esp : (s.push v).reg .esp = s.reg .esp - 4 :=
  set_reg_self s (s.reg .esp - 4) .esp

theorem push_reg_of_ne (h : q ≠ .esp) : (s.push v).reg q = s.reg q := Function.update_of_ne h ..

@[simp] theorem drop_mem : (s.drop n).mem = s.mem := rfl

@[simp] theorem drop_reg_esp : (s.drop n).reg .esp = s.reg .esp + n :=
  set_reg_self s (s.reg .esp + n) .esp

theorem drop_reg_of_ne (h : q ≠ .esp) : (s.drop n).reg q = s.reg q := Function.update_of_ne h ..

end Exec

/-! ### The top of the stack -/

/-- The words on the top of the stack. -/
def State.OnTop (s : State) (ws : List Word) : Prop := s.mem.Words (s.reg .esp) ws

section OnTop

variable {s : State} {v : Word} {ws : List Word}

theorem State.onTop_nil (s : State) : s.OnTop [] := trivial

theorem State.OnTop.push (h : s.OnTop ws) (hlen : ws.length < 2 ^ 20) : (s.push v).OnTop (v :: ws) := by
  rw [State.OnTop, push_reg_esp, push_mem]
  exact Mem.Words.push h (by omega)

theorem State.OnTop.peek (h : s.OnTop (v :: ws)) : s.peek 0 = v := by
  rw [State.peek, word_add_zero]
  exact h.1

/-! ### Many pushes -/

variable {vs : List Word}

theorem State.OnTop.pushAll (h : s.OnTop ws) (hlen : ws.length + vs.length ≤ 2 ^ 20) :
    (vs.foldl State.push s).OnTop (vs.reverse ++ ws) := by
  induction vs generalizing s ws with
  | nil => exact h
  | cons v vs ih =>
    rw [List.length_cons] at hlen
    rw [List.reverse_cons, List.append_assoc]
    exact ih (h.push (by omega)) (by rw [List.length_append, List.length_singleton]; omega)

theorem pushAll_esp (s : State) (vs : List Word) :
    (vs.foldl State.push s).reg .esp = s.reg .esp - BitVec.ofNat 32 (4 * vs.length) := by
  induction vs generalizing s with
  | nil => exact (by bv_omega : s.reg .esp = s.reg .esp - BitVec.ofNat 32 (4 * 0))
  | cons v vs ih =>
    rw [List.foldl_cons, ih, push_reg_esp, List.length_cons]
    bv_omega

theorem pushAll_reg_of_ne (s : State) (vs : List Word) {r : Reg} (hr : r ≠ .esp) :
    (vs.foldl State.push s).reg r = s.reg r := by
  induction vs generalizing s with
  | nil => rfl
  | cons v vs ih => rw [List.foldl_cons, ih, push_reg_of_ne _ _ _ hr]

/-- Pushes write below the stack pointer. -/
theorem pushAll_apply {b : Word} (hlen : 4 * vs.length < 2 ^ 32)
    (hb : 4 * vs.length ≤ (b - (s.reg .esp - BitVec.ofNat 32 (4 * vs.length))).toNat) :
    (vs.foldl State.push s).mem b = s.mem b := by
  induction vs generalizing s with
  | nil => rfl
  | cons v vs ih =>
    rw [List.length_cons] at hlen hb
    rw [List.foldl_cons, ih (by omega) (by rw [push_reg_esp]; bv_omega), push_mem,
      Mem.store_of_le (by bv_omega)]

/-! ### Many pops -/

theorem State.OnTop.pop (h : s.OnTop (v :: ws)) {r : Reg} (hr : r ≠ .esp) :
    (exec s (.pop r)).OnTop ws ∧ (exec s (.pop r)).reg r = v := by
  refine ⟨?_, (set_reg_self _ _ _).trans h.peek⟩
  have hesp : (exec s (.pop r)).reg .esp = s.reg .esp + 4 :=
    (set_reg_of_ne _ _ _ _ hr.symm).trans (drop_reg_esp s 4)
  rw [State.OnTop, hesp]
  exact h.2

/-- What a list of pops leaves: the registers hold the words that were on top, the first popped the
first. -/
structure Popped (s t : State) (rs : List Reg) (vs ws : List Word) : Prop where
  /-- The rest is on top. -/
  onTop : t.OnTop ws
  /-- The stack pointer has moved. -/
  esp : t.reg .esp = s.reg .esp + BitVec.ofNat 32 (4 * rs.length)
  /-- Every register holds its word. -/
  reg : ∀ r v, (r, v) ∈ rs.zip vs → t.reg r = v
  /-- The other registers. -/
  frame : ∀ r, r ∉ .esp :: rs → t.reg r = s.reg r
  /-- Memory and the rest of the machine. -/
  same : t = { s with reg := t.reg }

theorem State.OnTop.pops {rs : List Reg} (h : s.OnTop (vs ++ ws)) (hlen : rs.length = vs.length)
    (hrs : (Reg.esp :: rs).Nodup) : Popped s (run (rs.map .pop) s) rs vs ws := by
  induction rs generalizing s vs with
  | nil =>
    obtain rfl := List.length_eq_zero_iff.mp hlen.symm
    exact ⟨h, (by bv_omega : s.reg .esp = s.reg .esp + BitVec.ofNat 32 (4 * 0)), nofun,
      fun _ _ => rfl, rfl⟩
  | cons r rs ih =>
    obtain ⟨v, vs, rfl⟩ := List.exists_cons_of_length_eq_add_one hlen.symm
    obtain ⟨⟨hr, hesp⟩, hnot, hnodup⟩ : (Reg.esp ≠ r ∧ Reg.esp ∉ rs) ∧ r ∉ rs ∧ rs.Nodup := by
      simpa [not_or] using hrs
    obtain ⟨hrest, hv⟩ := @State.OnTop.pop s v (vs ++ ws) h r hr.symm
    have hp := ih hrest (by simpa using hlen) (List.nodup_cons.mpr ⟨hesp, hnodup⟩)
    have hmoved : (exec s (.pop r)).reg .esp = s.reg .esp + 4 :=
      (set_reg_of_ne _ _ _ _ hr).trans (drop_reg_esp s 4)
    refine ⟨hp.onTop, ?_, ?_, ?_, ?_⟩
    · rw [List.map_cons, run_cons, hp.esp, hmoved, List.length_cons]
      bv_omega
    · intro q w hq
      rcases List.mem_cons.mp hq with hq | hq
      · cases hq
        rw [List.map_cons, run_cons, hp.frame r (by simp [hr.symm, hnot]), hv]
      · exact hp.reg q w hq
    · intro q hq
      obtain ⟨hqesp, hqr, hqrs⟩ : q ≠ .esp ∧ q ≠ r ∧ q ∉ rs := by simpa [not_or] using hq
      rw [List.map_cons, run_cons, hp.frame q (by simp [hqesp, hqrs])]
      exact (set_reg_of_ne _ _ _ _ hqr).trans (drop_reg_of_ne _ _ _ hqesp)
    · exact hp.same

theorem State.OnTop.popal {edi esi ebp esp ebx edx ecx eax : Word}
    (h : s.OnTop ([edi, esi, ebp, esp, ebx, edx, ecx, eax] ++ ws)) :
    (exec s .popal).OnTop ws ∧ exec s .popal =
      { s with reg := fun r => match r with
          | .eax => eax
          | .ecx => ecx
          | .edx => edx
          | .ebx => ebx
          | .esp => s.reg .esp + 32
          | .ebp => ebp
          | .esi => esi
          | .edi => edi } := by
  obtain ⟨⟨h0, h1, h2, -, h4, h5, h6, h7, -⟩, hrest⟩ := Mem.words_append.mp h
  have hoff : ∀ a : Word, a + 4 + 4 = a + 8 ∧ a + 8 + 4 + 4 = a + 16 ∧ a + 16 + 4 = a + 20 ∧
      a + 20 + 4 = a + 24 ∧ a + 24 + 4 = a + 28 := fun a => by
    refine ⟨?_, ?_, ?_, ?_, ?_⟩ <;> bv_omega
  obtain ⟨e8, e16, e20, e24, e28⟩ := hoff (s.reg .esp)
  rw [e8] at h2 h4 h5 h6 h7
  rw [e16] at h4 h5 h6 h7
  rw [e20] at h5 h6 h7
  rw [e24] at h6 h7
  rw [e28] at h7
  have heq : exec s .popal = { s with reg := fun r => match r with
      | .eax => eax
      | .ecx => ecx
      | .edx => edx
      | .ebx => ebx
      | .esp => s.reg .esp + 32
      | .ebp => ebp
      | .esi => esi
      | .edi => edi } := by
    refine State.ext (funext fun r => ?_) rfl rfl rfl rfl
    cases r with
    | esp => rfl
    | edi => exact (by rw [word_add_zero] : s.mem.load (s.reg .esp + 0) = _).trans h0
    | esi => exact h1
    | ebp => exact h2
    | ebx => exact h4
    | edx => exact h5
    | ecx => exact h6
    | eax => exact h7
  refine ⟨?_, heq⟩
  rw [heq]
  exact hrest

/-- The end of an interrupt entry: two words are skipped, and the interrupted code goes on. -/
theorem State.OnTop.iret {x y eip cs eflags : Word} (h : s.OnTop [x, y, eip, cs, eflags]) :
    run [.addImm 8 .esp, .iret] s =
      { reg := Function.update s.reg .esp (s.reg .esp + 20)
        eip := eip
        cs := cs.setWidth 16
        eflags := eflags
        mem := s.mem } := by
  obtain ⟨-, -, heip, hcs, heflags, -⟩ := h
  have hpeek : ∀ off : Word,
      (exec s (.addImm 8 .esp)).peek off = s.mem.load (s.reg .esp + 4 + 4 + off) := fun off => by
    show s.mem.load ((s.set .esp (s.reg .esp + 8)).reg .esp + off) = _
    rw [set_reg_self, show s.reg .esp + 8 = s.reg .esp + 4 + 4 by bv_omega]
  refine State.ext (funext fun r => ?_) ?_ ?_ ?_ rfl
  · show ((s.set .esp (s.reg .esp + 8)).drop 12).reg r =
      Function.update s.reg .esp (s.reg .esp + 20) r
    rcases eq_or_ne r .esp with rfl | hr
    · rw [drop_reg_esp, set_reg_self, Function.update_self]
      bv_omega
    · rw [drop_reg_of_ne _ _ _ hr, set_reg_of_ne _ _ _ _ hr, Function.update_of_ne hr]
  · exact (hpeek 0).trans (by rw [word_add_zero, heip])
  · show ((exec s (.addImm 8 .esp)).peek 4).setWidth 16 = cs.setWidth 16
    rw [hpeek, hcs]
  · show (exec s (.addImm 8 .esp)).peek 8 = eflags
    rw [hpeek, ← heflags]
    congr 1
    bv_omega

/-! ### Interrupts -/

/-- What lies on the stack when a handler is entered. -/
theorem State.interrupt_onTop (s : State) (gate : Word) (selector : BitVec 16) (mask : Word)
    (err : Option Word) :
    (s.interrupt gate selector mask err).OnTop
      (err.toList ++ [s.eip, s.cs.setWidth 32, s.eflags]) := by
  have hframe : (((s.push s.eflags).push (s.cs.setWidth 32)).push s.eip).OnTop
      [s.eip, s.cs.setWidth 32, s.eflags] :=
    ((s.onTop_nil.push (by simp)).push (by simp)).push (by simp)
  cases err with
  | none => exact hframe
  | some e => exact hframe.push (by simp)

theorem State.interrupt_reg (s : State) (gate : Word) (selector : BitVec 16) (mask : Word) (err : Option Word)
    {r : Reg} (hr : r ≠ .esp) : (s.interrupt gate selector mask err).reg r = s.reg r := by
  have hframe : (((s.push s.eflags).push (s.cs.setWidth 32)).push s.eip).reg r = s.reg r := by
    rw [push_reg_of_ne _ _ _ hr, push_reg_of_ne _ _ _ hr, push_reg_of_ne _ _ _ hr]
  cases err with
  | none => exact hframe
  | some e =>
    show ((((s.push s.eflags).push (s.cs.setWidth 32)).push s.eip).push e).reg r = s.reg r
    rw [push_reg_of_ne _ e _ hr, hframe]

theorem State.interrupt_esp (s : State) (gate : Word) (selector : BitVec 16) (mask : Word)
    (err : Option Word) :
    (s.interrupt gate selector mask err).reg .esp =
      s.reg .esp - 12 - BitVec.ofNat 32 (4 * err.toList.length) := by
  cases err with
  | none =>
    show s.reg .esp - 4 - 4 - 4 = _
    rw [Option.toList_none, List.length_nil]
    bv_omega
  | some e =>
    show s.reg .esp - 4 - 4 - 4 - 4 = _
    rw [Option.toList_some, List.length_singleton]
    bv_omega

/-- What lies on the stack once a handler has pushed more. -/
theorem State.interrupt_pushAll (s : State) (gate : Word) (selector : BitVec 16) (mask : Word)
    (err : Option Word) (hlen : vs.length < 2 ^ 10) :
    let t := vs.reverse.foldl State.push (s.interrupt gate selector mask err)
    t.OnTop (vs ++ (err.toList ++ [s.eip, s.cs.setWidth 32, s.eflags])) ∧
      t.reg .esp = s.reg .esp - BitVec.ofNat 32 (12 + 4 * (vs.length + err.toList.length)) ∧
      ∀ r, r ≠ .esp → t.reg r = s.reg r := by
  intro t
  have herr : err.toList.length ≤ 1 := by cases err <;> simp
  have htop := @State.OnTop.pushAll _ _ vs.reverse (s.interrupt_onTop gate selector mask err) (by
    simp only [List.length_append, List.length_reverse, List.length_cons, List.length_nil]
    omega)
  rw [List.reverse_reverse] at htop
  refine ⟨htop, ?_, fun r hr => ?_⟩
  · rw [pushAll_esp, State.interrupt_esp, List.length_reverse]
    bv_omega
  · rw [pushAll_reg_of_ne _ _ hr, State.interrupt_reg _ _ _ _ _ hr]

end OnTop

end Ia32

end Auos
