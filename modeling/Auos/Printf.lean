import Auos.Utoa
import Mathlib.Algebra.Group.Even

/-!
# Formatted output

`printf` of `io.c` and what it calls. The characters that reach the consoles are collected in a list;
which consoles there are makes no difference to `printf`.

After a `%` the code takes the next character without asking whether it is the terminating zero. A
format that ends in a lone `%` is read beyond its end. Such a read is `none` in the model, as is a
missing argument, a store outside the buffer or a loop that needs more rounds than it is given.

## Main definitions

* `putsNoNewline`, `printfConversion`, `printf`
* `rendered`, `conversions` — what a format means, and how many arguments it takes
* `trailingPercents` — how a format ends

## Main results

* `printfConversion_spec` — one conversion
* `printf_spec` — the output of a format that does not end within a conversion
* `printf_returns_iff` — which formats are not read beyond their end
-/

namespace Auos

/-! ### The code -/

/-- The character that starts a conversion. -/
abbrev percent : UInt8 := 0x25

/-- The size of the buffer of `printf`. -/
abbrev printfBufferSize : ℕ := 20

/-- `puts_no_newline`, for the characters that a pointer finds. -/
def putsNoNewline (read : ℕ → Option UInt8) : ℕ → ℕ → List UInt8 → Option (List UInt8)
  | 0, _, _ => none
  | rounds + 1, i, out => do
    let c ← read i
    if c ≠ 0 then putsNoNewline read rounds (i + 1) (out ++ [c]) else some out

/-- The characters that have been put, the arguments that are left, and the buffer. -/
structure PrintfState where
  out : List UInt8
  args : List ℕ
  buffer : ℕ → UInt8

/-- `va_arg`. -/
def vaArg : List ℕ → Option (ℕ × List ℕ)
  | [] => none
  | arg :: args => some (arg, args)

/-- The bytes of a string in memory. -/
def stringBytes (mem : Memory) (ptr i : ℕ) : UInt8 := mem (wadd ptr i)

/-- The branches of `printf` for the character `c` after a `%`. -/
def printfConversion (mem : Memory) (rounds : ℕ) (c : UInt8) (st : PrintfState) :
    Option PrintfState :=
  if c = 0x75 ∨ c = 0x78 then do
    let (value, args) ← vaArg st.args
    let buffer ← utoa printfBufferSize rounds st.buffer 0 value (if c = 0x78 then 16 else 10)
    let out ← putsNoNewline (Buffer.load printfBufferSize buffer) rounds 0 st.out
    some ⟨out, args, buffer⟩
  else if c = 0x64 then do
    let (value, args) ← vaArg st.args
    let buffer ← itoa printfBufferSize rounds st.buffer 0 value (if c = 0x78 then 16 else 10)
    let out ← putsNoNewline (Buffer.load printfBufferSize buffer) rounds 0 st.out
    some ⟨out, args, buffer⟩
  else if c = 0x73 then do
    let (value, args) ← vaArg st.args
    let out ← putsNoNewline (fun i => some (stringBytes mem value i)) rounds 0 st.out
    some { st with out := out, args := args }
  else if c = 0x63 then do
    let (value, args) ← vaArg st.args
    some { st with out := st.out ++ [UInt8.ofNat value], args := args }
  else some { st with out := st.out ++ [c] }

/-- The character at `i` of a format whose terminating zero is at `len`. -/
def formatChar (mem : Memory) (fmt len i : ℕ) : Option UInt8 :=
  if i ≤ len then some (stringBytes mem fmt i) else none

/-- The loop of `printf` from the character `i` on. The loops that it calls may make `bound` rounds. -/
def printfLoop (mem : Memory) (fmt len bound : ℕ) : ℕ → ℕ → PrintfState → Option (List UInt8)
  | 0, _, _ => none
  | rounds + 1, i, st => do
    let c ← formatChar mem fmt len i
    if c = 0 then some st.out
    else if c ≠ percent then
      printfLoop mem fmt len bound rounds (i + 1) { st with out := st.out ++ [c] }
    else do
      let c ← formatChar mem fmt len (i + 1)
      let st ← printfConversion mem bound c st
      printfLoop mem fmt len bound rounds (i + 2) st

/-- `printf`, with the format at `fmt`. -/
def printf (mem : Memory) (fmt len bound : ℕ) (buffer : ℕ → UInt8) (args : List ℕ) :
    Option (List UInt8) :=
  printfLoop mem fmt len bound bound 0 ⟨[], args, buffer⟩

/-! ### What is meant -/

/-- The conversions that take an argument: `u`, `x`, `d`, `s` and `c`. -/
def takesArgument (c : UInt8) : Bool := c == 0x75 || c == 0x78 || c == 0x64 || c == 0x73 || c == 0x63

/-- The text of an argument. -/
def conversionText (string : ℕ → List UInt8) (c : UInt8) (arg : ℕ) : List UInt8 :=
  if c = 0x75 then numeral 10 arg
  else if c = 0x78 then numeral 16 arg
  else if c = 0x64 then decimal arg
  else if c = 0x73 then string arg
  else [UInt8.ofNat arg]

/-- **What a format means**, with the strings that the arguments point to. -/
def rendered (string : ℕ → List UInt8) : List UInt8 → List ℕ → List UInt8
  | [], _ => []
  | [c], _ => [c]
  | c :: d :: rest, args =>
    if c ≠ percent then c :: rendered string (d :: rest) args
    else if takesArgument d = true then
      conversionText string d (args.headD 0) ++ rendered string rest args.tail
    else d :: rendered string rest args

/-- The number of arguments that a format takes. -/
def conversions : List UInt8 → ℕ
  | [] => 0
  | [_] => 0
  | c :: d :: rest =>
    if c ≠ percent then conversions (d :: rest)
    else (if takesArgument d = true then 1 else 0) + conversions rest

/-- The format does not end within a conversion. -/
def Closed : List UInt8 → Prop
  | [] => True
  | [c] => c ≠ percent
  | c :: d :: rest => if c ≠ percent then Closed (d :: rest) else Closed rest

/-- The number of `%` characters at the end of a format. -/
def trailingPercents (text : List UInt8) : ℕ := (text.reverse.takeWhile (· == percent)).length

/-! ### How a format ends -/

section Ending

variable {c d : UInt8} {text rest : List UInt8}

theorem trailingPercents_le (text : List UInt8) : trailingPercents text ≤ text.length := by
  have hle := (List.takeWhile_prefix (p := (· == percent)) (l := text.reverse)).length_le
  rwa [List.length_reverse] at hle

/-- A character in front counts only if it is a `%` and nothing else follows. -/
theorem trailingPercents_cons (c : UInt8) (rest : List UInt8) :
    trailingPercents (c :: rest) =
      if trailingPercents rest = rest.length ∧ c = percent then rest.length + 1
      else trailingPercents rest := by
  unfold trailingPercents
  rw [List.reverse_cons, List.takeWhile_append, List.length_reverse]
  by_cases hall : (rest.reverse.takeWhile (· == percent)).length = rest.length
  · by_cases hc : c = percent
    · simp [hall, hc]
    · have hbeq : (c == percent) = false := beq_eq_false_iff_ne.mpr hc
      simp [hall, hc, hbeq]
  · simp [hall]

/-- **A format ends within a conversion exactly if it ends in an odd number of `%`.** -/
theorem closed_iff (text : List UInt8) : Closed text ↔ Even (trailingPercents text) := by
  induction text using Closed.induct with
  | case1 => simp [Closed, trailingPercents]
  | case2 c =>
    by_cases hc : c = percent
    · simp [Closed, trailingPercents, hc]
    · simp [Closed, trailingPercents, hc]
  | case3 c d rest hc ih =>
    rw [Closed, if_pos hc, trailingPercents_cons, if_neg fun h => hc h.2]
    exact ih
  | case4 c d rest hc ih =>
    have hle := trailingPercents_le rest
    have hlen : (d :: rest).length = rest.length + 1 := rfl
    rw [Closed, if_neg hc, ih, trailingPercents_cons c, trailingPercents_cons d, hlen]
    by_cases hall : trailingPercents rest = rest.length ∧ d = percent
    · rw [if_pos hall, if_pos ⟨rfl, not_not.mp hc⟩, hall.1, Nat.even_add_one, Nat.even_add_one,
        not_not]
    · rw [if_neg hall, if_neg]
      rintro ⟨heq, -⟩
      omega

end Ending

/-! ### Strings -/

section Strings

variable {mem : Memory} {fmt ptr rounds i : ℕ} {out s pre rest : List UInt8} {c : UInt8}
  {read : ℕ → Option UInt8}

/-- **`puts_no_newline` puts the characters before the terminating zero.** -/
theorem putsNoNewline_spec (hread : ∀ j (h : j < s.length), read (i + j) = some (s.get ⟨j, h⟩))
    (hzero : read (i + s.length) = some 0) (hs : (0 : UInt8) ∉ s) (hrounds : s.length < rounds) :
    putsNoNewline read rounds i out = some (out ++ s) := by
  obtain ⟨rounds, rfl⟩ := Nat.exists_eq_succ_of_ne_zero (Nat.ne_zero_of_lt hrounds)
  induction s generalizing i rounds out with
  | nil =>
    rw [putsNoNewline, show read i = some 0 from hzero, Option.bind_eq_bind, Option.bind_some,
      if_neg (not_not.mpr rfl), List.append_nil]
  | cons c s ih =>
    have hc : c ≠ 0 := fun heq => hs (heq ▸ List.mem_cons_self)
    have hfirst : read i = some c := hread 0 (Nat.succ_pos _)
    have hrounds' : s.length < rounds := Nat.lt_of_succ_lt_succ hrounds
    obtain ⟨rounds, rfl⟩ := Nat.exists_eq_succ_of_ne_zero (Nat.ne_zero_of_lt hrounds')
    have hrest := @ih (i + 1) (out ++ [c])
      (fun j hj => by
        rw [Nat.add_assoc, Nat.add_comm 1]
        exact hread (j + 1) (Nat.succ_lt_succ hj))
      (by rw [Nat.add_assoc, Nat.add_comm 1]; exact hzero)
      (fun hmem => hs (List.mem_cons_of_mem c hmem)) rounds hrounds'
    rw [putsNoNewline, hfirst, Option.bind_eq_bind, Option.bind_some, if_pos hc, hrest,
      List.append_assoc]
    rfl

/-- A string in the buffer of `printf`. -/
theorem putsNoNewline_buffer {buf : ℕ → UInt8} (h : StringAt buf 0 s)
    (hs : s.length < printfBufferSize) (hrounds : s.length < rounds) :
    putsNoNewline (Buffer.load printfBufferSize buf) rounds 0 out = some (out ++ s) := by
  refine putsNoNewline_spec ?_ ?_ h.ne_zero hrounds
  · intro j hj
    rw [Buffer.load_of_lt (by omega), h.char_eq j hj]
  · rw [Buffer.load_of_lt (by omega), h.zero_eq]

/-- A string in memory. -/
theorem putsNoNewline_memory (h : StringAt (stringBytes mem ptr) 0 s) (hrounds : s.length < rounds) :
    putsNoNewline (fun i => some (stringBytes mem ptr i)) rounds 0 out = some (out ++ s) :=
  putsNoNewline_spec (fun j hj => congrArg some (h.char_eq j hj)) (congrArg some h.zero_eq) h.ne_zero
    hrounds

/-- If there is a zero anywhere in memory, then every pointer points to a string. -/
theorem exists_string {z : ℕ} (hz : z < 2 ^ 32) (hmem : mem z = 0) (ptr : ℕ) :
    ∃ s, StringAt (stringBytes mem ptr) 0 s ∧ s.length < 2 ^ 32 := by
  have hreached : ∃ k < 2 ^ 32, stringBytes mem ptr k = 0 := by
    refine ⟨(z + (2 ^ 32 - ptr % 2 ^ 32)) % 2 ^ 32, Nat.mod_lt _ (by decide), ?_⟩
    have haddr : wadd ptr ((z + (2 ^ 32 - ptr % 2 ^ 32)) % 2 ^ 32) = z := by
      unfold wadd wrap
      omega
    rw [stringBytes, haddr, hmem]
  obtain ⟨k, hk, hzero⟩ := hreached
  have hex : ∃ n, stringBytes mem ptr n = 0 := ⟨k, hzero⟩
  refine ⟨(List.range (Nat.find hex)).map (stringBytes mem ptr), ⟨?_, ?_, ?_⟩, ?_⟩
  · intro j hj
    simp
  · rw [List.length_map, List.length_range, Nat.zero_add]
    exact Nat.find_spec hex
  · intro hmem'
    obtain ⟨j, hj, hchar⟩ := List.mem_map.mp hmem'
    exact Nat.find_min hex (List.mem_range.mp hj) hchar
  · rw [List.length_map, List.length_range]
    exact (Nat.find_min' hex hzero).trans_lt hk

/-- A character of a format. -/
theorem formatChar_middle (h : StringAt (stringBytes mem fmt) 0 (pre ++ c :: rest)) :
    formatChar mem fmt (pre ++ c :: rest).length pre.length = some c ∧ c ≠ 0 := by
  have hlt : pre.length < (pre ++ c :: rest).length := by simp
  have hchar := h.char_eq pre.length hlt
  rw [Nat.zero_add] at hchar
  refine ⟨?_, fun hc => h.ne_zero (List.mem_append_right pre (hc ▸ List.mem_cons_self))⟩
  rw [formatChar, if_pos hlt.le, hchar]
  simp

/-- The terminating zero of a format. -/
theorem formatChar_end {text : List UInt8} (h : StringAt (stringBytes mem fmt) 0 text) :
    formatChar mem fmt text.length text.length = some 0 := by
  rw [formatChar, if_pos (Nat.le_refl _), ← h.zero_eq, Nat.zero_add]

/-- Nothing may be read behind it. -/
theorem formatChar_past {text : List UInt8} (hi : text.length < i) :
    formatChar mem fmt text.length i = none := if_neg (Nat.not_le.mpr hi)

end Strings

/-! ### Conversions -/

section Conversions

variable {mem : Memory} {fmt len bound rounds i arg : ℕ} {st : PrintfState} {args : List ℕ}
  {buffer : ℕ → UInt8} {out pre rest text : List UInt8} {c : UInt8} {string : ℕ → List UInt8}

/-- The conversions `u` and `x`. -/
theorem printfConversion_unsigned (hbound : 33 ≤ bound) (harg : arg < 2 ^ 32)
    (hc : c = 0x75 ∨ c = 0x78) :
    printfConversion mem bound c ⟨out, arg :: args, buffer⟩ =
      some ⟨out ++ numeral (if c = 0x78 then 16 else 10) arg, args,
        Buffer.put buffer 0 (numeral (if c = 0x78 then 16 else 10) arg ++ [0])⟩ := by
  have hbase : (if c = 0x78 then 16 else 10) = 10 ∨ (if c = 0x78 then 16 else 10) = 16 := by
    split <;> simp
  have hlow : 1 < if c = 0x78 then 16 else 10 := by omega
  have hhigh : (if c = 0x78 then 16 else 10) ≤ 36 := by omega
  have hlength := length_numeral_printf hbase harg
  have hsize : printfBufferSize = 20 := rfl
  have hstring := @stringAt_put 0 buffer _ (@zero_notMem_numeral _ arg hlow hhigh)
  rw [printfConversion, if_pos hc, vaArg, Option.bind_eq_bind, Option.bind_some]
  dsimp only
  rw [utoa_spec hlow (by omega) (by omega), Option.bind_eq_bind, Option.bind_some,
    putsNoNewline_buffer hstring (by omega) (by omega), Option.bind_eq_bind, Option.bind_some]

/-- The conversion `d`. -/
theorem printfConversion_signed (hbound : 33 ≤ bound) (harg : arg < 2 ^ 32) :
    printfConversion mem bound 0x64 ⟨out, arg :: args, buffer⟩ =
      some ⟨out ++ decimal arg, args, Buffer.put buffer 0 (decimal arg ++ [0])⟩ := by
  have hlength := length_decimal harg
  have hsize : printfBufferSize = 20 := rfl
  have hstring := @stringAt_put 0 buffer _ (zero_notMem_decimal arg)
  have hbase : (if (0x64 : UInt8) = 0x78 then 16 else 10) = 10 := rfl
  rw [printfConversion, if_neg (by decide), if_pos rfl, vaArg, Option.bind_eq_bind, Option.bind_some]
  dsimp only
  rw [hbase, itoa_spec (by omega) (by omega), Option.bind_eq_bind, Option.bind_some,
    putsNoNewline_buffer hstring (by omega) (by omega), Option.bind_eq_bind, Option.bind_some]

/-- The conversion `s`. -/
theorem printfConversion_string {s : List UInt8} (hstring : StringAt (stringBytes mem arg) 0 s)
    (hlen : s.length < bound) :
    printfConversion mem bound 0x73 ⟨out, arg :: args, buffer⟩ = some ⟨out ++ s, args, buffer⟩ := by
  rw [printfConversion, if_neg (by decide), if_neg (by decide), if_pos rfl, vaArg,
    Option.bind_eq_bind, Option.bind_some]
  dsimp only
  rw [putsNoNewline_memory hstring hlen, Option.bind_eq_bind, Option.bind_some]

/-- **A conversion that takes an argument** puts the text of the argument. -/
theorem printfConversion_spec (hstring : StringAt (stringBytes mem arg) 0 (string arg))
    (hlen : (string arg).length < bound) (hbound : 33 ≤ bound) (harg : arg < 2 ^ 32)
    (hc : takesArgument c = true) :
    ∃ buffer', printfConversion mem bound c ⟨out, arg :: args, buffer⟩ =
      some ⟨out ++ conversionText string c arg, args, buffer'⟩ := by
  simp only [takesArgument, Bool.or_eq_true, beq_iff_eq] at hc
  rcases hc with (((rfl | rfl) | rfl) | rfl) | rfl
  · exact ⟨_, printfConversion_unsigned hbound harg (Or.inl rfl)⟩
  · exact ⟨_, printfConversion_unsigned hbound harg (Or.inr rfl)⟩
  · exact ⟨_, printfConversion_signed hbound harg⟩
  · exact ⟨_, printfConversion_string hstring hlen⟩
  · exact ⟨_, rfl⟩

/-- Any other character after a `%` stands for itself. -/
theorem printfConversion_other (hc : takesArgument c = false) (st : PrintfState) :
    printfConversion mem bound c st = some { st with out := st.out ++ [c] } := by
  simp only [takesArgument, Bool.or_eq_false_iff, beq_eq_false_iff_ne] at hc
  obtain ⟨⟨⟨⟨hu, hx⟩, hd⟩, hs⟩, hchar⟩ := hc
  rw [printfConversion, if_neg (not_or.mpr ⟨hu, hx⟩), if_neg hd, if_neg hs, if_neg hchar]

/-! ### The loop -/

/-- An ordinary character. -/
theorem printfLoop_char (hfmt : StringAt (stringBytes mem fmt) 0 (pre ++ c :: rest))
    (hc : c ≠ percent) :
    printfLoop mem fmt (pre ++ c :: rest).length bound (rounds + 1) pre.length st =
      printfLoop mem fmt (pre ++ c :: rest).length bound rounds (pre ++ [c]).length
        { st with out := st.out ++ [c] } := by
  obtain ⟨hchar, hzero⟩ := formatChar_middle hfmt
  have hlen : (pre ++ [c]).length = pre.length + 1 := by simp
  rw [printfLoop, hchar, Option.bind_eq_bind, Option.bind_some, if_neg hzero, if_pos hc, hlen]

/-- A conversion. -/
theorem printfLoop_conversion {d : UInt8}
    (hfmt : StringAt (stringBytes mem fmt) 0 (pre ++ percent :: d :: rest)) :
    printfLoop mem fmt (pre ++ percent :: d :: rest).length bound (rounds + 1) pre.length st =
      (printfConversion mem bound d st).bind
        (printfLoop mem fmt (pre ++ percent :: d :: rest).length bound rounds
          (pre ++ [percent, d]).length) := by
  obtain ⟨hchar, hzero⟩ := formatChar_middle hfmt
  have hsplit : pre ++ percent :: d :: rest = (pre ++ [percent]) ++ d :: rest := by simp
  have hlen : (pre ++ [percent]).length = pre.length + 1 := by simp
  have hlen' : (pre ++ [percent, d]).length = pre.length + 2 := by simp
  have hnext := (formatChar_middle (hsplit ▸ hfmt)).1
  rw [← hsplit, hlen] at hnext
  rw [printfLoop, hchar, Option.bind_eq_bind, Option.bind_some, if_neg hzero,
    if_neg (not_not.mpr rfl), hnext, Option.bind_some, hlen']
  rfl

/-- The end of a format. -/
theorem printfLoop_end (hfmt : StringAt (stringBytes mem fmt) 0 text) :
    printfLoop mem fmt text.length bound (rounds + 1) text.length st = some st.out := by
  rw [printfLoop, formatChar_end hfmt, Option.bind_eq_bind, Option.bind_some, if_pos rfl]

/-- **A format that does not end within a conversion** is read to its end, and its output is what it
means. -/
theorem printfLoop_spec (hstring : ∀ ptr, StringAt (stringBytes mem ptr) 0 (string ptr) ∧
      (string ptr).length < bound) (hbound : 33 ≤ bound)
    (hfmt : StringAt (stringBytes mem fmt) 0 (pre ++ rest)) (hclosed : Closed rest)
    (hargs : conversions rest ≤ args.length) (hwords : ∀ a ∈ args, a < 2 ^ 32)
    (hrounds : rest.length < rounds) :
    printfLoop mem fmt (pre ++ rest).length bound rounds pre.length ⟨out, args, buffer⟩ =
      some (out ++ rendered string rest args) := by
  induction rest using Closed.induct generalizing pre args rounds out buffer with
  | case1 =>
    obtain ⟨rounds, rfl⟩ := Nat.exists_eq_succ_of_ne_zero (Nat.ne_zero_of_lt hrounds)
    rw [List.append_nil] at hfmt ⊢
    rw [printfLoop_end hfmt, rendered, List.append_nil]
  | case2 c =>
    obtain ⟨rounds, rfl⟩ := Nat.exists_eq_succ_of_ne_zero (Nat.ne_zero_of_lt hrounds)
    obtain ⟨rounds, rfl⟩ :=
      Nat.exists_eq_succ_of_ne_zero (Nat.ne_zero_of_lt (Nat.lt_of_succ_lt_succ hrounds))
    rw [printfLoop_char hfmt hclosed, printfLoop_end hfmt, rendered]
  | case3 c d rest hc ih =>
    obtain ⟨rounds, rfl⟩ := Nat.exists_eq_succ_of_ne_zero (Nat.ne_zero_of_lt hrounds)
    have hsplit : pre ++ c :: d :: rest = (pre ++ [c]) ++ d :: rest := by simp
    rw [Closed, if_pos hc] at hclosed
    rw [conversions, if_pos hc] at hargs
    have hrest := @ih _ args buffer (out ++ [c]) _ (hsplit ▸ hfmt) hclosed hargs hwords
      (Nat.lt_of_succ_lt_succ hrounds)
    rw [printfLoop_char hfmt hc, hsplit, hrest, rendered, if_pos hc, List.append_assoc]
    rfl
  | case4 c d rest hc ih =>
    obtain ⟨rounds, rfl⟩ := Nat.exists_eq_succ_of_ne_zero (Nat.ne_zero_of_lt hrounds)
    have hsplit : pre ++ percent :: d :: rest = (pre ++ [percent, d]) ++ rest := by simp
    have hlt : rest.length < rounds := by
      simp only [List.length_cons] at hrounds
      omega
    rw [Closed, if_neg hc] at hclosed
    rw [conversions, if_neg hc] at hargs
    rw [rendered, if_neg hc]
    obtain rfl := not_not.mp hc
    rw [printfLoop_conversion hfmt]
    by_cases hd : takesArgument d = true
    · rw [if_pos hd] at hargs
      obtain ⟨arg, args, rfl⟩ := List.exists_cons_of_length_pos (show 0 < args.length by omega)
      obtain ⟨hptr, hlen⟩ := hstring arg
      obtain ⟨buffer', hconv⟩ := @printfConversion_spec mem bound arg args buffer out d string
        hptr hlen hbound (hwords arg List.mem_cons_self) hd
      have hrest := @ih rounds args buffer' (out ++ conversionText string d arg) (pre ++ [percent, d])
        (hsplit ▸ hfmt) hclosed (by rw [List.length_cons] at hargs; omega)
        (fun a ha => hwords a (List.mem_cons_of_mem arg ha)) hlt
      rw [hconv, Option.bind_some, hsplit, hrest, if_pos hd, List.append_assoc]
      rfl
    · rw [if_neg hd, Nat.zero_add] at hargs
      have hrest := @ih rounds args buffer (out ++ [d]) (pre ++ [percent, d]) (hsplit ▸ hfmt) hclosed
        hargs hwords hlt
      rw [printfConversion_other (Bool.not_eq_true _ ▸ hd), Option.bind_some, hsplit, hrest, if_neg hd,
        List.append_assoc]
      rfl

/-- A lone `%` at the end: the zero behind it is taken for the character of a conversion, and then the
next character is read. -/
theorem printfLoop_lastPercent (hfmt : StringAt (stringBytes mem fmt) 0 (pre ++ [percent])) :
    printfLoop mem fmt (pre ++ [percent]).length bound (rounds + 1) pre.length st = none := by
  obtain ⟨hchar, hzero⟩ := formatChar_middle hfmt
  have hlen : (pre ++ [percent]).length = pre.length + 1 := by simp
  have hnul := formatChar_end hfmt
  have hpast : ∀ st,
      printfLoop mem fmt (pre ++ [percent]).length bound rounds (pre.length + 2) st = none := by
    intro st
    cases rounds with
    | zero => rfl
    | succ rounds =>
      rw [printfLoop, formatChar_past (by omega)]
      rfl
  rw [hlen] at hnul hchar hpast
  rw [hlen, printfLoop, hchar, Option.bind_eq_bind, Option.bind_some, if_neg hzero,
    if_neg (not_not.mpr rfl), hnul, Option.bind_some]
  simp [hpast]

/-- **A format that ends within a conversion** is read beyond its end, whatever the arguments. -/
theorem printfLoop_past (hfmt : StringAt (stringBytes mem fmt) 0 (pre ++ rest))
    (hclosed : ¬ Closed rest) :
    printfLoop mem fmt (pre ++ rest).length bound rounds pre.length st = none := by
  induction rest using Closed.induct generalizing pre rounds st with
  | case1 => exact absurd trivial hclosed
  | case2 c =>
    obtain rfl := not_not.mp hclosed
    cases rounds with
    | zero => rfl
    | succ rounds => exact printfLoop_lastPercent hfmt
  | case3 c d rest hc ih =>
    rw [Closed, if_pos hc] at hclosed
    have hsplit : pre ++ c :: d :: rest = (pre ++ [c]) ++ d :: rest := by simp
    cases rounds with
    | zero => rfl
    | succ rounds =>
      rw [printfLoop_char hfmt hc, hsplit]
      exact ih (hsplit ▸ hfmt) hclosed
  | case4 c d rest hc ih =>
    rw [Closed, if_neg hc] at hclosed
    obtain rfl := not_not.mp hc
    have hsplit : pre ++ percent :: d :: rest = (pre ++ [percent, d]) ++ rest := by simp
    cases rounds with
    | zero => rfl
    | succ rounds =>
      rw [printfLoop_conversion hfmt, Option.bind_eq_none_iff]
      intro st' _
      rw [hsplit]
      exact ih (hsplit ▸ hfmt) hclosed

/-! ### `printf` -/

/-- The arguments of a call: enough of them, and each a word. -/
structure ArgsFor (text : List UInt8) (args : List ℕ) : Prop where
  enough : conversions text ≤ args.length
  word_lt : ∀ a ∈ args, a < 2 ^ 32

/-- **The output of `printf`** for a format that does not end within a conversion. -/
theorem printf_spec (hfmt : StringAt (stringBytes mem fmt) 0 text) (hargs : ArgsFor text args)
    (hstring : ∀ ptr, StringAt (stringBytes mem ptr) 0 (string ptr) ∧ (string ptr).length < bound)
    (hbound : 33 ≤ bound) (hlen : text.length < bound) (hclosed : Closed text) :
    printf mem fmt text.length bound buffer args = some (rendered string text args) :=
  @printfLoop_spec mem fmt bound bound args buffer [] [] text string hstring hbound hfmt hclosed
    hargs.enough hargs.word_lt hlen

/-- **`printf` returns without reading beyond its format exactly if the format ends in an even number
of `%`.** A last `%` that is not part of `%%` takes the terminating zero for a conversion. -/
theorem printf_returns_iff (hfmt : StringAt (stringBytes mem fmt) 0 text) (hargs : ArgsFor text args)
    (buffer : ℕ → UInt8) :
    (∃ bound out, printf mem fmt text.length bound buffer args = some out) ↔
      Even (trailingPercents text) := by
  rw [← closed_iff]
  constructor
  · rintro ⟨bound, out, hout⟩
    by_contra hclosed
    have hpast := @printfLoop_past mem fmt bound bound ⟨[], args, buffer⟩ [] text hfmt hclosed
    exact Option.some_ne_none out (hout.symm.trans hpast)
  · intro hclosed
    -- the zero of the format ends every string
    have hz : mem (wadd fmt text.length) = 0 := by
      have hzero := hfmt.zero_eq
      rwa [Nat.zero_add] at hzero
    choose string hstring hlen using exists_string (wadd_lt fmt text.length) hz
    refine ⟨2 ^ 32 + text.length, _, printf_spec hfmt hargs (fun ptr => ⟨hstring ptr, ?_⟩)
      (by omega) (by omega) hclosed⟩
    have := hlen ptr
    omega

/-- A format with one conversion, which comes before a percent sign. -/
theorem printf_returns_iff_percentage :
    ∃ bound out, printf (fun a => [0x25, 0x75, 0x25, 0x25].getD a 0) 0 4 bound (fun _ => 0) [100] =
      some out := by
  refine (@printf_returns_iff (fun a => [0x25, 0x75, 0x25, 0x25].getD a 0) 0 [100]
    [0x25, 0x75, 0x25, 0x25] ⟨?_, by decide, by decide⟩ ⟨by decide, by decide⟩ _).mpr (by decide)
  intro i hi
  have hi' : i < 4 := hi
  interval_cases i <;> rfl

/-- **The format `%` is read beyond its end.** -/
theorem printf_reads_past :
    ¬ ∀ (mem : Memory) (fmt : ℕ) (text : List UInt8) (args : List ℕ) (buffer : ℕ → UInt8),
      StringAt (stringBytes mem fmt) 0 text → ArgsFor text args →
        ∃ bound out, printf mem fmt text.length bound buffer args = some out := by
  intro h
  have hfmt : StringAt (stringBytes (fun a => [0x25].getD a 0) 0) 0 [percent] := by
    refine ⟨?_, by decide, by decide⟩
    intro i hi
    obtain rfl : i = 0 := Nat.lt_one_iff.mp hi
    rfl
  obtain ⟨bound, out, hout⟩ := h _ 0 [percent] [] (fun _ => 0) hfmt ⟨by decide, by decide⟩
  have hpast := @printfLoop_past _ 0 bound bound ⟨[], [], fun _ => 0⟩ [] [percent] hfmt
    (not_not.mpr rfl)
  exact Option.some_ne_none out (hout.symm.trans hpast)

end Conversions

end Auos
