import Auos.Kernel
import Auos.Lib.Buffer
import Auos.Lib.Numeral

/-!
# Printing numbers

`utoa` and `itoa` of `utility.c`. The digits of a number come out lowest first, and two pointers that
move towards each other put them in order. A buffer is the memory from some pointer on, of which `size`
bytes may be written; the pointers of the code are offsets into it.

A loop is given the number of rounds that it may make. It is `none` if it needs more, as it is for a
store outside the buffer.

## Main definitions

* `utoa`, `itoa`
* `StringAt` — a string in a buffer
* `IsDecimal` — the numeral of a signed number

## Main results

* `utoaReverse_spec` — the two pointers turn a list around
* `utoa_spec`, `itoa_spec` — the string that is written
* `utoa_itoa_roundTrip` — it reads as the number it was made from
-/

namespace Auos

/-- The minus sign. -/
abbrev minusSign : UInt8 := 0x2D

/-- The value of a word of a signed type. -/
def toSigned (x : ℕ) : ℤ := if x < 2 ^ 31 then x else (x : ℤ) - 2 ^ 32

/-- The first loop of `utoa`. It returns `end` with the buffer. -/
def utoaDigits (size : ℕ) : ℕ → (ℕ → UInt8) → ℕ → ℕ → ℕ → Option ((ℕ → UInt8) × ℕ)
  | 0, _, _, _, _ => none
  | rounds + 1, buf, last, d, base => do
    let rem := d % base
    let buf ←
      Buffer.store size buf last (UInt8.ofNat (if rem < 10 then rem + 0x30 else rem + 0x61 - 10))
    if d / base ≠ 0 then utoaDigits size rounds buf (last + 1) (d / base) base
    else some (buf, last + 1)

/-- The second loop of `utoa`, between `begin` and `end`. -/
def utoaReverse (size : ℕ) : ℕ → (ℕ → UInt8) → ℕ → ℕ → Option (ℕ → UInt8)
  | 0, _, _, _ => none
  | rounds + 1, buf, first, last =>
    if first < last then do
      let tmp ← Buffer.load size buf first
      let c ← Buffer.load size buf last
      let buf ← Buffer.store size buf first c
      let buf ← Buffer.store size buf last tmp
      utoaReverse size rounds buf (first + 1) (last - 1)
    else some buf

/-- `utoa`. -/
def utoa (size rounds : ℕ) (buf : ℕ → UInt8) (off d base : ℕ) : Option (ℕ → UInt8) := do
  let (buf, last) ← utoaDigits size rounds buf off d base
  let buf ← Buffer.store size buf last 0
  utoaReverse size rounds buf off (last - 1)

/-- `itoa`, for the word `d` of a signed type. -/
def itoa (size rounds : ℕ) (buf : ℕ → UInt8) (off d base : ℕ) : Option (ℕ → UInt8) :=
  if base = 10 ∧ toSigned d < 0 then do
    let buf ← Buffer.store size buf off minusSign
    utoa size rounds buf (off + 1) (wsub 0 d) base
  else utoa size rounds buf off d base

/-! ### What is meant -/

/-- The string `s` stands in the buffer from `off` on, with its terminating zero. -/
structure StringAt (buf : ℕ → UInt8) (off : ℕ) (s : List UInt8) : Prop where
  char_eq : ∀ i (h : i < s.length), buf (off + i) = s.get ⟨i, h⟩
  zero_eq : buf (off + s.length) = 0
  ne_zero : (0 : UInt8) ∉ s

/-- The numeral of a signed number: a negative one has a sign. -/
def IsDecimal (z : ℤ) (s : List UInt8) : Prop :=
  if z < 0 then ∃ t, s = minusSign :: t ∧ IsNumeral 10 z.natAbs t else IsNumeral 10 z.natAbs s

variable {size rounds off d base : ℕ} {buf : ℕ → UInt8} {s l mid r : List UInt8}

theorem stringAt_put (hs : (0 : UInt8) ∉ s) : StringAt (Buffer.put buf off (s ++ [0])) off s := by
  refine ⟨?_, Buffer.put_middle, hs⟩
  intro i hi
  have hlt : i < (s ++ [0]).length := by rw [List.length_append]; omega
  rw [Buffer.put_add hlt]
  simp [List.getElem_append_left hi]

/-! ### The loops -/

/-- **The first loop writes the digits**, lowest first. -/
theorem utoaDigits_spec (hbase : 1 < base) (hrounds : (digitList base d).length ≤ rounds)
    (hsize : off + s.length + (digitList base d).length ≤ size) :
    utoaDigits size rounds (Buffer.put buf off s) (off + s.length) d base =
      some (Buffer.put buf off (s ++ (digitList base d).map digitChar),
        off + s.length + (digitList base d).length) := by
  induction rounds generalizing d s with
  | zero =>
    have hnil : digitList base d = [] := List.length_eq_zero_iff.mp (Nat.le_zero.mp hrounds)
    exact absurd hnil (digitList_ne_nil hbase d)
  | succ rounds ih =>
    have hlist := digitList_eq hbase d
    have hchar : UInt8.ofNat (if d % base < 10 then d % base + 0x30 else d % base + 0x61 - 10) =
        digitChar (d % base) := rfl
    rw [hlist, List.length_cons] at hrounds hsize
    rw [utoaDigits, hchar, Buffer.store_append (by omega), Option.bind_eq_bind, Option.bind_some]
    by_cases hrest : d / base = 0
    · rw [if_neg (not_not.mpr hrest), hlist, if_pos hrest]
      rfl
    · rw [if_neg hrest] at hrounds hsize hlist
      have hnext := ih (d := d / base) (s := s ++ [digitChar (d % base)])
        (Nat.le_of_succ_le_succ hrounds) (by rw [List.length_append, List.length_singleton]; omega)
      rw [List.length_append, List.length_singleton, ← Nat.add_assoc] at hnext
      rw [if_pos hrest, hnext, hlist, List.map_cons, List.length_cons, List.append_assoc]
      congr 2
      omega

/-- One round of the second loop exchanges the ends of a list. -/
theorem utoaReverse_succ {a b : UInt8} (hsize : off + l.length + mid.length + 2 ≤ size) :
    utoaReverse size (rounds + 1) (Buffer.put buf off (l ++ a :: (mid ++ b :: r))) (off + l.length)
        (off + l.length + mid.length + 1) =
      utoaReverse size rounds (Buffer.put buf off (l ++ b :: (mid ++ a :: r))) (off + l.length + 1)
        (off + l.length + mid.length) := by
  have hlast : ∀ c : UInt8, off + l.length + mid.length + 1 = off + (l ++ c :: mid).length := by
    intro c
    rw [List.length_append, List.length_cons]
    omega
  have hshape : ∀ c d : UInt8, l ++ c :: (mid ++ d :: r) = (l ++ c :: mid) ++ d :: r := by simp
  have hload : Buffer.load size (Buffer.put buf off (l ++ a :: (mid ++ b :: r)))
      (off + l.length + mid.length + 1) = some b := by
    rw [hshape, hlast a]
    exact Buffer.load_middle (by rw [← hlast a]; omega)
  have hstore : Buffer.store size (Buffer.put buf off (l ++ b :: (mid ++ b :: r)))
      (off + l.length + mid.length + 1) a = some (Buffer.put buf off (l ++ b :: (mid ++ a :: r))) := by
    rw [hshape, hshape, hlast b]
    exact Buffer.store_middle (by rw [← hlast b]; omega)
  rw [utoaReverse, if_pos (by omega), Buffer.load_middle (by omega), Option.bind_eq_bind,
    Option.bind_some, hload, Option.bind_some, Buffer.store_middle (by omega), Option.bind_eq_bind,
    Option.bind_some, hstore, Option.bind_some]
  rfl

/-- **The second loop turns a list around in place.** What stands before and behind it stays. -/
theorem utoaReverse_spec (hrounds : mid.length < rounds) (hsize : off + l.length + mid.length ≤ size) :
    utoaReverse size rounds (Buffer.put buf off (l ++ mid ++ r)) (off + l.length)
        (off + l.length + mid.length - 1) = some (Buffer.put buf off (l ++ mid.reverse ++ r)) := by
  induction mid using List.bidirectionalRec generalizing rounds l r with
  | nil =>
    obtain ⟨rounds, rfl⟩ := Nat.exists_eq_succ_of_ne_zero (Nat.ne_zero_of_lt hrounds)
    rw [utoaReverse, if_neg (by simp)]
    rfl
  | singleton a =>
    obtain ⟨rounds, rfl⟩ := Nat.exists_eq_succ_of_ne_zero (Nat.ne_zero_of_lt hrounds)
    rw [utoaReverse, if_neg (by simp)]
    rfl
  | cons_append a mid b ih =>
    obtain ⟨rounds, rfl⟩ := Nat.exists_eq_succ_of_ne_zero (Nat.ne_zero_of_lt hrounds)
    have hlength : (a :: (mid ++ [b])).length = mid.length + 2 := by simp
    have hfirst : l ++ (a :: (mid ++ [b])) ++ r = l ++ a :: (mid ++ b :: r) := by simp
    have hnext : l ++ b :: (mid ++ a :: r) = l ++ [b] ++ mid ++ a :: r := by simp
    have hprefix : off + l.length + 1 = off + (l ++ [b]).length := by
      rw [List.length_append, List.length_singleton, Nat.add_assoc]
    have hlast : off + l.length + mid.length = off + (l ++ [b]).length + mid.length - 1 := by omega
    rw [hlength] at hrounds hsize ⊢
    rw [hfirst, show off + l.length + (mid.length + 2) - 1 = off + l.length + mid.length + 1 by omega,
      utoaReverse_succ (by omega), hnext, hprefix, hlast, ih (by omega) (by omega)]
    simp

/-! ### The strings -/

/-- **`utoa` writes the numeral of `d`** and a zero behind it, if there is room for them. -/
theorem utoa_spec (hbase : 1 < base) (hrounds : (numeral base d).length < rounds)
    (hsize : off + (numeral base d).length < size) :
    utoa size rounds buf off d base = some (Buffer.put buf off (numeral base d ++ [0])) := by
  rw [length_numeral] at hrounds hsize
  have hdigits := @utoaDigits_spec size rounds off d base buf [] hbase hrounds.le hsize.le
  rw [Buffer.put_nil, List.length_nil, Nat.add_zero, List.nil_append] at hdigits
  have hlength : ((digitList base d).map digitChar).length = (digitList base d).length :=
    List.length_map _
  have hreverse := @utoaReverse_spec size rounds off buf [] ((digitList base d).map digitChar) [0]
    (hlength ▸ hrounds) (by rw [List.length_nil, hlength]; omega)
  rw [List.length_nil, Nat.add_zero, List.nil_append, List.nil_append, hlength] at hreverse
  rw [utoa, hdigits, Option.bind_eq_bind, Option.bind_some]
  dsimp only
  rw [← hlength, Buffer.store_append (by omega), Option.bind_eq_bind, Option.bind_some, hlength]
  exact hreverse

/-- The negation of a negative word is its absolute value, also for the least of them. -/
theorem natAbs_toSigned (hd : d < 2 ^ 32) :
    (toSigned d).natAbs = if toSigned d < 0 then wsub 0 d else d := by
  unfold toSigned wsub wrap
  split <;> split <;> omega

/-- The string that `itoa` writes for the word `d`. -/
def decimal (d : ℕ) : List UInt8 :=
  if toSigned d < 0 then minusSign :: numeral 10 (wsub 0 d) else numeral 10 d

/-- **`itoa` writes the numeral of a signed number.** -/
theorem itoa_spec (hrounds : (decimal d).length < rounds) (hsize : off + (decimal d).length < size) :
    itoa size rounds buf off d 10 = some (Buffer.put buf off (decimal d ++ [0])) := by
  unfold itoa decimal at *
  by_cases hneg : toSigned d < 0
  · rw [if_pos hneg, List.length_cons] at hrounds hsize
    have hsign : Buffer.store size buf off minusSign = some (Buffer.put buf off [minusSign]) := by
      have hstore := @Buffer.store_append _ size off buf minusSign [] (by rw [List.length_nil]; omega)
      rwa [Buffer.put_nil, List.length_nil, Nat.add_zero] at hstore
    have hput := @Buffer.put_put _ off buf [minusSign] (numeral 10 (wsub 0 d) ++ [0])
    rw [if_pos ⟨rfl, hneg⟩, if_pos hneg, hsign, Option.bind_eq_bind, Option.bind_some,
      utoa_spec (by decide) (by omega) (by omega)]
    exact congrArg some hput
  · rw [if_neg hneg] at hrounds hsize
    rw [if_neg fun h => hneg h.2, if_neg hneg]
    exact utoa_spec (by decide) hrounds hsize

/-! ### Round trips -/

/-- A word has at most 32 digits. -/
theorem length_numeral_word (hbase : 2 ≤ base) (hd : d < 2 ^ 32) : (numeral base d).length ≤ 32 :=
  length_numeral_le hbase (by decide) (hd.trans_le (Nat.pow_le_pow_left hbase 32))

/-- In the bases that `printf` uses it has at most ten. -/
theorem length_numeral_printf (hbase : base = 10 ∨ base = 16) (hd : d < 2 ^ 32) :
    (numeral base d).length ≤ 10 := by
  rcases hbase with rfl | rfl
  · exact length_numeral_le (by decide) (by decide) (hd.trans_le (show 2 ^ 32 ≤ 10 ^ 10 by decide))
  · exact length_numeral_le (by decide) (by decide) (hd.trans_le (show 2 ^ 32 ≤ 16 ^ 10 by decide))

theorem zero_notMem_decimal (d : ℕ) : (0 : UInt8) ∉ decimal d := by
  unfold decimal
  split
  · intro hmem
    rcases List.mem_cons.mp hmem with hsign | hdigit
    · exact absurd hsign (by decide)
    · exact zero_notMem_numeral (by decide) (by decide) hdigit
  · exact zero_notMem_numeral (by decide) (by decide)

/-- **The numeral of a signed number reads as that number.** -/
theorem isDecimal_decimal (hd : d < 2 ^ 32) : IsDecimal (toSigned d) (decimal d) := by
  have hvalue := natAbs_toSigned hd
  unfold IsDecimal decimal
  split
  · next hneg =>
    rw [if_pos hneg] at hvalue
    rw [hvalue]
    exact ⟨_, rfl, isNumeral_numeral (by decide) (by decide) (wsub 0 d)⟩
  · next hneg =>
    rw [if_neg hneg] at hvalue
    rw [hvalue]
    exact isNumeral_numeral (by decide) (by decide) d

/-- A signed word has at most ten digits and a sign. -/
theorem length_decimal (hd : d < 2 ^ 32) : (decimal d).length ≤ 11 := by
  have hlt : wsub 0 d < 2 ^ 32 := wrap_lt _
  unfold decimal
  split
  · exact Nat.succ_le_succ (length_numeral_printf (Or.inl rfl) hlt)
  · exact (length_numeral_printf (Or.inl rfl) hd).trans (by decide)

/-- **What `utoa` and `itoa` write reads as the number it was made from.** They return for every word,
given 33 rounds and room for the string, and the strings that `printf` asks for have room in its
buffer of 20 bytes. -/
theorem utoa_itoa_roundTrip :
    (∀ d base, d < 2 ^ 32 → 2 ≤ base → base ≤ 36 →
      ∃ s, IsNumeral base d s ∧ s.length ≤ 32 ∧
        ∀ size rounds buf off, 33 ≤ rounds → off + s.length < size →
          ∃ buf', utoa size rounds buf off d base = some buf' ∧ StringAt buf' off s) ∧
    (∀ d, d < 2 ^ 32 →
      ∃ s, IsDecimal (toSigned d) s ∧ s.length ≤ 11 ∧
        ∀ size rounds buf off, 33 ≤ rounds → off + s.length < size →
          ∃ buf', itoa size rounds buf off d 10 = some buf' ∧ StringAt buf' off s) ∧
    ∀ d, d < 2 ^ 32 → ∀ rounds buf, 33 ≤ rounds →
      (∃ s buf', utoa 20 rounds buf 0 d 10 = some buf' ∧ StringAt buf' 0 s ∧ IsNumeral 10 d s) ∧
      (∃ s buf', utoa 20 rounds buf 0 d 16 = some buf' ∧ StringAt buf' 0 s ∧ IsNumeral 16 d s) ∧
      ∃ s buf', itoa 20 rounds buf 0 d 10 = some buf' ∧ StringAt buf' 0 s ∧
        IsDecimal (toSigned d) s := by
  refine ⟨?_, ?_, ?_⟩
  · intro d base hd hbase hle
    have hlength := length_numeral_word hbase hd
    refine ⟨numeral base d, isNumeral_numeral hbase hle d, hlength, ?_⟩
    intro size rounds buf off hrounds hsize
    exact ⟨_, utoa_spec hbase (by omega) hsize, stringAt_put (zero_notMem_numeral hbase hle)⟩
  · intro d hd
    have hlength := length_decimal hd
    refine ⟨decimal d, isDecimal_decimal hd, hlength, ?_⟩
    intro size rounds buf off hrounds hsize
    exact ⟨_, itoa_spec (by omega) hsize, stringAt_put (zero_notMem_decimal d)⟩
  · intro d hd rounds buf hrounds
    have hten : (numeral 10 d).length ≤ 10 := length_numeral_printf (Or.inl rfl) hd
    have hsixteen : (numeral 16 d).length ≤ 10 := length_numeral_printf (Or.inr rfl) hd
    have hsigned := length_decimal hd
    refine ⟨⟨_, _, utoa_spec (by decide) (by omega) (by omega),
        stringAt_put (zero_notMem_numeral (by decide) (by decide)), ?_⟩,
      ⟨_, _, utoa_spec (by decide) (by omega) (by omega),
        stringAt_put (zero_notMem_numeral (by decide) (by decide)), ?_⟩,
      ⟨_, _, itoa_spec (by omega) (by omega), stringAt_put (zero_notMem_decimal d), ?_⟩⟩
    · exact isNumeral_numeral (by decide) (by decide) d
    · exact isNumeral_numeral (by decide) (by decide) d
    · exact isDecimal_decimal hd

/-- The least signed word. -/
theorem utoa_itoa_roundTrip_least :
    ∃ s, IsDecimal (toSigned 0x80000000) s ∧ ∃ buf',
      itoa 20 33 (fun _ => 0) 0 0x80000000 10 = some buf' ∧ StringAt buf' 0 s := by
  obtain ⟨s, hdecimal, hlength, hitoa⟩ := utoa_itoa_roundTrip.2.1 0x80000000 (by decide)
  exact ⟨s, hdecimal, hitoa 20 33 (fun _ => 0) 0 (by decide) (by omega)⟩

end Auos
