import Mathlib.Data.Nat.Digits.Lemmas
import Mathlib.Tactic.Ring

/-!
# Numerals

Numbers in text, over the digits `0` to `9` and `a` to `z`. What a numeral means is given by reading it
from left to right; how it is made, digit by digit from the right, is given by `numeral`.

## Main definitions

* `digitValue`, `readNumeral` — reading a numeral
* `IsNumeral` — the numeral of a number, without leading zeros
* `digitChar`, `numeral` — making it

## Main results

* `isNumeral_numeral` — what is made reads as the number it was made from
* `length_numeral_le` — how many digits there are
-/

namespace Auos

variable {base d n v : ℕ} {c : UInt8} {s : List UInt8} {L : List ℕ}

/-! ### Reading -/

/-- The value of a digit. -/
def digitValue (c : UInt8) : Option ℕ :=
  if 0x30 ≤ c ∧ c ≤ 0x39 then some (c.toNat - 0x30)
  else if 0x61 ≤ c ∧ c ≤ 0x7A then some (c.toNat - 0x61 + 10)
  else none

/-- One more digit, which must be below the base. -/
def readDigit (base v : ℕ) (c : UInt8) : Option ℕ := do
  let d ← digitValue c
  if d < base then some (v * base + d) else none

/-- The value of a text in some base, or `none` if it is not made of digits. -/
def readNumeral (base : ℕ) (s : List UInt8) : Option ℕ := s.foldlM (readDigit base) 0

/-- `s` is the numeral of `d`: it has digits, none of them a leading zero, and its value is `d`. -/
structure IsNumeral (base d : ℕ) (s : List UInt8) : Prop where
  ne_nil : s ≠ []
  value_eq : readNumeral base s = some d
  no_leading_zero : s.head? = some 0x30 → s = [0x30]

/-! ### Making -/

/-- The character of a digit. -/
def digitChar (v : ℕ) : UInt8 := UInt8.ofNat (if v < 10 then v + 0x30 else v + 0x61 - 10)

/-- The digits of a number, lowest first. Zero has a digit too. -/
def digitList (base d : ℕ) : List ℕ := if d = 0 then [0] else Nat.digits base d

/-- The numeral of a number. -/
def numeral (base d : ℕ) : List UInt8 := ((digitList base d).map digitChar).reverse

theorem digitValue_digitChar (h : v < 36) : digitValue (digitChar v) = some v := by
  unfold digitValue digitChar
  by_cases hv : v < 10
  · have hchar : (UInt8.ofNat (v + 0x30)).toNat = v + 0x30 := by
      rw [UInt8.toNat_ofNat']
      omega
    rw [if_pos hv, if_pos, hchar, Nat.add_sub_cancel]
    rw [UInt8.le_iff_toNat_le, UInt8.le_iff_toNat_le, hchar]
    exact ⟨show 48 ≤ v + 48 by omega, show v + 48 ≤ 57 by omega⟩
  · have hchar : (UInt8.ofNat (v + 0x61 - 10)).toNat = v + 0x61 - 10 := by
      rw [UInt8.toNat_ofNat']
      omega
    rw [if_neg hv, if_neg, if_pos, hchar]
    · exact congrArg some (show v + 97 - 10 - 97 + 10 = v by omega)
    · rw [UInt8.le_iff_toNat_le, UInt8.le_iff_toNat_le, hchar]
      exact ⟨show 97 ≤ v + 97 - 10 by omega, show v + 97 - 10 ≤ 122 by omega⟩
    · rw [UInt8.le_iff_toNat_le, UInt8.le_iff_toNat_le, hchar]
      rintro ⟨-, hle⟩
      have hle' : v + 97 - 10 ≤ 57 := hle
      omega

theorem digitChar_ne_zero (h : v < 36) : digitChar v ≠ 0 := by
  intro hzero
  have hvalue := digitValue_digitChar h
  rw [hzero] at hvalue
  cases hvalue

/-- Only the digit zero is written `0`. -/
theorem eq_zero_of_digitChar (h : v < 36) (hchar : digitChar v = 0x30) : v = 0 := by
  have hvalue := digitValue_digitChar h
  rw [hchar] at hvalue
  exact (Option.some.inj hvalue).symm

theorem readNumeral_append (base : ℕ) (s : List UInt8) (c : UInt8) :
    readNumeral base (s ++ [c]) = (readNumeral base s).bind fun v => readDigit base v c := by
  rw [readNumeral, List.foldlM_append, readNumeral]
  congr 1
  funext v
  simp

/-- **Reading the digits from the highest to the lowest** gives the number they are the digits of. -/
theorem readNumeral_reverse (hbase : base ≤ 36) (hL : ∀ v ∈ L, v < base) :
    readNumeral base (L.map digitChar).reverse = some (Nat.ofDigits base L) := by
  induction L with
  | nil => rfl
  | cons v L ih =>
    have hv : v < base := hL v List.mem_cons_self
    have hrest := ih fun w hw => hL w (List.mem_cons_of_mem v hw)
    rw [List.map_cons, List.reverse_cons, readNumeral_append, hrest, Option.bind_some, readDigit,
      digitValue_digitChar (hv.trans_le hbase), Option.bind_eq_bind, Option.bind_some, if_pos hv,
      Nat.ofDigits_cons]
    congr 1
    ring

/-! ### Digits -/

theorem digitList_lt (hbase : 1 < base) (hv : v ∈ digitList base d) : v < base := by
  unfold digitList at hv
  split at hv
  · rw [List.mem_singleton.mp hv]
    omega
  · exact Nat.digits_lt_base hbase hv

theorem ofDigits_digitList (base d : ℕ) : Nat.ofDigits base (digitList base d) = d := by
  unfold digitList
  split
  · next hd => rw [hd, Nat.ofDigits_singleton]
  · exact Nat.ofDigits_digits base d

/-- The lowest digit, and the digits of the rest. -/
theorem digitList_eq (hbase : 1 < base) (d : ℕ) :
    digitList base d = d % base :: if d / base = 0 then [] else digitList base (d / base) := by
  unfold digitList
  by_cases hd : d = 0
  · simp [hd]
  · rw [if_neg hd, Nat.digits_def' hbase (Nat.pos_of_ne_zero hd)]
    by_cases hrest : d / base = 0
    · simp [hrest]
    · simp [hrest]

theorem digitList_ne_nil (hbase : 1 < base) (d : ℕ) : digitList base d ≠ [] := by
  rw [digitList_eq hbase]
  exact List.cons_ne_nil _ _

theorem length_digitList_le (hbase : 1 < base) (hn : 0 < n) (hd : d < base ^ n) :
    (digitList base d).length ≤ n := by
  unfold digitList
  split
  · exact hn
  · exact (Nat.digits_length_le_iff hbase d).mpr hd

/-- The highest digit is zero only in the numeral of zero. -/
theorem digitList_getLast (hlast : (digitList base d).getLast? = some 0) : d = 0 := by
  by_contra hd
  have hnil : Nat.digits base d ≠ [] := Nat.digits_ne_nil_iff_ne_zero.mpr hd
  rw [digitList, if_neg hd, List.getLast?_eq_some_getLast hnil] at hlast
  exact Nat.getLast_digit_ne_zero base hd (Option.some.inj hlast)

/-! ### Numerals -/

theorem length_numeral (base d : ℕ) : (numeral base d).length = (digitList base d).length := by
  rw [numeral, List.length_reverse, List.length_map]

theorem length_numeral_le (hbase : 1 < base) (hn : 0 < n) (hd : d < base ^ n) :
    (numeral base d).length ≤ n :=
  (length_numeral base d).trans_le (length_digitList_le hbase hn hd)

/-- A numeral is a string. -/
theorem zero_notMem_numeral (hbase : 1 < base) (hle : base ≤ 36) : (0 : UInt8) ∉ numeral base d := by
  intro hmem
  rw [numeral, List.mem_reverse, List.mem_map] at hmem
  obtain ⟨v, hv, hchar⟩ := hmem
  exact digitChar_ne_zero ((digitList_lt hbase hv).trans_le hle) hchar

/-- **The numeral of a number reads as that number**, and has no leading zero. -/
theorem isNumeral_numeral (hbase : 1 < base) (hle : base ≤ 36) (d : ℕ) :
    IsNumeral base d (numeral base d) := by
  refine ⟨?_, ?_, ?_⟩
  · intro hnil
    rw [numeral, List.reverse_eq_nil_iff, List.map_eq_nil_iff] at hnil
    exact digitList_ne_nil hbase d hnil
  · rw [numeral, readNumeral_reverse hle fun v hv => digitList_lt hbase hv, ofDigits_digitList]
  · intro hhead
    rw [numeral, List.head?_reverse, List.getLast?_map, Option.map_eq_some_iff] at hhead
    obtain ⟨v, hlast, hchar⟩ := hhead
    have hv : v < base := digitList_lt hbase (List.mem_of_getLast? hlast)
    rw [eq_zero_of_digitChar (hv.trans_le hle) hchar] at hlast
    rw [digitList_getLast hlast]
    rfl

end Auos
