import Auos.Lib.Buffer
import Mathlib.Data.Nat.Basic

/-!
# Text screens in memory

A screen of `rows` rows and `cols` columns. A cell takes two bytes of video memory, a character and an
attribute, and the cells follow each other row by row.

## Main definitions

* `Pos`, `Pos.nextRow`, `Pos.advance` — the place of the cursor, and how it moves
* `cellOffset`, `cell`, `setCell` — the cell at a place

## Main results

* `store_cell` — two stores fill a cell
* `cell_setCell` — a store to one cell leaves the others alone
* `Pos.OnScreen.advance`, `Pos.OnScreen.nextRow` — the cursor stays on the screen
-/

namespace Auos

/-! ### Characters -/

/-- Line feed, which ends a row. -/
abbrev lineFeed : UInt8 := 0x0A

/-- Carriage return, which goes back to the start of the row. -/
abbrev carriageReturn : UInt8 := 0x0D

/-! ### Places -/

/-- A place on a screen. -/
@[ext] structure Pos where
  row : ℕ
  col : ℕ
  deriving DecidableEq

namespace Pos

variable {rows cols : ℕ} {p q : Pos}

/-- The start of the next row. The first row follows the last. -/
def nextRow (rows : ℕ) (p : Pos) : Pos := ⟨(p.row + 1) % rows, 0⟩

/-- The next place. -/
def advance (rows cols : ℕ) (p : Pos) : Pos :=
  if p.col + 1 = cols then p.nextRow rows else ⟨p.row, p.col + 1⟩

/-- The place is on the screen. -/
structure OnScreen (rows cols : ℕ) (p : Pos) : Prop where
  row_lt : p.row < rows
  col_lt : p.col < cols

theorem OnScreen.nextRow (h : p.OnScreen rows cols) : (p.nextRow rows).OnScreen rows cols :=
  ⟨Nat.mod_lt _ (Nat.zero_lt_of_lt h.row_lt), Nat.zero_lt_of_lt h.col_lt⟩

theorem OnScreen.advance (h : p.OnScreen rows cols) : (p.advance rows cols).OnScreen rows cols := by
  have hcol := h.col_lt
  rw [Pos.advance]
  split
  · exact h.nextRow
  · exact ⟨h.row_lt, by dsimp only; omega⟩

/-- Two rows or more: the next row is another one. -/
theorem OnScreen.nextRow_row_ne (h : p.OnScreen rows cols) (hrows : 1 < rows) :
    (p.nextRow rows).row ≠ p.row := by
  have hrow := h.row_lt
  show (p.row + 1) % rows ≠ p.row
  rcases Nat.lt_or_ge (p.row + 1) rows with hlt | hge
  · rw [Nat.mod_eq_of_lt hlt]
    omega
  · rw [show p.row + 1 = rows by omega, Nat.mod_self]
    omega

end Pos

/-! ### Cells -/

section Cells

variable {β : Type*} {rows cols : ℕ} {p q : Pos} {mem : ℕ → β} {b a : β}

/-- The offset of the character of a cell. The attribute follows it. -/
def cellOffset (cols : ℕ) (p : Pos) : ℕ := (p.col + p.row * cols) * 2

/-- The character and the attribute of a cell. -/
def cell (cols : ℕ) (mem : ℕ → β) (p : Pos) : β × β :=
  (mem (cellOffset cols p), mem (cellOffset cols p + 1))

/-- Store a character and an attribute. -/
def setCell (cols : ℕ) (mem : ℕ → β) (p : Pos) (b a : β) : ℕ → β :=
  Function.update (Function.update mem (cellOffset cols p) b) (cellOffset cols p + 1) a

/-- A row lies in the memory of the screen. -/
theorem row_end_le (h : p.row < rows) : (p.row + 1) * cols * 2 ≤ rows * cols * 2 :=
  Nat.mul_le_mul_right 2 (Nat.mul_le_mul_right cols h)

theorem Pos.OnScreen.cellOffset_lt (h : p.OnScreen rows cols) :
    cellOffset cols p + 1 < rows * cols * 2 := by
  have hcol := h.col_lt
  have hend : (p.row + 1) * cols * 2 ≤ rows * cols * 2 := row_end_le h.row_lt
  rw [Nat.add_mul, Nat.one_mul, Nat.add_mul] at hend
  rw [cellOffset, Nat.add_mul]
  omega

/-- Where an offset within a row points to. -/
theorem offset_div (hcol : p.col < cols) (e : ℕ) (he : e < 2) :
    ((cellOffset cols p + e) / 2) / cols = p.row ∧ ((cellOffset cols p + e) / 2) % cols = p.col ∧
      (cellOffset cols p + e) % 2 = e := by
  have hpos : 0 < cols := Nat.zero_lt_of_lt hcol
  have hhalf : (cellOffset cols p + e) / 2 = p.col + p.row * cols := by
    rw [cellOffset]
    omega
  refine ⟨?_, ?_, ?_⟩
  · rw [hhalf, Nat.add_mul_div_right _ _ hpos, Nat.div_eq_of_lt hcol, Nat.zero_add]
  · rw [hhalf, Nat.add_mul_mod_self_right, Nat.mod_eq_of_lt hcol]
  · rw [cellOffset]
    omega

/-- An offset belongs to one cell only. -/
theorem cellOffset_inj (hp : p.col < cols) (hq : q.col < cols) {e e' : ℕ} (he : e < 2) (he' : e' < 2)
    (h : cellOffset cols p + e = cellOffset cols q + e') : p = q ∧ e = e' := by
  obtain ⟨hrow, hcol, hbyte⟩ := offset_div hp e he
  obtain ⟨hrow', hcol', hbyte'⟩ := offset_div hq e' he'
  rw [h] at hrow hcol hbyte
  exact ⟨Pos.ext (hrow.symm.trans hrow') (hcol.symm.trans hcol'), hbyte.symm.trans hbyte'⟩

@[simp] theorem cell_setCell_self : cell cols (setCell cols mem p b a) p = (b, a) := by
  rw [cell, setCell, Function.update_of_ne (Nat.ne_of_lt (Nat.lt_succ_self _)), Function.update_self,
    Function.update_self]

theorem cell_setCell_of_ne (hp : p.col < cols) (hq : q.col < cols) (h : q ≠ p) :
    cell cols (setCell cols mem p b a) q = cell cols mem q := by
  have hne : ∀ {e e' : ℕ}, e < 2 → e' < 2 → cellOffset cols q + e ≠ cellOffset cols p + e' :=
    fun he he' heq => h (cellOffset_inj hq hp he he' heq).1
  have h₀₀ : cellOffset cols q ≠ cellOffset cols p := @hne 0 0 (by decide) (by decide)
  have h₀₁ : cellOffset cols q ≠ cellOffset cols p + 1 := @hne 0 1 (by decide) (by decide)
  have h₁₀ : cellOffset cols q + 1 ≠ cellOffset cols p := @hne 1 0 (by decide) (by decide)
  have h₁₁ : cellOffset cols q + 1 ≠ cellOffset cols p + 1 := @hne 1 1 (by decide) (by decide)
  rw [cell, cell, setCell, Function.update_of_ne h₀₁, Function.update_of_ne h₀₀,
    Function.update_of_ne h₁₁, Function.update_of_ne h₁₀]

/-- **A store to one cell leaves the others alone.** -/
theorem cell_setCell (hp : p.col < cols) (hq : q.col < cols) :
    cell cols (setCell cols mem p b a) q = if q = p then (b, a) else cell cols mem q := by
  by_cases h : q = p
  · rw [if_pos h, h, cell_setCell_self]
  · rw [if_neg h, cell_setCell_of_ne hp hq h]

/-- The two stores that fill a cell on the screen, and what is done next. -/
theorem store_cell {α : Type*} (h : p.OnScreen rows cols) (next : (ℕ → β) → Option α) :
    ((Buffer.store (rows * cols * 2) mem (cellOffset cols p) b).bind fun mem =>
      (Buffer.store (rows * cols * 2) mem (cellOffset cols p + 1) a).bind next) =
        next (setCell cols mem p b a) := by
  have hlt := h.cellOffset_lt
  rw [Buffer.store_of_lt (Nat.lt_of_succ_lt hlt), Option.bind_some, Buffer.store_of_lt hlt,
    Option.bind_some]
  rfl

end Cells

end Auos
