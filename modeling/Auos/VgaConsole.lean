import Auos.Kernel
import Auos.Lib.Run
import Auos.Lib.Screen

/-!
# The VGA console

`vga_console.c`: the console writes characters to video memory and ends rows. A cell is two bytes wide,
but the loop that blanks the rest of a row moves by one byte, and so it reaches half of the cells and
leaves `ATTR` in the last byte that it writes. Only a row that ends at its last cell comes out right.

What should be seen is given by a terminal that knows nothing of video memory: which line each row
shows, and which cells have been written or blanked.

## Main definitions

* `VgaConsole`, `newline`, `putchar`, `write` — the console
* `Terminal`, `Terminal.put`, `terminal` — what has been written
* `Shows`, `Faithful` — the console shows it, after every part of a text

## Main results

* `VgaConsole.newline_spec`, `VgaConsole.putchar_spec` — one character
* `Faithful.iff_lineFeed_last` — a text comes out right exactly if its rows end at the last column
-/

namespace Auos

/-! ### The console -/

/-- `ROWS`. -/
abbrev vgaRows : ℕ := 24

/-- `COLS`. -/
abbrev vgaCols : ℕ := 80

/-- `ATTR`. -/
abbrev vgaAttr : UInt8 := 7

/-- The bytes of video memory that belong to the screen. -/
abbrev vgaSize : ℕ := vgaRows * vgaCols * 2

/-- The video memory from `VMEM` on, and the cursor. -/
structure VgaConsole where
  vmem : ℕ → UInt8
  row : ℕ
  col : ℕ

namespace VgaConsole

/-- `shift`: the offset of the cell at the cursor. -/
def shift (console : VgaConsole) : ℕ := wmul (wadd console.col (wmul console.row vgaCols)) 2

/-- The loop of `newline` with `n` rounds left. -/
def newlineLoop (shift : ℕ) : ℕ → ℕ → (ℕ → UInt8) → Option (ℕ → UInt8)
  | 0, _, vmem => some vmem
  | n + 1, i, vmem => do
    let vmem ← Buffer.store vgaSize vmem (shift + i) 0
    let vmem ← Buffer.store vgaSize vmem (shift + i + 1) vgaAttr
    newlineLoop shift n (i + 1) vmem

/-- `newline`. -/
def newline (console : VgaConsole) : Option VgaConsole := do
  let vmem ← newlineLoop console.shift (wsub vgaCols console.col) 0 console.vmem
  some ⟨vmem, wadd console.row 1 % vgaRows, 0⟩

/-- `putchar`. -/
def putchar (console : VgaConsole) (c : UInt8) : Option VgaConsole :=
  if c = lineFeed then console.newline
  else do
    let vmem ← Buffer.store vgaSize console.vmem console.shift (c &&& 0xFF)
    let vmem ← Buffer.store vgaSize vmem (console.shift + 1) vgaAttr
    let console := { console with vmem := vmem, col := wadd console.col 1 }
    if console.col = vgaCols then console.newline else some console

/-- `write`. -/
def write (console : VgaConsole) (buf : List UInt8) : Option VgaConsole := buf.foldlM putchar console

/-- The console after `init_vga_console`, which clears the screen. -/
def init (vmem : ℕ → UInt8) : VgaConsole := ⟨fun i => if i < vgaSize then 0 else vmem i, 0, 0⟩

/-- The place of the cursor. -/
def pos (console : VgaConsole) : Pos := ⟨console.row, console.col⟩

/-- A cell of the screen. -/
def cellAt (console : VgaConsole) (p : Pos) : UInt8 × UInt8 := cell vgaCols console.vmem p

end VgaConsole

/-! ### What has been written -/

/-- A terminal: the cursor, the line since its row was entered, the line that each row shows which was
ended by a line feed and not written to since, and the cells that have been written or blanked. -/
structure Terminal where
  pos : Pos
  line : List UInt8
  shown : ℕ → Option (List UInt8)
  touched : Pos → Bool

/-- A character is written. -/
def Terminal.put (t : Terminal) (c : UInt8) : Terminal :=
  if c = lineFeed then
    { pos := t.pos.nextRow vgaRows
      line := []
      shown := Function.update t.shown t.pos.row (some t.line)
      touched := fun p => t.touched p || (p.row == t.pos.row && decide (t.pos.col ≤ p.col)) }
  else
    { pos := t.pos.advance vgaRows vgaCols
      line := if t.pos.col + 1 = vgaCols then [] else t.line ++ [c]
      shown := Function.update t.shown t.pos.row none
      touched := fun p => t.touched p || p == t.pos }

/-- The terminal after a text. -/
def terminal (text : List UInt8) : Terminal :=
  text.foldl Terminal.put ⟨⟨0, 0⟩, [], fun _ => none, fun _ => false⟩

/-- The screen shows the rows as they were ended, and what has been written or blanked has the
attribute. -/
structure Shows (t : Terminal) (console : VgaConsole) : Prop where
  rows_eq : ∀ row < vgaRows, ∀ line, t.shown row = some line →
    ∀ col < vgaCols, (console.cellAt ⟨row, col⟩).1 = line.getD col 0
  attribute_eq : ∀ p, p.OnScreen vgaRows vgaCols → t.touched p = true →
    (console.cellAt p).2 = vgaAttr

/-- After every part of a text the screen shows it, and to end a row changes no cell of another
row. -/
structure Faithful (vmem : ℕ → UInt8) (text : List UInt8) : Prop where
  shows : ∀ part, part <+: text →
    ∃ console, (VgaConsole.init vmem).write part = some console ∧ Shows (terminal part) console
  others_eq : ∀ part c console console', part ++ [c] <+: text →
    (VgaConsole.init vmem).write part = some console → console.putchar c = some console' →
    c = lineFeed ∨ console.col + 1 = vgaCols →
    ∀ p, p.row ≠ console.row → p.col < vgaCols → console'.cellAt p = console.cellAt p

/-! ### One character -/

namespace VgaConsole

variable {console console' : VgaConsole} {vmem : ℕ → UInt8} {c : UInt8} {shift i n x : ℕ} {p : Pos}

/-- The bytes after `n` rounds of the loop of `newline` from the offset `start` on. -/
def blanked (start n : ℕ) (vmem : ℕ → UInt8) (x : ℕ) : UInt8 :=
  if start ≤ x ∧ x < start + n then 0 else if x = start + n ∧ 0 < n then vgaAttr else vmem x

/-- **What the loop of `newline` writes**: `n` zeroes and one attribute. -/
theorem newlineLoop_spec (h : shift + i + n < vgaSize) :
    newlineLoop shift n i vmem = some (blanked (shift + i) n vmem) := by
  induction n generalizing i vmem with
  | zero =>
    have hnone : blanked (shift + i) 0 vmem = vmem := by
      funext x
      rw [blanked, if_neg (by omega), if_neg (by omega)]
    rw [newlineLoop, hnone]
  | succ n ih =>
    rw [newlineLoop, Buffer.store_of_lt (by omega), Option.bind_eq_bind, Option.bind_some,
      Buffer.store_of_lt (by omega), Option.bind_some, ih (by omega)]
    congr 1
    funext x
    simp only [blanked, Function.update_apply]
    grind

theorem shift_eq (h : console.pos.OnScreen vgaRows vgaCols) :
    console.shift = cellOffset vgaCols console.pos := by
  have hrow : console.row < 24 := h.row_lt
  have hcol : console.col < 80 := h.col_lt
  exact wmul_wadd_of_lt (by decide) (show (console.col + console.row * 80) * 2 < _ by omega)

theorem wadd_row (h : console.row < vgaRows) : wadd console.row 1 = console.row + 1 :=
  wadd_of_lt (show console.row + 1 < 2 ^ 32 by have : console.row < 24 := h; omega)

/-- **`newline`.** -/
theorem newline_spec (h : console.pos.OnScreen vgaRows vgaCols) :
    console.newline =
      some ⟨blanked (cellOffset vgaCols console.pos) (vgaCols - console.col) console.vmem,
        (console.pos.nextRow vgaRows).row, 0⟩ := by
  have hrow : console.row < 24 := h.row_lt
  have hcol : console.col < 80 := h.col_lt
  have hend : cellOffset vgaCols console.pos + 0 + (vgaCols - console.col) < vgaSize := by
    show (console.col + console.row * 80) * 2 + 0 + (80 - console.col) < 3840
    omega
  rw [newline, shift_eq h, wsub_of_le hcol.le (by decide), newlineLoop_spec hend, wadd_row h.row_lt]
  rfl

/-- **`putchar`** of an ordinary character. -/
theorem putchar_spec (h : console.pos.OnScreen vgaRows vgaCols) (hc : c ≠ lineFeed) :
    console.putchar c = some ⟨setCell vgaCols console.vmem console.pos c vgaAttr,
      (console.pos.advance vgaRows vgaCols).row, (console.pos.advance vgaRows vgaCols).col⟩ := by
  have hcol : console.col < 80 := h.col_lt
  have hchar : c &&& 0xFF = c := by
    apply UInt8.toNat_inj.mp
    rw [UInt8.toNat_and]
    exact (Nat.and_two_pow_sub_one_eq_mod c.toNat 8).trans (Nat.mod_eq_of_lt c.toNat_lt)
  rw [putchar, if_neg hc, shift_eq h, hchar, wadd_of_lt (show console.col + 1 < 2 ^ 32 by omega)]
  simp only [Option.bind_eq_bind, store_cell h]
  by_cases hfull : console.col + 1 = vgaCols
  · -- the row is full, and no cell is left to blank
    have hpos : console.pos.advance vgaRows vgaCols = console.pos.nextRow vgaRows := if_pos hfull
    rw [if_pos hfull, newline, hpos]
    dsimp only
    rw [wadd_row h.row_lt, hfull]
    rfl
  · have hpos : console.pos.advance vgaRows vgaCols = ⟨console.row, console.col + 1⟩ := if_neg hfull
    rw [if_neg hfull, hpos]

/-- At the last column `newline` blanks one cell, and as it should. -/
theorem blanked_last (hcol : console.col = 79) :
    blanked (cellOffset vgaCols console.pos) (vgaCols - console.col) console.vmem =
      setCell vgaCols console.vmem console.pos 0 vgaAttr := by
  have hone : vgaCols - console.col = 1 := by
    show 80 - console.col = 1
    omega
  funext x
  rw [hone, blanked, setCell, Function.update_apply, Function.update_apply]
  grind

/-- At another column the attribute of the first cell that `newline` blanks is lost. -/
theorem attribute_blanked (h : console.pos.OnScreen vgaRows vgaCols) (hcol : console.col ≠ 79) :
    (cell vgaCols (blanked (cellOffset vgaCols console.pos) (vgaCols - console.col) console.vmem)
      console.pos).2 = 0 := by
  have hlt : console.col < 80 := h.col_lt
  have hrounds : 1 < 80 - console.col := by omega
  rw [cell, blanked]
  exact if_pos ⟨Nat.le_succ _, Nat.add_lt_add_left hrounds _⟩

/-- The bytes that `newline` writes belong to the row it ends. -/
theorem cell_blanked_of_row_ne (h : console.pos.OnScreen vgaRows vgaCols) (hrow : p.row ≠ console.row)
    (hp : p.col < vgaCols) :
    cell vgaCols (blanked (cellOffset vgaCols console.pos) (vgaCols - console.col) console.vmem) p =
      cell vgaCols console.vmem p := by
  have hcol : console.col < 80 := h.col_lt
  have hcol' : p.col < 80 := hp
  have hoffset : cellOffset vgaCols console.pos = (console.col + console.row * 80) * 2 := rfl
  have hoffset' : cellOffset vgaCols p = (p.col + p.row * 80) * 2 := rfl
  have hsame : ∀ e < 2, blanked (cellOffset vgaCols console.pos) (80 - console.col) console.vmem
      (cellOffset vgaCols p + e) = console.vmem (cellOffset vgaCols p + e) := by
    intro e he
    rw [blanked, if_neg, if_neg]
    · omega
    · omega
  exact Prod.ext (hsame 0 (by decide)) (hsame 1 (by decide))

end VgaConsole

/-! ### A text -/

section Text

open VgaConsole

variable {t : Terminal} {console console' : VgaConsole} {vmem : ℕ → UInt8} {c b : UInt8}
  {text part : List UInt8}

/-- The cursor of the console is that of the terminal, and the row of the cursor holds the line. -/
structure InStep (t : Terminal) (console : VgaConsole) : Prop where
  pos_eq : console.pos = t.pos
  onScreen : t.pos.OnScreen vgaRows vgaCols
  line_length : t.line.length = t.pos.col
  line_eq : ∀ col < t.pos.col, (console.cellAt ⟨t.pos.row, col⟩).1 = t.line.getD col 0

theorem Terminal.put_lineFeed_pos (t : Terminal) : (t.put lineFeed).pos = t.pos.nextRow vgaRows := rfl

theorem Terminal.put_pos (t : Terminal) (hc : c ≠ lineFeed) :
    (t.put c).pos = t.pos.advance vgaRows vgaCols := by
  rw [Terminal.put, if_neg hc]

theorem inStep_init (vmem : ℕ → UInt8) : InStep (terminal []) (VgaConsole.init vmem) :=
  ⟨rfl, ⟨by decide, by decide⟩, rfl, fun _ h => absurd h (Nat.not_lt_zero _)⟩

theorem terminal_append (part : List UInt8) (c : UInt8) :
    terminal (part ++ [c]) = (terminal part).put c := by
  rw [terminal, List.foldl_append]
  rfl

/-- What a character does to the screen. -/
theorem InStep.putchar (h : InStep t console) (c : UInt8) :
    ∃ console', console.putchar c = some console' ∧ console'.pos = (t.put c).pos ∧
      console'.vmem = if c = lineFeed then
        blanked (cellOffset vgaCols t.pos) (vgaCols - t.pos.col) console.vmem
      else setCell vgaCols console.vmem t.pos c vgaAttr := by
  have hscreen : console.pos.OnScreen vgaRows vgaCols := h.pos_eq ▸ h.onScreen
  have hcol : console.col = t.pos.col := congrArg Pos.col h.pos_eq
  by_cases hc : c = lineFeed
  · refine ⟨_, (if_pos hc).trans (newline_spec hscreen), ?_, ?_⟩
    · rw [hc, t.put_lineFeed_pos, ← h.pos_eq]
      rfl
    · rw [if_pos hc, ← h.pos_eq]
      rfl
  · refine ⟨_, putchar_spec hscreen hc, ?_, ?_⟩
    · rw [t.put_pos hc, ← h.pos_eq]
      rfl
    · rw [if_neg hc, ← h.pos_eq]

/-- At the start of a row there is nothing to show. -/
theorem inStep_of_nextRow (h : t.pos.OnScreen vgaRows vgaCols) {t' : Terminal}
    (hpos : console'.pos = t'.pos) (hnext : t'.pos = t.pos.nextRow vgaRows) (hline : t'.line = []) :
    InStep t' console' := by
  refine ⟨hpos, hnext ▸ h.nextRow, ?_, ?_⟩
  · rw [hline, hnext]
    rfl
  · intro col hlt
    rw [hnext] at hlt
    exact absurd hlt (Nat.not_lt_zero col)

/-- An ordinary character that does not fill its row belongs to the line. -/
theorem InStep.put_within (h : InStep t console) (hput : console.putchar c = some console')
    (hc : c ≠ lineFeed) (hfull : t.pos.col + 1 ≠ vgaCols) : InStep (t.put c) console' := by
  obtain ⟨console'', hput', hpos, hvmem⟩ := h.putchar c
  rw [hput] at hput'
  cases hput'
  have hcol := h.onScreen.col_lt
  have hnext : (t.put c).pos = ⟨t.pos.row, t.pos.col + 1⟩ := (t.put_pos hc).trans (if_neg hfull)
  have hline : (t.put c).line = t.line ++ [c] := by
    rw [Terminal.put, if_neg hc]
    exact if_neg hfull
  rw [if_neg hc] at hvmem
  refine ⟨hpos, t.put_pos hc ▸ h.onScreen.advance, ?_, ?_⟩
  · rw [hline, hnext, List.length_append, h.line_length]
    rfl
  · intro col hlt
    rw [hnext] at hlt ⊢
    have hle : col ≤ t.pos.col := Nat.le_of_lt_succ hlt
    rw [hline, cellAt, hvmem, cell_setCell hcol (hle.trans_lt hcol)]
    rcases Nat.eq_or_lt_of_le hle with rfl | hlt'
    · rw [if_pos rfl, List.getD_append_right _ _ _ _ (Nat.le_of_eq h.line_length), h.line_length,
        Nat.sub_self]
      rfl
    · have hne : (⟨t.pos.row, col⟩ : Pos) ≠ t.pos := fun heq =>
        Nat.ne_of_lt hlt' (congrArg Pos.col heq)
      rw [if_neg hne, List.getD_append _ _ _ _ (h.line_length ▸ hlt')]
      exact h.line_eq col hlt'

/-- **The cursor and the line of its row stay right**, whatever is written. -/
theorem InStep.put (h : InStep t console) (hput : console.putchar c = some console') :
    InStep (t.put c) console' := by
  obtain ⟨console'', hput', hpos, -⟩ := h.putchar c
  rw [hput] at hput'
  cases hput'
  by_cases hc : c = lineFeed
  · subst hc
    exact inStep_of_nextRow h.onScreen hpos rfl rfl
  by_cases hfull : t.pos.col + 1 = vgaCols
  · refine inStep_of_nextRow h.onScreen hpos ((t.put_pos hc).trans (if_pos hfull)) ?_
    rw [Terminal.put, if_neg hc]
    exact if_pos hfull
  · exact h.put_within hput hc hfull

/-- A character that fills one cell: one that is written, or a line feed at the last column. -/
theorem InStep.cellAt_put (h : InStep t console) (hlast : c = lineFeed → t.pos.col = 79)
    (hput : console.putchar c = some console') {p : Pos} (hp : p.col < vgaCols) :
    console'.cellAt p =
      if p = t.pos then (if c = lineFeed then 0 else c, vgaAttr) else console.cellAt p := by
  obtain ⟨console'', hput', -, hvmem⟩ := h.putchar c
  rw [hput] at hput'
  cases hput'
  have hcol := h.onScreen.col_lt
  rw [cellAt, hvmem]
  by_cases hc : c = lineFeed
  · have hcol79 : console.col = 79 := (congrArg Pos.col h.pos_eq).trans (hlast hc)
    have hblank := blanked_last hcol79
    rw [h.pos_eq, show console.col = t.pos.col from congrArg Pos.col h.pos_eq] at hblank
    rw [if_pos hc, if_pos hc, hblank]
    exact cell_setCell hcol hp
  · rw [if_neg hc, if_neg hc]
    exact cell_setCell hcol hp

/-- A row that was ended at the last column shows its line. -/
theorem InStep.row_put_lineFeed (h : InStep t console) (hlast : t.pos.col = 79)
    (hput : console.putchar lineFeed = some console') {col : ℕ} (hcol : col < vgaCols) :
    (console'.cellAt ⟨t.pos.row, col⟩).1 = t.line.getD col 0 := by
  have hlength := h.line_length
  rw [h.cellAt_put (fun _ => hlast) hput hcol]
  by_cases hcell : col = 79
  · have hpos : (⟨t.pos.row, col⟩ : Pos) = t.pos := Pos.ext rfl (hcell.trans hlast.symm)
    rw [if_pos hpos, if_pos rfl, List.getD_eq_default _ _ (by omega)]
  · have hlt : col < 80 := hcol
    have hpos : (⟨t.pos.row, col⟩ : Pos) ≠ t.pos := fun heq =>
      hcell ((congrArg Pos.col heq).trans hlast)
    rw [if_neg hpos]
    exact h.line_eq col (by omega)

/-- A row shows the line that a line feed has just ended, or what it showed before. -/
theorem Terminal.shown_put {row : ℕ} {line : List UInt8} (hline : (t.put c).shown row = some line) :
    c = lineFeed ∧ row = t.pos.row ∧ line = t.line ∨ row ≠ t.pos.row ∧ t.shown row = some line := by
  by_cases hrow : row = t.pos.row
  · subst hrow
    by_cases hc : c = lineFeed
    · rw [Terminal.put, if_pos hc] at hline
      dsimp only at hline
      rw [Function.update_self] at hline
      exact Or.inl ⟨hc, rfl, (Option.some.inj hline).symm⟩
    · rw [Terminal.put, if_neg hc] at hline
      dsimp only at hline
      rw [Function.update_self] at hline
      cases hline
  · have hsame : (t.put c).shown row = t.shown row := by
      rw [Terminal.put]
      split
      · exact Function.update_of_ne hrow _ _
      · exact Function.update_of_ne hrow _ _
    exact Or.inr ⟨hrow, hsame ▸ hline⟩

/-- A character that fills one cell touches that cell only. -/
theorem Terminal.touched_put (hlast : c = lineFeed → t.pos.col = 79) {p : Pos} (hp : p.col < vgaCols)
    (htouched : (t.put c).touched p = true) : p = t.pos ∨ t.touched p = true := by
  by_cases hc : c = lineFeed
  · have hor : (t.touched p || (p.row == t.pos.row && decide (t.pos.col ≤ p.col))) = true := by
      rw [Terminal.put, if_pos hc] at htouched
      exact htouched
    simp only [Bool.or_eq_true, Bool.and_eq_true, beq_iff_eq, decide_eq_true_eq] at hor
    refine hor.symm.imp_left ?_
    rintro ⟨hrow, hle⟩
    have hcol : p.col < 80 := hp
    have hcol79 := hlast hc
    exact Pos.ext hrow (by omega)
  · have hor : (t.touched p || p == t.pos) = true := by
      rw [Terminal.put, if_neg hc] at htouched
      exact htouched
    simp only [Bool.or_eq_true, beq_iff_eq] at hor
    exact hor.symm

/-- **A character that fills one cell keeps the screen right.** -/
theorem Shows.put (hs : Shows t console) (h : InStep t console)
    (hlast : c = lineFeed → t.pos.col = 79) (hput : console.putchar c = some console') :
    Shows (t.put c) console' := by
  constructor
  · intro row hrow line hline col hcol
    rcases Terminal.shown_put hline with ⟨rfl, rfl, rfl⟩ | ⟨hother, hshown⟩
    · exact h.row_put_lineFeed (hlast rfl) hput hcol
    · rw [h.cellAt_put hlast hput hcol, if_neg fun heq => hother (congrArg Pos.row heq)]
      exact hs.rows_eq row hrow line hshown col hcol
  · intro p hp htouched
    rw [h.cellAt_put hlast hput hp.col_lt]
    by_cases hpos : p = t.pos
    · rw [if_pos hpos]
    · rw [if_neg hpos]
      exact hs.attribute_eq p hp ((Terminal.touched_put hlast hp.col_lt htouched).resolve_left hpos)

/-- **To end a row changes no cell of another row**, at whatever column it ends. -/
theorem InStep.others_eq (h : InStep t console) (hput : console.putchar c = some console')
    {p : Pos} (hrow : p.row ≠ console.row) (hp : p.col < vgaCols) :
    console'.cellAt p = console.cellAt p := by
  obtain ⟨console'', hput', -, hvmem⟩ := h.putchar c
  rw [hput] at hput'
  cases hput'
  have hscreen : console.pos.OnScreen vgaRows vgaCols := h.pos_eq ▸ h.onScreen
  rw [cellAt, hvmem]
  split
  · have hsame := cell_blanked_of_row_ne hscreen hrow hp
    rwa [h.pos_eq, show console.col = t.pos.col from congrArg Pos.col h.pos_eq] at hsame
  · have hne : p ≠ t.pos := fun heq =>
      hrow ((congrArg Pos.row heq).trans (congrArg Pos.row h.pos_eq).symm)
    exact cell_setCell_of_ne h.onScreen.col_lt hp hne

/-- The console goes along with the terminal through every text. -/
theorem write_inStep (vmem : ℕ → UInt8) (text : List UInt8) :
    ∃ console, (VgaConsole.init vmem).write text = some console ∧ InStep (terminal text) console := by
  refine @exists_foldlM_of_prefixes _ _ _ (fun part console => InStep (terminal part) console) _ _
    (inStep_init vmem) ?_ text List.prefix_rfl
  intro part c console _ h
  obtain ⟨console', hput, -⟩ := h.putchar c
  exact ⟨console', hput, terminal_append part c ▸ h.put hput⟩

/-- A text whose line feeds come at the last column comes out right. -/
theorem write_shows (vmem : ℕ → UInt8)
    (hlast : ∀ part, part ++ [lineFeed] <+: text → (terminal part).pos.col = 79)
    (hpart : part <+: text) :
    ∃ console, (VgaConsole.init vmem).write part = some console ∧
      InStep (terminal part) console ∧ Shows (terminal part) console := by
  refine @exists_foldlM_of_prefixes _ _ _ (fun part console => InStep (terminal part) console ∧
    Shows (terminal part) console) _ _ ⟨inStep_init vmem, ?_, ?_⟩ ?_ part hpart
  · intro _ _ line hline
    cases hline
  · intro _ _ htouched
    cases htouched
  · rintro part c console htext ⟨h, hs⟩
    obtain ⟨console', hput, -⟩ := h.putchar c
    rw [terminal_append]
    exact ⟨console', hput, h.put hput, hs.put h (fun hc => hlast part (hc ▸ htext)) hput⟩

theorem write_append {console₀ : VgaConsole} (hpart : console₀.write part = some console)
    (hput : console.putchar c = some console') : console₀.write (part ++ [c]) = some console' := by
  rw [write, List.foldlM_append, show part.foldlM VgaConsole.putchar console₀ = _ from hpart]
  simp [hput]

/-- **A text comes out right on the screen exactly if each of its line feeds comes at the last column
of a row.** At another column the loop that blanks the rest of the row loses attributes and leaves a
character in the row. -/
theorem Faithful.iff_lineFeed_last (vmem : ℕ → UInt8) (text : List UInt8) :
    Faithful vmem text ↔
      ∀ part, part ++ [lineFeed] <+: text → (terminal part).pos.col = 79 := by
  constructor
  · intro h part htext
    obtain ⟨console, hwrite, hstep⟩ := write_inStep vmem part
    obtain ⟨console', hput, -, hvmem⟩ := hstep.putchar lineFeed
    obtain ⟨console'', hwrite', hshows⟩ := h.shows _ htext
    rw [write_append hwrite hput] at hwrite'
    cases hwrite'
    by_contra hcol
    have hscreen : console.pos.OnScreen vgaRows vgaCols := hstep.pos_eq ▸ hstep.onScreen
    have hcol' : console.col = (terminal part).pos.col := congrArg Pos.col hstep.pos_eq
    have hzero := attribute_blanked hscreen (hcol' ▸ hcol)
    rw [hstep.pos_eq, hcol'] at hzero
    have htouched : (terminal (part ++ [lineFeed])).touched (terminal part).pos = true := by
      rw [terminal_append, Terminal.put, if_pos rfl]
      simp
    have hattr := hshows.attribute_eq (terminal part).pos hstep.onScreen htouched
    rw [if_pos rfl] at hvmem
    rw [cellAt, hvmem, hzero] at hattr
    cases hattr
  · intro hlast
    constructor
    · intro part hpart
      obtain ⟨console, hwrite, -, hshows⟩ := write_shows vmem hlast hpart
      exact ⟨console, hwrite, hshows⟩
    · intro part c console console' _ hwrite hput _ p hrow hp
      obtain ⟨console'', hwrite', hstep⟩ := write_inStep vmem part
      rw [hwrite] at hwrite'
      cases hwrite'
      exact hstep.others_eq hput hrow hp

/-- **An empty line does not come out right.** The first cell that is blanked has lost its
attribute. -/
theorem Faithful.not_emptyLine : ¬ ∀ vmem text, Faithful vmem text := by
  intro h
  obtain ⟨console, hwrite, hshows⟩ := (h (fun _ => 0) [lineFeed]).shows [lineFeed] List.prefix_rfl
  have hattr := hshows.attribute_eq ⟨0, 0⟩ ⟨by decide, by decide⟩ (by decide)
  have hbyte : (((VgaConsole.init fun _ => 0).write [lineFeed]).map fun console =>
      (console.cellAt ⟨0, 0⟩).2) = some 0 := by
    decide
  rw [hwrite, Option.map_some, hattr] at hbyte
  cases hbyte

end Text

end Auos
