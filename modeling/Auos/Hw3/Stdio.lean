import Auos.Kernel
import Auos.Lib.Run
import Auos.Lib.Screen
import Mathlib.Data.List.Infix

/-!
# The console of `hw3`

`stdio.c` of `hw3`: `myputs` writes a string to video memory, wraps rows and columns and blanks each
row that it enters. On a carriage return the code compares the column to zero where it means to set
it, so the cursor stays where it is.

## Main definitions

* `Console`, `newline`, `myputchar`, `myputs` — the console
* `cursorStep`, `cursorAfter` — the cursor of a terminal
* `Follows` — the console has the cursor of the terminal, after every part of a string

## Main results

* `myputchar_spec` — one character, and that its stores stay on the screen
* `myputs_onScreen` — the stores of every string stay on the screen
* `Follows.iff_carriageReturn_first` — the strings for which the cursor is right
-/

namespace Auos

namespace Hw3

/-! ### The console -/

/-- `rows`. -/
abbrev screenRows : ℕ := 24

/-- `cols`. -/
abbrev screenCols : ℕ := 80

/-- `attr`. -/
abbrev screenAttr : UInt8 := 7

/-- The bytes of video memory that belong to the screen. -/
abbrev screenSize : ℕ := screenRows * screenCols * 2

/-- The video memory from `video_mem` on, and the cursor. -/
structure Console where
  videoMem : ℕ → UInt8
  row : ℕ
  col : ℕ

/-- The loop of `newline` with `n` rounds left. -/
def newlineLoop : ℕ → ℕ → (ℕ → UInt8) → Option (ℕ → UInt8)
  | 0, _, videoMem => some videoMem
  | n + 1, off, videoMem => do
    let videoMem ← Buffer.store screenSize videoMem off 0x20
    let videoMem ← Buffer.store screenSize videoMem (off + 1) screenAttr
    newlineLoop n (off + 2) videoMem

/-- `newline`. -/
def newline (console : Console) : Option Console := do
  let row := wadd console.row 1 % screenRows
  let videoMem ← newlineLoop screenCols (wmul (wadd 0 (wmul row screenCols)) 2) console.videoMem
  some ⟨videoMem, row, 0⟩

/-- `myputchar`. The statement `col == 0` for a carriage return has no effect. -/
def myputchar (console : Console) (c : UInt8) : Option Console :=
  let off := wmul (wadd console.col (wmul console.row screenCols)) 2
  if c = carriageReturn then some console
  else if c = lineFeed then newline console
  else do
    let videoMem ← Buffer.store screenSize console.videoMem off c
    let videoMem ← Buffer.store screenSize videoMem (off + 1) screenAttr
    let console := { console with videoMem := videoMem, col := wadd console.col 1 }
    if console.col = screenCols then newline console else some console

/-- `myputs`: the characters of `str` up to the terminating zero, or all of them if it follows. -/
def myputs (console : Console) : List UInt8 → Option Console
  | [] => some console
  | c :: str => if c = 0 then some console else do
    let console ← myputchar console c
    myputs console str

/-- The console when the program starts. -/
def Console.start (videoMem : ℕ → UInt8) : Console := ⟨videoMem, 0, 0⟩

/-- The place of the cursor. -/
def Console.pos (console : Console) : Pos := ⟨console.row, console.col⟩

/-- The character and the attribute of a cell. -/
def Console.cellAt (console : Console) (p : Pos) : UInt8 × UInt8 := cell screenCols console.videoMem p

/-! ### What is meant -/

/-- The cursor of a terminal after a character. -/
def cursorStep (p : Pos) (c : UInt8) : Pos :=
  if c = carriageReturn then ⟨p.row, 0⟩
  else if c = lineFeed then p.nextRow screenRows
  else p.advance screenRows screenCols

/-- The cursor of a terminal after a string. -/
def cursorAfter (str : List UInt8) : Pos := str.foldl cursorStep ⟨0, 0⟩

/-- After every part of a string `myputs` has returned, which it does only if all its stores were on
the screen, and the cursor is that of the terminal. An ordinary character stands where the cursor of
the terminal was. -/
structure Follows (videoMem : ℕ → UInt8) (str : List UInt8) : Prop where
  cursor_eq : ∀ part, part <+: str →
    ∃ console, myputs (Console.start videoMem) part = some console ∧ console.pos = cursorAfter part
  stored : ∀ part c console, part ++ [c] <+: str → c ≠ carriageReturn → c ≠ lineFeed →
    myputs (Console.start videoMem) (part ++ [c]) = some console →
    console.cellAt (cursorAfter part) = (c, screenAttr)

/-! ### One character -/

section Character

variable {console console' : Console} {videoMem : ℕ → UInt8} {c : UInt8} {off n x : ℕ} {p : Pos}

/-- The bytes after `n` rounds of the loop of `newline` from the offset `off` on. -/
def spaced (off n : ℕ) (videoMem : ℕ → UInt8) (x : ℕ) : UInt8 :=
  if off ≤ x ∧ x < off + 2 * n then (if (x - off) % 2 = 0 then 0x20 else screenAttr) else videoMem x

/-- **What the loop of `newline` writes**: `n` cells with a space. -/
theorem newlineLoop_spec (h : off + 2 * n ≤ screenSize) :
    newlineLoop n off videoMem = some (spaced off n videoMem) := by
  induction n generalizing off videoMem with
  | zero =>
    have hnone : spaced off 0 videoMem = videoMem := by
      funext x
      rw [spaced, if_neg (by omega)]
    rw [newlineLoop, hnone]
  | succ n ih =>
    rw [newlineLoop, Buffer.store_of_lt (by omega), Option.bind_eq_bind, Option.bind_some,
      Buffer.store_of_lt (by omega), Option.bind_some, ih (by omega)]
    congr 1
    funext x
    simp only [spaced, Function.update_apply]
    grind

/-- The offset of the cell at a place on the screen. -/
theorem offset_eq (h : p.OnScreen screenRows screenCols) :
    wmul (wadd p.col (wmul p.row screenCols)) 2 = cellOffset screenCols p := by
  have hrow : p.row < 24 := h.row_lt
  have hcol : p.col < 80 := h.col_lt
  exact wmul_wadd_of_lt (by decide) (show (p.col + p.row * 80) * 2 < _ by omega)

theorem wadd_row (h : console.row < screenRows) : wadd console.row 1 = console.row + 1 :=
  wadd_of_lt (show console.row + 1 < 2 ^ 32 by have : console.row < 24 := h; omega)

/-- **`newline`.** -/
theorem newline_spec (hrow : console.row < screenRows) :
    newline console =
      some ⟨spaced (cellOffset screenCols (console.pos.nextRow screenRows)) screenCols console.videoMem,
        (console.pos.nextRow screenRows).row, 0⟩ := by
  have hnext : (console.row + 1) % 24 < 24 := Nat.mod_lt _ (by decide)
  have hscreen : (console.pos.nextRow screenRows).OnScreen screenRows screenCols :=
    ⟨hnext, show 0 < 80 by decide⟩
  have hend :
      cellOffset screenCols (console.pos.nextRow screenRows) + 2 * screenCols ≤ screenSize := by
    show (0 + (console.row + 1) % 24 * 80) * 2 + 2 * 80 ≤ 3840
    omega
  have hoff : wmul (wadd 0 (wmul ((console.row + 1) % screenRows) screenCols)) 2 =
      cellOffset screenCols (console.pos.nextRow screenRows) := offset_eq hscreen
  rw [newline, wadd_row hrow, hoff, newlineLoop_spec hend]
  rfl

/-- The bytes that `newline` writes belong to the row it enters. -/
theorem cell_spaced_of_row_ne (hp : p.col < screenCols) {row : ℕ} (hrow : p.row ≠ row) :
    cell screenCols (spaced (cellOffset screenCols ⟨row, 0⟩) screenCols videoMem) p =
      cell screenCols videoMem p := by
  have hcol : p.col < 80 := hp
  have hoffset : cellOffset screenCols ⟨row, 0⟩ = (0 + row * 80) * 2 := rfl
  have hoffset' : cellOffset screenCols p = (p.col + p.row * 80) * 2 := rfl
  have hsame : ∀ e < 2, spaced (cellOffset screenCols ⟨row, 0⟩) 80 videoMem
      (cellOffset screenCols p + e) = videoMem (cellOffset screenCols p + e) := by
    intro e he
    rw [spaced, if_neg]
    omega
  exact Prod.ext (hsame 0 (by decide)) (hsame 1 (by decide))

/-- An ordinary character. -/
theorem myputchar_char (h : console.pos.OnScreen screenRows screenCols) (hcr : c ≠ carriageReturn)
    (hlf : c ≠ lineFeed) :
    ∃ console', myputchar console c = some console' ∧
      console'.pos = console.pos.advance screenRows screenCols ∧
      console'.cellAt console.pos = (c, screenAttr) := by
  have hcol : console.col < 80 := h.col_lt
  have hoff : wmul (wadd console.col (wmul console.row screenCols)) 2 =
      cellOffset screenCols console.pos := offset_eq h
  rw [myputchar]
  dsimp only
  rw [if_neg hcr, if_neg hlf, hoff, wadd_of_lt (show console.col + 1 < 2 ^ 32 by omega)]
  simp only [Option.bind_eq_bind, store_cell h]
  by_cases hfull : console.col + 1 = screenCols
  · have hpos : console.pos.advance screenRows screenCols = console.pos.nextRow screenRows :=
      if_pos hfull
    have hnewline := @newline_spec ⟨setCell screenCols console.videoMem console.pos c screenAttr,
      console.row, console.col + 1⟩ h.row_lt
    rw [if_pos hfull, hpos]
    refine ⟨_, hnewline, rfl, ?_⟩
    have hother : console.pos.row ≠ (console.pos.nextRow screenRows).row :=
      (h.nextRow_row_ne (by decide)).symm
    exact (cell_spaced_of_row_ne h.col_lt hother).trans cell_setCell_self
  · have hpos : console.pos.advance screenRows screenCols = ⟨console.row, console.col + 1⟩ :=
      if_neg hfull
    rw [if_neg hfull, hpos]
    exact ⟨_, rfl, rfl, cell_setCell_self⟩

/-- **One character.** The call returns, and so its stores are on the screen. The cursor is right
except after a carriage return, which leaves it where it is. -/
theorem myputchar_spec (h : console.pos.OnScreen screenRows screenCols) (c : UInt8) :
    ∃ console', myputchar console c = some console' ∧
      console'.pos = (if c = carriageReturn then console.pos else cursorStep console.pos c) ∧
      (c ≠ carriageReturn → c ≠ lineFeed → console'.cellAt console.pos = (c, screenAttr)) := by
  by_cases hcr : c = carriageReturn
  · refine ⟨console, if_pos hcr, (if_pos hcr).symm, ?_⟩
    intro hne
    exact absurd hcr hne
  by_cases hlf : c = lineFeed
  · refine ⟨_, (if_neg hcr).trans ((if_pos hlf).trans (newline_spec h.row_lt)), ?_, ?_⟩
    · rw [if_neg hcr, cursorStep, if_neg hcr, if_pos hlf]
      rfl
    · intro _ hne
      exact absurd hlf hne
  · obtain ⟨console', hput, hpos, hcell⟩ := myputchar_char h hcr hlf
    refine ⟨console', hput, ?_, fun _ _ => hcell⟩
    rw [if_neg hcr, cursorStep, if_neg hcr, if_neg hlf, hpos]

theorem onScreen_cursorStep (h : p.OnScreen screenRows screenCols) (c : UInt8) :
    (cursorStep p c).OnScreen screenRows screenCols := by
  unfold cursorStep
  split
  · exact ⟨h.row_lt, Nat.zero_lt_of_lt h.col_lt⟩
  · split
    · exact h.nextRow
    · exact h.advance

end Character

/-! ### A string -/

section String

variable {console console' : Console} {videoMem : ℕ → UInt8} {c : UInt8} {str part : List UInt8}

theorem cursorAfter_append (part : List UInt8) (c : UInt8) :
    cursorAfter (part ++ [c]) = cursorStep (cursorAfter part) c := by
  rw [cursorAfter, List.foldl_append]
  rfl

theorem onScreen_cursorAfter (str : List UInt8) :
    (cursorAfter str).OnScreen screenRows screenCols := by
  induction str using List.reverseRecOn with
  | nil => exact ⟨by decide, by decide⟩
  | append_singleton str c ih => exact cursorAfter_append str c ▸ onScreen_cursorStep ih c

/-- A string without a zero is put character by character. -/
theorem myputs_eq_foldlM (hstr : (0 : UInt8) ∉ str) (console : Console) :
    myputs console str = str.foldlM myputchar console := by
  induction str generalizing console with
  | nil => rfl
  | cons c str ih =>
    have hc : c ≠ 0 := fun heq => hstr (heq ▸ List.mem_cons_self)
    rw [myputs, if_neg hc, List.foldlM_cons]
    congr 1
    funext console'
    exact ih (fun hmem => hstr (List.mem_cons_of_mem c hmem)) console'

theorem myputs_append (hstr : (0 : UInt8) ∉ part ++ [c]) {console₀ : Console}
    (hpart : myputs console₀ part = some console) :
    myputs console₀ (part ++ [c]) = myputchar console c := by
  have hpart' : (0 : UInt8) ∉ part := fun hmem => hstr (List.mem_append_left [c] hmem)
  rw [myputs_eq_foldlM hpart'] at hpart
  rw [myputs_eq_foldlM hstr, List.foldlM_append, hpart]
  simp

/-- **The stores of `myputs` stay on the screen**, whatever the string. -/
theorem myputs_onScreen (h : console.pos.OnScreen screenRows screenCols) (str : List UInt8) :
    ∃ console', myputs console str = some console' ∧
      console'.pos.OnScreen screenRows screenCols := by
  induction str generalizing console with
  | nil => exact ⟨console, rfl, h⟩
  | cons c str ih =>
    rw [myputs]
    by_cases hc : c = 0
    · exact ⟨console, if_pos hc, h⟩
    · obtain ⟨console₁, hput, hpos, -⟩ := myputchar_spec h c
      have hscreen : console₁.pos.OnScreen screenRows screenCols := by
        rw [hpos]
        split
        · exact h
        · exact onScreen_cursorStep h c
      rw [if_neg hc, hput]
      exact ih hscreen

/-- If carriage returns come at the first column only, the console follows the terminal. -/
theorem follows_of_first
    (hfirst : ∀ part, part ++ [carriageReturn] <+: str → (cursorAfter part).col = 0)
    (hpart : part <+: str) :
    ∃ console, part.foldlM myputchar (Console.start videoMem) = some console ∧
      console.pos = cursorAfter part := by
  refine @exists_foldlM_of_prefixes _ _ _
    (fun part (console : Console) => console.pos = cursorAfter part) _ _ rfl ?_ part hpart
  intro part c console hmore hpos
  have hscreen : console.pos.OnScreen screenRows screenCols := hpos ▸ onScreen_cursorAfter part
  obtain ⟨console', hput, hpos', -⟩ := myputchar_spec hscreen c
  refine ⟨console', hput, ?_⟩
  rw [hpos', cursorAfter_append, hpos]
  by_cases hcr : c = carriageReturn
  · have hcol := hfirst part (hcr ▸ hmore)
    rw [if_pos hcr, cursorStep, if_pos hcr]
    exact Pos.ext rfl hcol
  · rw [if_neg hcr]

/-- **The cursor is that of the terminal after every part of a string exactly if each carriage return
comes at the first column**, where it has nothing to do. -/
theorem Follows.iff_carriageReturn_first (videoMem : ℕ → UInt8) (hstr : (0 : UInt8) ∉ str) :
    Follows videoMem str ↔
      ∀ part, part ++ [carriageReturn] <+: str → (cursorAfter part).col = 0 := by
  have hzero : ∀ part, part <+: str → (0 : UInt8) ∉ part := fun part hpart hmem =>
    hstr (hpart.subset hmem)
  constructor
  · intro h part hmore
    have hpart : part <+: str := (List.prefix_append part _).trans hmore
    obtain ⟨console, hput, hpos⟩ := h.cursor_eq part hpart
    obtain ⟨console', hput', hpos'⟩ := h.cursor_eq _ hmore
    rw [myputs_append (hzero _ hmore) hput, myputchar, if_pos rfl] at hput'
    cases hput'
    rw [hpos, cursorAfter_append, cursorStep, if_pos rfl] at hpos'
    exact congrArg Pos.col hpos'
  · intro hfirst
    constructor
    · intro part hpart
      rw [myputs_eq_foldlM (hzero part hpart)]
      exact follows_of_first hfirst hpart
    · intro part c console' hmore hcr hlf hput
      have hpart : part <+: str := (List.prefix_append part _).trans hmore
      obtain ⟨console, hfold, hpos⟩ := @follows_of_first videoMem str part hfirst hpart
      rw [← myputs_eq_foldlM (hzero part hpart)] at hfold
      have hscreen : console.pos.OnScreen screenRows screenCols := hpos ▸ onScreen_cursorAfter part
      obtain ⟨console'', hput', -, hcell⟩ := myputchar_spec hscreen c
      rw [myputs_append (hzero _ hmore) hfold, hput'] at hput
      cases hput
      rw [← hpos]
      exact hcell hcr hlf

/-- A line, and a carriage return before the next one. The same return before the line feed is not at
the first column. -/
theorem Follows.iff_carriageReturn_first_lines :
    Follows (fun _ => 0) [0x61, lineFeed, carriageReturn, 0x62] ∧
      ¬Follows (fun _ => 0) [0x61, carriageReturn, lineFeed, 0x62] := by
  constructor
  · refine (Follows.iff_carriageReturn_first (fun _ => 0) (by decide)).mpr fun part hmore => ?_
    have hcol : ∀ part ∈ [0x61, lineFeed, carriageReturn, 0x62].inits,
        part ++ [carriageReturn] <+: [0x61, lineFeed, carriageReturn, 0x62] →
          (cursorAfter part).col = 0 := by decide
    exact hcol part ((List.mem_inits _ _).mpr ((List.prefix_append part _).trans hmore)) hmore
  · intro h
    have hfirst := (Follows.iff_carriageReturn_first (fun _ => 0) (by decide)).mp h
    exact absurd (hfirst [0x61] ⟨[lineFeed, 0x62], rfl⟩) (by decide)

/-- **After a character a carriage return does not bring the cursor back.** -/
theorem Follows.not_carriageReturn : ¬ ∀ videoMem str, (0 : UInt8) ∉ str → Follows videoMem str := by
  intro h
  obtain ⟨console, hput, hpos⟩ :=
    (h (fun _ => 0) [0x61, carriageReturn] (by decide)).cursor_eq _ List.prefix_rfl
  have hcursor : ((myputs (Console.start fun _ => 0) [0x61, carriageReturn]).map Console.pos) =
      some ⟨0, 1⟩ := by
    decide
  rw [hput, Option.map_some, hpos] at hcursor
  revert hcursor
  decide

end String

end Hw3

end Auos
