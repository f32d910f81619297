import SpatulaOS.Video.Terminal

/-!
# The screen and a terminal without end

A terminal without end writes characters on a grid that is never scrolled. After `vga_clear`,
what `vga_print` shows of a string without backspaces is the part of the grid that ends at
its cursor, 25 rows of it (`vgaPrint_window`).
-/

namespace SpatulaOS.Video

open ByteMemory Window

/-- A terminal with rows without end. -/
structure Grid where
  /-- The characters that are stored. -/
  cells : ℕ → ℕ → Option Byte
  /-- The row of the cursor. -/
  row : ℕ
  /-- The column of the cursor. -/
  column : ℕ

variable {t : Terminal} {c color : Byte} {s : ℕ} {g : Grid} {r : Roll Cell} {str : List Byte}

/-- The terminal on which nothing is stored. -/
def Grid.empty : Grid := ⟨fun _ _ => none, 0, 0⟩

/-- A newline goes to the next row; any other character is stored, and the cursor advances, to the
next row at column 80. -/
def Grid.put (g : Grid) (c : Byte) : Grid :=
  if c = charNewline then { g with row := g.row + 1, column := 0 }
  else
    let cells := fun i j => if i = g.row ∧ j = g.column then some c else g.cells i j
    if g.column + 1 = VGA_WIDTH then ⟨cells, g.row + 1, 0⟩ else ⟨cells, g.row, g.column + 1⟩

/-- The characters of a string in an array of characters: those before the first zero. -/
def cString (str : List Byte) : List Byte := str.takeWhile (· ≠ 0)

theorem vgaPrint_eq_foldl (t : Terminal) (str : List Byte) :
    vgaPrint t str = (cString str).foldl vgaPutchar t := by
  induction str generalizing t with
  | nil => rfl
  | cons c str ih =>
    by_cases hc : c = 0
    · rw [vgaPrint, if_pos hc, cString, List.takeWhile_cons_of_neg (by simpa using hc)]
      rfl
    · rw [vgaPrint, if_neg hc, cString, List.takeWhile_cons_of_pos (by simpa using hc)]
      exact ih _

/-! ### The grid as a roll -/

/-- The roll has the rows of the grid one after the other. -/
structure Grid.Unrolls (g : Grid) (color : Byte) (r : Roll Cell) : Prop where
  pos : r.pos = g.row * VGA_WIDTH + g.column
  column : g.column < VGA_WIDTH
  cells : ∀ i j, j < VGA_WIDTH → r.cells (i * VGA_WIDTH + j) = vgaEntry ((g.cells i j).getD charSpace) color

theorem Grid.Unrolls.put (h : g.Unrolls color r) (c : Byte) :
    (g.put c).Unrolls color (putRoll color r c) := by
  obtain ⟨hpos, hcol, hcells⟩ := h
  unfold VGA_WIDTH at hpos hcol hcells
  unfold Grid.put putRoll
  by_cases hn : c = charNewline
  · rw [if_pos hn, if_pos hn]
    refine ⟨?_, by unfold VGA_WIDTH; dsimp only; omega, hcells⟩
    show (r.pos / 80 + 1) * 80 = (g.row + 1) * 80 + 0
    omega
  · rw [if_neg hn, if_neg hn]
    have hcells' (i j : ℕ) (hj : j < 80) : (r.put (vgaEntry c color)).cells (i * 80 + j) =
        vgaEntry ((if i = g.row ∧ j = g.column then some c else g.cells i j).getD charSpace) color := by
      show Function.update r.cells r.pos (vgaEntry c color) (i * 80 + j) = _
      by_cases hij : i = g.row ∧ j = g.column
      · rw [if_pos hij, hij.1, hij.2, ← hpos, Function.update_self]
        rfl
      · rw [if_neg hij, Function.update_of_ne (by omega)]
        exact hcells i j hj
    have hpos' : (r.put (vgaEntry c color)).pos = r.pos + 1 := rfl
    dsimp only
    split_ifs with hwrap
    · exact ⟨by unfold VGA_WIDTH at *; dsimp only; omega, by unfold VGA_WIDTH; dsimp only; omega, hcells'⟩
    · exact ⟨by unfold VGA_WIDTH at *; dsimp only; omega, by unfold VGA_WIDTH at *; dsimp only; omega, hcells'⟩

/-! ### Printing -/

theorem vgaScroll_bottom (t : Terminal) :
    (vgaScroll t).row = 24 ∨ (vgaScroll t).scrolled = t.scrolled ∧ (vgaScroll t).row = t.row := by
  unfold vgaScroll
  split_ifs
  · exact .inl rfl
  · exact .inr ⟨rfl, rfl⟩

theorem vgaPutchar_bottom (t : Terminal) (hc : c ≠ charBackspace) : (vgaPutchar t c).row = 24 ∨
    (vgaPutchar t c).scrolled = t.scrolled ∧ t.row ≤ (vgaPutchar t c).row := by
  unfold vgaPutchar
  dsimp only
  rw [if_neg hc]
  split_ifs
  · refine (vgaScroll_bottom _).imp_right fun h => ⟨h.1, ?_⟩
    rw [h.2]
    exact Nat.le_succ _
  · refine (vgaScroll_bottom _).imp_right fun h => ⟨h.1, ?_⟩
    rw [vgaUpdateCursor_row, h.2]
    exact Nat.le_succ _
  · refine (vgaScroll_bottom _).imp_right fun h => ⟨h.1, ?_⟩
    rw [vgaUpdateCursor_row, h.2]

/-- The screen shows the end of the grid: it was scrolled `s` times when it was cleared, and
after that only with the cursor on the last row. -/
structure Terminal.Follows (t : Terminal) (s : ℕ) (color : Byte) (g : Grid) : Prop where
  onScreen : t.OnScreen
  sameColor : t.color = color
  bottom : t.scrolled = s ∨ t.row = 24
  roll : ∃ r, t.Displays s r ∧ g.Unrolls color r

theorem follows_vgaClear (t : Terminal) : (vgaClear t).Follows t.scrolled t.color Grid.empty := by
  refine ⟨⟨Nat.zero_lt_succ _, Nat.zero_lt_succ _⟩, rfl, .inl rfl,
    ⟨fun _ => vgaEntry charSpace t.color, 0⟩, ⟨le_rfl, ?_⟩, rfl,
    by decide, fun _ _ _ => rfl⟩
  refine ⟨fun i hi => vgaClear_buffer t hi, ?_, fun _ _ => rfl⟩
  show (t.scrolled - t.scrolled) * VGA_WIDTH + 0 = 0
  rw [Nat.sub_self, Nat.zero_mul]

theorem Terminal.Follows.putchar (h : t.Follows s color g) (hc : c ≠ charBackspace) :
    (vgaPutchar t c).Follows s color (g.put c) := by
  obtain ⟨ht, rfl, hbottom, r, hd, hg⟩ := h
  obtain ⟨ht', hd'⟩ := hd.putchar ht hc
  refine ⟨ht', vgaPutchar_color t c, ?_, _, hd', hg.put c⟩
  obtain h24 | ⟨hs, hrow⟩ := vgaPutchar_bottom t hc
  · exact .inr h24
  · have hlt : (vgaPutchar t c).row < 25 := ht'.row
    obtain hb | hb := hbottom
    · exact .inl (hs.trans hb)
    · exact .inr (by omega)

theorem Terminal.Follows.print (h : t.Follows s color g) (hstr : charBackspace ∉ str) :
    (str.foldl vgaPutchar t).Follows s color (str.foldl Grid.put g) := by
  induction str generalizing t g with
  | nil => exact h
  | cons c str ih =>
    rw [List.mem_cons, not_or] at hstr
    exact ih (h.putchar (Ne.symm hstr.1)) hstr.2

theorem Terminal.Follows.window (h : t.Follows s color g) : t.row = min g.row 24 ∧ t.column = g.column ∧
    ∀ i, i < VGA_HEIGHT → ∀ j, j < VGA_WIDTH →
      t.buffer (i * VGA_WIDTH + j) = vgaEntry ((g.cells (g.row - t.row + i) j).getD charSpace) color := by
  obtain ⟨⟨hrow, hcol⟩, rfl, hbottom, r, ⟨hle, hcells, hpos, -⟩, hgpos, hgcol, hgcells⟩ := h
  have hcur := t.cursor_eq
  unfold VGA_WIDTH VGA_HEIGHT at *
  refine ⟨by omega, by omega, fun i hi j hj => ?_⟩
  rw [hcells _ (by omega), ← hgcells _ j hj]
  congr 1
  omega

/-- **What `vga_print` shows on a cleared screen** is a window on the grid, 25 rows that end with
that of the cursor as soon as there are so many. -/
theorem vgaPrint_window (t : Terminal) (str : List Byte) (hstr : charBackspace ∉ str) :
    let g := (cString str).foldl Grid.put Grid.empty
    let u := vgaPrint (vgaClear t) str
    u.row = min g.row 24 ∧ u.column = g.column ∧
      ∀ i, i < VGA_HEIGHT → ∀ j, j < VGA_WIDTH →
        Cell.char (u.buffer (i * VGA_WIDTH + j)) = (g.cells (g.row - u.row + i) j).getD charSpace := by
  have hsub : charBackspace ∉ cString str := fun h => hstr ((List.takeWhile_sublist _).subset h)
  obtain ⟨hrow, hcol, hcells⟩ := ((follows_vgaClear t).print hsub).window
  dsimp only
  rw [vgaPrint_eq_foldl]
  refine ⟨hrow, hcol, fun i hi j hj => ?_⟩
  rw [hcells i hi j hj, char_vgaEntry]

theorem vgaPrint_window_newline : Cell.char ((vgaPrint (vgaClear ⟨0, 0, 7, fun _ => 0, [], 0⟩)
    [0x41, 0x0A, 0x42]).buffer (1 * VGA_WIDTH + 0)) = 0x42 :=
  (vgaPrint_window ⟨0, 0, 7, fun _ => 0, [], 0⟩ [0x41, 0x0A, 0x42] (by decide)).2.2 1
    (by decide) 0 (by decide)

end SpatulaOS.Video
