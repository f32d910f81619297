import SpatulaOS.Lib.Memory
import SpatulaOS.Lib.Roll

/-!
# The VGA text terminal

The text screen of `video/vga.c`: 25 rows of 80 cells, with a cursor. `vga_putchar` wraps at
the end of a row and scrolls at the end of the screen; a backspace goes back by one cell and
blanks it. As long as the cursor is on the screen, the screen is the window of a roll of
cells (`Terminal.Shows`), on which a character is written without any wrapping or scrolling.
-/

namespace SpatulaOS.Video

open ByteMemory Window

/-- `VGA_WIDTH`. -/
abbrev VGA_WIDTH : ℕ := 80

/-- `VGA_HEIGHT`. -/
abbrev VGA_HEIGHT : ℕ := 25

/-- `'\n'`. -/
abbrev charNewline : Byte := 0x0A

/-- `'\b'`. -/
abbrev charBackspace : Byte := 0x08

/-- `' '`. -/
abbrev charSpace : Byte := 0x20

/-- A cell of the screen: a character and its colour. -/
abbrev Cell := BitVec 16

/-- The static variables of the driver, the cells, and what was written to the ports of the
cursor. -/
structure Terminal where
  /-- `terminal_row` -/
  row : ℕ
  /-- `terminal_column` -/
  column : ℕ
  /-- `terminal_color` -/
  color : Byte
  /-- `terminal_buffer` -/
  buffer : ℕ → Cell
  /-- The port writes, with the ports. -/
  ports : List (BitVec 16 × Byte)
  /-- How often the screen was scrolled, which the driver does not keep. -/
  scrolled : ℕ

/-- `vga_entry`. -/
def vgaEntry (uc color : Byte) : Cell := uc.setWidth 16 ||| color.setWidth 16 <<< 8

/-- The character of a cell. -/
def Cell.char (e : Cell) : Byte := e.setWidth 8

@[simp] theorem char_vgaEntry (uc color : Byte) : Cell.char (vgaEntry uc color) = uc := by
  rw [Cell.char, vgaEntry]
  refine BitVec.eq_of_getLsbD_eq fun i hi => ?_
  simp [hi]

/-- `outb`. -/
def Terminal.outb (t : Terminal) (port : BitVec 16) (value : Byte) : Terminal :=
  { t with ports := t.ports ++ [(port, value)] }

/-- `vga_update_cursor`. -/
def vgaUpdateCursor (t : Terminal) : Terminal :=
  let pos : BitVec 16 := BitVec.ofNat 16 (t.row * VGA_WIDTH + t.column)
  let t := t.outb 0x3D4 0x0F
  let t := t.outb 0x3D5 ((pos &&& 0xFF).setWidth 8)
  let t := t.outb 0x3D4 0x0E
  t.outb 0x3D5 (((pos >>> 8) &&& 0xFF).setWidth 8)

/-- The copy loop of `vga_scroll`: everything moves one line up. -/
def moveUp (buffer : ℕ → Cell) : ℕ → Cell :=
  (List.range' 1 (VGA_HEIGHT - 1)).foldl
    (fun b y => setCells b ((y - 1) * VGA_WIDTH) (fun b x => b (y * VGA_WIDTH + x)) VGA_WIDTH) buffer

/-- `vga_scroll`. -/
def vgaScroll (t : Terminal) : Terminal :=
  if t.row ≥ VGA_HEIGHT then
    let buffer := moveUp t.buffer
    let buffer :=
      setCells buffer ((VGA_HEIGHT - 1) * VGA_WIDTH)
      (fun _ _ => vgaEntry charSpace t.color) VGA_WIDTH
    { t with buffer := buffer, row := VGA_HEIGHT - 1, scrolled := t.scrolled + 1 }
  else t

/-- `vga_clear`. -/
def vgaClear (t : Terminal) : Terminal :=
  let buffer := (List.range VGA_HEIGHT).foldl
    (fun b y => setCells b (y * VGA_WIDTH) (fun _ _ => vgaEntry charSpace t.color) VGA_WIDTH) t.buffer
  { t with buffer := buffer, row := 0, column := 0 }

/-- `vga_putchar`. -/
def vgaPutchar (t : Terminal) (c : Byte) : Terminal :=
  if c = charNewline then vgaScroll { t with column := 0, row := t.row + 1 }
  else if c = charBackspace then
    let t := if t.column > 0 then { t with column := t.column - 1 }
      else if t.row > 0 then { t with row := t.row - 1, column := VGA_WIDTH - 1 }
      else t
    let index := t.row * VGA_WIDTH + t.column
    vgaUpdateCursor { t with buffer := Function.update t.buffer index (vgaEntry charSpace t.color) }
  else
    let index := t.row * VGA_WIDTH + t.column
    let t := { t with buffer := Function.update t.buffer index (vgaEntry c t.color) }
    let t := { t with column := t.column + 1 }
    let t := if t.column ≥ VGA_WIDTH then { t with column := 0, row := t.row + 1 } else t
    vgaUpdateCursor (vgaScroll t)

/-- `vga_print`, of the characters of a string up to the first zero. -/
def vgaPrint (t : Terminal) : List Byte → Terminal
  | [] => t
  | c :: str => if c = 0 then t else vgaPrint (vgaPutchar t c) str

variable {t : Terminal} {c : Byte} {s k : ℕ} {r : Roll Cell}

/-! ### The loops -/

theorem moveUp_apply (buffer : ℕ → Cell) (i : ℕ) :
    moveUp buffer i = if i < 1920 then buffer (i + 80) else buffer i := by
  have hrun (n : ℕ) (i : ℕ) : (List.range' 1 n).foldl
      (fun b y => setCells b ((y - 1) * 80) (fun b x => b (y * 80 + x)) 80) buffer i =
        if i < n * 80 then buffer (i + 80) else buffer i := by
    induction n generalizing i with
    | zero => exact (if_neg (by omega)).symm
    | succ n ih =>
      rw [List.range'_1_concat, List.foldl_append, List.foldl_cons, List.foldl_nil]
      generalize List.foldl _ buffer (List.range' 1 n) = b at ih ⊢
      -- the row that is read has not been written yet
      rw [setCells_apply (v := fun x => buffer ((1 + n) * 80 + x))]
      · rw [Nat.add_sub_cancel_left]
        by_cases hin : n * 80 ≤ i ∧ i < n * 80 + 80
        · rw [if_pos hin, if_pos (by omega)]
          congr 1
          omega
        · rw [if_neg hin, ih]
          by_cases hlt : i < n * 80
          · rw [if_pos hlt, if_pos (by omega)]
          · rw [if_neg hlt, if_neg (by omega)]
      · intro b' hb' x hx
        rw [hb' _ (by omega), ih, if_neg (by omega)]
  exact hrun _ i

theorem vgaScroll_of_le (h : VGA_HEIGHT ≤ t.row) : (vgaScroll t).row = VGA_HEIGHT - 1 ∧
    (vgaScroll t).column = t.column ∧ (vgaScroll t).color = t.color ∧
    (vgaScroll t).scrolled = t.scrolled + 1 ∧
    (∀ i, i + VGA_WIDTH < VGA_HEIGHT * VGA_WIDTH → (vgaScroll t).buffer i = t.buffer (i + VGA_WIDTH)) ∧
    ∀ i, VGA_HEIGHT * VGA_WIDTH ≤ i + VGA_WIDTH → i < VGA_HEIGHT * VGA_WIDTH →
      (vgaScroll t).buffer i = vgaEntry charSpace t.color := by
  rw [vgaScroll, if_pos h]
  unfold VGA_WIDTH VGA_HEIGHT
  refine ⟨rfl, rfl, rfl, rfl, fun i hi => ?_, fun i hi hi' => ?_⟩
  · dsimp only
    rw [setCells_apply (v := fun _ => vgaEntry charSpace t.color) (fun _ _ _ _ => rfl), if_neg (by omega),
      moveUp_apply, if_pos (by omega)]
  · dsimp only
    rw [setCells_apply (v := fun _ => vgaEntry charSpace t.color) (fun _ _ _ _ => rfl), if_pos (by omega)]

theorem vgaScroll_of_lt (h : t.row < VGA_HEIGHT) : vgaScroll t = t := if_neg (Nat.not_le.mpr h)

theorem vgaClear_buffer (t : Terminal) {i : ℕ} (hi : i < VGA_HEIGHT * VGA_WIDTH) :
    (vgaClear t).buffer i = vgaEntry charSpace t.color := by
  have hrun (n : ℕ) (hn : i < n * 80) : (List.range n).foldl
      (fun b y => setCells b (y * 80) (fun _ _ => vgaEntry charSpace t.color) 80) t.buffer i =
        vgaEntry charSpace t.color := by
    induction n with
    | zero => exact absurd hn (by omega)
    | succ n ih =>
      rw [List.range_succ, List.foldl_append, List.foldl_cons, List.foldl_nil,
        setCells_apply (v := fun _ => vgaEntry charSpace t.color) (fun _ _ _ _ => rfl)]
      split_ifs with hin
      · rfl
      · exact ih (by omega)
  exact hrun _ hi

/-! ### The screen as a window -/

/-- The cursor is on the screen. -/
structure Terminal.OnScreen (t : Terminal) : Prop where
  row : t.row < VGA_HEIGHT
  column : t.column < VGA_WIDTH

/-- Where the cursor is, in reading order. -/
def Terminal.cursor (t : Terminal) : ℕ := t.row * VGA_WIDTH + t.column

theorem Terminal.cursor_eq (t : Terminal) : t.cursor = t.row * 80 + t.column := rfl

theorem screen_size : VGA_WIDTH = 80 ∧ VGA_HEIGHT = 25 := ⟨rfl, rfl⟩

/-- The screen shows the roll, from the line on to which it was scrolled since it had been
scrolled `s` times. -/
structure Terminal.Displays (t : Terminal) (s : ℕ) (r : Roll Cell) : Prop where
  le : s ≤ t.scrolled
  shows : Shows VGA_WIDTH VGA_HEIGHT (t.scrolled - s) (vgaEntry charSpace t.color) t.buffer t.cursor r

@[simp] theorem vgaUpdateCursor_row (t : Terminal) : (vgaUpdateCursor t).row = t.row := rfl
@[simp] theorem vgaUpdateCursor_column (t : Terminal) : (vgaUpdateCursor t).column = t.column := rfl
@[simp] theorem vgaUpdateCursor_color (t : Terminal) : (vgaUpdateCursor t).color = t.color := rfl
@[simp] theorem vgaUpdateCursor_buffer (t : Terminal) : (vgaUpdateCursor t).buffer = t.buffer := rfl
@[simp] theorem vgaUpdateCursor_scrolled (t : Terminal) : (vgaUpdateCursor t).scrolled = t.scrolled := rfl
@[simp] theorem vgaUpdateCursor_cursor (t : Terminal) : (vgaUpdateCursor t).cursor = t.cursor := rfl

theorem vgaScroll_color (t : Terminal) : (vgaScroll t).color = t.color := by
  unfold vgaScroll
  split_ifs <;> rfl

theorem vgaPutchar_color (t : Terminal) (c : Byte) : (vgaPutchar t c).color = t.color := by
  unfold vgaPutchar
  dsimp only
  split_ifs <;> simp only [vgaUpdateCursor_color, vgaScroll_color]

theorem Terminal.Displays.updateCursor (h : t.Displays s r) : (vgaUpdateCursor t).Displays s r :=
  ⟨h.le, h.shows⟩

theorem Terminal.OnScreen.updateCursor (h : t.OnScreen) : (vgaUpdateCursor t).OnScreen := ⟨h.row, h.column⟩

/-- The scroll brings the cursor back on the screen, and shows the same roll. -/
theorem Terminal.Displays.scroll (h : t.Displays s r) (hrow : t.row ≤ VGA_HEIGHT)
    (hcol : t.column < VGA_WIDTH) :
    (vgaScroll t).OnScreen ∧ (vgaScroll t).Displays s r := by
  have hsize := screen_size
  by_cases hlt : t.row < VGA_HEIGHT
  · rw [vgaScroll_of_lt hlt]
    exact ⟨⟨hlt, hcol⟩, h⟩
  obtain ⟨hr, hc, hcolor, hs, hup, hlast⟩ := vgaScroll_of_le (Nat.le_of_not_lt hlt)
  have hle := h.le
  have hcur := t.cursor_eq
  have hcur' : (vgaScroll t).cursor = t.cursor - VGA_WIDTH := by
    rw [cursor_eq, hr, hc]
    omega
  refine ⟨⟨by omega, by omega⟩, by omega, ?_⟩
  rw [hs, hcolor, hcur', Nat.sub_add_comm hle]
  exact h.shows.scroll (by omega) hup hlast

/-- A character that is not a backspace is written to the roll. -/
def putRoll (color : Byte) (r : Roll Cell) (c : Byte) : Roll Cell :=
  if c = charNewline then r.newline VGA_WIDTH else r.put (vgaEntry c color)

/-- The screen after a cell at the cursor was written and the cursor moved. -/
theorem Terminal.Displays.write (h : t.Displays s r) (ht : t.OnScreen) (e : Cell) (row column : ℕ)
    (hcur : row * 80 + column = t.cursor + 1) :
    Terminal.Displays { t with buffer := Function.update t.buffer t.cursor e, column := column, row := row } s
      (r.put e) := by
  obtain ⟨hrow, hcol⟩ := ht
  have hsize := screen_size
  have hlt : t.cursor < VGA_HEIGHT * VGA_WIDTH := by
    rw [cursor_eq, hsize.1, hsize.2]
    omega
  have hput := h.shows.put (a := e) hlt
  rw [← hcur] at hput
  exact ⟨h.le, hput⟩

/-- `vga_putchar` writes to the roll that the screen shows. -/
theorem Terminal.Displays.putchar (h : t.Displays s r) (ht : t.OnScreen) (hc : c ≠ charBackspace) :
    (vgaPutchar t c).OnScreen ∧ (vgaPutchar t c).Displays s (putRoll t.color r c) := by
  obtain ⟨hrow, hcol⟩ := id ht
  have hsize := screen_size
  have hcur := t.cursor_eq
  unfold vgaPutchar putRoll
  by_cases hn : c = charNewline
  · rw [if_pos hn, if_pos hn]
    have hline := h.shows.newline (by omega)
    have hdiv : t.cursor / VGA_WIDTH = t.row := by
      rw [hcur, hsize.1]
      omega
    rw [hdiv] at hline
    exact Displays.scroll ⟨h.le, hline⟩ (Nat.succ_le_of_lt hrow) (by dsimp only; omega)
  · rw [if_neg hn, if_neg hc, if_neg hn]
    dsimp only
    by_cases hwrap : t.column + 1 ≥ VGA_WIDTH
    · rw [if_pos hwrap]
      have hd := h.write ht (vgaEntry c t.color) (t.row + 1) 0 (by omega)
      obtain ⟨hs, hd⟩ := hd.scroll (Nat.succ_le_of_lt hrow) (by dsimp only; omega)
      exact ⟨hs.updateCursor, hd.updateCursor⟩
    · rw [if_neg hwrap]
      have hd := h.write ht (vgaEntry c t.color) t.row (t.column + 1) (by omega)
      obtain ⟨hs, hd⟩ := hd.scroll hrow.le (by dsimp only; omega)
      exact ⟨hs.updateCursor, hd.updateCursor⟩

/-- The screen after the cell before the cursor was blanked, with the cursor there. -/
theorem Terminal.Displays.blank (h : t.Displays s r) (h0 : 0 < t.cursor) {row column : ℕ}
    (hcur : row * 80 + column = t.cursor - 1) :
    Terminal.Displays (vgaUpdateCursor { t with
      buffer := Function.update t.buffer (row * 80 + column) (vgaEntry charSpace t.color),
        column := column, row := row })
      s (r.erase (vgaEntry charSpace t.color)) := by
  have herase := h.shows.erase h0
  rw [← hcur] at herase
  exact Displays.updateCursor ⟨h.le, herase⟩

/-- A backspace behind the first cell of the screen erases on the roll. -/
theorem Terminal.Displays.backspace (h : t.Displays s r) (ht : t.OnScreen) (h0 : 0 < t.cursor) :
    (vgaPutchar t charBackspace).OnScreen ∧
      (vgaPutchar t charBackspace).Displays s (r.erase (vgaEntry charSpace t.color)) := by
  obtain ⟨hrow, hcol⟩ := ht
  have hsize := screen_size
  have hcur := t.cursor_eq
  unfold vgaPutchar
  rw [if_neg (by decide), if_pos rfl]
  dsimp only
  by_cases hcol0 : t.column > 0
  · rw [if_pos hcol0]
    refine ⟨OnScreen.updateCursor ⟨hrow, ?_⟩, h.blank h0 (by dsimp only; omega)⟩
    dsimp only
    omega
  · rw [if_neg hcol0, if_pos (by omega)]
    refine ⟨OnScreen.updateCursor ⟨?_, ?_⟩, h.blank h0 (by dsimp only; omega)⟩
    all_goals
      dsimp only
      omega

end SpatulaOS.Video
