import SpatulaOS.Core.Numerals
import SpatulaOS.Lib.Runs
import SpatulaOS.Video.Terminal

/-!
# Calls on the terminal

The routines of `video/vga.c` that other parts of the kernel call. Each of them is given twice:
`Terminal.call` is the routine, and `Terminal.callChecked` the routine in which an access to
`terminal_buffer` behind its 2000 cells has no result. From the start on, no sequence of calls makes
such an access, and the cursor is on the screen after each call (`vga_in_bounds`).
-/

namespace SpatulaOS.Video

open ByteMemory Runs Window SpatulaOS.Core

/-- `default_terminal_color`. -/
abbrev defaultTerminalColor : Byte := 0x07

/-- The terminal when the kernel starts. -/
def Terminal.start (buffer : ℕ → Cell) : Terminal := ⟨0, 0, defaultTerminalColor, buffer, [], 0⟩

/-- `vga_set_cursor`. -/
def vgaSetCursor (t : Terminal) (row col : Word) : Terminal :=
  let t := if row < 25 then { t with row := row.toNat } else t
  if col < 80 then { t with column := col.toNat } else t

/-- `vga_print_color`. Its loop is that of `vga_print`. -/
def vgaPrintColor (t : Terminal) (str : List Byte) (color : Byte) : Terminal :=
  { vgaPrint { t with color := color } str with color := defaultTerminalColor }

/-- `vga_print_hex`. -/
def vgaPrintHex (t : Terminal) (value : Word) : Terminal := vgaPrint t (hexText value)

/-- The first loop of `vga_print_dec`: the digits, the last one first, and how many there are. -/
def decLoop (num : Word) (buffer : ℕ → Byte) (i : ℕ) : (ℕ → Byte) × ℕ :=
  if num > 0 then decLoop (num / 10) (Function.update buffer i (0x30 + (num % 10).setWidth 8)) (i + 1)
  else (buffer, i)
termination_by num.toNat
decreasing_by
  rw [BitVec.toNat_udiv]
  exact Nat.div_lt_self (by assumption) (by decide)

/-- The strings that `vga_print_dec` prints, one after the other, with what is in its buffer before. -/
def decStrings (num : Word) (buffer : ℕ → Byte) : List (List Byte) :=
  if num = 0 then [[0x30]]
  else
    let (buffer, i) := decLoop num buffer 0
    (List.range i).reverse.map fun j => [buffer j]

/-- `vga_print_dec`. -/
def vgaPrintDec (t : Terminal) (num : Word) (buffer : ℕ → Byte) : Terminal :=
  (decStrings num buffer).foldl vgaPrint t

/-- A call on the driver. -/
inductive VgaOp where
  /-- `vga_putchar(c)` -/
  | putchar (c : Byte)
  /-- `vga_print(str)` -/
  | print (str : List Byte)
  /-- `vga_print_color(str, color)` -/
  | printColor (str : List Byte) (color : Byte)
  /-- `vga_print_hex(value)` -/
  | printHex (value : Word)
  /-- `vga_print_dec(num)`, with what is in its buffer before -/
  | printDec (num : Word) (buffer : ℕ → Byte)
  /-- `vga_set_cursor(row, col)` -/
  | setCursor (row col : Word)
  /-- `vga_clear()` -/
  | clear
  /-- `vga_scroll()` -/
  | scroll

/-- The call is made. -/
def Terminal.call (t : Terminal) : VgaOp → Terminal
  | .putchar c => vgaPutchar t c
  | .print str => vgaPrint t str
  | .printColor str color => vgaPrintColor t str color
  | .printHex value => vgaPrintHex t value
  | .printDec num buffer => vgaPrintDec t num buffer
  | .setCursor row col => vgaSetCursor t row col
  | .clear => vgaClear t
  | .scroll => vgaScroll t

/-! ### The cursor -/

variable {t : Terminal} {c : Byte} {o : VgaOp} {str : List Byte}

theorem vgaScroll_row (t : Terminal) : (vgaScroll t).row = min t.row 24 := by
  unfold vgaScroll
  split_ifs with h
  · exact (min_eq_right (Nat.le_of_succ_le h)).symm
  · exact (min_eq_left (Nat.le_of_lt_succ (Nat.not_le.mp h))).symm

theorem vgaScroll_column (t : Terminal) : (vgaScroll t).column = t.column := by
  unfold vgaScroll
  split_ifs <;> rfl

theorem vgaScroll_ports (t : Terminal) : (vgaScroll t).ports = t.ports := by
  unfold vgaScroll
  split_ifs <;> rfl

/-- Where a character takes the cursor. -/
def advance (cursor : ℕ) (c : Byte) : ℕ :=
  if c = charNewline then min (cursor / VGA_WIDTH + 1) 24 * VGA_WIDTH
  else if c = charBackspace then cursor - 1
  else if cursor = 1999 then 1920 else cursor + 1

theorem Terminal.OnScreen.cursor_div (h : t.OnScreen) : t.cursor / VGA_WIDTH = t.row := by
  have hcol : t.column < 80 := h.column
  have hcur := t.cursor_eq
  unfold VGA_WIDTH
  omega

theorem Terminal.OnScreen.cursor_lt (h : t.OnScreen) : t.cursor < VGA_HEIGHT * VGA_WIDTH := by
  have hrow : t.row < 25 := h.row
  have hcol : t.column < 80 := h.column
  have hcur := t.cursor_eq
  unfold VGA_WIDTH VGA_HEIGHT
  omega

/-- The cursor is at `p`, which is on the screen. -/
theorem onScreen_of_cursor {p : ℕ} (hp : p < 2000) (hcol : t.column < 80) (hcur : t.row * 80 + t.column = p) :
    t.OnScreen ∧ t.cursor = p := by
  refine ⟨⟨?_, hcol⟩, hcur⟩
  unfold VGA_HEIGHT
  omega

/-- A character moves the cursor and leaves it on the screen. -/
theorem Terminal.OnScreen.putchar (h : t.OnScreen) (c : Byte) :
    (vgaPutchar t c).OnScreen ∧ (vgaPutchar t c).cursor = advance t.cursor c := by
  have hrow : t.row < 25 := h.row
  have hcol : t.column < 80 := h.column
  have hcur := t.cursor_eq
  have hdiv := h.cursor_div
  unfold vgaPutchar advance
  unfold VGA_WIDTH at hdiv ⊢
  by_cases hn : c = charNewline
  · rw [if_pos hn, if_pos hn, hdiv]
    apply onScreen_of_cursor
    · omega
    · rw [vgaScroll_column]
      exact Nat.zero_lt_succ _
    · rw [vgaScroll_row, vgaScroll_column]
      rfl
  rw [if_neg hn, if_neg hn]
  by_cases hb : c = charBackspace
  · rw [if_pos hb, if_pos hb]
    apply onScreen_of_cursor
    · omega
    · rw [vgaUpdateCursor_column]
      dsimp only
      split_ifs
      · exact (Nat.sub_le _ _).trans_lt hcol
      · exact Nat.lt_succ_self 79
      · exact hcol
    · rw [vgaUpdateCursor_row, vgaUpdateCursor_column]
      dsimp only
      split_ifs
      · dsimp only
        omega
      · dsimp only
        omega
      · omega
  rw [if_neg hb, if_neg hb]
  dsimp only
  by_cases hwrap : t.column + 1 ≥ 80
  · rw [if_pos hwrap]
    apply onScreen_of_cursor
    · split_ifs <;> omega
    · rw [vgaUpdateCursor_column, vgaScroll_column]
      exact Nat.zero_lt_succ _
    · rw [vgaUpdateCursor_row, vgaUpdateCursor_column, vgaScroll_row, vgaScroll_column]
      dsimp only
      split_ifs <;> omega
  · rw [if_neg hwrap, if_neg (by omega)]
    apply onScreen_of_cursor
    · omega
    · rw [vgaUpdateCursor_column, vgaScroll_column]
      exact Nat.not_le.mp hwrap
    · rw [vgaUpdateCursor_row, vgaUpdateCursor_column, vgaScroll_row, vgaScroll_column]
      dsimp only
      omega

theorem Terminal.OnScreen.print (h : t.OnScreen) (str : List Byte) : (vgaPrint t str).OnScreen := by
  induction str generalizing t with
  | nil => exact h
  | cons c str ih =>
    rw [vgaPrint]
    split_ifs
    · exact h
    · exact ih (h.putchar c).1

theorem Terminal.OnScreen.setCursor (h : t.OnScreen) (row col : Word) :
    (vgaSetCursor t row col).OnScreen := by
  obtain ⟨hrow, hcol⟩ := h
  unfold vgaSetCursor
  split_ifs with h1 h2 h2
  · exact ⟨h1, h2⟩
  · exact ⟨h1, hcol⟩
  · exact ⟨hrow, h2⟩
  · exact ⟨hrow, hcol⟩

/-- Every call leaves the cursor on the screen. -/
theorem Terminal.OnScreen.call (h : t.OnScreen) (o : VgaOp) : (t.call o).OnScreen := by
  cases o with
  | putchar c => exact (h.putchar c).1
  | print str => exact h.print str
  | printColor str color =>
    have hp := OnScreen.print (t := { t with color := color }) ⟨h.row, h.column⟩ str
    exact ⟨hp.row, hp.column⟩
  | printHex value => exact h.print _
  | printDec num buffer =>
    show ((decStrings num buffer).foldl vgaPrint t).OnScreen
    generalize decStrings num buffer = strs
    induction strs generalizing t with
    | nil => exact h
    | cons str strs ih => exact ih (h.print str)
  | setCursor row col => exact h.setCursor row col
  | clear => exact ⟨Nat.zero_lt_succ _, Nat.zero_lt_succ _⟩
  | scroll =>
    rw [Terminal.call, vgaScroll_of_lt h.row]
    exact h

/-! ### Checked accesses -/

/-- `terminal_buffer[index]`, which has 2000 cells. -/
def readCell (buffer : ℕ → Cell) (index : ℕ) : Option Cell :=
  if index < VGA_HEIGHT * VGA_WIDTH then some (buffer index) else none

/-- `terminal_buffer[index] = e` -/
def writeCell (buffer : ℕ → Cell) (index : ℕ) (e : Cell) : Option (ℕ → Cell) :=
  if index < VGA_HEIGHT * VGA_WIDTH then some (Function.update buffer index e) else none

/-- The loops over the columns: the `x`-th cell from `d` on is written. -/
def writeRow (buffer : ℕ → Cell) (d : ℕ) (next : (ℕ → Cell) → ℕ → Option Cell) : Option (ℕ → Cell) :=
  (List.range VGA_WIDTH).foldlM (fun b x => (next b x).bind fun e => writeCell b (d + x) e) buffer

/-- `vga_scroll`, with checked accesses. -/
def vgaScrollChecked (t : Terminal) : Option Terminal :=
  if t.row ≥ VGA_HEIGHT then
    ((List.range' 1 (VGA_HEIGHT - 1)).foldlM
      (fun b y => writeRow b ((y - 1) * VGA_WIDTH) fun b x => readCell b (y * VGA_WIDTH + x))
        t.buffer).bind fun buffer =>
        (writeRow buffer ((VGA_HEIGHT - 1) * VGA_WIDTH) fun _ _ =>
          some (vgaEntry charSpace t.color)).map fun buffer =>
          { t with buffer := buffer, row := VGA_HEIGHT - 1, scrolled := t.scrolled + 1 }
  else some t

/-- `vga_clear`, with checked accesses. -/
def vgaClearChecked (t : Terminal) : Option Terminal :=
  ((List.range VGA_HEIGHT).foldlM
    (fun b y => writeRow b (y * VGA_WIDTH) fun _ _ => some (vgaEntry charSpace t.color))
      t.buffer).map fun buffer =>
      { t with buffer := buffer, row := 0, column := 0 }

/-- `vga_putchar`, with checked accesses. -/
def vgaPutcharChecked (t : Terminal) (c : Byte) : Option Terminal :=
  if c = charNewline then vgaScrollChecked { t with column := 0, row := t.row + 1 }
  else if c = charBackspace then
    let t := if t.column > 0 then { t with column := t.column - 1 }
      else if t.row > 0 then { t with row := t.row - 1, column := VGA_WIDTH - 1 }
      else t
    let index := t.row * VGA_WIDTH + t.column
    (writeCell t.buffer index (vgaEntry charSpace t.color)).map fun buffer =>
      vgaUpdateCursor { t with buffer := buffer }
  else
    let index := t.row * VGA_WIDTH + t.column
    (writeCell t.buffer index (vgaEntry c t.color)).bind fun buffer =>
      let t := { t with buffer := buffer }
      let t := { t with column := t.column + 1 }
      let t := if t.column ≥ VGA_WIDTH then { t with column := 0, row := t.row + 1 } else t
      (vgaScrollChecked t).map vgaUpdateCursor

/-- `vga_print`, with checked accesses. -/
def vgaPrintChecked (t : Terminal) : List Byte → Option Terminal
  | [] => some t
  | c :: str => if c = 0 then some t else (vgaPutcharChecked t c).bind fun t => vgaPrintChecked t str

/-- The call is made with checked accesses. -/
def Terminal.callChecked (t : Terminal) : VgaOp → Option Terminal
  | .putchar c => vgaPutcharChecked t c
  | .print str => vgaPrintChecked t str
  | .printColor str color =>
    (vgaPrintChecked { t with color := color } str).map fun t => { t with color := defaultTerminalColor }
  | .printHex value => vgaPrintChecked t (hexText value)
  | .printDec num buffer => (decStrings num buffer).foldlM vgaPrintChecked t
  | .setCursor row col => some (vgaSetCursor t row col)
  | .clear => vgaClearChecked t
  | .scroll => vgaScrollChecked t

variable {buffer : ℕ → Cell} {d i : ℕ} {e : Cell}

theorem readCell_eq (hi : i < 2000) : readCell buffer i = some (buffer i) := if_pos hi

theorem writeCell_eq (hi : i < 2000) : writeCell buffer i e = some (Function.update buffer i e) := if_pos hi

theorem writeRow_eq {next : (ℕ → Cell) → ℕ → Option Cell} {next' : (ℕ → Cell) → ℕ → Cell} (hd : d + 80 ≤ 2000)
    (hnext : ∀ b x, x < 80 → next b x = some (next' b x)) :
    writeRow buffer d next = some (setCells buffer d next' VGA_WIDTH) := by
  refine foldlM_eq_some fun b x hx => ?_
  rw [List.mem_range] at hx
  rw [hnext b x hx, Option.bind_some]
  exact writeCell_eq (by unfold VGA_WIDTH at hx; omega)

/-- The scroll makes no access behind the cells, so the checked one does the same. -/
theorem vgaScrollChecked_eq (t : Terminal) : vgaScrollChecked t = some (vgaScroll t) := by
  unfold vgaScrollChecked vgaScroll moveUp
  split_ifs
  · have hup : (List.range' 1 (VGA_HEIGHT - 1)).foldlM
        (fun b y => writeRow b ((y - 1) * VGA_WIDTH) fun b x => readCell b (y * VGA_WIDTH + x)) t.buffer =
          some ((List.range' 1 (VGA_HEIGHT - 1)).foldl
            (fun b y => setCells b ((y - 1) * VGA_WIDTH) (fun b x => b (y * VGA_WIDTH + x))
              VGA_WIDTH) t.buffer) := by
      refine foldlM_eq_some fun b y hy => ?_
      rw [List.mem_range'_1] at hy
      unfold VGA_HEIGHT VGA_WIDTH at *
      exact writeRow_eq (by omega) fun b x hx => readCell_eq (by omega)
    rw [hup, Option.bind_some, writeRow_eq (by decide) fun _ _ _ => rfl, Option.map_some]
  · rfl

theorem vgaClearChecked_eq (t : Terminal) : vgaClearChecked t = some (vgaClear t) := by
  unfold vgaClearChecked vgaClear
  have hrows : (List.range VGA_HEIGHT).foldlM
      (fun b y => writeRow b (y * VGA_WIDTH) fun _ _ => some (vgaEntry charSpace t.color)) t.buffer =
        some ((List.range VGA_HEIGHT).foldl
          (fun b y => setCells b (y * VGA_WIDTH) (fun _ _ => vgaEntry charSpace t.color) VGA_WIDTH)
            t.buffer) := by
    refine foldlM_eq_some fun b y hy => ?_
    rw [List.mem_range] at hy
    unfold VGA_HEIGHT VGA_WIDTH at *
    exact writeRow_eq (by omega) fun _ _ _ => rfl
  rw [hrows, Option.map_some]

theorem Terminal.OnScreen.putcharChecked (h : t.OnScreen) (c : Byte) :
    vgaPutcharChecked t c = some (vgaPutchar t c) := by
  have hrow : t.row < 25 := h.row
  have hcol : t.column < 80 := h.column
  unfold vgaPutcharChecked vgaPutchar
  unfold VGA_WIDTH
  by_cases hn : c = charNewline
  · rw [if_pos hn, if_pos hn]
    exact vgaScrollChecked_eq _
  rw [if_neg hn, if_neg hn]
  by_cases hb : c = charBackspace
  · rw [if_pos hb, if_pos hb]
    dsimp only
    rw [writeCell_eq, Option.map_some]
    split_ifs
    · dsimp only
      omega
    · dsimp only
      omega
    · omega
  · rw [if_neg hb, if_neg hb]
    dsimp only
    rw [writeCell_eq (by omega), Option.bind_some, vgaScrollChecked_eq, Option.map_some]

theorem Terminal.OnScreen.printChecked (h : t.OnScreen) (str : List Byte) :
    vgaPrintChecked t str = some (vgaPrint t str) := by
  induction str generalizing t with
  | nil => rfl
  | cons c str ih =>
    rw [vgaPrintChecked, vgaPrint]
    split_ifs
    · rfl
    · rw [h.putcharChecked, Option.bind_some]
      exact ih (h.putchar c).1

theorem Terminal.OnScreen.callChecked (h : t.OnScreen) (o : VgaOp) : t.callChecked o = some (t.call o) := by
  cases o with
  | putchar c => exact h.putcharChecked c
  | print str => exact h.printChecked str
  | printColor str color =>
    have hp := OnScreen.printChecked (t := { t with color := color }) ⟨h.row, h.column⟩ str
    rw [Terminal.callChecked, hp, Option.map_some]
    rfl
  | printHex value => exact h.printChecked _
  | printDec num buffer =>
    show (decStrings num buffer).foldlM vgaPrintChecked t = some ((decStrings num buffer).foldl vgaPrint t)
    generalize decStrings num buffer = strs
    induction strs generalizing t with
    | nil => rfl
    | cons str strs ih =>
      rw [List.foldlM_cons, h.printChecked str]
      exact ih (h.print str)
  | setCursor row col => rfl
  | clear => exact vgaClearChecked_eq t
  | scroll => exact vgaScrollChecked_eq t

theorem Terminal.OnScreen.calls (h : t.OnScreen) (ops : List VgaOp) :
    exec Terminal.callChecked t ops = some (ops.foldl Terminal.call t) ∧
      (ops.foldl Terminal.call t).OnScreen := by
  induction ops generalizing t with
  | nil => exact ⟨rfl, h⟩
  | cons o ops ih =>
    rw [exec, h.callChecked, Option.bind_some]
    exact ih (h.call o)

theorem Terminal.onScreen_start (buffer : ℕ → Cell) : (Terminal.start buffer).OnScreen :=
  ⟨Nat.zero_lt_succ _, Nat.zero_lt_succ _⟩

/-- **Every sequence of calls stays on the screen**: no access is behind the 2000 cells, and the
cursor is on the screen after each call. -/
theorem vga_in_bounds (buffer : ℕ → Cell) (ops : List VgaOp) :
    ∃ t, exec Terminal.callChecked (.start buffer) ops = some t ∧
      t = ops.foldl Terminal.call (.start buffer) ∧
      t.row < 25 ∧ t.column < 80 := by
  obtain ⟨hexec, hrow, hcol⟩ := (Terminal.onScreen_start buffer).calls ops
  exact ⟨_, hexec, rfl, hrow, hcol⟩

end SpatulaOS.Video
