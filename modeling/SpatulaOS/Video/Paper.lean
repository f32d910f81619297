import Mathlib.Data.List.TakeWhile
import SpatulaOS.Video.Driver
import SpatulaOS.Video.Grid

/-!
# Printing on paper

What was printed since the screen was cleared is a text of coloured characters, in the order in
which they were printed; a backspace takes the last one away. On a roll of paper it is typeset
without any scrolling (`typeset`), and the screen shows the end of the roll (`Terminal.Prints`). The
rows that the screen is scrolled for are blank in the colour of the moment, so a text in another
colour must not reach them (`StaysOn`).
-/

namespace SpatulaOS.Video

open ByteMemory Window

/-- A character and its colour. -/
abbrev Glyph := Byte × Byte

/-- Characters of one colour. -/
def inColor (color : Byte) (str : List Byte) : List Glyph := str.map fun c => (c, color)

/-- Characters of the default colour. -/
abbrev plain (str : List Byte) : List Glyph := inColor defaultTerminalColor str

/-- A blank cell. -/
abbrev blankCell : Cell := vgaEntry charSpace defaultTerminalColor

/-- A character is set on the roll. -/
def setGlyph (r : Roll Cell) (g : Glyph) : Roll Cell := putRoll g.2 r g.1

/-- The roll with the text. -/
def typeset (text : List Glyph) : Roll Cell := text.foldl setGlyph ⟨fun _ => blankCell, 0⟩

variable {t : Terminal} {text : List Glyph} {str : List Byte} {c color : Byte} {s k row column : ℕ}
  {r : Roll Cell}

theorem typeset_append (text more : List Glyph) :
    typeset (text ++ more) = more.foldl setGlyph (typeset text) :=
  List.foldl_append

theorem typeset_blank (text : List Glyph) {i : ℕ} (hi : (typeset text).pos ≤ i) :
    (typeset text).cells i = blankCell := by
  induction text using List.reverseRecOn generalizing i with
  | nil => rfl
  | append_singleton text g ih =>
    rw [typeset_append, List.foldl_cons, List.foldl_nil] at hi ⊢
    unfold setGlyph putRoll at hi ⊢
    split_ifs at hi ⊢
    · refine ih ?_
      change ((typeset text).pos / 80 + 1) * 80 ≤ i at hi
      omega
    · change (typeset text).pos + 1 ≤ i at hi
      refine (Function.update_of_ne (by omega) _ _).trans (ih (by omega))

/-- The last character is erased: the text before it is left. -/
theorem typeset_erase (text : List Glyph) (hc : c ≠ charNewline) :
    (typeset (text ++ [(c, color)])).erase blankCell = typeset text := by
  have hblank := typeset_blank text le_rfl
  rw [typeset_append, List.foldl_cons, List.foldl_nil, setGlyph, putRoll, if_neg hc, Roll.put, Roll.erase]
  dsimp only
  rw [Nat.add_sub_cancel, Function.update_idem, ← hblank, Function.update_eq_self]

/-! ### The screen -/

/-- The screen shows the text, which was begun when it had been scrolled `s` times. -/
structure Terminal.Prints (t : Terminal) (s : ℕ) (text : List Glyph) : Prop where
  onScreen : t.OnScreen
  color : t.color = defaultTerminalColor
  displays : t.Displays s (typeset text)

theorem prints_vgaClear (hcolor : t.color = defaultTerminalColor) : (vgaClear t).Prints t.scrolled [] := by
  refine ⟨⟨Nat.zero_lt_succ _, Nat.zero_lt_succ _⟩, hcolor, le_rfl, fun i hi => ?_, ?_, fun i _ => ?_⟩
  · rw [vgaClear_buffer t hi, hcolor]
    rfl
  · show (t.scrolled - t.scrolled) * VGA_WIDTH + 0 = 0
    rw [Nat.sub_self, Nat.zero_mul]
  · show blankCell = vgaEntry charSpace t.color
    rw [hcolor]

theorem Terminal.Prints.putchar (h : t.Prints s text) (hc : c ≠ charBackspace) :
    (vgaPutchar t c).Prints s (text ++ plain [c]) := by
  obtain ⟨ht, hd⟩ := h.displays.putchar h.onScreen hc
  rw [h.color] at hd
  refine ⟨ht, (vgaPutchar_color t c).trans h.color, ?_⟩
  rw [typeset_append]
  exact hd

theorem Terminal.Prints.putchars (h : t.Prints s text) (hstr : charBackspace ∉ str) :
    (str.foldl vgaPutchar t).Prints s (text ++ plain str) := by
  induction str generalizing t text with
  | nil =>
    rw [plain, inColor, List.map_nil, List.append_nil]
    exact h
  | cons c str ih =>
    rw [List.mem_cons, not_or] at hstr
    have hput := ih (h.putchar (Ne.symm hstr.1)) hstr.2
    rw [List.append_assoc] at hput
    exact hput

theorem cString_eq (hstr : 0 ∉ str) : cString str = str :=
  List.takeWhile_eq_self_iff.mpr fun _ hc => decide_eq_true fun h0 => hstr (h0 ▸ hc)

theorem Terminal.Prints.print (h : t.Prints s text) (hstr : charBackspace ∉ str) (h0 : 0 ∉ str) :
    (vgaPrint t str).Prints s (text ++ plain str) := by
  rw [vgaPrint_eq_foldl, cString_eq h0]
  exact h.putchars hstr

/-- A backspace takes the last character away if the cursor is not at the first cell. -/
theorem Terminal.Prints.backspace (h : t.Prints s (text ++ [(c, color)])) (hc : c ≠ charNewline)
    (h0 : 0 < t.cursor) :
    (vgaPutchar t charBackspace).Prints s text := by
  obtain ⟨ht, hd⟩ := h.displays.backspace h.onScreen h0
  rw [h.color, typeset_erase text hc] at hd
  exact ⟨ht, (vgaPutchar_color t charBackspace).trans h.color, hd⟩

/-- Behind a newline the cursor is at the beginning of a row. -/
theorem Terminal.Prints.column_newline (h : t.Prints s (text ++ [(charNewline, color)])) : t.column = 0 := by
  have hpos := h.displays.shows.pos
  have hcur := t.cursor_eq
  have hcol := h.onScreen.column
  rw [typeset_append] at hpos
  change (t.scrolled - s) * 80 + t.cursor = ((typeset text).pos / 80 + 1) * 80 at hpos
  unfold VGA_WIDTH at hcol
  omega

/-! ### Other colours -/

/-- A text that is printed without a scroll, from a row and a column on. -/
def StaysOn : ℕ → ℕ → List Byte → Prop
  | _, _, [] => True
  | row, column, c :: str => c ≠ charBackspace ∧
    if c = charNewline then row + 1 < VGA_HEIGHT ∧ StaysOn (row + 1) 0 str
    else column + 1 < VGA_WIDTH ∧ StaysOn row (column + 1) str

instance instDecidableStaysOn : (row column : ℕ) → (str : List Byte) → Decidable (StaysOn row column str)
  | _, _, [] => .isTrue trivial
  | row, column, c :: str => by
    have hline := instDecidableStaysOn (row + 1) 0 str
    have hchar := instDecidableStaysOn row (column + 1) str
    unfold StaysOn
    infer_instance

theorem staysOn_row (row : ℕ) (hstr : ∀ c ∈ str, c ≠ charBackspace ∧ c ≠ charNewline)
    (hlen : column + str.length < VGA_WIDTH) :
    StaysOn row column str := by
  induction str generalizing column with
  | nil => trivial
  | cons c str ih =>
    obtain ⟨⟨hb, hn⟩, hstr⟩ := List.forall_mem_cons.mp hstr
    rw [List.length_cons] at hlen
    rw [StaysOn, if_neg hn]
    exact ⟨hb, by omega, ih hstr (by omega)⟩

/-- A character that does not reach the end of its row. -/
theorem vgaPutchar_char (hrow : t.row < VGA_HEIGHT) (hb : c ≠ charBackspace) (hn : c ≠ charNewline)
    (hcol : t.column + 1 < VGA_WIDTH) : vgaPutchar t c = vgaUpdateCursor
      { t with buffer := Function.update t.buffer t.cursor (vgaEntry c t.color), column := t.column + 1 } := by
  unfold vgaPutchar
  rw [if_neg hn, if_neg hb]
  dsimp only
  rw [if_neg (by omega)]
  exact congrArg vgaUpdateCursor (vgaScroll_of_lt hrow)

theorem vgaPutchar_newline (hrow : t.row + 1 < VGA_HEIGHT) :
    vgaPutchar t charNewline = { t with column := 0, row := t.row + 1 } := vgaScroll_of_lt hrow

/-- A text that stays on the screen is set on the roll in its colour; the screen stays blank below. -/
theorem putchars_staysOn {blank : Cell} (ht : t.OnScreen) (hstr : StaysOn t.row t.column str)
    (hs : Shows VGA_WIDTH VGA_HEIGHT k blank t.buffer t.cursor r) :
    (str.foldl vgaPutchar t).OnScreen ∧ (str.foldl vgaPutchar t).scrolled = t.scrolled ∧
      Shows VGA_WIDTH VGA_HEIGHT k blank (str.foldl vgaPutchar t).buffer (str.foldl vgaPutchar t).cursor
        ((inColor t.color str).foldl setGlyph r) := by
  have hsize := screen_size
  induction str generalizing t r with
  | nil => exact ⟨ht, rfl, hs⟩
  | cons c str ih =>
    obtain ⟨hb, hstr⟩ := hstr
    have hcur := t.cursor_eq
    have hrow := ht.row
    have hcol := ht.column
    rw [List.foldl_cons, inColor, List.map_cons, List.foldl_cons, setGlyph, putRoll]
    by_cases hn : c = charNewline
    · rw [if_pos hn] at hstr ⊢
      have hline := hs.newline (by decide)
      have hdiv : t.cursor / VGA_WIDTH = t.row := by
        rw [hcur, hsize.1]
        omega
      rw [hdiv] at hline
      rw [hn, vgaPutchar_newline hstr.1]
      exact ih (t := { t with column := 0, row := t.row + 1 }) ⟨hstr.1, Nat.zero_lt_succ _⟩ hstr.2 hline
    · rw [if_neg hn] at hstr ⊢
      have hput := hs.put (a := vgaEntry c t.color) ht.cursor_lt
      rw [vgaPutchar_char hrow hb hn hstr.1]
      exact ih (t := vgaUpdateCursor { t with
        buffer := Function.update t.buffer t.cursor (vgaEntry c t.color), column := t.column + 1 }) ⟨hrow, hstr.1⟩ hstr.2 hput

/-- `vga_print_color` of a text that stays on the screen. -/
theorem Terminal.Prints.printColor (h : t.Prints s text) (hstr : StaysOn t.row t.column str)
    (h0 : 0 ∉ str) (color : Byte) :
    (vgaPrintColor t str color).Prints s (text ++ inColor color str) := by
  have hshows := h.displays.shows
  rw [h.color] at hshows
  obtain ⟨ht, hscrolled, hshows⟩ :=
    putchars_staysOn (t := { t with color := color }) ⟨h.onScreen.row, h.onScreen.column⟩
    hstr hshows
  unfold vgaPrintColor
  rw [vgaPrint_eq_foldl, cString_eq h0]
  refine ⟨⟨ht.row, ht.column⟩, rfl, ?_, ?_⟩
  · show s ≤ (str.foldl vgaPutchar { t with color := color }).scrolled
    rw [hscrolled]
    exact h.displays.le
  · show Shows _ _ ((str.foldl vgaPutchar { t with color := color }).scrolled - s) _ _ _ _
    rw [hscrolled, typeset_append]
    exact hshows

end SpatulaOS.Video
