import SpatulaOS.Core.Console
import SpatulaOS.Video.Terminal

/-!
# The input line on the screen

`console_handle_char` keeps the line buffer and echoes what it does to the screen. From an
empty line on, and as long as no newline comes, the cells from where the line began up to the
cursor show the line, and the cells before are only ever scrolled (`line_on_screen`): on the
roll that the screen shows, the line begins where the cursor was, and a line of 255
characters is too short to be scrolled off the screen.
-/

namespace SpatulaOS.Core

open ByteMemory SpatulaOS.Video Window

variable {con : Console} {t u : Terminal} {c : Byte} {cs : List Byte}

/-- `console_handle_char`, with the screen. -/
def consoleHandleCharEcho (s : Console × Terminal) (c : Byte) : Console × Terminal :=
  let (con, t) := s
  if c = BACKSPACE then
    if con.lineLength > 0 then
      let lineLength := con.lineLength - 1
      (⟨Function.update con.lineBuffer lineLength.toNat 0, lineLength⟩, vgaPutchar t BACKSPACE)
    else (con, t)
  else if c = NEWLINE then ({ con with lineLength := 0 }, vgaPutchar t NEWLINE)
  else if con.lineLength < 255 then
    (⟨Function.update con.lineBuffer con.lineLength.toNat c, con.lineLength + 1⟩, vgaPutchar t c)
  else (con, t)

theorem consoleHandleCharEcho_fst (con : Console) (t : Terminal) (c : Byte) :
    (consoleHandleCharEcho (con, t) c).1 = consoleHandleChar con c := by
  unfold consoleHandleCharEcho consoleHandleChar
  dsimp only
  split_ifs <;> rfl

/-! ### Scrolling -/

theorem vgaScroll_scrolled (t : Terminal) : (vgaScroll t).scrolled = t.scrolled ∨
    (vgaScroll t).scrolled = t.scrolled + 1 ∧ (vgaScroll t).cursor = 1920 + t.column := by
  unfold vgaScroll
  split_ifs
  · exact .inr ⟨rfl, rfl⟩
  · exact .inl rfl

/-- A character scrolls the screen only when it takes the cursor to the beginning of the row below
the last one. -/
theorem vgaPutchar_scrolled (ht : t.OnScreen) (hn : c ≠ NEWLINE) (hb : c ≠ BACKSPACE) :
    (vgaPutchar t c).scrolled = t.scrolled ∨
      (vgaPutchar t c).scrolled = t.scrolled + 1 ∧ (vgaPutchar t c).cursor = 1920 := by
  have hrow := ht.row
  unfold vgaPutchar
  dsimp only
  rw [if_neg hn, if_neg hb]
  split_ifs
  · rw [vgaUpdateCursor_scrolled, vgaUpdateCursor_cursor]
    exact vgaScroll_scrolled { t with
      row := t.row + 1
      column := 0
      buffer := Function.update t.buffer (t.row * VGA_WIDTH + t.column) (vgaEntry c t.color) }
  · left
    rw [vgaUpdateCursor_scrolled, vgaScroll_of_lt (by exact hrow)]

theorem vgaPutchar_backspace_scrolled (t : Terminal) : (vgaPutchar t BACKSPACE).scrolled = t.scrolled := by
  unfold vgaPutchar
  dsimp only
  rw [if_neg (by decide), if_pos rfl]
  split_ifs <;> rfl

/-! ### The line on the roll -/

/-- The line is on the screen behind the prompt: the screen shows a roll on which the cells up to
the start are those of `t` and the line comes after them. The screen was scrolled only for
a line that reached below it. -/
structure Echoes (t : Terminal) (con : Console) (u : Terminal) : Prop where
  onScreen : u.OnScreen
  sameColor : u.color = t.color
  length_le : con.lineLength.toNat ≤ 255
  scrolled : u.scrolled = t.scrolled ∨ (u.scrolled - t.scrolled + 24) * 80 ≤ t.cursor + 255
  roll : ∃ r, u.Displays t.scrolled r ∧ r.pos = t.cursor + con.lineLength.toNat ∧
    (∀ i, i < con.lineLength.toNat → r.cells (t.cursor + i) = vgaEntry (con.lineBuffer i) t.color) ∧
    ∀ i, i < t.cursor → r.cells i = t.buffer i

/-- The roll of the cells of the screen, blank below it. -/
def screenRoll (t : Terminal) : Roll Cell :=
  ⟨fun i => if i < 2000 then t.buffer i else vgaEntry charSpace t.color, t.cursor⟩

theorem echoes_start (ht : t.OnScreen) (hcon : con.lineLength = 0) : Echoes t con t := by
  have hcur := t.cursor_eq
  have hrow : t.row < 25 := ht.row
  have hcol : t.column < 80 := ht.column
  have hlen : con.lineLength.toNat = 0 := by
    rw [hcon]
    rfl
  refine ⟨ht, rfl, by omega, .inl rfl, screenRoll t, ⟨le_rfl, ?_⟩, by rw [hlen]; rfl, ?_,
    fun i hi => if_pos (by omega)⟩
  · rw [Nat.sub_self]
    refine ⟨fun i hi => ?_, ?_, fun i hi => ?_⟩
    · rw [Nat.zero_mul, Nat.zero_add]
      exact (if_pos hi).symm
    · exact (congrArg (· + t.cursor) (Nat.zero_mul _)).trans (Nat.zero_add _)
    · exact if_neg (Nat.not_lt.mpr hi)
  · intro i hi
    rw [hlen] at hi
    exact absurd hi (Nat.not_lt_zero i)

/-- The start of the line is still on the screen. -/
theorem Echoes.start_le (h : Echoes t con u) : (u.scrolled - t.scrolled) * 80 ≤ t.cursor := by
  obtain hs | hs := h.scrolled
  · rw [hs, Nat.sub_self]
    omega
  · omega

theorem Echoes.cursor (h : Echoes t con u) :
    (u.scrolled - t.scrolled) * 80 + u.cursor = t.cursor + con.lineLength.toNat := by
  obtain ⟨r, hd, hpos, -⟩ := h.roll
  exact hd.shows.pos.trans hpos

theorem Echoes.backspace (h : Echoes t con u) (hpos : con.lineLength > 0) :
    Echoes t ⟨Function.update con.lineBuffer (con.lineLength - 1).toNat 0, con.lineLength - 1⟩
      (vgaPutchar u BACKSPACE) := by
  have hstart := h.start_le
  have hcursor := h.cursor
  obtain ⟨hu, hcolor, hle, hs, r, hd, hp, hline, hbefore⟩ := h
  have hpos' : 0 < con.lineLength.toNat := hpos
  have hlen : (con.lineLength - 1).toNat = con.lineLength.toNat - 1 := by bv_omega
  obtain ⟨hu', hd'⟩ := hd.backspace hu (by omega)
  have hp' : (r.erase (vgaEntry charSpace u.color)).pos = r.pos - 1 := rfl
  refine ⟨hu', (vgaPutchar_color u BACKSPACE).trans hcolor, by dsimp only; omega, ?_, _,
    hd', by dsimp only; omega,
    fun i hi => ?_, fun i hi => ?_⟩
  · rw [vgaPutchar_backspace_scrolled]
    exact hs
  · dsimp only at hi ⊢
    show Function.update r.cells (r.pos - 1) _ (t.cursor + i) =
      vgaEntry (Function.update con.lineBuffer _ 0 i) t.color
    rw [Function.update_of_ne (by omega), Function.update_of_ne (by omega)]
    exact hline i (by omega)
  · show Function.update r.cells (r.pos - 1) _ i = t.buffer i
    rw [Function.update_of_ne (by omega)]
    exact hbefore i hi

theorem Echoes.append (h : Echoes t con u) (hb : c ≠ BACKSPACE) (hn : c ≠ NEWLINE)
    (hlt : con.lineLength < 255) :
    Echoes t ⟨Function.update con.lineBuffer con.lineLength.toNat c, con.lineLength + 1⟩
      (vgaPutchar u c) := by
  obtain ⟨hu, hcolor, hle, hs, r, hd, hp, hline, hbefore⟩ := h
  have hlt' : con.lineLength.toNat < 255 := hlt
  have hlen : (con.lineLength + 1).toNat = con.lineLength.toNat + 1 := by bv_omega
  obtain ⟨hu', hd'⟩ := hd.putchar hu hb
  rw [putRoll, if_neg hn, hcolor] at hd'
  have hp' : (r.put (vgaEntry c t.color)).pos = r.pos + 1 := rfl
  refine ⟨hu', (vgaPutchar_color u c).trans hcolor, by dsimp only; omega, ?_, _, hd', by dsimp only; omega,
    fun i hi => ?_, fun i hi => ?_⟩
  · obtain hsame | ⟨hmore, hcur⟩ := vgaPutchar_scrolled hu hn hb
    · rw [hsame]
      exact hs
    · have hpos : ((vgaPutchar u c).scrolled - t.scrolled) * 80 + (vgaPutchar u c).cursor = r.pos + 1 :=
        hd'.shows.pos
      exact .inr (by omega)
  · dsimp only at hi ⊢
    show Function.update r.cells r.pos _ (t.cursor + i) =
      vgaEntry (Function.update con.lineBuffer _ c i) t.color
    by_cases hi' : i = con.lineLength.toNat
    · rw [hi', hp, Function.update_self, Function.update_self]
    · rw [Function.update_of_ne (by omega), Function.update_of_ne hi']
      exact hline i (by omega)
  · show Function.update r.cells r.pos _ i = t.buffer i
    rw [Function.update_of_ne (by omega)]
    exact hbefore i hi

/-- A character that is not a newline keeps the line on the screen. -/
theorem Echoes.handleChar (h : Echoes t con u) (hn : c ≠ NEWLINE) :
    Echoes t (consoleHandleCharEcho (con, u) c).1 (consoleHandleCharEcho (con, u) c).2 := by
  unfold consoleHandleCharEcho
  dsimp only
  split_ifs with hb hpos hlt
  · exact h.backspace hpos
  · exact h
  · exact h.append hb hn hlt
  · exact h

theorem Echoes.handleChars (h : Echoes t con u) (hcs : NEWLINE ∉ cs) :
    Echoes t (cs.foldl consoleHandleCharEcho (con, u)).1 (cs.foldl consoleHandleCharEcho (con, u)).2 := by
  induction cs generalizing con u with
  | nil => exact h
  | cons c cs ih =>
    rw [List.mem_cons, not_or] at hcs
    exact ih (h.handleChar (Ne.symm hcs.1)) hcs.2

/-- **The screen shows the input line**: the cells from the start of the line, which moves up with
the screen, to the cursor are the characters of the line buffer, and the cells before it are the
old ones. -/
theorem line_on_screen (ht : t.OnScreen) (hcon : con.lineLength = 0) (hcs : NEWLINE ∉ cs) :
    let s := cs.foldl consoleHandleCharEcho (con, t)
    let scrolls := s.2.scrolled - t.scrolled
    let length := s.1.lineLength.toNat
    t.scrolled ≤ s.2.scrolled ∧ scrolls * VGA_WIDTH ≤ t.cursor ∧ length ≤ 255 ∧
      s.2.cursor = t.cursor - scrolls * VGA_WIDTH + length ∧
      (∀ i, i < length → Cell.char (s.2.buffer (t.cursor - scrolls * VGA_WIDTH + i)) = s.1.lineBuffer i) ∧
      ∀ i, i < t.cursor - scrolls * VGA_WIDTH → s.2.buffer i = t.buffer (scrolls * VGA_WIDTH + i) := by
  have h := (echoes_start ht hcon).handleChars hcs
  generalize cs.foldl consoleHandleCharEcho (con, t) = s at h
  have hstart := h.start_le
  have hcursor := h.cursor
  have hcur := s.2.cursor_eq
  obtain ⟨⟨hrow, hcol⟩, -, hle, -, r, ⟨hsc, hcells, -, -⟩, -, hline, hbefore⟩ := h
  unfold VGA_WIDTH VGA_HEIGHT at *
  refine ⟨hsc, hstart, hle, by omega, fun i hi => ?_, fun i hi => ?_⟩
  · rw [hcells _ (by omega),
      show (s.2.scrolled - t.scrolled) * 80 + (t.cursor - (s.2.scrolled - t.scrolled) * 80 + i) =
      t.cursor + i by omega, hline i hi, char_vgaEntry]
  · rw [hcells _ (by omega)]
    exact hbefore _ (by omega)

theorem line_on_screen_backspace : Cell.char (([0x41, BACKSPACE, 0x42].foldl consoleHandleCharEcho
    (⟨fun _ => 0, 0⟩, ⟨24, 79, 7, fun _ => 0, [], 0⟩)).2.buffer (1999 - 80)) = 0x42 :=
  (@line_on_screen ⟨fun _ => 0, 0⟩ ⟨24, 79, 7, fun _ => 0, [], 0⟩ [0x41, BACKSPACE, 0x42]
    ⟨by decide, by decide⟩ rfl (by decide)).2.2.2.2.1 0 (by decide)

end SpatulaOS.Core
