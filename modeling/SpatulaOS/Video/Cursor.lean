import Mathlib.Data.List.DropRight
import SpatulaOS.Video.Driver
import SpatulaOS.Video.Grid

/-!
# The hardware cursor

The display controller shows a cursor of its own, at the position that was last written to its
registers 0x0E and 0x0F. `vga_putchar` writes them at its end, but not after a newline, and
`vga_set_cursor` and `vga_clear` do not write them at all. The two cursors are at the same place
after each call exactly if each call is one that settles them (`cursor_synced_iff`).
-/

namespace SpatulaOS.Video

open ByteMemory Runs SpatulaOS.Core

/-- The registers of the display controller, and the one that the next value goes to. -/
structure Crtc where
  /-- What was last written to 0x3D4. -/
  index : Byte
  /-- The registers. -/
  regs : Byte → Byte

/-- A write to a port. -/
def Crtc.out (crt : Crtc) (w : BitVec 16 × Byte) : Crtc :=
  if w.1 = 0x3D4 then { crt with index := w.2 }
  else if w.1 = 0x3D5 then { crt with regs := Function.update crt.regs crt.index w.2 }
  else crt

/-- Where the controller shows the cursor. -/
def Crtc.position (crt : Crtc) : ℕ := (crt.regs 0x0E).toNat * 256 + (crt.regs 0x0F).toNat

/-- The hardware cursor, if the controller was in state `crt` at the start. -/
def Terminal.hardware (t : Terminal) (crt : Crtc) : ℕ := (t.ports.foldl Crtc.out crt).position

/-- The characters that a call gives to `vga_putchar`. -/
def VgaOp.text : VgaOp → List Byte
  | .putchar c => [c]
  | .print str => cString str
  | .printColor str _ => cString str
  | .printHex value => cString (hexText value)
  | .printDec num buffer => (decStrings num buffer).flatMap cString
  | _ => []

/-- A text settles the cursors, which are at `hw` and `p`: it does not end in a newline; or the part
of it before the newlines at its end leads to the beginning of the last row; or it has only
newlines, or nothing, and the hardware cursor is where they lead to. -/
def SettlesText (hw p : ℕ) (text : List Byte) : Prop :=
  let stem := text.rdropWhile (· = charNewline)
  if stem = [] then hw = text.foldl advance p else stem = text ∨ stem.foldl advance p = 1920

/-- A call settles the cursors: it prints such a text, or puts the cursor where the hardware cursor is. -/
def VgaOp.Settles (hw p : ℕ) : VgaOp → Prop
  | .setCursor row col =>
    hw = (if row < 25 then row.toNat else p / VGA_WIDTH) * VGA_WIDTH +
      if col < 80 then col.toNat else p % VGA_WIDTH
  | .clear => hw = 0
  | o => SettlesText hw p o.text

/-- The terminal after some calls. -/
def Terminal.after (buffer : ℕ → Cell) (ops : List VgaOp) : Terminal :=
  ops.foldl Terminal.call (.start buffer)

variable {t : Terminal} {crt : Crtc} {c : Byte} {p : ℕ} {s : ℕ × ℕ} {text nl : List Byte} {o : VgaOp}

/-! ### The registers -/

/-- `vga_update_cursor` puts the hardware cursor at the cursor. -/
theorem hardware_updateCursor (h : t.cursor < 2000) : (vgaUpdateCursor t).hardware crt = t.cursor := by
  have hlow (x : BitVec 16) : ((x &&& 0xFF).setWidth 8).toNat = x.toNat % 256 := by
    rw [BitVec.toNat_setWidth, BitVec.toNat_and, show (0xFF : BitVec 16).toNat = 2 ^ 8 - 1 from rfl,
      Nat.and_two_pow_sub_one_eq_mod, Nat.mod_mod]
  have hpos : (BitVec.ofNat 16 t.cursor).toNat = t.cursor := by
    rw [BitVec.toNat_ofNat, Nat.mod_eq_of_lt (by omega)]
  have hrun : (vgaUpdateCursor t).hardware crt =
      (((BitVec.ofNat 16 t.cursor) >>> 8 &&& 0xFF).setWidth 8).toNat * 256 +
        ((BitVec.ofNat 16 t.cursor &&& 0xFF).setWidth 8).toNat := by
    unfold Terminal.hardware vgaUpdateCursor Terminal.outb
    simp only [List.foldl_append, List.foldl_cons, List.foldl_nil]
    rfl
  rw [hrun, hlow, hlow, BitVec.toNat_ushiftRight, hpos, Nat.shiftRight_eq_div_pow]
  omega

/-- After a character the hardware cursor is at the cursor, but for a newline. -/
theorem Terminal.OnScreen.hardware_putchar (h : t.OnScreen) (hc : c ≠ charNewline) :
    (vgaPutchar t c).hardware crt = (vgaPutchar t c).cursor := by
  have hlt := (h.putchar c).1.cursor_lt
  unfold vgaPutchar at hlt ⊢
  rw [if_neg hc] at hlt ⊢
  split_ifs at hlt ⊢
  all_goals
    dsimp only at hlt ⊢
    rw [vgaUpdateCursor_cursor] at hlt ⊢
    exact hardware_updateCursor hlt

theorem hardware_newline (t : Terminal) : (vgaPutchar t charNewline).hardware crt = t.hardware crt := by
  unfold vgaPutchar Terminal.hardware
  rw [if_pos rfl, vgaScroll_ports]

/-! ### The two cursors -/

/-- What a character does to the hardware cursor and to the cursor. -/
def follow (s : ℕ × ℕ) (c : Byte) : ℕ × ℕ := (if c = charNewline then s.1 else advance s.2 c, advance s.2 c)

/-- The two cursors follow the text. -/
theorem Terminal.OnScreen.follow (h : t.OnScreen) (text : List Byte) :
    ((text.foldl vgaPutchar t).hardware crt, (text.foldl vgaPutchar t).cursor) =
      text.foldl Video.follow (t.hardware crt, t.cursor) := by
  induction text generalizing t with
  | nil => rfl
  | cons c text ih =>
    obtain ⟨hs, hcur⟩ := h.putchar c
    have hstep :
        ((vgaPutchar t c).hardware crt, (vgaPutchar t c).cursor) =
        Video.follow (t.hardware crt, t.cursor) c := by
      rw [Video.follow, ← hcur]
      by_cases hc : c = charNewline
      · rw [if_pos hc, hc, hardware_newline]
      · rw [if_neg hc, h.hardware_putchar hc]
    rw [List.foldl_cons, List.foldl_cons, ← hstep]
    exact ih hs

theorem follow_snd (text : List Byte) (s : ℕ × ℕ) : (text.foldl follow s).2 = text.foldl advance s.2 := by
  induction text generalizing s with
  | nil => rfl
  | cons c text ih => exact ih _

theorem follow_newlines (hnl : ∀ c ∈ nl, c = charNewline) (s : ℕ × ℕ) : (nl.foldl follow s).1 = s.1 := by
  induction nl generalizing s with
  | nil => rfl
  | cons c nl ih =>
    rw [List.foldl_cons, ih fun d hd => hnl d (List.mem_cons_of_mem _ hd), follow,
      if_pos (hnl c List.mem_cons_self)]

theorem follow_concat (hc : c ≠ charNewline) (text : List Byte) (s : ℕ × ℕ) :
    (text ++ [c]).foldl follow s =
      (((text ++ [c]).foldl advance s.2), ((text ++ [c]).foldl advance s.2)) := by
  rw [List.foldl_append, List.foldl_append, ← follow_snd]
  show follow _ c = _
  rw [follow, if_neg hc]
  rfl

theorem foldl_newlines (hne : nl ≠ []) (hnl : ∀ c ∈ nl, c = charNewline) (p : ℕ) :
    nl.foldl advance p = min (p / 80 + nl.length) 24 * 80 := by
  induction nl using List.reverseRecOn with
  | nil => exact absurd rfl hne
  | append_singleton nl c ih =>
    rw [List.foldl_append, List.foldl_cons, List.foldl_nil, hnl c (by simp), advance, if_pos rfl,
      List.length_append,
      List.length_singleton]
    unfold VGA_WIDTH
    by_cases h0 : nl = []
    · subst h0
      rfl
    · rw [ih h0 fun d hd => hnl d (List.mem_append_left _ hd)]
      omega

/-- Newlines lead back to where they begin only at the beginning of the last row. -/
theorem foldl_newlines_eq_iff (hne : nl ≠ []) (hnl : ∀ c ∈ nl, c = charNewline) :
    nl.foldl advance p = p ↔ p = 1920 := by
  have hlen := List.length_pos_iff.mpr hne
  rw [foldl_newlines hne hnl]
  omega

/-- A text brings the cursors together if and only if it settles them. -/
theorem follow_settles (s : ℕ × ℕ) (text : List Byte) :
    (text.foldl follow s).1 = (text.foldl follow s).2 ↔ SettlesText s.1 s.2 text := by
  have hsplit := List.rdropWhile_append_rtakeWhile (p := fun c => decide (c = charNewline)) (l := text)
  have hnl : ∀ c ∈ text.rtakeWhile (· = charNewline), c = charNewline := fun c hc => by
    simpa using List.mem_rtakeWhile_imp hc
  unfold SettlesText
  dsimp only
  by_cases hstem : text.rdropWhile (· = charNewline) = []
  · rw [if_pos hstem, follow_snd, follow_newlines]
    intro c hc
    rw [← hsplit, hstem, List.nil_append] at hc
    exact hnl c hc
  · rw [if_neg hstem]
    have hlast := List.rdropWhile_last_not _ _ hstem
    have hconcat := List.dropLast_append_getLast hstem
    have hfollow :=
      follow_concat (fun h => hlast (decide_eq_true h))
      (text.rdropWhile (· = charNewline)).dropLast s
    rw [hconcat] at hfollow
    generalize text.rdropWhile (· = charNewline) = stem at *
    generalize text.rtakeWhile (· = charNewline) = nl at *
    subst hsplit
    rw [List.foldl_append, hfollow, follow_snd, follow_newlines hnl]
    by_cases hne : nl = []
    · rw [hne, List.append_nil]
      exact ⟨fun _ => .inl rfl, fun _ => rfl⟩
    · have hne' : stem ≠ stem ++ nl := fun h => hne (List.append_right_eq_self.mp h.symm)
      rw [eq_comm, foldl_newlines_eq_iff hne hnl]
      exact ⟨.inr, fun h => h.resolve_left hne'⟩

/-! ### The calls -/

/-- A printed text brings the cursors together if and only if it settles them. -/
theorem Terminal.OnScreen.text_settles (h : t.OnScreen) (text : List Byte) :
    (text.foldl vgaPutchar t).hardware crt = (text.foldl vgaPutchar t).cursor ↔
      SettlesText (t.hardware crt) t.cursor text := by
  rw [← follow_settles (t.hardware crt, t.cursor), ← h.follow text]

theorem foldl_vgaPrint (t : Terminal) (strs : List (List Byte)) :
    strs.foldl vgaPrint t = (strs.flatMap cString).foldl vgaPutchar t := by
  induction strs generalizing t with
  | nil => rfl
  | cons str strs ih => rw [List.foldl_cons, List.flatMap_cons, List.foldl_append, ih, vgaPrint_eq_foldl]

/-- A call brings the cursors together if and only if it settles them. -/
theorem Terminal.OnScreen.call_settles (h : t.OnScreen) (o : VgaOp) :
    (t.call o).hardware crt = (t.call o).cursor ↔ o.Settles (t.hardware crt) t.cursor := by
  cases o with
  | putchar c => exact h.text_settles [c]
  | print str =>
    rw [Terminal.call, vgaPrint_eq_foldl]
    exact h.text_settles _
  | printColor str color =>
    have hcolor : OnScreen { t with color := color } := ⟨h.row, h.column⟩
    rw [Terminal.call, vgaPrintColor, vgaPrint_eq_foldl]
    exact hcolor.text_settles _
  | printHex value =>
    rw [Terminal.call, vgaPrintHex, vgaPrint_eq_foldl]
    exact h.text_settles _
  | printDec num buffer =>
    rw [Terminal.call, vgaPrintDec, foldl_vgaPrint]
    exact h.text_settles _
  | setCursor row col =>
    have hdiv := h.cursor_div
    have hcol : t.column < 80 := h.column
    have hmod : t.cursor % VGA_WIDTH = t.column := by
      rw [Terminal.cursor_eq]
      unfold VGA_WIDTH
      omega
    have hcur : (t.call (.setCursor row col)).cursor =
        (if row < 25 then row.toNat else t.row) * VGA_WIDTH + if col < 80 then col.toNat else t.column := by
      rw [Terminal.call, vgaSetCursor, Terminal.cursor]
      split_ifs <;> rfl
    have hhw : (t.call (.setCursor row col)).hardware crt = t.hardware crt := by
      rw [Terminal.call, vgaSetCursor]
      split_ifs <;> rfl
    rw [hcur, hhw, VgaOp.Settles, hdiv, hmod]
  | clear => exact Iff.rfl
  | scroll =>
    rw [Terminal.call, vgaScroll_of_lt h.row]
    exact Iff.rfl

theorem Terminal.after_concat (buffer : ℕ → Cell) (ops : List VgaOp) (o : VgaOp) :
    after buffer (ops ++ [o]) = (after buffer ops).call o := by
  rw [after, List.foldl_append]
  rfl

theorem onScreen_after (buffer : ℕ → Cell) (ops : List VgaOp) : (Terminal.after buffer ops).OnScreen :=
  ((Terminal.onScreen_start buffer).calls ops).2

/-- **The hardware cursor is at the cursor after each call if and only if** each call settles the cursors. -/
theorem cursor_synced_iff (crt : Crtc) (buffer : ℕ → Cell) (ops : List VgaOp) :
    (∀ pre o, pre ++ [o] <+: ops → (Terminal.after buffer (pre ++ [o])).hardware crt =
      (Terminal.after buffer (pre ++ [o])).row * 80 + (Terminal.after buffer (pre ++ [o])).column) ↔
    ∀ pre o, pre ++ [o] <+: ops →
      o.Settles ((Terminal.after buffer pre).hardware crt) (Terminal.after buffer pre).cursor := by
  refine forall₂_congr fun pre o => imp_congr_right fun _ => ?_
  rw [Terminal.after_concat, ← (onScreen_after buffer pre).call_settles o]
  exact Iff.rfl

/-- After a newline the hardware cursor is still in the first row. -/
theorem not_cursor_synced : ¬ ∀ (crt : Crtc) (buffer : ℕ → Cell) (ops : List VgaOp),
    ∀ pre o, pre ++ [o] <+: ops →
    (Terminal.after buffer (pre ++ [o])).hardware crt =
      (Terminal.after buffer (pre ++ [o])).row * 80 + (Terminal.after buffer (pre ++ [o])).column := by
  intro h
  have hcur := h ⟨0, fun _ => 0⟩ (fun _ => 0) [.putchar charNewline] [] _ List.prefix_rfl
  exact absurd hcur (by decide)

end SpatulaOS.Video
