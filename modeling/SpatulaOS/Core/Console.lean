import Mathlib.Data.List.GetD
import Mathlib.Logic.Function.Basic
import SpatulaOS.Lib.Memory

/-!
# The console's input line

The line buffer of `core/console.c`. The buffer has 256 characters, the last of which is
never written, and the line has no terminator of its own: it ends where the zeros begin
(`Console.Holds`). The echo on the screen is left out.
-/

namespace SpatulaOS.Core

open ByteMemory

/-- `CONSOLE_BUFFER_SIZE`. -/
abbrev CONSOLE_BUFFER_SIZE : ℕ := 256

/-- `'\b'`. -/
abbrev BACKSPACE : Byte := 0x08

/-- `'\n'`. -/
abbrev NEWLINE : Byte := 0x0A

/-- The static variables of the console. -/
structure Console where
  /-- `line_buffer` -/
  lineBuffer : ℕ → Byte
  /-- `line_length` -/
  lineLength : Word

/-- `for (uint32_t i = 0; i < CONSOLE_BUFFER_SIZE; i++) line_buffer[i] = 0;` -/
def clearBuffer (buffer : ℕ → Byte) : ℕ → Byte :=
  (List.range CONSOLE_BUFFER_SIZE).foldl (fun b i => Function.update b i 0) buffer

/-- `console_init`. -/
def consoleInit (con : Console) : Console := ⟨clearBuffer con.lineBuffer, 0⟩

/-- `console_handle_char`. -/
def consoleHandleChar (con : Console) (c : Byte) : Console :=
  if c = BACKSPACE then
    if con.lineLength > 0 then
      let lineLength := con.lineLength - 1
      ⟨Function.update con.lineBuffer lineLength.toNat 0, lineLength⟩
    else con
  else if c = NEWLINE then { con with lineLength := 0 }
  else if con.lineLength < 255 then
    ⟨Function.update con.lineBuffer con.lineLength.toNat c, con.lineLength + 1⟩
  else con

/-- `console_get_line`: the buffer. -/
def consoleGetLine (con : Console) : ℕ → Byte := con.lineBuffer

/-- `console_clear_line`. -/
def consoleClearLine (con : Console) : Console := ⟨clearBuffer con.lineBuffer, 0⟩

/-- The string at the beginning of an array of `n` bytes: it ends at the first zero, if there
is one. -/
def stringIn (n : ℕ) (b : ℕ → Byte) : List Byte := ((List.range n).map b).takeWhile (· ≠ 0)

/-! ### The line in the buffer -/

variable {con : Console} {line : List Byte} {c : Byte}

/-- What a character does to a line: a backspace takes the last character away, and any other is
appended if the line has fewer than 255 characters. -/
def edit (line : List Byte) (c : Byte) : List Byte :=
  if c = BACKSPACE then line.dropLast
  else if line.length < 255 then line ++ [c] else line

/-- The buffer holds the line, and zeros behind it. -/
structure Console.Holds (con : Console) (line : List Byte) : Prop where
  length : con.lineLength.toNat = line.length
  le : line.length ≤ 255
  buffer : ∀ i, i < CONSOLE_BUFFER_SIZE → con.lineBuffer i = line.getD i 0
  ne_zero : ∀ c ∈ line, c ≠ 0

theorem clearBuffer_eq_zero (b : ℕ → Byte) {i : ℕ} (hi : i < CONSOLE_BUFFER_SIZE) : clearBuffer b i = 0 :=
  (foldl_update_apply (fun _ => 0) b CONSOLE_BUFFER_SIZE i).trans (if_pos hi)

theorem Console.Holds.clear (con : Console) : (consoleClearLine con).Holds [] := by
  refine ⟨rfl, Nat.zero_le _, fun i hi => ?_, fun _ h => absurd h List.not_mem_nil⟩
  unfold consoleClearLine
  dsimp only
  rw [clearBuffer_eq_zero con.lineBuffer hi, List.getD_nil]

/-- The string in the buffer is the line. -/
theorem Console.Holds.getLine (h : con.Holds line) :
    stringIn CONSOLE_BUFFER_SIZE (consoleGetLine con) = line := by
  have hle := h.le
  have hmap : (List.range CONSOLE_BUFFER_SIZE).map con.lineBuffer = line ++
      List.replicate (256 - line.length) 0 := by
    refine List.ext_getElem ?_ fun i h1 h2 => ?_
    · rw [List.length_map, List.length_range, List.length_append, List.length_replicate]
      unfold CONSOLE_BUFFER_SIZE
      omega
    · rw [List.length_map, List.length_range] at h1
      rw [List.getElem_map, List.getElem_range, h.buffer i h1, List.getElem_append]
      split_ifs with hi
      · exact List.getD_eq_getElem line 0 hi
      · rw [List.getElem_replicate]
        exact List.getD_eq_default line 0 (by omega)
  obtain ⟨k, hk⟩ : ∃ k, 256 - line.length = k + 1 := ⟨255 - line.length, by omega⟩
  rw [stringIn, consoleGetLine, hmap, hk, List.replicate_succ,
    List.takeWhile_append_of_pos fun c hc => decide_eq_true (h.ne_zero c hc)]
  simp

/-- A character other than the newline edits the line. -/
theorem Console.Holds.handleChar (h : con.Holds line) (h0 : c ≠ 0) (hn : c ≠ NEWLINE) :
    (consoleHandleChar con c).Holds (edit line c) := by
  have hlen := h.length
  have hle := h.le
  unfold consoleHandleChar edit
  by_cases hb : c = BACKSPACE
  · rw [if_pos hb, if_pos hb]
    split_ifs with hpos
    · have hpos' : 0 < line.length := hlen ▸ hpos
      have hpred : (con.lineLength - 1).toNat = line.length - 1 := by bv_omega
      refine ⟨?_, ?_, fun i hi => ?_, fun c hc => h.ne_zero c ((List.dropLast_sublist line).subset hc)⟩
      · rw [List.length_dropLast]
        exact hpred
      · rw [List.length_dropLast]
        omega
      · show Function.update con.lineBuffer (con.lineLength - 1).toNat 0 i = _
        rw [hpred]
        by_cases hil : i = line.length - 1
        · rw [hil, Function.update_self, List.getD_eq_default _ _ (by rw [List.length_dropLast])]
        · rw [Function.update_of_ne hil, h.buffer i hi]
          by_cases hlt : i < line.length - 1
          · rw [List.getD_eq_getElem line 0 (by omega),
              List.getD_eq_getElem _ 0 (by rw [List.length_dropLast]; exact hlt), List.getElem_dropLast]
          · rw [List.getD_eq_default line 0 (by omega),
              List.getD_eq_default _ 0 (by rw [List.length_dropLast]; omega)]
    · have hnil : line = [] := List.length_eq_zero_iff.mp (by rw [← hlen]; bv_omega)
      rw [hnil] at h ⊢
      exact h
  · rw [if_neg hb, if_neg hn, if_neg hb]
    have hiff : con.lineLength < 255 ↔ line.length < 255 := by
      rw [← hlen]
      exact Iff.rfl
    by_cases hlt : line.length < 255
    · rw [if_pos (hiff.mpr hlt), if_pos hlt]
      refine ⟨?_, ?_, fun i hi => ?_, fun d hd => ?_⟩
      · show (con.lineLength + 1).toNat = _
        rw [List.length_append, List.length_singleton]
        bv_omega
      · rw [List.length_append, List.length_singleton]
        omega
      · show Function.update con.lineBuffer con.lineLength.toNat c i = _
        rw [hlen]
        by_cases hil : i = line.length
        · rw [hil, Function.update_self, List.getD_append_right _ _ _ _ le_rfl, Nat.sub_self]
          rfl
        · rw [Function.update_of_ne hil, h.buffer i hi]
          by_cases hlt' : i < line.length
          · rw [List.getD_append _ _ _ _ hlt']
          · rw [List.getD_eq_default line 0 (by omega),
              List.getD_eq_default _ 0 (by rw [List.length_append, List.length_singleton]; omega)]
      · obtain hd | hd := List.mem_append.mp hd
        · exact h.ne_zero d hd
        · rw [List.mem_singleton.mp hd]
          exact h0
    · rw [if_neg fun h => hlt (hiff.mp h), if_neg hlt]
      exact h

end SpatulaOS.Core
