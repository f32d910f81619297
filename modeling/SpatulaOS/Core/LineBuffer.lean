import Mathlib.Data.List.Induction
import SpatulaOS.Core.Console
import SpatulaOS.Lib.Runs

/-!
# Calls on the console

Sequences of `console_handle_char` and `console_clear_line` after `console_init`, against a line that
is kept on the side. The newline of `console_handle_char` sets the length to zero and leaves the
characters in the buffer, so `console_get_line` still gives the old line; as long as a newline
only comes when the line is empty, it gives the line that is kept (`matches_iff`).
-/

namespace SpatulaOS.Core

open ByteMemory Runs

/-- A call that changes the line. -/
inductive ConsoleCall where
  /-- `console_handle_char(c)` -/
  | handleChar (c : Byte)
  /-- `console_clear_line()` -/
  | clearLine
  deriving DecidableEq, Repr

/-- The call is made. -/
def Console.call (con : Console) : ConsoleCall → Console
  | .handleChar c => consoleHandleChar con c
  | .clearLine => consoleClearLine con

/-- The line on the side: a newline and `console_clear_line` empty it, and any other character edits it. -/
def refLine (line : List Byte) : ConsoleCall → List Byte
  | .handleChar c => if c = NEWLINE then [] else edit line c
  | .clearLine => []

/-- The console after `console_init` and some calls. -/
def Console.after (con : Console) (calls : List ConsoleCall) : Console :=
  calls.foldl Console.call (consoleInit con)

/-- The line on the side after the same calls. -/
def lineAfter (calls : List ConsoleCall) : List Byte := calls.foldl refLine []

/-- `console_get_line` gives the line, and `line_length` is its length. -/
structure Console.Matches (con : Console) (line : List Byte) : Prop where
  string : stringIn CONSOLE_BUFFER_SIZE (consoleGetLine con) = line
  length : con.lineLength.toNat = line.length

variable {con : Console} {calls pre : List ConsoleCall} {line : List Byte} {c : Byte}

theorem Console.Holds.matches (h : con.Holds line) : con.Matches line := ⟨h.getLine, h.length⟩

theorem Console.after_concat (con : Console) (calls : List ConsoleCall) (o : ConsoleCall) :
    con.after (calls ++ [o]) = (con.after calls).call o := by
  rw [after, List.foldl_append]
  rfl

theorem lineAfter_concat (calls : List ConsoleCall) (o : ConsoleCall) :
    lineAfter (calls ++ [o]) = refLine (lineAfter calls) o := by
  rw [lineAfter, List.foldl_append]
  rfl

theorem consoleHandleChar_newline (con : Console) :
    consoleHandleChar con NEWLINE = { con with lineLength := 0 } := by
  rw [consoleHandleChar, if_neg (by decide), if_pos rfl]

/-- A call keeps the line in the buffer, but for a newline behind characters. -/
theorem Console.Holds.call {o : ConsoleCall} (h : con.Holds line) (h0 : ∀ c, o = .handleChar c → c ≠ 0)
    (hn : o = .handleChar NEWLINE → con.lineLength = 0) : (con.call o).Holds (refLine line o) := by
  cases o with
  | clearLine => exact .clear con
  | handleChar c =>
    by_cases hc : c = NEWLINE
    · subst hc
      have hzero : con.lineLength = 0 := hn rfl
      have hnil : line = [] := by
        rw [← List.length_eq_zero_iff, ← h.length, hzero]
        rfl
      rw [Console.call, consoleHandleChar_newline, refLine, if_pos rfl, ← hnil]
      exact ⟨by rw [hnil]; rfl, h.le, h.buffer, h.ne_zero⟩
    · rw [refLine, if_neg hc]
      exact h.handleChar (h0 c rfl) hc

/-- **`console_get_line` gives the line after each call if and only if** every newline comes when the
line is empty. -/
theorem matches_iff (con : Console) (hcalls : ∀ c, .handleChar c ∈ calls → c ≠ 0) :
    (∀ pre, pre <+: calls → (con.after pre).Matches (lineAfter pre)) ↔
      ∀ pre, pre ++ [.handleChar NEWLINE] <+: calls → (con.after pre).lineLength = 0 := by
  constructor
  · intro h pre hpre
    have hbefore := h pre ((List.prefix_append _ _).trans hpre)
    have hafter := h _ hpre
    rw [Console.after_concat, lineAfter_concat, Console.call, consoleHandleChar_newline, refLine,
      if_pos rfl] at hafter
    -- the string is the same before the newline and after it
    have hnil : lineAfter pre = [] := hbefore.string.symm.trans hafter.string
    have hlen := hbefore.length
    rw [hnil] at hlen
    exact BitVec.eq_of_toNat_eq hlen
  · intro h pre hpre
    refine Console.Holds.matches
      (prefix_induction (P := fun pre => (con.after pre).Holds (lineAfter pre)) ?_ ?_ hpre)
    · exact .clear con
    · intro pre o hpre hi
      rw [Console.after_concat, lineAfter_concat]
      refine hi.call (fun c hc => hcalls c ?_) fun ho => h pre (ho ▸ hpre)
      exact hpre.subset (List.mem_append_right _ (List.mem_singleton.mpr hc.symm))

/-- The line "a", a newline when it is empty again, and the line "b". -/
def sampleCalls : List ConsoleCall :=
  [.handleChar 0x61, .handleChar BACKSPACE, .handleChar NEWLINE, .handleChar 0x62]

theorem matches_sample : lineAfter sampleCalls = [0x62] ∧
    ∀ pre, pre <+: sampleCalls → ((Console.mk (fun _ => 0x20) 7).after pre).Matches (lineAfter pre) := by
  refine ⟨by decide, (matches_iff _ (by unfold sampleCalls; simp)).mpr fun pre hpre => ?_⟩
  have hinits : ∀ l ∈ sampleCalls.inits, l.getLast? = some (.handleChar NEWLINE) →
      ((Console.mk (fun _ => 0x20) 7).after l.dropLast).lineLength = 0 := by decide +kernel
  have h := hinits _ (List.mem_inits _ _ |>.mpr hpre) List.getLast?_concat
  rwa [List.dropLast_concat] at h

/-- After "a" and a newline the string is still "a". -/
theorem not_matches : ¬ ∀ con calls, (∀ c, .handleChar c ∈ calls → c ≠ 0) →
    ∀ pre, pre <+: calls → (Console.after con pre).Matches (lineAfter pre) := by
  intro h
  have hm := h ⟨fun _ => 0, 0⟩ [.handleChar 0x61, .handleChar NEWLINE] (by simp) _ List.prefix_rfl
  exact absurd hm.string (by decide +kernel)

end SpatulaOS.Core
