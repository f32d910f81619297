import SpatulaOS.Shell.Store
import SpatulaOS.Shell.Update
import SpatulaOS.Video.Paper

/-!
# The desk

What a user at the keyboard has before him: the store, the text that was printed, and the line that
is being typed. A key edits the line, and the line is seen behind the printed text as it is; the key
Enter hands it to the store, prints what the store says, and then the prompt. There are no buffers,
cells or backspaces on the screen here. The strings of the store are typed, so none has a backspace
in it, and what is printed ends with a newline (`Store.Clean.line`).
-/

namespace SpatulaOS.Shell

open ByteMemory Tokens SpatulaOS.Core SpatulaOS.Fs SpatulaOS.Video

/-! ### The printed text -/

/-- `BOOT_LOGO_COLOR` -/
abbrev BOOT_LOGO_COLOR : Byte := 0x0B

/-- `boot_logo` -/
def bootLogo : List Byte :=
  text "---------------------------------------\n" ++
  text "  __                          _   __ \n" ++
  text " (_  ._   _. _|_     |  _.   / \\ (_  \n" ++
  text " __) |_) (_|  |_ |_| | (_|   \\_/ __) \n" ++
  text "     |                                \n" ++
  text "---------------------------------------\n\n"

/-- The prompt of a mode. -/
def promptText (mode : ℤ) : List Glyph :=
  if mode = 0 then inColor 0xC (text "kernel") ++ plain (text "> ")
  else if mode = 1 then inColor 0xE (text "root") ++ plain (text "> ")
  else if mode = 2 then inColor 0x9 (text "user") ++ plain (text "> ")
  else []

/-- The store, the printed text, and the line behind it. -/
structure Desk where
  /-- The store. -/
  store : Store
  /-- The printed text. -/
  printed : List Glyph
  /-- The line that is typed. -/
  line : List Byte

/-- The desk after boot. -/
def Desk.start (mode : ℤ) : Desk := ⟨.boot, inColor BOOT_LOGO_COLOR bootLogo ++ promptText mode, []⟩

/-- A key. -/
def Desk.key (mode : ℤ) (d : Desk) (c : Byte) : Desk :=
  if c = NEWLINE then
    let r := d.store.line ((tokens SPACE d.line).take MAX_ARGS)
    ⟨r.2, d.printed ++ plain (d.line ++ [NEWLINE] ++ r.1) ++ promptText mode, []⟩
  else { d with line := edit d.line c }

/-- What is seen. -/
def Desk.shown (d : Desk) : List Glyph := d.printed ++ plain d.line

variable {σ : Store} {d : Dir} {item : Item} {str path name w : List Byte}
  {argv args : List (List Byte)} {c : Byte}

/-! ### The typed line -/

/-- A line has no newlines and no backspaces. -/
def CleanLine (line : List Byte) : Prop := ∀ c ∈ line, c ≠ NEWLINE ∧ c ≠ BACKSPACE

theorem CleanLine.edit {line : List Byte} (h : CleanLine line) (hn : c ≠ NEWLINE) :
    CleanLine (edit line c) := by
  unfold Core.edit
  split_ifs with hb hlt
  · exact fun x hx => h x ((List.dropLast_sublist line).subset hx)
  · intro x hx
    obtain hx | hx := List.mem_append.mp hx
    · exact h x hx
    · rw [List.mem_singleton.mp hx]
      exact ⟨hn, hb⟩
  · exact h

theorem CleanLine.words {line : List Byte} (h : CleanLine line) {n : ℕ}
    (hw : w ∈ (tokens SPACE line).take n) : BACKSPACE ∉ w :=
  fun hb => (h _ (mem_of_mem_tokens (List.mem_of_mem_take hw) hb)).2 rfl

/-! ### What is printed -/

/-- The strings of the store have no backspaces. -/
def Store.Clean (σ : Store) : Prop := ∀ d, ∀ f ∈ σ.files d, BACKSPACE ∉ f.name ∧ BACKSPACE ∉ f.contents

theorem Store.clean_boot : Store.boot.Clean := fun _ _ hf => absurd hf List.not_mem_nil

/-- What is printed ends with a newline, or it is nothing. -/
def EndsLine (out : List Byte) : Prop := out = [] ∨ out.getLast? = some NEWLINE

instance instDecidableEndsLine (out : List Byte) :
    Decidable (EndsLine out) := by unfold EndsLine; infer_instance

theorem endsLine_append (str : List Byte) : EndsLine (str ++ text "\n") := .inr List.getLast?_concat

/-- The output of a command. -/
structure Prints (out : List Byte) : Prop where
  clean : BACKSPACE ∉ out
  ends : EndsLine out

/-- What is printed is decided for the messages. -/
instance instDecidablePrints (out : List Byte) : Decidable (Prints out) :=
  decidable_of_iff (BACKSPACE ∉ out ∧ EndsLine out) ⟨fun h => ⟨h.1, h.2⟩, fun h => ⟨h.clean, h.ends⟩⟩

theorem prints_line (hstr : BACKSPACE ∉ str) : Prints (str ++ text "\n") :=
  ⟨fun h => (List.mem_append.mp h).elim hstr (by decide), endsLine_append str⟩

theorem Prints.append {out out' : List Byte} (h : Prints out) (h' : Prints out') : Prints (out ++ out') := by
  refine ⟨fun hb => (List.mem_append.mp hb).elim h.clean h'.clean, ?_⟩
  obtain rfl | hlast := h'.ends
  · rw [List.append_nil]
    exact h.ends
  · right
    rw [List.getLast?_append, hlast]
    rfl

theorem prints_lines {names : List (List Byte)} (h : ∀ name ∈ names, BACKSPACE ∉ name) :
    Prints (names.flatMap (· ++ text "\n")) := by
  induction names with
  | nil => exact ⟨List.not_mem_nil, .inl rfl⟩
  | cons name names ih =>
    obtain ⟨hname, hnames⟩ := List.forall_mem_cons.mp h
    rw [List.flatMap_cons]
    exact (prints_line hname).append (ih hnames)

theorem Store.Clean.entries (h : σ.Clean) (d : Dir) : ∀ name ∈ σ.entries d, BACKSPACE ∉ name := by
  intro name hname
  obtain hname | hname := List.mem_append.mp hname
  · split_ifs at hname
    · rw [List.mem_singleton.mp hname]
      decide
    · cases hname
  · obtain ⟨f, hf, rfl⟩ := List.mem_map.mp hname
    exact (h d f hf).1

theorem Store.Clean.contents (h : σ.Clean) (item : Item) : BACKSPACE ∉ σ.contents item := by
  cases item with
  | dir d => exact List.not_mem_nil
  | file d i =>
    rw [Store.contents]
    cases hf : (σ.files d)[i]? with
    | none => exact List.not_mem_nil
    | some f => exact (h d f (List.mem_of_getElem? hf)).2

theorem Store.Clean.modify {f : List StoredFile → List StoredFile} (h : σ.Clean) (d : Dir)
    (hf : ∀ x ∈ f (σ.files d), BACKSPACE ∉ x.name ∧ BACKSPACE ∉ x.contents) : (σ.modify d f).Clean := by
  intro d' x hx
  unfold Store.modify at hx
  dsimp only at hx
  by_cases hd : d' = d
  · subst hd
    rw [Function.update_self] at hx
    exact hf x hx
  · rw [Function.update_of_ne hd] at hx
    exact h d' x hx

theorem Store.Clean.make (h : σ.Clean) (hname : BACKSPACE ∉ name) {message : String}
    (hmessage : Prints (text message))
    (d : Dir) : Prints (σ.make d message name).1 ∧ (σ.make d message name).2.Clean := by
  have hmade : (σ.modify d (· ++ [⟨name, []⟩])).Clean := by
    refine h.modify d fun x hx => ?_
    obtain hx | hx := List.mem_append.mp hx
    · exact h d x hx
    · rw [List.mem_singleton.mp hx]
      exact ⟨hname, List.not_mem_nil⟩
  have hfull : Prints (text "Failed to create file\n") := by decide
  unfold Store.make
  split_ifs
  · exact ⟨hfull, h⟩
  · exact ⟨hmessage, hmade⟩

theorem Store.Clean.write (h : σ.Clean) (hstr : BACKSPACE ∉ str) (path : List Byte) :
    Prints (σ.write path str).1 ∧ (σ.write path str).2.Clean := by
  have hnone : Prints (text "File not found\n") := by decide
  have hwritten : Prints (text "Written.\n") := by decide
  have hlaid (d : Dir) (i : ℕ) : (σ.modify d fun fs => fs.modify i fun f =>
      { f with contents := str ++ f.contents.drop str.length }).Clean := by
    refine h.modify d fun x hx => ?_
    obtain ⟨j, hj⟩ := List.mem_iff_getElem?.mp hx
    rw [List.getElem?_modify] at hj
    obtain ⟨f, hf, rfl⟩ := Option.map_eq_some_iff.mp hj
    obtain ⟨hname, hcontents⟩ := h d f (List.mem_of_getElem? hf)
    split_ifs
    · refine ⟨hname, fun hb => ?_⟩
      exact (List.mem_append.mp hb).elim hstr fun hb => hcontents (List.mem_of_mem_drop hb)
    · exact ⟨hname, hcontents⟩
  rw [Store.write]
  cases σ.resolve .root path with
  | none => exact ⟨hnone, h⟩
  | some item =>
    cases item with
    | dir d => exact ⟨hwritten, h⟩
    | file d i => exact ⟨hwritten, hlaid d i⟩

theorem Store.Clean.read (h : σ.Clean) (path : List Byte) : Prints (σ.read path) := by
  have hnone : Prints (text "File not found\n") := by decide
  rw [Store.read]
  cases σ.resolve .root path with
  | none => exact hnone
  | some item => exact prints_line (h.contents item)

theorem Store.Clean.lines (h : σ.Clean) (d : Dir) : Prints (σ.lines d) := prints_lines (h.entries d)

theorem Store.Clean.ls (h : σ.Clean) (path : List Byte) : Prints (σ.ls path) := by
  have hnone : Prints (text "Path not found\n") := by decide
  have hfile : Prints (text "Not a directory\n") := by decide
  rw [Store.ls]
  cases σ.target path with
  | none => exact hnone
  | some item =>
    cases item with
    | dir d => exact h.lines d
    | file d i => exact hfile

theorem Store.Clean.cd (h : σ.Clean) (path : List Byte) : Prints (σ.cd path).1 ∧ (σ.cd path).2.Clean := by
  have hnone : Prints (text "Path not found\n") := by decide
  have hfile : Prints (text "Not a directory\n") := by decide
  have hnothing : Prints [] := by decide
  rw [Store.cd]
  cases σ.target path with
  | none => exact ⟨hnone, h⟩
  | some item =>
    cases item with
    | dir d => exact ⟨hnothing, h⟩
    | file d i => exact ⟨hfile, h⟩

theorem notMem_joined (h : ∀ w ∈ args, BACKSPACE ∉ w) : BACKSPACE ∉ joined args := by
  intro hb
  obtain hb | ⟨w, hw, hb⟩ := mem_joined hb
  · cases hb
  · exact h w hw hb

/-- What a command prints has no backspaces and ends with a newline, and neither are there
backspaces in the store. -/
theorem Store.Clean.command (h : σ.Clean) (hargs : ∀ w ∈ args, BACKSPACE ∉ w) (c : Command) :
    Prints (σ.command c args).1 ∧ (σ.command c args).2.Clean := by
  have hnothing : Prints [] := by decide
  cases c with
  | echo => exact ⟨prints_line (notMem_joined hargs), h⟩
  | mk =>
    cases args with
    | nil => exact ⟨show Prints (text "Usage: mk <file>\n") by decide, h⟩
    | cons name args => exact h.make (hargs name List.mem_cons_self) (by decide) σ.cwd
  | mkr =>
    cases args with
    | nil => exact ⟨show Prints (text "Usage: mkr <file>\n") by decide, h⟩
    | cons name args => exact h.make (hargs name List.mem_cons_self) (by decide) .tmp
  | rd =>
    cases args with
    | nil => exact ⟨show Prints (text "Usage: rd <file>\n") by decide, h⟩
    | cons path args => exact ⟨h.read path, h⟩
  | write =>
    have husage : Prints (text "Usage: write <file> <text>\n") := by decide
    cases args with
    | nil => exact ⟨husage, h⟩
    | cons path args =>
      cases args with
      | nil => exact ⟨husage, h⟩
      | cons word words => exact h.write (notMem_joined fun w hw => hargs w (List.mem_cons_of_mem _ hw)) path
  | ls =>
    cases args with
    | nil => exact ⟨h.lines σ.cwd, h⟩
    | cons path args => exact ⟨h.ls path, h⟩
  | cd =>
    cases args with
    | nil => exact ⟨hnothing, h⟩
    | cons path args => exact h.cd path
  | _ => exact ⟨hnothing, h⟩

theorem Store.Clean.line (h : σ.Clean) (hargv : ∀ w ∈ argv, BACKSPACE ∉ w) :
    Prints (σ.line argv).1 ∧ (σ.line argv).2.Clean := by
  cases argv with
  | nil => exact ⟨show Prints [] by decide, h⟩
  | cons name args =>
    unfold Store.line
    dsimp only
    cases commandOf name with
    | none => exact ⟨show Prints (text "Unknown command\n") by decide, h⟩
    | some c => exact h.command (fun w hw => hargv w (List.mem_cons_of_mem _ hw)) c

end SpatulaOS.Shell
