import Mathlib.Data.List.Induction
import SpatulaOS.Core.Console
import SpatulaOS.Drivers.Keyboard

/-!
# The shell's input loop

`shell_update` of `shell/shell.c` takes characters from the keyboard and gives them to the
console; at a newline it passes the console's line to `execute_command` and clears the line.
`execute_command` copies the line into a buffer of 256 bytes. What the commands do is left
out: they have no access to the keyboard's buffer and to the line.

The keyboard's interrupt may come between any two steps. As long as never more than 255
characters wait, the lines are those of the decoded characters, cut at the newlines
(`linesOf`, `ShellState.Inv`).
-/

namespace SpatulaOS.Shell

open ByteMemory Runs SpatulaOS.Core SpatulaOS.Drivers

/-- The body of the loop of `shell_update` for the character `c`: the console, and the line that
is passed to `execute_command`, if one is. -/
def handleInput (con : Console) (c : Byte) : Console × Option (List Byte) :=
  if c = NEWLINE then
    let input := consoleGetLine con
    (consoleClearLine con, some (stringIn CONSOLE_BUFFER_SIZE input))
  else (consoleHandleChar con c, none)

/-- Where `shell_update` is. -/
inductive ShellPc where
  /-- Before the test of the loop, or outside `shell_update`. -/
  | loop
  /-- In `keyboard_getchar`. -/
  | reading
  /-- `keyboard_getchar` returned `c`. -/
  | handling (c : Byte)

/-- The shell, the console and the keyboard, with the lines that were passed to
`execute_command`, in order. -/
structure ShellState where
  /-- The keyboard and its reader. -/
  input : Input
  /-- The console. -/
  console : Console
  /-- Where `shell_update` is. -/
  pc : ShellPc
  /-- The lines that were passed to `execute_command`. -/
  executed : List (List Byte)

/-- What happens next. -/
inductive ShellOp where
  /-- A keyboard interrupt. -/
  | irq (scancode : Byte)
  /-- `shell_update` tests `keyboard_has_input()`. -/
  | hasInput
  /-- `keyboard_getchar` tests for input. -/
  | test
  /-- It reads the buffer. -/
  | load
  /-- It moves the tail forward and returns. -/
  | finish
  /-- `shell_update` handles the character. -/
  | handle

/-- One step. A call of `keyboard_getchar` that finds no input returns zero, which is handled like
any other character. -/
def ShellState.exec (s : ShellState) : ShellOp → Option ShellState
  | .irq scancode => (s.input.exec (.irq scancode)).map fun input => { s with input := input }
  | .hasInput =>
    match s.pc with
    | .loop => some { s with pc := if keyboardHasInput s.input.keyboard then .reading else .loop }
    | _ => none
  | .test =>
    match s.pc with
    | .reading => (s.input.exec .test).map fun input =>
      { s with
        input := input
        pc := if keyboardHasInput s.input.keyboard then .reading else .handling 0 }
    | _ => none
  | .load =>
    match s.pc with
    | .reading => (s.input.exec .load).map fun input => { s with input := input }
    | _ => none
  | .finish =>
    match s.pc, s.input.reader with
    | .reading, .loaded c => (s.input.exec .finish).map fun input =>
      { s with
        input := input
        pc := .handling c }
    | _, _ => none
  | .handle =>
    match s.pc with
    | .handling c =>
      let r := handleInput s.console c
      some { s with
        console := r.1
        pc := .loop
        executed := s.executed ++ r.2.toList }
    | _ => none

/-- The shell after `console_init`, before any key is pressed. -/
def ShellState.start (con : Console) : ShellState := ⟨.start, consoleInit con, .loop, []⟩

/-- The shell and the keyboard's interrupts, in any order of steps. -/
def shellMachine : Machine ShellState ShellOp where
  start s := ∃ con, s = .start con
  step s o s' := s.exec o = some s'

/-- The characters that were handled: those that were delivered, but for the one at hand. -/
def ShellState.handled (s : ShellState) : List Byte :=
  match s.pc with
  | .handling _ => s.input.delivered.dropLast
  | _ => s.input.delivered

/-! ### The lines of a stream of characters -/

/-- The line that a piece without newlines leaves, from an empty line on. -/
def editLine (piece : List Byte) : List Byte := piece.foldl edit []

/-- The lines of a stream: it is cut at each newline, and each piece is edited. What follows the
last newline is not a line yet. -/
def linesOf (stream : List Byte) : List (List Byte) := (stream.splitOn NEWLINE).dropLast.map editLine

/-- The line that the characters after the last newline leave. -/
def openLine (stream : List Byte) : List Byte := editLine ((stream.splitOn NEWLINE).getLastD [])

variable {s s' : ShellState} {o : ShellOp} {stream more : List Byte} {c : Byte}

theorem splitOn_concat_newline (stream : List Byte) :
    (stream ++ [NEWLINE]).splitOn NEWLINE = stream.splitOn NEWLINE ++ [[]] := by
  rw [List.splitOn_append_cons_self, List.splitOn_nil]

/-- A character other than the newline is added to the last piece. -/
theorem splitOn_concat (stream : List Byte) (hc : c ≠ NEWLINE) : ∃ pieces piece,
    stream.splitOn NEWLINE = pieces ++ [piece] ∧
      (stream ++ [c]).splitOn NEWLINE = pieces ++ [piece ++ [c]] := by
  induction stream with
  | nil => exact ⟨[], [], rfl, List.splitOn_eq_singleton fun h => hc (List.mem_singleton.mp h).symm⟩
  | cons x xs ih =>
    obtain ⟨pieces, piece, h1, h2⟩ := ih
    rw [List.cons_append, List.splitOn_cons_eq_if_modifyHead, List.splitOn_cons_eq_if_modifyHead, h1, h2]
    split_ifs
    · exact ⟨[] :: pieces, piece, rfl, rfl⟩
    · cases pieces with
      | nil => exact ⟨[], x :: piece, rfl, rfl⟩
      | cons first rest => exact ⟨(x :: first) :: rest, piece, rfl, rfl⟩

/-- A newline completes the open line. -/
theorem linesOf_concat_newline (stream : List Byte) :
    linesOf (stream ++ [NEWLINE]) = linesOf stream ++ [openLine stream] ∧
      openLine (stream ++ [NEWLINE]) = [] := by
  unfold linesOf openLine
  rw [splitOn_concat_newline, List.dropLast_concat, List.getLastD_concat]
  refine ⟨?_, rfl⟩
  obtain ⟨pieces, piece, h⟩ : ∃ pieces piece, stream.splitOn NEWLINE = pieces ++ [piece] :=
    ⟨_, _, (List.dropLast_append_getLast (List.splitOn_ne_nil NEWLINE stream)).symm⟩
  rw [h, List.dropLast_concat, List.getLastD_concat, List.map_append]
  rfl

/-- Any other character edits the open line. -/
theorem linesOf_concat (stream : List Byte) (hc : c ≠ NEWLINE) :
    linesOf (stream ++ [c]) = linesOf stream ∧ openLine (stream ++ [c]) = edit (openLine stream) c := by
  obtain ⟨pieces, piece, h1, h2⟩ := splitOn_concat stream hc
  unfold linesOf openLine
  rw [h1, h2, List.dropLast_concat, List.dropLast_concat, List.getLastD_concat, List.getLastD_concat]
  refine ⟨rfl, ?_⟩
  rw [editLine, List.foldl_append]
  rfl

/-- The lines of a part of a stream are the first ones. -/
theorem linesOf_prefix (stream more : List Byte) : linesOf stream <+: linesOf (stream ++ more) := by
  induction more using List.reverseRecOn with
  | nil =>
    exact ⟨[], by rw [List.append_nil, List.append_nil]⟩
  | append_singleton more c ih =>
    rw [← List.append_assoc]
    by_cases hc : c = NEWLINE
    · rw [hc, (linesOf_concat_newline _).1]
      exact ih.trans (List.prefix_append _ _)
    · rw [(linesOf_concat _ hc).1]
      exact ih

/-- A line has room for a terminator in 256 bytes. -/
theorem length_editLine (piece : List Byte) : (editLine piece).length ≤ 255 := by
  induction piece using List.reverseRecOn with
  | nil => exact Nat.zero_le _
  | append_singleton piece c ih =>
    rw [editLine, List.foldl_append]
    show (edit (editLine piece) c).length ≤ 255
    unfold edit
    split_ifs
    · rw [List.length_dropLast]
      omega
    · rw [List.length_append, List.length_singleton]
      omega
    · exact ih

/-! ### The invariant -/

/-- The lines executed are those of the characters handled, and the console holds the open
line. -/
structure ShellState.Inv (s : ShellState) : Prop where
  input : s.input.Lossless
  ne_zero : ∀ c ∈ s.input.received, c ≠ 0
  console : s.console.Holds (openLine s.handled)
  executed : s.executed = linesOf s.handled
  loop : s.pc = .loop → s.input.reader = .idle
  /-- `keyboard_getchar` is called only if there is input. -/
  reading : s.pc = .reading → s.input.delivered.length < s.input.received.length
  handling : ∀ c, s.pc = .handling c → s.input.reader = .idle ∧ s.input.delivered = s.handled ++ [c]

theorem decoded_ne_zero {scancode : Byte} (h : c ∈ (decoded scancode).toList) : c ≠ 0 := by
  unfold decoded at h
  split_ifs at h with h1 h2
  · cases h
  · rw [Option.toList_some, List.mem_singleton] at h
    rw [h]
    exact h2
  · cases h

theorem ShellState.Inv.init (con : Console) : (ShellState.start con).Inv :=
  ⟨.init, fun _ h => absurd h List.not_mem_nil, .clear con, rfl, fun _ => rfl, fun h => (by cases h),
    fun _ h => (by cases h)⟩

theorem hasInput_of_lt {input : Input} (hi : input.Lossless) (hu : input.undelivered ≤ 255)
    (hlt : input.delivered.length < input.received.length) : keyboardHasInput input.keyboard = true := by
  refine hasInput_iff.mpr (hi.ring.ne hlt ?_)
  unfold Input.undelivered at hu
  unfold KEYBOARD_BUFFER_SIZE
  omega

theorem handled_of_ne (h : ∀ c, s.pc ≠ .handling c) : s.handled = s.input.delivered := by
  unfold ShellState.handled
  split
  next c hpc => exact absurd hpc (h c)
  next => rfl

theorem handled_of_loop (h : s.pc = .loop) : s.handled = s.input.delivered :=
  handled_of_ne fun c hc => by cases h.symm.trans hc

theorem handled_of_reading (h : s.pc = .reading) : s.handled = s.input.delivered :=
  handled_of_ne fun c hc => by cases h.symm.trans hc

theorem handled_of_pc (h : s.pc = .handling c) : s.handled = s.input.delivered.dropLast := by
  unfold ShellState.handled
  rw [h]

/-- An interrupt adds the characters that the scancode decodes to. -/
theorem ShellState.Inv.irq {scancode : Byte} (hi : s.Inv) (hu : s.input.undelivered ≤ 255)
    (hs : s.exec (.irq scancode) = some s') : s'.Inv := by
  rw [exec] at hs
  obtain ⟨input, hin, rfl⟩ := Option.map_eq_some_iff.mp hs
  have hl := hi.input.step hu hin
  obtain rfl := Option.some.inj hin
  refine ⟨hl, fun c hc => ?_, hi.console, hi.executed, hi.loop, fun h => ?_, hi.handling⟩
  · exact (List.mem_append.mp hc).elim (hi.ne_zero c) decoded_ne_zero
  · show s.input.delivered.length < (s.input.received ++ _).length
    rw [List.length_append]
    exact Nat.lt_add_right _ (hi.reading h)

/-- The test of `shell_update` enters `keyboard_getchar` only with a character waiting. -/
theorem ShellState.Inv.hasInput (hi : s.Inv) (hs : s.exec .hasInput = some s') : s'.Inv := by
  rw [exec] at hs
  split at hs
  next hpc =>
    obtain rfl := Option.some.inj hs
    have hh := handled_of_loop hpc
    have hc := hi.console
    have he := hi.executed
    rw [hh] at hc he
    by_cases hin : keyboardHasInput s.input.keyboard = true
    · rw [if_pos hin]
      exact ⟨hi.input, hi.ne_zero, hc, he, fun h => (by cases h),
        fun _ => hi.input.ring.lt (hasInput_iff.mp hin),
        fun c h => (by cases h)⟩
    · rw [if_neg hin]
      exact ⟨hi.input, hi.ne_zero, hc, he, fun _ => hi.loop hpc, fun h => (by cases h),
        fun c h => (by cases h)⟩
  next => cases hs

theorem ShellState.Inv.test (hi : s.Inv) (hu : s.input.undelivered ≤ 255) (hs : s.exec .test = some s') :
    s'.Inv := by
  rw [exec] at hs
  split at hs
  next hpc =>
    obtain ⟨input, hin, rfl⟩ := Option.map_eq_some_iff.mp hs
    have hl := hi.input.step hu hin
    obtain ⟨-, rfl⟩ := exec_test hin
    have hh := handled_of_reading hpc
    have hc := hi.console
    have he := hi.executed
    rw [hh] at hc he
    -- the character that `shell_update` saw still waits
    have hin' := hasInput_of_lt hi.input hu (hi.reading hpc)
    rw [if_pos hin'] at hl ⊢
    rw [if_pos hin']
    exact ⟨hl, hi.ne_zero, hc, he, fun h => (by cases h), fun _ => hi.reading hpc, fun c h => (by cases h)⟩
  next => cases hs

theorem ShellState.Inv.load (hi : s.Inv) (hu : s.input.undelivered ≤ 255) (hs : s.exec .load = some s') :
    s'.Inv := by
  rw [exec] at hs
  split at hs
  next hpc =>
    obtain ⟨input, hin, rfl⟩ := Option.map_eq_some_iff.mp hs
    have hl := hi.input.step hu hin
    obtain ⟨-, rfl⟩ := exec_load hin
    refine ⟨hl, hi.ne_zero, hi.console, hi.executed, fun h => ?_, hi.reading, fun c h => ?_⟩
    · cases hpc.symm.trans h
    · cases hpc.symm.trans h
  next => cases hs

theorem ShellState.Inv.finish (hi : s.Inv) (hu : s.input.undelivered ≤ 255) (hs : s.exec .finish = some s') :
    s'.Inv := by
  rw [exec] at hs
  split at hs
  next c hpc hr =>
    obtain ⟨input, hin, rfl⟩ := Option.map_eq_some_iff.mp hs
    have hl := hi.input.step hu hin
    obtain ⟨c', hr', rfl⟩ := exec_finish hin
    obtain rfl := Reader.loaded.inj (hr.symm.trans hr')
    have hh := handled_of_reading hpc
    have hc := hi.console
    have he := hi.executed
    have hh' : (s.input.delivered ++ [c]).dropLast = s.handled := by rw [List.dropLast_concat, hh]
    refine ⟨hl, hi.ne_zero, ?_, ?_, fun h => (by cases h), fun h => (by cases h), fun d h => ?_⟩
    · rw [handled_of_pc rfl]
      exact hh'.symm ▸ hc
    · rw [handled_of_pc rfl]
      exact hh'.symm ▸ he
    · obtain rfl := ShellPc.handling.inj h
      refine ⟨rfl, ?_⟩
      rw [handled_of_pc rfl, List.dropLast_concat]
  next => cases hs

/-- The line buffer follows the open line, and a newline executes it. -/
theorem ShellState.Inv.handle (hi : s.Inv) (hs : s.exec .handle = some s') : s'.Inv := by
  rw [exec] at hs
  split at hs
  next c hpc =>
    obtain rfl := Option.some.inj hs
    obtain ⟨hr, hd⟩ := hi.handling c hpc
    have hlt : c ∈ s.input.received := by
      have hsub : s.input.delivered.Sublist s.input.received := by
        rw [hi.input.delivered]
        exact List.take_sublist _ _
      exact hsub.subset (hd ▸ List.mem_append_right _ List.mem_cons_self)
    have h0 := hi.ne_zero c hlt
    have hhand (con : Console) (ex : List (List Byte)) :
        (⟨s.input, con, .loop, ex⟩ : ShellState).handled = s.handled ++ [c] := hd
    refine ⟨hi.input, hi.ne_zero, ?_, ?_, fun _ => hr, fun h => (by cases h), fun d h => (by cases h)⟩
    · rw [hhand]
      unfold handleInput
      split_ifs with hn
      · rw [hn, (linesOf_concat_newline _).2]
        exact .clear s.console
      · rw [(linesOf_concat _ hn).2]
        exact hi.console.handleChar h0 hn
    · rw [hhand]
      unfold handleInput
      dsimp only
      split_ifs with hn
      · dsimp only
        rw [hn, (linesOf_concat_newline _).1, hi.console.getLine, hi.executed]
        rfl
      · dsimp only
        rw [(linesOf_concat _ hn).1, hi.executed, Option.toList_none, List.append_nil]
  next => cases hs

/-- Every step keeps the invariant as long as at most 255 characters wait. -/
theorem ShellState.Inv.step (hi : s.Inv) (hu : s.input.undelivered ≤ 255)
    (hs : s.exec o = some s') : s'.Inv := by
  cases o with
  | irq scancode => exact hi.irq hu hs
  | hasInput => exact hi.hasInput hs
  | test => exact hi.test hu hs
  | load => exact hi.load hu hs
  | finish => exact hi.finish hu hs
  | handle => exact hi.handle hs

/-- **The lines that the shell executes**: in every run in which at most 255 decoded characters ever
wait, they are the lines of the characters handled so far, which are the first of the decoded
ones, and all of them when `shell_update` finds no more input; and each line and its
terminator fit in the copy of 256 bytes. -/
theorem executed_lines {s : ShellState} (hs : Reach shellMachine (fun s _ => s.input.undelivered ≤ 255) s)
    (hu : s.input.undelivered ≤ 255) :
    s.executed = linesOf s.handled ∧ s.handled <+: s.input.received ∧
      s.executed <+: linesOf s.input.received ∧
    (s.pc = .loop → keyboardHasInput s.input.keyboard = false → s.executed = linesOf s.input.received) ∧
    ∀ line ∈ s.executed, line.length + 1 ≤ 256 := by
  have hi : s.Inv := by
    refine hs.invariant (I := ShellState.Inv) ?_ ?_
    · rintro s ⟨con, rfl⟩
      exact .init con
    · exact fun s o s' hi hu h => hi.step hu h
  have hpre : s.handled <+: s.input.received := by
    have hdel : s.input.delivered <+: s.input.received := by
      rw [hi.input.delivered]
      exact List.take_prefix _ _
    cases hpc : s.pc with
    | handling c =>
      rw [handled_of_pc hpc]
      exact (List.dropLast_prefix _).trans hdel
    | loop =>
      rw [handled_of_loop hpc]
      exact hdel
    | reading =>
      rw [handled_of_reading hpc]
      exact hdel
  refine ⟨hi.executed, hpre, ?_, fun hpc hin => ?_, fun line hl => ?_⟩
  · obtain ⟨more, hmore⟩ := hpre
    rw [hi.executed, ← hmore]
    exact linesOf_prefix _ _
  · rw [hi.executed, handled_of_loop hpc]
    congr 1
    -- nothing waits
    have hall : s.input.received.length ≤ s.input.delivered.length := by
      by_contra hlt
      rw [hasInput_of_lt hi.input hu (Nat.lt_of_not_le hlt)] at hin
      cases hin
    rw [hi.input.delivered, List.take_of_length_le hall]
  · rw [hi.executed, linesOf, List.mem_map] at hl
    obtain ⟨piece, -, rfl⟩ := hl
    have := length_editLine piece
    omega

/-- The keys x, backspace, a, b, enter and c are pressed, and all but the last are handled. -/
def typedKeys : List ShellOp :=
  let key := fun scancode => [ShellOp.irq scancode, .irq (scancode ||| 0x80)]
  let read := [ShellOp.hasInput, .test, .load, .finish, .handle]
  key 0x2D ++ read ++ key 0x0E ++ key 0x1E ++ read ++ read ++ key 0x30 ++ key 0x1C ++ read ++ key 0x2E ++ read

theorem executed_lines_typed : ∃ s, Reach shellMachine (fun s _ => s.input.undelivered ≤ 255) s ∧
    s.executed = [chars "ab"] ∧ s.executed <+: linesOf s.input.received ∧
    ∀ line ∈ s.executed, line.length + 1 ≤ 256 := by
  have hrun : (exec (fun s o => if s.input.undelivered ≤ 255 then ShellState.exec s o else none)
      (ShellState.start ⟨fun _ => 0, 0⟩) typedKeys).map (fun s => (s.executed, s.input.undelivered)) =
        some ([chars "ab"], 1) := by
    decide +kernel
  obtain ⟨s, hs, heq⟩ := Option.map_eq_some_iff.mp hrun
  obtain ⟨hex, hu⟩ := Prod.mk.inj heq
  have hreach : Reach shellMachine (fun s _ => s.input.undelivered ≤ 255) s :=
    Reach.exec_guarded (f := ShellState.exec) (fun _ _ _ h => h) (.start ⟨_, rfl⟩) hs
  obtain ⟨-, -, hpre, -, hfit⟩ := executed_lines hreach (hu.trans_le (by decide))
  exact ⟨s, hreach, hex, hpre, hfit⟩

end SpatulaOS.Shell
