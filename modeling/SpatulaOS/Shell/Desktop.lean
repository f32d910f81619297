import SpatulaOS.Core.Echo
import SpatulaOS.Shell.Desk
import SpatulaOS.Shell.StoreRefinement

/-!
# From the keys to the screen

The shell with its input, its screen and its session in one machine: keyboard interrupts come
between any two steps of `shell_update`, each character is echoed, and a newline executes the line
and prints what it says. From the end of `shell_init` on, the screen shows the desk of the
characters handled so far, down to the cell (`desk_on_screen`), as long as never more than 255
characters wait and every line is one of the store.
-/

namespace SpatulaOS.Shell

open ByteMemory Tokens Runs Simulation SpatulaOS.Core SpatulaOS.Drivers SpatulaOS.Fs SpatulaOS.Video

/-! ### The code -/

/-- The prompt of `shell_init` and `shell_update`. -/
def vgaPrompt (mode : ℤ) (t : Terminal) : Terminal :=
  if mode = 0 then vgaPrint (vgaPrintColor t (text "kernel") 0xC) (text "> ")
  else if mode = 1 then vgaPrint (vgaPrintColor t (text "root") 0xE) (text "> ")
  else if mode = 2 then vgaPrint (vgaPrintColor t (text "user") 0x9) (text "> ")
  else t

/-- The end of `kernel_boot`, but for the shape of the cursor. -/
def kernelBootEnd (t : Terminal) : Terminal := vgaPrintColor (vgaClear t) bootLogo BOOT_LOGO_COLOR

/-- The body of the loop of `shell_update` for the character `c`, but for the line buffer: the
screen and the session. -/
def handleKey (printed : Printed) (mode : ℤ) (localBuffer : Buffer) (answers : ℕ → Word)
    (con : Console) (t : Terminal)
    (s : Session) (c : Byte) : Except CommandFault (Terminal × Session) :=
  if c = NEWLINE then
    let input := stringIn CONSOLE_BUFFER_SIZE (consoleGetLine con)
    let t := vgaPutchar t NEWLINE
    (executeCommand printed localBuffer s input answers).map fun r =>
      (vgaPrompt mode (r.1.foldl vgaPutchar t), r.2)
  else .ok ((consoleHandleCharEcho (con, t) c).2, s)

/-- The shell with its screen and its session. -/
structure Desktop where
  /-- The input loop. -/
  shell : ShellState
  /-- The screen. -/
  screen : Terminal
  /-- The session. -/
  session : Session

/-- What happens next; what was in the buffer of `execute_command` and what `kmalloc` answers if a
line is executed. -/
structure DesktopOp where
  /-- The step. -/
  op : ShellOp
  /-- The buffer. -/
  localBuffer : Buffer
  /-- The answers. -/
  answers : ℕ → Word

/-- The line that a newline executes now. -/
def Desktop.typed (d : Desktop) (o : DesktopOp) : Typed :=
  ⟨stringIn CONSOLE_BUFFER_SIZE (consoleGetLine d.shell.console), o.localBuffer, o.answers⟩

/-- One step; a command that panics or overruns a buffer does not return. -/
def Desktop.exec (printed : Printed) (mode : ℤ) (d : Desktop) (o : DesktopOp) : Option Desktop :=
  (d.shell.exec o.op).bind fun shell =>
    match o.op, d.shell.pc with
    | .handle, .handling c =>
      (handleKey printed mode o.localBuffer o.answers d.shell.console d.screen d.session c).toOption.map
        fun r => ⟨shell, r.1, r.2⟩
    | _, _ => some { d with shell := shell }

/-- The desktop behind `shell_init`. -/
def Desktop.start (mode : ℤ) (con : Console) (t : Terminal) (fs : FsState) : Desktop :=
  ⟨.start con, vgaPrompt mode (kernelBootEnd t), ⟨fs, fs.vfsRoot⟩⟩

/-- The desktop and the keyboard's interrupts, in any order of steps. -/
def desktopMachine (printed : Printed) (mode : ℤ) (con : Console) (t : Terminal) (fs : FsState) :
    Machine Desktop DesktopOp where
  start d := d = .start mode con t fs
  step d o d' := d.exec printed mode o = some d'

/-- What is typed fits: at most 255 characters wait, and a line that is executed is one of the store. -/
structure Desktop.Allowed (d : Desktop) (o : DesktopOp) : Prop where
  waiting : d.shell.input.undelivered ≤ 255
  fits : o.op = .handle → d.shell.pc = .handling NEWLINE → LineFits d.session (d.typed o).input
  store : o.op = .handle → d.shell.pc = .handling NEWLINE → ∀ name, (d.typed o).argv.head? = some name →
    ∀ c, commandOf name = some c → c.OfStore ∧ Allocates d.session c (d.typed o).argv o.answers

/-- The desk of the characters that were handled. -/
def Desktop.desk (mode : ℤ) (d : Desktop) : Desk := d.shell.handled.foldl (Desk.key mode) (.start mode)

variable {mode : ℤ} {printed : Printed} {k : Desk} {t : Terminal} {s : Session} {d d' : Desktop}
  {o : DesktopOp}
  {con : Console} {c color : Byte} {n : ℕ} {dir tmp : Word} {typed : List Glyph} {x : ShellState}
  {localBuffer : Buffer}
  {answers : ℕ → Word} {fs : FsState}

/-! ### The prompt -/

/-- A short text and "> " behind it, at the beginning of a row. -/
theorem prints_prompt {str : List Byte} (h : t.Prints n (typed ++ [(charNewline, color)]))
    (hstr : ∀ c ∈ str, c ≠ charBackspace ∧ c ≠ charNewline) (h0 : 0 ∉ str)
    (hlen : str.length < VGA_WIDTH) (col : Byte) :
    (vgaPrint (vgaPrintColor t str col) (text "> ")).Prints n
      (typed ++ [(charNewline, color)] ++ (inColor col str ++ plain (text "> "))) := by
  have hcolumn := h.column_newline
  have hstays : StaysOn t.row t.column str := staysOn_row t.row hstr (by omega)
  have hend : charBackspace ∉ text "> " ∧ 0 ∉ text "> " := by decide
  have hcolored := (h.printColor hstays h0 col).print hend.1 hend.2
  rw [List.append_assoc] at hcolored
  exact hcolored

/-- The prompt of the mode is printed at the beginning of a row. -/
theorem prints_vgaPrompt (mode : ℤ) (h : t.Prints n (typed ++ [(charNewline, color)])) :
    (vgaPrompt mode t).Prints n (typed ++ [(charNewline, color)] ++ promptText mode) := by
  unfold vgaPrompt promptText
  split_ifs
  · exact prints_prompt h (by decide) (by decide) (by decide) 0xC
  · exact prints_prompt h (by decide) (by decide) (by decide) 0xE
  · exact prints_prompt h (by decide) (by decide) (by decide) 0x9
  · rw [List.append_nil]
    exact h

theorem prints_start (mode : ℤ) (hcolor : t.color = defaultTerminalColor) :
    (vgaPrompt mode (kernelBootEnd t)).Prints t.scrolled (Desk.start mode).shown := by
  have hstays : StaysOn 0 0 bootLogo := by decide +kernel
  have hlogo := (prints_vgaClear hcolor).printColor hstays (by decide +kernel) BOOT_LOGO_COLOR
  have hlast : inColor BOOT_LOGO_COLOR bootLogo =
      inColor BOOT_LOGO_COLOR bootLogo.dropLast ++ [(charNewline, BOOT_LOGO_COLOR)] := by decide +kernel
  rw [List.nil_append, hlast] at hlogo
  have hprompt := prints_vgaPrompt mode hlogo
  rw [← hlast] at hprompt
  show Terminal.Prints _ _ (_ ++ [])
  rw [List.append_nil]
  exact hprompt

/-! ### A key -/

/-- The desk is on the screen and in the session. -/
structure Desk.Stands (k : Desk) (n : ℕ) (t : Terminal) (s : Session) (dir tmp : Word) : Prop where
  prints : t.Prints n k.shown
  rep : k.store.Rep s dir tmp
  clean : k.store.Clean
  line : CleanLine k.line
  /-- The line begins on the screen. -/
  room : k.line.length ≤ t.cursor

/-- A character that is not a newline is seen behind the line, or takes its last one away. -/
theorem Desk.Stands.echo (h : k.Stands n t s dir tmp) (hcon : con.Holds k.line) (hn : c ≠ NEWLINE) :
    (k.key mode c).Stands n (consoleHandleCharEcho (con, t) c).2 s dir tmp := by
  have hlen := hcon.length
  have hkey : k.key mode c = { k with line := edit k.line c } := if_neg hn
  have hclean := h.line.edit hn
  rw [hkey]
  unfold consoleHandleCharEcho
  unfold edit at hclean ⊢
  dsimp only
  by_cases hb : c = BACKSPACE
  · rw [if_pos hb] at hclean ⊢
    rw [if_pos hb]
    obtain hnil | ⟨init, last, hline⟩ := List.eq_nil_or_concat k.line
    · have hzero : ¬ con.lineLength > 0 := by
        rw [hnil] at hlen
        change con.lineLength.toNat = 0 at hlen
        bv_omega
      rw [if_neg hzero]
      rw [hnil] at hclean ⊢
      have hk : k = { k with line := [] } := by rw [← hnil]
      exact hk ▸ h
    · rw [List.concat_eq_append] at hline
      have hpos : con.lineLength > 0 := by
        rw [hline, List.length_append, List.length_singleton] at hlen
        bv_omega
      have hroom := h.room
      have hprints := h.prints
      have hlast := (h.line last (hline ▸ List.mem_append_right _ List.mem_cons_self)).1
      rw [if_pos hpos]
      rw [hline, List.length_append, List.length_singleton] at hroom
      rw [Desk.shown, hline, plain, inColor, List.map_append, ← List.append_assoc] at hprints
      rw [hline, List.dropLast_concat] at hclean ⊢
      have hback := hprints.backspace hlast (by omega)
      refine ⟨hback, h.rep, h.clean, hclean, ?_⟩
      have hcursor := (h.prints.onScreen.putchar BACKSPACE).2
      rw [hcursor, advance, if_neg (by decide), if_pos rfl]
      dsimp only
      omega
  · rw [if_neg hb] at hclean ⊢
    rw [if_neg hb, if_neg hn]
    have hiff : con.lineLength < 255 ↔ k.line.length < 255 := by
      rw [← hlen]
      exact Iff.rfl
    by_cases hlt : k.line.length < 255
    · rw [if_pos hlt] at hclean ⊢
      rw [if_pos (hiff.mpr hlt)]
      have hput := h.prints.putchar hb
      rw [Desk.shown, List.append_assoc, plain, plain, inColor, inColor, ← List.map_append] at hput
      refine ⟨hput, h.rep, h.clean, hclean, ?_⟩
      have hroom := h.room
      have hcursor := (h.prints.onScreen.putchar c).2
      rw [hcursor, advance, if_neg hn, if_neg hb, List.length_append, List.length_singleton]
      split_ifs
      · omega
      · omega
    · rw [if_neg hlt] at hclean ⊢
      rw [if_neg fun hl => hlt (hiff.mp hl)]
      exact h

/-- The key Enter: the line is executed, and what the store says is printed, and the prompt behind it. -/
theorem Desk.Stands.enter (h : k.Stands n t s dir tmp) (hcon : con.Holds k.line)
    (hok : Typed.Allowed s ⟨k.line, localBuffer, answers⟩) : ∃ t' s',
    handleKey printed mode localBuffer answers con t s NEWLINE = .ok (t', s') ∧
      (k.key mode NEWLINE).Stands n t' s' dir tmp := by
  obtain ⟨s', hrun, hrep⟩ := line_simulates printed dir tmp s k.store ⟨k.line, localBuffer, answers⟩ h.rep hok
  have hwords : ∀ w ∈ Typed.argv ⟨k.line, localBuffer, answers⟩, BACKSPACE ∉ w := fun w hw => h.line.words hw
  obtain ⟨⟨hout, hends⟩, hclean⟩ := h.clean.line hwords
  obtain ⟨r, hr⟩ : ∃ r, r = k.store.line (Typed.argv ⟨k.line, localBuffer, answers⟩) := ⟨_, rfl⟩
  dsimp only at hrun hrep
  rw [← hr] at hrun hrep hout hends hclean
  have hkey : k.key mode NEWLINE =
      ⟨r.2, k.printed ++ plain (k.line ++ [NEWLINE] ++ r.1) ++ promptText mode, []⟩ := by
    rw [hr]
    exact if_pos rfl
  refine ⟨vgaPrompt mode (r.1.foldl vgaPutchar (vgaPutchar t NEWLINE)), s', ?_, ?_⟩
  · unfold handleKey
    rw [if_pos rfl, hcon.getLine]
    dsimp only
    rw [Typed.run] at hrun
    rw [hrun]
    rfl
  · rw [hkey]
    have hnew := (h.prints.putchar (c := NEWLINE) (by decide)).putchars hout
    have hshown :
        k.shown ++ plain [NEWLINE] ++ plain r.1 = k.printed ++
        plain (k.line ++ [NEWLINE] ++ r.1) := by
      rw [Desk.shown, plain, plain, plain, plain, inColor, inColor, inColor, inColor,
        List.map_append, List.map_append,
        List.append_assoc, List.append_assoc, List.append_assoc]
    rw [hshown] at hnew
    -- what is printed ends with a newline, so the prompt begins a row
    obtain ⟨before, hbefore⟩ : ∃ before, k.line ++ [NEWLINE] ++ r.1 = before ++ [NEWLINE] := by
      obtain hnil | hlast := hends
      · exact ⟨k.line, by rw [hnil, List.append_nil]⟩
      · obtain ⟨init, hinit⟩ := List.getLast?_eq_some_iff.mp hlast
        exact ⟨k.line ++ [NEWLINE] ++ init, by rw [hinit, List.append_assoc _ init]⟩
    have hsplit : k.printed ++ plain (k.line ++ [NEWLINE] ++ r.1) =
        k.printed ++ plain before ++ [(charNewline, defaultTerminalColor)] := by
      rw [hbefore, plain, plain, inColor, inColor, List.map_append, List.append_assoc]
      rfl
    rw [hsplit] at hnew ⊢
    have hprompt := prints_vgaPrompt mode hnew
    refine ⟨?_, hrep, hclean, fun _ hc => absurd hc List.not_mem_nil, Nat.zero_le _⟩
    rw [Desk.shown]
    show Terminal.Prints _ _ (_ ++ [])
    rw [List.append_nil]
    exact hprompt

/-! ### The characters handled -/

/-- Only the handling of a character adds to those handled. -/
theorem handled_step {x x' : ShellState} {o : ShellOp} (hi : x.Inv)
    (hu : x.input.undelivered ≤ 255) (ho : o ≠ .handle)
    (hs : x.exec o = some x') : x'.handled = x.handled := by
  cases o with
  | irq scancode =>
    rw [ShellState.exec] at hs
    obtain ⟨input, hin, rfl⟩ := Option.map_eq_some_iff.mp hs
    obtain rfl := Option.some.inj hin
    rfl
  | hasInput =>
    rw [ShellState.exec] at hs
    split at hs
    next hpc =>
      obtain rfl := Option.some.inj hs
      rw [handled_of_loop hpc]
      refine handled_of_ne fun c hc => ?_
      dsimp only at hc
      split_ifs at hc
    next => cases hs
  | test =>
    rw [ShellState.exec] at hs
    split at hs
    next hpc =>
      obtain ⟨input, hin, rfl⟩ := Option.map_eq_some_iff.mp hs
      obtain ⟨-, rfl⟩ := exec_test hin
      have hin' := hasInput_of_lt hi.input hu (hi.reading hpc)
      rw [if_pos hin', if_pos hin', handled_of_reading hpc]
      rfl
    next => cases hs
  | load =>
    rw [ShellState.exec] at hs
    split at hs
    next hpc =>
      obtain ⟨input, hin, rfl⟩ := Option.map_eq_some_iff.mp hs
      obtain ⟨-, rfl⟩ := exec_load hin
      rw [handled_of_reading hpc]
      exact handled_of_reading hpc
    next => cases hs
  | finish =>
    rw [ShellState.exec] at hs
    split at hs
    next c hpc hr =>
      obtain ⟨input, hin, rfl⟩ := Option.map_eq_some_iff.mp hs
      obtain ⟨c', hr', rfl⟩ := exec_finish hin
      rw [handled_of_reading hpc, handled_of_pc rfl]
      exact List.dropLast_concat
    next => cases hs
  | handle => exact absurd rfl ho

theorem handled_handle {x' : ShellState} (hi : x.Inv) (hpc : x.pc = .handling c)
    (hs : x.exec .handle = some x') :
    x'.handled = x.handled ++ [c] := by
  rw [ShellState.exec, hpc] at hs
  obtain rfl := Option.some.inj hs
  exact (handled_of_loop rfl).trans (hi.handling c hpc).2

theorem exec_handle {x' : ShellState} (hs : x.exec .handle = some x') : ∃ c, x.pc = .handling c := by
  rw [ShellState.exec] at hs
  split at hs
  next c hpc => exact ⟨c, hpc⟩
  next => cases hs

theorem handled_prefix (hi : x.Inv) : x.handled <+: x.input.received := by
  have hdelivered : x.input.delivered <+: x.input.received := by
    rw [hi.input.delivered]
    exact List.take_prefix _ _
  unfold ShellState.handled
  split
  · exact (List.dropLast_prefix _).trans hdelivered
  · exact hdelivered

theorem handled_all (hi : x.Inv) (hu : x.input.undelivered ≤ 255) (hpc : x.pc = .loop)
    (hin : keyboardHasInput x.input.keyboard = false) : x.handled = x.input.received := by
  have hall : x.input.received.length ≤ x.input.delivered.length := by
    by_contra hlt
    rw [hasInput_of_lt hi.input hu (Nat.lt_of_not_le hlt)] at hin
    cases hin
  rw [handled_of_loop hpc, hi.input.delivered, List.take_of_length_le hall]

/-! ### Runs -/

/-- The line on the desk is the open line of the characters handled. -/
theorem desk_line (mode : ℤ) (stream : List Byte) :
    (stream.foldl (Desk.key mode) (.start mode)).line = openLine stream := by
  induction stream using List.reverseRecOn with
  | nil => rfl
  | append_singleton stream c ih =>
    rw [List.foldl_append, List.foldl_cons, List.foldl_nil, Desk.key]
    split_ifs with hn
    · rw [hn, (linesOf_concat_newline stream).2]
    · rw [(linesOf_concat stream hn).2, ← ih]

/-- The desk of the characters handled is on the screen and in the session. -/
structure Desktop.Inv (mode : ℤ) (n : ℕ) (dir tmp : Word) (d : Desktop) : Prop where
  shell : d.shell.Inv
  stands : (d.desk mode).Stands n d.screen d.session dir tmp

theorem Desktop.Inv.holds (h : d.Inv mode n dir tmp) : d.shell.console.Holds (d.desk mode).line := by
  rw [Desktop.desk, desk_line]
  exact h.shell.console

/-- The line that is executed is the one on the desk. -/
theorem Desktop.Inv.typed_eq (h : d.Inv mode n dir tmp) (o : DesktopOp) :
    d.typed o = ⟨(d.desk mode).line, o.localBuffer, o.answers⟩ := by
  rw [Desktop.typed, h.holds.getLine]

/-- The handling of a character comes to the desk behind its key. -/
theorem Desktop.Inv.handleKey (printed : Printed) (h : d.Inv mode n dir tmp) (hok : d.Allowed o)
    (ho : o.op = .handle)
    (hpc : d.shell.pc = .handling c) : ∃ t s,
    handleKey printed mode o.localBuffer o.answers d.shell.console d.screen d.session c = .ok (t, s) ∧
      ((d.desk mode).key mode c).Stands n t s dir tmp := by
  have hcon := h.holds
  by_cases hn : c = NEWLINE
  · subst hn
    have hfits := hok.fits ho hpc
    have hstore := hok.store ho hpc
    rw [h.typed_eq] at hfits hstore
    exact h.stands.enter hcon ⟨fun h0 => hcon.ne_zero 0 h0 rfl, hcon.le, hfits, hstore⟩
  · exact ⟨_, _, if_neg hn, h.stands.echo hcon hn⟩

/-- Every step keeps the desk on the screen. -/
theorem Desktop.Inv.step (h : d.Inv mode n dir tmp) (hok : d.Allowed o)
    (hs : d.exec printed mode o = some d') :
    d'.Inv mode n dir tmp := by
  obtain ⟨x, hx, hs⟩ := Option.bind_eq_some_iff.mp hs
  have hinv := h.shell.step hok.waiting hx
  by_cases ho : o.op = .handle
  · rw [ho] at hx hs
    obtain ⟨c, hpc⟩ := exec_handle hx
    rw [hpc] at hs
    obtain ⟨t, s, hkey, hstands⟩ := h.handleKey printed hok ho hpc
    dsimp only at hs
    rw [hkey] at hs
    obtain rfl := Option.some.inj hs
    refine ⟨hinv, ?_⟩
    rw [Desktop.desk, handled_handle h.shell hpc hx, List.foldl_append]
    exact hstands
  · have hd : d' = { d with shell := x } := by
      split at hs
      next hop hpc => exact absurd hop ho
      next => exact (Option.some.inj hs).symm
    have hhandled := handled_step h.shell hok.waiting ho hx
    subst hd
    refine ⟨hinv, ?_⟩
    rw [Desktop.desk, hhandled]
    exact h.stands

theorem exec_desktop_handle {s' : Session} {x' : ShellState} (ho : o.op = .handle)
    (hpc : d.shell.pc = .handling c)
    (hx : d.shell.exec .handle = some x')
    (hkey : handleKey printed mode o.localBuffer o.answers d.shell.console d.screen d.session c =
      .ok (t, s')) :
    d.exec printed mode o = some ⟨x', t, s'⟩ := by
  rw [Desktop.exec, ho, hx, hpc, Option.bind_some]
  dsimp only
  rw [hkey]
  rfl

theorem exec_desktop_of_ne {x' : ShellState} (ho : o.op ≠ .handle) (hx : d.shell.exec o.op = some x') :
    d.exec printed mode o = some { d with shell := x' } := by
  rw [Desktop.exec, hx, Option.bind_some]
  split
  next hop _ => exact absurd hop ho
  next => rfl

theorem Desktop.Inv.start (mode : ℤ) (con : Console) (t : Terminal) (hcolor : t.color = defaultTerminalColor)
    (hrep : Store.boot.Rep ⟨fs, fs.vfsRoot⟩ dir tmp) :
      (Desktop.start mode con t fs).Inv mode t.scrolled dir tmp :=
  ⟨.init con, prints_start mode hcolor, hrep, Store.clean_boot,
    fun _ hc => absurd hc List.not_mem_nil, Nat.zero_le _⟩

/-- **From the keys to the screen**: after boot, in every run in which what is typed fits, the
session is in the state of the store of the desk, the screen shows the text of the desk, and the
console holds the line on it, where the desk is the one of the characters handled so far. These are
the first of the characters received, and all of them when the shell is idle and no input waits. A
character at hand can always be handled. -/
theorem desk_on_screen (hboot : BootedFresh fs) (hcolor : t.color = defaultTerminalColor)
    (hd : Reach (desktopMachine printed mode con t fs) Desktop.Allowed d) :
    (∃ dir tmp, (d.desk mode).store.Rep d.session dir tmp) ∧ d.screen.Prints t.scrolled (d.desk mode).shown ∧
      d.shell.console.Holds (d.desk mode).line ∧
      d.shell.handled <+: d.shell.input.received ∧
      (d.shell.input.undelivered ≤ 255 → d.shell.pc = .loop →
        keyboardHasInput d.shell.input.keyboard = false →
        d.shell.handled = d.shell.input.received) ∧
      ∀ o c, d.Allowed o → o.op = .handle → d.shell.pc = .handling c →
        ∃ d', d.exec printed mode o = some d' := by
  obtain ⟨dir, tmp, hrep⟩ := hboot.rep
  have hi : d.Inv mode t.scrolled dir tmp := by
    refine hd.invariant (I := Desktop.Inv mode t.scrolled dir tmp) ?_ fun d o d' h hok hs => h.step hok hs
    rintro d rfl
    exact .start mode con t hcolor hrep
  refine ⟨⟨dir, tmp, hi.stands.rep⟩, hi.stands.prints, hi.holds, handled_prefix hi.shell,
    handled_all hi.shell,
    fun o c hok ho hpc => ?_⟩
  obtain ⟨t, s, hkey, -⟩ := hi.handleKey printed hok ho hpc
  obtain ⟨x, hx⟩ : ∃ x, d.shell.exec .handle = some x := ⟨_, by rw [ShellState.exec, hpc]⟩
  exact ⟨_, exec_desktop_handle ho hpc hx hkey⟩

/-! ### Keys that are typed -/

/-- A line of short words whose command does not allocate. -/
def Harmless (line : List Byte) : Prop :=
  (∀ w ∈ tokens SPACE line, w.length < NAME_SIZE) ∧
    ((tokens SPACE line).take MAX_ARGS).head?.bind commandOf ∈ [none, some .echo, some .rd,
      some .ls, some .cd]

instance instDecidableHarmless (line : List Byte) :
    Decidable (Harmless line) := by unfold Harmless; infer_instance

/-- What is typed fits if the line is always harmless. -/
def ShellState.Fits (x : ShellState) : Prop :=
  x.input.undelivered ≤ 255 ∧ Harmless (stringIn CONSOLE_BUFFER_SIZE (consoleGetLine x.console))

instance instDecidableFits (x : ShellState) : Decidable x.Fits := by unfold ShellState.Fits; infer_instance

theorem Harmless.store {line name : List Byte} {command : Command} (h : Harmless line)
    (hname : ((tokens SPACE line).take MAX_ARGS).head? = some name)
    (hc : commandOf name = some command) (s : Session)
    (answers : ℕ → Word) :
    command.OfStore ∧ Allocates s command ((tokens SPACE line).take MAX_ARGS) answers := by
  obtain ⟨-, h⟩ := h
  rw [hname, Option.bind_some, hc] at h
  cases command with
  | echo => exact ⟨by decide, trivial⟩
  | rd => exact ⟨by decide, trivial⟩
  | ls => exact ⟨by decide, trivial⟩
  | cd => exact ⟨by decide, trivial⟩
  | _ => exact absurd h (by decide)

theorem allowed_of_fits (h : d.shell.Fits) (op : ShellOp) (localBuffer : Buffer) (answers : ℕ → Word) :
    d.Allowed ⟨op, localBuffer, answers⟩ := by
  obtain ⟨hu, hharmless⟩ := h
  refine ⟨hu, fun _ _ => ?_, fun _ _ name hname command hc => hharmless.store hname hc d.session answers⟩
  exact lineFits_of_short hharmless.1 fun name hname command hc =>
    (hharmless.store hname hc d.session answers).1

/-- The desktop follows the shell as long as the line is harmless: a run of the input loop is a run
of the desktop. -/
theorem Desktop.Inv.follow {os : List ShellOp} (h : d.Inv mode n dir tmp) (printed : Printed)
    (hd : Reach (desktopMachine printed mode con t fs) Desktop.Allowed d)
    (he : Runs.exec (fun x o => if ShellState.Fits x then ShellState.exec x o else none) d.shell
      os = some x) :
    ∃ d', Reach (desktopMachine printed mode con t fs) Desktop.Allowed d' ∧ d'.shell = x := by
  induction os generalizing d with
  | nil => exact ⟨d, hd, Option.some.inj he⟩
  | cons op os ih =>
    obtain ⟨x', hx, he⟩ := Option.bind_eq_some_iff.mp he
    dsimp only at hx
    split_ifs at hx with hfits
    have hok := allowed_of_fits hfits op (fun _ => 0) (fun _ => 0)
    obtain ⟨d', hd', rfl⟩ : ∃ d', d.exec printed mode ⟨op, fun _ => 0, fun _ => 0⟩ = some d' ∧
        d'.shell = x' := by
      by_cases ho : op = .handle
      · subst ho
        obtain ⟨c, hpc⟩ := exec_handle hx
        obtain ⟨t, s, hkey, -⟩ := h.handleKey printed hok rfl hpc
        exact ⟨_, exec_desktop_handle rfl hpc hx hkey, rfl⟩
      · exact ⟨_, exec_desktop_of_ne ho hx, rfl⟩
    exact ih (h.step hok hd') (hd.step hok hd') he

/-- The keys l, s and Enter are pressed and handled, and then the key c. -/
def typedLs : List ShellOp :=
  let read := [ShellOp.hasInput, .test, .load, .finish, .handle]
  [.irq 0x26, .irq 0xA6, .irq 0x1F] ++ read ++ read ++ [.irq 0x1C] ++ read ++ [.irq 0x2E] ++ read

/-- The command lists the root on the screen. -/
theorem desk_on_screen_ls :
    ∃ d, Reach (desktopMachine (fun _ _ => []) 0 ⟨fun _ => 0, 0⟩ (.start fun _ => 0) sampleBoot)
    Desktop.Allowed d ∧
      d.screen.Prints 0
      (inColor BOOT_LOGO_COLOR bootLogo ++ promptText 0 ++ plain (text "ls\ntmp\n") ++
      promptText 0 ++ plain (text "c")) := by
  have hboot := bootedFresh_sampleBoot
  obtain ⟨dir, tmp, hrep⟩ := hboot.rep
  have hrun : (Runs.exec (fun x o => if ShellState.Fits x then ShellState.exec x o else none)
      (ShellState.start ⟨fun _ => 0, 0⟩) typedLs).map ShellState.handled = some (text "ls\nc") := by
    decide +kernel
  obtain ⟨x, hx, hhandled⟩ := Option.map_eq_some_iff.mp hrun
  have hinv := Desktop.Inv.start 0 ⟨fun _ => 0, 0⟩ (.start fun _ => 0) rfl hrep
  obtain ⟨d, hd, rfl⟩ := hinv.follow (fun _ _ => []) (.start rfl) hx
  refine ⟨d, hd, ?_⟩
  have hscreen := (desk_on_screen hboot rfl hd).2.1
  have hdesk :
      (d.desk 0).shown = inColor BOOT_LOGO_COLOR bootLogo ++ promptText 0 ++
      plain (text "ls\ntmp\n") ++
      promptText 0 ++ plain (text "c") := by
    rw [Desktop.desk, hhandled]
    decide +kernel
  rw [hdesk] at hscreen
  exact hscreen

end SpatulaOS.Shell
