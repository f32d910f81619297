import SpatulaOS.Mm.HeapSafety
import SpatulaOS.Shell.Startup
import SpatulaOS.Shell.StoreOnHeap

/-!
# From boot to the screen

The heap is set up, the file system is booted on it, and from then on keyboard interrupts come
between any two steps of the shell, whose lines allocate on that heap. No answer of `kmalloc` is
assumed: what the allocator hands out is what its code finds. In every run in which what is typed
fits, and the heap has room for it, the screen shows the desk of the characters handled so far, and
each character at hand can be handled (`computer_on_screen`).
-/

namespace SpatulaOS.Shell

open ByteMemory Tokens Runs SpatulaOS.Core SpatulaOS.Drivers SpatulaOS.Fs SpatulaOS.Mm SpatulaOS.Video

/-! ### The code -/

/-- The desktop and the heap. -/
structure Computer where
  /-- The shell, its screen and its session. -/
  desktop : Desktop
  /-- The heap. -/
  heap : Heap

/-- The calls on the file system in a step: those of the line, if one is executed. -/
def Desktop.calls (d : Desktop) (o : DesktopOp) : List Call :=
  match o.op, d.shell.pc with
  | .handle, .handling c => if c = NEWLINE then lineCalls d.session (d.typed o).argv o.answers else []
  | _, _ => []

/-- One step, with a bound on the iterations of the allocator's loops. The answers of `kmalloc` are
those of the heap. The commands of the allocator itself are left out. -/
def Computer.exec (printed : Printed) (mode : ℤ) (k : ℕ) (x : Computer) (o : DesktopOp) : Option Computer :=
  (x.desktop.exec printed mode o).bind fun d =>
    (Runs.exec (Storage.call k) ⟨x.heap, x.desktop.session.fs⟩ (x.desktop.calls o)).map fun t => ⟨d, t.heap⟩

/-- The computer from `shell_init` on, whatever was in its memory when it was switched on. -/
def computerMachine (printed : Printed) (mode : ℤ) (con : Console) (t : Terminal) :
    Machine Computer DesktopOp where
  start x := ∃ k m fs root dir tmp u, fsMachine.start fs ∧
    Runs.exec (Storage.call k) ⟨Mm.boot m, fs⟩ (kernelCalls root dir tmp) = some u ∧
      x = ⟨.start mode con t u.fs, u.heap⟩
  step x o x' := ∃ k, x.exec printed mode k o = some x'

/-- A newline is handled. -/
def Desktop.Enters (d : Desktop) (o : DesktopOp) : Prop := o.op = .handle ∧ d.shell.pc = .handling NEWLINE

/-- What is typed fits: at most 255 characters wait, a line that is executed is one of the store,
and the heap has room for what it costs. -/
structure Computer.Allowed (x : Computer) (o : DesktopOp) : Prop where
  waiting : x.desktop.shell.input.undelivered ≤ 255
  fits : x.desktop.Enters o → LineFits x.desktop.session (x.desktop.typed o).input
  store : x.desktop.Enters o → ∀ name, (x.desktop.typed o).argv.head? = some name →
    ∀ c, commandOf name = some c → c.OfStore
  room : x.desktop.Enters o → x.heap.heapEnd.toNat + lineCost (x.desktop.typed o).argv < heapHi

variable {mode : ℤ} {printed : Printed} {d d' : Desktop} {x x' : Computer} {o : DesktopOp}
  {con : Console} {t : Terminal}
  {u : Storage} {dir tmp : Word} {A : Arena} {c : Byte} {n k : ℕ}

/-! ### A step -/

theorem calls_enters (h : d.Enters o) : d.calls o = lineCalls d.session (d.typed o).argv o.answers := by
  unfold Desktop.calls
  rw [h.1, h.2]
  exact if_pos rfl

theorem calls_of_not_enters (h : ¬ d.Enters o) : d.calls o = [] := by
  unfold Desktop.calls
  split
  next c hop hpc =>
    refine if_neg ?_
    rintro rfl
    exact h ⟨hop, hpc⟩
  next => rfl

theorem session_of_not_enters (h : ¬ d.Enters o) (hd : d.exec printed mode o = some d') :
    d'.session = d.session := by
  obtain ⟨x, hx, hd⟩ := Option.bind_eq_some_iff.mp hd
  split at hd
  next c hop hpc =>
    have hn : c ≠ NEWLINE := by
      rintro rfl
      exact h ⟨hop, hpc⟩
    rw [handleKey, if_neg hn] at hd
    obtain rfl := Option.some.inj hd
    rfl
  next =>
    obtain rfl := Option.some.inj hd
    rfl

/-- The calls of a line that is executed leave the files of the session behind it. -/
theorem session_of_enters (h : d.Enters o) (h0 : 0 ∉ (d.typed o).input)
    (hlen : (d.typed o).input.length ≤ 255)
    (hstore : ∀ name, (d.typed o).argv.head? = some name → ∀ c, commandOf name = some c → c.OfStore)
    (hd : d.exec printed mode o = some d') :
    Runs.exec after d.session.fs (lineCalls d.session (d.typed o).argv o.answers) = some d'.session.fs := by
  obtain ⟨x, -, hd⟩ := Option.bind_eq_some_iff.mp hd
  rw [h.1, h.2] at hd
  dsimp only at hd
  rw [handleKey, if_pos rfl] at hd
  have hrun : executeCommand printed o.localBuffer d.session (d.typed o).input o.answers =
    dispatch printed d.session (d.typed o).argv o.answers := executeCommand_eq _ h0 hlen
  change ((Except.map _
    (executeCommand printed o.localBuffer d.session (d.typed o).input o.answers)).toOption.map _) =
    _ at hd
  rw [hrun] at hd
  cases hr : dispatch printed d.session (d.typed o).argv o.answers with
  | error e =>
    rw [hr] at hd
    cases hd
  | ok r =>
    rw [hr] at hd
    obtain rfl := Option.some.inj hd
    exact dispatch_fs hstore hr

/-! ### Runs -/

/-- The desk is on the screen and in the session, whose file system is on the heap. -/
structure Computer.Inv (mode : ℤ) (n : ℕ) (dir tmp : Word) (x : Computer) (A : Arena) : Prop where
  desktop : x.desktop.Inv mode n dir tmp
  onHeap : OnHeap ⟨x.heap, x.desktop.session.fs⟩ A

theorem Computer.Inv.typed (h : x.Inv mode n dir tmp A) (o : DesktopOp) :
    0 ∉ (x.desktop.typed o).input ∧ (x.desktop.typed o).input.length ≤ 255 := by
  have hcon := h.desktop.holds
  rw [h.desktop.typed_eq]
  exact ⟨fun h0 => hcon.ne_zero 0 h0 rfl, hcon.le⟩

theorem Computer.Inv.room (h : x.Inv mode n dir tmp A) (hok : x.Allowed o) (ho : x.desktop.Enters o) :
    A.brk + lineCost (x.desktop.typed o).argv < heapHi := by
  have hroom := hok.room ho
  rw [h.onHeap.heapEnd] at hroom
  exact hroom

/-- A step without a line that is executed fits the desktop. -/
theorem Computer.Allowed.of_not_enters (hok : x.Allowed o) (ho : ¬ x.desktop.Enters o) :
    x.desktop.Allowed o :=
  ⟨hok.waiting, fun hop hpc => absurd ⟨hop, hpc⟩ ho, fun hop hpc => absurd ⟨hop, hpc⟩ ho⟩

/-- The answers of the heap to a line are new blocks, so the line fits the desktop. -/
theorem Computer.Inv.line (h : x.Inv mode n dir tmp A) (hok : x.Allowed o) (ho : x.desktop.Enters o)
    (he : Runs.exec (Storage.call k) ⟨x.heap, x.desktop.session.fs⟩ (x.desktop.calls o) = some u) :
    x.desktop.Allowed o ∧ ∃ A', OnHeap u A' ∧ A'.brk ≤ A.brk + lineCost (x.desktop.typed o).argv := by
  obtain ⟨h0, hlen⟩ := h.typed o
  rw [calls_enters ho] at he
  obtain ⟨hstore, hon⟩ :=
    h.desktop.stands.rep.line_heap (Typed.words h0 hlen) (hok.fits ho) (hok.store ho) h.onHeap
    (h.room hok ho) he
  exact ⟨⟨hok.waiting, fun _ _ => hok.fits ho, fun _ _ => hstore⟩, hon⟩

/-- Every step keeps the desk on the screen, and the file system on the heap, of which it takes what
the line costs at most. -/
theorem Computer.Inv.step (h : x.Inv mode n dir tmp A) (hok : x.Allowed o)
    (hs : x.exec printed mode k o = some x') :
    ∃ A', x'.Inv mode n dir tmp A' ∧ A'.brk ≤ A.brk + lineCost (x.desktop.typed o).argv := by
  obtain ⟨d, hd, hs⟩ := Option.bind_eq_some_iff.mp hs
  obtain ⟨u, hu, rfl⟩ := Option.map_eq_some_iff.mp hs
  by_cases ho : x.desktop.Enters o
  · obtain ⟨hallowed, A', hon, hbrk⟩ := h.line hok ho hu
    obtain ⟨h0, hlen⟩ := h.typed o
    rw [calls_enters ho] at hu
    have hfs := session_of_enters ho h0 hlen (hok.store ho) hd
    have hu' := Option.some.inj ((Storage.exec_after hu).symm.trans hfs)
    refine ⟨A', ⟨h.desktop.step hallowed hd, ?_⟩, hbrk⟩
    rw [← hu']
    exact hon
  · rw [calls_of_not_enters ho] at hu
    obtain rfl := Option.some.inj hu
    refine ⟨A, ⟨h.desktop.step (hok.of_not_enters ho) hd, ?_⟩, Nat.le_add_right _ _⟩
    rw [session_of_not_enters ho hd]
    exact h.onHeap

/-- A character at hand can be handled, with the answers that the heap has for it. -/
theorem Computer.Inv.exists_handle (printed : Printed) (h : x.Inv mode n dir tmp A)
    (hok : x.Allowed o) (ho : o.op = .handle)
    (hpc : x.desktop.shell.pc = .handling c) : ∃ answers x' m, ∀ k, m < k →
    x.exec printed mode k ⟨o.op, o.localBuffer, answers⟩ = some x' := by
  obtain ⟨y, hy⟩ : ∃ y, x.desktop.shell.exec .handle = some y := ⟨_, by rw [ShellState.exec, hpc]⟩
  have hdesktop {o : DesktopOp} (hallowed : x.desktop.Allowed o) (ho : o.op = .handle) :
      ∃ d, x.desktop.exec printed mode o = some d := by
    obtain ⟨t, s, hkey, -⟩ := h.desktop.handleKey printed hallowed ho hpc
    exact ⟨_, exec_desktop_handle ho hpc hy hkey⟩
  by_cases henters : x.desktop.Enters o
  · obtain ⟨h0, hlen⟩ := h.typed o
    obtain ⟨answers, u, hu⟩ :=
      h.desktop.stands.rep.exists_line (Typed.words h0 hlen) (hok.fits henters) (hok.store henters)
      h.onHeap (h.room hok henters)
    have henters' : x.desktop.Enters ⟨o.op, o.localBuffer, answers⟩ := henters
    have hok' : x.Allowed ⟨o.op, o.localBuffer, answers⟩ := ⟨hok.waiting, hok.fits, hok.store, hok.room⟩
    have hcalls : ∀ k, A.blocks.length + 2 * (x.desktop.typed o).argv.length < k → Runs.exec (Storage.call k)
        ⟨x.heap, x.desktop.session.fs⟩ (x.desktop.calls ⟨o.op, o.localBuffer, answers⟩) = some u := by
      rw [calls_enters henters']
      exact hu
    obtain ⟨hallowed, -⟩ := h.line hok' henters' (hcalls _ (Nat.lt_succ_self _))
    obtain ⟨d, hd⟩ := hdesktop hallowed ho
    refine ⟨answers, ⟨d, u.heap⟩, A.blocks.length + 2 * (x.desktop.typed o).argv.length, fun k hk => ?_⟩
    rw [Computer.exec, hd, Option.bind_some, hcalls k hk]
    rfl
  · obtain ⟨d, hd⟩ := hdesktop (hok.of_not_enters henters) ho
    refine ⟨o.answers, ⟨d, x.heap⟩, 0, fun k _ => ?_⟩
    rw [Computer.exec, hd, Option.bind_some, calls_of_not_enters henters]
    rfl

/-- **From boot to the screen**: whatever is in the memory when the computer is switched on, in
every run in which what is typed fits and the heap has room for it, the screen shows the text of the
desk, the session is in the state of its store, the console holds the line on it, where the desk is
the one of the characters handled so far. These are the first of the characters received, and all of
them when the shell is idle and no input waits. Every node and every buffer of the files is an
allocation below the end of the heap, apart from the others and from the headers. A character at
hand can always be handled: the heap has the answers that its line needs. -/
theorem computer_on_screen (hcolor : t.color = defaultTerminalColor)
    (hx : Reach (computerMachine printed mode con t) Computer.Allowed x) :
    x.desktop.screen.Prints t.scrolled (x.desktop.desk mode).shown ∧
      (∃ dir tmp, (x.desktop.desk mode).store.Rep x.desktop.session dir tmp) ∧
      x.desktop.shell.console.Holds (x.desktop.desk mode).line ∧
      Below x.desktop.session.fs x.heap.heapEnd.toNat ∧
      (∃ live, Owned x.desktop.session.fs live ∧ (⟨x.heap, live⟩ : Clients).Separate) ∧
      x.desktop.shell.handled <+: x.desktop.shell.input.received ∧
      (x.desktop.shell.input.undelivered ≤ 255 → x.desktop.shell.pc = .loop →
        keyboardHasInput x.desktop.shell.input.keyboard = false →
          x.desktop.shell.handled = x.desktop.shell.input.received) ∧
      ∀ o c, x.Allowed o → o.op = .handle → x.desktop.shell.pc = .handling c → ∃ answers x' m, ∀ k, m < k →
        x.exec printed mode k ⟨o.op, o.localBuffer, answers⟩ = some x' := by
  obtain ⟨dir, tmp, A, hi⟩ : ∃ dir tmp A, x.Inv mode t.scrolled dir tmp A := by
    refine hx.invariant (I := fun x => ∃ dir tmp A, x.Inv mode t.scrolled dir tmp A) ?_ ?_
    · rintro x ⟨k, m, fs, root, dir, tmp, u, hfs, hu, rfl⟩
      obtain ⟨hboot, A, hon, -⟩ := boot_onHeap hfs hu
      obtain ⟨dir, tmp, hrep⟩ := hboot.rep
      exact ⟨dir, tmp, A, .start mode con t hcolor hrep, hon⟩
    · rintro x o x' ⟨dir, tmp, A, h⟩ hok ⟨k, hs⟩
      obtain ⟨A', h', -⟩ := h.step hok hs
      exact ⟨dir, tmp, A', h'⟩
  obtain ⟨live, hlive, howned⟩ := hi.onHeap.owned
  have hbelow := hi.onHeap.below
  rw [← hi.onHeap.heapEnd] at hbelow
  exact ⟨hi.desktop.stands.prints, ⟨dir, tmp, hi.desktop.stands.rep⟩, hi.desktop.holds, hbelow,
    ⟨live, howned, hlive.separate⟩, handled_prefix hi.desktop.shell, handled_all hi.desktop.shell,
    fun o c hok ho hpc => hi.exists_handle printed hok ho hpc⟩

/-! ### Keys that are typed -/

/-- A line of short words whose command is one of the store, and does not cost much. -/
def Modest (line : List Byte) : Prop :=
  (∀ w ∈ tokens SPACE line, w.length < NAME_SIZE) ∧
    (∀ c ∈ (((tokens SPACE line).take MAX_ARGS).head?.bind commandOf).toList, c.OfStore) ∧
    lineCost ((tokens SPACE line).take MAX_ARGS) ≤ 1024

instance instDecidableModest (line : List Byte) : Decidable (Modest line) :=
  @instDecidableAnd _ _ inferInstance (@instDecidableAnd _ _ inferInstance (Nat.decLe _ _))

/-- What is typed fits if the line is always modest. -/
def ShellState.Suits (y : ShellState) : Prop :=
  y.input.undelivered ≤ 255 ∧ Modest (stringIn CONSOLE_BUFFER_SIZE (consoleGetLine y.console))

instance instDecidableSuits (y : ShellState) : Decidable y.Suits := by unfold ShellState.Suits; infer_instance

theorem Modest.store {line name : List Byte} {command : Command} (h : Modest line)
    (hname : ((tokens SPACE line).take MAX_ARGS).head? = some name)
    (hc : commandOf name = some command) : command.OfStore := by
  obtain ⟨-, h, -⟩ := h
  rw [hname, Option.bind_some, hc] at h
  exact h command (List.mem_singleton_self command)

theorem Computer.Inv.allowed (h : x.Inv mode n dir tmp A) (hsuits : x.desktop.shell.Suits)
    (hroom : A.brk + 1024 < heapHi)
    (o : DesktopOp) : x.Allowed o := by
  obtain ⟨hu, hmodest⟩ := hsuits
  refine ⟨hu, fun _ => lineFits_of_short hmodest.1 fun name hname c hc => hmodest.store hname hc,
    fun _ name hname c hc => hmodest.store hname hc, fun _ => ?_⟩
  have hcost : lineCost (x.desktop.typed o).argv ≤ 1024 := hmodest.2.2
  rw [h.onHeap.heapEnd]
  exact (Nat.add_le_add_left hcost _).trans_lt hroom

/-- The computer follows the shell as long as the line is modest and the heap has room: a run of the
input loop is a run of the computer. -/
theorem Computer.Inv.follow {os : List ShellOp} {y : ShellState} (h : x.Inv mode n dir tmp A)
    (printed : Printed)
    (hroom : A.brk + 1024 * os.length < heapHi)
    (hx : Reach (computerMachine printed mode con t) Computer.Allowed x)
    (he : Runs.exec (fun y o => if ShellState.Suits y then ShellState.exec y o else none)
      x.desktop.shell os = some y) :
    ∃ x', Reach (computerMachine printed mode con t) Computer.Allowed x' ∧ x'.desktop.shell = y := by
  induction os generalizing x A with
  | nil => exact ⟨x, hx, Option.some.inj he⟩
  | cons op os ih =>
    obtain ⟨y', hy, he⟩ := Option.bind_eq_some_iff.mp he
    dsimp only at hy
    split_ifs at hy with hsuits
    rw [List.length_cons] at hroom
    have hone : A.brk + 1024 < heapHi := Nat.lt_of_le_of_lt (by omega) hroom
    have hok (o : DesktopOp) : x.Allowed o := h.allowed hsuits hone o
    obtain ⟨o, k, x', ho, hx'⟩ : ∃ o k x', o.op = op ∧ x.exec printed mode k o = some x' := by
      by_cases hop : op = .handle
      · subst hop
        obtain ⟨c, hpc⟩ := exec_handle hy
        obtain ⟨answers, x', m, hexec⟩ :=
          h.exists_handle printed (hok ⟨.handle, fun _ => 0, fun _ => 0⟩) rfl hpc
        exact ⟨_, _, x', rfl, hexec _ (Nat.lt_succ_self m)⟩
      · have hnot : ¬ x.desktop.Enters ⟨op, fun _ => 0, fun _ => 0⟩ := fun henters => hop henters.1
        refine ⟨⟨op, fun _ => 0, fun _ => 0⟩, 0, ⟨{ x.desktop with shell := y' }, x.heap⟩, rfl, ?_⟩
        rw [Computer.exec, exec_desktop_of_ne hop hy, Option.bind_some, calls_of_not_enters hnot]
        rfl
    obtain ⟨A', h', hbrk⟩ := h.step (hok o) hx'
    have hcost : lineCost (x.desktop.typed o).argv ≤ 1024 := hsuits.2.2.2
    have hshell : x'.desktop.shell = y' := by
      obtain ⟨d, hd, hx'⟩ := Option.bind_eq_some_iff.mp hx'
      obtain ⟨u, -, rfl⟩ := Option.map_eq_some_iff.mp hx'
      obtain ⟨y'', hy', hd⟩ := Option.bind_eq_some_iff.mp hd
      rw [ho] at hy'
      obtain rfl := Option.some.inj (hy'.symm.trans hy)
      split at hd
      next =>
        obtain ⟨r, -, rfl⟩ := Option.map_eq_some_iff.mp hd
        rfl
      next =>
        obtain rfl := Option.some.inj hd
        rfl
    exact ih h' (by omega) (hx.step (hok o) ⟨k, hx'⟩) (by rw [hshell]; exact he)

/-- A file is made and the root is listed. -/
def typedMk : List ShellOp :=
  [0x32, 0x25, 0x39, 0x21, 0x1C, 0x26, 0x1F, 0x1C].flatMap fun scancode =>
    [.irq scancode, .hasInput, .test, .load, .finish, .handle]

/-- The new file is on the screen. -/
theorem computer_on_screen_mk :
    ∃ x, Reach (computerMachine (fun _ _ => []) 0 ⟨fun _ => 0, 0⟩ (.start fun _ => 0))
    Computer.Allowed x ∧ x.desktop.screen.Prints 0 (inColor BOOT_LOGO_COLOR bootLogo ++ promptText 0 ++
      plain (text "mk f\nFile created\n") ++ promptText 0 ++ plain (text "ls\ntmp\nf\n") ++
        promptText 0) := by
  obtain ⟨root, dir, tmp, u, hu⟩ := boot_comes_back (fun _ => 0) (fun _ => 0) fun _ => ⟨false, 0, 0⟩
  have hinit : fsMachine.start _ := ⟨fun _ => 0, fun _ => ⟨false, 0, 0⟩, rfl⟩
  obtain ⟨hboot, A, hon, hbrk⟩ := boot_onHeap hinit (hu 3 (by decide))
  obtain ⟨dir, tmp, hrep⟩ := hboot.rep
  have hrun : (Runs.exec (fun y o => if ShellState.Suits y then ShellState.exec y o else none)
      (ShellState.start ⟨fun _ => 0, 0⟩) typedMk).map ShellState.handled = some (text "mk f\nls\n") := by
    decide +kernel
  obtain ⟨y, hy, hhandled⟩ := Option.map_eq_some_iff.mp hrun
  have hinv := Desktop.Inv.start 0 ⟨fun _ => 0, 0⟩ (.start fun _ => 0) rfl hrep
  have hb := heap_bounds
  have hlen : typedMk.length = 48 := rfl
  obtain ⟨x, hx, rfl⟩ := Computer.Inv.follow (x := ⟨_, u.heap⟩) ⟨hinv, hon⟩ (fun _ _ => []) (by omega)
    (.start ⟨3, _, _, _, _, _, u, hinit, hu 3 (by decide), rfl⟩) hy
  refine ⟨x, hx, ?_⟩
  have hscreen := (computer_on_screen rfl hx).1
  have hdesk : (x.desktop.desk 0).shown = inColor BOOT_LOGO_COLOR bootLogo ++ promptText 0 ++
      plain (text "mk f\nFile created\n") ++ promptText 0 ++ plain (text "ls\ntmp\nf\n") ++ promptText 0 := by
    rw [Desktop.desk, hhandled]
    decide +kernel
  rw [← hdesk]
  exact hscreen

end SpatulaOS.Shell
