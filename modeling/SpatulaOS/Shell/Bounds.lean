import SpatulaOS.Shell.Commands

/-!
# Strings that do not fit

When a command writes behind the end of a buffer. A line has 255 characters at most, so its copy
and what `echo` joins always fit. A name for `ramfs_create` and a component of a path may have
64 characters and more, and the message of `panic` may have 128 (`inBounds_iff`).
-/

namespace SpatulaOS.Shell

open ByteMemory Tokens SpatulaOS.Fs

/-- A write behind the end of a buffer. -/
def CommandFault.IsOverrun : CommandFault → Prop
  | .overrun _ | .fs (.overrun _) => True
  | _ => False

instance : DecidablePred CommandFault.IsOverrun := fun e => by
  unfold CommandFault.IsOverrun
  split <;> infer_instance

/-- It was stopped by such a write. -/
def Overruns {α : Type} : Except CommandFault α → Prop
  | .ok _ => False
  | .error e => e.IsOverrun

instance {α : Type} (x : Except CommandFault α) : Decidable (Overruns x) := by
  unfold Overruns
  split <;> infer_instance

/-- All string writes of a command stay in bounds. -/
abbrev InBounds (x : Outcome) : Prop := ¬ Overruns x

/-- A path of `cd` or `ls` whose components have room in `part`, as far as the walk comes. -/
def TargetFits (s : Session) (path : List Byte) : Prop :=
  if path.head? = some SLASH then PathFits s.fs path else PartsFit s.fs s.cwd (components path)

/-- A name that has room in the new node, if `ramfs_create` comes to it. -/
def NameFits (s : FsState) (parent : Word) (name : List Byte) : Prop :=
  (s.nodes parent).ops = true → CreateAllocates s parent → name.length < NAME_SIZE

/-- The characters of the arguments joined by spaces, with the terminator. -/
def joinedSize (args : List (List Byte)) : ℕ := (args.map fun arg => arg.length + 1).sum

/-- The arguments fit. -/
def CommandFits (s : Session) (c : Command) (argv : List (List Byte)) : Prop :=
  match c with
  | .mk => ∀ name, argv[1]? = some name → NameFits s.fs s.cwd name
  | .mkr => ∀ name, argv[1]? = some name → ∀ tmp, vfsLookup s.fs (text "/tmp") = .ok tmp →
    (s.fs.nodes tmp).flags &&& VFS_DIR ≠ 0 → NameFits s.fs tmp name
  | .cd | .ls => ∀ path, argv[1]? = some path → TargetFits s path
  | .write => 3 ≤ argv.length → ∀ path, argv[1]? = some path → PathFits s.fs path
  | .rd => ∀ path, argv[1]? = some path → PathFits s.fs path
  | .panic => joinedSize argv.tail ≤ 128
  | _ => True

/-- The line is not one of a command whose arguments do not fit. -/
def LineFits (s : Session) (line : List Byte) : Prop :=
  let argv := (tokens SPACE line).take MAX_ARGS
  ∀ name, argv.head? = some name → ∀ c, commandOf name = some c → CommandFits s c argv

variable {α β : Type} {x : Except CommandFault α} {f : α → Except CommandFault β} {s : Session}
  {argv args : List (List Byte)}
  {path name line buffer : List Byte} {parent answer : Word} {answers : ℕ → Word}
  {printed : Printed} {b : StringBuffer}
  {size : ℕ} {c : Command}

/-! ### Faults -/

theorem not_overruns_ok (a : α) : ¬ Overruns (.ok a : Except CommandFault α) := id

/-- A command that returns keeps to the buffers, and so its arguments must fit. -/
theorem overruns_ok_iff {P : Prop} (a : α) (hP : P) : Overruns (.ok a : Except CommandFault α) ↔ ¬ P :=
  ⟨fun h => absurd h (not_overruns_ok a), fun h => absurd hP h⟩

theorem overruns_bind : Overruns (x.bind f) ↔ Overruns x ∨ ∃ a, x = .ok a ∧ Overruns (f a) := by
  cases x with
  | error e => exact ⟨fun h => .inl h, fun h => h.resolve_right fun ⟨_, h, _⟩ => nomatch h⟩
  | ok a =>
    constructor
    · exact fun h => .inr ⟨a, rfl, h⟩
    · rintro (h | ⟨_, ha, h⟩)
      · exact absurd h (not_overruns_ok a)
      · rw [← Except.ok.inj ha] at h
        exact h

/-- What is behind a call that may overrun a buffer does not. -/
theorem overruns_bind_of (hf : ∀ a, x = .ok a → ¬ Overruns (f a)) : Overruns (x.bind f) ↔ Overruns x := by
  rw [overruns_bind, or_iff_left]
  rintro ⟨a, hx, h⟩
  exact hf a hx h

theorem overruns_ofFs {y : Except Fault α} : Overruns (ofFs y) ↔ ∃ t, y = .error (.overrun t) := by
  cases y with
  | ok a => exact ⟨fun h => absurd h (not_overruns_ok a), fun ⟨_, h⟩ => nomatch h⟩
  | error e =>
    cases e with
    | overrun t => exact ⟨fun _ => ⟨t, rfl⟩, fun _ => trivial⟩
    | panic m => exact ⟨False.elim, fun ⟨_, h⟩ => nomatch h⟩
    | nullOps => exact ⟨False.elim, fun ⟨_, h⟩ => nomatch h⟩

theorem ofFs_ok {y : Except Fault α} {a : α} : ofFs y = .ok a ↔ y = .ok a := by
  cases y with
  | ok b => exact ⟨fun h => congrArg _ (Except.ok.inj h), fun h => congrArg _ (Except.ok.inj h)⟩
  | error e => exact ⟨nofun, nofun⟩

/-! ### Paths and names -/

theorem target_overrun : (∃ t, target s path = .error (.overrun t)) ↔ ¬ TargetFits s path := by
  unfold target TargetFits
  split_ifs with h
  · exact vfsLookup_overrun
  · rw [pathResolve_eq, ← walk_overrun]
    simp only [map_eq_error]

theorem cmdCd_overruns : Overruns (cmdCd s argv) ↔ ¬ ∀ path, argv[1]? = some path → TargetFits s path := by
  unfold cmdCd
  cases argv[1]? with
  | none => exact overruns_ok_iff _ nofun
  | some path =>
    simp only [Option.some.injEq, forall_eq']
    rw [overruns_bind_of, overruns_ofFs, target_overrun]
    intro node _
    split_ifs <;> exact not_overruns_ok _

theorem cmdLs_overruns : Overruns (cmdLs s argv) ↔ ¬ ∀ path, argv[1]? = some path → TargetFits s path := by
  unfold cmdLs
  dsimp only
  rw [overruns_bind_of]
  · cases argv[1]? with
    | none => exact overruns_ok_iff _ nofun
    | some path =>
      simp only [Option.some.injEq, forall_eq']
      rw [overruns_ofFs, target_overrun]
  · intro node _
    split_ifs
    · exact not_overruns_ok _
    · exact not_overruns_ok _
    · exact id
    · exact not_overruns_ok _

theorem createFile_overruns {message : String} :
    Overruns (createFile s parent name message answer) ↔ ¬ NameFits s.fs parent name := by
  unfold createFile NameFits CreateAllocates
  by_cases hops : (s.fs.nodes parent).ops = false
  · rw [if_pos hops, hops]
    exact ⟨False.elim, fun h => absurd (fun h => nomatch h) h⟩
  · rw [if_neg hops, overruns_bind_of, overruns_ofFs, ramfsCreate_overrun]
    · rw [Bool.not_eq_false] at hops
      simp only [hops, forall_const, Classical.not_imp, Nat.not_lt, and_assoc]
    · intro r _
      split_ifs <;> exact not_overruns_ok _

theorem cmdMk_overruns : Overruns (cmdMk s argv answer) ↔
    ¬ ∀ name, argv[1]? = some name → NameFits s.fs s.cwd name := by
  unfold cmdMk
  cases argv[1]? with
  | none => exact overruns_ok_iff _ nofun
  | some name =>
    simp only [Option.some.injEq, forall_eq']
    split_ifs with h0
    · exact overruns_ok_iff _ fun _ hc => absurd h0 hc.1
    · exact createFile_overruns

theorem pathFits_tmp (fs : FsState) : PathFits fs (text "/tmp") := by
  have hc : components (text "/tmp") = [text "tmp"] := by decide
  unfold PathFits
  rw [hc]
  refine .inr ⟨by decide, ?_⟩
  split <;> trivial

theorem cmdMkr_overruns : Overruns (cmdMkr s argv answer) ↔
    ¬ ∀ name, argv[1]? = some name → ∀ tmp, vfsLookup s.fs (text "/tmp") = .ok tmp →
      (s.fs.nodes tmp).flags &&& VFS_DIR ≠ 0 → NameFits s.fs tmp name := by
  unfold cmdMkr
  cases argv[1]? with
  | none => exact overruns_ok_iff _ nofun
  | some name =>
    simp only [Option.some.injEq, forall_eq']
    rw [overruns_bind, overruns_ofFs, vfsLookup_overrun, or_iff_right (not_not.mpr (pathFits_tmp s.fs))]
    simp only [ofFs_ok, not_forall]
    constructor
    · rintro ⟨tmp, hl, h⟩
      split_ifs at h with h0 hdir
      · exact absurd h (not_overruns_ok _)
      · exact absurd h (not_overruns_ok _)
      · exact ⟨tmp, hl, hdir, createFile_overruns.mp h⟩
    · rintro ⟨tmp, hl, hdir, h⟩
      have h0 : tmp ≠ 0 := fun h0 => h fun _ hc => absurd h0 hc.1
      refine ⟨tmp, hl, ?_⟩
      rw [if_neg h0, if_neg hdir]
      exact createFile_overruns.mpr h

/-! ### Files -/

theorem writeString_ne_overrun {fs : FsState} {fd : ℤ} {str : List Byte} {t : Table} :
    writeString fs fd str answer ≠ .error (.overrun t) := by
  unfold writeString
  rw [Ne, map_eq_error]
  exact sysWrite_ne_overrun

theorem writeArgs_ne_overrun {fs : FsState} {fd : ℤ} {t : Table} :
    writeArgs fs fd args answers ≠ .error (.overrun t) := by
  induction args generalizing fs answers with
  | nil => exact nofun
  | cons arg args ih =>
    have hbind {x : Except Fault FsState} {g : FsState → Except Fault FsState} (hx : x ≠ .error (.overrun t))
        (hg : ∀ fs, g fs ≠ .error (.overrun t)) : x.bind g ≠ .error (.overrun t) := by
      cases x with
      | error e => exact hx
      | ok fs => exact hg fs
    cases args with
    | nil => exact writeString_ne_overrun
    | cons arg' args => exact hbind writeString_ne_overrun fun _ => hbind writeString_ne_overrun fun _ => ih

theorem cmdWrite_overruns : Overruns (cmdWrite s argv answers) ↔
    ¬ (3 ≤ argv.length → ∀ path, argv[1]? = some path → PathFits s.fs path) := by
  have husage (hargc : argv.length < 3) {o : List Byte} : Overruns (.ok (o, s) : Outcome) ↔
      ¬ (3 ≤ argv.length → ∀ path, argv[1]? = some path → PathFits s.fs path) :=
    overruns_ok_iff _ fun h => absurd h (Nat.not_le_of_lt hargc)
  match argv with
  | [] | [_] | [_, _] => exact husage (Nat.lt_succ_of_le (by simp))
  | a :: path :: arg :: args =>
    simp only [List.length_cons, List.getElem?_cons_succ, List.getElem?_cons_zero,
      Option.some.injEq, forall_eq']
    rw [cmdWrite, overruns_bind_of, overruns_ofFs, sysOpen_overrun]
    · refine not_congr ⟨fun h _ => h, fun h => h (by omega)⟩
    · intro r _
      dsimp only
      split_ifs
      · exact not_overruns_ok _
      · rw [overruns_bind_of fun _ _ => not_overruns_ok _, overruns_ofFs]
        exact fun ⟨_, h⟩ => writeArgs_ne_overrun h

theorem cmdRd_overruns : Overruns (cmdRd s argv) ↔ ¬ ∀ path, argv[1]? = some path → PathFits s.fs path := by
  unfold cmdRd
  cases argv[1]? with
  | none => exact overruns_ok_iff _ nofun
  | some path =>
    simp only [Option.some.injEq, forall_eq']
    rw [overruns_bind_of, overruns_ofFs, sysOpen_overrun]
    intro r _
    split_ifs
    · exact not_overruns_ok _
    · rw [overruns_bind_of fun _ _ => not_overruns_ok _, overruns_ofFs]
      exact fun ⟨_, h⟩ => sysRead_ne_overrun h

/-! ### Messages -/

theorem joinedSize_cons (arg : List Byte) (args : List (List Byte)) :
    joinedSize (arg :: args) = arg.length + 1 + joinedSize args := List.sum_cons

/-- A string that is appended, and what comes after it. -/
theorem strcat_bind_overruns {dest src : List Byte} {g : List Byte → Except CommandFault β} :
    Overruns ((strcat b size dest src).bind g) ↔
      size ≤ dest.length + src.length ∨ dest.length + src.length < size ∧ Overruns (g (dest ++ src)) := by
  unfold strcat
  split_ifs with h
  · exact ⟨fun ho => .inr ⟨h, ho⟩, fun ho => (ho.resolve_left (Nat.not_le_of_lt h)).2⟩
  · exact ⟨fun _ => .inl (Nat.le_of_not_lt h), fun _ => trivial⟩

theorem catLoop_overruns (hlt : buffer.length < size) :
    Overruns (catLoop b size buffer args) ↔ size ≤ buffer.length + joinedSize args := by
  induction args generalizing buffer with
  | nil => exact ⟨fun h => absurd h (not_overruns_ok _), fun h => absurd h (Nat.not_le_of_lt hlt)⟩
  | cons arg args ih =>
    rw [catLoop, strcat_bind_overruns, strcat_bind_overruns, joinedSize_cons, List.length_append,
      List.length_singleton]
    by_cases h₁ : size ≤ buffer.length + 1
    · exact ⟨fun _ => by omega, fun _ => .inl h₁⟩
    by_cases h₂ : size ≤ buffer.length + 1 + arg.length
    · exact ⟨fun _ => by omega, fun _ => .inr ⟨by omega, .inl h₂⟩⟩
    rw [ih (by rw [List.length_append, List.length_append, List.length_singleton]; omega), List.length_append,
      List.length_append, List.length_singleton]
    constructor
    · rintro (h | ⟨-, h | ⟨-, h⟩⟩)
      · exact absurd h h₁
      · exact absurd h h₂
      · omega
    · intro h
      exact .inr ⟨by omega, .inr ⟨by omega, by omega⟩⟩

/-- Joined arguments overrun a buffer that they do not fit with the terminator. -/
theorem catArgs_overruns : Overruns (catArgs b size args) ↔ size < joinedSize args := by
  cases args with
  | nil => exact ⟨fun h => absurd h (not_overruns_ok _), fun h => absurd h (Nat.not_lt_zero _)⟩
  | cons arg args =>
    rw [catArgs, strcat_bind_overruns, joinedSize_cons, List.length_nil, Nat.zero_add, List.nil_append]
    by_cases h : size ≤ arg.length
    · exact ⟨fun _ => by omega, fun _ => .inl h⟩
    · rw [catLoop_overruns (Nat.lt_of_not_le h)]
      constructor
      · rintro (h' | ⟨-, h'⟩) <;> omega
      · exact fun h' => .inr ⟨Nat.lt_of_not_le h, by omega⟩

theorem cmdPanic_overruns : Overruns (cmdPanic argv) ↔ ¬ joinedSize argv.tail ≤ 128 := by
  unfold cmdPanic
  split_ifs with hargc
  · have htail : argv.tail = [] := by
      rw [← List.length_eq_zero_iff, List.length_tail]
      omega
    rw [htail]
    exact ⟨False.elim, fun h => absurd (Nat.zero_le _) h⟩
  · rw [overruns_bind_of fun _ _ => id, catArgs_overruns, Nat.not_le]

theorem cmdEcho_overruns : Overruns (cmdEcho s argv) ↔ 1024 < joinedSize argv.tail := by
  unfold cmdEcho
  rw [overruns_bind_of fun _ _ => not_overruns_ok _, catArgs_overruns]

/-! ### A line -/

/-- A command overruns a buffer exactly if its arguments do not fit. -/
theorem handler_overruns (hecho : joinedSize argv.tail ≤ 1024) :
    Overruns (c.handler printed s argv answers) ↔ ¬ CommandFits s c argv := by
  cases c with
  | mk => exact cmdMk_overruns
  | mkr => exact cmdMkr_overruns
  | rd => exact cmdRd_overruns
  | write => exact cmdWrite_overruns
  | ls => exact cmdLs_overruns
  | cd => exact cmdCd_overruns
  | panic => exact cmdPanic_overruns
  | echo => exact ⟨fun h => absurd (cmdEcho_overruns.mp h) (Nat.not_lt_of_le hecho),
    fun h => absurd trivial h⟩
  | _ => exact overruns_ok_iff _ trivial

/-- The arguments of a line fit a buffer that is longer than the line. -/
theorem joinedSize_words_le (line : List Byte) (n : ℕ) :
    joinedSize ((tokens SPACE line).take n).tail ≤ line.length + 1 := by
  refine le_trans ?_ (sum_tokens_le SPACE line)
  have hsub : List.Sublist ((tokens SPACE line).take n).tail (tokens SPACE line) :=
    (List.tail_sublist _).trans (List.take_sublist _ _)
  exact (hsub.map _).sum_le_sum fun _ _ => Nat.zero_le _

/-- A line is taken apart, and its first words are the arguments. -/
theorem executeCommand_eq (localBuffer : Buffer) (hline : 0 ∉ line) (hlen : line.length ≤ 255) :
    executeCommand printed localBuffer s line answers =
      dispatch printed s ((tokens SPACE line).take MAX_ARGS) answers := by
  have hlt : line.length < LINE_SIZE := Nat.lt_succ_of_le hlen
  obtain ⟨argv, buf, hparse, hargv⟩ := parseArguments_eq (stringAt_strcpy localBuffer hline) hlt
  rw [executeCommand, if_neg (Nat.not_le_of_lt hlt), hparse]
  dsimp only
  rw [hargv]

theorem dispatch_overruns (hecho : joinedSize argv.tail ≤ 1024) : Overruns (dispatch printed s argv answers) ↔
    ¬ ∀ name, argv.head? = some name → ∀ c, commandOf name = some c → CommandFits s c argv := by
  cases argv with
  | nil => exact overruns_ok_iff _ nofun
  | cons name args =>
    simp only [dispatch, List.head?_cons, Option.some.injEq, forall_eq']
    cases commandOf name with
    | none => exact overruns_ok_iff _ nofun
    | some c =>
      simp only [Option.some.injEq, forall_eq']
      exact handler_overruns hecho

/-- **A line is executed within the buffers** exactly if it fits: the name of a file, the components of a path
and the message of a panic. -/
theorem inBounds_iff (printed : Printed) (localBuffer : Buffer) (s : Session) (line : List Byte)
    (answers : ℕ → Word)
    (hline : 0 ∉ line) (hlen : line.length ≤ 255) :
    InBounds (executeCommand printed localBuffer s line answers) ↔ LineFits s line := by
  have hecho : joinedSize ((tokens SPACE line).take MAX_ARGS).tail ≤ 1024 := by
    have := joinedSize_words_le line MAX_ARGS
    omega
  rw [executeCommand_eq localBuffer hline hlen, InBounds, dispatch_overruns hecho, not_not]
  rfl

/-- A session after boot, in the root. -/
def sampleSession : Session := ⟨sampleTree, 0x400018⟩

theorem mk_in_bounds : InBounds (executeCommand (fun _ _ => []) (fun _ => 0) sampleSession (text "mk f")
    fun _ => 0x400300) := by
  refine (inBounds_iff _ _ _ (text "mk f") _ (by decide) (by decide)).mpr ?_
  have hwords : (tokens SPACE (text "mk f")).take MAX_ARGS = [text "mk", text "f"] := by decide
  have hcommand : commandOf (text "mk") = some .mk := by decide
  unfold LineFits
  rw [hwords]
  intro argv name hname c hc
  obtain rfl := Option.some.inj hname
  obtain rfl := Option.some.inj (hcommand.symm.trans hc)
  intro file hfile _ _
  obtain rfl := Option.some.inj hfile
  decide

/-- A file name of 64 characters. -/
theorem not_in_bounds : ¬ ∀ printed localBuffer s line answers, 0 ∉ line → line.length ≤ 255 →
    InBounds (executeCommand printed localBuffer s line answers) := by
  intro h
  have hin := h (fun _ _ => []) (fun _ => 0) sampleSession (text "mk " ++ List.replicate 64 0x61)
    (fun _ => 0x400300)
    (by decide) (by decide)
  exact hin (by decide +kernel)

end SpatulaOS.Shell
