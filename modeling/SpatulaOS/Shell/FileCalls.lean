import SpatulaOS.Fs.Calls
import SpatulaOS.Shell.Commands

/-!
# The file commands as calls

`cmd_mk`, `cmd_mkr` and `cmd_write` come to the file system by a sequence of calls. The commands
that return leave the file system as these calls do (`FileCommand.run_fs`), so that what is
known of calls is known of the commands.
-/

namespace SpatulaOS.Shell

open ByteMemory Runs SpatulaOS.Fs

/-- The commands that make files and write to them, with the answers of `kmalloc`. -/
inductive FileCommand where
  /-- `mk` -/
  | mk (argv : List (List Byte)) (answer : Word)
  /-- `mkr` -/
  | mkr (argv : List (List Byte)) (answer : Word)
  /-- `write` -/
  | write (argv : List (List Byte)) (answers : ℕ → Word)

/-- A file command is carried out. -/
def FileCommand.run (s : Session) : FileCommand → Outcome
  | .mk argv answer => cmdMk s argv answer
  | .mkr argv answer => cmdMkr s argv answer
  | .write argv answers => cmdWrite s argv answers

/-! ### The calls -/

/-- The call of `cmd_mk`, if it comes to one. -/
def mkCalls (s : Session) (argv : List (List Byte)) (answer : Word) : List Call :=
  match argv[1]? with
  | none => []
  | some name => if s.cwd = 0 then [] else [.create s.cwd name VFS_FILE answer]

/-- The call of `cmd_mkr` that changes something, if it comes to one. -/
def mkrCalls (s : Session) (argv : List (List Byte)) (answer : Word) : List Call :=
  match argv[1]?, vfsLookup s.fs (text "/tmp") with
  | some name, .ok tmp =>
    if tmp = 0 ∨ (s.fs.nodes tmp).flags &&& VFS_DIR = 0 then [] else [.create tmp name VFS_FILE answer]
  | _, _ => []

/-- The call of `writeString`. -/
def writeCall (fd : ℤ) (str : List Byte) (answer : Word) : Call :=
  .sys (.sysWrite fd (fun i => str.getD i 0) (BitVec.ofNat 32 str.length) answer)

/-- The calls in the loop of `cmd_write`. -/
def loopCalls (fd : ℤ) : List (List Byte) → (ℕ → Word) → List Call
  | [], _ => []
  | [arg], answers => [writeCall fd arg (answers 0)]
  | arg :: args, answers =>
    writeCall fd arg (answers 0) :: writeCall fd [SPACE] (answers 1) :: loopCalls fd args fun k =>
      answers (k + 2)

/-- The calls of `cmd_write`. -/
def writeCalls (s : Session) (argv : List (List Byte)) (answers : ℕ → Word) : List Call :=
  match argv with
  | _ :: path :: arg :: args =>
    match sysOpen s.fs path with
    | .ok (fd, _) =>
      if fd < 0 then [.sys (.sysOpen path)]
      else .sys (.sysOpen path) :: .sys (.sysSeek fd 0) ::
        (loopCalls fd (arg :: args) answers ++ [.sys (.sysClose fd)])
    | .error _ => []
  | _ => []

/-- The calls of a file command. -/
def FileCommand.calls (s : Session) : FileCommand → List Call
  | .mk argv answer => mkCalls s argv answer
  | .mkr argv answer => mkrCalls s argv answer
  | .write argv answers => writeCalls s argv answers

/-! ### What the commands leave -/

variable {s s' : Session} {u v : FsState} {fd : ℤ} {out name str : List Byte} {argv args : List (List Byte)}
  {parent answer : Word} {answers : ℕ → Word} {message : String} {cs : List Call}

theorem exec_cons {c : Call} (hc : after u c = some v) : exec after u (c :: cs) = exec after v cs := by
  rw [exec, hc]
  rfl

theorem exec_message {printed : List Byte}
    (h : (Except.ok (printed, s) : Except CommandFault (List Byte × Session)) = .ok (out, s')) :
    exec after s.fs [] = some s'.fs := by
  rw [← (Prod.mk.inj (Except.ok.inj h)).2]
  rfl

theorem createFile_fs (h : createFile s parent name message answer = .ok (out, s')) :
    exec after s.fs [.create parent name VFS_FILE answer] = some s'.fs := by
  unfold createFile at h
  split_ifs at h
  obtain ⟨⟨ret, u⟩, hc, h⟩ := ofFs_bind_ok h
  have hafter : after s.fs (.create parent name VFS_FILE answer) = some u :=
    after_eq_some.mpr ⟨⟨ret, []⟩, by rw [call, hc]; rfl⟩
  rw [exec_cons hafter]
  dsimp only at h
  split_ifs at h
  · exact exec_message h
  · exact exec_message h

theorem cmdMk_fs (h : cmdMk s argv answer = .ok (out, s')) :
    exec after s.fs (mkCalls s argv answer) = some s'.fs := by
  unfold cmdMk at h
  unfold mkCalls
  cases hname : argv[1]? with
  | none =>
    rw [hname] at h
    exact exec_message h
  | some name =>
    rw [hname] at h
    dsimp only at h ⊢
    split_ifs at h ⊢
    · exact exec_message h
    · exact createFile_fs h

theorem cmdMkr_fs (h : cmdMkr s argv answer = .ok (out, s')) :
    exec after s.fs (mkrCalls s argv answer) = some s'.fs := by
  unfold cmdMkr at h
  unfold mkrCalls
  cases hname : argv[1]? with
  | none =>
    rw [hname] at h
    exact exec_message h
  | some name =>
    rw [hname] at h
    obtain ⟨tmp, htmp, h⟩ := ofFs_bind_ok h
    rw [htmp]
    dsimp only
    split_ifs at h with h0 hdir
    · rw [if_pos (.inl h0)]
      exact exec_message h
    · rw [if_pos (.inr hdir)]
      exact exec_message h
    · rw [if_neg (not_or.mpr ⟨h0, hdir⟩)]
      exact createFile_fs h

theorem writeString_fs (h : writeString u fd str answer = .ok v) :
    after u (writeCall fd str answer) = some v := by
  obtain ⟨r, hw, rfl⟩ := map_eq_ok h
  exact after_eq_some.mpr ⟨⟨r.1, []⟩, by rw [writeCall, call, sysCall, hw]; rfl⟩

theorem writeArgs_fs (h : writeArgs u fd args answers = .ok v) :
    exec after u (loopCalls fd args answers) = some v := by
  induction args generalizing u answers with
  | nil =>
    obtain rfl := Except.ok.inj h
    rfl
  | cons arg args ih =>
    cases args with
    | nil =>
      rw [writeArgs] at h
      rw [loopCalls, exec_cons (writeString_fs h)]
      rfl
    | cons arg' args =>
      rw [writeArgs] at h
      · obtain ⟨u₁, h₁, h⟩ := bind_ok h
        obtain ⟨u₂, h₂, h⟩ := bind_ok h
        rw [loopCalls, exec_cons (writeString_fs h₁), exec_cons (writeString_fs h₂)]
        · exact ih h
        · exact List.cons_ne_nil _ _
      · exact List.cons_ne_nil _ _

theorem cmdWrite_fs (h : cmdWrite s argv answers = .ok (out, s')) :
    exec after s.fs (writeCalls s argv answers) = some s'.fs := by
  match argv, h with
  | [], h | [_], h | [_, _], h =>
    exact exec_message h
  | _ :: path :: arg :: args, h =>
    obtain ⟨⟨fd, u⟩, ho, h⟩ := ofFs_bind_ok h
    have hopen : after s.fs (.sys (.sysOpen path)) = some u :=
      after_eq_some.mpr ⟨⟨fd, []⟩, by rw [call, sysCall, ho]; rfl⟩
    unfold writeCalls
    dsimp only at h ⊢
    rw [ho]
    dsimp only
    split_ifs at h ⊢
    · rw [exec_cons hopen, ← (Prod.mk.inj (Except.ok.inj h)).2]
      rfl
    · obtain ⟨v, hv, h⟩ := ofFs_bind_ok h
      have hseek : after u (.sys (.sysSeek fd 0)) = some (sysSeek u fd 0).2 := rfl
      rw [exec_cons hopen, exec_cons hseek, exec_append, writeArgs_fs hv,
        ← (Prod.mk.inj (Except.ok.inj h)).2]
      rfl

/-- A file command that returns leaves the file system as its calls do. -/
theorem FileCommand.run_fs {c : FileCommand} (h : c.run s = .ok (out, s')) :
    exec after s.fs (c.calls s) = some s'.fs := by
  cases c with
  | mk argv answer => exact cmdMk_fs h
  | mkr argv answer => exact cmdMkr_fs h
  | write argv answers => exact cmdWrite_fs h

end SpatulaOS.Shell
