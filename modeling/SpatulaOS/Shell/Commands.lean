import SpatulaOS.Fs.Tables
import SpatulaOS.Fs.Buffers
import SpatulaOS.Shell.Arguments

/-!
# The commands

`execute_command` of `shell/shell.c` and the commands that use the file system or a buffer of
fixed size. A command gets its arguments as strings. What it prints is a list of characters; that
of the other commands, which change neither the file system nor the working directory, is left
open (`printed`).

The commands copy and join what was typed without a look at its length. Most buffers are large
enough for a line of 255 characters; these are the lines for which one is not (`inBounds_iff`).
-/

namespace SpatulaOS.Shell

open ByteMemory Tokens SpatulaOS.Fs

/-- The size of `local_buffer`. -/
abbrev LINE_SIZE : ℕ := 256

/-- The commands of the table. -/
inductive Command where
  | help | panic | state | uptime | cpuid | meminfo | heapinfo | alloc | free | freelast | memdump
    | heapval | sysfetch
  | shutdown | reboot | clear | echo | calc | asciitoint | inttoascii | mk | mkr | rd | write | ls | cd | cur
  deriving DecidableEq, Repr

/-- `commands` -/
def commands : List (List Byte × Command) :=
  [(text "help", .help), (text "panic", .panic), (text "state", .state), (text "uptime", .uptime),
    (text "cpuid", .cpuid), (text "meminfo", .meminfo), (text "heapinfo", .heapinfo), (text "alloc", .alloc),
    (text "free", .free), (text "freelast", .freelast), (text "memdump", .memdump),
      (text "heapval", .heapval),
    (text "sysfetch", .sysfetch), (text "shutdown", .shutdown), (text "reboot", .reboot),
      (text "clear", .clear),
    (text "echo", .echo), (text "calc", .calc), (text "asciitoint", .asciitoint),
      (text "inttoascii", .inttoascii),
    (text "mk", .mk), (text "mkr", .mkr), (text "rd", .rd), (text "write", .write),
      (text "ls", .ls), (text "cd", .cd),
    (text "cur", .cur)]

/-- The first command of the name. -/
def commandOf (name : List Byte) : Option Command :=
  (commands.find? fun c => strcmp name c.1 = 0).map Prod.snd

/-- The file system and `cwd`. -/
structure Session where
  fs : FsState
  cwd : Word

/-- The buffers that the shell copies strings to. -/
inductive StringBuffer where
  /-- `local_buffer[256]` of `execute_command`. -/
  | line
  /-- `buffer[1024]` of `cmd_echo`. -/
  | echo
  /-- `buffer[128]` of `cmd_panic`. -/
  | panic
  deriving DecidableEq, Repr

/-- What stops a command. -/
inductive CommandFault where
  /-- An operation of the file system was stopped. -/
  | fs (f : Fault)
  /-- A write behind the end of a buffer. -/
  | overrun (b : StringBuffer)
  /-- `debug_panic(message)` -/
  | panic (message : List Byte)
  /-- A scan leaves the line. -/
  | unterminated
  deriving DecidableEq, Repr

/-- What a command prints, and the session after it. -/
abbrev Outcome := Except CommandFault (List Byte × Session)

/-- A command calls the file system. -/
def ofFs {α : Type} (x : Except Fault α) : Except CommandFault α := x.mapError .fs

theorem ofFs_bind_ok {α β : Type} {y : Except Fault α} {f : α → Except CommandFault β} {r : β}
    (h : (ofFs y).bind f = .ok r) : ∃ a, y = .ok a ∧ f a = .ok r := by
  cases y with
  | error e => cases h
  | ok a => exact ⟨a, rfl, h⟩

/-! ### Directories -/

/-- The node that `cd` and `ls` take for a path. -/
def target (s : Session) (path : List Byte) : Except Fault Word :=
  if path.head? = some SLASH then vfsLookup s.fs path else pathResolve s.fs s.cwd path

/-- `cmd_cd`. -/
def cmdCd (s : Session) (argv : List (List Byte)) : Outcome :=
  match argv[1]? with
  | none => .ok ([], { s with cwd := s.fs.vfsRoot })
  | some path =>
    (ofFs (target s path)).bind fun target =>
      if target = 0 then .ok (text "Path not found\n", s)
      else if (s.fs.nodes target).flags &&& VFS_DIR = 0 then .ok (text "Not a directory\n", s)
      else .ok ([], { s with cwd := target })

/-- `ramfs_list`: what it prints. -/
def ramfsList (s : FsState) (node : Word) : List Byte :=
  (s.nodes (s.nodes node).fsPrivate).children.flatMap fun child => (s.nodes child).name ++ text "\n"

/-- `cmd_ls`. The operations of a node have `list`. -/
def cmdLs (s : Session) (argv : List (List Byte)) : Outcome :=
  let dir := match argv[1]? with
    | some path => ofFs (target s path)
    | none => .ok s.cwd
  dir.bind fun dir =>
    if dir = 0 then .ok (text "Path not found\n", s)
    else if (s.fs.nodes dir).flags &&& VFS_DIR = 0 then .ok (text "Not a directory\n", s)
    else if (s.fs.nodes dir).ops = false then .error (.fs .nullOps)
    else .ok (ramfsList s.fs dir, s)

/-- `parent->ops->create(parent, name, VFS_FILE)` and the message. -/
def createFile (s : Session) (parent : Word) (name : List Byte) (message : String)
    (answer : Word) : Outcome :=
  if (s.fs.nodes parent).ops = false then .error (.fs .nullOps)
  else
    (ofFs (ramfsCreate s.fs parent name VFS_FILE answer)).bind fun r =>
      if r.1 ≠ 0 then .ok (text "Failed to create file\n", { s with fs := r.2 })
      else .ok (text message, { s with fs := r.2 })

/-- `cmd_mk`. -/
def cmdMk (s : Session) (argv : List (List Byte)) (answer : Word) : Outcome :=
  match argv[1]? with
  | none => .ok (text "Usage: mk <file>\n", s)
  | some name =>
    if s.cwd = 0 then .ok (text "No working directory\n", s)
    else createFile s s.cwd name "File created\n" answer

/-- `cmd_mkr`. -/
def cmdMkr (s : Session) (argv : List (List Byte)) (answer : Word) : Outcome :=
  match argv[1]? with
  | none => .ok (text "Usage: mkr <file>\n", s)
  | some name =>
    (ofFs (vfsLookup s.fs (text "/tmp"))).bind fun tmp =>
      if tmp = 0 then .ok (text "/tmp not found\n", s)
      else if (s.fs.nodes tmp).flags &&& VFS_DIR = 0 then .ok (text "/tmp is not a directory\n", s)
      else createFile s tmp name "RAM file created\n" answer

/-! ### Files -/

/-- `sys_write(fd, str, strlen(str))`. -/
def writeString (s : FsState) (fd : ℤ) (str : List Byte) (answer : Word) : Except Fault FsState :=
  (sysWrite s fd (fun i => str.getD i 0) (BitVec.ofNat 32 str.length) answer).map Prod.snd

/-- The loop of `cmd_write`; the `k`-th call of `kmalloc` has the answer `answers k`. -/
def writeArgs (s : FsState) (fd : ℤ) : List (List Byte) → (ℕ → Word) → Except Fault FsState
  | [], _ => .ok s
  | [arg], answers => writeString s fd arg (answers 0)
  | arg :: args, answers =>
    (writeString s fd arg (answers 0)).bind fun s =>
      (writeString s fd [SPACE] (answers 1)).bind fun s =>
        writeArgs s fd args fun k => answers (k + 2)

/-- `cmd_write`. -/
def cmdWrite (s : Session) (argv : List (List Byte)) (answers : ℕ → Word) : Outcome :=
  match argv with
  | _ :: path :: arg :: args =>
    (ofFs (sysOpen s.fs path)).bind fun r =>
      let fd := r.1
      if fd < 0 then .ok (text "File not found\n", { s with fs := r.2 })
      else
        (ofFs (writeArgs (sysSeek r.2 fd 0).2 fd (arg :: args) answers)).bind fun fs =>
          .ok (text "Written.\n", { s with fs := sysClose fs fd })
  | _ => .ok (text "Usage: write <file> <text>\n", s)

/-- `cmd_rd`. The buffer is full of zeros before the file is read. -/
def cmdRd (s : Session) (argv : List (List Byte)) : Outcome :=
  match argv[1]? with
  | none => .ok (text "Usage: rd <file>\n", s)
  | some path =>
    (ofFs (sysOpen s.fs path)).bind fun r =>
      let fd := r.1
      if fd < 0 then .ok (text "File not found\n", { s with fs := r.2 })
      else
        (ofFs (sysRead (sysSeek r.2 fd 0).2 fd 255)).bind fun r =>
          let contents := if r.1 > 0 then r.2.1.takeWhile (· ≠ 0) else []
          .ok (contents ++ text "\n", { s with fs := sysClose r.2.2 fd })

/-! ### Messages -/

/-- `strcat`, to a buffer of `size` bytes: the string and its terminator have to fit. -/
def strcat (b : StringBuffer) (size : ℕ) (dest src : List Byte) : Except CommandFault (List Byte) :=
  if dest.length + src.length < size then .ok (dest ++ src) else .error (.overrun b)

/-- The loop that joins arguments, behind the first one. -/
def catLoop (b : StringBuffer) (size : ℕ) : List Byte → List (List Byte) → Except CommandFault (List Byte)
  | buffer, [] => .ok buffer
  | buffer, arg :: args =>
    (strcat b size buffer [SPACE]).bind fun buffer =>
      (strcat b size buffer arg).bind fun buffer =>
        catLoop b size buffer args

/-- The loop that joins arguments. -/
def catArgs (b : StringBuffer) (size : ℕ) : List (List Byte) → Except CommandFault (List Byte)
  | [] => .ok []
  | arg :: args => (strcat b size [] arg).bind fun buffer => catLoop b size buffer args

/-- `cmd_echo`. -/
def cmdEcho (s : Session) (argv : List (List Byte)) : Outcome :=
  (catArgs .echo 1024 argv.tail).bind fun buffer => .ok (buffer ++ text "\n", s)

/-- `cmd_panic`. -/
def cmdPanic (argv : List (List Byte)) : Outcome :=
  if argv.length < 2 then .error (.panic (text "Manual panic triggered"))
  else (catArgs .panic 128 argv.tail).bind fun buffer => .error (.panic buffer)

/-! ### A line -/

/-- What the commands print that are left out. -/
abbrev Printed := Command → List (List Byte) → List Byte

/-- The handler of a command. -/
def Command.handler (printed : Printed) (c : Command) (s : Session) (argv : List (List Byte))
    (answers : ℕ → Word) :
    Outcome :=
  match c with
  | .panic => cmdPanic argv
  | .echo => cmdEcho s argv
  | .mk => cmdMk s argv (answers 0)
  | .mkr => cmdMkr s argv (answers 0)
  | .rd => cmdRd s argv
  | .write => cmdWrite s argv answers
  | .ls => cmdLs s argv
  | .cd => cmdCd s argv
  | c => .ok (printed c argv, s)

/-- The part of `execute_command` behind `parse_arguments`. -/
def dispatch (printed : Printed) (s : Session) (argv : List (List Byte)) (answers : ℕ → Word) : Outcome :=
  match argv with
  | [] => .ok ([], s)
  | name :: _ =>
    match commandOf name with
    | some c => c.handler printed s argv answers
    | none => .ok (text "Unknown command\n", s)

/-- `execute_command`, with what was in its buffer before. -/
def executeCommand (printed : Printed) (localBuffer : Buffer) (s : Session) (input : List Byte)
    (answers : ℕ → Word) :
    Outcome :=
  if input.length ≥ LINE_SIZE then .error (.overrun .line)
  else
    match parseArguments LINE_SIZE (strcpy localBuffer input) with
    | none => .error .unterminated
    | some (argv, buf) => dispatch printed s (argv.map (cstr buf LINE_SIZE)) answers

end SpatulaOS.Shell
