import SpatulaOS.Shell.Bounds
import SpatulaOS.Shell.WriteBack

/-!
# The shell as a store

What the file commands of the shell do for the user, without nodes, buffers and descriptors: two
directories of named strings, and the working directory. The root has the entry "tmp" in front of
its files; a path is followed from one directory to the other, and the first entry of a name counts.
The store is finite: a directory has 32 entries at most, and a file that is written is laid over.
-/

namespace SpatulaOS.Shell

open ByteMemory Tokens SpatulaOS.Fs

/-- The directories. -/
inductive Dir where
  /-- The root. -/
  | root
  /-- What is mounted at "/tmp". -/
  | tmp
  deriving DecidableEq, Repr

/-- A file. -/
structure StoredFile where
  /-- Its name. -/
  name : List Byte
  /-- Its contents. -/
  contents : List Byte
  deriving DecidableEq

/-- What a path leads to. -/
inductive Item where
  /-- A directory. -/
  | dir (d : Dir)
  /-- The file at a position of a directory. -/
  | file (d : Dir) (i : ℕ)
  deriving DecidableEq, Repr

/-- The files of the directories, in the order in which they were made, and the working directory. -/
structure Store where
  /-- The files. -/
  files : Dir → List StoredFile
  /-- The working directory. -/
  cwd : Dir

namespace Store

/-- The store after boot. -/
def boot : Store := ⟨fun _ => [], .root⟩

/-! ### Paths -/

/-- The entry of a name in an item. -/
def child (σ : Store) : Item → List Byte → Option Item
  | .file _ _, _ => none
  | .dir d, name =>
    if d = .root ∧ name = text "tmp" then some (.dir .tmp)
    else ((σ.files d).findIdx? fun f => f.name = name).map (.file d)

/-- What a path leads to from an item. -/
def walk (σ : Store) : Item → List (List Byte) → Option Item
  | item, [] => some item
  | item, c :: cs => (σ.child item c).bind fun item => σ.walk item cs

/-- What a path leads to from a directory. -/
def resolve (σ : Store) (d : Dir) (path : List Byte) : Option Item := σ.walk (.dir d) (components path)

/-- What `cd` and `ls` take for a path. -/
def target (σ : Store) (path : List Byte) : Option Item :=
  σ.resolve (if path.head? = some SLASH then .root else σ.cwd) path

/-! ### Commands -/

/-- The names in a directory. -/
def entries (σ : Store) (d : Dir) : List (List Byte) :=
  (if d = .root then [text "tmp"] else []) ++ (σ.files d).map StoredFile.name

/-- A directory is changed. -/
def modify (σ : Store) (d : Dir) (f : List StoredFile → List StoredFile) : Store :=
  { σ with files := Function.update σ.files d (f (σ.files d)) }

/-- A file is made. -/
def make (σ : Store) (d : Dir) (message : String) (name : List Byte) : List Byte × Store :=
  if (σ.entries d).length ≥ MAX_CHILDREN then (text "Failed to create file\n", σ)
  else (text message, σ.modify d (· ++ [⟨name, []⟩]))

/-- A string is laid over a file. -/
def write (σ : Store) (path bytes : List Byte) : List Byte × Store :=
  match σ.resolve .root path with
  | none => (text "File not found\n", σ)
  | some (.dir _) => (text "Written.\n", σ)
  | some (.file d i) =>
    (text "Written.\n", σ.modify d fun fs => fs.modify i fun f =>
      { f with contents := bytes ++ f.contents.drop bytes.length })

/-- The contents of an item; a directory has none. -/
def contents (σ : Store) : Item → List Byte
  | .dir _ => []
  | .file d i => ((σ.files d)[i]?.map StoredFile.contents).getD []

/-- A file is printed. -/
def read (σ : Store) (path : List Byte) : List Byte :=
  match σ.resolve .root path with
  | none => text "File not found\n"
  | some item => σ.contents item ++ text "\n"

/-- The working directory is changed. -/
def cd (σ : Store) (path : List Byte) : List Byte × Store :=
  match σ.target path with
  | none => (text "Path not found\n", σ)
  | some (.file _ _) => (text "Not a directory\n", σ)
  | some (.dir d) => ([], { σ with cwd := d })

/-- The lines of a directory. -/
def lines (σ : Store) (d : Dir) : List Byte := (σ.entries d).flatMap (· ++ text "\n")

/-- A directory is listed. -/
def ls (σ : Store) (path : List Byte) : List Byte :=
  match σ.target path with
  | none => text "Path not found\n"
  | some (.file _ _) => text "Not a directory\n"
  | some (.dir d) => σ.lines d

/-- A file command: what is printed, and the store behind it. The other commands leave the store
alone, and what they print is not its business. -/
def command (σ : Store) (c : Command) (args : List (List Byte)) : List Byte × Store :=
  match c, args with
  | .mk, [] => (text "Usage: mk <file>\n", σ)
  | .mk, name :: _ => σ.make σ.cwd "File created\n" name
  | .mkr, [] => (text "Usage: mkr <file>\n", σ)
  | .mkr, name :: _ => σ.make .tmp "RAM file created\n" name
  | .cd, [] => ([], { σ with cwd := .root })
  | .cd, path :: _ => σ.cd path
  | .ls, [] => (σ.lines σ.cwd, σ)
  | .ls, path :: _ => (σ.ls path, σ)
  | .write, path :: word :: words => σ.write path (joined (word :: words))
  | .write, _ => (text "Usage: write <file> <text>\n", σ)
  | .rd, [] => (text "Usage: rd <file>\n", σ)
  | .rd, path :: _ => (σ.read path, σ)
  | .echo, args => (joined args ++ text "\n", σ)
  | _, _ => ([], σ)

/-- A line of words: the first one is the command. -/
def line (σ : Store) (argv : List (List Byte)) : List Byte × Store :=
  match argv with
  | [] => ([], σ)
  | name :: args =>
    match commandOf name with
    | some c => σ.command c args
    | none => (text "Unknown command\n", σ)

end Store

end SpatulaOS.Shell
