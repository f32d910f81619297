import SpatulaOS.Fs.WellFormed
import SpatulaOS.Lib.Simulation

/-!
# What descriptors are for

The calls on descriptors as they are meant: a file is a list of bytes, and a descriptor is a file
with an offset. A write lays its bytes over the file, a read gives the bytes up to the end
of the file, and `open` takes the first free descriptor. The names and the directories are given
by a `NameSpace`, which no call changes.

On a well-formed tree the state of the file system has such a reading (`files`, `Represents`).
-/

namespace SpatulaOS.Fs

open ByteMemory Simulation

/-! ### The reference -/

/-- The file that a path names, and the files that are directories. -/
structure NameSpace (F : Type*) where
  /-- The file at a path. -/
  find : List Byte → Option F
  /-- Whether a file is a directory. -/
  isDir : F → Bool

/-- The contents of the files, and the descriptors in use: each is a file and an offset. -/
structure Files (F : Type*) where
  /-- The contents. -/
  contents : F → List Byte
  /-- The descriptors. -/
  fds : ℕ → Option (F × ℕ)

variable {F : Type*} [DecidableEq F]

/-- The file and the offset of a descriptor. -/
def Files.desc (t : Files F) (fd : ℤ) : Option (F × ℕ) :=
  if 0 ≤ fd ∧ fd < MAX_FDS then t.fds fd.toNat else none

/-- The first descriptor that is not in use. -/
def Files.free (t : Files F) : Option ℕ := (List.range MAX_FDS).find? fun i => (t.fds i).isNone

/-- A call on descriptors, as it is meant. -/
def refCall (ns : NameSpace F) (t : Files F) : SysCall → Reply × Files F
  | .sysOpen path =>
    match ns.find path, t.free with
    | some file, some i => (⟨i, []⟩, { t with fds := Function.update t.fds i (some (file, 0)) })
    | _, _ => (⟨-1, []⟩, t)
  | .sysWrite fd buffer size _ =>
    match t.desc fd with
    | some (file, offset) =>
      if ns.isDir file then (⟨-1, []⟩, t)
      else
        let bytes := (List.range size.toNat).map buffer
        (⟨bytes.length, []⟩,
          { contents := Function.update t.contents file (overlay (t.contents file) offset bytes)
            fds := Function.update t.fds fd.toNat (some (file, offset + bytes.length)) })
    | none => (⟨-1, []⟩, t)
  | .sysRead fd size =>
    match t.desc fd with
    | some (file, offset) =>
      let bytes := ((t.contents file).drop offset).take size.toNat
      (⟨bytes.length, bytes⟩,
        { t with fds := Function.update t.fds fd.toNat (some (file, offset + bytes.length)) })
    | none => (⟨-1, []⟩, t)
  | .sysClose fd =>
    (⟨0, []⟩, if 0 ≤ fd ∧ fd < MAX_FDS then { t with fds := Function.update t.fds fd.toNat none } else t)
  | .sysSeek fd offset =>
    match t.desc fd with
    | some (file, _) =>
      (⟨0, []⟩, { t with fds := Function.update t.fds fd.toNat (some (file, offset.toNat)) })
    | none => (⟨-1, []⟩, t)

/-! ### The state of the file system -/

variable {s s' : FsState} {a b node : Word} {path : List Byte}

/-- What a descriptor says, if it is in use. -/
def FileDesc.entry (d : FileDesc) : Option (Word × ℕ) :=
  if d.used then some (d.node, d.offset.toNat) else none

theorem FileDesc.entry_of_used {d : FileDesc} (h : d.used = true) : d.entry = some (d.node, d.offset.toNat) :=
  if_pos h

theorem FileDesc.entry_of_free {d : FileDesc} (h : d.used = false) : d.entry = none := by
  rw [entry, h]
  rfl

/-- The files and descriptors are those of the reference. -/
structure Represents (s : FsState) (t : Files Word) : Prop where
  fds : ∀ i, i < MAX_FDS → t.fds i = (s.fdTable i).entry
  holds : ∀ a, s.Live a → s.mem.Holds (s.nodes a).data (t.contents a)
  length : ∀ a, s.Live a → (t.contents a).length = (s.nodes a).size.toNat

/-- The reading of a state. -/
def files (s : FsState) : Files Word where
  contents a := s.mem.copyOut (s.nodes a).data (s.nodes a).size.toNat
  fds i := (s.fdTable i).entry

theorem represents_files (s : FsState) : Represents s (files s) := by
  refine ⟨fun i _ => rfl, fun a _ i hi => ?_, fun a _ => ?_⟩
  · simp only [files, Mem.copyOut, List.getElem_map, List.getElem_range]
  · simp only [files, Mem.copyOut, List.length_map, List.length_range]

/-- The names and directories of a state. -/
def nameSpace (s : FsState) : NameSpace Word where
  find path :=
    match vfsLookup s path with
    | .ok a => if a = 0 then none else some a
    | .error _ => none
  isDir a := (s.nodes a).flags &&& VFS_DIR ≠ 0

/-- The calls in question: a write to a file is not behind its end and does not go beyond
2^31, neither does a read, and `kmalloc` answers with a fresh buffer. -/
def Allowed (s : FsState) : SysCall → Prop
  | .sysWrite fd _ size answer => validFd s fd →
    let desc := s.fdTable fd.toNat
    (s.nodes desc.node).flags &&& VFS_DIR = 0 →
      desc.offset.toNat ≤ (s.nodes desc.node).size.toNat ∧ desc.offset.toNat + size.toNat < 2 ^ 31 ∧
      (Grows s desc.node desc.offset size → FreshBuffer s answer (desc.offset + size))
  | .sysRead fd size => validFd s fd → (s.fdTable fd.toNat).offset.toNat + size.toNat < 2 ^ 31
  | _ => True

end SpatulaOS.Fs
