import SpatulaOS.Lib.Tokens
import SpatulaOS.Fs.Ramfs

/-!
# Paths and mounts

`path_resolve` of `fs/vfs/path.c` and the mount table of `fs/vfs/vfs.c`. A path is the list
of its characters before the terminator. `path_resolve` takes it apart while it walks; it
is the same as a walk over the components (`pathResolve_eq`), which can be split where the
path is (`walk_append`).
-/

namespace SpatulaOS.Fs

open ByteMemory Tokens

/-- `'/'`. -/
abbrev SLASH : Byte := 0x2F

/-- `vfs_check_mount`. -/
def vfsCheckMount (s : FsState) (node : Word) : Word :=
  match s.mounts.find? fun m => node = m.mountpoint with
  | some m => m.root
  | none => node

/-- One turn of the loop of `path_resolve` with a component in `part`: the next node, or `none`
if the function returns `NULL`. -/
def step (s : FsState) (current : Word) (part : List Byte) : Except Fault (Option Word) :=
  if part.length ≥ NAME_SIZE then .error (.overrun .part)
  else if (s.nodes current).ops = false then .error .nullOps
  else
    (ramfsLookup s current part).bind fun next =>
      .ok (if next = 0 then none else some (vfsCheckMount s next))

/-- The loop of `path_resolve`, which looks at most at `fuel` components. -/
def pathLoop (s : FsState) : ℕ → Word → List Byte → Except Fault Word
  | 0, current, _ => .ok current
  | fuel + 1, current, path =>
    if path = [] then .ok current
    else
      let path := path.dropWhile (· = SLASH)
      if path = [] then .ok current
      else
        let part := path.takeWhile (· ≠ SLASH)
        let path := path.dropWhile (· ≠ SLASH)
        (step s current part).bind fun next =>
          match next with
          | none => .ok 0
          | some current => pathLoop s fuel current path

/-- `path_resolve`. A path has no more components than characters. -/
def pathResolve (s : FsState) (root : Word) (path : List Byte) : Except Fault Word :=
  pathLoop s path.length root path

/-- `vfs_lookup`. -/
def vfsLookup (s : FsState) (path : List Byte) : Except Fault Word :=
  if s.vfsRoot = 0 then .ok 0 else pathResolve s s.vfsRoot path

/-- `vfs_mount`. -/
def vfsMount (s : FsState) (path : List Byte) (fsRoot : Word) : Except Fault FsState :=
  (vfsLookup s path).bind fun mp =>
    if mp = 0 then .error (.panic "Mount path not found")
    else
      (push .mounts MAX_MOUNTS s.mounts ⟨mp, fsRoot⟩).bind fun mounts =>
        .ok { s with mounts := mounts }

/-! ### Components -/

variable {s s' : FsState} {path p q : List Byte} {root current node : Word} {cs ds : List (List Byte)} {n : ℕ}

/-- The components of a path: what lies between the slashes and is not empty. -/
def components (path : List Byte) : List (List Byte) := (path.splitOn SLASH).filter (· ≠ [])

/-- The walk over components; `none` where `path_resolve` returns `NULL` for a name that is not
found. -/
def walk (s : FsState) : Word → List (List Byte) → Except Fault (Option Word)
  | current, [] => .ok (some current)
  | current, c :: cs => (step s current c).bind fun next =>
    match next with
    | none => .ok none
    | some current => walk s current cs

theorem components_nil : components [] = [] := tokens_nil

/-- A slash separates components. -/
theorem components_slash (p q : List Byte) : components (p ++ SLASH :: q) = components p ++ components q :=
  tokens_append_cons SLASH p q

theorem components_dropWhile (path : List Byte) : components (path.dropWhile (· = SLASH)) = components path :=
  tokens_dropWhile SLASH path

/-- The first component of a path that does not start with a slash. -/
theorem components_takeWhile {c : Byte} (hc : c ≠ SLASH) (path : List Byte) : components (c :: path) =
    (c :: path).takeWhile (· ≠ SLASH) :: components ((c :: path).dropWhile (· ≠ SLASH)) :=
  tokens_takeWhile hc path

theorem length_dropWhile_le (f : Byte → Bool) (path : List Byte) : (path.dropWhile f).length ≤ path.length :=
  (List.dropWhile_suffix f).length_le

/-- `path_resolve` walks over the components of the path. -/
theorem pathLoop_eq (s : FsState) (hn : path.length ≤ n) :
    pathLoop s n current path = (walk s current (components path)).map fun next => next.getD 0 := by
  induction n generalizing current path with
  | zero =>
    rw [List.length_eq_zero_iff.mp (Nat.le_zero.mp hn), components_nil]
    rfl
  | succ n ih =>
    rw [pathLoop]
    dsimp only
    split_ifs with h1 h2
    · rw [h1, components_nil]
      rfl
    · rw [← components_dropWhile, h2, components_nil]
      rfl
    · rw [← components_dropWhile]
      have hle := (length_dropWhile_le (· = SLASH) path).trans hn
      have hhead := List.head?_dropWhile_not (fun b => decide (b = SLASH)) path
      cases hp : path.dropWhile (· = SLASH) with
      | nil => exact absurd hp h2
      | cons c rest =>
        rw [hp] at hle hhead
        have hc : c ≠ SLASH := by simpa using hhead
        rw [components_takeWhile hc, walk]
        cases step s current ((c :: rest).takeWhile (· ≠ SLASH)) with
        | error e => rfl
        | ok next =>
          cases next with
          | none => rfl
          | some next =>
            apply ih
            rw [List.dropWhile_cons, if_pos (decide_eq_true hc)]
            have := length_dropWhile_le (· ≠ SLASH) rest
            rw [List.length_cons] at hle
            omega

theorem pathResolve_eq (s : FsState) (root : Word) (path : List Byte) :
    pathResolve s root path = (walk s root (components path)).map fun next => next.getD 0 :=
  pathLoop_eq s le_rfl

/-! ### Walks -/

variable {c name : List Byte}

theorem bind_ok {ε α β : Type} {y : Except ε α} {f : α → Except ε β} {r : β}
    (h : y.bind f = .ok r) : ∃ a, y = .ok a ∧ f a = .ok r := by
  cases y with
  | error e => cases h
  | ok a => exact ⟨a, rfl, h⟩

/-- A step that is taken found a name, or did not. -/
theorem step_ok {o : Option Word} (h : step s current c = .ok o) :
    c.length < NAME_SIZE ∧ (s.nodes current).ops = true ∧ ∃ y, ramfsLookup s current c = .ok y ∧
      o = if y = 0 then none else some (vfsCheckMount s y) := by
  unfold step at h
  split_ifs at h with h1 h2
  cases hl : ramfsLookup s current c with
  | error e =>
    rw [hl] at h
    cases h
  | ok y =>
    rw [hl] at h
    exact ⟨Nat.lt_of_not_le h1, Bool.eq_true_of_not_eq_false h2, y, rfl, (Except.ok.inj h).symm⟩

theorem step_eq {y : Word} (hc : c.length < NAME_SIZE) (hops : (s.nodes current).ops = true)
    (hl : ramfsLookup s current c = .ok y) :
    step s current c = .ok (if y = 0 then none else some (vfsCheckMount s y)) := by
  unfold step
  rw [if_neg (Nat.not_le_of_lt hc), if_neg (by rw [hops]; exact Bool.noConfusion), hl]
  rfl

/-- A walk can be split. -/
theorem walk_append (s : FsState) (current : Word) (cs ds : List (List Byte)) :
    walk s current (cs ++ ds) = (walk s current cs).bind fun next =>
      match next with
      | none => .ok none
      | some current => walk s current ds := by
  induction cs generalizing current with
  | nil => rfl
  | cons c cs ih =>
    rw [List.cons_append, walk, walk]
    cases step s current c with
    | error e => rfl
    | ok next =>
      cases next with
      | none => rfl
      | some next => exact ih next

/-- A node other than `NULL` that a path resolves to. -/
theorem pathResolve_eq_ok {x : Word} (hx : x ≠ 0) :
    pathResolve s root path = .ok x ↔ walk s root (components path) = .ok (some x) := by
  rw [pathResolve_eq]
  cases walk s root (components path) with
  | error e => exact ⟨fun h => (by cases h), fun h => (by cases h)⟩
  | ok next =>
    cases next with
    | none => exact ⟨fun h => absurd (Except.ok.inj h).symm hx, fun h => (by cases h)⟩
    | some y =>
      constructor
      · intro h
        rw [show y = x from Except.ok.inj h]
      · intro h
        rw [Option.some.inj (Except.ok.inj h)]
        rfl

theorem resolve_single {x y : Word} (hc : components path = [name]) (hshort : name.length < NAME_SIZE)
    (hops : (s.nodes x).ops = true) (hl : ramfsLookup s x name = .ok y) :
    pathResolve s x path = .ok (if y = 0 then 0 else vfsCheckMount s y) := by
  rw [pathResolve_eq, hc, walk, step_eq hshort hops hl]
  split_ifs <;> rfl

end SpatulaOS.Fs
