import SpatulaOS.Fs.Mounts
import SpatulaOS.Shell.Paths

/-!
# Joined paths

`path_resolve` takes a path to a walk over its components, and joining paths with slashes
is appending their components. So resolving a joined path is resolving its second part
from where the first one leads (`pathResolve_join`), further slashes make no difference
(`pathResolve_slashes`), and a sequence of relative `cd` commands that all succeed is one `cd`
with the joined path (`cd_joined`). A node that is mounted must not be `NULL`: a walk that
comes to `NULL` does not return it, but follows it.
-/

namespace SpatulaOS.Shell

open ByteMemory Runs Tokens SpatulaOS.Fs

variable {s : FsState} {t t' : Session} {root current x : Word} {p q : List Byte}
  {ps cs : List (List Byte)} {k n : ℕ}

/-! ### The second part of a path -/

/-- What is mounted somewhere is not `NULL`. -/
def MountsNodes (s : FsState) : Prop := ∀ m ∈ s.mounts, m.root ≠ 0

theorem vfsCheckMount_ne_zero (hm : MountsNodes s) (hx : x ≠ 0) : vfsCheckMount s x ≠ 0 := by
  unfold vfsCheckMount
  cases hf : s.mounts.find? fun m => x = m.mountpoint with
  | none => exact hx
  | some m => exact hm m (List.mem_of_find?_eq_some hf)

theorem walk_ne_zero (hm : MountsNodes s) (hcur : current ≠ 0)
    (hw : walk s current cs = .ok (some x)) : x ≠ 0 := by
  induction cs generalizing current with
  | nil =>
    rw [← Option.some.inj (Except.ok.inj hw)]
    exact hcur
  | cons c cs ih =>
    obtain ⟨o, hs, hw⟩ := bind_ok hw
    obtain ⟨-, -, y, -, rfl⟩ := step_ok hs
    by_cases hy : y = 0
    · rw [if_pos hy] at hw
      cases hw
    · rw [if_neg hy] at hw
      exact ih (vfsCheckMount_ne_zero hm hy) hw

/-- Behind a path that leads to a node, resolution goes on from there. -/
theorem pathResolve_join_of_ne (q : List Byte) (hp : pathResolve s root p = .ok x) (hx : x ≠ 0) :
    pathResolve s root (p ++ SLASH :: q) = pathResolve s x q := by
  rw [pathResolve_eq, pathResolve_eq, components_slash, walk_append, (pathResolve_eq_ok hx).mp hp]
  rfl

/-- The second part of a path is resolved from where the first one leads, and the path leads
nowhere if the first part does not. -/
theorem pathResolve_join (hm : MountsNodes s) (hroot : root ≠ 0) (p q : List Byte) :
    pathResolve s root (p ++ SLASH :: q) =
      (pathResolve s root p).bind fun x => if x = 0 then .ok 0 else pathResolve s x q := by
  rw [pathResolve_eq, pathResolve_eq, components_slash, walk_append]
  cases hw : walk s root (components p) with
  | error e => rfl
  | ok o =>
    cases o with
    | none => rfl
    | some x =>
      have hx := walk_ne_zero hm hroot hw
      show (walk s x (components q)).map _ = if x = 0 then .ok 0 else pathResolve s x q
      rw [if_neg hx, pathResolve_eq]

/-! ### Slashes -/

/-- Paths with the same components lead to the same node. -/
theorem pathResolve_congr (h : components p = components q) :
    pathResolve s root p = pathResolve s root q := by
  rw [pathResolve_eq, pathResolve_eq, h]

theorem components_slashes (n : ℕ) (p : List Byte) :
    components (List.replicate n SLASH ++ p) = components p := by
  induction n with
  | zero => rfl
  | succ n ih =>
    rw [List.replicate_succ, List.cons_append, ← ih]
    exact tokens_cons SLASH _

theorem components_append_slashes (n : ℕ) (p q : List Byte) :
    components (p ++ (List.replicate (n + 1) SLASH ++ q)) = components p ++ components q := by
  rw [List.replicate_succ, List.cons_append, components_slash, components_slashes]

/-- Slashes in front of a path, behind it and next to another one make no difference. -/
theorem pathResolve_slashes (s : FsState) (root : Word) (p q : List Byte) (k n : ℕ) :
    pathResolve s root (List.replicate k SLASH ++ (p ++ List.replicate n SLASH)) = pathResolve s root p ∧
    pathResolve s root (p ++ (List.replicate (n + 1) SLASH ++ q)) = pathResolve s root (p ++ SLASH :: q) := by
  constructor
  · refine pathResolve_congr ?_
    rw [components_slashes]
    cases n with
    | zero => rw [List.replicate_zero, List.append_nil]
    | succ n =>
      have h := components_append_slashes n p []
      rwa [List.append_nil, components_nil, List.append_nil] at h
  · refine pathResolve_congr ?_
    rw [components_append_slashes, components_slash]

/-! ### `cd` -/

/-- The session after a `cd` that succeeds, which prints nothing. -/
def cdInto (t : Session) (path : List Byte) : Option Session :=
  match cmdCd t [text "cd", path] with
  | .ok ([], t') => some t'
  | _ => none

/-- A path from the working directory on, as a word of the command line. -/
structure RelativeWord (path : List Byte) : Prop where
  ne_nil : path ≠ []
  relative : path.head? ≠ some SLASH

/-- The paths with a slash between each two. -/
def joinPaths : List (List Byte) → List Byte
  | [] => []
  | [p] => p
  | p :: ps => p ++ SLASH :: joinPaths ps

/-- A relative `cd` succeeds if the path leads to a directory. -/
theorem cdInto_eq_some (hp : RelativeWord p) : cdInto t p = some t' ↔
    ∃ x, pathResolve t.fs t.cwd p = .ok x ∧ x ≠ 0 ∧ (t.fs.nodes x).flags &&& VFS_DIR ≠ 0 ∧
      t' = { t with cwd := x } := by
  have htarget : target t p = pathResolve t.fs t.cwd p := if_neg hp.relative
  unfold cdInto cmdCd
  dsimp only [List.getElem?_cons_succ, List.getElem?_cons_zero]
  rw [htarget]
  cases pathResolve t.fs t.cwd p with
  | error e => exact ⟨fun h => (by cases h), fun ⟨x, hx, _⟩ => (by cases hx)⟩
  | ok x =>
    have hok (y : Word) : (Except.ok x : Except Fault Word) = .ok y ↔ x = y := ⟨Except.ok.inj, congrArg _⟩
    dsimp only [ofFs, Except.mapError, Except.bind]
    simp only [hok, exists_eq_left']
    split_ifs with h0 hdir
    · exact ⟨fun h => (by cases h), fun h => absurd h0 h.1⟩
    · exact ⟨fun h => (by cases h), fun h => absurd hdir h.2.1⟩
    · exact ⟨fun h => ⟨h0, hdir, (Option.some.inj h).symm⟩, fun h => by rw [h.2.2]⟩

/-- A sequence of relative `cd` commands that succeed is one with the joined path. -/
theorem cd_joined (hne : ps ≠ []) (hrel : ∀ p ∈ ps, RelativeWord p) (hrun : exec cdInto t ps = some t') :
    RelativeWord (joinPaths ps) ∧ cdInto t (joinPaths ps) = some t' := by
  induction ps generalizing t with
  | nil => exact absurd rfl hne
  | cons p ps ih =>
    obtain ⟨hp, hps⟩ := List.forall_mem_cons.mp hrel
    obtain ⟨u, hu, hrun⟩ := Option.bind_eq_some_iff.mp hrun
    cases ps with
    | nil =>
      obtain rfl := Option.some.inj hrun
      exact ⟨hp, hu⟩
    | cons q ps =>
      obtain ⟨hjoin, hcd⟩ := ih (List.cons_ne_nil q ps) hps hrun
      obtain ⟨x, hx, h0, -, rfl⟩ := (cdInto_eq_some hp).mp hu
      obtain ⟨y, hy, hy0, hdir, rfl⟩ := (cdInto_eq_some hjoin).mp hcd
      have hrel' : RelativeWord (joinPaths (p :: q :: ps)) := by
        obtain ⟨c, p, rfl⟩ := List.exists_cons_of_ne_nil hp.ne_nil
        exact ⟨List.cons_ne_nil _ _, hp.relative⟩
      refine ⟨hrel', (cdInto_eq_some hrel').mpr ⟨y, ?_, hy0, hdir, rfl⟩⟩
      exact (pathResolve_join_of_ne (joinPaths (q :: ps)) hx h0).trans hy

/-- **`path_resolve` and joined paths**: a joined path is resolved part by part, slashes that name
nothing make no difference, and a sequence of relative `cd` commands from `root` on that succeed is one `cd`
with the joined path. -/
theorem pathResolve_homomorphism (s : FsState) (root : Word) (hm : MountsNodes s) (hroot : root ≠ 0) :
    (∀ p q, pathResolve s root (p ++ SLASH :: q) =
      (pathResolve s root p).bind fun x => if x = 0 then .ok 0 else pathResolve s x q) ∧
    (∀ p q k n,
      pathResolve s root (List.replicate k SLASH ++ (p ++ List.replicate n SLASH)) = pathResolve s root p ∧
      pathResolve s root (p ++ (List.replicate (n + 1) SLASH ++ q)) = pathResolve s root (p ++ SLASH :: q)) ∧
    ∀ ps t, ps ≠ [] → (∀ p ∈ ps, RelativeWord p) → exec cdInto ⟨s, root⟩ ps = some t →
      cdInto ⟨s, root⟩ (joinPaths ps) = some t :=
  ⟨pathResolve_join hm hroot, pathResolve_slashes s root, fun _ _ hne hrel hrun =>
    (cd_joined hne hrel hrun).2⟩

/-- The second instance is mounted at "tmp", and its root has a directory "d". -/
def mountedTree : FsState :=
  ((vfsMount sampleTree (text "/tmp") 0x400200).bind fun s =>
    (ramfsCreate s 0x400200 (text "d") VFS_DIR 0x400300).map Prod.snd).toOption.getD sampleTree

/-- In that tree a path leads through the mount, with further slashes or in two commands. -/
theorem mountedTree_joined : pathResolve mountedTree 0x400018 (text "tmp/d") = .ok 0x400300 ∧
    pathResolve mountedTree 0x400018 (text "tmp///d") = .ok 0x400300 ∧
    ∃ t, exec cdInto ⟨mountedTree, 0x400018⟩ [text "tmp", text "d"] = some t ∧ t.cwd = 0x400300 ∧
      cdInto ⟨mountedTree, 0x400018⟩ (text "tmp/d") = some t := by
  obtain ⟨hjoin, hslashes, hcd⟩ :=
    pathResolve_homomorphism mountedTree 0x400018
    (by unfold MountsNodes; decide +kernel) (by decide)
  have hpath : pathResolve mountedTree 0x400018 (text "tmp/d") = .ok 0x400300 := by
    refine (hjoin (text "tmp") (text "d")).trans ?_
    decide +kernel
  have hwords : ∀ p ∈ [text "tmp", text "d"], RelativeWord p :=
    List.forall_mem_cons.mpr ⟨⟨by decide, by decide⟩, List.forall_mem_singleton.mpr ⟨by decide, by decide⟩⟩
  have hrun : (exec cdInto ⟨mountedTree, 0x400018⟩ [text "tmp", text "d"]).map Session.cwd =
      some 0x400300 := by
    decide +kernel
  obtain ⟨t, ht, hcwd⟩ := Option.map_eq_some_iff.mp hrun
  exact ⟨hpath, ((hslashes (text "tmp") (text "d") 0 2).2).trans hpath, t, ht, hcwd,
    hcd _ t (by decide) hwords ht⟩

end SpatulaOS.Shell
