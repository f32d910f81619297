import SpatulaOS.Fs.Vfs

/-!
# What a mount makes visible

`vfs_mount(path, r)` adds an entry to the end of the mount table. A lookup follows the
first entry for a node, only for nodes that a component names, and only once for each. So
`path` leads to `r` afterwards if one of its components names the mount point, nothing is
mounted there yet, and the components behind it lead from `r` back to `r`; as a rule there
are none (`mount_visible_iff`). It does not if `path` is "/", which has no component, or if
something is mounted at `path` already, when the mount point is the root of what is mounted.
-/

namespace SpatulaOS.Fs

open ByteMemory

/-- The state with one more mount. -/
def FsState.mounted (s : FsState) (mp r : Word) : FsState := { s with mounts := s.mounts ++ [⟨mp, r⟩] }

/-- Nothing is mounted at the node. -/
def FsState.Unmounted (s : FsState) (mp : Word) : Prop := ∀ m ∈ s.mounts, m.mountpoint ≠ mp

instance (s : FsState) (mp : Word) : Decidable (s.Unmounted mp) := by unfold FsState.Unmounted; infer_instance

/-- `r` is visible at `path`: every path that goes on behind `path` leads where it leads from
`r`; in particular `path` leads to `r`. -/
structure Visible (s : FsState) (path : List Byte) (r : Word) : Prop where
  lookup : vfsLookup s path = .ok r
  behind : ∀ q, (∀ c ∈ components q, c.length < NAME_SIZE) →
      vfsLookup s (path ++ SLASH :: q) = pathResolve s r q

/-- The components behind the first one that names `mp`. -/
def restBehind (s : FsState) (mp : Word) : Word → List (List Byte) → Option (List (List Byte))
  | _, [] => none
  | current, c :: cs =>
    if ramfsLookup s current c = .ok mp then some cs
    else
      match step s current c with
      | .ok (some next) => restBehind s mp next cs
      | _ => none

/-- The condition: nothing is mounted at `mp`, a component of `path` names it, and what is behind
the first such component leads from `r` back to `r`; or else `mp` is `r` itself. -/
def MountTakesEffect (s : FsState) (path : List Byte) (mp r : Word) : Prop :=
  match (if s.Unmounted mp then restBehind s mp s.vfsRoot (components path) else none) with
  | some rest => walk (s.mounted mp r) r rest = .ok (some r)
  | none => mp = r

variable {s : FsState} {path : List Byte} {mp r current next x : Word} {c : List Byte}
  {cs rest : List (List Byte)}

/-! ### The new entry -/

/-- The new entry is found for `mp` if it is the first one for it. -/
theorem vfsCheckMount_mounted_self (h : s.Unmounted mp) : vfsCheckMount (s.mounted mp r) mp = r := by
  unfold vfsCheckMount FsState.mounted
  rw [List.find?_append, List.find?_eq_none.mpr fun m hm => by simpa using (h m hm).symm, Option.none_or,
    List.find?_singleton, if_pos (decide_eq_true rfl)]

/-- The new entry changes nothing for other nodes, and nothing at all behind another one. -/
theorem vfsCheckMount_mounted (h : next = mp → ¬ s.Unmounted mp) :
    vfsCheckMount (s.mounted mp r) next = vfsCheckMount s next := by
  unfold vfsCheckMount FsState.mounted
  rw [List.find?_append]
  cases hf : s.mounts.find? fun m => next = m.mountpoint with
  | some m => rfl
  | none =>
    have hne : next ≠ mp := by
      intro heq
      refine h heq fun m hm hmp => ?_
      have := List.find?_eq_none.mp hf m hm
      rw [decide_eq_true_eq] at this
      exact this (heq.trans hmp.symm)
    rw [Option.none_or, List.find?_singleton, if_neg (by rw [decide_eq_true_eq]; exact hne)]

/-- A step that does not name `mp` is the same. -/
theorem step_mounted (h : ramfsLookup s current c = .ok mp → ¬ s.Unmounted mp) :
    step (s.mounted mp r) current c = step s current c := by
  have hl : ramfsLookup (s.mounted mp r) current c = ramfsLookup s current c := rfl
  unfold step
  rw [hl]
  cases hy : ramfsLookup s current c with
  | error e => rfl
  | ok y =>
    rw [Except.bind, Except.bind, vfsCheckMount_mounted fun heq => h (heq ▸ hy)]
    rfl

/-! ### Walks under the new table -/

theorem walk_mounted_of_not (h : ¬ s.Unmounted mp) (current : Word) (cs : List (List Byte)) :
    walk (s.mounted mp r) current cs = walk s current cs := by
  induction cs generalizing current with
  | nil => rfl
  | cons c cs ih =>
    rw [walk, walk, step_mounted fun _ => h]
    cases step s current c with
    | error e => rfl
    | ok next =>
      cases next with
      | none => rfl
      | some next => exact ih next

/-- A walk that names `mp` goes on from `r`, and one that does not is the same. -/
theorem walk_mounted (h : s.Unmounted mp) (hmp : mp ≠ 0) (hw : walk s current cs = .ok (some x)) :
    walk (s.mounted mp r) current cs =
      match restBehind s mp current cs with
      | some rest => walk (s.mounted mp r) r rest
      | none => .ok (some x) := by
  induction cs generalizing current with
  | nil => exact hw
  | cons c cs ih =>
    rw [walk] at hw
    cases hs : step s current c with
    | error e =>
      rw [hs] at hw
      cases hw
    | ok o =>
      obtain ⟨hc, hops, y, hl, rfl⟩ := step_ok hs
      rw [restBehind]
      by_cases hy : ramfsLookup s current c = .ok mp
      -- the first component that names `mp`
      · rw [if_pos hy, walk, step_eq (s := s.mounted mp r) hc hops hy, if_neg hmp,
          vfsCheckMount_mounted_self h]
        rfl
      · rw [if_neg hy, walk, step_mounted fun h => absurd h hy, hs]
        rw [hs] at hw
        by_cases h0 : y = 0
        · rw [if_pos h0] at hw
          cases hw
        · rw [if_neg h0] at hw ⊢
          exact ih hw

/-! ### The theorem -/

/-- `r` is visible at a path if the path leads there: the walk goes on from `r`. -/
theorem visible_iff_walk (hroot : s.vfsRoot ≠ 0) (hr : r ≠ 0) :
    Visible s path r ↔ walk s s.vfsRoot (components path) = .ok (some r) := by
  have hlookup (q : List Byte) : vfsLookup s q = pathResolve s s.vfsRoot q := if_neg hroot
  constructor
  · intro h
    rw [← pathResolve_eq_ok hr, ← hlookup]
    exact h.lookup
  · intro h
    refine ⟨(hlookup path).trans ((pathResolve_eq_ok hr).mpr h), fun q _ => ?_⟩
    rw [hlookup, pathResolve_eq, pathResolve_eq, components_slash, walk_append, h]
    rfl

/-- **A mount is visible at its path exactly if it takes effect there.** -/
theorem mount_visible_iff (hlook : vfsLookup s path = .ok mp) (hmp : mp ≠ 0)
    (hslot : s.mounts.length < MAX_MOUNTS)
    (hr : r ≠ 0) : (∃ s', vfsMount s path r = .ok s' ∧ Visible s' path r) ↔ MountTakesEffect s path mp r := by
  have hroot : s.vfsRoot ≠ 0 := by
    intro h0
    rw [vfsLookup, if_pos h0] at hlook
    exact hmp (Except.ok.inj hlook).symm
  have hw : walk s s.vfsRoot (components path) = .ok (some mp) := by
    rw [vfsLookup, if_neg hroot] at hlook
    exact (pathResolve_eq_ok hmp).mp hlook
  have hmount : vfsMount s path r = .ok (s.mounted mp r) := by
    rw [vfsMount, hlook, Except.bind, if_neg hmp, push, if_pos hslot]
    rfl
  have hvis : (∃ s', vfsMount s path r = .ok s' ∧ Visible s' path r) ↔
      walk (s.mounted mp r) s.vfsRoot (components path) = .ok (some r) := by
    have hiff : Visible (s.mounted mp r) path r ↔
        walk (s.mounted mp r) s.vfsRoot (components path) = .ok (some r) :=
      visible_iff_walk hroot hr
    rw [hmount]
    constructor
    · rintro ⟨s', hs, hv⟩
      obtain rfl := Except.ok.inj hs
      exact hiff.mp hv
    · exact fun h => ⟨_, rfl, hiff.mpr h⟩
  have hsome : (Except.ok (some mp) : Except Fault (Option Word)) = .ok (some r) ↔ mp = r :=
    ⟨fun h => Option.some.inj (Except.ok.inj h), fun h => by rw [h]⟩
  rw [hvis, MountTakesEffect]
  split_ifs with hun
  · rw [walk_mounted hun hmp hw]
    cases restBehind s mp s.vfsRoot (components path) with
    | some rest => exact Iff.rfl
    | none => exact hsome
  · rw [walk_mounted_of_not hun, hw]
    exact hsome

/-- A mount at a directory takes effect. -/
theorem tmp_mount_visible : ∃ s', vfsMount sampleTree (text "/tmp") 0x400200 = .ok s' ∧
    Visible s' (text "/tmp") 0x400200 := by
  have hrest : (if sampleTree.Unmounted 0x400100 then
      restBehind sampleTree 0x400100 sampleTree.vfsRoot (components (text "/tmp")) else none) = some [] := by
    decide +kernel
  have hlook : vfsLookup sampleTree (text "/tmp") = .ok 0x400100 := by decide +kernel
  refine (mount_visible_iff hlook (by decide) (by decide) (by decide)).mpr ?_
  rw [MountTakesEffect, hrest]
  rfl

/-- A mount at "/" does not: lookups start at the old root. -/
theorem not_mount_visible : ¬ ∀ s path mp r, vfsLookup s path = .ok mp → mp ≠ 0 →
    s.mounts.length < MAX_MOUNTS → r ≠ 0 → ∃ s', vfsMount s path r = .ok s' ∧ Visible s' path r := by
  intro h
  obtain ⟨s', hs, hv⟩ := h sampleTree (text "/") 0x400018 0x400200 (by decide +kernel) (by decide) (by decide)
    (by decide)
  have hrun : ((vfsMount sampleTree (text "/") 0x400200).bind fun s => vfsLookup s (text "/")) =
      .ok 0x400018 := by
    decide +kernel
  rw [hs] at hrun
  cases hrun.symm.trans hv.lookup

end SpatulaOS.Fs
