import SpatulaOS.Fs.Calls

/-!
# The fixed tables

`fd_alloc` and `ramfs_create` look for room before they write to their tables. `vfs_mount` does
not: the ninth mount is written behind `mounts[8]`. Names and components of a path are copied
without a look at their length. These are the only ways to leave a table (`tables_kept`).
-/

namespace SpatulaOS.Fs

open ByteMemory Runs

variable {s s' : FsState} {c : Call} {r : Reply} {current node parent flags answer size : Word}
  {name path : List Byte} {cs : List (List Byte)} {t : Table} {i : ℕ} {buffer : ℕ → Byte}

/-- The components of a path that the walk comes to have room in `part`. -/
def PartsFit (s : FsState) : Word → List (List Byte) → Prop
  | _, [] => True
  | current, c :: cs => c.length < NAME_SIZE ∧
    match step s current c with
    | .ok (some next) => PartsFit s next cs
    | _ => True

instance decidablePartsFit (s : FsState) :
    (current : Word) → (cs : List (List Byte)) → Decidable (PartsFit s current cs)
  | _, [] => isTrue trivial
  | current, c :: cs => by
    unfold PartsFit
    cases step s current c with
    | error e => infer_instance
    | ok next =>
      cases next with
      | none => infer_instance
      | some next =>
        have := decidablePartsFit s next cs
        infer_instance

/-- A path that `vfs_lookup` can take apart. -/
def PathFits (s : FsState) (path : List Byte) : Prop := s.vfsRoot = 0 ∨ PartsFit s s.vfsRoot (components path)

instance (s : FsState) (path : List Byte) : Decidable (PathFits s path) := by unfold PathFits; infer_instance

/-- A path that leads to a node. -/
def Found (s : FsState) (path : List Byte) : Prop :=
  match vfsLookup s path with
  | .ok mp => mp ≠ 0
  | .error _ => False

instance (s : FsState) (path : List Byte) : Decidable (Found s path) := by
  unfold Found
  cases vfsLookup s path <;> infer_instance

/-- The calls that stay in the tables. A call of `ramfs_create` that panics or finds no room in the
parent does not come to the name, and one of `vfs_mount` that panics does not come to the table. -/
def WithinTables (s : FsState) : Call → Prop
  | .createInstance _ | .setRoot _ => True
  | .create parent name _ _ => parent ≠ 0 → (s.nodes parent).fsPrivate ≠ 0 →
    (s.nodes (s.nodes parent).fsPrivate).children.length < MAX_CHILDREN → name.length < NAME_SIZE
  | .mount path _ => PathFits s path ∧ (Found s path → s.mounts.length < MAX_MOUNTS)
  | .sys (.sysOpen path) => PathFits s path
  | .sys _ => True

instance (s : FsState) : (c : Call) → Decidable (WithinTables s c)
  | .create _ _ _ _ => by
    unfold WithinTables
    infer_instance
  | .mount path _ =>
    inferInstanceAs (Decidable (PathFits s path ∧ (Found s path → s.mounts.length < MAX_MOUNTS)))
  | .sys (.sysOpen path) => inferInstanceAs (Decidable (PathFits s path))
  | .sys (.sysRead _ _) | .sys (.sysWrite _ _ _ _) | .sys (.sysClose _) | .sys (.sysSeek _ _) =>
    .isTrue trivial
  | .createInstance _ | .setRoot _ => .isTrue trivial

/-- The counters are not beyond the tables. -/
structure FsState.Bounded (s : FsState) : Prop where
  children : ∀ a, (s.nodes a).children.length ≤ MAX_CHILDREN
  mounts : s.mounts.length ≤ MAX_MOUNTS

/-- A call keeps to the tables: it writes no entry behind the end of one, what lies behind
`fd_table` is left alone, the counters stay in bounds, and a descriptor that is returned is
in the table. -/
structure KeepsToTables (s : FsState) (c : Call) : Prop where
  table : ∀ t, call s c ≠ .error (.overrun t)
  behind : ∀ r s', call s c = .ok (r, s') → ∀ i, MAX_FDS ≤ i → s'.fdTable i = s.fdTable i
  bounded : ∀ r s', call s c = .ok (r, s') → s'.Bounded
  descriptor : ∀ path r s', c = .sys (.sysOpen path) → call s c = .ok (r, s') → r.ret < MAX_FDS

/-! ### Overruns -/

theorem map_eq_error {α β : Type*} {x : Except Fault α} {f : α → β} {e : Fault} :
    x.map f = .error e ↔ x = .error e := by
  cases x with
  | error d => exact ⟨fun h => by rw [Except.error.inj h], fun h => by rw [Except.error.inj h]; rfl⟩
  | ok a => exact ⟨fun h => (by cases h), fun h => (by cases h)⟩

theorem ramfsLookup_ne_overrun : ramfsLookup s node name ≠ .error (.overrun t) := by
  unfold ramfsLookup
  split_ifs <;> exact nofun

theorem step_overrun {part : List Byte} :
    (∃ t, step s current part = .error (.overrun t)) ↔ NAME_SIZE ≤ part.length := by
  unfold step
  split_ifs with hlong hops
  · exact ⟨fun _ => hlong, fun _ => ⟨_, rfl⟩⟩
  · exact iff_of_false (by rintro ⟨_, ⟨⟩⟩) fun h => absurd h hlong
  · refine iff_of_false ?_ hlong
    rintro ⟨t, h⟩
    cases hl : ramfsLookup s current part with
    | error e =>
      rw [hl, Except.bind] at h
      exact absurd (hl.trans (congrArg Except.error (Except.error.inj h))) ramfsLookup_ne_overrun
    | ok y =>
      rw [hl] at h
      cases h

/-- A walk overruns `part` exactly if it comes to a long component. -/
theorem walk_overrun : (∃ t, walk s current cs = .error (.overrun t)) ↔ ¬ PartsFit s current cs := by
  induction cs generalizing current with
  | nil => exact iff_of_false (by rintro ⟨_, ⟨⟩⟩) fun h => absurd trivial h
  | cons c cs ih =>
    have hstep : (∃ t, step s current c = .error (.overrun t)) ↔ NAME_SIZE ≤ c.length := step_overrun
    rw [walk, PartsFit]
    cases hs : step s current c with
    | error e =>
      rw [hs] at hstep
      rw [Except.bind, not_and_or, Nat.not_lt, ← hstep]
      exact ⟨.inl, fun h => h.resolve_right fun h => h trivial⟩
    | ok next =>
      have hshort : c.length < NAME_SIZE := by
        by_contra hlong
        obtain ⟨t, h⟩ := hstep.mpr (Nat.le_of_not_lt hlong)
        cases hs.symm.trans h
      rw [Except.bind, not_and_or]
      cases next with
      | none => exact iff_of_false (by rintro ⟨_, ⟨⟩⟩) fun h => absurd trivial (h.resolve_left (not_not.mpr hshort))
      | some next => exact ih.trans ⟨.inr, fun h => h.resolve_left (not_not.mpr hshort)⟩

theorem vfsLookup_overrun : (∃ t, vfsLookup s path = .error (.overrun t)) ↔ ¬ PathFits s path := by
  unfold vfsLookup PathFits
  split_ifs with hroot
  · exact iff_of_false (by rintro ⟨_, ⟨⟩⟩) fun h => absurd (.inl hroot) h
  · rw [pathResolve_eq, not_or, ← walk_overrun]
    simp only [map_eq_error]
    exact ⟨fun h => ⟨hroot, h⟩, fun h => h.2⟩

theorem ramfsCreate_overrun : (∃ t, ramfsCreate s parent name flags answer = .error (.overrun t)) ↔
    parent ≠ 0 ∧ (s.nodes parent).fsPrivate ≠ 0 ∧
      (s.nodes (s.nodes parent).fsPrivate).children.length < MAX_CHILDREN ∧ NAME_SIZE ≤ name.length := by
  by_cases hnull : parent = 0 ∨ (s.nodes parent).fsPrivate = 0
  · rw [ramfsCreate, if_pos hnull]
    exact iff_of_false (by rintro ⟨_, ⟨⟩⟩) fun h => absurd hnull (not_or.mpr ⟨h.1, h.2.1⟩)
  · obtain ⟨hparent, hpriv⟩ := not_or.mp hnull
    rw [ramfsCreate_eq hparent hpriv]
    split_ifs with hfull hname
    · exact iff_of_false (by rintro ⟨_, ⟨⟩⟩) fun h => absurd h.2.2.1 (Nat.not_lt_of_le hfull)
    · exact iff_of_false (by rintro ⟨_, ⟨⟩⟩) fun h => absurd hname (Nat.not_lt_of_le h.2.2.2)
    · exact ⟨fun _ => ⟨hparent, hpriv, Nat.lt_of_not_le hfull, Nat.le_of_not_lt hname⟩, fun _ => ⟨_, rfl⟩⟩

theorem vfsMount_overrun {fsRoot : Word} : (∃ t, vfsMount s path fsRoot = .error (.overrun t)) ↔
    ¬ PathFits s path ∨ Found s path ∧ MAX_MOUNTS ≤ s.mounts.length := by
  have hfits : (∃ t, vfsLookup s path = .error (.overrun t)) ↔ ¬ PathFits s path := vfsLookup_overrun
  cases hl : vfsLookup s path with
  | error e =>
    rw [hl] at hfits
    rw [vfsMount, hl, Except.bind, ← hfits, Found, hl]
    simp only [Except.error.injEq]
    exact ⟨.inl, fun h => h.resolve_right fun h => h.1⟩
  | ok mp =>
    have hok : PathFits s path := by
      by_contra h
      obtain ⟨t, h⟩ := hfits.mpr h
      cases hl.symm.trans h
    rw [Found, hl]
    by_cases hmp : mp = 0
    · rw [vfsMount, hl, Except.bind, if_pos hmp]
      exact iff_of_false (by rintro ⟨_, ⟨⟩⟩) fun h => absurd hmp (h.resolve_left (not_not.mpr hok)).1
    · rw [vfsMount_eq hl hmp]
      split_ifs with hroom
      · exact iff_of_false (by rintro ⟨_, ⟨⟩⟩) fun h =>
          absurd (h.resolve_left (not_not.mpr hok)).2 (Nat.not_le_of_lt hroom)
      · exact ⟨fun _ => .inr ⟨hmp, Nat.le_of_not_lt hroom⟩, fun _ => ⟨_, rfl⟩⟩

theorem sysOpen_overrun : (∃ t, sysOpen s path = .error (.overrun t)) ↔ ¬ PathFits s path := by
  rw [← vfsLookup_overrun]
  cases hl : vfsLookup s path with
  | error e =>
    rw [sysOpen, hl, Except.bind]
    simp only [Except.error.injEq]
  | ok node =>
    obtain ⟨-, h⟩ | ⟨-, i, -, -, -, h⟩ := sysOpen_cases hl <;>
    · rw [h]
      exact iff_of_false (by rintro ⟨_, ⟨⟩⟩) (by rintro ⟨_, ⟨⟩⟩)

theorem sysWrite_ne_overrun {fd : ℤ} : sysWrite s fd buffer size answer ≠ .error (.overrun t) := by
  unfold sysWrite ramfsWrite
  split_ifs
  · dsimp only
    split_ifs <;> exact nofun
  · exact nofun

theorem sysRead_ne_overrun {fd : ℤ} : sysRead s fd size ≠ .error (.overrun t) := by
  unfold sysRead
  split_ifs
  · dsimp only
    split_ifs <;> exact nofun
  · exact nofun

/-- These are the calls that overrun a table. -/
theorem call_overrun : (∃ t, call s c = .error (.overrun t)) ↔ ¬ WithinTables s c := by
  cases c with
  | createInstance answer => exact iff_of_false (by rintro ⟨_, ⟨⟩⟩) fun h => absurd trivial h
  | setRoot root => exact iff_of_false (by rintro ⟨_, ⟨⟩⟩) fun h => absurd trivial h
  | create parent name flags answer =>
    simp only [call, map_eq_error, ramfsCreate_overrun, WithinTables, Classical.not_imp, Nat.not_lt]
  | mount path fsRoot =>
    simp only [call, map_eq_error, vfsMount_overrun, WithinTables, not_and_or, Classical.not_imp, Nat.not_lt]
  | sys c =>
    cases c with
    | sysOpen path => simp only [call, sysCall, map_eq_error, sysOpen_overrun, WithinTables]
    | sysWrite fd buffer size answer =>
      simp only [call, sysCall, map_eq_error, sysWrite_ne_overrun, exists_false, WithinTables, not_true]
    | sysRead fd size =>
      simp only [call, sysCall, map_eq_error, sysRead_ne_overrun, exists_false, WithinTables, not_true]
    | sysClose fd => exact iff_of_false (by rintro ⟨_, ⟨⟩⟩) fun h => absurd trivial h
    | sysSeek fd offset => exact iff_of_false (by rintro ⟨_, ⟨⟩⟩) fun h => absurd trivial h

/-! ### The counters -/

/-- A node replaced by one with at most as many children as the table holds. -/
theorem FsState.Bounded.update (h : s.Bounded) {n : RamfsNode} (hn : n.children.length ≤ MAX_CHILDREN)
    (hnodes : s'.nodes = Function.update s.nodes node n) (hmounts : s'.mounts = s.mounts) : s'.Bounded := by
  refine ⟨fun a => ?_, ?_⟩
  · rw [hnodes]
    by_cases ha : a = node
    · rw [ha, Function.update_self]
      exact hn
    · rw [Function.update_of_ne ha]
      exact h.children a
  · rw [hmounts]
    exact h.mounts

theorem SameTree.bounded (h : SameTree s s') (hb : s.Bounded) : s'.Bounded := by
  refine ⟨fun a => ?_, ?_⟩
  · rw [h.children]
    exact hb.children a
  · rw [h.mounts]
    exact hb.mounts

theorem FsState.Bounded.linked (h : s.Bounded)
    (hroom : (s.nodes (s.nodes parent).fsPrivate).children.length < MAX_CHILDREN) :
    (linked s parent name flags answer).Bounded := by
  refine FsState.Bounded.update (s := { s with nodes := Function.update s.nodes answer _ }) ?_ ?_ rfl rfl
  · exact h.update (Nat.zero_le _) rfl rfl
  · rw [List.length_append, List.length_singleton]
    exact newNode_room hroom

theorem FsState.Bounded.call (h : s.Bounded) (hc : call s c = .ok (r, s')) : s'.Bounded := by
  cases call_effect hc with
  | createInstance =>
    rw [ramfsCreateInstance_eq]
    exact h.update (Nat.zero_le _) rfl rfl
  | setRoot => exact ⟨h.children, h.mounts⟩
  | full => exact h
  | create _ _ hroom => exact h.linked hroom
  | mount hroom =>
    refine ⟨h.children, ?_⟩
    rw [List.length_append, List.length_singleton]
    exact hroom
  | sys hc => exact (sysCall_sameTree hc).bounded h

theorem call_behind (hc : call s c = .ok (r, s')) (hi : MAX_FDS ≤ i) : s'.fdTable i = s.fdTable i := by
  cases call_effect hc with
  | createInstance =>
    rw [ramfsCreateInstance_eq]
  | setRoot => rfl
  | full => rfl
  | create _ _ _ => rfl
  | mount _ => rfl
  | sys hc => exact sysCall_behind hc hi

theorem descriptor_lt (hc : call s (.sys (.sysOpen path)) = .ok (r, s')) : r.ret < MAX_FDS := by
  obtain ⟨⟨ret, t⟩, ho, heq⟩ := map_eq_ok hc
  obtain ⟨rfl, -⟩ := Prod.mk.inj heq
  obtain ⟨rfl, -⟩ | ⟨-, -, -, j, hj, -, rfl, -⟩ := sysOpen_ok ho
  · exact neg_one_lt_zero.trans_le (Int.natCast_nonneg _)
  · exact Int.ofNat_lt.mpr hj

/-- **The tables are kept.** The counters stay in bounds in every run, and a call keeps to the tables
exactly if it is one that does not overrun them. -/
theorem tables_kept (h : Reach fsMachine WithinTables s) : s.Bounded ∧ ∀ c, KeepsToTables s c ↔
    WithinTables s c := by
  have hb : s.Bounded := by
    refine h.invariant ?_ fun s c s' hs _ hc => ?_
    · rintro s ⟨mem, table, rfl⟩
      exact ⟨fun _ => Nat.zero_le _, Nat.zero_le _⟩
    · obtain ⟨r, hc⟩ := after_eq_some.mp hc
      exact hs.call hc
  refine ⟨hb, fun c => ⟨fun hk => ?_, fun hw => ?_⟩⟩
  · by_contra hw
    obtain ⟨t, ht⟩ := call_overrun.mpr hw
    exact hk.table t ht
  · exact ⟨fun t ht => call_overrun.mp ⟨t, ht⟩ hw, fun r s' hc i hi => call_behind hc hi,
      fun r s' hc => hb.call hc,
      fun path r s' hp hc => descriptor_lt (hp ▸ hc)⟩

theorem boot_tables_kept : ∃ s, s.mounts = [⟨0x400100, 0x400200⟩] ∧ s.Bounded ∧
    ∀ c, KeepsToTables s c ↔ WithinTables s c := by
  obtain ⟨s, hs, hmounts⟩ := exists_reach WithinTables (f := FsState.mounts) (a := [⟨0x400100, 0x400200⟩])
    bootCalls (by decide +kernel)
  exact ⟨s, hmounts, tables_kept hs⟩

/-- Eight mounts fill the table, and the ninth one is written behind it. -/
theorem not_tables_kept : ¬ ∀ s, Reach fsMachine (fun _ _ => True) s → ∀ c, KeepsToTables s c := by
  intro h
  obtain ⟨s, hs, hn⟩ := exists_reach (fun _ _ => True)
    (f := fun s => call s (.mount (text "/tmp") 0x400200) matches .error (.overrun _)) (a := true)
    (bootCalls ++ List.replicate 7 (.mount (text "/tmp") 0x400200)) (by decide +kernel)
  cases hc : call s (.mount (text "/tmp") 0x400200) with
  | error e =>
    rw [hc] at hn
    cases e with
    | overrun t => exact (h s hs _).table t hc
    | _ => cases hn
  | ok r =>
    rw [hc] at hn
    cases hn

end SpatulaOS.Fs
