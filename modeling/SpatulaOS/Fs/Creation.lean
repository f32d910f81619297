import Mathlib.Data.List.Find
import SpatulaOS.Fs.Blocks
import SpatulaOS.Fs.WellFormed

/-!
# What `ramfs_create` does to names

`ramfs_create` puts the new node behind the other children of its parent, and
`ramfs_lookup` takes the first child of a name. So no path that leads to a node leads
anywhere else afterwards (`create_keeps_paths`). It does not look at the name: a name that the
parent has already, or one with a slash, is accepted too, and no path finds the new node by
it (`created_resolves_iff`).

The states are those of any run in which `kmalloc` does not answer with a node that is in
use (`ProperCall`). It may answer with `NULL`, so that a child, a root or what is mounted may
be `NULL`; nothing is asked of writes.
-/

namespace SpatulaOS.Fs

open ByteMemory Runs Tokens

variable {s s' : FsState} {c : Call} {r : Reply} {a b x y cwd current root parent answer flags : Word}
  {name path part : List Byte} {cs : List (List Byte)} {ret : ℤ}

/-! ### Trees -/

/-- `NULL`, or a node in use. -/
def FsState.Refers (s : FsState) (a : Word) : Prop := a = 0 ∨ s.Live a

instance (s : FsState) (a : Word) : Decidable (s.Refers a) := by unfold FsState.Refers; infer_instance

/-- `kmalloc` does not answer with a node in use, and the roots that are given are nodes or `NULL`. -/
def ProperCall (s : FsState) : Call → Prop
  | .createInstance answer => ¬ s.Live answer
  | .create parent _ _ answer => CreateAllocates s parent → ¬ s.Live answer
  | .setRoot root => s.Refers root
  | .mount _ fsRoot => s.Refers fsRoot
  | .sys _ => True

instance (s : FsState) : (c : Call) → Decidable (ProperCall s c)
  | .createInstance answer => inferInstanceAs (Decidable (¬ s.Live answer))
  | .create parent _ _ answer => inferInstanceAs (Decidable (CreateAllocates s parent → ¬ s.Live answer))
  | .setRoot root => inferInstanceAs (Decidable (s.Refers root))
  | .mount _ fsRoot => inferInstanceAs (Decidable (s.Refers fsRoot))
  | .sys _ => .isTrue trivial

/-- The invariant of the tree: what refers to nodes refers to nodes in use, or is `NULL`. -/
structure WellLinked (s : FsState) : Prop where
  self : ∀ a, s.Live a → (s.nodes a).fsPrivate = a
  ops : ∀ a, s.Live a → (s.nodes a).ops = true
  children : ∀ a, s.Live a → ∀ b ∈ (s.nodes a).children, s.Refers b
  root : s.Refers s.vfsRoot
  mounts : ∀ m ∈ s.mounts, s.Live m.mountpoint ∧ s.Refers m.root

theorem WellLinked.ne_zero (h : WellLinked s) (ha : s.Live a) : a ≠ 0 := by
  intro h0
  exact ha ((h.self a ha).trans h0)

theorem FsState.Refers.live (h : s.Refers a) (h0 : a ≠ 0) : s.Live a := h.resolve_left h0

/-- What is mounted on a node, or the node itself. -/
theorem WellLinked.checkMount (h : WellLinked s) (ha : s.Refers a) : s.Refers (vfsCheckMount s a) := by
  unfold vfsCheckMount
  cases hf : s.mounts.find? fun m => a = m.mountpoint with
  | none => exact ha
  | some m => exact (h.mounts m (List.mem_of_find?_eq_some hf)).2

theorem WellLinked.lookup_eq (h : WellLinked s) (hcur : s.Live current) (part : List Byte) :
    ramfsLookup s current part =
      .ok (((s.nodes current).children.find? fun child => strcmp (s.nodes child).name part = 0).getD 0) := by
  have h0 := h.ne_zero hcur
  unfold ramfsLookup
  rw [h.self current hcur, if_neg (not_or.mpr ⟨h0, h0⟩)]

theorem WellLinked.lookup (h : WellLinked s) (hcur : s.Live current)
    (hl : ramfsLookup s current part = .ok y) :
    s.Refers y := by
  rw [h.lookup_eq hcur] at hl
  cases hf : (s.nodes current).children.find? fun child => strcmp (s.nodes child).name part = 0 with
  | none =>
    rw [hf] at hl
    exact .inl (Except.ok.inj hl).symm
  | some child =>
    rw [hf] at hl
    obtain rfl : child = y := Except.ok.inj hl
    exact h.children current hcur child (List.mem_of_find?_eq_some hf)

theorem lookup_null (hl : ramfsLookup s 0 part = .ok y) : False := by
  rw [ramfsLookup, if_pos (.inl rfl)] at hl
  cases hl

theorem WellLinked.step (h : WellLinked s) (hcur : s.Refers current)
    (hs : step s current part = .ok (some x)) :
    s.Refers x := by
  obtain ⟨-, -, y, hl, hy⟩ := step_ok hs
  obtain rfl | hlive := hcur
  · exact (lookup_null hl).elim
  · split_ifs at hy
    rw [Option.some.inj hy]
    exact h.checkMount (h.lookup hlive hl)

/-- A walk from a node leads to a node or `NULL`. -/
theorem WellLinked.walk (h : WellLinked s) (hcur : s.Refers current) (hw : walk s current cs = .ok (some x)) :
    s.Refers x := by
  induction cs generalizing current with
  | nil =>
    rw [← Option.some.inj (Except.ok.inj hw)]
    exact hcur
  | cons part cs ih =>
    obtain ⟨o, hs, hw⟩ := bind_ok hw
    cases o with
    | none => cases hw
    | some y => exact ih (h.step hcur hs) hw

theorem WellLinked.resolve (h : WellLinked s) (hroot : s.Refers root) (hr : pathResolve s root path = .ok x) :
    s.Refers x := by
  by_cases h0 : x = 0
  · exact .inl h0
  · exact h.walk hroot ((pathResolve_eq_ok h0).mp hr)

/-! ### The calls -/

theorem WellLinked.sameTree (h : WellLinked s) (ht : SameTree s s') : WellLinked s' := by
  have hrefers (a : Word) : s'.Refers a ↔ s.Refers a := or_congr_right ht.live
  refine ⟨fun a ha => ?_, fun a ha => ?_, fun a ha b hb => (hrefers b).mpr ?_, ?_, fun m hm => ?_⟩
  · rw [(RamfsNode.eq_of_bare (ht.bare a)).2.2.2.1]
    exact h.self a (ht.live.mp ha)
  · rw [(RamfsNode.eq_of_bare (ht.bare a)).2.2.2.2.1]
    exact h.ops a (ht.live.mp ha)
  · rw [ht.children] at hb
    exact h.children a (ht.live.mp ha) b hb
  · rw [ht.vfsRoot, hrefers]
    exact h.root
  · rw [ht.mounts] at hm
    exact ⟨ht.live.mpr (h.mounts m hm).1, (hrefers _).mpr (h.mounts m hm).2⟩

/-- A new node, or none if `kmalloc` answered with `NULL`, that is linked into children of others at
most. -/
theorem WellLinked.addNode (h : WellLinked s) (hnew : ¬ s.Live answer)
    (hself : (s'.nodes answer).fsPrivate = answer)
    (hops : (s'.nodes answer).ops = true) (hnone : (s'.nodes answer).children = [])
    (hnodes : LinksOnly s s' answer) (hroot : s'.vfsRoot = s.vfsRoot)
    (hmounts : s'.mounts = s.mounts) : WellLinked s' := by
  have hmono {x : Word} (hx : s.Live x) : s'.Live x := hnodes.live hnew hx
  have hrefers : s'.Refers answer := by
    by_cases h0 : answer = 0
    · exact .inl h0
    · exact .inr (fun heq => h0 (hself.symm.trans heq))
  refine ⟨fun x hx => ?_, fun x hx => ?_, fun x hx b hb => ?_, ?_, fun m hm => ?_⟩
  · by_cases hxa : x = answer
    · rw [hxa]
      exact hself
    · obtain ⟨cs, -, heq⟩ := hnodes x hxa
      rw [heq]
      exact h.self x ((hnodes.live_iff hxa).mp hx)
  · by_cases hxa : x = answer
    · rw [hxa]
      exact hops
    · obtain ⟨cs, -, heq⟩ := hnodes x hxa
      rw [heq]
      exact h.ops x ((hnodes.live_iff hxa).mp hx)
  · by_cases hxa : x = answer
    · rw [hxa, hnone] at hb
      cases hb
    · obtain ⟨cs, hcs, heq⟩ := hnodes x hxa
      rw [heq] at hb
      obtain hb | hb := List.mem_append.mp hb
      · exact (h.children x ((hnodes.live_iff hxa).mp hx) b hb).imp_right hmono
      · rw [List.mem_singleton.mp (hcs hb)]
        exact hrefers
  · rw [hroot]
    exact h.root.imp_right hmono
  · rw [hmounts] at hm
    exact ⟨hmono (h.mounts m hm).1, (h.mounts m hm).2.imp_right hmono⟩

theorem WellLinked.createInstance (h : WellLinked s) (hnew : ¬ s.Live answer) :
    WellLinked (ramfsCreateInstance s answer).2 := by
  rw [ramfsCreateInstance_eq]
  have hnode (n : RamfsNode) : Function.update s.nodes answer n answer = n := Function.update_self _ _ _
  refine h.addNode hnew (by dsimp only; rw [hnode]) (by dsimp only; rw [hnode]) (by dsimp only; rw [hnode])
    (linksOnly_update s answer _) rfl rfl

theorem WellLinked.create (h : WellLinked s) (hnew : ¬ s.Live answer) (hparent : s.Live parent) :
    WellLinked (linked s parent name flags answer) := by
  have hne : parent ≠ answer := fun heq => hnew (heq ▸ hparent)
  have hpriv := h.self parent hparent
  have hnode := linked_nodes_answer name flags hpriv hne
  refine h.addNode hnew (by rw [hnode]; rfl) ?_ (by rw [hnode]; rfl) (linksOnly_linked hpriv hne) rfl rfl
  rw [hnode]
  show (Function.update s.nodes answer .zero parent).ops = true
  rw [Function.update_of_ne hne]
  exact h.ops parent hparent

/-- Every call keeps the invariant. -/
theorem WellLinked.after (h : WellLinked s) (hok : ProperCall s c) (hs : after s c = some s') :
    WellLinked s' := by
  obtain ⟨r, hcall⟩ := after_eq_some.mp hs
  cases c with
  | createInstance answer =>
    obtain ⟨-, rfl⟩ := Prod.mk.inj (Except.ok.inj hcall)
    exact h.createInstance hok
  | setRoot root =>
    obtain ⟨-, rfl⟩ := Prod.mk.inj (Except.ok.inj hcall)
    exact ⟨h.self, h.ops, h.children, hok, h.mounts⟩
  | create parent name flags answer =>
    obtain ⟨⟨ret, t⟩, hcreate, heq⟩ := map_eq_ok hcall
    obtain ⟨-, rfl⟩ := Prod.mk.inj heq
    obtain ⟨-, rfl⟩ | ⟨hparent, hpriv, hroom, -, -, rfl⟩ := ramfsCreate_cases hcreate
    · exact h
    · exact h.create (hok ⟨hparent, hpriv, hroom⟩) hpriv
  | mount path fsRoot =>
    obtain ⟨t, hmount, heq⟩ := map_eq_ok hcall
    obtain ⟨-, rfl⟩ := Prod.mk.inj heq
    obtain ⟨-, mp, hl, hmp, rfl⟩ := vfsMount_cases hmount
    refine ⟨h.self, h.ops, h.children, h.root, fun m hm => ?_⟩
    obtain hm | hm := List.mem_append.mp hm
    · exact h.mounts m hm
    · rw [List.mem_singleton.mp hm]
      unfold vfsLookup at hl
      split_ifs at hl
      · exact absurd (Except.ok.inj hl).symm hmp
      · exact ⟨(h.resolve h.root hl).live hmp, hok⟩
  | sys c => exact h.sameTree (sysCall_sameTree hcall)

theorem wellLinked_of_reach (hs : Reach fsMachine ProperCall s) : WellLinked s := by
  refine hs.invariant (I := WellLinked) ?_ fun s c s' hi hok hst => hi.after hok hst
  rintro s ⟨mem, table, rfl⟩
  have hdead (a : Word) : ¬ (fdInit { FsState.empty mem with fdTable := table }).Live a := fun h => h rfl
  exact ⟨fun a ha => absurd ha (hdead a), fun a ha => absurd ha (hdead a),
    fun a ha => absurd ha (hdead a), .inl rfl,
    nofun⟩

/-! ### Lookups behind `ramfs_create` -/

/-- A lookup finds what it found before, or nothing and then the new node in its parent. -/
theorem WellLinked.lookup_linked (h : WellLinked s) (name : List Byte) (flags : Word)
    (hparent : s.Live parent)
    (hnew : ¬ s.Live answer) (h0 : answer ≠ 0) (hcur : s.Live current) (part : List Byte) :
    ramfsLookup (linked s parent name flags answer) current part =
      .ok (((s.nodes current).children.find? fun child => strcmp (s.nodes child).name part = 0).getD
        (if current = parent ∧ strcmp name part = 0 then answer else 0)) := by
  have hne : parent ≠ answer := fun heq => hnew (heq ▸ hparent)
  have hcne : current ≠ answer := fun heq => hnew (heq ▸ hcur)
  have hpriv := h.self parent hparent
  have hname (a : Word) (ha : a ≠ answer) :
      ((linked s parent name flags answer).nodes a).name = (s.nodes a).name := by
    by_cases hap : a = parent
    · rw [hap, linked_nodes_parent name flags hpriv hne]
    · rw [linked_nodes_of_ne name flags hpriv ha hap]
  -- the old children keep their names
  have hold : ((s.nodes current).children.find? fun child =>
      strcmp ((linked s parent name flags answer).nodes child).name part = 0) =
        (s.nodes current).children.find? fun child => strcmp (s.nodes child).name part = 0 := by
    refine List.find?_congr fun child hchild => ?_
    rw [hname child]
    rintro rfl
    exact (h.children current hcur child hchild).elim h0 hnew
  have hlive : (linked s parent name flags answer).Live current := by
    by_cases hcp : current = parent
    · rw [FsState.Live, hcp, linked_nodes_parent name flags hpriv hne]
      exact hparent
    · rw [FsState.Live, linked_nodes_of_ne name flags hpriv hcne hcp]
      exact hcur
  rw [(h.create hnew hparent).lookup_eq hlive]
  by_cases hcp : current = parent
  · subst hcp
    have hlast : strcmp ((linked s current name flags answer).nodes answer).name part = strcmp name part := by
      rw [linked_nodes_answer name flags hpriv hne]
      rfl
    rw [linked_nodes_parent name flags hpriv hne, List.find?_append, hold, List.find?_singleton, hlast]
    cases (s.nodes current).children.find? fun child => strcmp (s.nodes child).name part = 0 with
    | some child => rfl
    | none =>
      by_cases hmatch : strcmp name part = 0
      · rw [if_pos (decide_eq_true hmatch), if_pos ⟨rfl, hmatch⟩]
        rfl
      · rw [if_neg (by simpa using hmatch), if_neg fun h => hmatch h.2]
        rfl
  · rw [linked_nodes_of_ne name flags hpriv hcne hcp, hold, if_neg fun h => hcp h.1]

theorem WellLinked.checkMount_new (h : WellLinked s) (hnew : ¬ s.Live answer) :
    vfsCheckMount s answer = answer := by
  unfold vfsCheckMount
  rw [List.find?_eq_none.mpr]
  intro m hm heq
  rw [of_decide_eq_true heq] at hnew
  exact hnew (h.mounts m hm).1

/-- A step is the one it was before, or it found nothing and now finds the new node by its name. -/
theorem WellLinked.step_linked (h : WellLinked s) (name : List Byte) (flags : Word) (hparent : s.Live parent)
    (hnew : ¬ s.Live answer) (h0 : answer ≠ 0) (hcur : s.Refers current) (part : List Byte) :
    Fs.step (linked s parent name flags answer) current part = Fs.step s current part ∨
      Fs.step s current part = .ok none ∧ strcmp name part = 0 ∧
        Fs.step (linked s parent name flags answer) current part = .ok (some answer) := by
  have hne : parent ≠ answer := fun heq => hnew (heq ▸ hparent)
  have hpriv := h.self parent hparent
  have hmount (a : Word) : vfsCheckMount (linked s parent name flags answer) a = vfsCheckMount s a := rfl
  obtain rfl | hlive := hcur
  -- `NULL` is not the new node
  · have hops : ((linked s parent name flags answer).nodes 0).ops = (s.nodes 0).ops := by
      rw [linked_nodes_of_ne name flags hpriv h0.symm (h.ne_zero hparent).symm]
    have hpanic (t : FsState) : ramfsLookup t 0 part = .error (.panic "Lookup: NULL node") :=
      if_pos (.inl rfl)
    left
    unfold Fs.step
    rw [hops, hpanic, hpanic]
    rfl
  · have hcne : current ≠ answer := fun heq => hnew (heq ▸ hlive)
    have hops : ((linked s parent name flags answer).nodes current).ops = (s.nodes current).ops := by
      by_cases hcp : current = parent
      · rw [hcp, linked_nodes_parent name flags hpriv hne]
      · rw [linked_nodes_of_ne name flags hpriv hcne hcp]
    by_cases hshort : part.length < NAME_SIZE
    swap
    · left
      unfold Fs.step
      rw [if_pos (Nat.le_of_not_lt hshort), if_pos (Nat.le_of_not_lt hshort)]
    have hafter := step_eq hshort (hops.trans (h.ops current hlive))
      (h.lookup_linked name flags hparent hnew h0 hlive part)
    have hbefore := step_eq hshort (h.ops current hlive) (h.lookup_eq hlive part)
    rw [hafter, hbefore, hmount]
    cases (s.nodes current).children.find? fun child => strcmp (s.nodes child).name part = 0 with
    | some child => exact .inl rfl
    | none =>
      by_cases hmatch : current = parent ∧ strcmp name part = 0
      · right
        rw [if_pos hmatch, Option.getD_none, Option.getD_none, if_neg h0, h.checkMount_new hnew]
        exact ⟨rfl, hmatch.2, rfl⟩
      · left
        rw [if_neg hmatch]

/-- A walk is the one it was before, or it led nowhere and now comes to the new node by its name. -/
theorem WellLinked.walk_linked (h : WellLinked s) (name : List Byte) (flags : Word) (hparent : s.Live parent)
    (hnew : ¬ s.Live answer) (h0 : answer ≠ 0) (hcur : s.Refers current) (cs : List (List Byte)) :
    Fs.walk (linked s parent name flags answer) current cs = Fs.walk s current cs ∨
      Fs.walk s current cs = .ok none ∧ ∃ ds part es, cs = ds ++ part :: es ∧ strcmp name part = 0 ∧
        Fs.walk (linked s parent name flags answer) current (ds ++ [part]) = .ok (some answer) := by
  induction cs generalizing current with
  | nil => exact .inl rfl
  | cons part cs ih =>
    rw [Fs.walk, Fs.walk]
    obtain heq | ⟨hnone, hmatch, hfound⟩ := h.step_linked name flags hparent hnew h0 hcur part
    · rw [heq]
      cases hs : Fs.step s current part with
      | error e => exact .inl rfl
      | ok o =>
        cases o with
        | none => exact .inl rfl
        | some next =>
          refine (ih (h.step hcur hs)).imp_right ?_
          rintro ⟨hnone, ds, part', es, rfl, hmatch, hw⟩
          refine ⟨hnone, part :: ds, part', es, rfl, hmatch, ?_⟩
          rw [List.cons_append, Fs.walk, heq, hs]
          exact hw
    · refine .inr ⟨?_, [], part, cs, rfl, hmatch, ?_⟩
      · rw [hnone]
        rfl
      · rw [List.nil_append, Fs.walk, hfound]
        rfl

/-! ### Paths that are there -/

/-- The path comes to `a` on its way. -/
def PassesThrough (s : FsState) (root : Word) (path : List Byte) (a : Word) : Prop :=
  ∃ ds part es, components path = ds ++ part :: es ∧ walk s root (ds ++ [part]) = .ok (some a)

/-- **`ramfs_create` keeps the paths**: one that leads to a node leads there afterwards, and one that leads
to a node afterwards and did not before comes to the new node on its way. -/
theorem create_keeps_paths (hs : Reach fsMachine ProperCall s) (hroot : s.Live root) (h0 : answer ≠ 0)
    (hnew : ¬ s.Live answer) (hcreate : ramfsCreate s parent name flags answer = .ok (ret, s'))
    (path : List Byte) :
    (∀ x, x ≠ 0 → pathResolve s root path = .ok x → pathResolve s' root path = .ok x) ∧
      ∀ y, y ≠ 0 → pathResolve s' root path = .ok y →
        pathResolve s root path = .ok y ∨ PassesThrough s' root path answer := by
  have h := wellLinked_of_reach hs
  obtain ⟨-, rfl⟩ | ⟨-, hparent, -, -, -, rfl⟩ := ramfsCreate_cases hcreate
  · exact ⟨fun x _ hx => hx, fun y _ hy => .inl hy⟩
  obtain heq | ⟨hnone, ds, part, es, hparts, -, hw⟩ := h.walk_linked name flags hparent hnew h0
    (.inr hroot) (components path)
  · have hsame : pathResolve (linked s parent name flags answer) root path = pathResolve s root path := by
      rw [pathResolve_eq, pathResolve_eq, heq]
    rw [hsame]
    exact ⟨fun x _ hx => hx, fun y _ hy => .inl hy⟩
  · refine ⟨fun x hx0 hx => ?_, fun y _ _ => .inr ⟨ds, part, es, hparts, hw⟩⟩
    rw [pathResolve_eq_ok hx0, hnone] at hx
    cases hx

/-- A file is made beside the directory "tmp", which still leads to what is mounted on it. -/
theorem create_keeps_tmp : ∃ s s', Reach fsMachine ProperCall s ∧
    ramfsCreate s 0x400018 (text "f") VFS_FILE 0x400300 = .ok (0, s') ∧
    pathResolve s' 0x400018 (text "tmp") = .ok 0x400200 := by
  obtain ⟨s, hs, heq⟩ := exists_reach ProperCall bootCalls (f := fun s =>
    (decide (s.Live 0x400018 ∧ ¬ s.Live 0x400300), pathResolve s 0x400018 (text "tmp"),
      (ramfsCreate s 0x400018 (text "f") VFS_FILE 0x400300).map Prod.fst)) (a := (true, .ok 0x400200, .ok 0))
    (by decide +kernel)
  obtain ⟨hstate, heq⟩ := Prod.mk.inj heq
  obtain ⟨hroot, hnew⟩ := of_decide_eq_true hstate
  obtain ⟨htmp, hret⟩ := Prod.mk.inj heq
  obtain ⟨⟨ret, s'⟩, hcreate, rfl⟩ := map_eq_ok hret
  have hkeeps := create_keeps_paths hs hroot (by decide) hnew hcreate (text "tmp")
  exact ⟨s, s', hs, hcreate, hkeeps.1 _ (by decide) htmp⟩

/-! ### Paths to the new node -/

/-- The new node is found by its name, and it is of the kind that was asked for. -/
structure CreatedResolves (s' : FsState) (cwd : Word) (name : List Byte) (flags answer : Word) : Prop where
  ne_null : answer ≠ 0
  resolves : pathResolve s' cwd name = .ok answer
  flags : (s'.nodes answer).flags = flags

/-- The condition: `kmalloc` succeeded, and the name has no slash and is not the name of a child. -/
def NewName (s : FsState) (cwd : Word) (name : List Byte) (answer : Word) : Prop :=
  answer ≠ 0 ∧ SLASH ∉ name ∧ ∀ child ∈ (s.nodes cwd).children, strcmp (s.nodes child).name name ≠ 0

theorem walk_single (s : FsState) (current : Word) (part : List Byte) :
    walk s current [part] = step s current part := by
  rw [walk]
  cases step s current part with
  | error e => rfl
  | ok o =>
    cases o with
    | none => rfl
    | some y => rfl

/-- The new node is found only by its own name, and behind no other child of this name. -/
theorem WellLinked.newName (h : WellLinked s) (hcwd : s.Live cwd) (hname : name ≠ []) (hnul : 0 ∉ name)
    (hnew : ¬ s.Live answer) (hc : CreatedResolves (linked s cwd name flags answer) cwd name flags answer) :
    NewName s cwd name answer := by
  have h0 := hc.ne_null
  have hw := (pathResolve_eq_ok h0).mp hc.resolves
  obtain heq | ⟨hnone, ds, part, es, hparts, hmatch, -⟩ := h.walk_linked name flags hcwd hnew h0 (.inr hcwd)
    (components name)
  · rw [heq] at hw
    exact absurd ((h.walk (.inr hcwd) hw).live h0) hnew
  have hpart : part ∈ components name := by
    rw [hparts]
    exact List.mem_append_right _ List.mem_cons_self
  obtain rfl : name = part := eq_of_strcmp hnul (fun h => hnul (mem_of_mem_tokens hpart h)) hmatch
  have hslash : SLASH ∉ name := notMem_of_mem_tokens hpart
  refine ⟨h0, hslash, ?_⟩
  rw [show components name = [name] from tokens_of_notMem hslash hname, walk_single] at hw hnone
  obtain ⟨hshort, hops, y, hl, hy⟩ := step_ok hw
  rw [h.lookup_linked name flags hcwd hnew h0 hcwd] at hl
  obtain rfl := Except.ok.inj hl
  rw [step_eq hshort (h.ops cwd hcwd) (h.lookup_eq hcwd name)] at hnone
  cases hf : (s.nodes cwd).children.find? fun child => strcmp (s.nodes child).name name = 0 with
  | none => exact fun child hchild hsame => List.find?_eq_none.mp hf child hchild (decide_eq_true hsame)
  | some child =>
    -- an older child of this name comes first
    rw [hf] at hy hnone
    by_cases hchild : child = 0
    · rw [Option.getD_some, if_pos hchild] at hy
      cases hy
    · rw [Option.getD_some, if_neg hchild] at hnone
      cases hnone

theorem WellLinked.createdResolves (h : WellLinked s) (hcwd : s.Live cwd) (hname : name ≠ [])
    (hshort : name.length < NAME_SIZE) (hnew : ¬ s.Live answer) (hc : NewName s cwd name answer) :
    CreatedResolves (linked s cwd name flags answer) cwd name flags answer := by
  obtain ⟨h0, hslash, hfree⟩ := hc
  have hne : cwd ≠ answer := fun heq => hnew (heq ▸ hcwd)
  have hpriv := h.self cwd hcwd
  have hnode := linked_nodes_answer name flags hpriv hne
  refine ⟨h0, ?_, by rw [hnode]; rfl⟩
  have hnone : ((s.nodes cwd).children.find? fun child => strcmp (s.nodes child).name name = 0) = none :=
    List.find?_eq_none.mpr fun child hchild hsame => hfree child hchild (of_decide_eq_true hsame)
  have hlookup := h.lookup_linked name flags hcwd hnew h0 hcwd name
  rw [hnone, if_pos ⟨rfl, strcmp_self name⟩] at hlookup
  have hops : ((linked s cwd name flags answer).nodes cwd).ops = true := by
    rw [linked_nodes_parent name flags hpriv hne]
    exact h.ops cwd hcwd
  refine (resolve_single (tokens_of_notMem hslash hname) hshort hops hlookup).trans ?_
  rw [Option.getD_none, if_neg h0]
  exact congrArg _ (h.checkMount_new hnew)

/-- **When `create` reports success, the name leads to the new node exactly if it is a new name
without a slash** and `kmalloc` succeeded. -/
theorem created_resolves_iff (hs : Reach fsMachine ProperCall s) (hcwd : s.Live cwd) (hname : name ≠ [])
    (hnul : 0 ∉ name) (hnew : ¬ s.Live answer) (hcreate : ramfsCreate s cwd name flags answer = .ok (0, s')) :
    CreatedResolves s' cwd name flags answer ↔ NewName s cwd name answer := by
  have h := wellLinked_of_reach hs
  obtain ⟨hret, -⟩ | ⟨-, -, -, hshort, -, rfl⟩ := ramfsCreate_cases hcreate
  · cases hret
  · exact ⟨h.newName hcwd hname hnul hnew, h.createdResolves hcwd hname hshort hnew⟩

/-- A file with a name of its own. -/
theorem created_resolves_file : ∃ s s', Reach fsMachine ProperCall s ∧
    ramfsCreate s 0x400018 (text "f") VFS_FILE 0x400300 = .ok (0, s') ∧
    CreatedResolves s' 0x400018 (text "f") VFS_FILE 0x400300 := by
  obtain ⟨s, hs, heq⟩ := exists_reach ProperCall bootCalls (f := fun s =>
    (decide (s.Live 0x400018 ∧ ¬ s.Live 0x400300),
      (s.nodes 0x400018).children.all fun child => strcmp (s.nodes child).name (text "f") ≠ 0,
      (ramfsCreate s 0x400018 (text "f") VFS_FILE 0x400300).map Prod.fst)) (a := (true, true, .ok 0))
    (by decide +kernel)
  obtain ⟨hstate, heq⟩ := Prod.mk.inj heq
  obtain ⟨hroot, hnew⟩ := of_decide_eq_true hstate
  obtain ⟨hfree, hret⟩ := Prod.mk.inj heq
  obtain ⟨⟨ret, s'⟩, hcreate, rfl⟩ := map_eq_ok hret
  have hname : NewName s 0x400018 (text "f") 0x400300 :=
    ⟨by decide, by decide, fun child hchild => of_decide_eq_true (List.all_eq_true.mp hfree child hchild)⟩
  exact ⟨s, s', hs, hcreate, (created_resolves_iff hs hroot (by decide) (by decide) hnew hcreate).mpr hname⟩

/-- A second "tmp" is reported as made, but "tmp" leads to what is mounted on the first one. -/
theorem not_created_resolves : ¬ ∀ s cwd name flags answer s', Reach fsMachine ProperCall s → s.Live cwd →
    name ≠ [] → name.length < NAME_SIZE → 0 ∉ name → 0x20 ∉ name → Fresh s answer → ¬ s.Live answer →
    ramfsCreate s cwd name flags answer = .ok (0, s') → CreatedResolves s' cwd name flags answer := by
  intro hall
  obtain ⟨s, hs, heq⟩ := exists_reach ProperCall bootCalls (f := fun s =>
    (decide (s.Live 0x400018 ∧ Fresh s 0x400300 ∧ ¬ s.Live 0x400300),
      (ramfsCreate s 0x400018 (text "tmp") VFS_FILE 0x400300).map fun r =>
        (r.1, pathResolve r.2 0x400018 (text "tmp"))))
    (a := (true, .ok (0, .ok 0x400200))) (by decide +kernel)
  obtain ⟨hstate, hret⟩ := Prod.mk.inj heq
  obtain ⟨hroot, hfresh, hnew⟩ := of_decide_eq_true hstate
  obtain ⟨⟨ret, s'⟩, hcreate, heq⟩ := map_eq_ok hret
  obtain ⟨rfl, hpath⟩ := Prod.mk.inj heq
  have hresolves := (hall s _ _ _ _ s' hs hroot (by decide) (by decide) (by decide) (by decide) hfresh hnew
    hcreate).resolves
  exact absurd (Except.ok.inj (hpath.symm.trans hresolves)) (by decide)

end SpatulaOS.Fs
