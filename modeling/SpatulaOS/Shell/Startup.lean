import SpatulaOS.Fs.OnHeap
import SpatulaOS.Shell.StoreRefinement

/-!
# The boot on the heap

The kernel sets its heap up and boots its file system on it. The three nodes that it makes are new
blocks (`boot_onHeap`), and the heap has blocks for them, whatever is in the memory
(`boot_comes_back`). So the kernel comes up with an empty store, and its files on a heap that only
grows (`kernel_boots`).
-/

namespace SpatulaOS.Shell

open ByteMemory Runs SpatulaOS.Fs SpatulaOS.Mm

variable {fs fs' : FsState} {u : Storage} {root dir tmp : Word} {k : ℕ}

theorem bootFs_of_calls (h : exec after (fdInit fs) (kernelCalls root dir tmp) = some fs') :
    bootFs fs root dir tmp = .ok fs' := by
  have hroot : after (fdInit fs) (.createInstance root) = some (ramfsCreateInstance (fdInit fs) root).2 := rfl
  have hset : after (ramfsCreateInstance (fdInit fs) root).2 (.setRoot root) = some (rootFs fs root) := rfl
  have hv : (rootFs fs root).vfsRoot = root := rfl
  have hops : ((rootFs fs root).nodes root).ops = true :=
    congrArg RamfsNode.ops (createInstance_nodes_self (fdInit fs) root)
  rw [kernelCalls, exec_cons hroot, exec_cons hset] at h
  obtain ⟨s₂, hcreate, h⟩ := Option.bind_eq_some_iff.mp h
  have htmp : after s₂ (.createInstance tmp) = some (ramfsCreateInstance s₂ tmp).2 := rfl
  rw [exec_cons htmp] at h
  obtain ⟨s₄, hmount, h⟩ := Option.bind_eq_some_iff.mp h
  obtain rfl := Option.some.inj h
  obtain ⟨r, hcall⟩ := after_eq_some.mp hcreate
  obtain ⟨⟨ret, s₂'⟩, hok, heq⟩ := map_eq_ok hcall
  obtain ⟨-, rfl⟩ := Prod.mk.inj heq
  obtain ⟨r', hcall'⟩ := after_eq_some.mp hmount
  obtain ⟨s₄', hok', heq'⟩ := map_eq_ok hcall'
  obtain ⟨-, rfl⟩ := Prod.mk.inj heq'
  unfold bootFs
  dsimp only
  rw [hv, hops, if_neg (by decide), hok]
  exact hok'

theorem rootMade_calls {heap : Heap} {mem : Mem} {table : ℕ → FileDesc} {t₁ t₂ : Storage} (hroot : root ≠ 0)
    (hc₁ : Storage.call k ⟨heap, fdInit { FsState.empty mem with fdTable := table }⟩
      (.createInstance root) = some t₁)
    (hc₂ : t₁.call k (.setRoot root) = some t₂) : RootMade t₂.fs root := by
  have hfs₁ := Option.some.inj (Storage.call_cases hc₁).1
  have hfs₂ := Option.some.inj (Storage.call_cases hc₂).1
  rw [← hfs₂, ← hfs₁]
  exact rootMade_rootFs mem table hroot

/-- After boot the file system is on the heap, and its nodes are different blocks. -/
theorem boot_onHeap {m : Mem} (hs : fsMachine.start fs)
    (hc : exec (Storage.call k) ⟨Mm.boot m, fs⟩ (kernelCalls root dir tmp) = some u) :
    BootedFresh u.fs ∧ ∃ A, OnHeap u A ∧ A.brk ≤ heapLo + 1280 := by
  have hb := heap_bounds
  have hbrk₀ : Arena.init.brk = heapLo := rfl
  have hafter := Storage.exec_after hc
  have hon₀ := OnHeap.start m hs
  obtain ⟨t₁, hc₁, hc⟩ := Option.bind_eq_some_iff.mp hc
  obtain ⟨t₂, hc₂, hc⟩ := Option.bind_eq_some_iff.mp hc
  obtain ⟨t₃, hc₃, hc⟩ := Option.bind_eq_some_iff.mp hc
  obtain ⟨t₄, hc₄, hc⟩ := Option.bind_eq_some_iff.mp hc
  obtain ⟨t₅, hc₅, hc⟩ := Option.bind_eq_some_iff.mp hc
  obtain rfl := Option.some.inj hc
  obtain ⟨A₁, hon₁, hle₁, hbrk₁, -, hnew₁⟩ := hon₀.boot_call hc₁ taken_node.le (by omega)
  obtain ⟨A₂, hon₂, hle₂, hbrk₂, -⟩ := hon₁.boot_call hc₂ (Nat.zero_le _) (by omega)
  obtain ⟨A₃, hon₃, hle₃, hbrk₃, -, hnew₃⟩ := hon₂.boot_call hc₃ (create_cost_le _ _ _ _ _) (by omega)
  obtain ⟨A₄, hon₄, hle₄, hbrk₄, -, hnew₄⟩ := hon₃.boot_call hc₄ taken_node.le (by omega)
  obtain ⟨A₅, hon₅, -, hbrk₅, -⟩ := hon₄.boot_call hc₅ (Nat.zero_le _) (by omega)
  obtain ⟨mem, table, rfl⟩ := hs
  have hroot : NewBlock Arena.init.brk root SIZEOF_NODE A₁.brk := hnew₁ _ rfl
  have htmp : NewBlock A₃.brk tmp SIZEOF_NODE A₄.brk := hnew₄ _ rfl
  have hmade := rootMade_calls hroot.ne_zero hc₁ hc₂
  have hdir : NewBlock A₂.brk dir SIZEOF_NODE A₃.brk := hnew₃ _ (if_pos (hmade.allocates hroot.ne_zero))
  exact ⟨⟨mem, table, root, dir, tmp, hroot.ne_zero, hdir.ne_zero, htmp.ne_zero, hroot.ne hdir hle₂,
    hroot.ne htmp (hle₂.trans hle₃), hdir.ne htmp le_rfl, bootFs_of_calls hafter⟩, A₅, hon₅, by omega⟩

theorem TmpMade.mount_eq (h : TmpMade fs root dir) (hf : Fresh fs tmp) (hrt : root ≠ tmp) (hdt : dir ≠ tmp) :
    ∃ fs', vfsMount (ramfsCreateInstance fs tmp).2 (text "/tmp") tmp = .ok fs' := by
  have hroot := h.rootNode.createInstance hf
  obtain ⟨hchildren, hname, hv, hm⟩ := h.createInstance hrt hdt
  rw [← hv] at hroot hchildren
  have hlook := lookup_tmp hroot h.dirNode.ne_zero hchildren hname
  have hmp : vfsCheckMount (ramfsCreateInstance fs tmp).2 dir = dir := by
    unfold vfsCheckMount
    rw [hm]
    rfl
  rw [hmp] at hlook
  rw [vfsMount_eq hlook h.dirNode.ne_zero, hm]
  exact ⟨_, if_pos (by decide)⟩

/-- The boot comes back, whatever is in the memory: the heap has blocks for the nodes. -/
theorem boot_comes_back (m mem : Mem) (table : ℕ → FileDesc) : ∃ root dir tmp u, ∀ k, 2 < k →
    exec (Storage.call k) ⟨Mm.boot m, fdInit { FsState.empty mem with fdTable := table }⟩
      (kernelCalls root dir tmp) =
      some u := by
  have hb := heap_bounds
  have hbrk₀ : Arena.init.brk = heapLo := rfl
  have hlen₀ : Arena.init.blocks.length = 0 := rfl
  have hroom {b : ℕ} {c : Call} {fs : FsState} (hbrk : b + 256 < heapHi)
      (hcost : c.cost fs ≤ 256) : b + c.cost fs < heapHi := by
    omega
  have hon₀ := OnHeap.start m ⟨mem, table, rfl⟩
  -- the root
  obtain ⟨root, t₁, hc₁⟩ := hon₀.exists_call .createInstance (fun _ => rfl) (fun _ => rfl)
    (hroom (by omega) taken_node.le) fun _ _ => ⟨_, rfl⟩
  obtain ⟨A₁, hon₁, -, hbrk₁, hlen₁, hnew₁⟩ := hon₀.boot_call (hc₁ 1 (by omega)) taken_node.le (by omega)
  have hroot : NewBlock Arena.init.brk root SIZEOF_NODE A₁.brk := hnew₁ _ rfl
  obtain ⟨t₂, ht₂⟩ : ∃ t₂ : Storage, t₂ = ⟨t₁.heap, { t₁.fs with vfsRoot := root }⟩ := ⟨_, rfl⟩
  have hc₂ (k : ℕ) : t₁.call k (.setRoot root) = some t₂ := ht₂ ▸ rfl
  have hon₂ : OnHeap t₂ A₁ := ht₂ ▸ hon₁.of_eq rfl rfl
  have hmade : RootMade t₂.fs root := rootMade_calls hroot.ne_zero (hc₁ 1 (by omega)) (hc₂ 1)
  -- the directory
  have hcreate (p : Word) : after t₂.fs (.create root (text "tmp") VFS_DIR p) =
      some (linked t₂.fs root (text "tmp") VFS_DIR p) :=
    after_eq_some.mpr ⟨⟨0, []⟩, by rw [call, hmade.create_eq hroot.ne_zero p]; rfl⟩
  obtain ⟨dir, t₃, hc₃⟩ := hon₂.exists_call (.create root (text "tmp") VFS_DIR) (fun _ => rfl) (fun _ => rfl)
    (hroom (by omega) (create_cost_le _ _ _ _ _)) fun p _ => ⟨_, hcreate p⟩
  obtain ⟨A₃, hon₃, hle₃, hbrk₃, hlen₃, hnew₃⟩ :=
    hon₂.boot_call (hc₃ 2 (by omega)) (create_cost_le _ _ _ _ _) (by omega)
  have hdir : NewBlock A₁.brk dir SIZEOF_NODE A₃.brk := hnew₃ _ (if_pos (hmade.allocates hroot.ne_zero))
  have htmade : TmpMade t₃.fs root dir := by
    rw [Option.some.inj ((Storage.call_cases (hc₃ 2 (by omega))).1.symm.trans (hcreate dir))]
    exact hmade.create hroot.ne_zero hdir.ne_zero (hroot.ne hdir le_rfl) (hmade.create_eq hroot.ne_zero dir)
  -- what is mounted there
  obtain ⟨tmp, t₄, hc₄⟩ := hon₃.exists_call .createInstance (fun _ => rfl) (fun _ => rfl)
    (hroom (by omega) taken_node.le) fun _ _ => ⟨_, rfl⟩
  obtain ⟨A₄, -, -, -, -, hnew₄⟩ := hon₃.boot_call (hc₄ 3 (by omega)) taken_node.le (by omega)
  have htmp : NewBlock A₃.brk tmp SIZEOF_NODE A₄.brk := hnew₄ _ rfl
  obtain ⟨fs, hmount⟩ := htmade.mount_eq (htmp.fresh hon₃.below) (hroot.ne htmp hle₃) (hdir.ne htmp le_rfl)
  have hc₅ (k : ℕ) : t₄.call k (.mount (text "/tmp") tmp) = some ⟨t₄.heap, fs⟩ := by
    refine Storage.call_quiet rfl (after_eq_some.mpr ⟨⟨0, []⟩, ?_⟩)
    rw [← Option.some.inj (Storage.call_cases (hc₄ 3 (by omega))).1, call, hmount]
    rfl
  refine ⟨root, dir, tmp, ⟨t₄.heap, fs⟩, fun k hk => ?_⟩
  rw [kernelCalls, exec, hc₁ k (by omega), Option.bind_some, exec, hc₂, Option.bind_some, exec,
    hc₃ k (by omega),
    Option.bind_some, exec, hc₄ k (by omega), Option.bind_some, exec, hc₅]
  rfl

/-- **The kernel boots its file system** on its heap, whatever is in the memory: the boot comes back
with different nodes, the store is empty, and the file system is on a heap that only grows. -/
theorem kernel_boots (m mem : Mem) (table : ℕ → FileDesc) : ∃ root dir tmp u, (∀ k, 2 < k →
    exec (Storage.call k) ⟨Mm.boot m, fdInit { FsState.empty mem with fdTable := table }⟩
      (kernelCalls root dir tmp) =
      some u) ∧
      BootedFresh u.fs ∧ (∃ dir tmp, Store.boot.Rep ⟨u.fs, u.fs.vfsRoot⟩ dir tmp) ∧
      ∃ A, OnHeap u A ∧ A.brk ≤ heapLo + 1280 := by
  obtain ⟨root, dir, tmp, u, hu⟩ := boot_comes_back m mem table
  obtain ⟨hboot, hon⟩ := boot_onHeap ⟨mem, table, rfl⟩ (hu 3 (by decide))
  exact ⟨root, dir, tmp, u, hu, hboot, hboot.rep, hon⟩

end SpatulaOS.Shell
