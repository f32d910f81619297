import SpatulaOS.Fs.OnHeap
import SpatulaOS.Shell.Desktop

/-!
# The shell on the heap

The shell's files with the allocator under them: each request of a line is answered by `kmalloc`.
What `write` takes from the heap is bounded by its words (`loopCost`), and so is what a line takes
(`lineCost`). The calls of a line that comes back had new blocks for answers (`Writing.loop`), and
while there is room above the break there are answers with which it comes back
(`Writing.exists_loop`). So the assumption of the refinement of the store on `kmalloc` holds.
-/

namespace SpatulaOS.Shell

open ByteMemory Tokens Runs SpatulaOS.Fs SpatulaOS.Mm

/-! ### What a line takes -/

/-- What a buffer of `n` bytes takes from the heap. -/
def bufferCost (n : ℕ) : ℕ := 24 + (n + 7) / 8 * 8

/-- What the loop of `cmd_write` takes at most, from an offset on. -/
def loopCost : ℕ → List (List Byte) → ℕ
  | _, [] => 0
  | off, [arg] => bufferCost (off + arg.length)
  | off, arg :: args =>
    bufferCost (off + arg.length) + (bufferCost (off + arg.length + 1) + loopCost (off + arg.length + 1) args)

/-- What a command takes at most. -/
def Command.cost (c : Command) (args : List (List Byte)) : ℕ :=
  match c with
  | .mk | .mkr => 256
  | .write => loopCost 0 args.tail
  | _ => 0

/-- What a line takes at most. -/
def lineCost (argv : List (List Byte)) : ℕ :=
  match argv with
  | [] => 0
  | name :: args =>
    match commandOf name with
    | some c => c.cost args
    | none => 0

variable {s₀ u v : FsState} {t t' : Storage} {ref : Files Word} {fd : ℤ} {a p answer : Word} {off k b b' : ℕ}
  {str : List Byte} {args argv : List (List Byte)} {A : Arena} {answers : ℕ → Word} {σ : Store}
  {s s' : Session}
  {dir tmp : Word}

theorem loopCost_cons_cons (off : ℕ) (arg arg' : List Byte) (args : List (List Byte)) :
    loopCost off (arg :: arg' :: args) = bufferCost (off + arg.length) +
      (bufferCost (off + arg.length + 1) + loopCost (off + arg.length + 1) (arg' :: args)) := by
  rw [loopCost]
  exact List.cons_ne_nil _ _

/-! ### Strings that are written -/

/-- A descriptor is at an offset of a file. -/
structure Writing (s₀ : FsState) (t : Storage) (ref : Files Word) (fd : ℤ) (a : Word) (off : ℕ) : Prop where
  refines : Refines s₀ t.fs ref
  desc : ref.desc fd = some (a, off)
  file : (nameSpace s₀).isDir a = false
  off_le : off ≤ (ref.contents a).length

theorem Writing.state (h : Writing s₀ t ref fd a off) : validFd t.fs fd ∧ (t.fs.fdTable fd.toNat).node = a ∧
    (t.fs.fdTable fd.toNat).offset.toNat = off ∧ a ≠ 0 ∧ (t.fs.nodes a).fsPrivate = a ∧
      (t.fs.nodes a).flags &&& VFS_DIR = 0 := by
  have hfd : validFd t.fs fd := by
    by_contra hfd
    cases (h.refines.represents.desc_none hfd).symm.trans h.desc
  obtain ⟨hnode, hoff⟩ := Prod.mk.inj (Option.some.inj ((h.refines.represents.desc hfd).symm.trans h.desc))
  have hlive : t.fs.Live a := hnode ▸ h.refines.wf.live_desc hfd
  have hdir := of_decide_eq_false h.file
  rw [not_not] at hdir
  refine ⟨hfd, hnode, hoff, h.refines.wf.ne_zero hlive, (h.refines.wf.node a hlive).self, ?_⟩
  rw [(RamfsNode.eq_of_bare (h.refines.tree.bare a)).2.1]
  exact hdir

/-- The request for a string, if the file has to grow. -/
theorem Writing.request (h : Writing s₀ t ref fd a off) (str : List Byte) (p : Word) :
    (writeCall fd str p).request t.fs =
    if Grows t.fs a (t.fs.fdTable fd.toNat).offset (BitVec.ofNat 32 str.length) then
      some ((t.fs.fdTable fd.toNat).offset + BitVec.ofNat 32 str.length) else none := by
  obtain ⟨hfd, hnode, -, h0, hpriv, hfile⟩ := h.state
  have hiff : SysWriteAllocates t.fs fd (BitVec.ofNat 32 str.length) ↔
      Grows t.fs a (t.fs.fdTable fd.toNat).offset (BitVec.ofNat 32 str.length) := by
    unfold SysWriteAllocates WriteAllocates
    rw [hnode, hpriv]
    exact ⟨fun hs => hs.2.2.2.2, fun hg => ⟨hfd, h0, h0, hfile, hg⟩⟩
  rw [writeCall, Call.request]
  simp only [hiff]

theorem Writing.cost_le (h : Writing s₀ t ref fd a off) (hlt : off + str.length < 2 ^ 31) (p : Word) :
    (writeCall fd str p).cost t.fs ≤ bufferCost (off + str.length) := by
  obtain ⟨-, -, hoff, -⟩ := h.state
  rw [Call.cost, h.request]
  split_ifs
  · have hsum : ((t.fs.fdTable fd.toNat).offset + BitVec.ofNat 32 str.length).toNat = off + str.length := by
      rw [BitVec.toNat_add, BitVec.toNat_ofNat, hoff]
      omega
    show taken _ ≤ _
    rw [taken, rounded, hsum, bufferCost]
  · exact Nat.zero_le _

/-- A new block is a fresh buffer for the string. -/
theorem Writing.fresh (h : Writing s₀ t ref fd a off) (hbelow : Below t.fs b) (str : List Byte)
    (hb' : b' ≤ 2 ^ 32)
    (hnew : ∀ n, (writeCall fd str p).request t.fs = some n → NewBlock b p n b') :
    FreshWrite t.fs fd (BitVec.ofNat 32 str.length) p := by
  obtain ⟨-, hnode, -⟩ := h.state
  unfold FreshWrite
  dsimp only
  rw [hnode]
  intro hg
  have hrequest := h.request str p
  rw [if_pos hg] at hrequest
  exact (hnew _ hrequest).freshBuffer hbelow hb'

theorem Writing.next (h : Writing s₀ t ref fd a off) (hlt : off + str.length < 2 ^ 31)
    (hfresh : FreshWrite t.fs fd (BitVec.ofNat 32 str.length) p) : ∃ s, writeString t.fs fd str p = .ok s ∧
      ∀ heap, Writing s₀ ⟨heap, s⟩ (lay ref fd a off str) fd a (off + str.length) := by
  obtain ⟨s, hs, hrefines⟩ := writeString_lays h.refines h.desc h.file h.off_le hlt hfresh
  refine ⟨s, hs, fun heap => ⟨hrefines, desc_lay h.desc str, h.file, ?_⟩⟩
  unfold lay
  dsimp only
  rw [Function.update_self, length_overlay h.off_le]
  exact le_max_right _ _

/-- A string that was written had a new block if it needed one. -/
theorem Writing.call (h : Writing s₀ t ref fd a off) (hon : OnHeap t A) (hlt : off + str.length < 2 ^ 31)
    (hroom : A.brk + bufferCost (off + str.length) < heapHi) (hc : t.call k (writeCall fd str p) = some t') :
    FreshWrite t.fs fd (BitVec.ofNat 32 str.length) p ∧ writeString t.fs fd str p = .ok t'.fs ∧
      Writing s₀ t' (lay ref fd a off str) fd a (off + str.length) ∧ ∃ A', OnHeap t' A' ∧
        A'.brk ≤ A.brk + bufferCost (off + str.length) ∧ A'.blocks.length ≤ A.blocks.length + 1 := by
  have hb := heap_bounds
  have hcost := h.cost_le hlt p
  obtain ⟨A', hon', -, hbrk, hlen, hnew⟩ := hon.call (by omega) hc
  have hlt' := hon'.brk_lt
  have hb' : A'.brk ≤ 2 ^ 32 := by omega
  have hfresh := h.fresh hon.below str hb' hnew
  obtain ⟨s, hs, hnext⟩ := h.next hlt hfresh
  obtain ⟨hafter, -⟩ := Storage.call_cases hc
  obtain rfl := Option.some.inj ((writeString_fs hs).symm.trans hafter)
  exact ⟨hfresh, hs, hnext t'.heap, A', hon', by omega, hlen⟩

/-- While there is room, a string can be written. -/
theorem Writing.exists_call (h : Writing s₀ t ref fd a off) (str : List Byte) (hon : OnHeap t A)
    (hlt : off + str.length < 2 ^ 31)
    (hroom : A.brk + bufferCost (off + str.length) < heapHi) : ∃ p t', ∀ k, A.blocks.length < k →
      t.call k (writeCall fd str p) = some t' := by
  have hcost := h.cost_le hlt 0
  refine hon.exists_call (writeCall fd str) (fun p => ?_) (fun p => rfl) (by omega) fun p hnew => ?_
  · rw [h.request, h.request]
  · have hb' : heapHi ≤ 2 ^ 32 := by decide
    have hfresh := h.fresh hon.below str hb' fun n hn => hnew n (by rw [← hn, h.request, h.request])
    obtain ⟨s, hs, -⟩ := h.next hlt hfresh
    exact ⟨s, writeString_fs hs⟩

/-! ### The loop of `write` -/

/-- The strings that were written had new blocks. -/
theorem Writing.loop (h : Writing s₀ t ref fd a off) (hon : OnHeap t A)
    (hlt : off + (joined args).length < 2 ^ 31)
    (hroom : A.brk + loopCost off args < heapHi)
    (he : exec (Storage.call k) t (loopCalls fd args answers) = some t') :
    FreshWrites t.fs fd args answers ∧ ∃ A', OnHeap t' A' ∧ A'.brk ≤ A.brk + loopCost off args := by
  induction args generalizing t ref off A answers with
  | nil =>
    obtain rfl := Option.some.inj he
    exact ⟨trivial, A, hon, Nat.le_add_right _ _⟩
  | cons arg args ih =>
    cases args with
    | nil =>
      rw [joined_singleton] at hlt
      obtain ⟨t₁, hc, he⟩ := Option.bind_eq_some_iff.mp he
      obtain rfl := Option.some.inj he
      obtain ⟨hfresh, -, -, A', hon', hbrk, -⟩ := h.call hon hlt hroom hc
      exact ⟨hfresh, A', hon', hbrk⟩
    | cons arg' args =>
      rw [joined_cons_cons, List.length_append, List.length_append, List.length_singleton] at hlt
      rw [loopCost_cons_cons] at hroom ⊢
      obtain ⟨t₁, hc₁, he⟩ := Option.bind_eq_some_iff.mp he
      obtain ⟨t₂, hc₂, he⟩ := Option.bind_eq_some_iff.mp he
      obtain ⟨hfresh₁, hs₁, h₁, A₁, hon₁, hbrk₁, -⟩ := h.call hon (by omega) (by omega) hc₁
      have hspace : off + arg.length + [SPACE].length = off + arg.length + 1 := rfl
      obtain ⟨hfresh₂, hs₂, h₂, A₂, hon₂, hbrk₂, -⟩ := h₁.call hon₁ (by omega) (by rw [hspace]; omega) hc₂
      rw [hspace] at h₂ hbrk₂
      obtain ⟨hfresh, A', hon', hbrk⟩ := ih h₂ hon₂ (by omega) (by omega) he
      refine ⟨⟨hfresh₁, fun s₁ hw₁ => ?_⟩, A', hon', by omega⟩
      obtain rfl := Except.ok.inj (hs₁.symm.trans hw₁)
      refine ⟨hfresh₂, fun s₂ hw₂ => ?_⟩
      obtain rfl := Except.ok.inj (hs₂.symm.trans hw₂)
      exact hfresh

/-- While there is room, the strings can be written. -/
theorem Writing.exists_loop (h : Writing s₀ t ref fd a off) (hon : OnHeap t A)
    (hlt : off + (joined args).length < 2 ^ 31)
    (hroom : A.brk + loopCost off args < heapHi) : ∃ answers t', ∀ k, A.blocks.length + 2 * args.length < k →
      exec (Storage.call k) t (loopCalls fd args answers) = some t' := by
  induction args generalizing t ref off A with
  | nil => exact ⟨fun _ => 0, t, fun _ _ => rfl⟩
  | cons arg args ih =>
    cases args with
    | nil =>
      rw [joined_singleton] at hlt
      obtain ⟨p, t', hc⟩ := h.exists_call arg hon hlt hroom
      refine ⟨fun _ => p, t', fun k hk => ?_⟩
      show (t.call k (writeCall fd arg p)).bind _ = _
      rw [hc k (by omega)]
      rfl
    | cons arg' args =>
      rw [joined_cons_cons, List.length_append, List.length_append, List.length_singleton] at hlt
      rw [loopCost_cons_cons] at hroom
      obtain ⟨p₁, t₁, hc₁⟩ := h.exists_call arg hon (by omega) (by omega)
      obtain ⟨-, -, h₁, A₁, hon₁, hbrk₁, hlen₁⟩ :=
        h.call hon (by omega) (by omega) (hc₁ _ (Nat.lt_succ_self _))
      have hspace : off + arg.length + [SPACE].length = off + arg.length + 1 := rfl
      obtain ⟨p₂, t₂, hc₂⟩ := h₁.exists_call [SPACE] hon₁ (by omega) (by rw [hspace]; omega)
      obtain ⟨-, -, h₂, A₂, hon₂, hbrk₂, hlen₂⟩ :=
        h₁.call hon₁ (by omega) (by rw [hspace]; omega) (hc₂ _ (Nat.lt_succ_self _))
      rw [hspace] at h₂ hbrk₂
      obtain ⟨answers, t', he⟩ := ih h₂ hon₂ (by omega) (by omega)
      refine ⟨fun i => if i = 0 then p₁ else if i = 1 then p₂ else answers (i - 2), t', fun k hk => ?_⟩
      rw [List.length_cons, List.length_cons] at hk
      rw [List.length_cons] at he
      show (t.call k (writeCall fd arg p₁)).bind _ = _
      rw [hc₁ k (by omega)]
      show (t₁.call k (writeCall fd [SPACE] p₂)).bind _ = _
      rw [hc₂ k (by omega)]
      exact he k (by omega)

theorem loop_dir {heap : Heap} (h : Wf u) (hfd : validFd u fd)
    (hdir : (u.nodes (u.fdTable fd.toNat).node).flags &&& VFS_DIR ≠ 0) (args : List (List Byte))
    (answers : ℕ → Word) :
    exec (Storage.call k) ⟨heap, u⟩ (loopCalls fd args answers) = some ⟨heap, u⟩ := by
  have hstring (str : List Byte) (p : Word) :
      Storage.call k ⟨heap, u⟩ (writeCall fd str p) = some ⟨heap, u⟩ := by
    refine Storage.call_quiet (if_neg fun halloc => hdir halloc.2.2.2.1) (writeString_fs ?_)
    exact writeArgs_dir h hfd hdir [str] fun _ => p
  induction args generalizing answers with
  | nil => rfl
  | cons arg args ih =>
    cases args with
    | nil =>
      rw [loopCalls, exec, hstring]
      rfl
    | cons arg' args =>
      rw [loopCalls, exec, hstring, Option.bind_some, exec, hstring, Option.bind_some]
      · exact ih _
      · exact List.cons_ne_nil _ _

/-! ### The calls of a line -/

/-- The calls of `cmd_rd`. -/
def rdCalls (s : Session) (argv : List (List Byte)) : List Call :=
  match argv[1]? with
  | none => []
  | some path =>
    match sysOpen s.fs path with
    | .ok (fd, _) =>
      if fd < 0 then [.sys (.sysOpen path)]
      else [.sys (.sysOpen path), .sys (.sysSeek fd 0), .sys (.sysRead fd 255), .sys (.sysClose fd)]
    | .error _ => []

/-- The calls of a command on the file system. -/
def Command.calls (s : Session) (c : Command) (argv : List (List Byte)) (answers : ℕ → Word) : List Call :=
  match c with
  | .mk => mkCalls s argv (answers 0)
  | .mkr => mkrCalls s argv (answers 0)
  | .write => writeCalls s argv answers
  | .rd => rdCalls s argv
  | _ => []

/-- The calls of a line. -/
def lineCalls (s : Session) (argv : List (List Byte)) (answers : ℕ → Word) : List Call :=
  match argv with
  | [] => []
  | name :: args =>
    match commandOf name with
    | some c => c.calls s (name :: args) answers
    | none => []

theorem after_open {n : ℤ} {path : List Byte} (ho : sysOpen u path = .ok (n, v)) :
    after u (.sys (.sysOpen path)) = some v :=
  after_eq_some.mpr ⟨⟨n, []⟩, by rw [call, sysCall, ho]; rfl⟩

theorem cmdRd_fs {out : List Byte} (h : cmdRd s argv = .ok (out, s')) :
    exec after s.fs (rdCalls s argv) = some s'.fs := by
  unfold cmdRd at h
  unfold rdCalls
  cases hpath : argv[1]? with
  | none =>
    rw [hpath] at h
    exact exec_message h
  | some path =>
    rw [hpath] at h
    obtain ⟨⟨fd, u⟩, ho, h⟩ := ofFs_bind_ok h
    have hopen := after_open ho
    dsimp only at h ⊢
    rw [ho]
    dsimp only
    split_ifs at h ⊢
    · rw [exec_cons hopen, ← (Prod.mk.inj (Except.ok.inj h)).2]
      rfl
    · obtain ⟨⟨n, bytes, v⟩, hr, h⟩ := ofFs_bind_ok h
      have hseek : after u (.sys (.sysSeek fd 0)) = some (sysSeek u fd 0).2 := rfl
      have hread : after (sysSeek u fd 0).2 (.sys (.sysRead fd 255)) = some v :=
        after_eq_some.mpr ⟨⟨n, bytes⟩, by rw [call, sysCall, hr]; rfl⟩
      rw [exec_cons hopen, exec_cons hseek, exec_cons hread, ← (Prod.mk.inj (Except.ok.inj h)).2]
      rfl

theorem rdCalls_quiet (s : Session) (argv : List (List Byte)) :
    ∀ c ∈ rdCalls s argv, ∀ v, c.request v = none := by
  intro c hc v
  unfold rdCalls at hc
  split at hc
  next => cases hc
  next path hpath =>
    split at hc
    next fd u ho =>
      split_ifs at hc
      · obtain rfl := List.mem_singleton.mp hc
        rfl
      · simp only [List.mem_cons, List.not_mem_nil, or_false] at hc
        obtain rfl | rfl | rfl | rfl := hc
        · rfl
        · rfl
        · rfl
        · rfl
    next => cases hc

/-- The calls of `cmd_write` if there is nothing to open. -/
theorem exec_writeCalls_none {heap : Heap} {path : List Byte}
    (ho : sysOpen s.fs path = .ok (-1, s.fs)) (name arg : List Byte)
    (args : List (List Byte)) (answers : ℕ → Word) :
    exec (Storage.call k) ⟨heap, s.fs⟩ (writeCalls s (name :: path :: arg :: args) answers) =
      some ⟨heap, s.fs⟩ := by
  unfold writeCalls
  dsimp only
  rw [ho]
  show (Storage.call k ⟨heap, s.fs⟩ (.sys (.sysOpen path))).bind _ = _
  rw [Storage.call_quiet rfl (after_open ho)]
  rfl

theorem exec_writeCalls {heap : Heap} {path : List Byte} (ho : sysOpen s.fs path = .ok (0, opened s.fs a))
    (name arg : List Byte) (args : List (List Byte)) (answers : ℕ → Word) :
    exec (Storage.call k) ⟨heap, s.fs⟩ (writeCalls s (name :: path :: arg :: args) answers) =
      (exec (Storage.call k) ⟨heap, opened s.fs a⟩ (loopCalls 0 (arg :: args) answers)).map fun t =>
        ⟨t.heap, sysClose t.fs 0⟩ := by
  have hcalls : writeCalls s (name :: path :: arg :: args) answers =
      .sys (.sysOpen path) :: .sys (.sysSeek 0 0) ::
        (loopCalls 0 (arg :: args) answers ++ [.sys (.sysClose 0)]) := by
    unfold writeCalls
    dsimp only
    rw [ho]
    exact if_neg (by decide)
  have hopen : Storage.call k ⟨heap, s.fs⟩ (.sys (.sysOpen path)) = some ⟨heap, opened s.fs a⟩ :=
    Storage.call_quiet rfl (after_open ho)
  have hseek : Storage.call k ⟨heap, opened s.fs a⟩ (.sys (.sysSeek 0 0)) = some ⟨heap, opened s.fs a⟩ :=
    Storage.call_quiet rfl (congrArg some (opened_seek s.fs a))
  rw [hcalls, exec, hopen, Option.bind_some, exec, hseek, Option.bind_some, exec_append]
  cases exec (Storage.call k) ⟨heap, opened s.fs a⟩ (loopCalls 0 (arg :: args) answers) with
  | none => rfl
  | some t => rfl

variable {item : Item} {path : List Byte}

theorem Store.Rep.live (h : σ.Rep s dir tmp) (hi : σ.Has item) : s.fs.Live (item.node s.fs tmp) := by
  obtain ⟨h0, hpriv, -⟩ := h.tree.place_node (h.place hi)
  rw [FsState.Live, hpriv]
  exact h0

theorem Store.Rep.open_none (h : σ.Rep s dir tmp) (hpath : 0 ∉ path) (hfit : PathFits s.fs path)
    (hitem : σ.resolve .root path = none) : sysOpen s.fs path = .ok (-1, s.fs) := by
  have ho := h.ready.sysOpen (h.lookup hpath hfit)
  rw [hitem] at ho
  exact ho

theorem Store.Rep.open_some (h : σ.Rep s dir tmp) (hpath : 0 ∉ path) (hfit : PathFits s.fs path)
    (hitem : σ.resolve .root path = some item) :
      sysOpen s.fs path = .ok (0, opened s.fs (item.node s.fs tmp)) := by
  have ho := h.ready.sysOpen (h.lookup hpath hfit)
  obtain ⟨h0, -⟩ := h.tree.place_node (h.place (Store.has_resolve hitem))
  rw [hitem, Option.map_some, Option.getD_some, if_neg h0] at ho
  exact ho

/-- The descriptor of `cmd_write` is at the beginning of a file. -/
theorem Store.Rep.writing {d : Dir} {i : ℕ} (h : σ.Rep s dir tmp) (hi : σ.Has (.file d i)) (heap : Heap) :
    Writing s.fs ⟨heap, opened s.fs (Item.node s.fs tmp (.file d i))⟩
      { Fs.files s.fs with fds := Function.update (Fs.files s.fs).fds 0 (some (Item.node s.fs tmp (.file d i), 0)) } 0
      (Item.node s.fs tmp (.file d i)) 0 := by
  obtain ⟨-, hflags⟩ := h.node_file hi
  have hdesc :
      (Function.update (Fs.files s.fs).fds 0 (some (Item.node s.fs tmp (.file d i), 0)))
      (0 : ℤ).toNat =
      some (Item.node s.fs tmp (.file d i), 0) := by
    rw [Int.toNat_zero, Function.update_self]
  exact ⟨opened_refines h.wf (h.live hi), desc_eq_some.mpr ⟨⟨by decide, by decide⟩, hdesc⟩,
    decide_eq_false (not_not.mpr hflags), Nat.zero_le _⟩

theorem Store.Rep.loop_dir {d : Dir} (h : σ.Rep s dir tmp) (hi : σ.Has (.dir d)) (heap : Heap)
    (args : List (List Byte))
    (answers : ℕ → Word) :
      exec (Storage.call k) ⟨heap, opened s.fs (Item.node s.fs tmp (.dir d))⟩
      (loopCalls 0 args answers) =
      some ⟨heap, opened s.fs (Item.node s.fs tmp (.dir d))⟩ := by
  obtain ⟨-, hflags⟩ := h.node_dir d
  have hdesc := opened_desc s.fs (Item.node s.fs tmp (.dir d))
  exact Shell.loop_dir (opened_refines h.wf (h.live hi)).wf (opened_valid s.fs _)
    (by rw [hdesc]; exact hflags) args answers

/-- `write` had new blocks, and the break has moved up by what its loop costs at most. -/
theorem Store.Rep.write_heap {arg : List Byte} {heap : Heap} (h : σ.Rep s dir tmp) (name : List Byte) (hpath : 0 ∉ path)
    (hfit : PathFits s.fs path) (hon : OnHeap ⟨heap, s.fs⟩ A) (hlen : (joined (arg :: args)).length ≤ 255)
    (hroom : A.brk + loopCost 0 (arg :: args) < heapHi)
    (he : exec (Storage.call k) ⟨heap, s.fs⟩ (writeCalls s (name :: path :: arg :: args) answers) = some t) :
    (∀ fd u, sysOpen s.fs path = .ok (fd, u) → WritesFile u fd →
      FreshWrites (sysSeek u fd 0).2 fd (arg :: args) answers) ∧
    ∃ A', OnHeap t A' ∧ A'.brk ≤ A.brk + loopCost 0 (arg :: args) := by
  cases hitem : σ.resolve .root path with
  | none =>
    have ho := h.open_none hpath hfit hitem
    rw [exec_writeCalls_none ho] at he
    obtain rfl := Option.some.inj he
    refine ⟨fun fd u hfd hfile => ?_, A, hon, Nat.le_add_right _ _⟩
    obtain ⟨rfl, rfl⟩ := Prod.mk.inj (Except.ok.inj (ho.symm.trans hfd))
    exact absurd hfile.1.1 (by decide)
  | some item =>
    have hi := Store.has_resolve hitem
    have ho := h.open_some hpath hfit hitem
    rw [exec_writeCalls ho] at he
    obtain ⟨v, hv, rfl⟩ := Option.map_eq_some_iff.mp he
    have hopened : OnHeap ⟨heap, opened s.fs (item.node s.fs tmp)⟩ A := hon.of_eq rfl rfl
    cases item with
    | dir d =>
      rw [h.loop_dir hi] at hv
      obtain rfl := Option.some.inj hv
      refine ⟨fun fd u hfd hfile => ?_, A, hopened.close 0, Nat.le_add_right _ _⟩
      obtain ⟨rfl, rfl⟩ := Prod.mk.inj (Except.ok.inj (ho.symm.trans hfd))
      have hdir := hfile.2
      rw [opened_desc] at hdir
      exact absurd hdir (h.node_dir d).2
    | file d i =>
      obtain ⟨hfresh, A', hon', hbrk⟩ := (h.writing hi heap).loop hopened (by omega) hroom hv
      refine ⟨fun fd u hfd _ => ?_, A', hon'.close 0, hbrk⟩
      obtain ⟨rfl, rfl⟩ := Prod.mk.inj (Except.ok.inj (ho.symm.trans hfd))
      rw [opened_seek]
      exact hfresh

theorem Store.Rep.exists_write {arg : List Byte} {heap : Heap} (h : σ.Rep s dir tmp) (hpath : 0 ∉ path)
    (hfit : PathFits s.fs path) (hon : OnHeap ⟨heap, s.fs⟩ A) (hlen : (joined (arg :: args)).length ≤ 255)
    (hroom : A.brk + loopCost 0 (arg :: args) < heapHi) (name : List Byte) : ∃ answers t, ∀ k,
    A.blocks.length + 2 * (arg :: args).length < k →
      exec (Storage.call k) ⟨heap, s.fs⟩ (writeCalls s (name :: path :: arg :: args) answers) = some t := by
  cases hitem : σ.resolve .root path with
  | none => exact ⟨fun _ => 0, _, fun k _ => exec_writeCalls_none (h.open_none hpath hfit hitem) name arg args _⟩
  | some item =>
    have hi := Store.has_resolve hitem
    have ho := h.open_some hpath hfit hitem
    cases item with
    | dir d =>
      refine ⟨fun _ => 0, ⟨heap, sysClose (opened s.fs (Item.node s.fs tmp (.dir d))) 0⟩, fun k _ => ?_⟩
      rw [exec_writeCalls ho, h.loop_dir hi]
      rfl
    | file d i =>
      have hopened : OnHeap ⟨heap, opened s.fs (Item.node s.fs tmp (.file d i))⟩ A := hon.of_eq rfl rfl
      obtain ⟨answers, v, hv⟩ := (h.writing hi heap).exists_loop hopened (by omega) hroom
      refine ⟨answers, ⟨v.heap, sysClose v.fs 0⟩, fun k hk => ?_⟩
      rw [exec_writeCalls ho, hv k hk]
      rfl

/-! ### A line -/

/-- A file that was made had a new node. -/
theorem create_heap {heap : Heap} {parent : Word} {name : List Byte} (hon : OnHeap ⟨heap, s.fs⟩ A)
    (hroom : A.brk + 256 < heapHi)
    (he : exec (Storage.call k) ⟨heap, s.fs⟩ [.create parent name VFS_FILE p] = some t) :
    (CreateAllocates s.fs parent → Fresh s.fs p) ∧ ∃ A', OnHeap t A' ∧ A'.brk ≤ A.brk + 256 := by
  have hcost := create_cost_le s.fs parent name VFS_FILE p
  obtain ⟨u, hc, he⟩ := Option.bind_eq_some_iff.mp he
  obtain rfl := Option.some.inj he
  have hcost' : (Call.create parent name VFS_FILE p).cost (Storage.fs ⟨heap, s.fs⟩) ≤ 256 := hcost
  obtain ⟨A', hon', -, hbrk, -, hnew⟩ := hon.call (by omega) hc
  exact ⟨fun halloc => (hnew _ (if_pos halloc)).fresh hon.below, A', hon', by omega⟩

/-- While there is room, there is a new node for it. -/
theorem Store.Rep.exists_create {d : Dir} {name : List Byte} {heap : Heap} (h : σ.Rep s dir tmp)
    (hname : 0 ∉ name) (hlen : NameFits s.fs (d.node s.fs tmp) name) (hon : OnHeap ⟨heap, s.fs⟩ A)
    (hroom : A.brk + 256 < heapHi) : ∃ p t, ∀ k, A.blocks.length < k →
      exec (Storage.call k) ⟨heap, s.fs⟩ [.create (d.node s.fs tmp) name VFS_FILE p] = some t := by
  have hcost := create_cost_le s.fs (d.node s.fs tmp) name VFS_FILE 0
  have hcost' : (Call.create (d.node s.fs tmp) name VFS_FILE 0).cost (Storage.fs ⟨heap, s.fs⟩) ≤ 256 := hcost
  obtain ⟨p, t, hc⟩ :=
    hon.exists_call (fun p => .create (d.node s.fs tmp) name VFS_FILE p) (fun p => rfl)
    (fun p => rfl)
    (by omega) fun p hnew => by
      have hfresh : CreateAllocates s.fs (d.node s.fs tmp) → Fresh s.fs p := fun halloc =>
        (hnew _ (if_pos halloc)).fresh hon.below
      obtain ⟨s', hs, -⟩ := h.make hfresh hname hlen ""
      obtain ⟨u, hu, -⟩ := Option.bind_eq_some_iff.mp (createFile_fs hs)
      exact ⟨u, hu⟩
  refine ⟨p, t, fun k hk => ?_⟩
  rw [exec, hc k hk]
  rfl

theorem Store.Rep.mkCalls_eq {name arg : List Byte} (h : σ.Rep s dir tmp)
    (args : List (List Byte)) (p : Word) :
    mkCalls s (name :: arg :: args) p = [.create (σ.cwd.node s.fs tmp) arg VFS_FILE p] := by
  have h0 : s.cwd ≠ 0 := h.cwd ▸ (h.tree.dirAt σ.cwd).ne_zero
  rw [← h.cwd]
  exact if_neg h0

theorem Store.Rep.mkrCalls_eq {name arg : List Byte} (h : σ.Rep s dir tmp)
    (args : List (List Byte)) (p : Word) :
    mkrCalls s (name :: arg :: args) p = [.create (Dir.node s.fs tmp .tmp) arg VFS_FILE p] := by
  obtain ⟨h0, hflags⟩ := h.node_dir .tmp
  unfold mkrCalls
  rw [h.lookup_tmp]
  exact if_neg (not_or.mpr ⟨h0, hflags⟩)

theorem command_quiet {c : Command} {heap : Heap} (hon : OnHeap ⟨heap, s.fs⟩ A)
    (hcs : ∀ d ∈ c.calls s argv answers, ∀ v, d.request v = none)
    (he : exec (Storage.call k) ⟨heap, s.fs⟩ (c.calls s argv answers) = some t) (n : ℕ) :
    ∃ A', OnHeap t A' ∧ A'.brk ≤ A.brk + n :=
  ⟨A, hon.quiet hcs he, Nat.le_add_right _ _⟩

/-- A command that came back had new blocks, and took its cost at most. -/
theorem Store.Rep.command_heap {c : Command} {name : List Byte} {heap : Heap} (h : σ.Rep s dir tmp)
    (hc : c.OfStore)
    (hw : Words (name :: args)) (hfits : CommandFits s c (name :: args)) (hon : OnHeap ⟨heap, s.fs⟩ A)
    (hroom : A.brk + c.cost args < heapHi)
    (he : exec (Storage.call k) ⟨heap, s.fs⟩ (c.calls s (name :: args) answers) = some t) :
    Allocates s c (name :: args) answers ∧ ∃ A', OnHeap t A' ∧ A'.brk ≤ A.brk + c.cost args := by
  have hnul {w : List Byte} (hm : w ∈ args) : 0 ∉ w := hw.nul w (List.mem_cons_of_mem _ hm)
  have hsize : joinedSize args ≤ 256 := hw.size
  cases c with
  | mk =>
    cases args with
    | nil => exact ⟨nofun, command_quiet hon (fun d hd => absurd hd List.not_mem_nil) he _⟩
    | cons arg args =>
      change exec (Storage.call k) _ (mkCalls s (name :: arg :: args) (answers 0)) = some t at he
      rw [h.mkCalls_eq] at he
      obtain ⟨hfresh, hout⟩ := create_heap hon hroom he
      refine ⟨fun _ _ halloc => hfresh ?_, hout⟩
      rw [← h.cwd]
      exact halloc
  | mkr =>
    cases args with
    | nil => exact ⟨nofun, command_quiet hon (fun d hd => absurd hd List.not_mem_nil) he _⟩
    | cons arg args =>
      change exec (Storage.call k) _ (mkrCalls s (name :: arg :: args) (answers 0)) = some t at he
      rw [h.mkrCalls_eq] at he
      obtain ⟨hfresh, hout⟩ := create_heap hon hroom he
      refine ⟨fun _ _ tmp' hlook halloc => hfresh ?_, hout⟩
      obtain rfl := Except.ok.inj (h.lookup_tmp.symm.trans hlook)
      exact halloc
  | write =>
    cases args with
    | nil => exact ⟨nofun, command_quiet hon (fun d hd => absurd hd List.not_mem_nil) he _⟩
    | cons path args =>
      cases args with
      | nil =>
        refine ⟨fun _ _ fd u _ _ => trivial, command_quiet hon (fun d hd => absurd hd List.not_mem_nil) he _⟩
      | cons arg args =>
        have hlen := length_joined (List.cons_ne_nil arg args)
        rw [joinedSize_cons] at hsize
        have hpath : PathFits s.fs path := by
          refine hfits ?_ path rfl
          rw [List.length_cons, List.length_cons, List.length_cons]
          omega
        obtain ⟨hfresh, hout⟩ := h.write_heap name (hnul List.mem_cons_self) hpath hon (by omega) hroom he
        refine ⟨fun path' hpath' fd u ho hfile => hfresh fd u ?_ hfile, hout⟩
        obtain rfl := Option.some.inj hpath'
        exact ho
  | rd => exact ⟨trivial, command_quiet hon (c := .rd) (rdCalls_quiet s _) he _⟩
  | echo => exact ⟨trivial, command_quiet hon (fun d hd => absurd hd List.not_mem_nil) he _⟩
  | ls => exact ⟨trivial, command_quiet hon (fun d hd => absurd hd List.not_mem_nil) he _⟩
  | cd => exact ⟨trivial, command_quiet hon (fun d hd => absurd hd List.not_mem_nil) he _⟩
  | _ => exact absurd hc (by decide)

/-- A line that came back had new blocks, and took its cost at most. -/
theorem Store.Rep.line_heap {heap : Heap} (h : σ.Rep s dir tmp) (hw : Words argv)
    (hfits : ∀ name, argv.head? = some name → ∀ c, commandOf name = some c → CommandFits s c argv)
    (hstore : ∀ name, argv.head? = some name → ∀ c, commandOf name = some c → c.OfStore)
    (hon : OnHeap ⟨heap, s.fs⟩ A)
    (hroom : A.brk + lineCost argv < heapHi)
    (he : exec (Storage.call k) ⟨heap, s.fs⟩ (lineCalls s argv answers) = some t) :
    (∀ name, argv.head? = some name → ∀ c, commandOf name = some c → c.OfStore ∧ Allocates s c argv answers) ∧
      ∃ A', OnHeap t A' ∧ A'.brk ≤ A.brk + lineCost argv := by
  cases argv with
  | nil =>
    obtain rfl := Option.some.inj he
    exact ⟨nofun, A, hon, Nat.le_add_right _ _⟩
  | cons name args =>
    unfold lineCalls at he
    unfold lineCost at hroom ⊢
    dsimp only at he hroom ⊢
    cases hc : commandOf name with
    | none =>
      rw [hc] at he
      obtain rfl := Option.some.inj he
      refine ⟨fun name' hname' c hc' => ?_, A, hon, Nat.le_add_right _ _⟩
      obtain rfl := Option.some.inj hname'
      cases hc.symm.trans hc'
    | some c =>
      rw [hc] at he hroom
      obtain ⟨halloc, hout⟩ := h.command_heap (hstore name rfl c hc) hw (hfits name rfl c hc) hon hroom he
      refine ⟨fun name' hname' c' hc' => ?_, hout⟩
      obtain rfl := Option.some.inj hname'
      obtain rfl := Option.some.inj (hc.symm.trans hc')
      exact ⟨hstore name rfl c hc, halloc⟩

theorem cmdCd_fs {out : List Byte} (h : cmdCd s argv = .ok (out, s')) : s'.fs = s.fs := by
  cases cmdCd_effect h with
  | unchanged => rfl
  | home => rfl
  | cd _ _ _ => rfl

/-- While there is room, a command comes back with new blocks. -/
theorem Store.Rep.exists_command {c : Command} {heap : Heap} (h : σ.Rep s dir tmp)
    (name : List Byte) (hc : c.OfStore)
    (hw : Words (name :: args)) (hfits : CommandFits s c (name :: args)) (hon : OnHeap ⟨heap, s.fs⟩ A)
    (hroom : A.brk + c.cost args < heapHi) : ∃ answers t, ∀ k, A.blocks.length + 2 * args.length < k →
      exec (Storage.call k) ⟨heap, s.fs⟩ (c.calls s (name :: args) answers) = some t := by
  have hnul {w : List Byte} (hm : w ∈ args) : 0 ∉ w := hw.nul w (List.mem_cons_of_mem _ hm)
  have hsize : joinedSize args ≤ 256 := hw.size
  cases c with
  | mk =>
    cases args with
    | nil => exact ⟨fun _ => 0, _, fun _ _ => rfl⟩
    | cons arg args =>
      have hfits := hfits arg rfl
      rw [h.cwd] at hfits
      obtain ⟨p, t, he⟩ := h.exists_create (hnul List.mem_cons_self) hfits hon hroom
      refine ⟨fun _ => p, t, fun k hk => ?_⟩
      show exec (Storage.call k) _ (mkCalls s (name :: arg :: args) p) = _
      rw [h.mkCalls_eq]
      exact he k (by omega)
  | mkr =>
    cases args with
    | nil => exact ⟨fun _ => 0, _, fun _ _ => rfl⟩
    | cons arg args =>
      obtain ⟨-, hflags⟩ := h.node_dir .tmp
      have hfits := hfits arg rfl tmp h.lookup_tmp hflags
      obtain ⟨p, t, he⟩ := h.exists_create (d := .tmp) (hnul List.mem_cons_self) hfits hon hroom
      refine ⟨fun _ => p, t, fun k hk => ?_⟩
      show exec (Storage.call k) _ (mkrCalls s (name :: arg :: args) p) = _
      rw [h.mkrCalls_eq]
      exact he k (by omega)
  | write =>
    cases args with
    | nil => exact ⟨fun _ => 0, _, fun _ _ => rfl⟩
    | cons path args =>
      cases args with
      | nil => exact ⟨fun _ => 0, _, fun _ _ => rfl⟩
      | cons arg args =>
        have hlen := length_joined (List.cons_ne_nil arg args)
        rw [joinedSize_cons] at hsize
        have hpath : PathFits s.fs path := by
          refine hfits ?_ path rfl
          rw [List.length_cons, List.length_cons, List.length_cons]
          omega
        obtain ⟨answers, t, he⟩ := h.exists_write (hnul List.mem_cons_self) hpath hon (by omega) hroom name
        refine ⟨answers, t, fun k hk => he k ?_⟩
        rw [List.length_cons] at hk
        omega
  | rd =>
    cases args with
    | nil => exact ⟨fun _ => 0, _, fun _ _ => rfl⟩
    | cons path args =>
      obtain ⟨s', hs, -⟩ := h.read (hnul List.mem_cons_self) (hfits path rfl) name args
      have hcs : ∀ d ∈ Command.calls s .rd (name :: path :: args) fun _ => 0, ∀ v, d.request v = none :=
        rdCalls_quiet s (name :: path :: args)
      exact ⟨fun _ => 0, ⟨heap, s'.fs⟩, fun k _ => exec_quiet hcs (cmdRd_fs hs)⟩
  | echo => exact ⟨fun _ => 0, _, fun _ _ => rfl⟩
  | ls => exact ⟨fun _ => 0, _, fun _ _ => rfl⟩
  | cd => exact ⟨fun _ => 0, _, fun _ _ => rfl⟩
  | _ => exact absurd hc (by decide)

/-- While there is room, a line comes back with new blocks. -/
theorem Store.Rep.exists_line {heap : Heap} (h : σ.Rep s dir tmp) (hw : Words argv)
    (hfits : ∀ name, argv.head? = some name → ∀ c, commandOf name = some c → CommandFits s c argv)
    (hstore : ∀ name, argv.head? = some name → ∀ c, commandOf name = some c → c.OfStore)
    (hon : OnHeap ⟨heap, s.fs⟩ A)
    (hroom : A.brk + lineCost argv < heapHi) : ∃ answers t, ∀ k, A.blocks.length + 2 * argv.length < k →
      exec (Storage.call k) ⟨heap, s.fs⟩ (lineCalls s argv answers) = some t := by
  cases argv with
  | nil => exact ⟨fun _ => 0, _, fun _ _ => rfl⟩
  | cons name args =>
    unfold lineCost at hroom
    unfold lineCalls
    dsimp only at hroom ⊢
    cases hc : commandOf name with
    | none => exact ⟨fun _ => 0, _, fun _ _ => rfl⟩
    | some c =>
      rw [hc] at hroom
      obtain ⟨answers, t, he⟩ :=
        h.exists_command name (hstore name rfl c hc) hw (hfits name rfl c hc) hon hroom
      refine ⟨answers, t, fun k hk => he k ?_⟩
      rw [List.length_cons] at hk
      omega

/-- The calls of a line leave the files that its command leaves. -/
theorem dispatch_fs {printed : Printed} {out : List Byte}
    (hstore : ∀ name, argv.head? = some name → ∀ c, commandOf name = some c → c.OfStore)
    (h : dispatch printed s argv answers = .ok (out, s')) :
      exec after s.fs (lineCalls s argv answers) = some s'.fs := by
  cases argv with
  | nil => exact exec_message h
  | cons name args =>
    unfold dispatch at h
    unfold lineCalls
    dsimp only at h ⊢
    cases hc : commandOf name with
    | none =>
      rw [hc] at h
      exact exec_message h
    | some c =>
      rw [hc] at h
      have hc' := hstore name rfl c hc
      cases c with
      | mk => exact cmdMk_fs h
      | mkr => exact cmdMkr_fs h
      | write => exact cmdWrite_fs h
      | rd => exact cmdRd_fs h
      | echo =>
        obtain ⟨buffer, -, h⟩ := bind_ok h
        exact exec_message h
      | ls =>
        rw [cmdLs_eq h]
        rfl
      | cd => exact congrArg some (cmdCd_fs h).symm
      | _ => exact absurd hc' (by decide)

end SpatulaOS.Shell
