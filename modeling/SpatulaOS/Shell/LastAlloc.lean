import SpatulaOS.Core.Numerals
import SpatulaOS.Fs.Requests
import SpatulaOS.Lib.History
import SpatulaOS.Shell.FileCalls

/-!
# The last allocation

`cmd_alloc`, `cmd_free` and `cmd_freelast` of `shell/shell.c`, in sessions in which files are made and
written as well: the shell and the file system are clients of one heap. `last_alloc` is
meant for the block of the most recent successful `alloc`. It is forgotten by `freelast`, but not by a `free`
of the block, and `freelast` then gives a block to `kfree` that may be a file by that time
(`not_ownsLast`).

A ledger is kept beside the session: what `alloc` has printed and what was released since. While no
`free` is given the address in `last_alloc` and all requests and frees are regular for the heap,
`freelast` releases a block of the shell's own (`ownsLast`).
-/

namespace SpatulaOS.Shell

open ByteMemory Runs SpatulaOS.Core SpatulaOS.Fs SpatulaOS.Mm SpatulaOS.Video

/-! ### The commands -/

/-- The commands that allocate and release memory. -/
inductive HeapCommand where
  /-- `alloc` -/
  | alloc (argv : List (List Byte))
  /-- `free` -/
  | free (argv : List (List Byte))
  /-- `freelast` -/
  | freelast
  /-- A command that makes a file or writes to one. -/
  | file (c : FileCommand)

/-- The heap and the shell. -/
structure HeapSession where
  /-- The allocator. -/
  heap : Heap
  /-- The file system and `cwd`. -/
  session : Session
  /-- `last_alloc` -/
  lastAlloc : Word
  /-- What the last command printed. -/
  printed : List VgaCall

/-- `cmd_alloc`. -/
def cmdAlloc (k : ℕ) (s : HeapSession) (argv : List (List Byte)) : Option HeapSession :=
  match argv[1]? with
  | none => some { s with printed := [.print "Usage: alloc <size>\n"] }
  | some arg =>
    let size := atoi arg
    if size.toInt ≤ 0 then some { s with printed := [.print "Invalid size\n"] }
    else
      (kmalloc k s.heap size).map fun r =>
        let ptr := r.1
        if ptr = 0 then
          { s with
            heap := r.2
            printed := [.print "Allocation failed\n"] }
        else
          { s with
            heap := r.2
            lastAlloc := ptr
            printed := [.print "Allocated at: ", .printHex ptr, .print "\n"] }

/-- `cmd_free`. -/
def cmdFree (k : ℕ) (s : HeapSession) (argv : List (List Byte)) : Option HeapSession :=
  match argv[1]? with
  | none => some { s with printed := [.print "Usage: free <address>\n"] }
  | some arg =>
    let ptr := atoiHex arg
    if ptr = 0 then some { s with printed := [.print "Invalid address\n"] }
    else
      (kfree k s.heap ptr).map fun r =>
        { s with
          heap := r.1
          printed := r.2 ++ [.print "Freed: ", .printHex ptr, .print "\n"] }

/-- `cmd_freelast`. -/
def cmdFreelast (k : ℕ) (s : HeapSession) : Option HeapSession :=
  if s.lastAlloc = 0 then some { s with printed := [.print "No previous allocation\n"] }
  else
    (kfree k s.heap s.lastAlloc).map fun r =>
      { s with
        heap := r.1
        lastAlloc := 0
        printed := r.2 ++ [.print "Freed: ", .printHex s.lastAlloc, .print "\n"] }

/-- What a file command prints, as a string. -/
def message (out : List Byte) : String := String.ofList (out.map fun c => Char.ofNat c.toNat)

/-- The storage of the session. -/
def HeapSession.storage (s : HeapSession) : Storage := ⟨s.heap, s.session.fs⟩

/-- A file command, with the requests of its calls answered by the heap. -/
def fileCommand (k : ℕ) (s : HeapSession) (c : FileCommand) : Option HeapSession :=
  match c.run s.session with
  | .error _ => none
  | .ok (out, session) =>
    (exec (Storage.call k) s.storage (c.calls s.session)).map fun t =>
      { s with
        heap := t.heap
        session := session
        printed := [.print (message out)] }

/-- A command is carried out, with a bound on the iterations of the allocator's loops. -/
def HeapSession.run (k : ℕ) (s : HeapSession) : HeapCommand → Option HeapSession
  | .alloc argv => cmdAlloc k s argv
  | .free argv => cmdFree k s argv
  | .freelast => cmdFreelast k s
  | .file c => fileCommand k s c

/-- `shell_init`. -/
def shellInit (t : Storage) : HeapSession := ⟨t.heap, ⟨t.fs, t.fs.vfsRoot⟩, 0, []⟩

/-- The shell from `shell_init` on. A run ends where a command does not return. -/
def heapMachine : Machine HeapSession HeapCommand where
  start s := ∃ m s₀ k mainRoot tmp tmpRamfs t, fsMachine.start s₀ ∧
    exec (Storage.call k) ⟨Mm.boot m, s₀⟩ (kernelCalls mainRoot tmp tmpRamfs) = some t ∧ s = shellInit t
  step s c s' := ∃ k, s.run k c = some s'

/-! ### The ledger -/

/-- What `alloc` has handed out. -/
structure Ledger where
  /-- The addresses that `alloc` has printed and that were not released since. -/
  outstanding : List Word
  /-- The block of the most recent successful `alloc`, until it is released. -/
  latest : Option Word

/-- The addresses that are printed. -/
def addresses (printed : List VgaCall) : List Word :=
  printed.filterMap fun
    | .printHex v => some v
    | _ => none

/-- The pointer that a command gives to `kfree`. -/
def given (s : HeapSession) : HeapCommand → Option Word
  | .free argv => (argv[1]?.map atoiHex).filter (· ≠ 0)
  | .freelast => if s.lastAlloc = 0 then none else some s.lastAlloc
  | _ => none

/-- The ledger after a block is released. -/
def Ledger.release (l : Ledger) (p : Word) : Ledger where
  outstanding := l.outstanding.filter (· ≠ p)
  latest := if l.latest = some p then none else l.latest

/-- The ledger after a command. -/
def Ledger.next (s : HeapSession) (l : Ledger) (c : HeapCommand) (s' : HeapSession) : Ledger :=
  match c with
  | .alloc _ =>
    match addresses s'.printed with
    | p :: _ => ⟨p :: l.outstanding, some p⟩
    | [] => l
  | c =>
    match given s c with
    | some p => l.release p
    | none => l

/-- The shell with its ledger. -/
abbrev ledgerMachine : Machine (HeapSession × Ledger) HeapCommand := heapMachine.record ⟨[], none⟩ Ledger.next

/-- `free` is given an address that `alloc` has printed and that was not released since. -/
def FreesOutstanding (t : HeapSession × Ledger) : HeapCommand → Prop
  | .free argv => ∀ p ∈ given t.1 (.free argv), p ∈ t.2.outstanding
  | _ => True

/-- `free` is not given the address in `last_alloc`. -/
def SparesLast (s : HeapSession) : HeapCommand → Prop
  | .free argv => given s (.free argv) ≠ some s.lastAlloc
  | _ => True

/-- The blocks of the heap allow what the command requests and frees. -/
def RegularCommand (s : HeapSession) : HeapCommand → Prop
  | .alloc argv => ∀ arg, argv[1]? = some arg → 0 < (atoi arg).toInt → s.heap.Regular (.malloc (atoi arg))
  | .file c => ∀ k, Along (Storage.call k) Storage.Regular s.storage (c.calls s.session)
  | c => ∀ p, given s c = some p → s.heap.Regular (.free p)

/-- What `freelast` would release is the block of the most recent successful `alloc`, which was not released
since, and it is no node or buffer of the file system. -/
def OwnsLast (t : HeapSession × Ledger) : Prop :=
  ∀ p, given t.1 .freelast = some p → t.2.latest = some p ∧ ¬ HeldByFs t.1.session.fs p

variable {s s' : HeapSession} {l : Ledger} {t t' : HeapSession × Ledger} {c : HeapCommand} {k : ℕ} {p : Word}

/-! ### What the commands do -/

/-- What a command that returns does: it prints a message, allocates, releases, or makes calls of
the file system. -/
inductive HeapEffect (k : ℕ) (s : HeapSession) : HeapCommand → HeapSession → Prop where
  /-- A message. -/
  | message {c : HeapCommand} {out : List VgaCall} : addresses out = [] → given s c = none →
    HeapEffect k s c { s with printed := out }
  /-- `kmalloc` failed. -/
  | failed {argv : List (List Byte)} {arg : List Byte} {h : Heap} {out : List VgaCall} : argv[1]? = some arg →
    0 < (atoi arg).toInt → kmalloc k s.heap (atoi arg) = some (0, h) → addresses out = [] →
    HeapEffect k s (.alloc argv)
      { s with
        heap := h
        printed := out }
  /-- An allocation. -/
  | alloc {argv : List (List Byte)} {arg : List Byte} {ptr : Word} {h : Heap} : argv[1]? = some arg →
    0 < (atoi arg).toInt → kmalloc k s.heap (atoi arg) = some (ptr, h) → ptr ≠ 0 →
    HeapEffect k s (.alloc argv)
      { s with
        heap := h
        lastAlloc := ptr
        printed := [.print "Allocated at: ", .printHex ptr, .print "\n"] }
  /-- A `free`, which leaves `last_alloc` as it is. -/
  | free {argv : List (List Byte)} {ptr : Word} {h : Heap} {out printed : List VgaCall} :
    given s (.free argv) = some ptr → kfree k s.heap ptr = some (h, out) →
    HeapEffect k s (.free argv)
      { s with
        heap := h
        printed := printed }
  /-- A `freelast`. -/
  | freelast {h : Heap} {out printed : List VgaCall} : s.lastAlloc ≠ 0 →
    kfree k s.heap s.lastAlloc = some (h, out) →
    HeapEffect k s .freelast
      { s with
        heap := h
        lastAlloc := 0
        printed := printed }
  /-- Calls of the file system. -/
  | file {c : FileCommand} {u : Storage} {session : Session} {printed : List VgaCall} :
    exec (Storage.call k) s.storage (c.calls s.session) = some u → session.fs = u.fs →
    HeapEffect k s (.file c)
      { s with
        heap := u.heap
        session := session
        printed := printed }

theorem cmdAlloc_effect {argv : List (List Byte)} (h : cmdAlloc k s argv = some s') :
    HeapEffect k s (.alloc argv) s' := by
  unfold cmdAlloc at h
  cases harg : argv[1]? with
  | none =>
    rw [harg] at h
    obtain rfl := Option.some.inj h
    exact .message rfl rfl
  | some arg =>
    rw [harg] at h
    dsimp only at h
    split_ifs at h with hsize
    · obtain rfl := Option.some.inj h
      exact .message rfl rfl
    · obtain ⟨⟨ptr, heap⟩, hk, rfl⟩ := Option.map_eq_some_iff.mp h
      dsimp only
      split_ifs with h0
      · subst h0
        exact .failed harg (not_le.mp hsize) hk rfl
      · exact .alloc harg (not_le.mp hsize) hk h0

theorem cmdFree_effect {argv : List (List Byte)} (h : cmdFree k s argv = some s') :
    HeapEffect k s (.free argv) s' := by
  unfold cmdFree at h
  cases harg : argv[1]? with
  | none =>
    rw [harg] at h
    obtain rfl := Option.some.inj h
    exact .message rfl (by rw [given, harg]; rfl)
  | some arg =>
    have hgiven : given s (.free argv) = if atoiHex arg = 0 then none else some (atoiHex arg) := by
      rw [given, harg, Option.map_some, Option.filter_some]
      simp
    rw [harg] at h
    dsimp only at h
    split_ifs at h hgiven with h0
    · obtain rfl := Option.some.inj h
      exact .message rfl hgiven
    · obtain ⟨⟨heap, out⟩, hk, rfl⟩ := Option.map_eq_some_iff.mp h
      exact .free hgiven hk

theorem cmdFreelast_effect (h : cmdFreelast k s = some s') : HeapEffect k s .freelast s' := by
  unfold cmdFreelast at h
  split_ifs at h with h0
  · obtain rfl := Option.some.inj h
    exact .message rfl (if_pos h0)
  · obtain ⟨⟨heap, out⟩, hk, rfl⟩ := Option.map_eq_some_iff.mp h
    exact .freelast h0 hk

theorem fileCommand_effect {c : FileCommand} (h : fileCommand k s c = some s') :
    HeapEffect k s (.file c) s' := by
  unfold fileCommand at h
  cases hrun : c.run s.session with
  | error e =>
    rw [hrun] at h
    cases h
  | ok r =>
    obtain ⟨out, session⟩ := r
    rw [hrun] at h
    obtain ⟨u, hu, rfl⟩ := Option.map_eq_some_iff.mp h
    -- the calls leave what the command leaves
    have hfs := Option.some.inj ((FileCommand.run_fs hrun).symm.trans (Storage.exec_after hu))
    exact .file hu hfs

/-- The effects of the commands. -/
theorem run_effect (h : s.run k c = some s') : HeapEffect k s c s' := by
  cases c with
  | alloc argv => exact cmdAlloc_effect h
  | free argv => exact cmdFree_effect h
  | freelast => exact cmdFreelast_effect h
  | file c => exact fileCommand_effect h

/-! ### The ledger of a step -/

theorem Ledger.next_message {out : List VgaCall} (hout : addresses out = []) (hgiven : given s c = none) :
    Ledger.next s l c { s with printed := out } = l := by
  cases c with
  | alloc argv => rw [Ledger.next, hout]
  | free argv =>
    rw [Ledger.next, hgiven]
    exact nofun
  | freelast =>
    rw [Ledger.next, hgiven]
    exact nofun
  | file c => rfl

theorem Ledger.next_free {argv : List (List Byte)} (hgiven : given s (.free argv) = some p) :
    Ledger.next s l (.free argv) s' = l.release p := by
  rw [Ledger.next, hgiven]
  exact nofun

theorem Ledger.next_freelast (h0 : s.lastAlloc ≠ 0) :
    Ledger.next s l .freelast s' = l.release s.lastAlloc := by
  rw [Ledger.next, given, if_neg h0]
  exact nofun

/-- The latest block is among those that were not released. -/
def Ledger.Ok (l : Ledger) : Prop := ∀ p, l.latest = some p → p ∈ l.outstanding

theorem Ledger.Ok.release (h : l.Ok) (p : Word) : (l.release p).Ok := by
  intro q hq
  unfold Ledger.release at hq ⊢
  dsimp only at hq ⊢
  split_ifs at hq with hp
  refine List.mem_filter.mpr ⟨h q hq, decide_eq_true ?_⟩
  rintro rfl
  exact hp hq

theorem Ledger.release_latest {q : Word} (h : l.latest = some q) (hq : p ≠ q) :
    (l.release p).latest = some q := by
  unfold Ledger.release
  dsimp only
  rw [if_neg, h]
  rintro heq
  exact hq (Option.some.inj (heq.symm.trans h))

/-! ### What `last_alloc` is -/

/-- A step runs the command, and the ledger takes it down. -/
theorem exists_run (hs : ledgerMachine.step t c t') :
    ∃ s l s' k, t = (s, l) ∧ t' = (s', Ledger.next s l c s') ∧ s.run k c = some s' := by
  obtain ⟨s, l⟩ := t
  obtain ⟨s', l'⟩ := t'
  obtain ⟨⟨k, hrun⟩, rfl⟩ : (∃ k, s.run k c = some s') ∧ l' = Ledger.next s l c s' := hs
  exact ⟨s, l, s', k, rfl, rfl, hrun⟩

/-- `last_alloc` is forgotten, or it is the block of the most recent successful `alloc`, which was
not released. -/
structure Remembers (t : HeapSession × Ledger) : Prop where
  ledger : t.2.Ok
  last : t.1.lastAlloc ≠ 0 → t.2.latest = some t.1.lastAlloc

/-- A command that spares `last_alloc` keeps it what it is. -/
theorem Remembers.step (h : Remembers t) (hok : SparesLast t.1 c)
    (hs : ledgerMachine.step t c t') : Remembers t' := by
  obtain ⟨s, l, s', k, rfl, rfl, hrun⟩ := exists_run hs
  cases run_effect hrun with
  | message hout hgiven =>
    rw [Ledger.next_message hout hgiven]
    exact ⟨h.ledger, h.last⟩
  | failed _ _ _ hout =>
    rw [Ledger.next, hout]
    exact ⟨h.ledger, h.last⟩
  | alloc _ _ _ _ =>
    refine ⟨fun p hp => ?_, fun _ => rfl⟩
    obtain rfl := Option.some.inj hp
    exact List.mem_cons_self
  | free hgiven _ =>
    rw [Ledger.next_free hgiven]
    exact ⟨h.ledger.release _, fun h0 =>
      Ledger.release_latest (h.last h0) fun heq => hok (hgiven.trans (congrArg some heq))⟩
  | freelast h0 _ =>
    rw [Ledger.next_freelast h0]
    exact ⟨h.ledger.release _, fun h0 => absurd rfl h0⟩
  | file _ _ => exact ⟨h.ledger, h.last⟩

/-- While no `free` is given the address in `last_alloc`, it is the block of the most recent
successful `alloc`. -/
theorem remembers_of_reach (h : Reach ledgerMachine (fun t c => SparesLast t.1 c) t) : Remembers t := by
  refine h.invariant (I := Remembers) ?_ fun t c t' ht hok hs => ht.step hok hs
  rintro ⟨s, l⟩ ⟨⟨m, s₀, k, mainRoot, tmp, tmpRamfs, u, -, -, rfl⟩, rfl⟩
  exact ⟨nofun, fun h0 => absurd rfl h0⟩

/-! ### Whose block it is -/

/-- The blocks that were not released are in use, and none of them is the file system's. -/
def Kept (t : HeapSession × Ledger) : Prop := ∃ A, Stored t.2.outstanding t.1.storage A

/-- A regular command keeps the blocks apart, if no `free` is given anything but what `alloc` has printed. -/
theorem Kept.step (h : Kept t) (hrem : Remembers t) (hfree : FreesOutstanding t c)
    (hreg : RegularCommand t.1 c)
    (hs : ledgerMachine.step t c t') : Kept t' := by
  obtain ⟨s, l, s', k, rfl, rfl, hrun⟩ := exists_run hs
  obtain ⟨A, h⟩ := h
  cases run_effect hrun with
  | message hout hgiven =>
    rw [Ledger.next_message hout hgiven]
    exact ⟨A, h⟩
  | failed harg hsize hk hout =>
    rw [Ledger.next, hout]
    obtain ⟨A', h'⟩ := h.malloc (hreg _ harg hsize) hk
    exact ⟨A', h'⟩
  | alloc harg hsize hk h0 =>
    obtain ⟨A', h'⟩ := h.malloc (hreg _ harg hsize) hk
    rw [if_neg h0] at h'
    exact ⟨A', h'⟩
  | free hgiven hk =>
    rw [Ledger.next_free hgiven]
    exact h.free (hreg _ hgiven) (hfree _ hgiven) hk
  | freelast h0 hk =>
    rw [Ledger.next_freelast h0]
    exact h.free (hreg _ (if_neg h0)) (hrem.ledger _ (hrem.last h0)) hk
  | file hu hfs =>
    obtain ⟨A', h'⟩ := h.run (hreg _) hu
    refine ⟨A', ?_⟩
    unfold HeapSession.storage
    dsimp only
    rw [hfs]
    exact h'

theorem Kept.start (h : ledgerMachine.start t) : Kept t := by
  obtain ⟨s, l⟩ := t
  obtain ⟨⟨m, s₀, k, mainRoot, tmp, tmpRamfs, u, hs₀, hu, rfl⟩, rfl⟩ := h
  exact Stored.boot hs₀ hu

/-- The guard of the sessions in question. -/
abbrev ProperCommand (t : HeapSession × Ledger) (c : HeapCommand) : Prop :=
  FreesOutstanding t c ∧ SparesLast t.1 c ∧ RegularCommand t.1 c

/-- The blocks are kept apart in these sessions. -/
theorem kept_of_reach (h : Reach ledgerMachine ProperCommand t) : Remembers t ∧ Kept t := by
  have hrem {t : HeapSession × Ledger} (h : Reach ledgerMachine ProperCommand t) : Remembers t :=
    remembers_of_reach (h.imp fun _ _ _ hok => hok.2.1)
  refine ⟨hrem h, ?_⟩
  induction h with
  | start hs => exact .start hs
  | step hr hok hs ih => exact ih.step (hrem hr) hok.1 hok.2.2 hs

/-- A pointer that is remembered is to a block of the shell. -/
theorem Remembers.owns (hrem : Remembers t) (hkept : Kept t) : OwnsLast t := by
  intro p hp
  unfold given at hp
  dsimp only at hp
  split_ifs at hp with h0
  obtain rfl := Option.some.inj hp
  have hlast := hrem.last h0
  obtain ⟨A, hstored⟩ := hkept
  exact ⟨hlast, hstored.not_heldByFs (hrem.ledger _ hlast) h0⟩

/-- **What `freelast` would release is the shell's own**, in every session in which no `free` is given the
address in `last_alloc` and the heap allows every request and every free. -/
theorem ownsLast (h : Reach ledgerMachine
    (fun t c => FreesOutstanding t c ∧ SparesLast t.1 c ∧ RegularCommand t.1 c) t) : OwnsLast t := by
  obtain ⟨hrem, hkept⟩ := kept_of_reach h
  exact hrem.owns hkept

/-- The command is no `free`. -/
def HeapCommand.NoFree : HeapCommand → Prop
  | .free _ => False
  | _ => True

/-- Without `free` the block in `last_alloc` is never one of the file system. -/
theorem last_not_heldByFs (h : Reach heapMachine (fun s c => c.NoFree ∧ RegularCommand s c) s)
    (h0 : s.lastAlloc ≠ 0) : ¬ HeldByFs s.session.fs s.lastAlloc := by
  obtain ⟨l, hrec⟩ :
      ∃ l, Reach ledgerMachine (fun t c => c.NoFree ∧ RegularCommand t.1 c) (s, l) :=
      h.exists_record
  obtain ⟨hrem, hkept⟩ := kept_of_reach (hrec.imp fun t c _ ⟨hfree, hreg⟩ => by
    cases c with
    | free argv => exact hfree.elim
    | alloc argv => exact ⟨trivial, trivial, hreg⟩
    | freelast => exact ⟨trivial, trivial, hreg⟩
    | file c => exact ⟨trivial, trivial, hreg⟩)
  exact (hrem.owns hkept _ (if_neg h0)).2

theorem given_free_ne_zero {argv : List (List Byte)} (h : given s (.free argv) = some p) : p ≠ 0 :=
  of_decide_eq_true (Option.filter_eq_some_iff.mp h).2

/-- A `free` of the address in `last_alloc` leaves a pointer that `freelast` should not release. -/
theorem sparesLast_of_ownsLast (hs : ledgerMachine.step t c t') (h : OwnsLast t') : SparesLast t.1 c := by
  obtain ⟨s, l, s', k, rfl, rfl, hrun⟩ := exists_run hs
  cases c with
  | alloc argv => trivial
  | freelast => trivial
  | file c => trivial
  | free argv =>
    intro hgiven
    have h0 := given_free_ne_zero hgiven
    cases run_effect hrun with
    | message _ hnone => cases hnone.symm.trans hgiven
    | free _ _ =>
      have hlast := (h s.lastAlloc (if_neg h0)).1
      rw [Ledger.next_free hgiven] at hlast
      unfold Ledger.release at hlast
      dsimp only at hlast
      split_ifs at hlast with hlatest
      exact hlatest hlast

/-! ### Samples -/

instance (t : HeapSession × Ledger) : (c : HeapCommand) → Decidable (FreesOutstanding t c)
  -- the quantifier is over an option, not over all words
  | .free argv => Option.decidableForallMem (given t.1 (.free argv))
  | .alloc _ | .freelast | .file _ => .isTrue trivial

instance (s : HeapSession) : (c : HeapCommand) → Decidable (SparesLast s c)
  | .free argv => inferInstanceAs (Decidable (given s (.free argv) ≠ some s.lastAlloc))
  | .alloc _ | .freelast | .file _ => .isTrue trivial

/-- The calls of the file system that a command makes. -/
def HeapCommand.calls (s : HeapSession) : HeapCommand → List Call
  | .file c => c.calls s.session
  | _ => []

/-- The heap has one of the arenas, and all blocks are below the break. A command makes one call at most, and
no block is free when it releases one. -/
def Checked (arenas : List Arena) (s : HeapSession) (c : HeapCommand) : Prop :=
  (c.calls s).length ≤ 1 ∧ ∃ A ∈ arenas, IsArena s.heap A ∧ (∀ x ∈ A.blocks, x.addr < A.brk) ∧
    A.brk + 24 ≤ heapHi ∧
    (given s c = none ∨ A.Packed)

instance (arenas : List Arena) (s : HeapSession) (c : HeapCommand) : Decidable (Checked arenas s c) := by
  unfold Checked
  infer_instance

theorem Checked.regular {arenas : List Arena} (h : Checked arenas s c) : RegularCommand s c := by
  obtain ⟨hcalls, A, -, hA, hbelow, hroom, hpacked⟩ := h
  have hmalloc (n : Word) : s.heap.Regular (.malloc n) := by
    intro A' hA'
    rw [← hA.unique hA']
    exact Arena.allows_malloc hbelow hroom
  have hfree : ∀ p, given s c = some p → s.heap.Regular (.free p) := by
    intro p hp A' hA'
    rw [← hA.unique hA']
    exact (hpacked.resolve_left fun hnone => nomatch hnone.symm.trans hp).allows_free
  cases c with
  | alloc argv => exact fun arg _ _ => hmalloc _
  | free argv => exact hfree
  | freelast => exact hfree
  | file c =>
    intro k
    rw [HeapCommand.calls] at hcalls
    match hcs : c.calls s.session with
    | [] => trivial
    | [_] => exact ⟨fun n _ => hmalloc n, fun _ _ => trivial⟩
    | _ :: _ :: _ =>
      rw [hcs] at hcalls
      exact absurd hcalls (by simp)

/-- The storage after the boot, with nothing in the memory. -/
def bootStorage : Option Storage :=
  exec (Storage.call 8) ⟨Mm.boot fun _ => 0, FsState.init⟩ (kernelCalls 0x400014 0x400110 0x400210)

theorem exists_ledger_reach {P Q : HeapSession × Ledger → HeapCommand → Prop} [∀ t c, Decidable (P t c)]
    (hPQ : ∀ t c, P t c → Q t c) (cs : List HeapCommand) {α : Type*} {f : HeapSession × Ledger → α} {v : α}
    (h : (bootStorage.bind fun u =>
      (exec (fun t c => if P t c then recordExec (HeapSession.run 8) Ledger.next t c else
      none) (shellInit u, ⟨[], none⟩) cs).map f) = some v) :
    ∃ t, Reach ledgerMachine Q t ∧ f t = v := by
  obtain ⟨u, hu, h⟩ := Option.bind_eq_some_iff.mp h
  obtain ⟨t, ht, rfl⟩ := Option.map_eq_some_iff.mp h
  have hinit : fsMachine.start FsState.init := ⟨_, _, rfl⟩
  have hstart : ledgerMachine.start (shellInit u, ⟨[], none⟩) := ⟨⟨_, _, _, _, _, _, u, hinit, hu, rfl⟩, rfl⟩
  have hrun : Reach ledgerMachine P t := Reach.exec_guarded (f := recordExec (HeapSession.run 8) Ledger.next)
    (fun _ _ _ h => recordExec_step (M := heapMachine) (fun _ _ _ h => ⟨8, h⟩) h) (.start hstart) ht
  exact ⟨t, hrun.imp fun t c _ => hPQ t c, rfl⟩

/-- The arenas of the sample session: after the boot, and with one and two more blocks. -/
def sampleArenas : List Arena :=
  let boot : List Block := [⟨0x400000, 232, false⟩, ⟨0x4000FC, 232, false⟩, ⟨0x4001FC, 232, false⟩]
  [⟨boot, 0x4002FC⟩, ⟨boot ++ [⟨0x4002FC, 232, false⟩], 0x4003FC⟩,
    ⟨boot ++ [⟨0x4002FC, 232, false⟩, ⟨0x4003FC, 232, false⟩], 0x4004FC⟩,
    ⟨boot ++ [⟨0x4002FC, 232, true⟩, ⟨0x4003FC, 232, false⟩], 0x4004FC⟩]

/-- Of two blocks the first one is freed and given to the file "f". The second one is still that of
`freelast`. -/
def spared : List HeapCommand :=
  [.alloc [text "alloc", text "228"], .alloc [text "alloc", text "228"],
    .free [text "free", text "0x00400310"],
    .file (.mk [text "mk", text "f"] 0x400310)]

theorem ownsLast_spared : ∃ t, given t.1 .freelast = some 0x400410 ∧ t.1.session.fs.Live 0x400310 ∧
    OwnsLast t := by
  obtain ⟨t, ht, heq⟩ := exists_ledger_reach
    (P := fun t c => FreesOutstanding t c ∧ SparesLast t.1 c ∧ Checked sampleArenas t.1 c)
    (Q := fun t c => FreesOutstanding t c ∧ SparesLast t.1 c ∧ RegularCommand t.1 c)
    (fun _ _ h => ⟨h.1, h.2.1, h.2.2.regular⟩) spared
    (f := fun t => (given t.1 .freelast, decide (t.1.session.fs.Live 0x400310)))
    (v := (some 0x400410, true)) (by decide +kernel)
  obtain ⟨hlast, hlive⟩ := Prod.mk.inj heq
  exact ⟨t, hlast, of_decide_eq_true hlive, ownsLast ht⟩

/-- The block is freed by its address, and the file "f" gets it. -/
def recycled : List HeapCommand :=
  [.alloc [text "alloc", text "228"], .file (.mk [text "mk", text "g"] 0x400410),
    .free [text "free", text "0x00400310"], .file (.mk [text "mk", text "f"] 0x400310)]

/-- `freelast` then releases the file, though the heap allows all that was done. -/
theorem exists_recycled :
    ∃ t, Reach ledgerMachine (fun t c => FreesOutstanding t c ∧ RegularCommand t.1 c) t ∧
    given t.1 .freelast = some 0x400310 ∧ t.2.latest = none ∧ t.1.session.fs.Live 0x400310 := by
  obtain ⟨t, ht, heq⟩ :=
    exists_ledger_reach (P := fun t c => FreesOutstanding t c ∧ Checked sampleArenas t.1 c)
    (Q := fun t c => FreesOutstanding t c ∧ RegularCommand t.1 c) (fun _ _ h => ⟨h.1, h.2.regular⟩) recycled
    (f := fun t => (given t.1 .freelast, t.2.latest, decide (t.1.session.fs.Live 0x400310)))
    (v := (some 0x400310, none, true)) (by decide +kernel)
  obtain ⟨hlast, heq⟩ := Prod.mk.inj heq
  obtain ⟨hlatest, hlive⟩ := Prod.mk.inj heq
  exact ⟨t, ht, hlast, hlatest, of_decide_eq_true hlive⟩

/-- A block that was freed and belongs to a file is released once more. -/
theorem not_ownsLast : ¬ ∀ t, Reach ledgerMachine FreesOutstanding t → OwnsLast t := by
  intro hall
  obtain ⟨t, ht, hlast, hlatest, hlive⟩ := exists_recycled
  obtain ⟨hsame, hheld⟩ := hall t (ht.imp fun _ _ _ h => h.1) _ hlast
  exact hheld ⟨_, hlive, .inl rfl⟩

end SpatulaOS.Shell
