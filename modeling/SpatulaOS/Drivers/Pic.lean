import SpatulaOS.Core.Interrupts
import SpatulaOS.Lib.Pic

/-!
# The interrupt controllers

`pic_remap` of `drivers/pic.c`, and the hardware interrupts that come after it: a controller gives a
vector, `isr_handler` is called with it, and what the handlers write goes to the controllers. The gates are
interrupt gates, so no handler is interrupted.

Whatever the devices do, every handler returns with no line in service (`interrupts_safe`). That is
why the second acknowledgement of the keyboard ends the service of no other line.
-/

namespace SpatulaOS.Drivers

open ByteMemory Runs Pic SpatulaOS.Core

/-- `PIC1_DATA`. -/
abbrev PIC1_DATA : BitVec 16 := 0x21

/-- `PIC2_DATA`. -/
abbrev PIC2_DATA : BitVec 16 := 0xA1

/-- `ICW1_INIT`. -/
abbrev ICW1_INIT : Byte := 0x10

/-- `ICW1_ICW4`. -/
abbrev ICW1_ICW4 : Byte := 0x01

/-- `ICW4_8086`. -/
abbrev ICW4_8086 : Byte := 0x01

/-- What `pic_remap` writes, with the masks that it read. -/
def remapWrites (a1 a2 : Byte) : List PortWrite :=
  [(PIC1_COMMAND, ICW1_INIT ||| ICW1_ICW4), (PIC2_COMMAND, ICW1_INIT ||| ICW1_ICW4),
    (PIC1_DATA, 0x20), (PIC2_DATA, 0x28),
    (PIC1_DATA, 4), (PIC2_DATA, 2), (PIC1_DATA, ICW4_8086), (PIC2_DATA, ICW4_8086),
      (PIC1_DATA, a1), (PIC2_DATA, a2)]

/-- The controllers after some writes. -/
def writePorts (p : Pair) (ws : List PortWrite) : Pair := ws.foldl (fun p w => p.write w.1 w.2) p

/-- `pic_remap`. -/
def picRemap (p : Pair) : Pair := writePorts p (remapWrites p.master.mask p.slave.mask)

/-! ### Hardware interrupts -/

/-- The controllers, the kernel, and the interrupts that were handled, the latest first. -/
structure Interrupted where
  pics : Pair
  kernel : Kernel
  handled : List Interrupt

/-- What happens. -/
inductive Event where
  /-- The devices raise and withdraw requests. -/
  | request (master slave : ℕ → Bool)
  /-- The processor takes an interrupt. The slave has the requests `late` when it is to give the vector,
  and the keyboard a scancode. -/
  | interrupt (late : ℕ → Bool) (scancode : Byte)

/-- One event. An interrupt is over when its handler returns. -/
def Interrupted.step (s : Interrupted) : Event → Option Interrupted
  | .request master slave =>
    some { s with pics := ⟨{ s.pics.master with requested := master },
      { s.pics.slave with requested := slave }⟩ }
  | .interrupt late scancode =>
    match s.pics.acknowledge late with
    | none => none
    | some (v, pics) =>
      let x : Interrupt := ⟨v.setWidth 32, 0, 0, scancode⟩
      (dispatch s.kernel x).map fun k =>
        ⟨writePorts pics (k.ports.drop s.kernel.ports.length), k, x :: s.handled⟩

/-- The lines of the two controllers, numbered as in the source, by priority. Line 2 of the master
is the slave. -/
def priority : List ℕ := [0, 1] ++ (List.range 8).map (· + 8) ++ [3, 4, 5, 6, 7]

/-- The device on a line requests an interrupt. -/
def requests (p : Pair) (line : ℕ) : Bool :=
  if line < 8 then p.master.requested line else p.slave.requested (line - 8)

/-- The request of a line is not masked. -/
def asks (p : Pair) (line : ℕ) : Bool :=
  if line < 8 then p.master.asks line else p.slave.asks (line - 8) && !p.master.mask.getLsbD wired

/-- The interrupt of a line. -/
def onLine (line : ℕ) (scancode : Byte) : Interrupt := ⟨BitVec.ofNat 32 (32 + line), 0, 0, scancode⟩

/-- The line that comes first was served: its handler was called, and no other request is over.
Without a line that asks the interrupt is a spurious one. -/
def ServedFirst (s s' : Interrupted) (scancode : Byte) : Prop :=
  match priority.find? (asks s.pics) with
  | some line => s'.handled = onLine line scancode :: s.handled ∧
    ∀ i ∈ priority, requests s'.pics i = (requests s.pics i && decide (i ≠ line))
  | none => s'.handled = onLine 7 scancode :: s.handled ∧ s'.pics = s.pics

/-- The line of an interrupt, and the requests that are left after it. -/
inductive Outcome (p : Pair) (late : ℕ → Bool) : ℕ → (ℕ → Bool) → (ℕ → Bool) → Prop where
  /-- No line asks. -/
  | spurious (hp : p.joined.pending = none) : Outcome p late 7 p.master.requested p.slave.requested
  /-- A line of the master. -/
  | master {i : ℕ} (hi : i < 8) (hw : i ≠ wired) (hp : p.joined.pending = some i) :
    Outcome p late i (Function.update p.joined.requested i false) late
  /-- A line of the slave. -/
  | slave {j : ℕ} (hj : j < 8) (hp : p.joined.pending = some wired)
    (hlate : ({ p.slave with requested := late } : Chip).pending = some j) :
    Outcome p late (j + 8) (Function.update p.joined.requested wired false) (Function.update late j false)
  /-- The line of the slave was withdrawn. -/
  | withdrawn (hp : p.joined.pending = some wired)
    (hlate : ({ p.slave with requested := late } : Chip).pending = none) :
    Outcome p late 15 (Function.update p.joined.requested wired false) late

/-- The controllers as `pic_remap` sets them up, without a line in service. -/
structure Remapped (a1 a2 : Byte) (p : Pair) : Prop where
  master : p.master.Idle
  slave : p.slave.Idle
  master_vectors : p.master.vectors = 0x20
  slave_vectors : p.slave.vectors = 0x28
  master_cascade : p.master.cascade = 4
  slave_cascade : p.slave.cascade = 2
  master_mask : p.master.mask = a1
  slave_mask : p.slave.mask = a2

variable {p p' : Pair} {a1 a2 : Byte} {s s' : Interrupted} {late : ℕ → Bool} {i j line : ℕ} {scancode : Byte}

theorem picRemap_eq (p : Pair) : picRemap p =
    ⟨⟨.mask, false, true, 0x20, 4, 1, p.master.mask, fun _ => false, fun _ => false⟩,
      ⟨.mask, false, true, 0x28, 2, 1, p.slave.mask, fun _ => false, fun _ => false⟩⟩ := rfl

/-- `pic_remap` sets the controllers up from any state, and restores their masks. -/
theorem remapped_picRemap (p : Pair) : Remapped p.master.mask p.slave.mask (picRemap p) := by
  rw [picRemap_eq]
  have hnormal : (1 : Byte).getLsbD 1 = false := rfl
  exact ⟨⟨rfl, hnormal, fun _ => rfl⟩, ⟨rfl, hnormal, fun _ => rfl⟩, rfl, rfl, rfl, rfl, rfl, rfl⟩

/-! ### An acknowledge cycle -/

theorem joined_idle (h : Remapped a1 a2 p) : p.joined.Idle := h.master.of_requested _

/-- The master serves no line but its own and the slave's. -/
theorem master_vector (h : Remapped a1 a2 p) (hi : i < 8) : p.master.vector i = BitVec.ofNat 8 (32 + i) := by
  rw [Chip.vector, h.master_vectors]
  interval_cases i <;> rfl

theorem slave_vector (h : Remapped a1 a2 p) (hj : j < 8) : p.slave.vector j = BitVec.ofNat 8 (40 + j) := by
  rw [Chip.vector, h.slave_vectors]
  interval_cases j <;> rfl

theorem cascade_iff (hi : i < 8) : (4 : Byte).getLsbD i = true ↔ i = wired := by
  interval_cases i <;> decide

/-- What an acknowledge cycle gives: a spurious interrupt, a line of the master, a line of the
slave, or a spurious interrupt of the slave. -/
theorem acknowledge_cases (h : Remapped a1 a2 p) (late : ℕ → Bool) :
    (p.joined.pending = none ∧ p.acknowledge late = some (39, p)) ∨
    (∃ i, i < 8 ∧ i ≠ wired ∧ p.joined.pending = some i ∧
      p.acknowledge late =
        some (BitVec.ofNat 8 (32 + i), ⟨p.joined.serve i, { p.slave with requested := late }⟩)) ∨
    (∃ j, j < 8 ∧ p.joined.pending = some wired ∧
    ({ p.slave with requested := late } : Chip).pending = some j ∧
      p.acknowledge late =
        some (BitVec.ofNat 8 (40 + j),
          ⟨p.joined.serve wired, ({ p.slave with requested := late } : Chip).serve j⟩)) ∨
    (p.joined.pending = some wired ∧ ({ p.slave with requested := late } : Chip).pending = none ∧
      p.acknowledge late = some (47, ⟨p.joined.serve wired, { p.slave with requested := late }⟩)) := by
  have hcascade : p.master.cascade = 4 := h.master_cascade
  unfold Pair.acknowledge
  cases hp : p.joined.pending with
  | none => exact .inl ⟨rfl, by rw [master_vector h (by decide)]; rfl⟩
  | some i =>
    have hi := pending_lt hp
    right
    dsimp only
    by_cases hw : i = wired
    · subst hw
      rw [if_pos (show (p.joined.serve wired).cascade.getLsbD wired = true by
        show p.master.cascade.getLsbD wired = true
        rw [hcascade]
        rfl), if_pos (show p.slave.cascade.toNat = wired by rw [h.slave_cascade]; rfl)]
      right
      cases hq : ({ p.slave with requested := late } : Chip).pending with
      | none => exact .inr ⟨rfl, rfl, congrArg (fun v => some (v, _)) (slave_vector h (j := 7) (by decide))⟩
      | some j =>
        have hj := pending_lt hq
        exact .inl ⟨j, hj, rfl, rfl, congrArg (fun v => some (v, _)) (slave_vector h hj)⟩
    · refine .inl ⟨i, hi, hw, rfl, ?_⟩
      rw [if_neg (show ¬ (p.joined.serve i).cascade.getLsbD i = true by
        show ¬ p.master.cascade.getLsbD i = true
        rw [hcascade, cascade_iff hi]
        exact hw)]
      exact congrArg (fun v => some (v, _)) (master_vector h hi)

theorem priority_find (p : Pair) : priority.find? (asks p) =
    (([0, 1].find? p.master.asks).or ((if p.master.mask.getLsbD wired then none else
      (List.range 8).find? p.slave.asks).map (· + 8))).or ([3, 4, 5, 6, 7].find? p.master.asks) := by
  have hlow (l : List ℕ) (hl : ∀ i ∈ l, i < 8) : l.find? (asks p) = l.find? p.master.asks :=
    List.find?_congr fun i hi => by rw [asks, if_pos (hl i hi)]
  have hhigh : ((List.range 8).map (· + 8)).find? (asks p) =
      (if p.master.mask.getLsbD wired then none else (List.range 8).find? p.slave.asks).map (· + 8) := by
    rw [List.find?_map]
    congr 1
    split_ifs with hmask
    · refine List.find?_eq_none.mpr fun i _ => ?_
      rw [Function.comp_apply, asks, if_neg (by omega), hmask, Bool.not_true, Bool.and_false]
      exact Bool.false_ne_true
    · refine List.find?_congr fun i _ => ?_
      rw [Function.comp_apply, asks, if_neg (by omega), Bool.eq_false_iff.mpr hmask,
        Bool.not_false, Bool.and_true,
        Nat.add_sub_cancel]
  rw [priority, List.find?_append, List.find?_append, hlow [0, 1] (by decide),
    hlow [3, 4, 5, 6, 7] (by decide), hhigh]

theorem joined_find (h : Remapped a1 a2 p) : p.joined.pending =
    (([0, 1].find? p.master.asks).or
      (if p.slave.pending.isSome && !p.master.mask.getLsbD wired then some wired else
      none)).or ([3, 4, 5, 6, 7].find? p.master.asks) := by
  have hlow (l : List ℕ) (hl : ∀ i ∈ l, i ≠ wired) : l.find? p.joined.asks = l.find? p.master.asks := by
    refine List.find?_congr fun i hi => ?_
    show (Function.update p.master.requested wired p.slave.pending.isSome i && _) = _
    rw [Function.update_of_ne (hl i hi)]
    rfl
  have hwired : [wired].find? p.joined.asks =
      if p.slave.pending.isSome && !p.master.mask.getLsbD wired then some wired else none := by
    rw [List.find?_singleton]
    show (if (Function.update p.master.requested wired p.slave.pending.isSome wired && _) then _ else _) = _
    rw [Function.update_self]
    rfl
  rw [(joined_idle h).pending, show List.range 8 = [0, 1] ++ [wired] ++ [3, 4, 5, 6, 7] from rfl,
    List.find?_append,
    List.find?_append, hlow [0, 1] (by decide), hlow [3, 4, 5, 6, 7] (by decide), hwired]

/-- The first line by priority is the one that an acknowledge cycle finds. -/
theorem served_cases (h : Remapped a1 a2 p) :
    (priority.find? (asks p) = none ∧ p.joined.pending = none) ∨
    (∃ i, i < 8 ∧ i ≠ wired ∧ priority.find? (asks p) = some i ∧ p.joined.pending = some i) ∨
    (∃ j, j < 8 ∧ priority.find? (asks p) = some (j + 8) ∧ p.joined.pending = some wired ∧
      p.slave.pending = some j) := by
  have hmem {l : List ℕ} {i : ℕ} (hi : l.find? p.master.asks = some i) : i ∈ l := List.mem_of_find?_eq_some hi
  rw [priority_find, joined_find h, ← h.slave.pending]
  cases hlow : [0, 1].find? p.master.asks with
  | some i =>
    have hi : i = 0 ∨ i = 1 := by simpa using hmem hlow
    exact .inr (.inl ⟨i, by omega, by show i ≠ 2; omega, rfl, rfl⟩)
  | none =>
    have htail : (([3, 4, 5, 6, 7].find? p.master.asks = none) ∨
        ∃ i, i < 8 ∧ i ≠ wired ∧ [3, 4, 5, 6, 7].find? p.master.asks = some i) := by
      cases htail : [3, 4, 5, 6, 7].find? p.master.asks with
      | none => exact .inl rfl
      | some i =>
        have hi : i = 3 ∨ i = 4 ∨ i = 5 ∨ i = 6 ∨ i = 7 := by simpa using hmem htail
        exact .inr ⟨i, by omega, by show i ≠ 2; omega, rfl⟩
    cases hmask : p.master.mask.getLsbD wired with
    | true =>
      simp only [Bool.not_true, Bool.and_false, Bool.false_eq_true, if_false, if_true,
        Option.map_none, Option.none_or]
      obtain hnone | ⟨i, hi, hw, hsome⟩ := htail
      · exact .inl ⟨hnone, hnone⟩
      · exact .inr (.inl ⟨i, hi, hw, hsome, hsome⟩)
    | false =>
      cases hslave : p.slave.pending with
      | some j =>
        exact .inr (.inr ⟨j, pending_lt hslave, rfl, rfl, rfl⟩)
      | none =>
        simp only [Option.isSome_none, Bool.false_and, Bool.false_eq_true, if_false,
          Option.map_none, Option.none_or]
        obtain hnone | ⟨i, hi, hw, hsome⟩ := htail
        · exact .inl ⟨hnone, hnone⟩
        · exact .inr (.inl ⟨i, hi, hw, hsome, hsome⟩)

/-! ### The acknowledgements at the controllers -/

theorem command_eoi (c : Chip) : c.command EOI = c.endService := by
  rw [Chip.command, if_neg (by decide), if_pos (by decide)]

theorem write_master (p : Pair) : p.write PIC1_COMMAND EOI = ⟨p.master.endService, p.slave⟩ := by
  rw [Pair.write, if_pos rfl, command_eoi]

theorem write_slave (p : Pair) : p.write PIC2_COMMAND EOI = ⟨p.master, p.slave.endService⟩ := by
  rw [Pair.write, if_neg (by decide), if_neg (by decide), if_pos rfl, command_eoi]

/-- What is written for the lines: one acknowledgement at the master, two for the keyboard, and one
more at the slave. -/
theorem acknowledgements_line {x : Interrupt} (hx : x.intNo = BitVec.ofNat 32 (32 + line))
    (hline : line < 16) :
    acknowledgements x = if line = 1 then [(PIC1_COMMAND, EOI), (PIC1_COMMAND, EOI)]
      else if line < 8 then [(PIC1_COMMAND, EOI)] else [(PIC2_COMMAND, EOI), (PIC1_COMMAND, EOI)] := by
  rw [acknowledgements, hx]
  interval_cases line <;> decide

/-- The second acknowledgement of the keyboard comes when no line is in service. -/
theorem writePorts_master {x : Interrupt} (hx : x.intNo = BitVec.ofNat 32 (32 + i)) (hi : i < 8)
    (hidle : p.master.endService.Idle) :
      writePorts p (acknowledgements x) = ⟨p.master.endService, p.slave⟩ := by
  rw [acknowledgements_line hx (by omega)]
  split_ifs
  · show (p.write PIC1_COMMAND EOI).write PIC1_COMMAND EOI = _
    rw [write_master, write_master, hidle.endService]
  · exact write_master p

theorem writePorts_slave {x : Interrupt} (hx : x.intNo = BitVec.ofNat 32 (32 + (j + 8))) (hj : j < 8) :
    writePorts p (acknowledgements x) = ⟨p.master.endService, p.slave.endService⟩ := by
  rw [acknowledgements_line hx (by omega), if_neg (by omega), if_neg (by omega)]
  show (p.write PIC2_COMMAND EOI).write PIC1_COMMAND EOI = _
  rw [write_slave, write_master]

/-! ### Runs -/

theorem onLine_hardware (hline : line < 16) (scancode : Byte) : (onLine line scancode).Hardware := by
  show (32 : Word) ≤ BitVec.ofNat 32 (32 + line) ∧ BitVec.ofNat 32 (32 + line) ≤ 47
  interval_cases line <;> decide

theorem step_acknowledged (line : ℕ) (scancode : Byte)
    (hack : s.pics.acknowledge late = some (BitVec.ofNat 8 (32 + line), p)) (hline : line < 16) :
    ∃ k, dispatch s.kernel (onLine line scancode) = some k ∧ s.step (.interrupt late scancode) =
      some ⟨writePorts p (acknowledgements (onLine line scancode)), k,
        onLine line scancode :: s.handled⟩ := by
  obtain ⟨k, hk, hports⟩ := dispatch_hardware (onLine_hardware hline scancode) s.kernel
  have hvector : (BitVec.ofNat 8 (32 + line)).setWidth 32 = BitVec.ofNat 32 (32 + line) := by
    interval_cases line <;> rfl
  refine ⟨k, hk, ?_⟩
  simp only [Interrupted.step, hack, hvector]
  rw [← onLine, hk, Option.map_some, hports, List.drop_left]

theorem Remapped.of_requested (h : Remapped a1 a2 p) (r r' : ℕ → Bool) :
    Remapped a1 a2 ⟨{ p.master with requested := r }, { p.slave with requested := r' }⟩ :=
  ⟨h.master.of_requested r, h.slave.of_requested r', h.master_vectors, h.slave_vectors,
    h.master_cascade, h.slave_cascade,
    h.master_mask, h.slave_mask⟩

/-- An interrupt is handled, and changes the controllers by their requests only. -/
theorem step_interrupt (h : Remapped a1 a2 s.pics) (late : ℕ → Bool) (scancode : Byte) :
    ∃ line k r r', Outcome s.pics late line r r' ∧ line < 16 ∧
      dispatch s.kernel (onLine line scancode) = some k ∧
      s.step (.interrupt late scancode) =
        some ⟨⟨{ s.pics.master with requested := r }, { s.pics.slave with requested := r' }⟩, k,
          onLine line scancode :: s.handled⟩ := by
  obtain ⟨hp, hack⟩ | ⟨i, hi, hw, hp, hack⟩ | ⟨j, hj, hp, hlate, hack⟩ | ⟨hp, hlate, hack⟩ :=
    acknowledge_cases h late
  · obtain ⟨k, hk, hstep⟩ := step_acknowledged 7 scancode hack (by decide)
    rw [writePorts_master rfl (by decide) (by rw [h.master.endService]; exact h.master),
      h.master.endService] at hstep
    exact ⟨7, k, _, _, .spurious hp, by decide, hk, hstep⟩
  · obtain ⟨k, hk, hstep⟩ := step_acknowledged i scancode hack (by omega)
    have hend := (joined_idle h).serve_endService hi
    rw [writePorts_master rfl hi (by rw [hend]; exact h.master.of_requested _), hend] at hstep
    exact ⟨i, k, _, _, .master hi hw hp, by omega, hk, hstep⟩
  · rw [show 40 + j = 32 + (j + 8) by omega] at hack
    obtain ⟨k, hk, hstep⟩ := step_acknowledged (j + 8) scancode hack (by omega)
    rw [writePorts_slave rfl hj, (joined_idle h).serve_endService (by decide),
      (h.slave.of_requested late).serve_endService hj] at hstep
    exact ⟨j + 8, k, _, _, .slave hj hp hlate, by omega, hk, hstep⟩
  · obtain ⟨k, hk, hstep⟩ := step_acknowledged (7 + 8) scancode hack (by decide)
    rw [writePorts_slave rfl (by decide), (joined_idle h).serve_endService (by decide),
      (h.slave.of_requested late).endService] at hstep
    exact ⟨15, k, _, _, .withdrawn hp hlate, by decide, hk, hstep⟩

/-- A served line of the master has no effect on the other requests. -/
theorem requests_master {q : Pair} (hi : i < 8)
    (hmaster : q.master.requested = Function.update p.joined.requested i false)
    (hslave : q.slave.requested = p.slave.requested) (hline : line ∈ priority) :
    requests q line = (requests p line && decide (line ≠ i)) := by
  have hne : line ≠ wired := by
    rintro rfl
    exact absurd hline (by decide)
  by_cases hlow : line < 8
  · rw [requests, requests, if_pos hlow, if_pos hlow, hmaster]
    by_cases heq : line = i
    · rw [heq, Function.update_self, decide_eq_false (by simp), Bool.and_false]
    · rw [Function.update_of_ne heq, decide_eq_true heq, Bool.and_true]
      exact Function.update_of_ne hne ..
  · rw [requests, requests, if_neg hlow, if_neg hlow, hslave, decide_eq_true (by omega), Bool.and_true]

theorem requests_slave {q : Pair} (hj : j < 8)
    (hmaster : q.master.requested = Function.update p.joined.requested wired false)
    (hslave : q.slave.requested = Function.update p.slave.requested j false) (hline : line ∈ priority) :
    requests q line = (requests p line && decide (line ≠ j + 8)) := by
  have hne : line ≠ wired := by
    rintro rfl
    exact absurd hline (by decide)
  by_cases hlow : line < 8
  · rw [requests, requests, if_pos hlow, if_pos hlow, hmaster, Function.update_of_ne hne,
      decide_eq_true (by omega),
      Bool.and_true]
    exact Function.update_of_ne hne ..
  · rw [requests, requests, if_neg hlow, if_neg hlow, hslave]
    by_cases heq : line = j + 8
    · rw [heq, Nat.add_sub_cancel, Function.update_self, decide_eq_false (by simp), Bool.and_false]
    · rw [Function.update_of_ne (by omega), decide_eq_true heq, Bool.and_true]

/-- Without a change in between, the first line by priority is served. -/
theorem step_first (h : Remapped a1 a2 s.pics)
    (hstep : s.step (.interrupt s.pics.slave.requested scancode) = some s') :
    ServedFirst s s' scancode := by
  obtain ⟨line, k, r, r', hout, -, -, hnext⟩ := step_interrupt h s.pics.slave.requested scancode
  cases hstep.symm.trans hnext
  have hfirst := served_cases h
  cases hout with
  | spurious hp =>
    simp only [hp, reduceCtorEq, false_and, and_false, exists_false, or_false, and_true] at hfirst
    rw [ServedFirst, hfirst]
    exact ⟨rfl, rfl⟩
  | master hi hw hp =>
    obtain ⟨-, hnone⟩ | ⟨i, -, -, hfirst, hi'⟩ | ⟨j, -, -, hj, -⟩ := hfirst
    · cases hnone.symm.trans hp
    · cases hi'.symm.trans hp
      rw [ServedFirst, hfirst]
      exact ⟨rfl, fun l hl => requests_master hi rfl rfl hl⟩
    · cases hj.symm.trans hp
      exact absurd rfl hw
  | slave hj hp hlate =>
    obtain ⟨-, hnone⟩ | ⟨i, -, hw, -, hi'⟩ | ⟨j, -, hfirst, -, hq⟩ := hfirst
    · cases hnone.symm.trans hp
    · cases hi'.symm.trans hp
      exact absurd rfl hw
    · cases hq.symm.trans hlate
      rw [ServedFirst, hfirst]
      exact ⟨rfl, fun l hl => requests_slave hj rfl rfl hl⟩
  | withdrawn hp hlate =>
    obtain ⟨-, hnone⟩ | ⟨i, -, hw, -, hi'⟩ | ⟨j, -, hfirst, -, hq⟩ := hfirst
    · cases hnone.symm.trans hp
    · cases hi'.symm.trans hp
      exact absurd rfl hw
    · cases hq.symm.trans hlate

/-- What a run from `pic_remap` keeps. -/
structure Handling (k : Kernel) (a1 a2 : Byte) (s : Interrupted) : Prop where
  pics : Remapped a1 a2 s.pics
  handled : ∀ x ∈ s.handled, x.Hardware
  kernel : exec dispatch k s.handled.reverse = some s.kernel

theorem handling_step {k : Kernel} (h : Handling k a1 a2 s) (e : Event) :
    ∃ s', s.step e = some s' ∧ Handling k a1 a2 s' := by
  cases e with
  | request master slave => exact ⟨_, rfl, h.pics.of_requested master slave, h.handled, h.kernel⟩
  | interrupt late scancode =>
    obtain ⟨line, k', r, r', -, hline, hk, hstep⟩ := step_interrupt h.pics late scancode
    refine ⟨_, hstep, h.pics.of_requested r r', ?_, ?_⟩
    · rintro x (_ | ⟨_, hx⟩)
      · exact onLine_hardware hline scancode
      · exact h.handled x hx
    · show exec dispatch k (onLine line scancode :: s.handled).reverse = some k'
      rw [List.reverse_cons, exec_append, h.kernel, Option.bind_some, exec, hk]
      rfl

theorem handling_run {k : Kernel} (h : Handling k a1 a2 s) (events : List Event) :
    ∃ s', exec Interrupted.step s events = some s' ∧ Handling k a1 a2 s' := by
  induction events generalizing s with
  | nil => exact ⟨s, rfl, h⟩
  | cons e es ih =>
    obtain ⟨t, hstep, ht⟩ := handling_step h e
    obtain ⟨s', hes, hs'⟩ := ih ht
    exact ⟨s', by rw [exec, hstep, Option.bind_some, hes], hs'⟩

/-- **Interrupts after `pic_remap`.** From any state of the controllers and of the kernel, whatever
the devices request and withdraw and whenever the processor takes an interrupt: every handler
returns, the kernel is as if the handlers had been called one after the other, no line stays in
service and the masks are as before. The next interrupt is that of the first line by priority. -/
theorem interrupts_safe (p : Pair) (k : Kernel) (events : List Event) :
    ∃ s, exec Interrupted.step ⟨picRemap p, k, []⟩ events = some s ∧ Handling k p.master.mask p.slave.mask s ∧
      ∀ scancode, ∃ s', s.step (.interrupt s.pics.slave.requested scancode) = some s' ∧
        ServedFirst s s' scancode := by
  obtain ⟨s, hs, h⟩ :=
    handling_run (s := ⟨picRemap p, k, []⟩) (k := k) ⟨remapped_picRemap p, by simp, rfl⟩ events
  refine ⟨s, hs, h, fun scancode => ?_⟩
  obtain ⟨s', hstep, -⟩ := handling_step h (.interrupt s.pics.slave.requested scancode)
  exact ⟨s', hstep, step_first h.pics hstep⟩

end SpatulaOS.Drivers
