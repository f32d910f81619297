import Mathlib.Data.List.Basic
import Mathlib.Data.List.Find
import Mathlib.Data.List.Range
import Mathlib.Logic.Function.Basic

/-!
# A pair of interrupt controllers

Two 8259A controllers, of which the slave is wired to line 2 of the master, in fully nested mode:
a line with a lower number comes first, and a line in service holds back those behind it. A
controller is initialized by a sequence of command words (`Expects`); after that its data port is
the mask, and the command port ends the service of a line (`Chip.endService`). Of the operation
commands only the nonspecific end of interrupt is modelled; the others do nothing.

The processor acknowledges an interrupt in two pulses: at the first the master chooses a line,
at the second the controller of that line gives the vector (`Pair.acknowledge`). A request that
is withdrawn in between leaves a spurious interrupt, on the last line of its controller and
without a line in service there.
-/

namespace Pic

/-- What a controller takes the next byte at its data port for. -/
inductive Expects where
  /-- `ICW2` -/
  | vectors
  /-- `ICW3` -/
  | cascade
  /-- `ICW4` -/
  | mode
  /-- `OCW1` -/
  | mask
  deriving DecidableEq, Repr

/-- A controller. -/
structure Chip where
  expects : Expects
  /-- It has no cascade word, by `ICW1`. -/
  single : Bool
  /-- It has a mode word, by `ICW1`. -/
  moded : Bool
  /-- The vector of its first line. -/
  vectors : BitVec 8
  /-- The lines with a slave, or the line of the slave at its master. -/
  cascade : BitVec 8
  mode : BitVec 8
  mask : BitVec 8
  requested : ℕ → Bool
  inService : ℕ → Bool

namespace Chip

/-- The end of the service of the first line that is in service. -/
def endService (c : Chip) : Chip :=
  match (List.range 8).find? c.inService with
  | some i => { c with inService := Function.update c.inService i false }
  | none => c

/-- A byte at the command port: `ICW1`, or the nonspecific end of interrupt. -/
def command (c : Chip) (v : BitVec 8) : Chip :=
  if v.getLsbD 4 then
    { c with
      expects := .vectors
      single := v.getLsbD 1
      moded := v.getLsbD 0
      mode := 0
      mask := 0
      requested := fun _ => false
      inService := fun _ => false }
  else if v &&& 0xF8 = 0x20 then c.endService
  else c

/-- A byte at the data port. -/
def data (c : Chip) (v : BitVec 8) : Chip :=
  match c.expects with
  | .vectors =>
    { c with
      vectors := v &&& 0xF8
      expects := if c.single then if c.moded then .mode else .mask else .cascade }
  | .cascade => { c with cascade := v, expects := if c.moded then .mode else .mask }
  | .mode => { c with mode := v, expects := .mask }
  | .mask => { c with mask := v }

/-- The line asks for service. -/
def asks (c : Chip) (i : ℕ) : Bool := c.requested i && !c.mask.getLsbD i

/-- The line that is to be served: the first one that asks, unless one before it is in service. -/
def pending (c : Chip) : Option ℕ :=
  if c.expects = .mask then
    (List.range 8).find? fun i => c.asks i && (List.range (i + 1)).all fun j => !c.inService j
  else none

/-- The line is served: its request is over, and it is in service unless the mode ends it at once. -/
def serve (c : Chip) (i : ℕ) : Chip :=
  { c with
    requested := Function.update c.requested i false
    inService := if c.mode.getLsbD 1 then c.inService else Function.update c.inService i true }

/-- The vector of a line. -/
def vector (c : Chip) (i : ℕ) : BitVec 8 := c.vectors ||| BitVec.ofNat 8 i

end Chip

/-- The two controllers. -/
structure Pair where
  master : Chip
  slave : Chip

/-- The line of the master to which the slave is wired. -/
abbrev wired : ℕ := 2

namespace Pair

/-- A byte at one of the four ports. -/
def write (p : Pair) (port : BitVec 16) (v : BitVec 8) : Pair :=
  if port = 0x20 then { p with master := p.master.command v }
  else if port = 0x21 then { p with master := p.master.data v }
  else if port = 0xA0 then { p with slave := p.slave.command v }
  else if port = 0xA1 then { p with slave := p.slave.data v }
  else p

/-- The master, with the request of the slave. -/
def joined (p : Pair) : Chip :=
  { p.master with requested := Function.update p.master.requested wired p.slave.pending.isSome }

/-- An acknowledge cycle: the vector, if a controller gives one. At the second pulse the slave
has the requests `late`. -/
def acknowledge (p : Pair) (late : ℕ → Bool) : Option (BitVec 8 × Pair) :=
  match p.joined.pending with
  | none => some (p.master.vector 7, p)
  | some i =>
    let master := p.joined.serve i
    let slave := { p.slave with requested := late }
    if master.cascade.getLsbD i then
      if slave.cascade.toNat = i then
        match slave.pending with
        | some j => some (slave.vector j, ⟨master, slave.serve j⟩)
        | none => some (slave.vector 7, ⟨master, slave⟩)
      else none
    else some (master.vector i, ⟨master, slave⟩)

end Pair

/-! ### Controllers without a line in service -/

/-- The controller is initialized, and no line is in service. -/
structure Chip.Idle (c : Chip) : Prop where
  expects : c.expects = .mask
  normal : c.mode.getLsbD 1 = false
  inService : ∀ i, c.inService i = false

variable {c : Chip} {i : ℕ}

/-- Without a line in service the first line that asks is to be served. -/
theorem Chip.Idle.pending (h : c.Idle) : c.pending = (List.range 8).find? c.asks := by
  rw [Chip.pending, if_pos h.expects]
  congr 1
  funext i
  have hall : (List.range (i + 1)).all (fun j => !c.inService j) = true :=
    List.all_eq_true.mpr fun j _ => by rw [h.inService j]; rfl
  rw [hall, Bool.and_true]

theorem pending_lt (h : c.pending = some i) : i < 8 := by
  unfold Chip.pending at h
  split_ifs at h with hmask
  exact List.mem_range.mp (List.mem_of_find?_eq_some h)

theorem Chip.Idle.endService (h : c.Idle) : c.endService = c := by
  have hnone : (List.range 8).find? c.inService = none :=
    List.find?_eq_none.mpr fun j _ => by rw [h.inService j]; exact Bool.false_ne_true
  rw [Chip.endService, hnone]

/-- A line that is served and ended leaves the controller as it was, but for the request. -/
theorem Chip.Idle.serve_endService (h : c.Idle) (hi : i < 8) :
    (c.serve i).endService = { c with requested := Function.update c.requested i false } := by
  have hserve : (c.serve i).inService = Function.update c.inService i true := by
    rw [Chip.serve, if_neg (by rw [h.normal]; exact Bool.false_ne_true)]
  have hfind : (List.range 8).find? (c.serve i).inService = some i := by
    rw [hserve]
    refine List.find?_eq_some_iff_append.mpr ⟨Function.update_self .., List.range i,
      List.range' (i + 1) (7 - i), ?_, ?_⟩
    · have hsplit := List.range'_append_1 (s := 0) (m := i) (n := 7 - i + 1)
      rw [Nat.zero_add, show i + (7 - i + 1) = 8 by omega] at hsplit
      rw [List.range_eq_range', List.range_eq_range', ← List.range'_succ]
      exact hsplit.symm
    · intro j hj
      rw [Function.update_of_ne (List.mem_range.mp hj).ne, h.inService j]
      rfl
  have hback : Function.update (Function.update c.inService i true) i false = c.inService := by
    rw [Function.update_idem, ← h.inService i, Function.update_eq_self]
  rw [Chip.endService, hfind]
  dsimp only
  rw [hserve, hback]
  rfl

theorem Chip.Idle.of_requested (h : c.Idle) (r : ℕ → Bool) : ({ c with requested := r } : Chip).Idle :=
  ⟨h.expects, h.normal, h.inService⟩

end Pic
