import SpatulaOS.Lib.Memory
import Mathlib.Logic.Relation

/-!
# A fragment of the 32-bit x86

The instructions that save, restore and switch register files, on a machine with the general
registers, the instruction pointer, the code and data segment selectors, the flags and
a byte-addressed memory. Where the code lies and how long an instruction is in memory is left
open: a `Code` gives the instruction at an address and the address behind it.

Proofs follow the words on the stack (`Stacked`); a function of another language is known by
its calling convention (`Cdecl`).
-/

namespace X86

open ByteMemory Relation

/-- The general registers. -/
inductive Reg where
  | eax | ecx | edx | ebx | esp | ebp | esi | edi
  deriving DecidableEq, Repr

/-- The machine. -/
structure State where
  /-- The general registers. -/
  reg : Reg → Word
  eip : Word
  cs : BitVec 16
  ds : BitVec 16
  eflags : Word
  mem : Mem

/-- The instructions. -/
inductive Instr where
  | push (r : Reg)
  /-- `push dword w` -/
  | pushImm (w : Word)
  | pusha
  | popa
  /-- `mov d, [b + k]` -/
  | movLoad (d b : Reg) (k : Word)
  /-- `mov [b + k], r` -/
  | movStore (b : Reg) (k : Word) (r : Reg)
  /-- `add d, w` -/
  | addImm (d : Reg) (w : Word)
  | jmp (a : Word)
  | call (a : Word)
  | ret
  | iretd
  deriving DecidableEq, Repr

/-! ### What an instruction does -/

/-- The stack pointer. -/
abbrev State.esp (s : State) : Word := s.reg .esp

def State.set (s : State) (r : Reg) (w : Word) : State := { s with reg := Function.update s.reg r w }

def State.push (s : State) (w : Word) : State :=
  { s.set .esp (s.esp - 4) with mem := s.mem.store (s.esp - 4) w }

theorem push_esp (s : State) (w : Word) : (s.push w).esp = s.esp - 4 := rfl

/-- The words are pushed one after the other. -/
def State.pushes (s : State) (ws : List Word) : State := ws.foldl State.push s

/-- `pusha` pushes the registers as they were before it. -/
def State.pusha (s : State) : State :=
  s.pushes ([Reg.eax, .ecx, .edx, .ebx, .esp, .ebp, .esi, .edi].map s.reg)

/-- The registers after `popa`, which skips the stack pointer that was pushed. -/
def State.popped (s : State) : Reg → Word
  | .edi => s.mem.load s.esp
  | .esi => s.mem.load (s.esp + 4)
  | .ebp => s.mem.load (s.esp + 8)
  | .esp => s.esp + 32
  | .ebx => s.mem.load (s.esp + 16)
  | .edx => s.mem.load (s.esp + 20)
  | .ecx => s.mem.load (s.esp + 24)
  | .eax => s.mem.load (s.esp + 28)

/-- The flags after an addition: carry, parity, auxiliary carry, zero, sign and overflow. -/
def addFlags (eflags a b : Word) : Word :=
  let sum := a + b
  let bit (p : Bool) (i : ℕ) : Word := if p then 1 <<< i else 0
  let low := List.range 8
  (eflags &&& ~~~0x8D5) ||| bit (sum < a) 0 ||| bit ((low.countP sum.getLsbD) % 2 = 0) 2 |||
    bit (sum.extractLsb' 0 4 < a.extractLsb' 0 4) 4 ||| bit (sum = 0) 6 ||| bit sum.msb 7 |||
    bit (a.msb = b.msb ∧ sum.msb ≠ a.msb) 11

/-- The state after an instruction with the address `next` behind it. -/
def exec (i : Instr) (next : Word) (s : State) : State :=
  match i with
  | .push r => { s.push (s.reg r) with eip := next }
  | .pushImm w => { s.push w with eip := next }
  | .pusha => { s.pusha with eip := next }
  | .popa => { s with reg := s.popped, eip := next }
  | .movLoad d b k => { s.set d (s.mem.load (s.reg b + k)) with eip := next }
  | .movStore b k r => { s with mem := s.mem.store (s.reg b + k) (s.reg r), eip := next }
  | .addImm d w => { s.set d (s.reg d + w) with eip := next, eflags := addFlags s.eflags (s.reg d) w }
  | .jmp a => { s with eip := a }
  | .call a => { s.push next with eip := a }
  | .ret => { s.set .esp (s.esp + 4) with eip := s.mem.load s.esp }
  | .iretd => { s.set .esp (s.esp + 12) with
      eip := s.mem.load s.esp, cs := (s.mem.load (s.esp + 4)).setWidth 16, eflags := s.mem.load (s.esp + 8) }

/-! ### Code -/

/-- The code: the instruction at an address, and the address behind it. -/
abbrev Code := Word → Option (Instr × Word)

/-- The instructions lie one behind the other from `a` on. -/
def CodeAt (code : Code) : Word → List Instr → Prop
  | _, [] => True
  | a, i :: is => match code a with
    | some (j, b) => j = i ∧ CodeAt code b is
    | none => False

instance CodeAt.decidable (code : Code) : (a : Word) → (is : List Instr) → Decidable (CodeAt code a is)
  | _, [] => .isTrue trivial
  | a, i :: is => match h : code a with
    | some (j, b) =>
      have := CodeAt.decidable code b is
      decidable_of_iff (j = i ∧ CodeAt code b is) (by rw [CodeAt, h])
    | none => .isFalse (by rw [CodeAt, h]; exact id)

/-- One instruction. Where there is none, the machine stops. -/
def step (code : Code) (s : State) : Option State := (code s.eip).map fun (i, next) => exec i next s

/-- A number of instructions. -/
def runs (code : Code) : ℕ → State → Option State
  | 0, s => some s
  | n + 1, s => (step code s).bind (runs code n)

/-- The machine goes from `s` to `t`. -/
def Steps (code : Code) (s t : State) : Prop := ReflTransGen (fun a b => step code a = some b) s t

variable {code : Code} {s t u : State} {m m' : Mem} {a e w : Word} {ws vs : List Word} {i : Instr}
  {is : List Instr}

theorem CodeAt.cons (h : CodeAt code a (i :: is)) : ∃ b, code a = some (i, b) ∧ CodeAt code b is := by
  rw [CodeAt] at h
  split at h
  · obtain ⟨rfl, h⟩ := h
    exact ⟨_, ‹_›, h⟩
  · exact h.elim

theorem step_eq {next : Word} (h : code s.eip = some (i, next)) : step code s = some (exec i next s) := by
  rw [step, h]
  rfl

theorem Steps.head (h : step code s = some t) (ht : Steps code t u) : Steps code s u := ReflTransGen.head h ht

theorem Steps.unique (ht : Steps code s t) (hu : Steps code s u) (hts : code t.eip = none)
    (hus : code u.eip = none) : t = u := by
  have hstop {v w : State} (hv : code v.eip = none) (h : Steps code v w) : w = v := by
    cases h.cases_head with
    | inl h => exact h.symm
    | inr h =>
      obtain ⟨x, hx, -⟩ := h
      rw [step, hv] at hx
      cases hx
  have hright : Relator.RightUnique fun a b => step code a = some b :=
    fun _ _ _ hb hc => Option.some_inj.mp (hb.symm.trans hc)
  obtain h | h := ReflTransGen.total_of_right_unique hright ht hu
  · exact (hstop hts h).symm
  · exact hstop hus h

/-! ### Straight-line code -/

/-- The instruction goes on to the one behind it. -/
def Instr.Falls : Instr → Bool
  | .jmp _ | .call _ | .ret | .iretd => false
  | _ => true

/-- The state behind a block of such instructions, which ends at `next`. -/
def block : List Instr → Word → State → State
  | [], next, s => { s with eip := next }
  | i :: is, next, s => block is next (exec i next s)

theorem runs_add (m n : ℕ) (s : State) : runs code (m + n) s = (runs code m s).bind (runs code n) := by
  induction m generalizing s with
  | zero => rw [Nat.zero_add, runs, Option.bind_some]
  | succ m ih =>
    rw [Nat.add_right_comm, runs, runs, Option.bind_assoc]
    exact congrArg _ (funext ih)

theorem exec_eip (i : Instr) (next x : Word) (s : State) :
    exec i next { s with eip := x } = exec i next s := by
  cases i <;> rfl

theorem exec_next (hi : i.Falls) (b next : Word) (s : State) :
    exec i b s = { exec i next s with eip := b } := by
  cases i with
  | jmp _ | call _ | ret | iretd => cases hi
  | push _ | pushImm _ | pusha | popa | movLoad _ _ _ | movStore _ _ _ | addImm _ _ => rfl

theorem block_eip (is : List Instr) (next x : Word) (s : State) :
    block is next { s with eip := x } = block is next s := by
  cases is with
  | nil => rfl
  | cons i is => rw [block, block, exec_eip]

theorem block_append (is js : List Instr) (next : Word) (s : State) :
    block (is ++ js) next s = block js next (block is next s) := by
  induction is generalizing s with
  | nil => exact (block_eip js next next s).symm
  | cons i is ih => exact ih (exec i next s)

@[simp] theorem block_end (is : List Instr) (next : Word) (s : State) : (block is next s).eip = next := by
  induction is generalizing s with
  | nil => rfl
  | cons i is ih => exact ih (exec i next s)

/-- A block runs from its beginning to its end. -/
theorem CodeAt.runs_block {rest : List Instr} (hc : CodeAt code s.eip (is ++ rest))
    (hfalls : ∀ i ∈ is, i.Falls) :
    ∃ next, runs code is.length s = some (block is next s) ∧ CodeAt code next rest := by
  induction is generalizing s with
  | nil => exact ⟨s.eip, rfl, hc⟩
  | cons i is ih =>
    obtain ⟨b, hi, hc⟩ := CodeAt.cons hc
    have hfall := hfalls i List.mem_cons_self
    have heip : (exec i b s).eip = b := by rw [exec_next hfall b b s]
    rw [← heip] at hc
    obtain ⟨next, hruns, hrest⟩ := ih hc fun j hj => hfalls j (List.mem_cons_of_mem _ hj)
    refine ⟨next, ?_, hrest⟩
    rw [List.length_cons, runs, step_eq hi, Option.bind_some, hruns, exec_next hfall b next s,
      block_eip, block]

/-! ### The stack -/

/-- The words lie in memory from `e` upwards. -/
def OnStack (m : Mem) (e : Word) (ws : List Word) : Prop :=
  ∀ k w, ws[k]? = some w → m.load (e + BitVec.ofNat 32 (4 * k)) = w

/-- The words are on the top of the stack. -/
abbrev Stacked (s : State) (ws : List Word) : Prop := OnStack s.mem s.esp ws

theorem OnStack.top (h : OnStack m e (w :: ws)) : m.load e = w := by
  have h0 := h 0 w rfl
  rwa [show e + BitVec.ofNat 32 (4 * 0) = e from BitVec.add_zero e] at h0

theorem OnStack.drop (h : OnStack m e ws) (n : ℕ) : OnStack m (e + BitVec.ofNat 32 (4 * n)) (ws.drop n) := by
  intro k w hk
  rw [List.getElem?_drop] at hk
  rw [BitVec.add_assoc, ← BitVec.ofNat_add, ← Nat.mul_add]
  exact h (n + k) w hk

theorem OnStack.left (h : OnStack m e (ws ++ vs)) : OnStack m e ws := by
  intro k w hk
  refine h k w ?_
  rwa [List.getElem?_append_left (List.getElem?_eq_some_iff.mp hk).1]

theorem OnStack.cons (h : OnStack m (e + 4) ws) : OnStack m e (m.load e :: ws) := by
  intro k w hk
  cases k with
  | zero =>
    rw [show e + BitVec.ofNat 32 (4 * 0) = e from BitVec.add_zero e]
    exact Option.some_inj.mp hk
  | succ k =>
    rw [show e + BitVec.ofNat 32 (4 * (k + 1)) = e + 4 + BitVec.ofNat 32 (4 * k) by bv_omega]
    exact h k w hk

theorem OnStack.store (h : OnStack m e ws) (w : Word) (hroom : 4 * (ws.length + 1) ≤ 2 ^ 32) :
    OnStack (m.store (e - 4) w) (e - 4) (w :: ws) := by
  intro k v hk
  cases k with
  | zero =>
    rw [show e - 4 + BitVec.ofNat 32 (4 * 0) = e - 4 from BitVec.add_zero _, Mem.load_store_self]
    exact Option.some_inj.mp hk
  | succ k =>
    rw [List.getElem?_cons_succ] at hk
    have hlt : k < ws.length := (List.getElem?_eq_some_iff.mp hk).1
    rw [show e - 4 + BitVec.ofNat 32 (4 * (k + 1)) = e + BitVec.ofNat 32 (4 * k) by bv_omega,
      Mem.load_store_of_far _ _ (by bv_omega) (by bv_omega)]
    exact h k v hk

theorem OnStack.store_apart (h : OnStack m e ws) (v : Word)
    (hapart : ∀ k, k < ws.length → 4 ≤ e + BitVec.ofNat 32 (4 * k) - a ∧
      4 ≤ a - (e + BitVec.ofNat 32 (4 * k))) :
    OnStack (m.store a v) e ws := by
  intro k w hk
  obtain ⟨h1, h2⟩ := hapart k (List.getElem?_eq_some_iff.mp hk).1
  rw [Mem.load_store_of_far _ _ h1 h2]
  exact h k w hk

theorem Stacked.push (h : Stacked s ws) (w : Word) (hroom : 4 * (ws.length + 1) ≤ 2 ^ 32) :
    Stacked (s.push w) (w :: ws) := h.store w hroom

theorem Stacked.pushes (h : Stacked s ws) (hroom : 4 * (ws.length + vs.length) ≤ 2 ^ 32) :
    Stacked (s.pushes vs) (vs.reverse ++ ws) := by
  induction vs generalizing s ws with
  | nil => exact h
  | cons v vs ih =>
    rw [List.length_cons] at hroom
    rw [List.reverse_cons, List.append_assoc]
    exact ih (h.push v (by omega)) (by rw [List.length_append, List.length_singleton]; omega)

theorem pushes_reg (s : State) (vs : List Word) {r : Reg} (hr : r ≠ .esp) :
    (s.pushes vs).reg r = s.reg r := by
  induction vs generalizing s with
  | nil => rfl
  | cons v vs ih => exact (ih (s.push v)).trans (Function.update_of_ne hr _ _)

theorem pushes_esp (s : State) (vs : List Word) :
    (s.pushes vs).esp = s.esp - BitVec.ofNat 32 (4 * vs.length) := by
  induction vs generalizing s with
  | nil => exact (BitVec.sub_zero _).symm
  | cons v vs ih =>
    rw [List.length_cons, show (s.pushes (v :: vs)).esp = ((s.push v).pushes vs).esp from rfl, ih, push_esp]
    bv_omega

theorem pusha_esp (s : State) : s.pusha.esp = s.esp - 32 := by
  rw [State.pusha, pushes_esp, List.length_map]
  rfl

/-- The register file as `pusha` leaves it on the stack. -/
def fileOf (reg : Reg → Word) : List Word := [.edi, .esi, .ebp, .esp, .ebx, .edx, .ecx, .eax].map reg

theorem Stacked.pusha (h : Stacked s ws) (hroom : 4 * (ws.length + 8) ≤ 2 ^ 32) :
    Stacked s.pusha (fileOf s.reg ++ ws) := h.pushes hroom

/-! ### One instruction, on the stack -/

variable {b : Word} {r d : Reg} {reg : Reg → Word}

theorem step_push (hi : code s.eip = some (.push r, b)) (h : Stacked s ws)
    (hroom : 4 * (ws.length + 1) ≤ 2 ^ 32) :
    ∃ t, step code s = some t ∧ t.eip = b ∧ t.esp = s.esp - 4 ∧ Stacked t (s.reg r :: ws) ∧
      ∀ r, r ≠ .esp → t.reg r = s.reg r :=
  ⟨_, step_eq hi, rfl, rfl, h.push _ hroom, fun _ hr => Function.update_of_ne hr _ _⟩

theorem step_call (hi : code s.eip = some (.call a, b)) (h : Stacked s ws)
    (hroom : 4 * (ws.length + 1) ≤ 2 ^ 32) :
    ∃ t, step code s = some t ∧ t.eip = a ∧ t.esp = s.esp - 4 ∧ Stacked t (b :: ws) ∧
      ∀ r, r ≠ .esp → t.reg r = s.reg r :=
  ⟨_, step_eq hi, rfl, rfl, h.push _ hroom, fun _ hr => Function.update_of_ne hr _ _⟩

theorem step_pusha (hi : code s.eip = some (.pusha, b)) (h : Stacked s ws)
    (hroom : 4 * (ws.length + 8) ≤ 2 ^ 32) :
    ∃ t, step code s = some t ∧ t.eip = b ∧ t.esp = s.esp - 32 ∧ Stacked t (fileOf s.reg ++ ws) :=
  ⟨_, step_eq hi, rfl, pusha_esp s, h.pusha hroom⟩

theorem step_movLoad {k : ℕ}
    (hi : code s.eip = some (.movLoad d .esp (BitVec.ofNat 32 (4 * k)), b)) (h : Stacked s ws)
    (hk : ws[k]? = some w) (hd : d ≠ .esp) :
    ∃ t, step code s = some t ∧ t.eip = b ∧ t.esp = s.esp ∧ Stacked t ws ∧ t.reg d = w ∧
      ∀ r, r ≠ d → t.reg r = s.reg r := by
  have hesp : (s.set d (s.mem.load (s.reg .esp + BitVec.ofNat 32 (4 * k)))).esp = s.esp :=
    Function.update_of_ne hd.symm _ _
  refine ⟨_, step_eq hi, rfl, hesp, ?_, (Function.update_self ..).trans (h k w hk),
    fun _ hr => Function.update_of_ne hr _ _⟩
  show OnStack s.mem (s.set d _).esp ws
  rwa [hesp]

theorem Stacked.loads (h : Stacked s ws) (next : Word)
    (his : ∀ i ∈ is, ∃ d b k, i = .movLoad d b k ∧ d ≠ .esp) : Stacked (block is next s) ws := by
  induction is generalizing s with
  | nil => exact h
  | cons i is ih =>
    obtain ⟨d, b, k, rfl, hd⟩ := his i List.mem_cons_self
    refine ih ?_ fun j hj => his j (List.mem_cons_of_mem _ hj)
    show OnStack s.mem (s.set d _).esp ws
    rwa [show (s.set d (s.mem.load (s.reg b + k))).esp = s.esp from Function.update_of_ne hd.symm _ _]

theorem Stacked.stores (h : Stacked s ws) (next : Word) {fields : List (Word × Reg)} {b : Reg}
    (hapart : ∀ f ∈ fields, ∀ k, k < ws.length → 4 ≤ s.esp + BitVec.ofNat 32 (4 * k) - (s.reg b + f.1) ∧
      4 ≤ s.reg b + f.1 - (s.esp + BitVec.ofNat 32 (4 * k))) :
    Stacked (block (fields.map fun f => .movStore b f.1 f.2) next s) ws := by
  induction fields generalizing s with
  | nil => exact h
  | cons f fields ih =>
    refine ih ?_ fun g hg => hapart g (List.mem_cons_of_mem _ hg)
    exact OnStack.store_apart h _ (hapart f List.mem_cons_self)

theorem step_drop {n : ℕ} (hi : code s.eip = some (.addImm .esp (BitVec.ofNat 32 (4 * n)), b))
    (h : Stacked s ws) :
    ∃ t, step code s = some t ∧ t.eip = b ∧ t.esp = s.esp + BitVec.ofNat 32 (4 * n) ∧ Stacked t (ws.drop n) ∧
      ∀ r, r ≠ .esp → t.reg r = s.reg r :=
  ⟨_, step_eq hi, rfl, rfl, h.drop n, fun _ hr => Function.update_of_ne hr _ _⟩

/-- `popa` restores what `pusha` saved, the stack pointer apart. -/
theorem Stacked.popped (h : Stacked s (fileOf reg ++ ws)) (hr : r ≠ .esp) :
    s.popped r = reg r := by
  cases r with
  | esp => exact absurd rfl hr
  | edi => exact h.top
  | esi => exact h 1 _ rfl
  | ebp => exact h 2 _ rfl
  | ebx => exact h 4 _ rfl
  | edx => exact h 5 _ rfl
  | ecx => exact h 6 _ rfl
  | eax => exact h 7 _ rfl

theorem step_popa (hi : code s.eip = some (.popa, b)) (h : Stacked s (fileOf reg ++ ws)) :
    ∃ t, step code s = some t ∧ t.eip = b ∧ t.esp = s.esp + 32 ∧ Stacked t ws ∧ ∀ r, r ≠ .esp →
      t.reg r = reg r :=
  ⟨_, step_eq hi, rfl, rfl, h.drop 8, fun _ hr => h.popped hr⟩

theorem step_iretd {ip seg flags : Word} (hi : code s.eip = some (.iretd, b))
    (h : Stacked s (ip :: seg :: flags :: ws)) :
    ∃ t, step code s = some t ∧ t.eip = ip ∧ t.cs = seg.setWidth 16 ∧ t.eflags = flags ∧ t.esp = s.esp + 12 ∧
      ∀ r, r ≠ .esp → t.reg r = s.reg r :=
  ⟨_, step_eq hi, h.top, congrArg (BitVec.setWidth 16) (h 1 _ rfl), h 2 _ rfl, rfl,
    fun _ hr => Function.update_of_ne hr _ _⟩

/-! ### Functions of another language -/

/-- The calling convention: the function that was called in `s`, with the return address on the
stack and `args` words of arguments above it, has returned in `t`. The caller's registers and the
`frame` words of its stack above the arguments are as they were. -/
structure Cdecl (args frame : ℕ) (s t : State) : Prop where
  eip : t.eip = s.mem.load s.esp
  esp : t.esp = s.esp + 4
  saved : ∀ r ∈ [Reg.ebx, .ebp, .esi, .edi], t.reg r = s.reg r
  stack : ∀ ws, ws.length ≤ frame → OnStack s.mem (s.esp + BitVec.ofNat 32 (4 * (args + 1))) ws →
    OnStack t.mem (s.esp + BitVec.ofNat 32 (4 * (args + 1))) ws

theorem Cdecl.stacked {args frame : ℕ} (h : Cdecl args frame s t) {ret : Word}
    (hs : Stacked s (ret :: vs ++ ws))
    (hvs : vs.length = args) (hws : ws.length ≤ frame) :
    t.eip = ret ∧ OnStack t.mem (t.esp + BitVec.ofNat 32 (4 * args)) ws := by
  refine ⟨h.eip.trans hs.top, ?_⟩
  have hrest := h.stack ws hws (by
    have hd := hs.drop (args + 1)
    rwa [List.drop_left' (by rw [List.length_cons, hvs])] at hd)
  rwa [h.esp, show s.esp + 4 + BitVec.ofNat 32 (4 * args) =
    s.esp + BitVec.ofNat 32 (4 * (args + 1)) by bv_omega]

end X86
