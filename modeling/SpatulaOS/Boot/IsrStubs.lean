import SpatulaOS.Lib.X86

/-!
# The interrupt stubs

`isr_stubs.s` and `isr_common_stub.s`: the stub of a vector completes what the CPU pushed to
an error code and a vector number, and the common stub saves the general registers, calls
`isr_handler` and returns from the interrupt.

`isr_handler` takes a pointer to a `registers_t`, but the stub pushes the vector and the error code
themselves, so the handler takes the vector for an address. It reads the saved frame only if
that lies there by chance (`served_iff`). The way back does not depend on it (`returns`).
-/

namespace SpatulaOS.Boot

open ByteMemory X86

/-! ### The assembly -/

/-- `isr_common_stub`, with the address of `isr_handler`. -/
def isrCommonStub (isrHandler : Word) : List Instr :=
  [.pusha,
   .movLoad .eax .esp 32,
   .movLoad .ebx .esp 36,
   .push .ebx,
   .push .eax,
   .call isrHandler,
   .addImm .esp 8,
   .popa,
   .addImm .esp 8,
   .iretd]

/-- The macro `ISR_NOERR`; `common` is the address of `isr_common_stub`. -/
def ISR_NOERR (common n : Word) : List Instr := [.pushImm 0, .pushImm n, .jmp common]

/-- The macro `ISR_ERR`. -/
def ISR_ERR (common n : Word) : List Instr := [.pushImm n, .jmp common]

/-- The macro `IRQ`, whose first argument only names the stub. -/
def IRQ (common m : Word) : List Instr := [.pushImm 0, .pushImm m, .jmp common]

/-- The stubs `isr0` to `isr31`. -/
def isrStub (common : Word) (n : ℕ) : List Instr :=
  match n with
  | 8 | 10 | 11 | 12 | 13 | 14 | 17 => ISR_ERR common (BitVec.ofNat 32 n)
  | _ => ISR_NOERR common (BitVec.ofNat 32 n)

/-- The stubs `irq0` to `irq15`. -/
def irqStub (common : Word) (n : ℕ) : List Instr := IRQ common (BitVec.ofNat 32 (32 + n))

/-- The stubs and `isr_common_stub` in memory. `isr_handler` is not assembly. -/
structure Text where
  code : Code
  isr : ℕ → Word
  irq : ℕ → Word
  common : Word
  isrHandler : Word
  isr_code : ∀ n, n < 32 → CodeAt code (isr n) (isrStub common n)
  irq_code : ∀ n, n < 16 → CodeAt code (irq n) (irqStub common n)
  common_code : CodeAt code common (isrCommonStub isrHandler)
  handler_code : code isrHandler = none

/-- The gate that `idt_init` sets for a vector. -/
def Text.gate (k : Text) (v : ℕ) : Word := if v < 32 then k.isr v else k.irq (v - 32)

/-! ### The handler's argument -/

/-- `registers_t` -/
structure Registers where
  ds : Word
  edi : Word
  esi : Word
  ebp : Word
  esp : Word
  ebx : Word
  edx : Word
  ecx : Word
  eax : Word
  intNo : Word
  errCode : Word
  eip : Word
  cs : Word
  eflags : Word
  useresp : Word
  ss : Word

/-- The `registers_t` at `p`. -/
def registersAt (m : Mem) (p : Word) : Registers where
  ds := m.load p
  edi := m.load (p + 4)
  esi := m.load (p + 8)
  ebp := m.load (p + 12)
  esp := m.load (p + 16)
  ebx := m.load (p + 20)
  edx := m.load (p + 24)
  ecx := m.load (p + 28)
  eax := m.load (p + 32)
  intNo := m.load (p + 36)
  errCode := m.load (p + 40)
  eip := m.load (p + 44)
  cs := m.load (p + 48)
  eflags := m.load (p + 52)
  useresp := m.load (p + 56)
  ss := m.load (p + 60)

/-- The argument `regs` of the function that was called. -/
def argument (t : State) : Word := t.mem.load (t.esp + 4)

/-! ### Interrupts -/

/-- The vectors for which the CPU pushes an error code. -/
def errorVectors : List ℕ := [8, 10, 11, 12, 13, 14, 17]

/-- An interrupt: the vector, the machine that is interrupted and the words that the CPU pushes. -/
structure Interrupt where
  vector : ℕ
  state : State
  eip : Word
  cs : Word
  eflags : Word
  /-- The error code, for the vectors that have one. -/
  errCode : Word

/-- What `err_code` is to be. -/
def Interrupt.code (x : Interrupt) : Word := if x.vector ∈ errorVectors then x.errCode else 0

/-- The CPU pushes its words and goes to the stub, through an interrupt gate of the kernel code segment. -/
def Interrupt.deliver (x : Interrupt) (target : Word) : State :=
  let s := x.state.pushes [x.eflags, x.cs, x.eip]
  let s := if x.vector ∈ errorVectors then s.push x.errCode else s
  { s with eip := target, cs := 0x08, eflags := s.eflags &&& ~~~0x34300 }

/-- The handler is called as declared: `regs` points at the `registers_t` of the interrupt, the one
whose `eip` the CPU pushed, and its fields are what was saved. -/
structure Declared (x : Interrupt) (t : State) : Prop where
  frame : argument t + 44 = x.state.esp - 12
  ds : (registersAt t.mem (argument t)).ds = x.state.ds.setWidth 32
  edi : (registersAt t.mem (argument t)).edi = x.state.reg .edi
  esi : (registersAt t.mem (argument t)).esi = x.state.reg .esi
  ebp : (registersAt t.mem (argument t)).ebp = x.state.reg .ebp
  /-- `pusha` pushes the stack pointer below the words of the CPU and the stub. -/
  esp : (registersAt t.mem (argument t)).esp = x.state.esp - 20
  ebx : (registersAt t.mem (argument t)).ebx = x.state.reg .ebx
  edx : (registersAt t.mem (argument t)).edx = x.state.reg .edx
  ecx : (registersAt t.mem (argument t)).ecx = x.state.reg .ecx
  eax : (registersAt t.mem (argument t)).eax = x.state.reg .eax
  int_no : (registersAt t.mem (argument t)).intNo = BitVec.ofNat 32 x.vector
  err_code : (registersAt t.mem (argument t)).errCode = x.code
  eip : (registersAt t.mem (argument t)).eip = x.eip
  cs : (registersAt t.mem (argument t)).cs = x.cs
  eflags : (registersAt t.mem (argument t)).eflags = x.eflags

/-- The machine is restored: `iretd` is reached with the words of the CPU on the stack and
all registers but the stack pointer as they were, and takes the stack pointer back as well. -/
structure Restored (k : Text) (x : Interrupt) (w w' : State) : Prop where
  iretd : ∃ b, k.code w.eip = some (.iretd, b)
  frame : w.esp = x.state.esp - 12
  stack : Stacked w [x.eip, x.cs, x.eflags]
  step : step k.code w = some w'
  reg : ∀ r, w'.reg r = x.state.reg r
  eip : w'.eip = x.eip
  cs : w'.cs = x.cs.setWidth 16
  eflags : w'.eflags = x.eflags

/-- The interrupt is served: `isr_handler` is called as declared, and the machine is restored when
it returns. It has one argument, and keeps the 14 words of the stub above it. -/
def Served (k : Text) (x : Interrupt) : Prop :=
  ∃ t, Steps k.code (x.deliver (k.gate x.vector)) t ∧ t.eip = k.isrHandler ∧ Declared x t ∧
    ∀ u, Cdecl 1 14 t u → ∃ w w', Steps k.code u w ∧ Restored k x w w'

variable {k : Text} {x : Interrupt} {s t u : State} {v c : Word} {ws : List Word} {reg : Reg → Word}

/-! ### The stubs -/

/-- The stubs agree with the CPU on which vectors have an error code. -/
theorem isrStub_eq (common : Word) (n : ℕ) : isrStub common n =
    if n ∈ errorVectors then ISR_ERR common (BitVec.ofNat 32 n)
      else ISR_NOERR common (BitVec.ofNat 32 n) := by
  unfold isrStub
  split
  all_goals first
    | rfl
    | rw [if_neg]
      simp only [errorVectors, List.mem_cons, List.not_mem_nil, or_false]
      tauto

/-- The five words on the stack when the common stub begins. -/
def Interrupt.words (x : Interrupt) : List Word :=
  [BitVec.ofNat 32 x.vector, x.code, x.eip, x.cs, x.eflags]

/-- The machine at the beginning of the common stub. -/
def Interrupt.entered (x : Interrupt) (common : Word) : State :=
  { x.state.pushes x.words.reverse with eip := common, cs := 0x08, eflags := x.state.eflags &&& ~~~0x34300 }

theorem entered_stacked (x : Interrupt) (common : Word) : Stacked (x.entered common) x.words := by
  have h : Stacked x.state [] := fun k w hk => by rw [List.getElem?_nil] at hk; cases hk
  have hp : Stacked (x.state.pushes x.words.reverse) (x.words.reverse.reverse ++ []) := h.pushes (by
    rw [List.length_reverse]
    exact Nat.le_of_ble_eq_true rfl)
  rwa [List.reverse_reverse, List.append_nil] at hp

theorem entered_file (x : Interrupt) (common : Word) :
    (x.entered common).reg = (x.state.pushes x.words.reverse).reg := rfl

theorem entered_reg (x : Interrupt) (common : Word) {r : Reg} (hr : r ≠ .esp) :
    (x.entered common).reg r = x.state.reg r := by
  rw [entered_file, pushes_reg x.state x.words.reverse hr]

theorem entered_esp (x : Interrupt) (common : Word) : (x.entered common).esp = x.state.esp - 20 := by
  have hlen : x.words.reverse.length = 5 := List.length_reverse
  rw [State.esp, entered_file, ← State.esp, pushes_esp, hlen]
  rfl

theorem steps_noerr (hx : x.vector ∉ errorVectors) {a : Word}
    (hc : CodeAt k.code a (ISR_NOERR k.common (BitVec.ofNat 32 x.vector))) :
    Steps k.code (x.deliver a) (x.entered k.common) := by
  obtain ⟨b₁, h₁, hc⟩ := hc.cons
  obtain ⟨b₂, h₂, hc⟩ := hc.cons
  obtain ⟨b₃, h₃, -⟩ := hc.cons
  refine .head (step_eq h₁) (.head (step_eq h₂) (.head (step_eq h₃) ?_))
  unfold Interrupt.deliver Interrupt.entered Interrupt.words Interrupt.code
  dsimp only
  rw [if_neg hx, if_neg hx]
  exact .refl

theorem steps_err (hx : x.vector ∈ errorVectors) {a : Word}
    (hc : CodeAt k.code a (ISR_ERR k.common (BitVec.ofNat 32 x.vector))) :
    Steps k.code (x.deliver a) (x.entered k.common) := by
  obtain ⟨b₁, h₁, hc⟩ := hc.cons
  obtain ⟨b₂, h₂, -⟩ := hc.cons
  refine .head (step_eq h₁) (.head (step_eq h₂) ?_)
  unfold Interrupt.deliver Interrupt.entered Interrupt.words Interrupt.code
  dsimp only
  rw [if_pos hx, if_pos hx]
  exact .refl

/-- Every stub completes the five words, and goes on to the common stub. -/
theorem steps_stub (hv : x.vector < 48) :
    Steps k.code (x.deliver (k.gate x.vector)) (x.entered k.common) := by
  unfold Text.gate
  by_cases hlt : x.vector < 32
  · rw [if_pos hlt]
    have hc := k.isr_code x.vector hlt
    rw [isrStub_eq] at hc
    by_cases hx : x.vector ∈ errorVectors
    · rw [if_pos hx] at hc
      exact steps_err hx hc
    · rw [if_neg hx] at hc
      exact steps_noerr hx hc
  · rw [if_neg hlt]
    have hc := k.irq_code (x.vector - 32) (by omega)
    rw [irqStub, show 32 + (x.vector - 32) = x.vector by omega] at hc
    refine steps_noerr (fun hx => hlt ?_) hc
    revert hx
    simp only [errorVectors, List.mem_cons, List.not_mem_nil, or_false]
    omega

/-! ### The common stub -/

/-- Behind the call. -/
def isrReturn : List Instr := [.addImm .esp 8, .popa, .addImm .esp 8, .iretd]

/-- The call: the vector and the error code are pushed once more, below the registers. -/
theorem steps_call (hs : Stacked s (v :: c :: ws)) (hip : s.eip = k.common) (hlen : ws.length ≤ 8) :
    ∃ ret t, Steps k.code s t ∧ t.eip = k.isrHandler ∧ t.esp = s.esp - 44 ∧
      Stacked t (ret :: v :: c :: (fileOf s.reg ++ v :: c :: ws)) ∧ CodeAt k.code ret isrReturn := by
  have hc := k.common_code
  have hfile : (fileOf s.reg ++ v :: c :: ws).length = ws.length + 10 := by
    rw [List.length_append, List.length_cons, List.length_cons]
    exact Nat.add_comm 8 _
  rw [← hip] at hc
  obtain ⟨b₁, h₁, hc⟩ := hc.cons
  obtain ⟨s₁, hs₁, rfl, hesp₁, hw₁⟩ := step_pusha h₁ hs (by rw [List.length_cons, List.length_cons]; omega)
  obtain ⟨b₂, h₂, hc⟩ := hc.cons
  obtain ⟨s₂, hs₂, rfl, hesp₂, hw₂, hv, -⟩ := step_movLoad (k := 8) h₂ hw₁ rfl (by decide)
  obtain ⟨b₃, h₃, hc⟩ := hc.cons
  obtain ⟨s₃, hs₃, rfl, hesp₃, hw₃, hcode, hr₃⟩ := step_movLoad (k := 9) h₃ hw₂ rfl (by decide)
  rw [← hr₃ .eax (by decide)] at hv
  obtain ⟨b₄, h₄, hc⟩ := hc.cons
  obtain ⟨s₄, hs₄, rfl, hesp₄, hw₄, hr₄⟩ := step_push h₄ hw₃ (by omega)
  rw [← hr₄ .eax (by decide)] at hv
  obtain ⟨b₅, h₅, hc⟩ := hc.cons
  obtain ⟨s₅, hs₅, rfl, hesp₅, hw₅, -⟩ := step_push h₅ hw₄ (by rw [List.length_cons]; omega)
  obtain ⟨b₆, h₆, hc⟩ := hc.cons
  obtain ⟨t, ht, htip, hesp₆, hw₆, -⟩ := step_call h₆ hw₅ (by rw [List.length_cons, List.length_cons]; omega)
  rw [hv, hcode] at hw₆
  refine ⟨b₆, t, .head hs₁ (.head hs₂ (.head hs₃ (.head hs₄ (.head hs₅ (.head ht .refl))))),
    htip, ?_, hw₆, hc⟩
  rw [hesp₆, hesp₅, hesp₄, hesp₃, hesp₂, hesp₁]
  bv_omega

/-- The return: the words that were pushed for the call and by the stub are dropped, and
the registers are those that `pusha` saved. -/
theorem steps_return (hc : CodeAt k.code u.eip isrReturn)
    (hu : OnStack u.mem (u.esp + 4) (c :: (fileOf reg ++ v :: c :: ws))) :
    ∃ w b, Steps k.code u w ∧ k.code w.eip = some (.iretd, b) ∧ w.esp = u.esp + 48 ∧ Stacked w ws ∧
      ∀ r, r ≠ Reg.esp → w.reg r = reg r := by
  obtain ⟨b₁, h₁, hc⟩ := hc.cons
  obtain ⟨s₁, hs₁, rfl, hesp₁, hw₁, -⟩ := step_drop (n := 2) h₁ hu.cons
  obtain ⟨b₂, h₂, hc⟩ := hc.cons
  obtain ⟨s₂, hs₂, rfl, hesp₂, hw₂, hr₂⟩ := step_popa h₂ hw₁
  obtain ⟨b₃, h₃, hc⟩ := hc.cons
  obtain ⟨s₃, hs₃, rfl, hesp₃, hw₃, hr₃⟩ := step_drop (n := 2) h₃ hw₂
  obtain ⟨b₄, h₄, -⟩ := hc.cons
  refine ⟨s₃, b₄, .head hs₁ (.head hs₂ (.head hs₃ .refl)), h₄, ?_, hw₃,
    fun r hr => (hr₃ r hr).trans (hr₂ r hr)⟩
  rw [hesp₃, hesp₂, hesp₁]
  bv_omega

/-! ### An interrupt -/

/-- The stack of `isr_handler`: the arguments of the stub, and above them what was saved. -/
def Interrupt.saved (x : Interrupt) (common : Word) : List Word :=
  BitVec.ofNat 32 x.vector :: x.code :: (fileOf (x.entered common).reg ++ x.words)

/-- The way to the handler, for every vector. -/
theorem handler_called (hv : x.vector < 48) : ∃ ret t, Steps k.code (x.deliver (k.gate x.vector)) t ∧
    t.eip = k.isrHandler ∧ t.esp = x.state.esp - 64 ∧ Stacked t (ret :: x.saved k.common) ∧
    CodeAt k.code ret isrReturn := by
  obtain ⟨ret, t, ht, hip, hesp, hstack, hret⟩ := steps_call (entered_stacked x k.common) rfl
    (Nat.le_of_ble_eq_true rfl)
  refine ⟨ret, t, (steps_stub hv).trans ht, hip, ?_, hstack, hret⟩
  rw [hesp, entered_esp]
  bv_omega

/-- The way back: whatever the handler was given, the machine is restored when it returns. -/
theorem returns {ret : Word} (hesp : t.esp = x.state.esp - 64) (ht : Stacked t (ret :: x.saved k.common))
    (hret : CodeAt k.code ret isrReturn) (hu : Cdecl 1 14 t u) :
      ∃ w w', Steps k.code u w ∧ Restored k x w w' := by
  have hargs : Stacked t (ret :: [BitVec.ofNat 32 x.vector] ++
      (x.code :: (fileOf (x.entered k.common).reg ++ x.words))) := ht
  obtain ⟨rfl, hstack⟩ := hu.stacked hargs rfl (Nat.le_of_ble_eq_true rfl)
  obtain ⟨w, b, hw, hcode, hwesp, hws, hreg⟩ := steps_return hret hstack
  have hframe : w.esp = x.state.esp - 12 := by
    rw [hwesp, hu.esp, hesp]
    bv_omega
  obtain ⟨w', hw', hip, hcs, hflags, hesp', hreg'⟩ := step_iretd hcode hws
  refine ⟨w, w', hw, ⟨b, hcode⟩, hframe, hws, hw', fun r => ?_, hip, hcs, hflags⟩
  by_cases hr : r = .esp
  · rw [hr, ← State.esp, ← State.esp, hesp', hframe]
    bv_omega
  · rw [hreg' r hr, hreg r hr, entered_reg x k.common hr]

theorem argument_eq {ret : Word} (ht : Stacked t (ret :: x.saved k.common)) :
    argument t = BitVec.ofNat 32 x.vector := ht 1 _ rfl

/-- What the handler is to read lies 8 bytes above its stack pointer, below the registers, with the second
copy of the error code in the place of `ds`. -/
theorem declared_iff {ret : Word} (hesp : t.esp = x.state.esp - 64)
    (ht : Stacked t (ret :: x.saved k.common)) :
    Declared x t ↔ x.state.esp = BitVec.ofNat 32 x.vector + 56 ∧ x.state.ds.setWidth 32 = x.code := by
  have harg := argument_eq ht
  have hat (h : x.state.esp = BitVec.ofNat 32 x.vector + 56) : argument t = t.esp + 8 := by
    rw [harg, hesp, h]
    bv_omega
  have hfield (h : x.state.esp = BitVec.ofNat 32 x.vector + 56) {j : ℕ} {w : Word}
      (hw : (ret :: x.saved k.common)[j + 2]? = some w) :
        t.mem.load (argument t + BitVec.ofNat 32 (4 * j)) = w := by
    rw [hat h, show t.esp + 8 + BitVec.ofNat 32 (4 * j) = t.esp + BitVec.ofNat 32 (4 * (j + 2)) by bv_omega]
    exact ht (j + 2) w hw
  have hds (h : x.state.esp = BitVec.ofNat 32 x.vector + 56) :
      (registersAt t.mem (argument t)).ds = x.code := by
    show t.mem.load (argument t) = x.code
    rw [hat h]
    exact ht 2 _ rfl
  constructor
  · intro h
    have hbase : x.state.esp = BitVec.ofNat 32 x.vector + 56 := by
      have hframe := h.frame
      rw [harg] at hframe
      bv_omega
    exact ⟨hbase, h.ds.symm.trans (hds hbase)⟩
  · rintro ⟨h, hcode⟩
    have hreg {r : Reg} (hr : r ≠ .esp) {j : ℕ}
        (hj : (ret :: x.saved k.common)[j + 2]? = some ((x.entered k.common).reg r)) :
        t.mem.load (argument t + BitVec.ofNat 32 (4 * j)) = x.state.reg r :=
      (hfield h hj).trans (entered_reg x k.common hr)
    exact {
      frame := by rw [harg, h]; bv_omega
      ds := (hds h).trans hcode.symm
      edi := hreg (j := 1) (by decide) rfl
      esi := hreg (j := 2) (by decide) rfl
      ebp := hreg (j := 3) (by decide) rfl
      esp := (hfield (j := 4) h rfl).trans (entered_esp x k.common)
      ebx := hreg (j := 5) (by decide) rfl
      edx := hreg (j := 6) (by decide) rfl
      ecx := hreg (j := 7) (by decide) rfl
      eax := hreg (j := 8) (by decide) rfl
      int_no := hfield (j := 9) h rfl
      err_code := hfield (j := 10) h rfl
      eip := hfield (j := 11) h rfl
      cs := hfield (j := 12) h rfl
      eflags := hfield (j := 13) h rfl }

/-- The vector, taken for an address, is that of the second copy of the error code, below the saved
registers, and this copy is the data segment. -/
def Interrupt.Placed (x : Interrupt) : Prop :=
  x.state.esp = BitVec.ofNat 32 x.vector + 56 ∧ x.state.ds.setWidth 32 = x.code

theorem Served.placed (h : Served k x) (hv : x.vector < 48) : x.Placed := by
  obtain ⟨ret, t, hsteps, hip, hesp, hstack, -⟩ := handler_called (k := k) hv
  obtain ⟨t', hsteps', hip', hdecl, -⟩ := h
  have hstop {s : State} (hs : s.eip = k.isrHandler) : k.code s.eip = none := by rw [hs, k.handler_code]
  rw [hsteps'.unique hsteps (hstop hip') (hstop hip)] at hdecl
  exact (declared_iff hesp hstack).mp hdecl

theorem Interrupt.Placed.served (h : x.Placed) (hv : x.vector < 48) : Served k x := by
  obtain ⟨ret, t, hsteps, hip, hesp, hstack, hret⟩ := handler_called (k := k) hv
  exact ⟨t, hsteps, hip, (declared_iff hesp hstack).mpr h, fun u hu => returns hesp hstack hret hu⟩

/-- **When an interrupt is served**: only with the stack where the vector, taken for an address, is
that of the saved frame, and the error code the selector of the data segment. -/
theorem served_iff (k : Text) (x : Interrupt) (hv : x.vector < 48) :
    Served k x ↔ x.state.esp = BitVec.ofNat 32 x.vector + 56 ∧ x.state.ds.setWidth 32 = x.code :=
  ⟨fun h => h.placed hv, fun h => Interrupt.Placed.served h hv⟩

/-! ### One layout -/

/-- The stubs every 16 bytes from `0x100000` on, and the common stub behind them. -/
def stubsCode : Code := fun a =>
  let n := a.toNat - 0x100000
  let found := if n < 512 then (isrStub 0x100300 (n / 16))[n % 16]?
    else if n < 768 then (irqStub 0x100300 (n / 16 - 32))[n % 16]?
    else (isrCommonStub 0x200000)[n - 768]?
  found.map fun i => (i, a + 1)

def stubsText : Text where
  code := stubsCode
  isr n := BitVec.ofNat 32 (0x100000 + 16 * n)
  irq n := BitVec.ofNat 32 (0x100200 + 16 * n)
  common := 0x100300
  isrHandler := 0x200000
  isr_code := by decide +kernel
  irq_code := by decide +kernel
  common_code := by decide +kernel
  handler_code := by decide +kernel

/-- A timer interrupt of the kernel, with the stack pointer `esp`. -/
def timerInterrupt (esp : Word) (ds : BitVec 16) : Interrupt where
  vector := 32
  state := ⟨fun r => if r = .esp then esp else 0, 0x101000, 0x08, ds, 0x202, fun _ => 0⟩
  eip := 0x101000
  cs := 0x08
  eflags := 0x202
  errCode := 0

/-- With the stack pointer at 0x58 the saved frame begins at 32, the vector of the timer. -/
theorem served_timer : Served stubsText (timerInterrupt 0x58 0) :=
  (served_iff stubsText (timerInterrupt 0x58 0) (by decide)).mpr (by decide)

theorem not_served : ¬ ∀ (k : Text) (x : Interrupt), x.vector < 48 → Served k x := by
  intro h
  have hbase := ((h stubsText (timerInterrupt 0x90000 0x10) (by decide)).placed (by decide)).1
  exact absurd hbase (by decide)

end SpatulaOS.Boot
