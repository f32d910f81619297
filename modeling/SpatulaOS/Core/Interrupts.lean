import SpatulaOS.Core.Idt
import SpatulaOS.Core.Time
import SpatulaOS.Drivers.Keyboard

/-!
# Interrupts

`isr_handler` of `core/idt.c` with the handlers that it calls, and what they write to the two
interrupt controllers. An interrupt has to be acknowledged once at the master, and once at the slave
if it comes from there. The dispatcher does so, but the handler of the keyboard has already
acknowledged its own interrupt by then (`acknowledged_iff`). The clock makes one tick for each
interrupt of the timer (`exec_timer`).
-/

namespace SpatulaOS.Core

open ByteMemory Runs SpatulaOS.Drivers SpatulaOS.Mm SpatulaOS.Video

/-! ### The handlers -/

/-- A write to a port. -/
abbrev PortWrite := BitVec 16 × Byte

/-- The command port of the master. -/
abbrev PIC1_COMMAND : BitVec 16 := 0x20

/-- The command port of the slave. -/
abbrev PIC2_COMMAND : BitVec 16 := 0xA0

/-- The command that ends an interrupt. -/
abbrev EOI : Byte := 0x20

/-- `pic_send_eoi`. -/
def picSendEoi (irq : Byte) : List PortWrite :=
  (if irq ≥ 8 then [(PIC2_COMMAND, EOI)] else []) ++ [(PIC1_COMMAND, EOI)]

/-- `exception_messages` -/
def exceptionMessages : List String :=
  ["Divide By Zero", "Debug", "Non Maskable Interrupt", "Breakpoint",
    "Overflow", "Bound Range Exceeded", "Invalid Opcode", "Device Not Available",
    "Double Fault", "Coprocessor Segment Overrun", "Invalid TSS", "Segment Not Present",
    "Stack Fault", "General Protection Fault", "Page Fault", "Reserved",
    "x87 Floating Point", "Alignment Check", "Machine Check", "SIMD Floating Point",
    "Virtualization", "Control Protection", "Reserved", "Reserved",
    "Reserved", "Reserved", "Reserved", "Reserved",
    "Hypervisor Injection", "VMM Communication", "Security Exception", "Reserved"]

/-- What the handlers change. -/
structure Kernel where
  /-- The timer. -/
  timer : Timer
  /-- The keyboard driver. -/
  keyboard : Keyboard
  /-- Paging. -/
  paging : Paging
  /-- What was written to the ports of the interrupt controllers. -/
  ports : List PortWrite

/-- What the handler is called with, and what it reads. -/
structure Interrupt where
  /-- `regs->int_no` -/
  intNo : Word
  /-- `regs->err_code` -/
  errCode : Word
  /-- The contents of `cr2`. -/
  cr2 : Word
  /-- The scancode at the port of the keyboard. -/
  scancode : Byte

/-- How `isr_handler` ends. -/
inductive IsrResult where
  /-- It returns. -/
  | returned (s : Kernel)
  /-- `debug_panic_from_exception(regs, message)`, after what is printed. -/
  | panic (printed : List VgaCall) (message : String)

/-- `keyboard_irq_handler`, with what it sends: both of its paths end with `pic_send_eoi(1)`. -/
def Kernel.keyboardIrq (s : Kernel) (scancode : Byte) : Kernel :=
  if scancode &&& 0x80 ≠ 0 then { s with ports := s.ports ++ picSendEoi 1 }
  else
    { s with
      keyboard := keyboardIrqHandler s.keyboard scancode
      ports := s.ports ++ picSendEoi 1 }

/-- The `switch` of `isr_handler`. -/
def Kernel.irq (s : Kernel) (x : Interrupt) : Kernel :=
  if x.intNo = 32 then { s with timer := timerTick s.timer }
  else if x.intNo = 33 then s.keyboardIrq x.scancode
  else s

/-- `isr_handler`. -/
def isrHandler (s : Kernel) (x : Interrupt) : IsrResult :=
  if x.intNo < 32 then
    if x.intNo = 14 then
      match pageFaultHandler s.paging x.cr2 x.errCode with
      | .recovered paging => .returned { s with paging := paging }
      | .panic printed message => .panic printed message
    else .panic [] (exceptionMessages.getD x.intNo.toNat "")
  else if x.intNo ≥ 32 ∧ x.intNo ≤ 47 then
    let s := s.irq x
    .returned { s with ports := s.ports ++ picSendEoi ((x.intNo - 32).setWidth 8) }
  else .returned s

/-- The handler is called, and returns. -/
def dispatch (s : Kernel) (x : Interrupt) : Option Kernel :=
  match isrHandler s x with
  | .returned s' => some s'
  | .panic _ _ => none

/-- A hardware interrupt. -/
def Interrupt.Hardware (x : Interrupt) : Prop := 32 ≤ x.intNo ∧ x.intNo ≤ 47

/-- How many interrupts were acknowledged at a controller. -/
def Kernel.acknowledged (s : Kernel) (port : BitVec 16) : ℕ := s.ports.count (port, EOI)

/-- Each interrupt was acknowledged once, at each controller that it came through. -/
structure Acknowledged (s s' : Kernel) (xs : List Interrupt) : Prop where
  master : s'.acknowledged PIC1_COMMAND = s.acknowledged PIC1_COMMAND + xs.length
  slave : s'.acknowledged PIC2_COMMAND = s.acknowledged PIC2_COMMAND + xs.countP (40 ≤ ·.intNo)

variable {s s' : Kernel} {x : Interrupt} {xs : List Interrupt}

/-! ### The acknowledgements -/

theorem count_master (irq : Byte) : (picSendEoi irq).count (PIC1_COMMAND, EOI) = 1 := by
  unfold picSendEoi
  split_ifs <;> decide

theorem count_slave (irq : Byte) : (picSendEoi irq).count (PIC2_COMMAND, EOI) = if irq ≥ 8 then 1 else 0 := by
  unfold picSendEoi
  split_ifs <;> decide

/-- What is written for an interrupt: the keyboard's is acknowledged by its handler as well. -/
def acknowledgements (x : Interrupt) : List PortWrite :=
  (if x.intNo = 33 then picSendEoi 1 else []) ++ picSendEoi ((x.intNo - 32).setWidth 8)

theorem irq_ports (s : Kernel) (x : Interrupt) :
    (s.irq x).ports = s.ports ++ if x.intNo = 33 then picSendEoi 1 else [] := by
  unfold Kernel.irq Kernel.keyboardIrq
  split_ifs with h32 h33
  · exact absurd (h32.symm.trans h33) (by decide)
  · exact (List.append_nil _).symm
  · rfl
  · rfl
  · exact (List.append_nil _).symm

/-- The handler returns from a hardware interrupt, with its acknowledgements written. -/
theorem dispatch_hardware (hx : x.Hardware) (s : Kernel) :
    ∃ s', dispatch s x = some s' ∧ s'.ports = s.ports ++ acknowledgements x := by
  refine ⟨{ s.irq x with ports := (s.irq x).ports ++ picSendEoi ((x.intNo - 32).setWidth 8) }, ?_, ?_⟩
  · unfold dispatch isrHandler
    have hrange : x.intNo ≥ 32 ∧ x.intNo ≤ 47 := hx
    rw [if_neg (BitVec.not_lt.mpr hx.1), if_pos hrange]
  · rw [acknowledgements, ← List.append_assoc, ← irq_ports]

theorem acknowledged_append {port : BitVec 16} {ws : List PortWrite} (h : s'.ports = s.ports ++ ws) :
    s'.acknowledged port = s.acknowledged port + ws.count (port, EOI) := by
  rw [Kernel.acknowledged, h, List.count_append]
  rfl

theorem count_acknowledgements_master (x : Interrupt) :
    (acknowledgements x).count (PIC1_COMMAND, EOI) = 1 + if x.intNo = 33 then 1 else 0 := by
  rw [acknowledgements, List.count_append, count_master, Nat.add_comm]
  split_ifs
  · rw [count_master]
  · rfl

theorem count_acknowledgements_slave (hx : x.Hardware) :
    (acknowledgements x).count (PIC2_COMMAND, EOI) = if 40 ≤ x.intNo then 1 else 0 := by
  obtain ⟨h1, h2⟩ := hx
  have hirq : (x.intNo - 32).setWidth 8 ≥ (8 : Byte) ↔ 40 ≤ x.intNo := by bv_omega
  have hkeyboard : (if x.intNo = 33 then picSendEoi 1 else []).count (PIC2_COMMAND, EOI) = 0 := by
    split_ifs
    · decide
    · rfl
  rw [acknowledgements, List.count_append, hkeyboard, count_slave, Nat.zero_add, if_congr hirq rfl rfl]

/-- The handler returns from every hardware interrupt of a sequence, and the keyboard's are acknowledged twice
at the master. -/
theorem exec_dispatch (hxs : ∀ x ∈ xs, x.Hardware) (s : Kernel) : ∃ s', exec dispatch s xs = some s' ∧
    s'.acknowledged PIC1_COMMAND = s.acknowledged PIC1_COMMAND + (xs.length + xs.countP (·.intNo = 33)) ∧
    s'.acknowledged PIC2_COMMAND = s.acknowledged PIC2_COMMAND + xs.countP (40 ≤ ·.intNo) := by
  induction xs generalizing s with
  | nil => exact ⟨s, rfl, rfl, rfl⟩
  | cons x xs ih =>
    have hx := hxs x List.mem_cons_self
    obtain ⟨t, hstep, hports⟩ := dispatch_hardware hx s
    obtain ⟨s', hrun, hmaster, hslave⟩ := ih (fun y hy => hxs y (List.mem_cons_of_mem _ hy)) t
    refine ⟨s', ?_, ?_, ?_⟩
    · rw [exec, hstep, Option.bind_some, hrun]
    · rw [hmaster, acknowledged_append hports, count_acknowledgements_master, List.length_cons,
        List.countP_cons]
      simp only [decide_eq_true_eq]
      omega
    · rw [hslave, acknowledged_append hports, count_acknowledgements_slave hx, List.countP_cons]
      simp only [decide_eq_true_eq]
      omega

/-- **Each interrupt is acknowledged once if and only if** none is the keyboard's. -/
theorem acknowledged_iff (s : Kernel) (hxs : ∀ x ∈ xs, x.Hardware) :
    ∃ s', exec dispatch s xs = some s' ∧ (Acknowledged s s' xs ↔ ∀ x ∈ xs, x.intNo ≠ 33) := by
  obtain ⟨s', hrun, hmaster, hslave⟩ := exec_dispatch hxs s
  refine ⟨s', hrun, ?_⟩
  have hnone : xs.countP (·.intNo = 33) = 0 ↔ ∀ x ∈ xs, x.intNo ≠ 33 := by
    rw [List.countP_eq_zero]
    simp only [decide_eq_true_eq, ne_eq]
  rw [← hnone]
  constructor
  · intro h
    have := h.master
    omega
  · intro h0
    exact ⟨by rw [hmaster, h0, Nat.add_zero], hslave⟩

/-! ### The clock -/

/-- The interrupt of the timer makes one tick, and no other one touches the clock. -/
theorem dispatch_timer (h : dispatch s x = some s') :
    s'.timer = if x.intNo = 32 then timerTick s.timer else s.timer := by
  unfold dispatch isrHandler at h
  by_cases hexception : x.intNo < 32
  · rw [if_neg (BitVec.ne_of_lt hexception)]
    rw [if_pos hexception] at h
    by_cases hfault : x.intNo = 14
    · rw [if_pos hfault] at h
      cases hresult : pageFaultHandler s.paging x.cr2 x.errCode with
      | recovered paging =>
        rw [hresult] at h
        cases h
        rfl
      | panic printed message =>
        rw [hresult] at h
        cases h
    · rw [if_neg hfault] at h
      cases h
  · rw [if_neg hexception] at h
    by_cases hhardware : x.intNo ≥ 32 ∧ x.intNo ≤ 47
    · rw [if_pos hhardware] at h
      cases h
      unfold Kernel.irq Kernel.keyboardIrq
      split_ifs <;> rfl
    · rw [if_neg hhardware] at h
      cases h
      have hother : x.intNo ≠ 32 := fun h32 => hhardware (by rw [h32]; decide)
      rw [if_neg hother]

/-- The clock after a sequence of interrupts has made one tick for each of the timer's. -/
theorem exec_timer (h : exec dispatch s xs = some s') :
    s'.timer = timerTick^[xs.countP (·.intNo = 32)] s.timer := by
  induction xs generalizing s with
  | nil =>
    cases h
    rfl
  | cons x xs ih =>
    rw [exec, Option.bind_eq_some_iff] at h
    obtain ⟨t, hstep, hrun⟩ := h
    rw [ih hrun, dispatch_timer hstep, List.countP_cons, Function.iterate_add_apply]
    simp only [decide_eq_true_eq]
    split_ifs <;> rfl

/-- The kernel before the first interrupt. -/
def sampleKernel : Kernel := ⟨⟨0, 0⟩, .start, ⟨lowFrame, fun _ => 0, fun _ => 0, fun _ => 0⟩, []⟩

theorem acknowledged_timer_disk : ∃ s', exec dispatch sampleKernel [⟨32, 0, 0, 0⟩, ⟨46, 0, 0, 0⟩] = some s' ∧
    Acknowledged sampleKernel s' [⟨32, 0, 0, 0⟩, ⟨46, 0, 0, 0⟩] := by
  have hxs : ∀ x ∈ [Interrupt.mk 32 0 0 0, Interrupt.mk 46 0 0 0], x.Hardware := by
    unfold Interrupt.Hardware
    decide
  obtain ⟨s', hrun, hack⟩ := acknowledged_iff sampleKernel hxs
  exact ⟨s', hrun, hack.mpr (by decide)⟩

/-- One interrupt of the keyboard is acknowledged twice. -/
theorem not_acknowledged : ¬ ∀ s s' xs, (∀ x ∈ xs, Interrupt.Hardware x) → exec dispatch s xs = some s' →
    Acknowledged s s' xs := by
  intro hall
  have hack := hall sampleKernel _ [⟨33, 0, 0, 0x1E⟩] (by unfold Interrupt.Hardware; decide) rfl
  exact absurd hack.master (by decide)

end SpatulaOS.Core
