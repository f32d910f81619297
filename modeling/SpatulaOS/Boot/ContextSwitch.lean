import SpatulaOS.Lib.X86

/-!
# The context switch

`context_switch.s`: the registers are pushed, the registers and the stack pointer are stored in the
record of the old context, and the registers are loaded from the record of the new one. The stack
pointer is not: `popa` and `ret` work on the stack of the old context, and what was loaded is
overwritten. A call returns to its own caller (`contextSwitch_returns`), and never to that of the
other context (`not_resumed`).
-/

namespace SpatulaOS.Boot

open ByteMemory X86

/-! ### The assembly -/

/-- The part that saves the old context. -/
def saveOld : List Instr :=
  [.pusha,
   .movLoad .eax .esp 36,
   .movStore .eax 0 .edi,
   .movStore .eax 4 .esi,
   .movStore .eax 8 .ebp,
   .movStore .eax 12 .esp,
   .movStore .eax 16 .ebx,
   .movStore .eax 20 .edx,
   .movStore .eax 24 .ecx,
   .movStore .eax 28 .eax]

/-- The part that loads the new one. -/
def loadNew : List Instr :=
  [.movLoad .eax .esp 40,
   .movLoad .edi .eax 0,
   .movLoad .esi .eax 4,
   .movLoad .ebp .eax 8,
   .movLoad .ebx .eax 16,
   .movLoad .edx .eax 20,
   .movLoad .ecx .eax 24,
   .movLoad .eax .eax 28]

/-- `context_switch` -/
def contextSwitch : List Instr := saveOld ++ loadNew ++ [.popa, .ret]

/-! ### Two contexts -/

/-- `context_switch(old, new)` is called in `s`. -/
structure Call (code : Code) (s : State) (old new : Word) : Prop where
  code : CodeAt code s.eip contextSwitch
  old : s.mem.load (s.esp + 4) = old
  new : s.mem.load (s.esp + 8) = new

/-- The call in `s` has returned in `t`. -/
def Returned (code : Code) (s t : State) : Prop := runs code contextSwitch.length s = some t

/-- The bytes of the stack that a call uses: the registers, the return address and the arguments. -/
def frame (s : State) : Set Word := { x | x - (s.esp - 32) < 44 }

/-- The bytes of the record of a context. -/
def record (c : Word) : Set Word := { x | x - c < 32 }

/-- The context `c` was saved by the call in `u`, and its record and its stack are in the memory `m`
as they were left. -/
def Saved (code : Code) (c : Word) (u : State) (m : Mem) : Prop :=
  ∃ other v, Call code u c other ∧ Returned code u v ∧ Set.EqOn m v.mem (record c ∪ frame u)

/-- The caller goes on in `t` as if its call in `s` had just returned: at the return address, with
its stack pointer and all its registers. -/
structure Resumed (s t : State) : Prop where
  eip : t.eip = s.mem.load s.esp
  esp : t.esp = s.esp + 4
  reg : ∀ r, r ≠ .esp → t.reg r = s.reg r

/-- A switch from `a` to `b` and a later one back, between contexts whose stacks are apart: `b` was
saved by the call in `u`, `a` is by the one in `s`, which is over in `t`, and the one in `s'` is
over in `t'`. -/
structure RoundTrip (code : Code) (a b : Word) (u s t s' t' : State) : Prop where
  saved : Saved code b u s.mem
  call : Call code s a b
  returned : Returned code s t
  kept : Saved code a s s'.mem
  back : Call code s' b a
  returned' : Returned code s' t'
  apart : Disjoint (frame u ∪ frame s') (frame s)

variable {code : Code} {a b old new : Word} {s t u s' t' : State}

/-! ### What a call does -/

/-- The registers are pushed and the context is saved, the new one is loaded, and the registers are popped. -/
def switched (next : Word) (s : State) : State := block (saveOld ++ loadNew ++ [.popa]) next s

/-- The routine goes on to its end without a jump. -/
theorem Call.returns (h : Call code s old new) :
    ∃ next b, Returned code s (exec .ret b (switched next s)) := by
  have hc : CodeAt code s.eip ((saveOld ++ loadNew ++ [.popa]) ++ [.ret]) := h.code
  obtain ⟨next, hruns, hret⟩ := hc.runs_block (by decide)
  obtain ⟨b, hi, -⟩ := hret.cons
  refine ⟨next, b, ?_⟩
  rw [Returned, contextSwitch, show saveOld ++ loadNew ++ [.popa, .ret] =
    (saveOld ++ loadNew ++ [.popa]) ++ [.ret] from rfl,
    List.length_append, runs_add, hruns, Option.bind_some, List.length_singleton, runs]
  rw [← block_end (saveOld ++ loadNew ++ [.popa]) next s] at hi
  rw [step_eq hi]
  rfl

/-- The stack pointer is where `pusha` left it when the registers are popped. -/
theorem switched_esp (next : Word) (s : State) : (switched next s).esp = s.esp := by
  have hpop : (switched next s).esp = s.pusha.esp + 32 := rfl
  rw [hpop, pusha_esp]
  bv_omega

/-- A call returns on its own stack. -/
theorem Returned.esp (hcall : Call code s old new) (h : Returned code s t) : t.esp = s.esp + 4 := by
  obtain ⟨next, b, hreturned⟩ := hcall.returns
  obtain rfl : t = exec .ret b (switched next s) := Option.some_inj.mp (h.symm.trans hreturned)
  exact congrArg (· + 4) (switched_esp next s)

/-- The words of the record are apart from those that `pusha` pushed and the return address. -/
theorem frame_apart (h : Disjoint (record old) (frame s)) {k : ℕ} (hk : k < 9) {d : Word} (hd : d ≤ 28) :
    4 ≤ s.esp - 32 + BitVec.ofNat 32 (4 * k) - (old + d) ∧
      4 ≤ old + d - (s.esp - 32 + BitVec.ofNat 32 (4 * k)) := by
  have hapart (x : Word) (hx : x - old < 32) : ¬ x - (s.esp - 32) < 44 := fun hframe =>
    Set.disjoint_left.mp h hx hframe
  have hk' : BitVec.ofNat 32 (4 * k) ≤ 32 := by bv_omega
  generalize BitVec.ofNat 32 (4 * k) = x at hk' ⊢
  have hframe : ¬ s.esp - 32 + x - old < 32 := fun hx => hapart _ hx (by bv_omega)
  have hrecord : ¬ old + d - (s.esp - 32) < 44 := hapart _ (by bv_omega)
  bv_omega

/-- The fields of the record. -/
def fields : List (Word × Reg) :=
  [(0, .edi), (4, .esi), (8, .ebp), (12, .esp), (16, .ebx), (20, .edx), (24, .ecx), (28, .eax)]

theorem switched_eq (next : Word) (s : State) : block (saveOld ++ loadNew) next s =
    block loadNew next (block (fields.map fun f => .movStore .eax f.1 f.2) next
      (exec (.movLoad .eax .esp 36) next (exec .pusha next s))) := by
  rw [block_append, saveOld, block, block]
  rfl

/-- The words on the stack when the registers are popped are those that were pushed, if the record
is elsewhere. -/
theorem switched_stacked (h : Call code s old new) (hapart : Disjoint (record old) (frame s)) (next : Word) :
    Stacked (block (saveOld ++ loadNew) next s) (fileOf s.reg ++ [s.mem.load s.esp]) := by
  have hargs : Stacked s [s.mem.load s.esp, old] := by
    have hold : OnStack s.mem (s.esp + 4) [old] := by
      rw [← h.old]
      exact OnStack.cons fun k w hk => by cases hk
    exact hold.cons
  obtain ⟨p, hp, hesp, hstack⟩ : ∃ p, p = exec .pusha next s ∧ p.esp = s.esp - 32 ∧
      Stacked p (fileOf s.reg ++ [s.mem.load s.esp, old]) :=
    ⟨_, rfl, pusha_esp s, hargs.pusha (Nat.le_of_ble_eq_true rfl)⟩
  have hold : p.mem.load (p.esp + 36) = old := hstack 9 old rfl
  have hwords : OnStack p.mem p.esp ((fileOf s.reg ++ [s.mem.load s.esp]) ++ [old]) := by
    rwa [List.append_assoc]
  rw [switched_eq, ← hp]
  have hload :
      Stacked (exec (.movLoad .eax .esp 36) next p) (fileOf s.reg ++ [s.mem.load s.esp]) :=
      hwords.left
  refine Stacked.loads (hload.stores next fun f hf k hk => ?_) next fun i hi => ?_
  · have hd : f.1 ≤ 28 := by
      revert f
      decide
    have heax : (exec (.movLoad .eax .esp 36) next p).reg .eax = old := hold
    have hesp' : (exec (.movLoad .eax .esp 36) next p).esp = s.esp - 32 := hesp
    rw [heax, hesp']
    exact frame_apart hapart hk hd
  · simp only [loadNew, List.mem_cons, List.not_mem_nil, or_false] at hi
    obtain rfl | rfl | rfl | rfl | rfl | rfl | rfl | rfl := hi <;> exact ⟨_, _, _, rfl, by decide⟩

/-- A call returns to its own caller, with the registers of that, if the record of the old context is not on
its stack. -/
theorem contextSwitch_returns (h : Call code s old new) (hapart : Disjoint (record old) (frame s)) :
    ∃ t, Returned code s t ∧ Resumed s t := by
  obtain ⟨next, b, hreturned⟩ := h.returns
  have hstack := switched_stacked h hapart next
  have hpopa : switched next s = exec .popa next (block (saveOld ++ loadNew) next s) := by
    rw [switched, block_append, block, block]
    rfl
  have hret : Stacked (switched next s) [s.mem.load s.esp] := by
    rw [hpopa]
    exact hstack.drop 8
  refine ⟨_, hreturned, hret.top, congrArg (· + 4) (switched_esp next s), fun r hr => ?_⟩
  have hreg : (exec .ret b (switched next s)).reg r = (switched next s).reg r := Function.update_of_ne hr _ _
  rw [hreg, hpopa]
  exact hstack.popped hr

/-- Calls on stacks that are apart do not have the same stack pointer. -/
theorem esp_ne_of_disjoint (h : Disjoint (frame s) (frame t)) : s.esp ≠ t.esp := by
  intro heq
  have hmem (s : State) : s.esp - 32 ∈ frame s := by
    show s.esp - 32 - (s.esp - 32) < 44
    rw [BitVec.sub_self]
    decide
  have hs := hmem s
  rw [heq] at hs
  exact Set.disjoint_left.mp h (heq ▸ hs) (hmem t)

/-- A call does not go on to the caller of a call on another stack. -/
theorem not_resumed (hcall : Call code s old new) (h : Returned code s t)
    (hstacks : Disjoint (frame u) (frame s)) :
    ¬ Resumed u t := by
  intro hresumed
  have hesp := hresumed.esp.symm.trans (Returned.esp hcall h)
  exact esp_ne_of_disjoint hstacks (by bv_omega)

/-- **The other context is never resumed**, neither by the switch to it nor by the one back. -/
theorem RoundTrip.never_resumed (h : RoundTrip code a b u s t s' t') : ¬ Resumed u t ∧ ¬ Resumed s t' := by
  obtain ⟨hu, hs'⟩ := Set.disjoint_union_left.mp h.apart
  exact ⟨not_resumed h.call h.returned hu, not_resumed h.back h.returned' hs'.symm⟩

/-! ### One switch and back -/

/-- The routine at `0x100000`. -/
def switchCode : Code := fun a => contextSwitch[a.toNat - 0x100000]?.map fun i => (i, a + 1)

/-- The records are at `0x5000` and `0x6000`. The second context calls from `0x8000`, the first from
`0x9000` and the second again from `0x8100`. -/
def switchMem : Mem :=
  [((0x8004 : Word), (0x6000 : Word)), (0x8008, 0x7000), (0x9004, 0x5000), (0x9008, 0x6000), (0x8104, 0x6000),
    (0x8108, 0x5000)].foldl (fun m x => m.store x.1 x.2) fun _ => 0

/-- A call with the stack pointer `esp`. -/
def switchCall (esp : Word) (m : Mem) : State :=
  ⟨fun r => if r = .esp then esp else 0, 0x100000, 0x08, 0x10, 0x202, m⟩

/-- The machine after a call. -/
def switchOver (s : State) : State := (runs switchCode contextSwitch.length s).getD s

theorem switchOver_returned (h : Call switchCode s old new) : Returned switchCode s (switchOver s) := by
  obtain ⟨next, b, hreturned⟩ := h.returns
  rw [switchOver, show runs switchCode contextSwitch.length s = _ from hreturned]
  exact hreturned

/-- The call that saves the second context. -/
def savedAt : State := switchCall 0x8000 switchMem

/-- The switch to it. -/
def switchedAt : State := switchCall 0x9000 (switchOver savedAt).mem

/-- The switch back. -/
def backAt : State := switchCall 0x8100 (switchOver switchedAt).mem

theorem savedAt_call : Call switchCode savedAt 0x6000 0x7000 :=
  ⟨by decide +kernel, by decide +kernel, by decide +kernel⟩

theorem switchedAt_call : Call switchCode switchedAt 0x5000 0x6000 :=
  ⟨by decide +kernel, by decide +kernel, by decide +kernel⟩

theorem backAt_call : Call switchCode backAt 0x6000 0x5000 :=
  ⟨by decide +kernel, by decide +kernel, by decide +kernel⟩

theorem switch_roundTrip :
    RoundTrip switchCode 0x5000 0x6000 savedAt switchedAt (switchOver switchedAt) backAt
    (switchOver backAt) where
  saved := ⟨0x7000, _, savedAt_call, switchOver_returned savedAt_call, Set.eqOn_refl _ _⟩
  call := switchedAt_call
  returned := switchOver_returned switchedAt_call
  kept := ⟨0x6000, _, switchedAt_call, switchOver_returned switchedAt_call, Set.eqOn_refl _ _⟩
  back := backAt_call
  returned' := switchOver_returned backAt_call
  apart := by
    refine Set.disjoint_left.mpr fun x hx hx' => ?_
    have h9000 : x - (0x9000 - 32) < 44 := hx'
    obtain h8000 | h8100 := hx
    · have : x - (0x8000 - 32) < 44 := h8000
      bv_omega
    · have : x - (0x8100 - 32) < 44 := h8100
      bv_omega

theorem switch_never_resumed :
    ¬ Resumed savedAt (switchOver switchedAt) ∧ ¬ Resumed switchedAt (switchOver backAt) :=
  switch_roundTrip.never_resumed

theorem not_roundTrip_resumes : ¬ ∀ code a b u s t s' t', RoundTrip code a b u s t s' t' →
    Resumed u t ∧ Resumed s t' := by
  intro h
  have hresumed := (h _ _ _ _ _ _ _ _ switch_roundTrip).1
  have hesp := hresumed.esp.symm.trans (Returned.esp switchedAt_call switch_roundTrip.returned)
  exact absurd hesp (by decide)

end SpatulaOS.Boot
