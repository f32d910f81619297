import SpatulaOS.Boot.IsrStubs
import SpatulaOS.Lib.Descriptors

/-!
# The descriptor tables

`gdt_init` and `tss_init` of `arch/x86`, `idt_init` of `core/idt.c` and the three assembly functions
that load the registers, on a memory. What `gdt_set_entry` and `idt_set_gate` store is what the
processor reads back (`segmentAt_gdtSetEntry`, `gateAt_idtSetGate`). From any memory the boot loads
the tables without a fault, and from then on every selector and every vector names what the kernel
means by it, as long as nothing else writes to the tables (`boot_tables`). So an interrupt is
delivered as the stubs expect.
-/

namespace SpatulaOS.Boot

open ByteMemory X86 Descriptors

/-! ### The global table -/

/-- `gdt_set_entry` -/
def gdtSetEntry (m : Mem) (gdt : Word) (num : ℕ) (base limit : Word) (access gran : Byte) : Mem :=
  let e := entry gdt num
  let m := storeHalf m (byteAddr e 2) ((base &&& 0xFFFF).setWidth 16)
  let m := m.storeByte (byteAddr e 4) (((base >>> 16) &&& 0xFF).setWidth 8)
  let m := m.storeByte (byteAddr e 7) (((base >>> 24) &&& 0xFF).setWidth 8)
  let m := storeHalf m (byteAddr e 0) ((limit &&& 0xFFFF).setWidth 16)
  let m := m.storeByte (byteAddr e 6) (((limit >>> 16) &&& 0x0F).setWidth 8)
  let m := m.storeByte (byteAddr e 6) (m (byteAddr e 6) ||| (gran &&& 0xF0))
  m.storeByte (byteAddr e 5) access

/-- The memory that each table takes. -/
def regions (gdt gp tss idt idtp : Word) : List (Word × ℕ) :=
  [(gdt, 48), (gp, 6), (tss, 104), (idt, 2048), (idtp, 6)]

/-- Where the tables are, with the operands of `lgdt` and `lidt`. -/
structure Layout where
  gdt : Word
  gp : Word
  tss : Word
  idt : Word
  idtp : Word
  fits : ∀ r ∈ regions gdt gp tss idt idtp, r.1.toNat + r.2 ≤ 2 ^ 32
  apart : (regions gdt gp tss idt idtp).Pairwise fun r s => r.1.toNat + r.2 ≤ s.1.toNat ∨
      s.1.toNat + s.2 ≤ r.1.toNat

instance instInhabitedLayout : Inhabited Layout :=
  ⟨⟨0x101000, 0x101030, 0x101040, 0x102000, 0x102800, by decide, by decide⟩⟩

/-- The bytes of the tables. -/
def Layout.bytes (T : Layout) : Set ℕ :=
  { x | ∃ r ∈ regions T.gdt T.gp T.tss T.idt T.idtp, x ∈ Set.Ico r.1.toNat (r.1.toNat + r.2) }

/-- The registers that name the tables and their entries. -/
structure Cpu where
  gdtr : Table
  idtr : Table
  cs : BitVec 16
  ds : BitVec 16
  es : BitVec 16
  fs : BitVec 16
  gs : BitVec 16
  ss : BitVec 16
  tr : BitVec 16

/-- The kernel can load a segment of this kind. -/
def loads (m : Mem) (gdtr : Table) (sel : BitVec 16) (kind : Segment → Bool) : Bool :=
  match segment? m gdtr sel with
  | some d => d.present && kind d && d.dpl = 0
  | none => false

/-- `gdt_flush`; a fault ends it. -/
def gdtFlush (m : Mem) (cpu : Cpu) (gp : Word) : Option Cpu :=
  let gdtr := tableAt m gp
  if loads m gdtr 0x10 Segment.data && loads m gdtr 0x08 Segment.code then
    some { cpu with gdtr := gdtr, ds := 0x10, es := 0x10, fs := 0x10, gs := 0x10, ss := 0x10, cs := 0x08 }
  else none

/-- `gdt_init` -/
def gdtInit (T : Layout) (m : Mem) (cpu : Cpu) : Option (Mem × Cpu) :=
  let m := storeHalf m T.gp (8 * 6 - 1)
  let m := m.store (byteAddr T.gp 2) T.gdt
  let m := gdtSetEntry m T.gdt 0 0 0 0 0
  let m := gdtSetEntry m T.gdt 1 0 0xFFFFFFFF 0x9A 0xCF
  let m := gdtSetEntry m T.gdt 2 0 0xFFFFFFFF 0x92 0xCF
  let m := gdtSetEntry m T.gdt 3 0 0xFFFFFFFF 0xFA 0xCF
  let m := gdtSetEntry m T.gdt 4 0 0xFFFFFFFF 0xF2 0xCF
  (gdtFlush m cpu T.gp).map fun cpu => (m, cpu)

/-- `tss_flush`: `ltr` wants an available task segment, and marks it busy. -/
def tssFlush (m : Mem) (cpu : Cpu) : Option (Mem × Cpu) :=
  match segment? m cpu.gdtr 0x28 with
  | some d =>
    if d.present && d.system = some 9 then
      some (m.storeByte (byteAddr (entry cpu.gdtr.base 5) 5) (d.access ||| 2), { cpu with tr := 0x28 })
    else none
  | none => none

/-- `tss_init` -/
def tssInit (T : Layout) (m : Mem) (cpu : Cpu) : Option (Mem × Cpu) :=
  let m := gdtSetEntry m T.gdt 5 T.tss 104 0x89 0x40
  let m := m.store (byteAddr T.tss 8) 0x10
  let m := m.store (byteAddr T.tss 4) 0
  let m := storeHalf m (byteAddr T.tss 102) 104
  tssFlush m cpu

/-! ### The interrupt table -/

/-- The five fields of `idt[n]`. -/
def storeGate (m : Mem) (idt : Word) (n : ℕ) (low selector : BitVec 16) (zero attributes : Byte)
    (high : BitVec 16) : Mem :=
  let e := entry idt n
  let m := storeHalf m (byteAddr e 0) low
  let m := storeHalf m (byteAddr e 2) selector
  let m := m.storeByte (byteAddr e 4) zero
  let m := m.storeByte (byteAddr e 5) attributes
  storeHalf m (byteAddr e 6) high

/-- `idt_set_gate` -/
def idtSetGate (m : Mem) (idt : Word) (n : ℕ) (handler : Word) : Mem :=
  storeGate m idt n ((handler &&& 0xFFFF).setWidth 16) 0x08 0 0x8E (((handler >>> 16) &&& 0xFFFF).setWidth 16)

/-- `idt_init`, with the addresses of the stubs. -/
def idtInit (T : Layout) (k : Text) (m : Mem) (cpu : Cpu) : Mem × Cpu :=
  let m := storeHalf m T.idtp (8 * 256 - 1)
  let m := m.store (byteAddr T.idtp 2) T.idt
  let m := (List.range 256).foldl (fun m i => storeGate m T.idt i 0 0 0 0 0) m
  let m := (List.range 32).foldl (fun m i => idtSetGate m T.idt i (k.isr i)) m
  let m := (List.range 16).foldl (fun m i => idtSetGate m T.idt (32 + i) (k.irq i)) m
  (m, { cpu with idtr := tableAt m T.idtp })

/-- What `kernel_boot` calls for the tables. -/
def bootTables (T : Layout) (k : Text) (m : Mem) (cpu : Cpu) : Option (Mem × Cpu) :=
  (gdtInit T m cpu).bind fun r => (tssInit T r.1 r.2).map fun r => idtInit T k r.1 r.2

/-- What the processor does on an interrupt in the kernel: the vector names a present interrupt
gate, and that a code segment of the kernel. -/
def Cpu.interrupt (cpu : Cpu) (x : Interrupt) : Option State :=
  match gate? x.state.mem cpu.idtr x.vector with
  | some g =>
    if g.interrupt && loads x.state.mem cpu.gdtr g.selector Segment.code then
      some { x.deliver g.offset with cs := g.selector }
    else none
  | none => none

/-- Every selector and every vector names what the kernel means by it. -/
structure Established (T : Layout) (k : Text) (cpu : Cpu) (m : Mem) : Prop where
  /-- The first entry and those beyond the table are none. -/
  null : ∀ sel, index sel = 0 ∨ 6 ≤ index sel → segment? m cpu.gdtr sel = none
  /-- Code and data of the kernel and of the user, each of them all of the address space. -/
  flat : ∀ sel, sel.getLsbD 2 = false → 1 ≤ index sel → index sel ≤ 4 →
      ∃ d, segment? m cpu.gdtr sel = some d ∧ d.present ∧
    d.base = 0 ∧ d.last = 2 ^ 32 - 1 ∧ d.code = decide (index sel % 2 = 1) ∧
      d.data = decide (index sel % 2 = 0) ∧
    d.dpl = if index sel ≤ 2 then 0 else 3
  /-- The task is busy, and its segment is the TSS. -/
  task : cpu.tr = 0x28 ∧ ∃ d, segment? m cpu.gdtr cpu.tr = some d ∧ d.present ∧
      d.system = some 0xB ∧ d.base = T.tss ∧
    d.last = 104 ∧ m.load (byteAddr T.tss 8) = 0x10
  selectors : cpu.cs = 0x08 ∧ ∀ sel ∈ [cpu.ds, cpu.es, cpu.fs, cpu.gs, cpu.ss], sel = 0x10
  /-- The gates of the stubs, and no others. -/
  gates : ∀ v, gate? m cpu.idtr v = if v < 48 then some ⟨k.gate v, 0x08, 0x8E⟩ else none

variable {T : Layout} {k : Text} {cpu : Cpu} {m m' : Mem} {gdt idt : Word} {i num : ℕ}

/-! ### One entry -/

theorem half_bytes (v : Word) (n : ℕ) {j : ℕ} (hj : j + 8 ≤ 16) :
    (((v >>> n) &&& 0xFFFF).setWidth 16).extractLsb' j 8 = v.extractLsb' (n + j) 8 := by
  have hhalf : ((v >>> n) &&& 0xFFFF).setWidth 16 = v.extractLsb' n 16 := field_eq v n (by decide)
  rw [hhalf]
  ext i hi
  simp only [BitVec.getElem_extractLsb', BitVec.getLsbD_extractLsb', Nat.add_assoc]
  rw [decide_eq_true (by omega), Bool.true_and]

theorem lowHalf_bytes (v : Word) {j : ℕ} (hj : j + 8 ≤ 16) :
    ((v &&& 0xFFFF).setWidth 16).extractLsb' j 8 = v.extractLsb' j 8 := by
  have h := half_bytes v 0 hj
  rwa [BitVec.ushiftRight_zero, Nat.zero_add] at h

theorem granularity_limit (limit : Word) (gran : Byte) :
    (((limit >>> 16) &&& 0x0F).setWidth 8 ||| (gran &&& 0xF0)).extractLsb' 0 4 = limit.extractLsb' 16 4 := by
  ext i hi
  interval_cases i <;> simp

theorem granularity_flags (limit : Word) (gran : Byte) :
    (((limit >>> 16) &&& 0x0F).setWidth 8 ||| (gran &&& 0xF0)).extractLsb' 4 4 = gran.extractLsb' 4 4 := by
  ext i hi
  interval_cases i <;> simp

/-- `gdt_set_entry`: the processor reads back what it was given, the limit as far as the field goes. -/
theorem segmentAt_gdtSetEntry (m : Mem) (gdt : Word) (num : ℕ) (base limit : Word) (access gran : Byte) :
    segmentAt (gdtSetEntry m gdt num base limit access gran) (entry gdt num) =
      ⟨base, limit.extractLsb' 0 20, access, gran.extractLsb' 4 4⟩ := by
  have hlimit₁ : limit.extractLsb' 16 4 ++ limit.extractLsb' 8 8 = limit.extractLsb' 8 12 :=
    BitVec.extractLsb'_append_extractLsb'_eq_extractLsb' rfl
  have hlimit₂ : limit.extractLsb' 8 12 ++ limit.extractLsb' 0 8 = limit.extractLsb' 0 20 :=
    BitVec.extractLsb'_append_extractLsb'_eq_extractLsb' rfl
  have hbyte (n : ℕ) : ((base >>> n) &&& 0xFF).setWidth 8 = base.extractLsb' n 8 :=
    field_eq base n (by decide)
  unfold gdtSetEntry
  generalize entry gdt num = e
  simp (disch := decide) only [segmentAt, storeHalf, byteAddr_byteAddr, storeByte_at,
    Nat.reduceAdd, Nat.reduceEqDiff,
    if_true, if_false]
  rw [granularity_limit, granularity_flags, lowHalf_bytes limit (by decide), lowHalf_bytes limit (by decide),
    lowHalf_bytes base (by decide), lowHalf_bytes base (by decide), hbyte, hbyte, append_bytes,
      hlimit₁, hlimit₂]

theorem gateAt_storeGate (m : Mem) (idt : Word) (n : ℕ) (low selector : BitVec 16) (zero attributes : Byte)
    (high : BitVec 16) : gateAt (storeGate m idt n low selector zero attributes high) (entry idt n) =
      ⟨high.extractLsb' 8 8 ++ high.extractLsb' 0 8 ++ low.extractLsb' 8 8 ++ low.extractLsb' 0 8,
        selector, attributes⟩ := by
  have hselector : selector.extractLsb' 8 8 ++ selector.extractLsb' 0 8 = selector := by
    have h : selector.extractLsb' 8 8 ++ selector.extractLsb' 0 8 = selector.extractLsb' 0 16 :=
      BitVec.extractLsb'_append_extractLsb'_eq_extractLsb' rfl
    rw [h, BitVec.extractLsb'_eq_self]
  unfold storeGate
  generalize entry idt n = e
  simp (disch := decide) only [gateAt, storeHalf, byteAddr_byteAddr, storeByte_at, Nat.reduceAdd,
    Nat.reduceEqDiff,
    if_true, if_false]
  rw [hselector]

/-- `idt_set_gate`: the processor reads back the handler, in an interrupt gate. -/
theorem gateAt_idtSetGate (m : Mem) (idt : Word) (n : ℕ) (handler : Word) :
    gateAt (idtSetGate m idt n handler) (entry idt n) = ⟨handler, 0x08, 0x8E⟩ := by
  rw [idtSetGate, gateAt_storeGate, half_bytes _ _ (by decide), half_bytes _ _ (by decide),
    lowHalf_bytes _ (by decide),
    lowHalf_bytes _ (by decide), append_bytes]

theorem keeps_gdtSetEntry (m : Mem) (base limit : Word) (access gran : Byte)
    (h : gdt.toNat + 8 * num + 8 ≤ 2 ^ 32) :
    Keeps (entryBytes gdt num) m (gdtSetEntry m gdt num base limit access gran) := by
  have h₁ := entryHalf_keeps (Keeps.refl _ m) h (j := 2) (by decide) ((base &&& 0xFFFF).setWidth 16)
  have h₂ := entryByte_keeps h₁ h (j := 4) (by decide) (((base >>> 16) &&& 0xFF).setWidth 8)
  have h₃ := entryByte_keeps h₂ h (j := 7) (by decide) (((base >>> 24) &&& 0xFF).setWidth 8)
  have h₄ := entryHalf_keeps h₃ h (j := 0) (by decide) ((limit &&& 0xFFFF).setWidth 16)
  have h₅ := entryByte_keeps h₄ h (j := 6) (by decide) (((limit >>> 16) &&& 0x0F).setWidth 8)
  exact entryByte_keeps (entryByte_keeps h₅ h (by decide) _) h (by decide) access

theorem keeps_storeGate (m : Mem) (low selector : BitVec 16) (zero attributes : Byte) (high : BitVec 16)
    (h : idt.toNat + 8 * num + 8 ≤ 2 ^ 32) :
    Keeps (entryBytes idt num) m (storeGate m idt num low selector zero attributes high) := by
  have h₁ := entryHalf_keeps (Keeps.refl _ m) h (j := 0) (by decide) low
  have h₂ := entryHalf_keeps h₁ h (j := 2) (by decide) selector
  have h₃ := entryByte_keeps h₂ h (j := 4) (by decide) zero
  exact entryHalf_keeps (entryByte_keeps h₃ h (by decide) attributes) h (by decide) high

theorem fills_clear (idt : Word) : Fills idt (fun m i => storeGate m idt i 0 0 0 0 0) fun _ => ⟨0, 0, 0⟩ where
  keeps m _ h := keeps_storeGate m 0 0 0 0 0 h
  gate m i _ := by rw [gateAt_storeGate]; rfl

theorem fills_idtSetGate (idt : Word) (handler : ℕ → Word) :
    Fills idt (fun m i => idtSetGate m idt i (handler i)) fun i => ⟨handler i, 0x08, 0x8E⟩ where
  keeps m _ h := keeps_storeGate m _ _ _ _ _ h
  gate m i _ := gateAt_idtSetGate m idt i (handler i)

/-! ### The tables in memory -/

/-- The descriptors that are in use. -/
def descriptor (tss : Word) : ℕ → Segment
  | 1 => ⟨0, 0xFFFFF, 0x9A, 0xC⟩
  | 2 => ⟨0, 0xFFFFF, 0x92, 0xC⟩
  | 3 => ⟨0, 0xFFFFF, 0xFA, 0xC⟩
  | 4 => ⟨0, 0xFFFFF, 0xF2, 0xC⟩
  | _ => ⟨tss, 104, 0x8B, 4⟩

/-- The tables as the boot leaves them. -/
structure Loaded (T : Layout) (k : Text) (cpu : Cpu) (m : Mem) : Prop where
  gdtr : cpu.gdtr = ⟨T.gdt, 47⟩
  idtr : cpu.idtr = ⟨T.idt, 2047⟩
  entries : ∀ i, 1 ≤ i → i < 6 → segmentAt m (entry T.gdt i) = descriptor T.tss i
  gates : ∀ v, v < 256 → gateAt m (entry T.idt v) = if v < 48 then ⟨k.gate v, 0x08, 0x8E⟩ else ⟨0, 0, 0⟩
  ss0 : m.load (byteAddr T.tss 8) = 0x10
  tr : cpu.tr = 0x28
  selectors : cpu.cs = 0x08 ∧ ∀ sel ∈ [cpu.ds, cpu.es, cpu.fs, cpu.gs, cpu.ss], sel = 0x10

theorem segment?_eq (m : Mem) (gdt : Word) {sel : BitVec 16} (hti : sel.getLsbD 2 = false)
    (h1 : 1 ≤ index sel)
    (h6 : index sel < 6) : segment? m ⟨gdt, 47⟩ sel = some (segmentAt m (entry gdt (index sel))) := by
  rw [segment?, if_neg]
  rintro (h | h | h)
  · rw [hti] at h
    cases h
  · omega
  · have h47 : (47 : BitVec 16).toNat = 47 := rfl
    dsimp only at h
    omega

/-- What the loaded tables mean. -/
theorem Loaded.established (h : Loaded T k cpu m) : Established T k cpu m where
  null sel hsel := by
    rw [segment?, h.gdtr, if_pos]
    obtain h0 | h6 := hsel
    · exact .inr (.inl h0)
    · have h47 : (47 : BitVec 16).toNat = 47 := rfl
      exact .inr (.inr (by dsimp only; omega))
  flat sel hti h1 h4 := by
    rw [h.gdtr]
    refine ⟨_, segment?_eq m T.gdt hti h1 (by omega), ?_⟩
    rw [h.entries _ h1 (by omega)]
    generalize index sel = i at h1 h4
    interval_cases i
    all_goals
      simp only [descriptor, Segment.present, Segment.last, Segment.code, Segment.data, Segment.dpl]
      decide
  task := by
    have htask : (descriptor T.tss 5).present = true ∧ (descriptor T.tss 5).system = some 0xB ∧
        (descriptor T.tss 5).last = 104 := by
      simp only [descriptor, Segment.present, Segment.system, Segment.last]
      decide
    refine ⟨h.tr, descriptor T.tss 5, ?_, htask.1, htask.2.1, rfl, htask.2.2, h.ss0⟩
    rw [h.tr, h.gdtr, segment?_eq m T.gdt rfl (by decide) (by decide), ← h.entries 5 (by decide) (by decide)]
    rfl
  selectors := h.selectors
  gates v := by
    have h2047 : (2047 : BitVec 16).toNat = 2047 := rfl
    rw [gate?, h.idtr]
    dsimp only
    by_cases hv : v < 256
    · rw [if_neg (by omega), h.gates v hv]
      by_cases h48 : v < 48
      · rw [if_pos h48, if_pos h48]
        exact if_pos (show (0x8E : Byte).getLsbD 7 = true by decide)
      · rw [if_neg h48, if_neg h48]
        exact if_neg (show ¬ (0 : Byte).getLsbD 7 = true by decide)
    · rw [if_pos (by omega), if_neg (by omega)]

theorem Loaded.congr (h : Loaded T k cpu m) (hm : ∀ x : Word, x.toNat ∈ T.bytes → m' x = m x) :
    Loaded T k cpu m' := by
  have hmem {r : Word × ℕ} (hr : r ∈ regions T.gdt T.gp T.tss T.idt T.idtp) {j : ℕ} (hj : j < r.2) :
      m' (byteAddr r.1 j) = m (byteAddr r.1 j) := by
    have := T.fits r hr
    refine hm _ ⟨r, hr, ?_⟩
    rw [toNat_byteAddr (by omega), Set.mem_Ico]
    omega
  refine ⟨h.gdtr, h.idtr, fun i h1 h6 => ?_, fun v hv => ?_, ?_, h.tr, h.selectors⟩
  · rw [← h.entries i h1 h6]
    refine segmentAt_congr fun j hj => ?_
    rw [byteAddr_byteAddr]
    exact hmem (r := (T.gdt, 48)) (by simp [regions]) (by dsimp only; omega)
  · rw [← h.gates v hv]
    refine gateAt_congr fun j hj => ?_
    rw [byteAddr_byteAddr]
    exact hmem (r := (T.idt, 2048)) (by simp [regions]) (by dsimp only; omega)
  · rw [← h.ss0]
    refine load_congr fun j hj => ?_
    rw [byteAddr_byteAddr]
    exact hmem (r := (T.tss, 104)) (by simp [regions]) (by dsimp only; omega)

/-! ### The boot -/

theorem segmentAt_setEntry (m : Mem) (base limit : Word) (access gran : Byte)
    (hi : gdt.toNat + 8 * i + 8 ≤ 2 ^ 32)
    (hnum : gdt.toNat + 8 * num + 8 ≤ 2 ^ 32) :
    segmentAt (gdtSetEntry m gdt num base limit access gran) (entry gdt i) =
      if i = num then ⟨base, limit.extractLsb' 0 20, access, gran.extractLsb' 4 4⟩
        else segmentAt m (entry gdt i) := by
  by_cases h : i = num
  · rw [if_pos h, h, segmentAt_gdtSetEntry]
  · rw [if_neg h]
    refine segmentAt_congr fun k hk => keeps_entry (keeps_gdtSetEntry m base limit access gran hnum) hi ?_ hk
    intro x hx hx'
    rw [entryBytes, Set.mem_Ico] at hx hx'
    omega

theorem Layout.fits_all (T : Layout) : T.gdt.toNat + 48 ≤ 2 ^ 32 ∧ T.gp.toNat + 6 ≤ 2 ^ 32 ∧
    T.tss.toNat + 104 ≤ 2 ^ 32 ∧
    T.idt.toNat + 2048 ≤ 2 ^ 32 ∧ T.idtp.toNat + 6 ≤ 2 ^ 32 := by
  simpa [regions] using T.fits

/-- The bytes of one table. -/
abbrev range (a : Word) (n : ℕ) : Set ℕ := Set.Ico a.toNat (a.toNat + n)

theorem Layout.disjoint (T : Layout) {r t : Word × ℕ}
    (h : [r, t].Sublist (regions T.gdt T.gp T.tss T.idt T.idtp)) {x : ℕ}
    (hr : x ∈ range r.1 r.2) : x ∉ range t.1 t.2 := by
  have hapart := List.pairwise_pair.mp (T.apart.sublist h)
  rw [Set.mem_Ico] at hr ⊢
  omega

theorem entry_subset {n : ℕ} (hi : 8 * i + 8 ≤ n) : entryBytes gdt i ⊆ range gdt n := by
  intro x hx
  rw [entryBytes, Set.mem_Ico] at hx
  rw [Set.mem_Ico]
  omega

/-- The descriptors that `gdt_init` sets, on a memory. -/
def setEntries (m : Mem) (gdt : Word) : Mem :=
  gdtSetEntry (gdtSetEntry
    (gdtSetEntry (gdtSetEntry (gdtSetEntry m gdt 0 0 0 0 0) gdt 1 0 0xFFFFFFFF 0x9A 0xCF) gdt 2 0
    0xFFFFFFFF 0x92 0xCF) gdt 3 0 0xFFFFFFFF 0xFA 0xCF) gdt 4 0 0xFFFFFFFF 0xF2 0xCF

theorem keeps_setEntries (m : Mem) (h : gdt.toNat + 48 ≤ 2 ^ 32) :
    Keeps (range gdt 48) m (setEntries m gdt) := by
  have hset (m : Mem) {num : ℕ} (base limit : Word) (access gran : Byte) (hnum : num < 5) :
      Keeps (range gdt 48) m (gdtSetEntry m gdt num base limit access gran) :=
    (keeps_gdtSetEntry m base limit access gran (by omega)).mono (entry_subset (by omega))
  exact ((((hset m _ _ _ _ (by decide)).trans_same (hset _ _ _ _ _ (by decide))).trans_same
    (hset _ _ _ _ _ (by decide))).trans_same (hset _ _ _ _ _ (by decide))).trans_same
      (hset _ _ _ _ _ (by decide))

theorem segmentAt_setEntries (m : Mem) (tss : Word) (h : gdt.toNat + 48 ≤ 2 ^ 32) (h1 : 1 ≤ i) (h5 : i < 5) :
    segmentAt (setEntries m gdt) (entry gdt i) = descriptor tss i := by
  have hlimit : (0xFFFFFFFF : Word).extractLsb' 0 20 = 0xFFFFF := by decide
  have hgran : (0xCF : Byte).extractLsb' 4 4 = 0xC := by decide
  unfold setEntries
  interval_cases i
  all_goals
    simp (disch := omega) only [segmentAt_setEntry, if_true, Nat.reduceEqDiff, if_false, hlimit,
      hgran, descriptor]

theorem loads_data (tss : Word) : ((descriptor tss 2).present && (descriptor tss 2).data &&
    decide ((descriptor tss 2).dpl = 0)) = true := by
  simp only [descriptor, Segment.present, Segment.data, Segment.dpl]
  decide

theorem loads_code (tss : Word) : ((descriptor tss 1).present && (descriptor tss 1).code &&
    decide ((descriptor tss 1).dpl = 0)) = true := by
  simp only [descriptor, Segment.present, Segment.code, Segment.dpl]
  decide

/-- `gdt_init` loads the table, with its first entries. -/
theorem gdtInit_spec (T : Layout) (m : Mem) (cpu : Cpu) : ∃ m',
    gdtInit T m cpu = some (m', { cpu with
      gdtr := ⟨T.gdt, 47⟩, ds := 0x10, es := 0x10, fs := 0x10, gs := 0x10, ss := 0x10, cs := 0x08 }) ∧
    Keeps (range T.gp 6 ∪ range T.gdt 48) m m' ∧
    ∀ i, 1 ≤ i → i < 5 → segmentAt m' (entry T.gdt i) = descriptor T.tss i := by
  obtain ⟨hgdt, hgp, -⟩ := T.fits_all
  have hk := keeps_setEntries ((storeHalf m T.gp 47).store (byteAddr T.gp 2) T.gdt) hgdt
  have hentries {i : ℕ} (h1 : 1 ≤ i) (h5 : i < 5) :=
    segmentAt_setEntries ((storeHalf m T.gp 47).store (byteAddr T.gp 2) T.gdt) T.tss hgdt h1 h5
  set m' := setEntries ((storeHalf m T.gp 47).store (byteAddr T.gp 2) T.gdt) T.gdt with hm'
  have htable : tableAt m' T.gp = ⟨T.gdt, 47⟩ := by
    rw [← tableAt_stored m 47 T.gdt hgp]
    refine tableAt_congr fun k hk6 => hk _ fun hmem => ?_
    refine T.disjoint (r := (T.gdt, 48)) (t := (T.gp, 6))
      (.cons_cons _ (.cons_cons _ (List.nil_sublist _))) hmem ?_
    rw [toNat_byteAddr (by omega), Set.mem_Ico]
    dsimp only
    omega
  refine ⟨m', ?_, (keeps_storeTable m 47 T.gdt hgp).trans hk, fun i h1 h5 => hentries h1 h5⟩
  have hdata : loads m' ⟨T.gdt, 47⟩ 0x10 Segment.data = true := by
    rw [loads, segment?_eq m' T.gdt rfl (by decide) (by decide), hentries (by decide) (by decide)]
    exact loads_data T.tss
  have hcode : loads m' ⟨T.gdt, 47⟩ 0x08 Segment.code = true := by
    rw [loads, segment?_eq m' T.gdt rfl (by decide) (by decide), hentries (by decide) (by decide)]
    exact loads_code T.tss
  show (gdtFlush m' cpu T.gp).map _ = _
  rw [gdtFlush, htable, hdata, hcode]
  rfl

theorem task_available (tss : Word) :
    ((⟨tss, 104, 0x89, 4⟩ : Segment).present && decide ((⟨tss, 104, 0x89, 4⟩ : Segment).system =
      some 9)) = true := by
  simp only [Segment.present, Segment.system]
  decide

/-- `tss_init` adds the task segment, busy, and keeps the other entries. -/
theorem tssInit_spec (T : Layout) (m : Mem) (cpu : Cpu) (hgdtr : cpu.gdtr = ⟨T.gdt, 47⟩) : ∃ m',
    tssInit T m cpu = some (m', { cpu with tr := 0x28 }) ∧ Keeps (range T.gdt 48 ∪ range T.tss 104) m m' ∧
    (∀ i, 1 ≤ i → i < 5 → segmentAt m' (entry T.gdt i) = segmentAt m (entry T.gdt i)) ∧
    segmentAt m' (entry T.gdt 5) = descriptor T.tss 5 ∧ m'.load (byteAddr T.tss 8) = 0x10 := by
  obtain ⟨hgdt, -, htss, -⟩ := T.fits_all
  have h4 := toNat_byteAddr (a := T.tss) (i := 4) (by omega)
  have h8 := toNat_byteAddr (a := T.tss) (i := 8) (by omega)
  have h102 := toNat_byteAddr (a := T.tss) (i := 102) (by omega)
  have hsub {x n : ℕ} (hx : x + n ≤ 104) :
      Set.Ico (T.tss.toNat + x) (T.tss.toNat + x + n) ⊆ range T.tss 104 :=
    Set.Ico_subset_Ico (by omega) (by omega)
  set m₁ := gdtSetEntry m T.gdt 5 T.tss 104 0x89 0x40 with hm₁
  set m₂ := m₁.store (byteAddr T.tss 8) 0x10 with hm₂
  set m₃ := storeHalf (m₂.store (byteAddr T.tss 4) 0) (byteAddr T.tss 102) 104 with hm₃
  -- the fields of the task segment
  have hk₂ : Keeps (range T.tss 104) m₁ m₂ :=
    keeps_storeWord (Keeps.refl _ m₁) _ (by omega) (by rw [h8]; exact hsub (by decide))
  have hk₃ : Keeps (range T.tss 104) m₁ m₃ :=
    keeps_storeHalf (keeps_storeWord hk₂ _ (by omega) (by rw [h4]; exact hsub (by decide))) _ (by omega)
      (by rw [h102]; exact hsub (by decide))
  have hss0 : m₃.load (byteAddr T.tss 8) = 0x10 := by
    have hk : Keeps
        (Set.Ico (T.tss.toNat + 4) (T.tss.toNat + 8) ∪ Set.Ico (T.tss.toNat + 102)
        (T.tss.toNat + 104)) m₂ m₃ :=
      keeps_storeHalf
        (keeps_storeWord (Keeps.refl _ m₂) _ (by omega) (by rw [h4]; exact Set.subset_union_left))
        _ (by omega)
        (by rw [h102]; exact Set.subset_union_right)
    rw [← Mem.load_store_self m₁ (byteAddr T.tss 8) 0x10]
    refine load_congr fun k hk4 => hk _ ?_
    rw [byteAddr_byteAddr, toNat_byteAddr (by omega), Set.mem_union, Set.mem_Ico, Set.mem_Ico]
    omega
  have hentry (i : ℕ) (hi : i < 6) : segmentAt m₃ (entry T.gdt i) =
      if i = 5 then ⟨T.tss, 104, 0x89, 4⟩ else segmentAt m (entry T.gdt i) := by
    have hlimit : (104 : Word).extractLsb' 0 20 = 104 := by decide
    have hgran : (0x40 : Byte).extractLsb' 4 4 = 4 := by decide
    rw [← hlimit, ← hgran, ← segmentAt_setEntry m T.tss 104 0x89 0x40 (by omega) (by omega)]
    refine segmentAt_congr fun k hk =>
      keeps_entry hk₃ (by omega : T.gdt.toNat + 8 * i + 8 ≤ 2 ^ 32) (fun x hx => ?_) hk
    exact T.disjoint (r := (T.gdt, 48)) (t := (T.tss, 104))
      (.cons_cons _ (.cons _ (.cons_cons _ (List.nil_sublist _))))
      (entry_subset (by omega) hx)
  have hflush : tssFlush m₃ cpu =
      some (m₃.storeByte (byteAddr (entry T.gdt 5) 5) (0x89 ||| 2), { cpu with tr := 0x28 }) := by
    have hfive : segment? m₃ ⟨T.gdt, 47⟩ 0x28 = some ⟨T.tss, 104, 0x89, 4⟩ := by
      rw [segment?_eq m₃ T.gdt rfl (by decide) (by decide), hentry _ (by decide)]
      rfl
    rw [tssFlush, hgdtr, hfive]
    exact if_pos (task_available T.tss)
  have hfive : T.gdt.toNat + 8 * 5 + 8 ≤ 2 ^ 32 := by omega
  have hk := entryByte_keeps (Keeps.refl (entryBytes T.gdt 5) m₃) hfive (j := 5) (by decide) (0x89 ||| 2)
  refine ⟨_, hflush, ?_, fun i h1 h5 => ?_, ?_, ?_⟩
  · have hset : Keeps (entryBytes T.gdt 5) m m₁ := keeps_gdtSetEntry m T.tss 104 0x89 0x40 hfive
    have hk₁ := hset.mono (entry_subset (n := 48) (by decide))
    refine ((hk₁.trans hk₃).trans (hk.mono (entry_subset (n := 48) (by decide)))).mono ?_
    exact Set.union_subset subset_rfl Set.subset_union_left
  · have hother := hentry i (by omega)
    rw [if_neg (by omega)] at hother
    rw [← hother]
    refine segmentAt_congr fun k hk8 => keeps_entry hk (by omega) (fun x hx hx' => ?_) hk8
    rw [entryBytes, Set.mem_Ico] at hx hx'
    omega
  · rw [segmentAt_storeAccess, hentry 5 (by decide)]
    rfl
  · rw [← hss0]
    refine load_congr fun k hk4 => hk _ fun hmem => ?_
    refine T.disjoint (r := (T.gdt, 48)) (t := (T.tss, 104))
      (.cons_cons _ (.cons _ (.cons_cons _ (List.nil_sublist _))))
      (entry_subset (by dsimp only; omega) hmem) ?_
    rw [byteAddr_byteAddr, toNat_byteAddr (by omega), Set.mem_Ico]
    dsimp only
    omega

/-- `idt_init` loads the table, with the gates of the stubs. -/
theorem idtInit_spec (T : Layout) (k : Text) (m : Mem) (cpu : Cpu) : ∃ m',
    idtInit T k m cpu = (m', { cpu with idtr := ⟨T.idt, 2047⟩ }) ∧
      Keeps (range T.idtp 6 ∪ range T.idt 2048) m m' ∧
    ∀ v, v < 256 → gateAt m' (entry T.idt v) = if v < 48 then ⟨k.gate v, 0x08, 0x8E⟩ else ⟨0, 0, 0⟩ := by
  obtain ⟨-, -, -, hidt, hidtp⟩ := T.fits_all
  set m₀ := (storeHalf m T.idtp 2047).store (byteAddr T.idtp 2) T.idt with hm₀
  set m₁ := (List.range 256).foldl (fun m i => storeGate m T.idt i 0 0 0 0 0) m₀ with hm₁
  set m₂ := (List.range 32).foldl (fun m i => idtSetGate m T.idt i (k.isr i)) m₁ with hm₂
  set m₃ := (List.range 16).foldl (fun m i => idtSetGate m T.idt (32 + i) (k.irq i)) m₂ with hm₃
  have hclear := (fills_clear T.idt).foldl 0 256 m₀ (by omega)
  have hisr := (fills_idtSetGate T.idt k.isr).foldl 0 32 m₁ (by omega)
  have hirq := (fills_idtSetGate T.idt fun i => k.irq (i - 32)).foldl 32 16 m₂ (by omega)
  simp only [Nat.zero_add, Nat.add_sub_cancel_left] at hclear hisr hirq
  rw [← hm₁] at hclear
  rw [← hm₂] at hisr
  rw [← hm₃] at hirq
  have hk : Keeps (range T.idt 2048) m₀ m₃ :=
    ((hclear.1.mono (Set.Ico_subset_Ico (by omega) (by omega))).trans_same
      (hisr.1.mono (Set.Ico_subset_Ico (by omega) (by omega)))).trans_same
      (hirq.1.mono (Set.Ico_subset_Ico (by omega) (by omega)))
  have htable : tableAt m₃ T.idtp = ⟨T.idt, 2047⟩ := by
    rw [← tableAt_stored m 2047 T.idt hidtp]
    refine tableAt_congr fun k hk6 => hk _ fun hmem => ?_
    refine T.disjoint (r := (T.idt, 2048)) (t := (T.idtp, 6))
      (.cons _ (.cons _ (.cons _ (.cons_cons _ (.cons_cons _ (List.nil_sublist _)))))) hmem ?_
    rw [toNat_byteAddr (by omega), Set.mem_Ico]
    dsimp only
    omega
  refine ⟨m₃, ?_, (keeps_storeTable m 2047 T.idt hidtp).trans hk, fun v hv => ?_⟩
  · show (m₃, { cpu with idtr := tableAt m₃ T.idtp }) = _
    rw [htable]
  · by_cases h32 : v < 32
    · rw [gateAt_outside hirq.1 (by omega) (by omega), hisr.2 v (Nat.zero_le v) h32,
        if_pos (by omega), Text.gate, if_pos h32]
    · by_cases h48 : v < 48
      · rw [hirq.2 v (by omega) h48, if_pos h48, Text.gate, if_neg h32]
      · rw [gateAt_outside hirq.1 (by omega) (by omega), gateAt_outside hisr.1 (by omega) (by omega),
          hclear.2 v (Nat.zero_le v) hv, if_neg h48]

/-! ### Interrupts -/

/-- With the tables loaded the processor delivers an interrupt as the stubs expect, and has no gate
for other vectors. -/
theorem Loaded.interrupt {x : Interrupt} (h : Loaded T k cpu x.state.mem) :
    cpu.interrupt x = if x.vector < 48 then some (x.deliver (k.gate x.vector)) else none := by
  have hload : loads x.state.mem cpu.gdtr 0x08 Segment.code = true := by
    rw [loads, h.gdtr, segment?_eq x.state.mem T.gdt rfl (by decide) (by decide),
      h.entries _ (by decide) (by decide)]
    exact loads_code T.tss
  have hgate : (⟨k.gate x.vector, 0x08, 0x8E⟩ : Gate).interrupt = true := by
    show decide ((0x8E : Byte).extractLsb' 0 5 = 0x0E#5) = true
    decide
  rw [Cpu.interrupt, h.established.gates]
  by_cases hv : x.vector < 48
  · rw [if_pos hv, if_pos hv]
    dsimp only
    rw [hgate, hload]
    rfl
  · rw [if_neg hv, if_neg hv]

/-- **The boot loads the descriptor tables**: without a fault, from any memory. From then on, as
long as the bytes of the tables are not changed, every selector and every vector names what the
kernel means by it, and every interrupt with a stub is delivered to it through an interrupt gate, as
the stubs expect. Nothing else in memory changes. -/
theorem boot_tables (T : Layout) (k : Text) (m : Mem) (cpu : Cpu) : ∃ m' cpu',
    bootTables T k m cpu = some (m', cpu') ∧ Keeps T.bytes m m' ∧
    ∀ m'', (∀ x : Word, x.toNat ∈ T.bytes → m'' x = m' x) → Established T k cpu' m'' ∧
      ∀ x : Interrupt, x.state.mem = m'' →
        cpu'.interrupt x = if x.vector < 48 then some (x.deliver (k.gate x.vector)) else none := by
  obtain ⟨m₁, h₁, hk₁, he₁⟩ := gdtInit_spec T m cpu
  set cpu₁ : Cpu := { cpu with
    gdtr := ⟨T.gdt, 47⟩, ds := 0x10, es := 0x10, fs := 0x10, gs := 0x10, ss := 0x10, cs := 0x08 }
  obtain ⟨m₂, h₂, hk₂, he₂, htask, hss0⟩ := tssInit_spec T m₁ cpu₁ rfl
  obtain ⟨m₃, h₃, hk₃, hgates⟩ := idtInit_spec T k m₂ { cpu₁ with tr := 0x28 }
  obtain ⟨hgdt, -, htss, -⟩ := T.fits_all
  have hsub {r : Word × ℕ} (hr : r ∈ regions T.gdt T.gp T.tss T.idt T.idtp) :
      range r.1 r.2 ⊆ T.bytes := fun x hx => ⟨r, hr, hx⟩
  have hsgdt := hsub (r := (T.gdt, 48)) (by simp [regions])
  have hsgp := hsub (r := (T.gp, 6)) (by simp [regions])
  have hstss := hsub (r := (T.tss, 104)) (by simp [regions])
  have hsidt := hsub (r := (T.idt, 2048)) (by simp [regions])
  have hsidtp := hsub (r := (T.idtp, 6)) (by simp [regions])
  -- the interrupt table is apart from the other two
  have hgdt₃ {x : ℕ} (hx : x ∈ range T.gdt 48) : x ∉ range T.idtp 6 ∪ range T.idt 2048 := by
    rintro (h | h)
    · exact T.disjoint (r := (T.gdt, 48)) (t := (T.idtp, 6))
        (.cons_cons _ (.cons _ (.cons _ (.cons _ (.cons_cons _ (List.nil_sublist _)))))) hx h
    · exact T.disjoint (r := (T.gdt, 48)) (t := (T.idt, 2048))
        (.cons_cons _ (.cons _ (.cons _ (.cons_cons _ (List.nil_sublist _))))) hx h
  have htss₃ {x : ℕ} (hx : x ∈ range T.tss 104) : x ∉ range T.idtp 6 ∪ range T.idt 2048 := by
    rintro (h | h)
    · exact T.disjoint (r := (T.tss, 104)) (t := (T.idtp, 6))
        (.cons _ (.cons _ (.cons_cons _ (.cons _ (.cons_cons _ (List.nil_sublist _)))))) hx h
    · exact T.disjoint (r := (T.tss, 104)) (t := (T.idt, 2048))
        (.cons _ (.cons _ (.cons_cons _ (.cons_cons _ (List.nil_sublist _))))) hx h
  have hentry {i : ℕ} (hi : i < 6) : segmentAt m₃ (entry T.gdt i) = segmentAt m₂ (entry T.gdt i) :=
    segmentAt_congr fun j hj => keeps_entry hk₃ (by omega) (fun x hx => hgdt₃ (entry_subset (by omega) hx)) hj
  have hloaded : Loaded T k { cpu₁ with tr := 0x28, idtr := ⟨T.idt, 2047⟩ } m₃ := by
    refine ⟨rfl, rfl, fun i h1 h6 => ?_, hgates, ?_, rfl, rfl, by simp [cpu₁]⟩
    · rw [hentry h6]
      by_cases h5 : i < 5
      · rw [he₂ i h1 h5, he₁ i h1 h5]
      · rw [show i = 5 by omega, htask]
    · rw [← hss0]
      refine load_congr fun j hj => hk₃ _ (htss₃ ?_)
      rw [byteAddr_byteAddr, toNat_byteAddr (by omega), Set.mem_Ico]
      omega
  refine ⟨m₃, _, ?_, ?_, fun m'' hm => ⟨(hloaded.congr hm).established, fun x hx => ?_⟩⟩
  · rw [bootTables, h₁, Option.bind_some]
    dsimp only
    rw [h₂, Option.map_some, h₃]
  · exact (((hk₁.mono (Set.union_subset hsgp hsgdt)).trans_same
      (hk₂.mono (Set.union_subset hsgdt hstss))).trans_same
      (hk₃.mono (Set.union_subset hsidtp hsidt)))
  · exact Loaded.interrupt (by rw [hx]; exact hloaded.congr hm)

end SpatulaOS.Boot
