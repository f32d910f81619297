import SpatulaOS.Lib.Bytes

/-!
# Descriptor tables

The tables of a 32-bit x86 processor in memory: the eight bytes of a segment descriptor and of a
gate as the processor reads them, and what a selector and a vector name, by the registers `gdtr` and
`idtr`. An entry is a function of its eight bytes (`segmentAt_congr`, `gateAt_congr`), so a loop
that fills entries changes those entries only (`Fills.foldl`).
-/

namespace Descriptors

open ByteMemory

/-! ### Half words -/

/-- The half word at `a`. -/
def loadHalf (m : Mem) (a : Word) : BitVec 16 := m (byteAddr a 1) ++ m (byteAddr a 0)

/-- The memory with the half word `v` at `a`. -/
def storeHalf (m : Mem) (a : Word) (v : BitVec 16) : Mem :=
  (m.storeByte (byteAddr a 0) (v.extractLsb' 0 8)).storeByte (byteAddr a 1) (v.extractLsb' 8 8)

/-! ### Descriptors -/

/-- A segment descriptor. -/
structure Segment where
  base : Word
  limit : BitVec 20
  access : Byte
  flags : BitVec 4

/-- The segment descriptor at `a`. -/
def segmentAt (m : Mem) (a : Word) : Segment where
  base := m (byteAddr a 7) ++ m (byteAddr a 4) ++ m (byteAddr a 3) ++ m (byteAddr a 2)
  limit := (m (byteAddr a 6)).extractLsb' 0 4 ++ m (byteAddr a 1) ++ m (byteAddr a 0)
  access := m (byteAddr a 5)
  flags := (m (byteAddr a 6)).extractLsb' 4 4

namespace Segment

/-- The offset of the last byte; a set granularity bit counts the limit in pages. -/
def last (d : Segment) : ℕ := if d.flags.getLsbD 3 then d.limit.toNat * 4096 + 4095 else d.limit.toNat

def present (d : Segment) : Bool := d.access.getLsbD 7

/-- The privilege level. -/
def dpl (d : Segment) : BitVec 2 := d.access.extractLsb' 5 2

/-- A code segment. -/
def code (d : Segment) : Bool := d.access.getLsbD 4 && d.access.getLsbD 3

/-- A data segment that can be written. -/
def data (d : Segment) : Bool := d.access.getLsbD 4 && !d.access.getLsbD 3 && d.access.getLsbD 1

/-- The type of a system segment, if it is one. -/
def system (d : Segment) : Option (BitVec 4) :=
  if d.access.getLsbD 4 then none else some (d.access.extractLsb' 0 4)

end Segment

/-- A gate of the interrupt descriptor table. -/
structure Gate where
  offset : Word
  selector : BitVec 16
  attributes : Byte

/-- The gate at `a`. -/
def gateAt (m : Mem) (a : Word) : Gate where
  offset := m (byteAddr a 7) ++ m (byteAddr a 6) ++ m (byteAddr a 1) ++ m (byteAddr a 0)
  selector := m (byteAddr a 3) ++ m (byteAddr a 2)
  attributes := m (byteAddr a 5)

def Gate.present (g : Gate) : Bool := g.attributes.getLsbD 7

/-- A 32-bit interrupt gate: interrupts are off behind it. -/
def Gate.interrupt (g : Gate) : Bool := g.attributes.extractLsb' 0 5 = 0x0E#5

/-! ### Tables -/

/-- What `gdtr` and `idtr` hold. -/
structure Table where
  base : Word
  limit : BitVec 16

/-- The operand of `lgdt` and `lidt` at `a`. -/
def tableAt (m : Mem) (a : Word) : Table := ⟨m.load (byteAddr a 2), loadHalf m a⟩

/-- The address of an entry. -/
abbrev entry (base : Word) (i : ℕ) : Word := byteAddr base (8 * i)

/-- The index of a selector. -/
abbrev index (sel : BitVec 16) : ℕ := sel.toNat / 8

/-- The segment that a selector names. The local table is not used, and the first entry names none. -/
def segment? (m : Mem) (gdtr : Table) (sel : BitVec 16) : Option Segment :=
  if sel.getLsbD 2 ∨ index sel = 0 ∨ gdtr.limit.toNat < 8 * index sel + 7 then none
  else some (segmentAt m (entry gdtr.base (index sel)))

/-- The gate of a vector. -/
def gate? (m : Mem) (idtr : Table) (v : ℕ) : Option Gate :=
  if idtr.limit.toNat < 8 * v + 7 then none
  else if (gateAt m (entry idtr.base v)).present then some (gateAt m (entry idtr.base v)) else none

/-! ### Bytes -/

variable {m m' : Mem} {a base : Word} {i j n lo : ℕ} {α : Type*}

/-- A byte of an entry after a byte was stored in it. -/
theorem storeByte_at (m : Mem) (a : Word) (v : Byte) (hi : i < 2 ^ 32) (hj : j < 2 ^ 32) :
    m.storeByte (byteAddr a i) v (byteAddr a j) = if j = i then v else m (byteAddr a j) := by
  by_cases h : j = i
  · rw [if_pos h, h]
    exact if_pos rfl
  · rw [if_neg h]
    exact if_neg fun he => h (byteAddr_inj hj hi he)

theorem field_eq (v : Word) (k : ℕ) {w : ℕ} (hw : w ≤ 32) :
    ((v >>> k) &&& BitVec.ofNat 32 (2 ^ w - 1)).setWidth w = v.extractLsb' k w := by
  ext i hi
  have hmask : (BitVec.ofNat 32 (2 ^ w - 1)).getLsbD i = true := by
    rw [BitVec.getLsbD_ofNat, Nat.testBit_two_pow_sub_one, decide_eq_true hi,
      decide_eq_true (by omega), Bool.true_and]
  simp only [BitVec.getElem_setWidth, BitVec.getLsbD_and, hmask, Bool.and_true, BitVec.getLsbD_ushiftRight,
    BitVec.getElem_extractLsb']

theorem append_bytes (v : Word) :
    v.extractLsb' 24 8 ++ v.extractLsb' 16 8 ++ v.extractLsb' 8 8 ++ v.extractLsb' 0 8 = v := by
  have h₁ : v.extractLsb' 24 8 ++ v.extractLsb' 16 8 = v.extractLsb' 16 16 :=
    BitVec.extractLsb'_append_extractLsb'_eq_extractLsb' rfl
  have h₂ : v.extractLsb' 16 16 ++ v.extractLsb' 8 8 = v.extractLsb' 8 24 :=
    BitVec.extractLsb'_append_extractLsb'_eq_extractLsb' rfl
  have h₃ : v.extractLsb' 8 24 ++ v.extractLsb' 0 8 = v.extractLsb' 0 32 :=
    BitVec.extractLsb'_append_extractLsb'_eq_extractLsb' rfl
  rw [h₁, h₂, h₃, BitVec.extractLsb'_eq_self]

theorem segmentAt_congr (h : ∀ k, k < 8 → m' (byteAddr a k) = m (byteAddr a k)) :
    segmentAt m' a = segmentAt m a := by
  simp only [segmentAt, h 0 (by decide), h 1 (by decide), h 2 (by decide), h 3 (by decide), h 4 (by decide),
    h 5 (by decide), h 6 (by decide), h 7 (by decide)]

theorem segmentAt_storeAccess (m : Mem) (a : Word) (v : Byte) :
    segmentAt (m.storeByte (byteAddr a 5) v) a = { segmentAt m a with access := v } := by
  simp (disch := decide) only [segmentAt, storeByte_at, Nat.reduceEqDiff, if_true, if_false]

theorem load_congr (h : ∀ k, k < 4 → m' (byteAddr a k) = m (byteAddr a k)) : m'.load a = m.load a := by
  have h0 := h 0 (by decide)
  rw [byteAddr, BitVec.add_zero] at h0
  have h1 : m' (a + 1) = m (a + 1) := h 1 (by decide)
  have h2 : m' (a + 2) = m (a + 2) := h 2 (by decide)
  have h3 : m' (a + 3) = m (a + 3) := h 3 (by decide)
  rw [Mem.load, Mem.load, h0, h1, h2, h3]

theorem gateAt_congr (h : ∀ k, k < 8 → m' (byteAddr a k) = m (byteAddr a k)) : gateAt m' a = gateAt m a := by
  simp only [gateAt, h 0 (by decide), h 1 (by decide), h 2 (by decide), h 3 (by decide), h 5 (by decide),
    h 6 (by decide), h 7 (by decide)]

theorem keeps_storeByte_in {R : Set ℕ} (h : Keeps R m m') (v : Byte) (ha : a.toNat ∈ R) :
    Keeps R m (m'.storeByte a v) :=
  h.trans_same ((keeps_storeByte m' a v).mono (Set.singleton_subset_iff.mpr ha))

theorem keeps_storeHalf {R : Set ℕ} (h : Keeps R m m') (v : BitVec 16) (hfit : a.toNat + 2 ≤ 2 ^ 32)
    (ha : Set.Ico a.toNat (a.toNat + 2) ⊆ R) : Keeps R m (storeHalf m' a v) := by
  refine keeps_storeByte_in (keeps_storeByte_in h _ (ha ?_)) _ (ha ?_)
  all_goals
    rw [toNat_byteAddr (by omega), Set.mem_Ico]
    omega

theorem keeps_storeWord {R : Set ℕ} (h : Keeps R m m') (v : Word) (hfit : a.toNat + 4 ≤ 2 ^ 32)
    (ha : Set.Ico a.toNat (a.toNat + 4) ⊆ R) : Keeps R m (m'.store a v) := by
  have hstore := h.store v hfit ha
  rwa [BitVec.ofNat_toNat, BitVec.setWidth_eq] at hstore

theorem loadHalf_storeHalf (m : Mem) (a : Word) (v : BitVec 16) : loadHalf (storeHalf m a v) a = v := by
  have h : v.extractLsb' 8 8 ++ v.extractLsb' 0 8 = v.extractLsb' 0 16 :=
    BitVec.extractLsb'_append_extractLsb'_eq_extractLsb' rfl
  simp (disch := decide) only [loadHalf, storeHalf, storeByte_at, if_true, Nat.zero_ne_one, if_false, h,
    BitVec.extractLsb'_eq_self]

/-- The operand of `lgdt` or `lidt` after it was stored. -/
theorem tableAt_stored (m : Mem) (limit : BitVec 16) (base : Word) (h : a.toNat + 6 ≤ 2 ^ 32) :
    tableAt ((storeHalf m a limit).store (byteAddr a 2) base) a = ⟨base, limit⟩ := by
  have hapart {k : ℕ} (hk : k < 2) : (storeHalf m a limit).store (byteAddr a 2) base (byteAddr a k) =
      storeHalf m a limit (byteAddr a k) := by
    refine if_neg fun hlt => ?_
    have hk' := toNat_byteAddr (a := a) (i := k) (by omega)
    have h2 := toNat_byteAddr (a := a) (i := 2) (by omega)
    rw [BitVec.lt_def, BitVec.toNat_sub, hk', h2] at hlt
    have h4 : (4 : Word).toNat = 4 := rfl
    omega
  rw [tableAt, Mem.load_store_self, loadHalf, hapart (by decide), hapart (by decide), ← loadHalf,
    loadHalf_storeHalf]

theorem keeps_storeTable (m : Mem) (limit : BitVec 16) (base : Word) (h : a.toNat + 6 ≤ 2 ^ 32) :
    Keeps (Set.Ico a.toNat (a.toNat + 6)) m ((storeHalf m a limit).store (byteAddr a 2) base) := by
  have h2 := toNat_byteAddr (a := a) (i := 2) (by omega)
  refine keeps_storeWord (keeps_storeHalf (Keeps.refl _ m) limit (by omega) ?_) base (by omega) ?_
  all_goals
    intro x hx
    rw [Set.mem_Ico] at hx ⊢
    omega

theorem tableAt_congr (h : ∀ k, k < 6 → m' (byteAddr a k) = m (byteAddr a k)) :
    tableAt m' a = tableAt m a := by
  have hload : m'.load (byteAddr a 2) = m.load (byteAddr a 2) := load_congr fun k hk => by
    rw [byteAddr_byteAddr]
    exact h (2 + k) (by omega)
  rw [tableAt, tableAt, hload, loadHalf, loadHalf, h 0 (by decide), h 1 (by decide)]

/-- The bytes of an entry. -/
def entryBytes (base : Word) (i : ℕ) : Set ℕ := Set.Ico (base.toNat + 8 * i) (base.toNat + 8 * i + 8)

theorem toNat_entryByte (h : base.toNat + 8 * i + 8 ≤ 2 ^ 32) {k : ℕ} (hk : k < 8) :
    (byteAddr (entry base i) k).toNat = base.toNat + 8 * i + k := by
  rw [byteAddr_byteAddr, toNat_byteAddr (by omega), Nat.add_assoc]

theorem entryByte_mem (h : base.toNat + 8 * i + 8 ≤ 2 ^ 32) (hj : j < 8) :
    (byteAddr (entry base i) j).toNat ∈ entryBytes base i := by
  rw [toNat_entryByte h hj, entryBytes, Set.mem_Ico]
  omega

/-- A byte and a half word that are stored in an entry. -/
theorem entryByte_keeps (hk : Keeps (entryBytes base i) m m') (h : base.toNat + 8 * i + 8 ≤ 2 ^ 32)
    (hj : j < 8) (v : Byte) :
    Keeps (entryBytes base i) m (m'.storeByte (byteAddr (entry base i) j) v) :=
  keeps_storeByte_in hk v (entryByte_mem h hj)

theorem entryHalf_keeps (hk : Keeps (entryBytes base i) m m') (h : base.toNat + 8 * i + 8 ≤ 2 ^ 32)
    (hj : j + 1 < 8)
    (v : BitVec 16) : Keeps (entryBytes base i) m (storeHalf m' (byteAddr (entry base i) j) v) := by
  have hbyte := toNat_entryByte h (Nat.lt_of_succ_lt hj)
  refine keeps_storeHalf hk v (by omega) fun x hx => ?_
  rw [Set.mem_Ico] at hx
  rw [entryBytes, Set.mem_Ico]
  omega

theorem keeps_entry {R : Set ℕ} (hk : Keeps R m m') (h : base.toNat + 8 * i + 8 ≤ 2 ^ 32)
    (hR : ∀ x ∈ entryBytes base i, x ∉ R) {k : ℕ} (hk8 : k < 8) :
    m' (byteAddr (entry base i) k) = m (byteAddr (entry base i) k) := by
  refine hk _ (hR _ ?_)
  rw [toNat_entryByte h hk8, entryBytes, Set.mem_Ico]
  omega

theorem gateAt_outside {hi : ℕ} (hk : Keeps (Set.Ico (base.toNat + 8 * lo) (base.toNat + 8 * hi)) m m')
    (h : base.toNat + 8 * i + 8 ≤ 2 ^ 32) (hout : i < lo ∨ hi ≤ i) :
      gateAt m' (entry base i) = gateAt m (entry base i) := by
  refine gateAt_congr fun k hk8 => keeps_entry hk h (fun x hx hx' => ?_) hk8
  rw [entryBytes, Set.mem_Ico] at hx
  rw [Set.mem_Ico] at hx'
  omega

/-- `write i` makes the gate `i` what `g i` is, and changes nothing else. -/
structure Fills (base : Word) (write : Mem → ℕ → Mem) (g : ℕ → Gate) : Prop where
  keeps : ∀ m i, base.toNat + 8 * i + 8 ≤ 2 ^ 32 → Keeps (entryBytes base i) m (write m i)
  gate : ∀ m i, base.toNat + 8 * i + 8 ≤ 2 ^ 32 → gateAt (write m i) (entry base i) = g i

/-- A loop that fills `n` gates from `lo` on. -/
theorem Fills.foldl {write : Mem → ℕ → Mem} {g : ℕ → Gate} (h : Fills base write g) (lo n : ℕ) (m : Mem)
    (hfit : base.toNat + 8 * (lo + n) ≤ 2 ^ 32) :
    Keeps (Set.Ico (base.toNat + 8 * lo) (base.toNat + 8 * (lo + n))) m
        ((List.range n).foldl (fun m i => write m (lo + i)) m) ∧
      ∀ j, lo ≤ j → j < lo + n →
        gateAt ((List.range n).foldl (fun m i => write m (lo + i)) m) (entry base j) = g j := by
  induction n with
  | zero => exact ⟨Keeps.refl _ _, fun j h1 h2 => absurd h2 (by omega)⟩
  | succ n ih =>
    obtain ⟨hk, hg⟩ := ih (by omega)
    rw [List.range_succ, List.foldl_append, List.foldl_cons, List.foldl_nil]
    have hnext := h.keeps ((List.range n).foldl (fun m i => write m (lo + i)) m) (lo + n) (by omega)
    refine ⟨(hk.trans hnext).mono ?_, fun j h1 h2 => ?_⟩
    · rintro x (hx | hx)
      · rw [Set.mem_Ico] at hx ⊢
        omega
      · rw [entryBytes, Set.mem_Ico] at hx
        rw [Set.mem_Ico]
        omega
    · by_cases hj : j = lo + n
      · rw [hj]
        exact h.gate _ _ (by omega)
      · rw [← hg j h1 (by omega)]
        have hnext' : Keeps (Set.Ico (base.toNat + 8 * (lo + n)) (base.toNat + 8 * (lo + n + 1))) _ _ := hnext
        exact gateAt_outside hnext' (by omega) (by omega)

end Descriptors
