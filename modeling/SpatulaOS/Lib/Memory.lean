import Mathlib.Data.Fintype.EquivFin
import Mathlib.Data.Set.Lattice
import Mathlib.Order.CompletePartialOrder
import Mathlib.Order.Interval.Set.Basic
import Mathlib.Tactic.IntervalCases

/-!
# A 32-bit byte-addressed memory

A memory gives each 32-bit address a byte; words are little-endian and an access
at the top of the address space wraps round. A store is described by what it
leaves alone: `Keeps R m m'` says that `m'` differs from `m` only at addresses
whose number lies in `R`. Regions are sets of natural numbers, so that the side
conditions of the lemmas are linear arithmetic without wrap-around.
-/

namespace ByteMemory

/-- A machine word, also used as an address. -/
abbrev Word := BitVec 32

/-- A byte. -/
abbrev Byte := BitVec 8

instance instFiniteBitVec (w : ℕ) : Finite (BitVec w) :=
  Finite.of_injective BitVec.toFin fun _ _ => BitVec.eq_of_toFin_eq

instance instLawfulBEqWord : LawfulBEq Word := inferInstance

/-- The contents of the whole address space. -/
abbrev Mem := Word → Byte

variable {m m' m'' : Mem} {R S : Set ℕ}

/-- The word at `a`. -/
def Mem.load (m : Mem) (a : Word) : Word := m (a + 3) ++ m (a + 2) ++ m (a + 1) ++ m a

/-- The memory with the word `v` at `a`. -/
def Mem.store (m : Mem) (a v : Word) : Mem := fun x =>
  if x - a < 4 then v.extractLsb' (8 * (x - a).toNat) 8 else m x

/-- The memory with the byte `v` at `a`. -/
def Mem.storeByte (m : Mem) (a : Word) (v : Byte) : Mem := fun x => if x = a then v else m x

/-! ### One word -/

/-- Clearing the low bits of a word rounds it down. -/
theorem toNat_and_not_low (x : Word) (k : ℕ) :
    (x &&& ~~~BitVec.ofNat 32 (2 ^ k - 1)).toNat = x.toNat / 2 ^ k * 2 ^ k := by
  have h : x &&& ~~~BitVec.ofNat 32 (2 ^ k - 1) = (x >>> k) <<< k := by
    refine BitVec.eq_of_getLsbD_eq fun i hi => ?_
    have hlow : (BitVec.ofNat 32 (2 ^ k - 1)).getLsbD i = decide (i < k) := by
      rw [BitVec.getLsbD_ofNat, Nat.testBit_two_pow_sub_one, decide_eq_true hi, Bool.true_and]
    simp only [BitVec.getLsbD_and, BitVec.getLsbD_not, hlow, BitVec.getLsbD_shiftLeft,
      BitVec.getLsbD_ushiftRight,
      hi, decide_true, Bool.true_and]
    by_cases hik : i < k
    · simp [hik]
    · simp [hik, show k + (i - k) = i by omega]
  have hlt : x.toNat / 2 ^ k * 2 ^ k < 2 ^ 32 := (Nat.div_mul_le_self _ _).trans_lt x.isLt
  rw [h, BitVec.toNat_shiftLeft, BitVec.toNat_ushiftRight, Nat.shiftRight_eq_div_pow, Nat.shiftLeft_eq,
    Nat.mod_eq_of_lt hlt]

@[simp] theorem Mem.load_store_self (m : Mem) (a v : Word) : (m.store a v).load a = v := by
  have h (k : Word) : a + k - a = k := by bv_omega
  simp only [load, store, h, BitVec.sub_self]
  rw [if_pos (by decide), if_pos (by decide), if_pos (by decide), if_pos (by decide)]
  rw [show (8 * (3 : Word).toNat) = 24 from rfl, show (8 * (2 : Word).toNat) = 16 from rfl,
    show (8 * (1 : Word).toNat) = 8 from rfl, show (8 * (0#32).toNat) = 0 from rfl]
  have h₁ : v.extractLsb' 24 8 ++ v.extractLsb' 16 8 = v.extractLsb' 16 16 :=
    BitVec.extractLsb'_append_extractLsb'_eq_extractLsb' rfl
  have h₂ : v.extractLsb' 16 16 ++ v.extractLsb' 8 8 = v.extractLsb' 8 24 :=
    BitVec.extractLsb'_append_extractLsb'_eq_extractLsb' rfl
  have h₃ : v.extractLsb' 8 24 ++ v.extractLsb' 0 8 = v.extractLsb' 0 32 :=
    BitVec.extractLsb'_append_extractLsb'_eq_extractLsb' rfl
  rw [h₁, h₂, h₃, BitVec.extractLsb'_eq_self]

theorem Mem.store_apply_add (m : Mem) (a v : Word) {k : ℕ} (hk : k < 4) :
    m.store a v (a + BitVec.ofNat 32 k) = v.extractLsb' (8 * k) 8 := by
  have h : a + BitVec.ofNat 32 k - a = BitVec.ofNat 32 k := by bv_omega
  have hk' : (BitVec.ofNat 32 k).toNat = k := by rw [BitVec.toNat_ofNat]; omega
  rw [store, h, if_pos (by rw [BitVec.lt_def, hk']; exact hk), hk']

/-- The lowest byte of a word is the first one in memory. -/
theorem Mem.load_lowByte (m : Mem) (a : Word) : (m.load a).extractLsb' 0 8 = m a := by
  rw [load, BitVec.extractLsb'_append_eq_of_add_le le_rfl, BitVec.extractLsb'_eq_self]

theorem Mem.store_load_self (m : Mem) (a : Word) : m.store a (m.load a) = m := by
  funext x
  by_cases hx : x - a < 4
  · have hlt : (x - a).toNat < 4 := hx
    obtain ⟨k, hk, rfl⟩ : ∃ k, k < 4 ∧ x = a + BitVec.ofNat 32 k :=
      ⟨(x - a).toNat, hlt, by rw [BitVec.ofNat_toNat, BitVec.setWidth_eq]; bv_omega⟩
    rw [store_apply_add _ _ _ hk, load]
    interval_cases k
    · rw [BitVec.extractLsb'_append_eq_of_add_le (by decide)]
      simp
    · rw [BitVec.extractLsb'_append_eq_of_le (by decide),
        BitVec.extractLsb'_append_eq_of_add_le (by decide)]
      simp
    · rw [BitVec.extractLsb'_append_eq_of_le (by decide),
        BitVec.extractLsb'_append_eq_of_le (by decide),
        BitVec.extractLsb'_append_eq_of_add_le (by decide)]
      simp
    · rw [BitVec.extractLsb'_append_eq_of_le (by decide),
        BitVec.extractLsb'_append_eq_of_le (by decide),
        BitVec.extractLsb'_append_eq_of_le (by decide)]
      simp
  · exact if_neg hx

theorem Mem.load_byte (m : Mem) (a : Word) {k : ℕ} (hk : k < 4) :
    (m.load a).extractLsb' (8 * k) 8 = m (a + BitVec.ofNat 32 k) := by
  rw [← store_apply_add m a (m.load a) hk, store_load_self]

/-- What a store leaves of a word depends on the word only. -/
theorem Mem.load_store_congr {a : Word} (h : m.load a = m'.load a) (b v : Word) :
    (m.store b v).load a = (m'.store b v).load a := by
  have hbyte (k : ℕ) (hk : k < 4) : m (a + BitVec.ofNat 32 k) = m' (a + BitVec.ofNat 32 k) := by
    rw [← load_byte m a hk, h, load_byte m' a hk]
  have h0 : m a = m' a := by simpa using hbyte 0 (by decide)
  have h1 : m (a + 1) = m' (a + 1) := hbyte 1 (by decide)
  have h2 : m (a + 2) = m' (a + 2) := hbyte 2 (by decide)
  have h3 : m (a + 3) = m' (a + 3) := hbyte 3 (by decide)
  simp only [load, store, h0, h1, h2, h3]

theorem Mem.load_congr {a : ℕ} (ha : a + 4 ≤ 2 ^ 32)
    (h : ∀ x : Word, a ≤ x.toNat → x.toNat < a + 4 → m' x = m x) :
    m'.load (BitVec.ofNat 32 a) = m.load (BitVec.ofNat 32 a) := by
  unfold load
  rw [h (BitVec.ofNat 32 a) (by bv_omega) (by bv_omega),
    h (BitVec.ofNat 32 a + 1) (by bv_omega) (by bv_omega),
    h (BitVec.ofNat 32 a + 2) (by bv_omega) (by bv_omega),
    h (BitVec.ofNat 32 a + 3) (by bv_omega) (by bv_omega)]

/-! ### What a change leaves alone -/

/-- `m'` differs from `m` only at addresses in `R`. -/
def Keeps (R : Set ℕ) (m m' : Mem) : Prop := ∀ x : Word, x.toNat ∉ R → m' x = m x

theorem Keeps.refl (R : Set ℕ) (m : Mem) : Keeps R m m := fun _ _ => rfl

theorem Keeps.mono (h : Keeps R m m') (hRS : R ⊆ S) : Keeps S m m' :=
  fun x hx => h x fun hR => hx (hRS hR)

theorem Keeps.trans (h : Keeps R m m') (h' : Keeps S m' m'') : Keeps (R ∪ S) m m'' :=
  fun x hx => (h' x fun hS => hx (.inr hS)).trans (h x fun hR => hx (.inl hR))

/-- Two changes inside one region are a change inside it. -/
theorem Keeps.trans_same (h : Keeps R m m') (h' : Keeps R m' m'') : Keeps R m m'' :=
  (h.trans h').mono (Set.union_self R).subset

/-- A word that `R` does not meet is the same afterwards. -/
theorem Keeps.load {a : ℕ} (h : Keeps R m m') (ha : a + 4 ≤ 2 ^ 32)
    (hR : ∀ n, a ≤ n → n < a + 4 → n ∉ R) :
    m'.load (BitVec.ofNat 32 a) = m.load (BitVec.ofNat 32 a) :=
  Mem.load_congr ha fun x h1 h2 => h x (hR _ h1 h2)

theorem keeps_store (m : Mem) {a : ℕ} (v : Word) (ha : a + 4 ≤ 2 ^ 32) :
    Keeps (Set.Ico a (a + 4)) m (m.store (BitVec.ofNat 32 a) v) := by
  intro x hx
  rw [Set.mem_Ico] at hx
  apply if_neg
  bv_omega

theorem keeps_storeByte (m : Mem) (a : Word) (v : Byte) :
    Keeps {a.toNat} m (m.storeByte a v) := by
  intro x hx
  refine if_neg fun h => hx ?_
  rw [h]; rfl

theorem Keeps.store {a : ℕ} (h : Keeps R m m') (v : Word) (ha : a + 4 ≤ 2 ^ 32)
    (hR : Set.Ico a (a + 4) ⊆ R) : Keeps R m (m'.store (BitVec.ofNat 32 a) v) :=
  h.trans_same ((keeps_store m' v ha).mono hR)

theorem Mem.load_store_of_apart (m : Mem) {a b : ℕ} (v : Word) (ha : a + 4 ≤ 2 ^ 32)
    (hb : b + 4 ≤ 2 ^ 32) (h : a + 4 ≤ b ∨ b + 4 ≤ a) :
    (m.store (BitVec.ofNat 32 a) v).load (BitVec.ofNat 32 b) = m.load (BitVec.ofNat 32 b) :=
  (keeps_store m v ha).load hb fun n h1 h2 => by rw [Set.mem_Ico]; omega

theorem Mem.load_store_of_far (m : Mem) {a b : Word} (v : Word) (h : 4 ≤ b - a) (h' : 4 ≤ a - b) :
    (m.store a v).load b = m.load b := by
  have hk (k : Word) (hk : k < 4) : ¬ b + k - a < 4 := by bv_omega
  have h0 : ¬ b - a < 4 := by bv_omega
  simp only [load, store, if_neg (hk 3 (by decide)), if_neg (hk 2 (by decide)),
    if_neg (hk 1 (by decide)), if_neg h0]

theorem Mem.store_comm (m : Mem) {a b : ℕ} (v w : Word) (ha : a + 4 ≤ 2 ^ 32) (hb : b + 4 ≤ 2 ^ 32)
    (h : a + 4 ≤ b ∨ b + 4 ≤ a) :
    (m.store (BitVec.ofNat 32 a) v).store (BitVec.ofNat 32 b) w =
      (m.store (BitVec.ofNat 32 b) w).store (BitVec.ofNat 32 a) v := by
  funext x
  by_cases hx : x - BitVec.ofNat 32 a < 4
  · have hx' : ¬ x - BitVec.ofNat 32 b < 4 := by bv_omega
    simp only [store, if_pos hx, if_neg hx']
  · simp only [store, if_neg hx]

/-! ### Arrays -/

/-- A loop over the first `n` entries of an array that changes each by `g`. -/
theorem foldl_update_apply {α : Type*} (g : α → α) (a : ℕ → α) (n i : ℕ) :
    (List.range n).foldl (fun a i => Function.update a i (g (a i))) a i = if i < n then g (a i) else a i := by
  induction n generalizing i with
  | zero => rfl
  | succ n ih =>
    rw [List.range_succ, List.foldl_append, List.foldl_cons, List.foldl_nil]
    by_cases hin : i = n
    · rw [hin, Function.update_self, ih, if_neg (lt_irrefl n), if_pos (Nat.lt_succ_self n)]
    · rw [Function.update_of_ne hin, ih]
      exact if_congr (by omega) rfl rfl

/-! ### Bytes as numbers -/

/-- The byte at the address `k`, as a number. -/
def Mem.byte (m : Mem) (k : ℕ) : ℕ := (m (BitVec.ofNat 32 k)).toNat

theorem Mem.byte_lt (m : Mem) (k : ℕ) : m.byte k < 256 := (m (BitVec.ofNat 32 k)).isLt

theorem Mem.toNat_load (m : Mem) (k : ℕ) : (m.load (BitVec.ofNat 32 k)).toNat =
    m.byte k + 256 * m.byte (k + 1) + 65536 * m.byte (k + 2) + 16777216 * m.byte (k + 3) := by
  have h {y : Byte} (x : ℕ) : x <<< 8 ||| y.toNat = x * 256 + y.toNat := by
    rw [← Nat.shiftLeft_add_eq_or_of_lt y.isLt, Nat.shiftLeft_eq]
  have hk (j : ℕ) : BitVec.ofNat 32 k + BitVec.ofNat 32 j = BitVec.ofNat 32 (k + j) :=
    (BitVec.ofNat_add k j).symm
  rw [load, BitVec.toNat_append, BitVec.toNat_append, BitVec.toNat_append, h, h, h]
  rw [show BitVec.ofNat 32 k + 1 = _ from hk 1, show BitVec.ofNat 32 k + 2 = _ from hk 2,
    show BitVec.ofNat 32 k + 3 = _ from hk 3]
  unfold byte
  omega

/-- A byte that a store does not meet; a store at the very end of the address space meets the first
bytes of it. -/
theorem Mem.byte_store_of_apart (m : Mem) (a v : Word) {k : ℕ} (hk : 4 ≤ k) (hk' : k < 2 ^ 32)
    (h : k < a.toNat ∨ a.toNat + 4 ≤ k) : (m.store a v).byte k = m.byte k := by
  unfold byte
  rw [store, if_neg]
  bv_omega

end ByteMemory
