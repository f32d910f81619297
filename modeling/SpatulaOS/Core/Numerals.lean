import SpatulaOS.Lib.Memory
import SpatulaOS.Lib.Numeral

/-!
# Numerals

`atoi` and `atoi_hex` of `lib/string.c`, and the text that `vga_print_hex` prints. The `int` that a
number is read into wraps round. A `char` above 0x7F is negative, and no digit either way.

Both read a row of digits as its value modulo `2 ^ 32` (`atoi_digits`, `atoiHex_digits`), and
what `vga_print_hex` prints is read back by `atoi_hex` (`atoiHex_hexText`).
-/

namespace SpatulaOS.Core

open ByteMemory Numeral

/-- The loop of `atoi`. -/
def atoiLoop : Word → List Byte → Word
  | result, [] => result
  | result, c :: str =>
    if c < 0x30 ∨ c > 0x39 then result else atoiLoop (result * 10 + (c.setWidth 32 - 0x30)) str

/-- `atoi`. -/
def atoi (str : List Byte) : Word := atoiLoop 0 str

/-- The value of a digit in `atoi_hex`. -/
def hexValue (c : Byte) : Option Word :=
  if c ≥ 0x30 ∧ c ≤ 0x39 then some (c.setWidth 32 - 0x30)
  else if c ≥ 0x61 ∧ c ≤ 0x66 then some (c.setWidth 32 - 0x61 + 10)
  else if c ≥ 0x41 ∧ c ≤ 0x46 then some (c.setWidth 32 - 0x41 + 10)
  else none

/-- The loop of `atoi_hex`. -/
def atoiHexLoop : Word → List Byte → Word
  | result, [] => result
  | result, c :: str =>
    match hexValue c with
    | some value => atoiHexLoop (result * 16 + value) str
    | none => result

/-- `atoi_hex`. -/
def atoiHex : List Byte → Word
  | a :: b :: str =>
    if a = 0x30 ∧ (b = 0x78 ∨ b = 0x58) then atoiHexLoop 0 str else atoiHexLoop 0 (a :: b :: str)
  | str => atoiHexLoop 0 str

/-- `hex_chars` of `vga_print_hex`. -/
def hexChars : List Byte :=
  [0x30, 0x31, 0x32, 0x33, 0x34, 0x35, 0x36, 0x37, 0x38, 0x39, 0x41, 0x42, 0x43, 0x44, 0x45, 0x46]

/-- The half byte that `vga_print_hex` prints at position `i`, behind the prefix. -/
def nibble (value : Word) (i : ℕ) : Word := (value >>> (28 - i * 4)) &&& 0xF

/-- `buffer` of `vga_print_hex`. -/
def hexText (value : Word) : List Byte :=
  0x30 :: 0x78 :: (List.range 8).map fun i => hexChars.getD (nibble value i).toNat 0

/-! ### Reading back -/

variable {value result d : Word} {ds : List Word}

theorem toNat_nibble (value : Word) (i : ℕ) :
    (nibble value i).toNat = (value >>> (28 - i * 4)).toNat % 16 := by
  rw [nibble, BitVec.toNat_and]
  exact Nat.and_two_pow_sub_one_eq_mod _ 4

theorem mem_hexText {c : Byte} (hc : c ∈ hexText value) : c ∈ hexChars ∨ c = 0x78 := by
  have hall : ∀ n : Fin 16, hexChars.getD n.val 0 ∈ hexChars := by decide
  have hlt (i : ℕ) : (nibble value i).toNat < 16 := toNat_nibble value i ▸ Nat.mod_lt _ (by decide)
  obtain rfl | hc := List.mem_cons.mp hc
  · exact .inl (by decide)
  obtain rfl | hc := List.mem_cons.mp hc
  · exact .inr rfl
  obtain ⟨i, -, rfl⟩ := List.mem_map.mp hc
  exact .inl (hall ⟨_, hlt i⟩)

theorem hexValue_hexChars (hd : d.toNat < 16) : hexValue (hexChars.getD d.toNat 0) = some d := by
  have hall : ∀ n : Fin 16, hexValue (hexChars.getD n.val 0) = some (BitVec.ofNat 32 n.val) := by decide
  have h := hall ⟨d.toNat, hd⟩
  rwa [BitVec.ofNat_toNat, BitVec.setWidth_eq] at h

/-- A row of digits is read as a number in base 16. -/
theorem atoiHexLoop_digits (hds : ∀ d ∈ ds, d.toNat < 16) :
    atoiHexLoop result (ds.map fun d => hexChars.getD d.toNat 0) =
      ds.foldl (fun r d => r * 16 + d) result := by
  induction ds generalizing result with
  | nil => rfl
  | cons d ds ih =>
    rw [List.map_cons, atoiHexLoop, hexValue_hexChars (hds d List.mem_cons_self)]
    exact ih fun d hd => hds d (List.mem_cons_of_mem _ hd)

theorem shift_nibble {i : ℕ} (hi : i < 8) :
    (value >>> (32 - i * 4)) * 16 + nibble value i = value >>> (32 - (i + 1) * 4) := by
  have hshift : value >>> (32 - i * 4) = (value >>> (28 - i * 4)) >>> 4 := by
    rw [← BitVec.shiftRight_add]
    congr 1
    omega
  have hlast : 32 - (i + 1) * 4 = 28 - i * 4 := by omega
  have hnibble := toNat_nibble value i
  rw [hshift, hlast]
  generalize value >>> (28 - i * 4) = x at hnibble ⊢
  refine BitVec.eq_of_toNat_eq ?_
  rw [BitVec.toNat_add, BitVec.toNat_mul, BitVec.toNat_ushiftRight, hnibble, Nat.shiftRight_eq_div_pow]
  have := x.isLt
  change (x.toNat / 16 * 16 % 2 ^ 32 + x.toNat % 16) % 2 ^ 32 = x.toNat
  omega

/-- What `vga_print_hex` prints is read back by `atoi_hex`. -/
theorem atoiHex_hexText (value : Word) : atoiHex (hexText value) = value := by
  have hdigits (n : ℕ) (hn : n ≤ 8) :
      ((List.range n).map (nibble value)).foldl (fun r d => r * 16 + d) 0 = value >>> (32 - n * 4) := by
    induction n with
    | zero => exact (BitVec.ushiftRight_eq_zero (by omega)).symm
    | succ n ih =>
      rw [List.range_succ, List.map_append, List.foldl_append, ih (by omega)]
      exact shift_nibble hn
  have hlt : ∀ d ∈ (List.range 8).map (nibble value), d.toNat < 16 := by
    intro d hd
    obtain ⟨i, -, rfl⟩ := List.mem_map.mp hd
    rw [toNat_nibble]
    exact Nat.mod_lt _ (by decide)
  have hloop := (atoiHexLoop_digits hlt).trans (hdigits 8 le_rfl)
  rw [List.map_map] at hloop
  rw [hexText, atoiHex, if_pos ⟨rfl, .inl rfl⟩]
  exact hloop.trans (BitVec.ushiftRight_zero _)

/-! ### Any row of digits -/

variable {c : Byte} {r : ℕ} {ns : List ℕ} {digits rest : List Byte}

/-- The character of a digit below 36. -/
def digitChar (n : ℕ) : Byte := BitVec.ofNat 8 (if n < 10 then 0x30 + n else 0x41 + (n - 10))

/-- The value of a hexadecimal digit, in either case. -/
def hexDigit (c : Byte) : Option ℕ :=
  (hexChars.idxOf? c).or (([0x61, 0x62, 0x63, 0x64, 0x65, 0x66].idxOf? c).map (10 + ·))

theorem digitChar_ne_zero {n : ℕ} (hn : n < 36) : digitChar n ≠ 0 := by
  have hall : ∀ n : Fin 36, digitChar n.val ≠ 0 := by decide
  exact hall ⟨n, hn⟩

theorem atoiLoop_digit {n : ℕ} (hn : n < 10) (result : Word) (str : List Byte) :
    atoiLoop result (digitChar n :: str) = atoiLoop (result * 10 + BitVec.ofNat 32 n) str := by
  have hall : ∀ n : Fin 10, ¬ (digitChar n.val < 0x30 ∨ digitChar n.val > 0x39) ∧
      (digitChar n.val).setWidth 32 - 0x30 = BitVec.ofNat 32 n.val := by decide
  obtain ⟨hdigit, hval⟩ := hall ⟨n, hn⟩
  rw [atoiLoop, if_neg hdigit, hval]

theorem atoiLoop_digits (hns : ∀ n ∈ ns, n < 10) (r : ℕ) :
    atoiLoop (BitVec.ofNat 32 r) (ns.map digitChar) = BitVec.ofNat 32 (readFrom 10 r ns) := by
  induction ns generalizing r with
  | nil => rfl
  | cons n ns ih =>
    have hstep : BitVec.ofNat 32 r * 10 + BitVec.ofNat 32 n = BitVec.ofNat 32 (r * 10 + n) := by
      rw [BitVec.ofNat_add, BitVec.ofNat_mul]
      rfl
    rw [List.map_cons, atoiLoop_digit (hns n List.mem_cons_self), hstep, readFrom_cons]
    exact ih (fun n hn => hns n (List.mem_cons_of_mem _ hn)) _

/-- A decimal numeral is read as its value modulo `2 ^ 32`. -/
theorem atoi_digits (hns : ∀ n ∈ ns, n < 10) :
    atoi (ns.map digitChar) = BitVec.ofNat 32 (Numeral.value 10 ns) :=
  atoiLoop_digits hns 0

theorem hexValue_eq (c : Byte) : hexValue c = (hexDigit c).map (BitVec.ofNat 32) := by
  have hall : ∀ n : Fin 256, hexValue (BitVec.ofFin n) =
      (hexDigit (BitVec.ofFin n)).map (BitVec.ofNat 32) := by
    decide +kernel
  exact hall c.toFin

/-- A row of hexadecimal digits is read up to what is no digit. -/
theorem atoiHexLoop_eq (hdigits : ∀ c ∈ digits, (hexDigit c).isSome)
    (hrest : ∀ c ∈ rest.head?, hexDigit c = none)
    (r : ℕ) : atoiHexLoop (BitVec.ofNat 32 r) (digits ++ rest) =
      BitVec.ofNat 32 (readFrom 16 r (digits.filterMap hexDigit)) := by
  induction digits generalizing r with
  | nil =>
    cases rest with
    | nil => rfl
    | cons c rest =>
      rw [List.nil_append, atoiHexLoop, hexValue_eq, hrest c rfl]
      rfl
  | cons c digits ih =>
    obtain ⟨n, hn⟩ := Option.isSome_iff_exists.mp (hdigits c List.mem_cons_self)
    have hstep : BitVec.ofNat 32 r * 16 + BitVec.ofNat 32 n = BitVec.ofNat 32 (r * 16 + n) := by
      rw [BitVec.ofNat_add, BitVec.ofNat_mul]
      rfl
    rw [List.cons_append, atoiHexLoop, hexValue_eq, hn, Option.map_some,
      List.filterMap_cons_some hn, readFrom_cons]
    dsimp only
    rw [hstep]
    exact ih (fun c hc => hdigits c (List.mem_cons_of_mem _ hc)) _

/-- The prefix of a hexadecimal numeral. -/
def IsHexPrefix (pre : List Byte) : Prop := pre = [0x30, 0x78] ∨ pre = [0x30, 0x58]

theorem atoiHex_prefixed {pre : List Byte} (hpre : IsHexPrefix pre) (str : List Byte) :
    atoiHex (pre ++ str) = atoiHexLoop 0 str := by
  obtain rfl | rfl := hpre
  · rw [List.cons_append, List.cons_append, atoiHex, if_pos ⟨rfl, .inl rfl⟩, List.nil_append]
  · rw [List.cons_append, List.cons_append, atoiHex, if_pos ⟨rfl, .inr rfl⟩, List.nil_append]

theorem atoiHex_plain {str : List Byte} (h : ∀ pre, IsHexPrefix pre → ¬ pre <+: str) :
    atoiHex str = atoiHexLoop 0 str := by
  match str, h with
  | [], _ | [_], _ => rfl
  | a :: b :: str, h =>
    rw [atoiHex, if_neg]
    rintro ⟨rfl, rfl | rfl⟩
    · exact h _ (.inl rfl) ⟨str, rfl⟩
    · exact h _ (.inr rfl) ⟨str, rfl⟩

/-- `atoi_hex` reads the digits behind a prefix, if there is one, up to what is no digit. -/
theorem atoiHex_digits {pre : List Byte}
    (hpre : IsHexPrefix pre ∨ pre = [] ∧ ∀ p, IsHexPrefix p → ¬ p <+: digits ++ rest)
    (hdigits : ∀ c ∈ digits, (hexDigit c).isSome) (hrest : ∀ c ∈ rest.head?, hexDigit c = none) :
    atoiHex (pre ++ (digits ++ rest)) = BitVec.ofNat 32 (Numeral.value 16 (digits.filterMap hexDigit)) := by
  have hloop := atoiHexLoop_eq hdigits hrest 0
  obtain hpre | ⟨rfl, hplain⟩ := hpre
  · exact (atoiHex_prefixed hpre _).trans hloop
  · exact (atoiHex_plain hplain).trans hloop

end SpatulaOS.Core
