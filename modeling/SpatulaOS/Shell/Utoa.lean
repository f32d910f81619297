import SpatulaOS.Shell.Arguments
import SpatulaOS.Video.Cursor

/-!
# Writing numbers

`utoa` of `lib/string.c`. It takes the digits of a number off from the last one on, and then
reverses them where they are. For the bases from 2 to 36 it writes the canonical numeral
(`utoa_eq`); in base 10 this is what `vga_print_dec` prints and what `atoi` reads back
(`utoa_decimal`).

Each loop of `utoa` makes at most `fuel` iterations, and has no result if these are too few.
-/

namespace SpatulaOS.Shell

open ByteMemory Numeral SpatulaOS.Core SpatulaOS.Video

/-- The first loop of `utoa`: the digits, the last one first, and the place behind them. -/
def utoaLoop (base : Word) : ℕ → Word → Buffer → ℕ → Option (Buffer × ℕ)
  | 0, _, _, _ => none
  | fuel + 1, value, buffer, ptr =>
    if value ≠ 0 then
      let tmpValue := value % base
      let c := if tmpValue < 10 then 0x30 + tmpValue.setWidth 8 else 0x41 + (tmpValue - 10).setWidth 8
      utoaLoop base fuel (value / base) (Function.update buffer ptr c) (ptr + 1)
    else some (buffer, ptr)

/-- The second loop of `utoa`: the characters from `ptr1` to `ptr` are reversed. -/
def reverseLoop : ℕ → Buffer → ℕ → ℕ → Option Buffer
  | 0, _, _, _ => none
  | fuel + 1, buffer, ptr1, ptr =>
    if ptr1 < ptr then
      let tmpChar := buffer ptr
      let buffer := Function.update buffer ptr (buffer ptr1)
      let buffer := Function.update buffer ptr1 tmpChar
      reverseLoop fuel buffer (ptr1 + 1) (ptr - 1)
    else some buffer

/-- `utoa`: the buffer. -/
def utoa (fuel : ℕ) (value : Word) (buffer : Buffer) (base : Word) : Option Buffer :=
  if value = 0 then some (Function.update (Function.update buffer 0 0x30) 1 0)
  else
    (utoaLoop base fuel value buffer 0).bind fun r =>
      reverseLoop fuel (Function.update r.1 r.2 0) 0 (r.2 - 1)

/-- The decimal numeral of `n`. -/
def decimal (n : ℕ) : List Byte := (numeral 10 n).map digitChar

variable {buffer : Buffer} {value base num : Word} {ptr lo hi k : ℕ} {l : List Byte} {c : Byte}

/-! ### The loops -/

/-- The buffer with `l` written from `ptr` on. -/
def writeAt (buffer : Buffer) (ptr : ℕ) (l : List Byte) : Buffer := fun j =>
  if ptr ≤ j ∧ j < ptr + l.length then l.getD (j - ptr) 0 else buffer j

theorem writeAt_nil (buffer : Buffer) (ptr : ℕ) : writeAt buffer ptr [] = buffer :=
  funext fun _ => if_neg fun h => absurd h.2 (Nat.not_lt.mpr h.1)

theorem writeAt_cons (buffer : Buffer) (ptr : ℕ) (c : Byte) (l : List Byte) :
    writeAt (Function.update buffer ptr c) (ptr + 1) l = writeAt buffer ptr (c :: l) := by
  funext j
  unfold writeAt
  rw [List.length_cons]
  by_cases hj : j = ptr
  · rw [if_neg (by omega), if_pos (by omega), hj, Function.update_self, Nat.sub_self]
    rfl
  · rw [Function.update_of_ne hj]
    by_cases hin : ptr + 1 ≤ j ∧ j < ptr + 1 + l.length
    · rw [if_pos hin, if_pos (by omega), show j - ptr = (j - (ptr + 1)) + 1 by omega, List.getD_cons_succ]
    · rw [if_neg hin, if_neg (by omega)]

theorem char_digit {d : Word} (hd : d.toNat < 36) :
    (if d < 10 then 0x30 + d.setWidth 8 else 0x41 + (d - 10).setWidth 8 : Byte) = digitChar d.toNat := by
  have hall : ∀ n : Fin 36, (if BitVec.ofNat 32 n.val < 10 then 0x30 + (BitVec.ofNat 32 n.val).setWidth 8
      else 0x41 + (BitVec.ofNat 32 n.val - 10).setWidth 8 : Byte) = digitChar n.val := by decide
  have h := hall ⟨d.toNat, hd⟩
  rwa [BitVec.ofNat_toNat, BitVec.setWidth_eq] at h

theorem digits_zero (b : ℕ) : Nat.digits b (0 : Word).toNat = [] := Nat.digits_zero b

/-- The digits of a number are its last one and those of the rest. -/
theorem digits_word (hb : 1 < base.toNat) (hv : value ≠ 0) : Nat.digits base.toNat value.toNat =
    (value % base).toNat :: Nat.digits base.toNat (value / base).toNat := by
  have hpos : 0 < value.toNat := Nat.pos_of_ne_zero fun h => hv (BitVec.eq_of_toNat_eq h)
  rw [BitVec.toNat_umod, BitVec.toNat_udiv]
  exact Nat.digits_def' hb hpos

/-- The digits are written, the last one first. -/
theorem utoaLoop_eq (hb : 1 < base.toNat) (hb' : base.toNat ≤ 36)
    (hk : (Nat.digits base.toNat value.toNat).length < k) : utoaLoop base k value buffer ptr =
      some (writeAt buffer ptr ((Nat.digits base.toNat value.toNat).map digitChar),
        ptr + (Nat.digits base.toNat value.toNat).length) := by
  induction k generalizing value buffer ptr with
  | zero => exact absurd hk (Nat.not_lt_zero _)
  | succ k ih =>
    by_cases hv : value = 0
    · rw [utoaLoop, if_neg (not_not.mpr hv), hv, digits_zero, List.map_nil, writeAt_nil]
      rfl
    · have hdigit : (value % base).toNat < 36 := by
        rw [BitVec.toNat_umod]
        exact (Nat.mod_lt _ (by omega)).trans_le hb'
      rw [digits_word hb hv] at hk ⊢
      rw [List.length_cons] at hk ⊢
      rw [utoaLoop, if_pos hv]
      dsimp only
      rw [char_digit hdigit, ih (by omega), writeAt_cons, List.map_cons, Nat.add_assoc, Nat.add_comm 1]

theorem decLoop_eq (num : Word) (buffer : ℕ → Byte) (i : ℕ) : decLoop num buffer i =
    (writeAt buffer i ((Nat.digits 10 num.toNat).map digitChar), i + (Nat.digits 10 num.toNat).length) := by
  induction num, buffer, i using decLoop.induct with
  | case1 num buffer i hpos ih =>
    have hne : num ≠ 0 := fun h => absurd (h ▸ hpos) (by decide)
    have hdigit : (num % 10).toNat < 10 := by
      rw [BitVec.toNat_umod]
      exact Nat.mod_lt _ (by decide)
    have hchar : (0x30 + (num % 10).setWidth 8 : Byte) = digitChar (num % 10).toNat := by
      rw [← char_digit (by omega), if_pos (show num % 10 < 10 from hdigit)]
    have hdigits : Nat.digits 10 num.toNat = (num % 10).toNat :: Nat.digits 10 (num / 10).toNat :=
      @digits_word num 10 (by decide) hne
    rw [decLoop, if_pos hpos, ih, hchar, writeAt_cons, hdigits, List.map_cons, List.length_cons,
      Nat.add_assoc,
      Nat.add_comm 1]
  | case2 num buffer i hpos =>
    have hzero : num = 0 := by
      rw [BitVec.not_lt] at hpos
      exact BitVec.le_zero_iff.mp hpos
    rw [decLoop, if_neg hpos, hzero, digits_zero, List.map_nil, writeAt_nil]
    rfl

/-- The buffer with the characters from `lo` to `hi` reversed. -/
def reversed (buffer : Buffer) (lo hi : ℕ) : Buffer := fun i =>
  if lo ≤ i ∧ i ≤ hi then buffer (lo + hi - i) else buffer i

/-- The characters are reversed where they are. -/
theorem reverseLoop_eq (h0 : 0 < k) (hk : hi < lo + k) :
    reverseLoop k buffer lo hi = some (reversed buffer lo hi) := by
  induction k generalizing buffer lo hi with
  | zero => exact absurd h0 (Nat.lt_irrefl 0)
  | succ k ih =>
    rw [reverseLoop]
    split_ifs with hlt
    · dsimp only
      rw [ih (by omega) (by omega)]
      congr 1
      funext i
      unfold reversed
      obtain rfl | hilo := eq_or_ne i lo
      · rw [if_neg (by omega), if_pos (by omega), Function.update_self, Nat.add_sub_cancel_left]
      obtain rfl | hihi := eq_or_ne i hi
      · rw [if_neg (by omega), if_pos (by omega), Function.update_of_ne hilo, Function.update_self,
          Nat.add_sub_cancel]
      rw [Function.update_of_ne hilo, Function.update_of_ne hihi]
      by_cases hin : lo ≤ i ∧ i ≤ hi
      · rw [if_pos (by omega), if_pos hin, Function.update_of_ne (by omega), Function.update_of_ne (by omega)]
        congr 1
        omega
      · rw [if_neg (by omega), if_neg hin]
    -- at most one character is left
    · congr 1
      funext i
      unfold reversed
      split_ifs with hin
      · congr 1
        omega
      · rfl

/-! ### The numeral -/

theorem notMem_digits (hb : 1 < base.toNat) (hb' : base.toNat ≤ 36) (n : ℕ) :
    0 ∉ (numeral base.toNat n).map digitChar := by
  rw [List.mem_map]
  rintro ⟨d, hd, h0⟩
  exact digitChar_ne_zero (((canonical_numeral hb n).lt d hd).trans_le hb') h0

/-- `utoa` writes the numeral. -/
theorem utoa_eq (hb : 1 < base.toNat) (hb' : base.toNat ≤ 36) (value : Word) (buffer : Buffer) : ∃ buffer',
    (∀ k, 32 < k → utoa k value buffer base = some buffer') ∧
      StringAt buffer' 0 ((numeral base.toNat value.toNat).map digitChar) := by
  have hne := notMem_digits hb hb' value.toNat
  by_cases hv : value = 0
  · rw [hv] at hne ⊢
    refine ⟨_, fun k _ => if_pos rfl, hne, fun j hj => ?_⟩
    rw [Nat.zero_add]
    obtain rfl | rfl : j = 0 ∨ j = 1 := by
      rw [List.length_map] at hj
      exact Nat.le_one_iff_eq_zero_or_eq_one.mp hj
    · rfl
    · rfl
  · have hvn : value.toNat ≠ 0 := fun h => hv (BitVec.eq_of_toNat_eq h)
    have hlen : (Nat.digits base.toNat value.toNat).length ≤ 32 :=
      (Nat.digits_length_le_iff hb _).mpr (value.isLt.trans_le (Nat.pow_le_pow_left hb 32))
    have hpos : 0 < (Nat.digits base.toNat value.toNat).length :=
      List.length_pos_iff.mpr (Nat.digits_ne_nil_iff_ne_zero.mpr hvn)
    have hnum : numeral base.toNat value.toNat = (Nat.digits base.toNat value.toNat).reverse := if_neg hvn
    have hrun (k : ℕ) (hk : 32 < k) : utoaLoop base k value buffer 0 =
        some (writeAt buffer 0 ((Nat.digits base.toNat value.toNat).map digitChar),
          0 + (Nat.digits base.toNat value.toNat).length) := utoaLoop_eq hb hb' (hlen.trans_lt hk)
    rw [hnum] at hne ⊢
    generalize Nat.digits base.toNat value.toNat = ds at *
    refine ⟨reversed (Function.update (writeAt buffer 0 (ds.map digitChar)) ds.length 0) 0 (ds.length - 1),
      fun k hk => ?_, hne, fun j hj => ?_⟩
    · rw [utoa, if_neg hv, hrun k hk, Option.bind_some]
      dsimp only
      rw [Nat.zero_add, reverseLoop_eq (by omega) (by omega)]
    · rw [List.length_map, List.length_reverse] at hj
      rw [reversed, Nat.zero_add, Nat.zero_add]
      obtain hlt | rfl := Nat.lt_or_eq_of_le hj
      · rw [if_pos (by omega), Function.update_of_ne (by omega), writeAt, List.length_map, if_pos (by omega),
          List.getD_eq_getElem _ _ (by rw [List.length_map]; omega),
          List.getD_eq_getElem _ _ (by rw [List.length_map, List.length_reverse]; exact hlt),
            List.getElem_map,
          List.getElem_map, List.getElem_reverse]
        rfl
      · rw [if_neg (by omega), Function.update_self, List.getD_eq_default]
        rw [List.length_map, List.length_reverse]

/-! ### Base 10 -/

/-- A number below `2 ^ 32` has at most ten digits. -/
theorem length_digits_le (num : Word) : (Nat.digits 10 num.toNat).length ≤ 10 :=
  (Nat.digits_length_le_iff (by decide) _).mpr (num.isLt.trans (by decide))

theorem cString_singleton (hc : c ≠ 0) : cString [c] = [c] := by
  simpa [cString] using hc

/-- `vga_print_dec` prints the decimal numeral. -/
theorem printDec_text (num : Word) (buffer : ℕ → Byte) :
    (VgaOp.printDec num buffer).text = decimal num.toNat := by
  rw [VgaOp.text, decStrings, decimal]
  by_cases hv : num = 0
  · rw [if_pos hv, hv]
    rfl
  · have hvn : num.toNat ≠ 0 := fun h => hv (BitVec.eq_of_toNat_eq h)
    have hnum : numeral 10 num.toNat = (Nat.digits 10 num.toNat).reverse := if_neg hvn
    have hlt : ∀ d ∈ Nat.digits 10 num.toNat, d < 10 := fun d hd => Nat.digits_lt_base (by decide) hd
    rw [if_neg hv, decLoop_eq, hnum]
    generalize Nat.digits 10 num.toNat = ds at hlt ⊢
    have hmap : (List.range ds.length).map (writeAt buffer 0 (ds.map digitChar)) = ds.map digitChar := by
      refine List.ext_getElem (by rw [List.length_map, List.length_map, List.length_range]) fun i h1 h2 => ?_
      rw [List.length_map] at h2
      rw [List.getElem_map, List.getElem_range, writeAt, List.length_map, if_pos (by omega), Nat.sub_zero,
        List.getD_eq_getElem _ _ (by rw [List.length_map]; exact h2)]
    have hchars :
        (List.range ds.length).reverse.map (writeAt buffer 0 (ds.map digitChar)) =
        ds.reverse.map digitChar := by
      rw [List.map_reverse, hmap, ← List.map_reverse]
    have hsingle : ∀ c ∈ ds.reverse.map digitChar, cString [c] = [c] := by
      intro c hc
      obtain ⟨d, hd, rfl⟩ := List.mem_map.mp hc
      exact cString_singleton (digitChar_ne_zero ((hlt d (List.mem_reverse.mp hd)).trans (by decide)))
    dsimp only
    rw [Nat.zero_add]
    calc ((List.range ds.length).reverse.map fun j => [writeAt buffer 0 (ds.map digitChar) j]).flatMap cString
      _ = ((List.range ds.length).reverse.map (writeAt buffer 0 (ds.map digitChar))).flatMap
        fun c => cString [c] := by
        rw [List.flatMap_map, List.flatMap_map]
      _ = (ds.reverse.map digitChar).flatMap fun c => [c] := by rw [hchars, List.flatMap_congr hsingle]
      _ = ds.reverse.map digitChar := List.flatMap_singleton' _

theorem atoi_decimal (num : Word) : atoi (decimal num.toNat) = num := by
  have hnum := canonical_numeral (b := 10) (by decide) num.toNat
  rw [decimal, atoi_digits hnum.lt, hnum.value, BitVec.ofNat_toNat, BitVec.setWidth_eq]

/-- **`utoa` writes the canonical numeral** in the bases from 2 to 36. In base 10, `vga_print_dec`
prints the same characters, for which it needs ten bytes of its buffer at most; and `atoi` reads
back every number below `2 ^ 31`, without an overflow behind any digit. -/
theorem utoa_numerals (hb : 2 ≤ base.toNat) (hb' : base.toNat ≤ 36) (value : Word) (buffer buffer₁ : Buffer) :
    (∃ ds buffer', Canonical base.toNat value.toNat ds ∧
      (∀ k, 32 < k → utoa k value buffer base = some buffer') ∧
      StringAt buffer' 0 (ds.map digitChar)) ∧
    ∃ ds buffer', Canonical 10 value.toNat ds ∧ (∀ k, 32 < k → utoa k value buffer 10 = some buffer') ∧
      StringAt buffer' 0 (ds.map digitChar) ∧
      (VgaOp.printDec value buffer₁).text = ds.map digitChar ∧
      (decLoop value buffer₁ 0).2 ≤ 10 ∧ (∀ j, 10 ≤ j → (decLoop value buffer₁ 0).1 j = buffer₁ j) ∧
      (value.toNat < 2 ^ 31 → (∀ fuel, 10 ≤ fuel → atoi (cstr buffer' fuel 0) = value) ∧
        ∀ pre, pre <+: ds → Numeral.value 10 pre < 2 ^ 31) := by
  obtain ⟨buffer', hrun, hstr⟩ := utoa_eq hb hb' value buffer
  obtain ⟨buffer'', hrun', hstr'⟩ := @utoa_eq 10 (by decide) (by decide) value buffer
  have hnum := canonical_numeral (b := 10) (by decide) value.toNat
  have hlen := length_digits_le value
  refine ⟨⟨_, buffer', canonical_numeral hb _, hrun, hstr⟩, _, buffer'', hnum, hrun', hstr',
    printDec_text value buffer₁, ?_, fun j hj => ?_, fun hv => ⟨fun fuel hfuel => ?_, fun pre hpre => ?_⟩⟩
  · rw [decLoop_eq, Nat.zero_add]
    exact hlen
  · rw [decLoop_eq]
    refine if_neg ?_
    rw [List.length_map]
    omega
  · rw [hstr'.cstr]
    · exact atoi_decimal value
    · rw [List.length_map]
      exact (length_numeral_le (by decide) (by decide) (value.isLt.trans (by decide))).trans hfuel
  · have hle := value_le_of_prefix (b := 10) (by decide) hpre
    rw [hnum.value] at hle
    exact hle.trans_lt hv

theorem utoa_numerals_hex : ∃ buffer', utoa 33 0xBEEF (fun _ => 0x20) 16 = some buffer' ∧
    (∃ ds, StringAt buffer' 0 (ds.map digitChar) ∧ Canonical 16 0xBEEF ds) := by
  obtain ⟨⟨ds, buffer', hds, hrun, hstr⟩, -⟩ := @utoa_numerals 16 (by decide) (by decide) 0xBEEF
    (fun _ => 0x20) (fun _ => 0)
  exact ⟨buffer', hrun 33 (by decide), ds, hstr, hds⟩

end SpatulaOS.Shell
