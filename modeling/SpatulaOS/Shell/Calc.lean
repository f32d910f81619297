import SpatulaOS.Fs.Ramfs
import SpatulaOS.Shell.Utoa

/-!
# `calc`

`cmd_calc` of `shell/shell.c`. Each operator of its `switch` leads to the printing behind it, but for `/`:
the `return` that looks like a part of the `else` there is taken in either case, so a quotient is
never printed (`cmdCalc_prints_iff`).
-/

namespace SpatulaOS.Shell

open ByteMemory Numeral SpatulaOS.Core SpatulaOS.Fs

/-- The `switch` of `cmd_calc`: what it prints, and the result if it does not return. -/
def calcSwitch (op : Byte) (a b : Word) : List Byte × Option Word :=
  if op = 0x2B then ([], some (a + b))
  else if op = 0x2D then ([], some (a - b))
  else if op = 0x2A then ([], some (a * b))
  -- `result = a / b` is the only statement under the `if`, and the `return` is behind the `else`
  else if op = 0x2F then (if b ≠ 0 then [] else text "Division by zero!\n", none)
  else ([], some 0)

/-- `cmd_calc`, with what is in its buffer before: what it prints. -/
def cmdCalc (k : ℕ) (buf : Buffer) : List (List Byte) → Option (List Byte)
  | [_, x, op, y] =>
    match calcSwitch (op.headD 0) (atoi x) (atoi y) with
    | (out, none) => some out
    | (out, some result) => (utoa k result buf 10).map fun buf => out ++ cstr buf 32 0 ++ text "\n"
  | _ => some (text "Usage: eval <a> <op> <b>\n")

/-- The operators. -/
inductive CalcOp where
  /-- `+` -/
  | add
  /-- `-` -/
  | sub
  /-- `*` -/
  | mul
  /-- `/` -/
  | div
  deriving DecidableEq

/-- The character of an operator. -/
def CalcOp.char : CalcOp → Byte
  | .add => 0x2B
  | .sub => 0x2D
  | .mul => 0x2A
  | .div => 0x2F

/-- The exact result, with the integer quotient, if there is one. -/
def CalcOp.exact (a b : ℕ) : CalcOp → Option ℤ
  | .add => some (a + b)
  | .sub => some (a - b)
  | .mul => some (a * b)
  | .div => if b = 0 then none else some (a / b)

/-- `calc` prints the result: the numeral of `r` and a newline. -/
def CalcPrints (buf : Buffer) (argv : List (List Byte)) (r : ℕ) : Prop :=
  ∃ k, ∀ j, k ≤ j → cmdCalc j buf argv = some (decimal r ++ text "\n")

variable {op : CalcOp} {as bs : List ℕ} {a b r : ℕ}

theorem calcSwitch_exact (hop : op ≠ .div) (hr : op.exact a b = some (r : ℤ)) :
    calcSwitch op.char (BitVec.ofNat 32 a) (BitVec.ofNat 32 b) = ([], some (BitVec.ofNat 32 r)) := by
  cases op with
  | add =>
    have hsum : a + b = r := by exact_mod_cast Option.some.inj hr
    rw [← hsum, BitVec.ofNat_add]
    rfl
  | sub =>
    have hdiff : a = r + b := by
      have := Option.some.inj hr
      omega
    have hword : BitVec.ofNat 32 a - BitVec.ofNat 32 b = BitVec.ofNat 32 r := by
      rw [hdiff, BitVec.ofNat_add, BitVec.add_sub_cancel]
    rw [← hword]
    rfl
  | mul =>
    have hprod : a * b = r := by exact_mod_cast Option.some.inj hr
    rw [← hprod, BitVec.ofNat_mul]
    rfl
  | div => exact absurd rfl hop

theorem utoa_prints (hr : r < 2 ^ 31) (buf : Buffer) {k : ℕ} (hk : 32 < k) :
    (utoa k (BitVec.ofNat 32 r) buf 10).map (fun buf => [] ++ cstr buf 32 0 ++ text "\n") =
      some (decimal r ++ text "\n") := by
  obtain ⟨buf', hrun, hstr⟩ := @utoa_eq 10 (by decide) (by decide) (BitVec.ofNat 32 r) buf
  have hval : (BitVec.ofNat 32 r).toNat = r := by
    rw [BitVec.toNat_ofNat]
    omega
  rw [hval] at hstr
  have hlen : (numeral 10 r).length ≤ 10 := length_numeral_le (by decide) (by decide) (hr.trans (by decide))
  rw [hrun k hk, Option.map_some, List.nil_append, hstr.cstr]
  · rfl
  · rw [List.length_map]
    exact hlen.trans (by decide)

theorem cmdCalc_div (name more : List Byte) (x y : List Byte) (hy : atoi y ≠ 0) (k : ℕ) (buf : Buffer) :
    cmdCalc k buf [name, x, CalcOp.div.char :: more, y] = some [] := by
  have hswitch : calcSwitch CalcOp.div.char (atoi x) (atoi y) = ([], none) := by
    show (if atoi y ≠ 0 then [] else text "Division by zero!\n", none) = ([], none)
    rw [if_pos hy]
  rw [cmdCalc, List.headD_cons, hswitch]

/-- **`calc` prints every result between 0 and `2 ^ 31 - 1` if and only if** the operator is not `/`. -/
theorem cmdCalc_prints_iff (buf : Buffer) (name more : List Byte) (has : ∀ d ∈ as, d < 10)
    (hbs : ∀ d ∈ bs, d < 10)
    (hb : value 10 bs < 2 ^ 31) (hr : op.exact (value 10 as) (value 10 bs) = some (r : ℤ))
    (hlt : r < 2 ^ 31) :
    CalcPrints buf [name, as.map digitChar, op.char :: more, bs.map digitChar] r ↔ op ≠ .div := by
  constructor
  · rintro ⟨k, hk⟩ rfl
    have hy : atoi (bs.map digitChar) ≠ 0 := by
      rw [atoi_digits hbs]
      intro h0
      have hzero : value 10 bs = 0 := by
        have := congrArg BitVec.toNat h0
        rwa [BitVec.toNat_ofNat, Nat.mod_eq_of_lt (hb.trans (by decide))] at this
      rw [CalcOp.exact, if_pos hzero] at hr
      cases hr
    have hnil := (hk k le_rfl).symm.trans (cmdCalc_div name more _ _ hy k buf)
    exact absurd (Option.some.inj hnil) (List.append_ne_nil_of_right_ne_nil _ (by decide))
  · intro hop
    refine ⟨33, fun j hj => ?_⟩
    rw [cmdCalc, List.headD_cons, atoi_digits has, atoi_digits hbs, calcSwitch_exact hop hr]
    exact utoa_prints hlt buf hj

theorem cmdCalc_prints_sub : CalcPrints (fun _ => 0xFF) [text "calc", text "50", text "-", text "8"] 42 :=
  (@cmdCalc_prints_iff .sub [5, 0] [8] 42 (fun _ => 0xFF) (text "calc") [] (by decide) (by decide) (by decide)
    (by decide) (by decide)).mpr (by decide)

/-- `6 / 3` prints nothing. -/
theorem not_cmdCalc_prints : ¬ ∀ (op : CalcOp) (as bs : List ℕ) (r : ℕ) (buf : Buffer) (name : List Byte),
    (∀ d ∈ as, d < 10) → (∀ d ∈ bs, d < 10) → value 10 as < 2 ^ 31 → value 10 bs < 2 ^ 31 →
    op.exact (value 10 as) (value 10 bs) = some (r : ℤ) → r < 2 ^ 31 →
    CalcPrints buf [name, as.map digitChar, [op.char], bs.map digitChar] r := by
  intro hall
  obtain ⟨k, hk⟩ :=
    hall .div [6] [3] 2 (fun _ => 0) (text "calc") (by decide) (by decide) (by decide) (by decide)
    (by decide) (by decide)
  have hnil := (hk k le_rfl).symm.trans (cmdCalc_div _ _ _ _ (by decide) k _)
  exact absurd (Option.some.inj hnil) (by decide)

end SpatulaOS.Shell
