import Mathlib.Logic.Function.Iterate
import Mathlib.Tactic.NormNum
import SpatulaOS.Lib.Memory
import SpatulaOS.Lib.Prescaler

/-!
# The clock

The counters of `core/time.c`. The ticks are counted in 32 bits, and a second is added at every multiple of
`100` that the counter comes to. `2 ^ 32` is not such a multiple: whenever the counter wraps round to `0` a
second is added that is not over yet, and what the wraps have added is not taken back (`secondsAhead`). The
seconds are right for as long as that is less than one, and again when it is a multiple of `2 ^ 32`
(`timerGetSeconds_eq_iff`).
-/

namespace SpatulaOS.Core

open Prescaler ByteMemory

/-- The static variables of `core/time.c`. -/
structure Timer where
  /-- `ticks` -/
  ticks : Word
  /-- `seconds` -/
  seconds : Word

/-- `timer_tick`. -/
def timerTick (t : Timer) : Timer :=
  let t := { t with ticks := t.ticks + 1 }
  if t.ticks % 100 = 0 then { t with seconds := t.seconds + 1 } else t

/-- `timer_get_ticks`. -/
def timerGetTicks (t : Timer) : Word := t.ticks

/-- `timer_get_seconds`. -/
def timerGetSeconds (t : Timer) : Word := t.seconds

/-- The variables as they are initialised. -/
def Timer.boot : Timer := ⟨0, 0⟩

/-- The variables after `n` calls of `timer_tick`. -/
def Timer.after (n : ℕ) : Timer := timerTick^[n] .boot

/-- How many seconds too many the ticks have made in `n` calls: each of the `n / 2 ^ 32` rounds
leaves `4` ticks over. -/
def secondsAhead (n : ℕ) : ℕ := (4 * (n / 2 ^ 32) + (99 - n % 2 ^ 32 % 100)) / 100

variable {n : ℕ}

theorem Timer.after_succ (n : ℕ) : Timer.after (n + 1) = timerTick (.after n) :=
  Function.iterate_succ_apply' timerTick n .boot

/-- What one tick does to counters that hold `n` and `m`, modulo `2 ^ 32`. -/
theorem timerTick_ofNat (n m : ℕ) : timerTick ⟨BitVec.ofNat 32 n, BitVec.ofNat 32 m⟩ =
    ⟨BitVec.ofNat 32 (n + 1), BitVec.ofNat 32 (m + if (n + 1) % 2 ^ 32 % 100 = 0 then 1 else 0)⟩ := by
  have htest : BitVec.ofNat 32 (n + 1) % 100 = 0 ↔ (n + 1) % 2 ^ 32 % 100 = 0 := by
    rw [← BitVec.toNat_inj, BitVec.toNat_umod, BitVec.toNat_ofNat]
    rfl
  unfold timerTick
  simp only [BitVec.ofNat_add] at htest ⊢
  split_ifs with h h' h'
  · rfl
  · exact absurd (htest.mp h) h'
  · exact absurd (htest.mpr h') h
  · simp

/-- The counters after any number of ticks. -/
theorem Timer.after_eq (n : ℕ) :
    Timer.after n = ⟨BitVec.ofNat 32 n, BitVec.ofNat 32 (carries (2 ^ 32) 100 n)⟩ := by
  induction n with
  | zero => rfl
  | succ n ih => rw [after_succ, ih, timerTick_ofNat, carries]

theorem surplus_eq (n : ℕ) : surplus (2 ^ 32) 100 n = secondsAhead n := by
  unfold surplus secondsAhead shortfall
  norm_num
  omega

theorem timerGetSeconds_after (n : ℕ) :
    timerGetSeconds (.after n) = BitVec.ofNat 32 (n / 100) + BitVec.ofNat 32 (secondsAhead n) := by
  have hcarries : carries (2 ^ 32) 100 n = n / 100 + secondsAhead n := by
    rw [carries_eq (by norm_num) (by norm_num), surplus_eq]
  rw [timerGetSeconds, Timer.after_eq, hcarries, BitVec.ofNat_add]

/-- **The seconds are those that have passed if and only if** what they are ahead is a multiple of
`2 ^ 32`. -/
theorem timerGetSeconds_eq_iff (n : ℕ) :
    timerGetSeconds (.after n) = BitVec.ofNat 32 (n / 100) ↔ 2 ^ 32 ∣ secondsAhead n := by
  rw [timerGetSeconds_after, BitVec.add_right_eq_self, ← BitVec.toNat_inj, BitVec.toNat_ofNat,
    Nat.dvd_iff_mod_eq_zero]
  rfl

/-- Nothing is ahead until the part of a second that has passed is less than what the wraps have left over. -/
theorem secondsAhead_eq_zero_iff : secondsAhead n = 0 ↔ 4 * (n / 2 ^ 32) ≤ n % 2 ^ 32 % 100 := by
  unfold secondsAhead
  omega

/-- The seconds are right in the first `2 ^ 32` ticks. -/
theorem timerGetSeconds_first (h : n < 2 ^ 32) : timerGetSeconds (.after n) = BitVec.ofNat 32 (n / 100) := by
  rw [timerGetSeconds_after, secondsAhead_eq_zero_iff.mpr (by omega)]
  exact BitVec.add_zero _

/-- When the ticks wrap round for the first time, a second is added `4` ticks too early. -/
theorem timerGetSeconds_wrapped : timerGetSeconds (.after (2 ^ 32)) = 42949673 ∧
    timerGetSeconds (.after (2 ^ 32)) ≠ BitVec.ofNat 32 (2 ^ 32 / 100) := by
  rw [timerGetSeconds_after]
  decide

end SpatulaOS.Core
