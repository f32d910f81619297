import SpatulaOS.Lib.Memory
import SpatulaOS.Lib.Ring
import SpatulaOS.Lib.Runs

/-!
# The keyboard driver

The interrupt handler of `drivers/keyboard.c` decodes a scancode and stores the character in
a ring of 256 entries; `keyboard_getchar` takes one out. The handler does not look whether
the ring is full. What the handler sends to the interrupt controller is left out.

An interrupt may come at any point of `keyboard_getchar`, so its run is split into the test
for input, the read of the buffer and the update of the tail (`Input.exec`). The
characters that come out are a part of the decoded ones, in order (`Input.Inv`), and all of
them if never more than 255 wait (`Input.Lossless`).
-/

namespace SpatulaOS.Drivers

open ByteMemory OverwritingRing Runs

/-- `KEYBOARD_BUFFER_SIZE`. -/
abbrev KEYBOARD_BUFFER_SIZE : ℕ := 256

/-- The codes of the characters of a string. -/
def chars (s : String) : List Byte := s.toList.map fun c => BitVec.ofNat 8 c.toNat

/-- `keymap`, up to its last character; the entries behind it are zero. -/
def keymap : List Byte :=
  [0, 27] ++ chars "1234567890-=" ++ [0x08] ++
  [0x09] ++ chars "qwertyuiop[]" ++ [0x0A] ++
  [0] ++ chars "asdfghjkl;" ++ [0x27, 0x60] ++
  [0] ++ chars "\\zxcvbnm,./" ++ [0] ++
  chars "*" ++ [0] ++ chars " "

/-- The static variables of the driver; the two indices stay inside the buffer. -/
structure Keyboard where
  /-- `keyboard_buffer` -/
  buffer : ℕ → Byte
  /-- `buffer_head` -/
  bufferHead : Word
  /-- `buffer_tail` -/
  bufferTail : Word
  head_lt : bufferHead.toNat < KEYBOARD_BUFFER_SIZE
  tail_lt : bufferTail.toNat < KEYBOARD_BUFFER_SIZE

/-- The driver when the kernel starts. -/
def Keyboard.start : Keyboard := ⟨fun _ => 0, 0, 0, by decide, by decide⟩

/-- `keyboard_scancode_to_ascii`. -/
def keyboardScancodeToAscii (scancode : Byte) : Byte :=
  if scancode < 128 then keymap.getD scancode.toNat 0 else 0

theorem next_lt (i : Word) : ((i + 1) % 256).toNat < KEYBOARD_BUFFER_SIZE := by
  rw [BitVec.toNat_umod]
  exact Nat.mod_lt _ (by decide)

/-- `keyboard_irq_handler`, with the scancode that it reads. -/
def keyboardIrqHandler (k : Keyboard) (scancode : Byte) : Keyboard :=
  if scancode &&& 0x80 ≠ 0 then k
  else
    let c := keyboardScancodeToAscii scancode
    if c ≠ 0 then
      { k with
        buffer := Function.update k.buffer k.bufferHead.toNat c
        bufferHead := (k.bufferHead + 1) % 256
        head_lt := next_lt k.bufferHead }
    else k

/-- `keyboard_has_input`. -/
def keyboardHasInput (k : Keyboard) : Bool := k.bufferHead ≠ k.bufferTail

/-- The end of `keyboard_getchar`: the tail moves forward. -/
def Keyboard.moveTail (k : Keyboard) : Keyboard :=
  { k with
    bufferTail := (k.bufferTail + 1) % 256
    tail_lt := next_lt k.bufferTail }

/-- `keyboard_getchar`, when no interrupt comes in between. -/
def keyboardGetchar (k : Keyboard) : Byte × Keyboard :=
  if ¬ keyboardHasInput k then (0, k)
  else
    let c := k.buffer k.bufferTail.toNat
    (c, k.moveTail)

/-! ### Interleavings -/

/-- Where `keyboard_getchar` is. -/
inductive Reader where
  /-- It is not running. -/
  | idle
  /-- It found that there is input. -/
  | tested
  /-- It read `c` from the buffer. -/
  | loaded (c : Byte)

/-- The driver and its reader, with the characters that the handler decoded and those that
`keyboard_getchar` returned, in order. -/
structure Input where
  /-- The driver. -/
  keyboard : Keyboard
  /-- The reader. -/
  reader : Reader
  /-- The characters other than zero that the handler decoded. -/
  received : List Byte
  /-- The characters that `keyboard_getchar` took out of the buffer and returned. -/
  delivered : List Byte

/-- The driver and its reader when the kernel starts. -/
def Input.start : Input := ⟨.start, .idle, [], []⟩

/-- What happens next. -/
inductive InputOp where
  /-- An interrupt with a scancode. -/
  | irq (scancode : Byte)
  /-- `keyboard_getchar` is called and tests for input. -/
  | test
  /-- It reads the buffer. -/
  | load
  /-- It moves the tail forward and returns. -/
  | finish

/-- The character that the handler decodes, if it stores one. -/
def decoded (scancode : Byte) : Option Byte :=
  if scancode &&& 0x80 ≠ 0 then none
  else if keyboardScancodeToAscii scancode ≠ 0 then some (keyboardScancodeToAscii scancode) else none

example : decoded 0x1E = some 0x61 ∧ decoded 0x9E = none := by decide

/-- One step of the handler or the reader. A call that finds no input returns zero at once, which
delivers nothing. -/
def Input.exec (s : Input) : InputOp → Option Input
  | .irq scancode => some
    { s with
      keyboard := keyboardIrqHandler s.keyboard scancode
      received := s.received ++ (decoded scancode).toList }
  | .test =>
    match s.reader with
    | .idle => some { s with reader := if keyboardHasInput s.keyboard then .tested else .idle }
    | _ => none
  | .load =>
    match s.reader with
    | .tested => some { s with reader := .loaded (s.keyboard.buffer s.keyboard.bufferTail.toNat) }
    | _ => none
  | .finish =>
    match s.reader with
    | .loaded c => some ⟨s.keyboard.moveTail, .idle, s.received, s.delivered ++ [c]⟩
    | _ => none

/-- The handler and the reader, in any order of steps. -/
def inputMachine : Machine Input InputOp where
  start s := s = .start
  step s o s' := s.exec o = some s'

/-- The number of decoded characters that wait. -/
def Input.undelivered (s : Input) : ℕ := s.received.length - s.delivered.length

variable {k : Keyboard} {s s' : Input} {o : InputOp} {p : ℕ} {c scancode : Byte}

/-! ### The driver's ring -/

/-- The buffer and its indices as a ring. -/
def Keyboard.ring (k : Keyboard) : Ring Byte KEYBOARD_BUFFER_SIZE :=
  ⟨k.buffer, k.bufferHead.toNat, k.bufferTail.toNat, k.head_lt, k.tail_lt⟩

/-- What waits in the buffer. -/
def Keyboard.buffered (k : Keyboard) : List Byte := k.ring.contents

theorem toNat_next (i : Word) :
    ((i + 1) % 256).toNat = (i.toNat + 1) % KEYBOARD_BUFFER_SIZE := by
  unfold KEYBOARD_BUFFER_SIZE
  rw [BitVec.toNat_umod, BitVec.toNat_add, show (1 : Word).toNat = 1 from rfl,
    show (256 : Word).toNat = 256 from rfl]
  omega

theorem ring_moveTail (k : Keyboard) : k.moveTail.ring = k.ring.advance := by
  unfold Keyboard.ring Keyboard.moveTail Ring.advance
  simp only [toNat_next]

theorem ring_irqHandler (k : Keyboard) (scancode : Byte) : (keyboardIrqHandler k scancode).ring =
    (decoded scancode).elim k.ring k.ring.push := by
  unfold keyboardIrqHandler decoded
  split_ifs with h1 h2
  · rfl
  · dsimp only
    rw [if_pos h2, Option.elim_some]
    unfold Keyboard.ring Ring.push
    simp only [toNat_next]
  · dsimp only
    rw [if_neg h2, Option.elim_none]

/-- The ring holds what was received, also after an interrupt. -/
theorem holds_irq {l : List Byte} (h : k.ring.Holds l p) (scancode : Byte) :
    (keyboardIrqHandler k scancode).ring.Holds (l ++ (decoded scancode).toList) p := by
  rw [ring_irqHandler]
  cases decoded scancode with
  | none =>
    rw [Option.toList_none, List.append_nil]
    exact h
  | some c => exact h.push c

theorem hasInput_iff : keyboardHasInput k = true ↔ k.ring.head ≠ k.ring.tail := by
  unfold keyboardHasInput
  rw [decide_eq_true_eq, ne_eq, ne_eq, ← BitVec.toNat_inj]
  rfl

/-- The steps of a call without an interrupt are a call of `keyboard_getchar`. -/
theorem exec_getchar (hr : s.reader = .idle) (hin : keyboardHasInput s.keyboard = true) :
    exec Input.exec s [.test, .load, .finish] =
      some { s with
        keyboard := (keyboardGetchar s.keyboard).2
        delivered := s.delivered ++ [(keyboardGetchar s.keyboard).1] } := by
  obtain ⟨k, r, rec, del⟩ := s
  cases hr
  simp [exec, Input.exec, keyboardGetchar, hin]

theorem exec_test (hs : s.exec .test = some s') : s.reader = .idle ∧
    s' = { s with reader := if keyboardHasInput s.keyboard then .tested else .idle } := by
  rw [Input.exec] at hs
  split at hs
  next hr => exact ⟨hr, (Option.some.inj hs).symm⟩
  next => cases hs

theorem exec_load (hs : s.exec .load = some s') : s.reader = .tested ∧
    s' = { s with reader := .loaded (s.keyboard.buffer s.keyboard.bufferTail.toNat) } := by
  rw [Input.exec] at hs
  split at hs
  next hr => exact ⟨hr, (Option.some.inj hs).symm⟩
  next => cases hs

theorem exec_finish (hs : s.exec .finish = some s') : ∃ c, s.reader = .loaded c ∧
    s' = ⟨s.keyboard.moveTail, .idle, s.received, s.delivered ++ [c]⟩ := by
  rw [Input.exec] at hs
  split at hs
  next c hr => exact ⟨c, hr, (Option.some.inj hs).symm⟩
  next => cases hs

theorem lt_of_tested {l : List Byte} (h : k.ring.Holds l p)
    (ht : (if keyboardHasInput k then Reader.tested else .idle) = .tested) : p < l.length := by
  by_cases hin : keyboardHasInput k = true
  · exact h.lt (hasInput_iff.mp hin)
  · rw [if_neg hin] at ht
    cases ht

theorem ne_loaded (k : Keyboard) (c : Byte) :
    (if keyboardHasInput k then Reader.tested else .idle) ≠ .loaded c := by
  split_ifs <;> intro h <;> cases h

/-! ### Nothing comes out of order -/

/-- The characters delivered are among the first `p` that were received, in their order, and
the one that the reader holds comes after them. -/
structure Input.Inv (s : Input) (p : ℕ) : Prop where
  ring : s.keyboard.ring.Holds s.received p
  delivered : s.delivered.Sublist (s.received.take p)
  tested : s.reader = .tested → p < s.received.length
  loaded : ∀ c, s.reader = .loaded c → ∃ k, ∃ hk : k < s.received.length,
    p ≤ k ∧ k % KEYBOARD_BUFFER_SIZE = p % KEYBOARD_BUFFER_SIZE ∧ c = s.received[k]

theorem holds_start : Keyboard.start.ring.Holds [] 0 :=
  ⟨rfl, rfl, le_rfl, fun _ hk => absurd hk (Nat.not_lt_zero _)⟩

theorem Input.Inv.init : Input.start.Inv 0 :=
  ⟨holds_start, List.Sublist.refl _, fun h => (by cases h), fun _ h => (by cases h)⟩

/-- Every step keeps the invariant. -/
theorem Input.Inv.step (hi : s.Inv p) (hs : s.exec o = some s') : ∃ p', s'.Inv p' := by
  cases o with
  | irq scancode =>
    obtain rfl := Option.some.inj hs
    refine ⟨p, holds_irq hi.ring scancode, ?_, fun h => ?_, fun c h => ?_⟩
    · show s.delivered.Sublist ((s.received ++ _).take p)
      rw [List.take_append_of_le_length hi.ring.le]
      exact hi.delivered
    · rw [List.length_append]
      exact Nat.lt_add_right _ (hi.tested h)
    · obtain ⟨k, hk, hpk, hmod, hc⟩ := hi.loaded c h
      refine ⟨k, ?_, hpk, hmod, ?_⟩
      · rw [List.length_append]
        exact Nat.lt_add_right _ hk
      · rw [List.getElem_append_left hk]
        exact hc
  | test =>
    obtain ⟨-, rfl⟩ := exec_test hs
    exact ⟨p, hi.ring, hi.delivered, lt_of_tested hi.ring, fun c h => absurd h (ne_loaded _ c)⟩
  | load =>
    obtain ⟨hr, rfl⟩ := exec_load hs
    obtain ⟨k, hk, hpk, hmod, hslot, -⟩ := hi.ring.read (hi.tested hr)
    refine ⟨p, hi.ring, hi.delivered, fun h => (by cases h), fun c h => ?_⟩
    obtain rfl := Reader.loaded.inj h
    exact ⟨k, hk, hpk, hmod, hslot⟩
  | finish =>
    obtain ⟨c, hr, rfl⟩ := exec_finish hs
    obtain ⟨k, hk, hpk, hmod, rfl⟩ := hi.loaded c hr
    refine ⟨k + 1, ?_, sublist_take_succ hi.delivered hpk hk, fun h => (by cases h), fun c h => (by cases h)⟩
    show s.keyboard.moveTail.ring.Holds s.received (k + 1)
    rw [ring_moveTail]
    exact hi.ring.advance hk hmod

/-! ### Nothing is lost -/

/-- The characters delivered are the first ones received, and the reader holds the next one. -/
structure Input.Lossless (s : Input) : Prop where
  ring : s.keyboard.ring.Holds s.received s.delivered.length
  delivered : s.delivered = s.received.take s.delivered.length
  tested : s.reader = .tested → s.delivered.length < s.received.length
  loaded : ∀ c, s.reader = .loaded c → s.received[s.delivered.length]? = some c

theorem Input.Lossless.init : Input.start.Lossless :=
  ⟨holds_start, rfl, fun h => (by cases h), fun _ h => (by cases h)⟩

/-- Every step keeps it as long as at most 255 characters wait. -/
theorem Input.Lossless.step (hi : s.Lossless) (hu : s.undelivered ≤ 255) (hs : s.exec o = some s') :
    s'.Lossless := by
  have hle := hi.ring.le
  cases o with
  | irq scancode =>
    obtain rfl := Option.some.inj hs
    refine ⟨holds_irq hi.ring scancode, ?_, fun h => ?_, fun c h => ?_⟩
    · show s.delivered = (s.received ++ _).take s.delivered.length
      rw [List.take_append_of_le_length hle]
      exact hi.delivered
    · show s.delivered.length < (s.received ++ _).length
      rw [List.length_append]
      exact Nat.lt_add_right _ (hi.tested h)
    · have hc := hi.loaded c h
      rw [List.getElem?_append_left (List.getElem?_eq_some_iff.mp hc).1]
      exact hc
  | test =>
    obtain ⟨-, rfl⟩ := exec_test hs
    exact ⟨hi.ring, hi.delivered, lt_of_tested hi.ring, fun c h => absurd h (ne_loaded _ c)⟩
  | load =>
    obtain ⟨hr, rfl⟩ := exec_load hs
    obtain ⟨k, hk, -, -, hslot, hnext⟩ := hi.ring.read (hi.tested hr)
    refine ⟨hi.ring, hi.delivered, fun h => (by cases h), fun c h => ?_⟩
    obtain rfl := Reader.loaded.inj h
    -- the next character is still there
    have hkp := hnext (by unfold undelivered at hu; unfold KEYBOARD_BUFFER_SIZE; omega)
    subst hkp
    exact (List.getElem?_eq_getElem hk).trans (congrArg some hslot.symm)
  | finish =>
    obtain ⟨c, hr, rfl⟩ := exec_finish hs
    obtain ⟨hlt, hc⟩ := List.getElem?_eq_some_iff.mp (hi.loaded c hr)
    have hlen : (s.delivered ++ [c]).length = s.delivered.length + 1 := by
      rw [List.length_append, List.length_singleton]
    refine ⟨?_, ?_, fun h => (by cases h), fun c h => (by cases h)⟩
    · show s.keyboard.moveTail.ring.Holds s.received (s.delivered ++ [c]).length
      rw [ring_moveTail, hlen]
      exact hi.ring.advance hlt rfl
    · show s.delivered ++ [c] = s.received.take (s.delivered ++ [c]).length
      rw [hlen, List.take_succ_eq_append_getElem hlt, ← hi.delivered, hc]

/-- What is delivered and what waits in the buffer make up what was received. -/
theorem Input.Lossless.append_buffered (hi : s.Lossless) (hu : s.undelivered ≤ 255) :
    s.delivered ++ s.keyboard.buffered = s.received := by
  have hle := hi.ring.le
  have hcontents := hi.ring.contents (by unfold undelivered at hu; unfold KEYBOARD_BUFFER_SIZE; omega)
  rw [Keyboard.buffered, hcontents]
  nth_rewrite 1 [hi.delivered]
  exact List.take_append_drop _ _

/-- **What `keyboard_getchar` delivers**: in every run of the handler and the reader it is a part of
the decoded characters, in order and each at most once; and if never more than 255 wait, it and
the contents of the buffer are all of them. -/
theorem keyboard_delivers :
    (∀ s, Reach inputMachine (fun _ _ => True) s → s.delivered.Sublist s.received) ∧
    ∀ s, Reach inputMachine (fun s _ => s.undelivered ≤ 255) s → s.undelivered ≤ 255 →
      s.delivered ++ s.keyboard.buffered = s.received := by
  constructor
  · intro s hs
    obtain ⟨p, hi⟩ : ∃ p, s.Inv p := by
      refine hs.invariant (I := fun s => ∃ p, s.Inv p) ?_ ?_
      · rintro s rfl
        exact ⟨0, .init⟩
      · exact fun s o s' ⟨p, hi⟩ _ h => hi.step h
    exact hi.delivered.trans (List.take_sublist _ _)
  · intro s hs hu
    have hi : s.Lossless := by
      refine hs.invariant (I := Input.Lossless) ?_ ?_
      · rintro s rfl
        exact .init
      · exact fun s o s' hi hu h => hi.step hu h
    exact hi.append_buffered hu

/-- The ring overflows: the letter a is typed 256 times, then b and c, and one character is read. -/
theorem keyboard_delivers_overflow : ∃ s, Reach inputMachine (fun _ _ => True) s ∧
    s.received = List.replicate 256 0x61 ++ chars "bc" ∧ s.delivered = chars "b" ∧
    s.delivered.Sublist s.received := by
  have hrun : (exec Input.exec .start (List.replicate 256 (.irq 0x1E) ++
      [.irq 0x30, .irq 0x2E, .test, .load, .finish])).map (fun s => (s.received, s.delivered)) =
        some (List.replicate 256 0x61 ++ chars "bc", chars "b") := by
    decide +kernel
  obtain ⟨s, hs, heq⟩ := Option.map_eq_some_iff.mp hrun
  obtain ⟨hrec, hdel⟩ := Prod.mk.inj heq
  have hreach : Reach inputMachine (fun _ _ => True) s := Reach.exec (fun _ _ _ h => h) (.start rfl) hs
  exact ⟨s, hreach, hrec, hdel, keyboard_delivers.1 s hreach⟩

end SpatulaOS.Drivers
