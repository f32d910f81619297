import SpatulaOS.Drivers.Keyboard
import SpatulaOS.Lib.History

/-!
# When the keyboard reports input

`keyboard_has_input` compares the head with the tail. To say what waits, the runs of the
handler and the reader are recorded with the place in the sequence of decoded characters
of each one in the buffer, of the one that the reader holds, and of the last one that was
delivered. The head and the tail are then the numbers of characters up to the last
received and the last delivered one, modulo 256. So input is reported unless the number of
characters that wait is a multiple of 256 (`hasInput_iff_waiting`).
-/

namespace SpatulaOS.Drivers

open ByteMemory OverwritingRing Runs

/-- The places of characters among the decoded ones. -/
structure Places where
  /-- The place of the character in each slot of the buffer. -/
  slot : ℕ → ℕ
  /-- The place of the character that the reader holds. -/
  held : ℕ
  /-- The number of characters up to the last one delivered. -/
  seen : ℕ

/-- Nothing is received yet. -/
def Places.start : Places := ⟨fun _ => 0, 0, 0⟩

/-- The places after a step. -/
def Places.next (s : Input) (h : Places) (o : InputOp) (_ : Input) : Places :=
  match o with
  | .irq scancode =>
    match decoded scancode with
    | none => h
    | some _ => { h with slot := Function.update h.slot s.keyboard.bufferHead.toNat s.received.length }
  | .test => h
  | .load => { h with held := h.slot s.keyboard.bufferTail.toNat }
  | .finish => { h with seen := h.held + 1 }

/-- The handler and the reader, with the places of the characters. -/
def placesMachine : Machine (Input × Places) InputOp := inputMachine.record .start Places.next

variable {t t' : Input × Places} {o : InputOp}

/-- The number of characters received behind the last one that was delivered. -/
def waiting (t : Input × Places) : ℕ := t.1.received.length - t.2.seen

/-- The ring with the place of each character beside it. -/
def placedRing (t : Input × Places) : Ring (Byte × ℕ) KEYBOARD_BUFFER_SIZE :=
  ⟨fun i => (t.1.keyboard.buffer i, t.2.slot i), t.1.keyboard.bufferHead.toNat, t.1.keyboard.bufferTail.toNat,
    t.1.keyboard.head_lt, t.1.keyboard.tail_lt⟩

/-! ### The places are right -/

/-- The characters are at their places: those in the buffer, the one that the reader holds, and
the last one that was delivered. -/
structure PlacesInv (t : Input × Places) : Prop where
  ring : (placedRing t).Holds t.1.received.zipIdx t.2.seen
  tested : t.1.reader = .tested → t.2.seen < t.1.received.length
  loaded : ∀ c, t.1.reader = .loaded c →
    t.2.held < t.1.received.zipIdx.length ∧
      t.2.held % KEYBOARD_BUFFER_SIZE = t.2.seen % KEYBOARD_BUFFER_SIZE ∧
      t.1.received[t.2.held]? = some c
  last : ∀ c, t.1.delivered.getLast? = some c → ∃ k, t.2.seen = k + 1 ∧ t.1.received[k]? = some c

theorem PlacesInv.seen_le (hi : PlacesInv t) : t.2.seen ≤ t.1.received.length := by
  have hle := hi.ring.le
  rwa [List.length_zipIdx] at hle

/-- The driver's ring and the one with the places report the same. -/
theorem hasInput_placedRing (t : Input × Places) :
    keyboardHasInput t.1.keyboard = true ↔ (placedRing t).head ≠ (placedRing t).tail := hasInput_iff

theorem getElem?_received {l : List Byte} {k : ℕ} {c : Byte} (h : l[k]? = some c) (scancode : Byte) :
    (l ++ (decoded scancode).toList)[k]? = some c := by
  rw [List.getElem?_append_left (List.getElem?_eq_some_iff.mp h).1]
  exact h

theorem holds_placed_irq (s : Input) (h : Places) (scancode : Byte) {s' : Input}
    (hs : s.exec (.irq scancode) = some s') (hr : (placedRing (s, h)).Holds s.received.zipIdx h.seen) :
    (placedRing (s', Places.next s h (.irq scancode) s')).Holds s'.received.zipIdx h.seen := by
  obtain rfl := Option.some.inj hs
  have hring := ring_irqHandler s.keyboard scancode
  dsimp only [Places.next]
  cases hd : decoded scancode with
  | none =>
    rw [hd, Option.elim_none] at hring
    obtain ⟨hbuf, hhead, htail⟩ := Ring.mk.inj hring
    dsimp only
    rw [Option.toList_none, List.append_nil]
    unfold placedRing
    simp only [hbuf, hhead, htail]
    exact hr
  | some c =>
    rw [hd, Option.elim_some] at hring
    obtain ⟨hbuf, hhead, htail⟩ := Ring.mk.inj hring
    dsimp only
    rw [Option.toList_some, List.zipIdx_append, List.zipIdx_singleton, Nat.zero_add]
    have hupdate : (keyboardIrqHandler s.keyboard scancode).buffer =
        Function.update s.keyboard.buffer s.keyboard.bufferHead.toNat c := hbuf
    convert hr.push (c, s.received.length) using 1
    unfold placedRing Ring.push
    simp only [hupdate, hhead, htail]
    congr 1
    funext i
    by_cases hih : i = s.keyboard.bufferHead.toNat
    · rw [hih, Function.update_self, Function.update_self, Function.update_self]
    · rw [Function.update_of_ne hih, Function.update_of_ne hih, Function.update_of_ne hih]

theorem PlacesInv.init : PlacesInv (.start, .start) :=
  ⟨⟨rfl, rfl, le_rfl, fun _ hk => absurd hk (Nat.not_lt_zero _)⟩, fun h => (by cases h),
    fun _ h => (by cases h),
    fun _ h => (by cases h)⟩

/-- An interrupt changes neither the place of the character held nor that of the last one delivered. -/
theorem places_irq (s s' : Input) (h : Places) (scancode : Byte) :
    (Places.next s h (.irq scancode) s').held = h.held ∧
      (Places.next s h (.irq scancode) s').seen = h.seen := by
  dsimp only [Places.next]
  cases decoded scancode with
  | none => exact ⟨rfl, rfl⟩
  | some c => exact ⟨rfl, rfl⟩

/-- The reader moves the tail behind the character that it holds. -/
theorem placedRing_finish (s : Input) (h : Places) (d : List Byte) :
    placedRing (⟨s.keyboard.moveTail, .idle, s.received, d⟩, { h with seen := h.held + 1 }) =
      (placedRing (s, h)).advance := by
  unfold placedRing Ring.advance Keyboard.moveTail
  simp only [toNat_next]

/-- Every step keeps the places right. -/
theorem PlacesInv.step {s s' : Input} {h : Places} (hi : PlacesInv (s, h)) (hs : s.exec o = some s') :
    PlacesInv (s', Places.next s h o s') := by
  cases o with
  | irq scancode =>
    have hring := holds_placed_irq s h scancode hs hi.ring
    obtain ⟨hheld, hseen⟩ := places_irq s s' h scancode
    obtain rfl := Option.some.inj hs
    refine ⟨hseen ▸ hring, fun ht => ?_, fun c hc => ?_, fun c hc => ?_⟩
    · have hlt := hi.tested ht
      rw [hseen, List.length_append]
      exact Nat.lt_add_right _ hlt
    · obtain ⟨hk, hmod, hget⟩ := hi.loaded c hc
      rw [List.length_zipIdx] at hk
      rw [hheld, hseen, List.length_zipIdx, List.length_append]
      exact ⟨Nat.lt_add_right _ hk, hmod, getElem?_received hget scancode⟩
    · obtain ⟨k, hk, hget⟩ := hi.last c hc
      exact ⟨k, hseen.trans hk, getElem?_received hget scancode⟩
  | test =>
    obtain ⟨-, rfl⟩ := exec_test hs
    refine ⟨hi.ring, fun ht => ?_, fun c h => absurd h (ne_loaded _ c), hi.last⟩
    by_cases hin : keyboardHasInput s.keyboard = true
    · have hlt := hi.ring.lt ((hasInput_placedRing (s, h)).mp hin)
      rwa [List.length_zipIdx] at hlt
    · dsimp only at ht
      rw [if_neg hin] at ht
      cases ht
  | load =>
    obtain ⟨hr, rfl⟩ := exec_load hs
    obtain ⟨k, hk, -, hmod, hslot, -⟩ := hi.ring.read (by rw [List.length_zipIdx]; exact hi.tested hr)
    refine ⟨hi.ring, fun ht => (by cases ht), fun c hc => ?_, hi.last⟩
    obtain rfl := Reader.loaded.inj hc
    -- the slot has a character that was received, beside its place
    rw [List.getElem_zipIdx, Nat.zero_add] at hslot
    obtain ⟨hbuf, hplace⟩ : s.keyboard.buffer s.keyboard.bufferTail.toNat = _ ∧
        h.slot s.keyboard.bufferTail.toNat = k := Prod.mk.inj hslot
    dsimp only [Places.next]
    rw [hplace, hbuf]
    exact ⟨hk, hmod, List.getElem?_eq_getElem (by rwa [List.length_zipIdx] at hk)⟩
  | finish =>
    obtain ⟨c, hr, rfl⟩ := exec_finish hs
    obtain ⟨hk, hmod, hc⟩ := hi.loaded c hr
    refine ⟨?_, fun ht => (by cases ht), fun c hc => (by cases hc), fun d hd => ⟨h.held, rfl, ?_⟩⟩
    · dsimp only [Places.next]
      rw [placedRing_finish]
      exact hi.ring.advance hk hmod
    · dsimp only at hd
      rw [List.getLast?_concat] at hd
      obtain rfl := Option.some.inj hd
      exact hc

theorem placesInv (ht : Reach placesMachine (fun _ _ => True) t) : PlacesInv t := by
  refine ht.invariant (I := PlacesInv) ?_ ?_
  · rintro ⟨s, h⟩ ⟨hs, hh⟩
    obtain rfl : s = .start := hs
    obtain rfl : h = .start := hh
    exact .init
  · rintro ⟨s, h⟩ o ⟨s', h'⟩ hi - ⟨hs, hh⟩
    obtain rfl : h' = Places.next s h o s' := hh
    exact hi.step hs

/-! ### Input is reported -/

/-- **In every run of the handler and the reader, input is reported while characters wait exactly
unless their number is a multiple of 256.** -/
theorem hasInput_iff_waiting (ht : Reach placesMachine (fun _ _ => True) t) :
    (0 < waiting t → keyboardHasInput t.1.keyboard = true) ↔
      ¬ (0 < waiting t ∧ KEYBOARD_BUFFER_SIZE ∣ waiting t) := by
  have hi := placesInv ht
  have hle := hi.seen_le
  have hhead := hi.ring.head
  rw [List.length_zipIdx] at hhead
  rw [hasInput_placedRing, hhead, hi.ring.tail, not_and]
  refine imp_congr_right fun _ => not_congr ?_
  rw [eq_comm, waiting]
  exact Nat.modEq_iff_dvd' hle

theorem exists_places_reach {α : Type*} (os : List InputOp) (f : Input × Places → α) (b : α)
    (h : (exec (recordExec Input.exec Places.next) (.start, .start) os).map f = some b) :
    ∃ t, Reach placesMachine (fun _ _ => True) t ∧ f t = b := by
  obtain ⟨t, ht, rfl⟩ := Option.map_eq_some_iff.mp h
  have hstart : Reach placesMachine (fun _ _ => True) (Input.start, Places.start) := .start ⟨rfl, rfl⟩
  exact ⟨t, hstart.exec (fun _ _ _ h => recordExec_step (fun _ _ _ h => h) h) ht, rfl⟩

/-- The letter a is typed twice and one character is read: one waits. -/
theorem hasInput_one_waiting : ∃ t, Reach placesMachine (fun _ _ => True) t ∧ waiting t = 1 ∧
    keyboardHasInput t.1.keyboard = true := by
  obtain ⟨t, ht, hw⟩ :=
    exists_places_reach (List.replicate 2 (.irq 0x1E) ++ [.test, .load, .finish]) waiting 1
    (by decide +kernel)
  refine ⟨t, ht, hw, (hasInput_iff_waiting ht).mpr ?_ (by rw [hw]; decide)⟩
  rw [hw]
  decide

/-- It is typed 256 times: all of them wait, and the buffer is reported empty. -/
theorem not_hasInput_of_waiting : ¬ ∀ t, Reach placesMachine (fun _ _ => True) t → 0 < waiting t →
    keyboardHasInput t.1.keyboard = true := by
  intro hall
  obtain ⟨t, ht, hf⟩ := exists_places_reach (List.replicate 256 (.irq 0x1E))
    (fun t => (waiting t, keyboardHasInput t.1.keyboard)) (256, false) (by decide +kernel)
  obtain ⟨hw, hin⟩ := Prod.mk.inj hf
  have htrue := hall t ht (by rw [hw]; decide)
  rw [hin] at htrue
  cases htrue

end SpatulaOS.Drivers
