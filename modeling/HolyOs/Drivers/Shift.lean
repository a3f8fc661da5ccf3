import HolyOs.Drivers.Keyboard
import Mathlib.Data.Finset.Basic

/-!
# The shift keys

A keyboard has two shift keys, and the driver keeps one flag for them. The flag says whether the
last byte from either key was a press. Next to it runs the set of held keys; the two tell the
same characters as long as no press follows the release of one shift key while the other one is
held.
-/
namespace HolyOs.Drivers

/-- The events the handler pushes, one for each byte. -/
def ps2kbdEvents : Bool → List UInt8 → List KeyEvent
  | _, [] => []
  | shiftPressed, scancode :: rest =>
    let shiftPressed := ps2kbdShift shiftPressed scancode
    ps2kbdEvent shiftPressed scancode :: ps2kbdEvents shiftPressed rest

/-- The handler, interrupt after interrupt. -/
theorem foldl_ps2kbdHandler (shiftPressed : Bool) (q : InputQueue) (bytes : List UInt8) :
    bytes.foldl (fun s scancode => ps2kbdHandler s.1 s.2 scancode) (shiftPressed, q) =
      (bytes.foldl ps2kbdShift shiftPressed,
        (ps2kbdEvents shiftPressed bytes).foldl inputPushEvent q) := by
  induction bytes generalizing shiftPressed q with
  | nil => rfl
  | cons scancode rest ih => exact ih _ _

/-! ## The keys that are held -/

/-- Below 0x80 a byte is the press of a key, possibly repeated; from 0x80 on it is the release of
the key in the lower seven bits. -/
def holdKey (held : Finset UInt8) (byte : UInt8) : Finset UInt8 :=
  if byte < 0x80 then insert byte held else held.erase (byte &&& 0x7F)

def keysHeld (bytes : List UInt8) : Finset UInt8 := bytes.foldl holdKey ∅

/-- Only keys that are held are released. -/
def Alternating : Finset UInt8 → List UInt8 → Prop
  | _, [] => True
  | held, byte :: rest =>
    (0x80 ≤ byte → byte &&& 0x7F ∈ held) ∧ Alternating (holdKey held byte) rest

def ShiftHeld (held : Finset UInt8) : Prop := 0x2A ∈ held ∨ 0x36 ∈ held

instance (held : Finset UInt8) : Decidable (ShiftHeld held) :=
  inferInstanceAs (Decidable (_ ∨ _))

/-- The event for a byte that leaves these keys held: a press carries the shifted character
exactly when a shift key is held, a release carries none. -/
def typedEvent (held : Finset UInt8) (byte : UInt8) : KeyEvent :=
  if byte < 0x80 then ⟨.keyPressed, byte, keymapToAscii byte (decide (ShiftHeld held))⟩
  else ⟨.keyReleased, byte &&& 0x7F, 0⟩

def typedEvents : Finset UInt8 → List UInt8 → List KeyEvent
  | _, [] => []
  | held, byte :: rest =>
    let held := holdKey held byte
    typedEvent held byte :: typedEvents held rest

/-! ## The condition on the bytes -/

def IsShiftByte (byte : UInt8) : Prop :=
  byte = 0x2A ∨ byte = 0x36 ∨ byte = 0xAA ∨ byte = 0xB6

instance (byte : UInt8) : Decidable (IsShiftByte byte) :=
  inferInstanceAs (Decidable (_ ∨ _))

/-- The last byte from a shift key. -/
def lastShift (bytes : List UInt8) : Option UInt8 := (bytes.filter (IsShiftByte ·)).getLast?

/-- One shift key was released last, and the other one is held. -/
def Shadowed (bytes : List UInt8) : Prop :=
  (lastShift bytes = some 0xAA ∧ 0x36 ∈ keysHeld bytes) ∨
    (lastShift bytes = some 0xB6 ∧ 0x2A ∈ keysHeld bytes)

/-- The key has another character when shifted. -/
def TwoCharacters (code : UInt8) : Prop := keymapToAscii code false ≠ keymapToAscii code true

instance (code : UInt8) : Decidable (TwoCharacters code) := inferInstanceAs (Decidable (_ ≠ _))

/-! ## Bytes -/

theorem forall_byte {P : UInt8 → Prop} (h : ∀ i : Fin 256, P (UInt8.ofNat i)) (byte : UInt8) :
    P byte := by
  simpa using h ⟨byte.toNat, byte.toNat_lt⟩

theorem press_bits {byte : UInt8} (h : byte < 0x80) : byte &&& 0x80 = 0 ∧ byte &&& 0x7F = byte :=
  forall_byte (P := fun byte => byte < 0x80 → byte &&& 0x80 = 0 ∧ byte &&& 0x7F = byte)
    (by decide +kernel) byte h

theorem release_bits {byte : UInt8} (h : ¬ byte < 0x80) : byte &&& 0x80 ≠ 0 :=
  forall_byte (P := fun byte => ¬ byte < 0x80 → byte &&& 0x80 ≠ 0) (by decide +kernel) byte h

/-- The releases of the shift keys. -/
theorem release_shift {byte : UInt8} (h : ¬ byte < 0x80) :
    (byte &&& 0x7F = 0x2A ↔ byte = 0xAA) ∧ (byte &&& 0x7F = 0x36 ↔ byte = 0xB6) :=
  forall_byte (P := fun byte => ¬ byte < 0x80 →
    (byte &&& 0x7F = 0x2A ↔ byte = 0xAA) ∧ (byte &&& 0x7F = 0x36 ↔ byte = 0xB6))
    (by decide +kernel) byte h

theorem mem_holdKey (held : Finset UInt8) {byte : UInt8} (hother : ¬ IsShiftByte byte) :
    (0x2A ∈ holdKey held byte ↔ 0x2A ∈ held) ∧ (0x36 ∈ holdKey held byte ↔ 0x36 ∈ held) := by
  simp only [IsShiftByte, not_or] at hother
  unfold holdKey
  split_ifs with hpress
  · grind
  · have := release_shift hpress
    grind

theorem ps2kbdShift_other {byte : UInt8} (flag : Bool) (hother : ¬ IsShiftByte byte) :
    ps2kbdShift flag byte = flag := by
  unfold ps2kbdShift IsShiftByte at *
  grind

/-! ## The flag and the keys -/

theorem lastShift_concat (bytes : List UInt8) (byte : UInt8) :
    lastShift (bytes ++ [byte]) = if IsShiftByte byte then some byte else lastShift bytes := by
  unfold lastShift
  split_ifs with h <;> simp [h]

theorem keysHeld_concat (bytes : List UInt8) (byte : UInt8) :
    keysHeld (bytes ++ [byte]) = holdKey (keysHeld bytes) byte := by
  simp [keysHeld]

/-- What the last byte from a shift key says about the keys and the flag. -/
inductive ShiftState (bytes : List UInt8) (flag : Bool) : Prop
  | untouched : lastShift bytes = none → flag = false → 0x2A ∉ keysHeld bytes →
      0x36 ∉ keysHeld bytes → ShiftState bytes flag
  | pressed : lastShift bytes = some 0x2A ∨ lastShift bytes = some 0x36 → flag = true →
      ShiftHeld (keysHeld bytes) → ShiftState bytes flag
  | leftReleased : lastShift bytes = some 0xAA → flag = false → 0x2A ∉ keysHeld bytes →
      ShiftState bytes flag
  | rightReleased : lastShift bytes = some 0xB6 → flag = false → 0x36 ∉ keysHeld bytes →
      ShiftState bytes flag

theorem shiftState (bytes : List UInt8) : ShiftState bytes (bytes.foldl ps2kbdShift false) := by
  induction bytes using List.reverseRecOn with
  | nil => exact .untouched rfl rfl (by simp [keysHeld]) (by simp [keysHeld])
  | append_singleton bytes byte ih =>
    rw [List.foldl_append, List.foldl_cons, List.foldl_nil]
    by_cases hshift : IsShiftByte byte
    · have hlast : lastShift (bytes ++ [byte]) = some byte := by
        rw [lastShift_concat, if_pos hshift]
      have hheld := keysHeld_concat bytes byte
      rcases hshift with rfl | rfl | rfl | rfl
      · exact .pressed (.inl hlast) rfl (.inl (by rw [hheld]; exact Finset.mem_insert_self _ _))
      · exact .pressed (.inr hlast) rfl (.inr (by rw [hheld]; exact Finset.mem_insert_self _ _))
      · exact .leftReleased hlast rfl (by rw [hheld]; exact Finset.notMem_erase _ _)
      · exact .rightReleased hlast rfl (by rw [hheld]; exact Finset.notMem_erase _ _)
    · obtain ⟨hleft, hright⟩ := mem_holdKey (keysHeld bytes) hshift
      have hlast : lastShift (bytes ++ [byte]) = lastShift bytes := by
        rw [lastShift_concat, if_neg hshift]
      rw [ps2kbdShift_other _ hshift]
      rw [← keysHeld_concat] at hleft hright
      cases ih with
      | untouched h hf hl hr =>
        exact .untouched (hlast.trans h) hf (mt hleft.mp hl) (mt hright.mp hr)
      | pressed h hf hheld =>
        exact .pressed (hlast ▸ h) hf (hheld.imp hleft.mpr hright.mpr)
      | leftReleased h hf hl => exact .leftReleased (hlast.trans h) hf (mt hleft.mp hl)
      | rightReleased h hf hr => exact .rightReleased (hlast.trans h) hf (mt hright.mp hr)

/-- The flag tells whether a shift key is held, unless one shadows the other. -/
theorem flag_eq_shiftHeld_iff (bytes : List UInt8) :
    bytes.foldl ps2kbdShift false = decide (ShiftHeld (keysHeld bytes)) ↔ ¬ Shadowed bytes := by
  cases shiftState bytes with
  | untouched h hf hl hr => simp [hf, Shadowed, h, ShiftHeld, hl, hr]
  | pressed h hf hheld =>
    have : ¬ Shadowed bytes := by
      rcases h with h | h <;> simp [Shadowed, h]
    simp [hf, hheld, this]
  | leftReleased h hf hl => simp [hf, Shadowed, h, ShiftHeld, hl]
  | rightReleased h hf hr => simp [hf, Shadowed, h, ShiftHeld, hr]

/-- The press of a shift key sets the flag, and the key has no character. -/
theorem shift_press {byte : UInt8} (hpress : byte < 0x80) (hshift : IsShiftByte byte) :
    (byte = 0x2A ∨ byte = 0x36) ∧ ¬ TwoCharacters byte := by
  rcases hshift with rfl | rfl | rfl | rfl
  · exact ⟨.inl rfl, by decide⟩
  · exact ⟨.inr rfl, by decide⟩
  · exact absurd hpress (by decide)
  · exact absurd hpress (by decide)

/-- The event of a byte is the right one when the flag is, or when it does not matter. -/
theorem ps2kbdEvent_eq_iff (flag : Bool) (held : Finset UInt8) (byte : UInt8) :
    ps2kbdEvent (ps2kbdShift flag byte) byte = typedEvent (holdKey held byte) byte ↔
      (byte < 0x80 → TwoCharacters byte → flag = decide (ShiftHeld held)) := by
  by_cases hpress : byte < 0x80
  · obtain ⟨hhigh, hcode⟩ := press_bits hpress
    have hevent : ps2kbdEvent (ps2kbdShift flag byte) byte = typedEvent (holdKey held byte) byte ↔
        keymapToAscii byte (ps2kbdShift flag byte) =
          keymapToAscii byte (decide (ShiftHeld (holdKey held byte))) := by
      simp [ps2kbdEvent, typedEvent, hhigh, hcode, hpress]
    rw [hevent]
    by_cases hshift : IsShiftByte byte
    · obtain ⟨hbyte, hone⟩ := shift_press hpress hshift
      have hheld : ShiftHeld (holdKey held byte) := by
        simp only [ShiftHeld, holdKey, hpress, if_true, Finset.mem_insert]
        grind
      have hset : ps2kbdShift flag byte = true := if_pos hbyte
      simp [hheld, hset, hone]
    · obtain ⟨hleft, hright⟩ := mem_holdKey held hshift
      have hheld : ShiftHeld (holdKey held byte) ↔ ShiftHeld held := or_congr hleft hright
      simp only [ps2kbdShift_other flag hshift, hheld, hpress, TwoCharacters, true_imp_iff]
      cases flag <;> cases decide (ShiftHeld held) <;> grind
  · have hhigh := release_bits hpress
    simp [ps2kbdEvent, typedEvent, hhigh, hpress]

/-- Two event lists agree exactly when each event does. -/
theorem ps2kbdEvents_eq_iff (flag : Bool) (held : Finset UInt8) (bytes : List UInt8) :
    ps2kbdEvents flag bytes = typedEvents held bytes ↔
      ∀ before byte rest, bytes = before ++ byte :: rest →
        ps2kbdEvent (ps2kbdShift (before.foldl ps2kbdShift flag) byte) byte =
          typedEvent (holdKey (before.foldl holdKey held) byte) byte := by
  induction bytes generalizing flag held with
  | nil => simp [ps2kbdEvents, typedEvents]
  | cons b bytes ih =>
    simp only [ps2kbdEvents, typedEvents, List.cons.injEq, ih]
    constructor
    · rintro ⟨hfirst, hrest⟩ before byte rest hsplit
      cases before with
      | nil =>
        obtain ⟨rfl, -⟩ := List.cons.inj hsplit
        exact hfirst
      | cons c before =>
        obtain ⟨rfl, htail⟩ := List.cons.inj hsplit
        exact hrest before byte rest htail
    · intro h
      exact ⟨h [] b bytes rfl, fun before byte rest hsplit =>
        h (b :: before) byte rest (by rw [hsplit, List.cons_append])⟩

/-- For every sequence of bytes the handler pushes the events of the held keys exactly when no
key with two characters is pressed while one shift key shadows the other. -/
theorem ps2kbd_shift_tracking_iff (bytes : List UInt8) :
    ps2kbdEvents false bytes = typedEvents ∅ bytes ↔
      ∀ before code rest, bytes = before ++ code :: rest → code < 0x80 → TwoCharacters code →
        ¬ Shadowed before := by
  have hflag := flag_eq_shiftHeld_iff
  unfold keysHeld at hflag
  simp only [ps2kbdEvents_eq_iff, ps2kbdEvent_eq_iff, hflag]

/-- Both shift keys are pressed, the right one is released, and an A typed with the left one still
held is a small letter. -/
theorem ps2kbd_shift_lost :
    Alternating ∅ [0x2A, 0x36, 0xB6, 0x1E] ∧
      ps2kbdEvents false [0x2A, 0x36, 0xB6, 0x1E] ≠ typedEvents ∅ [0x2A, 0x36, 0xB6, 0x1E] := by
  constructor
  · simp only [Alternating]
    decide
  · decide

end HolyOs.Drivers
