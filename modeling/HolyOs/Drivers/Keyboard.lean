import HolyOs.Drivers.Input
import Mathlib.Data.List.GetD

/-!
# The PS/2 keyboard

Shallow model of `drivers/input/ps2/ps2kbd.c` and `keymap.c`: the event that a byte from the
keyboard becomes, and the tables it is looked up in.
-/
namespace HolyOs.Drivers

/-- The characters of a stretch of a table. -/
def keys (text : String) : List UInt8 := text.toList.map fun c => UInt8.ofNat c.toNat

/-- The entries behind the last one are zero. -/
def keymapDefault : List UInt8 :=
  [0, 27] ++ keys "1234567890-=\x08" ++ keys "\tqwertyuiop[]\n" ++ [0] ++ keys "asdfghjkl;'`" ++
    [0] ++ keys "\\zxcvbnm,./" ++ [0] ++ keys "*" ++ [0] ++ keys " " ++ List.replicate 16 0 ++
    keys "-" ++ [0, 0, 0] ++ keys "+"

def keymapShift : List UInt8 :=
  [0, 27] ++ keys "!@#$%^&*()_+\x08" ++ keys "\tQWERTYUIOP\x7b\x7d\n" ++ [0] ++
    keys "ASDFGHJKL:\"~" ++ [0] ++ keys "|ZXCVBNM<>?" ++ [0] ++ keys "*" ++ [0] ++ keys " " ++
    List.replicate 16 0 ++ keys "-" ++ [0, 0, 0] ++ keys "+"

def keymapToAscii (scancode : UInt8) (shift : Bool) : UInt8 :=
  if 128 ≤ scancode then 0
  else if shift then keymapShift.getD scancode.toNat 0
  else keymapDefault.getD scancode.toNat 0

/-- The shift keys change which character a key has, never whether it has one. -/
theorem keymapToAscii_eq_zero_iff (scancode : UInt8) :
    keymapToAscii scancode false = 0 ↔ keymapToAscii scancode true = 0 := by
  have htables : keymapDefault.map (· == 0) = keymapShift.map (· == 0) := by decide
  have hentry (i : Nat) : (keymapDefault.getD i 0 == 0) = (keymapShift.getD i 0 == 0) := by
    rw [← List.getD_map (f := (· == 0)), ← List.getD_map (f := (· == 0)), htables]
  by_cases hcode : 128 ≤ scancode
  · simp [keymapToAscii, hcode]
  · simpa [keymapToAscii, hcode] using hentry scancode.toNat

example : keymapToAscii 0x1E false = 0x61 ∧ keymapToAscii 0x1E true = 0x41 ∧
    keymapToAscii 0x4E true = 0x2B := by decide

/-- `shift_pressed` after a byte. -/
def ps2kbdShift (shiftPressed : Bool) (scancode : UInt8) : Bool :=
  if scancode = 0x2A ∨ scancode = 0x36 then true
  else if scancode = 0xAA ∨ scancode = 0xB6 then false
  else shiftPressed

def ps2kbdEvent (shiftPressed : Bool) (scancode : UInt8) : KeyEvent :=
  let type := if scancode &&& 0x80 ≠ 0 then KeyEventType.keyReleased else .keyPressed
  let code := scancode &&& 0x7F
  { type := type, scancode := code,
    ascii := if type = .keyPressed then keymapToAscii code shiftPressed else 0 }

/-- `ps2kbd_handler`, with the call of `input_push_event` in one step. -/
def ps2kbdHandler (shiftPressed : Bool) (q : InputQueue) (scancode : UInt8) : Bool × InputQueue :=
  let shiftPressed := ps2kbdShift shiftPressed scancode
  (shiftPressed, inputPushEvent q (ps2kbdEvent shiftPressed scancode))

end HolyOs.Drivers
