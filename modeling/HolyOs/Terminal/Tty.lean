import HolyOs.Drivers.Vga
import HolyOs.Foundation.Page

/-!
# The terminal

Shallow model of `tty_putchar`, `tty_write` and `tty_clear` in `kernel/tty/tty.c`, with the VGA
text driver as the current video driver. The lock of the terminal is only taken by the event loop
and is left out.
-/
namespace HolyOs.Terminal

open ByteMemory HolyOs.Drivers Page

/-- `tty_t`, and the memory that the video driver draws to. -/
structure Tty where
  /-- The bytes of `buffer`, and those of `buf_pos` behind them. -/
  line : Memory
  width : Nat
  height : Nat
  fg : VideoColor
  bg : VideoColor
  xpos : Nat
  ypos : Nat
  screen : Memory

/-- `video_write` at the cursor. -/
def videoWrite (t : Tty) (c : UInt8) : Tty :=
  { t with screen := vgaWrite t.screen c t.xpos t.ypos t.fg t.bg }

/-- `current_tty.xpos = 0; current_tty.ypos++;`. -/
def ttyFeed (t : Tty) : Tty := { t with xpos := 0, ypos := (t.ypos + 1) % 2 ^ 16 }

/-- The cases of `tty_putchar`. -/
def ttyPlace (t : Tty) (c : UInt8) : Tty :=
  if c = newline then ttyFeed t
  else if c = backspace then
    if 0 < t.xpos then
      let t := if 0 < t.xpos then { t with xpos := t.xpos - 1 }
        else { t with xpos := (t.width + 65535) % 2 ^ 16, ypos := (t.ypos + 65535) % 2 ^ 16 }
      videoWrite t space
    else t
  else if c = tab then { t with xpos := ((t.xpos + 4) &&& Word32.not 3) % 2 ^ 16 }
  else if c = carriageReturn then { t with xpos := 0 }
  else { videoWrite t c with xpos := (t.xpos + 1) % 2 ^ 16 }

def ttyWrap (t : Tty) : Tty := if t.width ≤ t.xpos then ttyFeed t else t

def ttyScroll (t : Tty) : Tty :=
  if t.height ≤ t.ypos then
    { t with screen := vgaScroll t.screen, ypos := (t.height + 65535) % 2 ^ 16 }
  else t

def ttyPutchar (t : Tty) (c : UInt8) : Tty :=
  if c = nul then t else ttyScroll (ttyWrap (ttyPlace t c))

/-- The number of calls of `video_scroll` in `tty_putchar`. -/
def ttyScrolls (t : Tty) (c : UInt8) : Nat :=
  if c = nul then 0
  else
    let t := ttyWrap (ttyPlace t c)
    if t.height ≤ t.ypos then 1 else 0

/-- The string up to its terminating NUL. -/
def ttyWrite (t : Tty) (str : List UInt8) : Tty := str.foldl ttyPutchar t

def ttyClear (t : Tty) : Tty := { t with screen := vgaClear t.screen t.bg, xpos := 0, ypos := 0 }

end HolyOs.Terminal
