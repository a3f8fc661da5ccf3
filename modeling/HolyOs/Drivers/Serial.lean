import Mathlib.Tactic.SplitIfs

/-!
# The serial port

Shallow model of `drivers/serial/serial.c` and of the chip behind it: its registers, the byte it is
sending and the byte it has received. In loopback mode the chip receives what it sends. Between two
accesses of the processor it may be done with the byte it is sending.
-/
namespace HolyOs.Drivers

structure Uart where
  /-- The byte to send, and the byte that was received. -/
  thr : Option UInt8
  rbr : Option UInt8
  ier : UInt8
  fcr : UInt8
  lcr : UInt8
  mcr : UInt8
  /-- The divisor of the baud rate. -/
  dll : UInt8
  dlm : UInt8
  /-- The bits of the line status that the driver does not look at. -/
  line : UInt8

@[simp] def com1 : Nat := 0x3f8

/-- The divisor is accessed in place of the data and the interrupts. -/
def Uart.Dlab (u : Uart) : Prop := u.lcr &&& 0x80 ≠ 0

def Uart.Loopback (u : Uart) : Prop := u.mcr &&& 0x10 ≠ 0

instance decidableDlab (u : Uart) : Decidable u.Dlab := inferInstanceAs (Decidable (_ ≠ _))

instance decidableLoopback (u : Uart) : Decidable u.Loopback := inferInstanceAs (Decidable (_ ≠ _))

/-- Writing 1 to the bits 1 and 2 of the control register clears what was received and what is to be
sent. -/
def Uart.outb (u : Uart) (port : Nat) (value : UInt8) : Uart :=
  if port = com1 then if u.Dlab then { u with dll := value } else { u with thr := some value }
  else if port = com1 + 1 then
    if u.Dlab then { u with dlm := value } else { u with ier := value }
  else if port = com1 + 2 then
    { u with
      fcr := value
      rbr := if value &&& 2 ≠ 0 then none else u.rbr
      thr := if value &&& 4 ≠ 0 then none else u.thr }
  else if port = com1 + 3 then { u with lcr := value }
  else if port = com1 + 4 then { u with mcr := value }
  else u

/-- The line status: bit 0 for a byte that was received, bit 5 when there is none to send. -/
def Uart.lineStatus (u : Uart) : UInt8 :=
  (u.line &&& 0xDE) ||| (if u.rbr.isSome then 0x01 else 0) ||| (if u.thr.isNone then 0x20 else 0)

/-- The bytes of the registers that the driver reads; `junk` is what an empty one gives. -/
def Uart.inb (junk : UInt8) (u : Uart) (port : Nat) : UInt8 × Uart :=
  if port = com1 then
    if u.Dlab then (u.dll, u) else (u.rbr.getD junk, { u with rbr := none })
  else if port = com1 + 5 then (u.lineStatus, u)
  else (junk, u)

/-- The chip is done with the byte; it is on the wire, or received in loopback mode. -/
def Uart.shift (u : Uart) : Option UInt8 × Uart :=
  match u.thr with
  | none => (none, u)
  | some b =>
    if u.Loopback then (none, { u with thr := none, rbr := some b })
    else (some b, { u with thr := none })

/-- `echoed` says that the test byte is received before the driver reads it. -/
def serial8086Init (junk : UInt8) (echoed : Bool) (u : Uart) : Nat × Uart :=
  let u := u.outb (com1 + 1) 0x00
  let u := u.outb (com1 + 3) 0x80
  let u := u.outb (com1 + 0) 0x03
  let u := u.outb (com1 + 1) 0x00
  let u := u.outb (com1 + 3) 0x03
  let u := u.outb (com1 + 2) 0xC7
  let u := u.outb (com1 + 4) 0x0B
  let u := u.outb (com1 + 4) 0x1E
  let u := u.outb (com1 + 0) 0xAE
  let u := if echoed then u.shift.2 else u
  let r := u.inb junk (com1 + 0)
  if r.1 ≠ 0xAE then (1, r.2) else (0, r.2.outb (com1 + 4) 0x0F)

def serialReceived (u : Uart) : UInt8 := (u.inb 0 (com1 + 5)).1 &&& 1

def isTransmitEmpty (u : Uart) : UInt8 := (u.inb 0 (com1 + 5)).1 &&& 0x20

/-- A byte that is written to the data register is sent, or comes back if the chip is looped. -/
structure Uart.Ready (looped : Bool) (u : Uart) : Prop where
  dlab : ¬ u.Dlab
  loopback : u.Loopback ↔ looped

/-- Whatever state the chip is in, it ends with the same settings, except that its interrupts stay
as they are if the divisor was selected; it is out of the loopback mode exactly when the test byte
came back. -/
theorem serial8086Init_spec (junk : UInt8) (echoed : Bool) (u : Uart) :
    (serial8086Init junk echoed u).2 =
        { thr := if echoed then none else some 0xAE, rbr := none,
          ier := if u.Dlab then u.ier else 0,
          fcr := 0xC7, lcr := 0x03, dll := 0x03, dlm := 0, line := u.line
          mcr := if echoed ∨ junk = 0xAE then 0x0F else 0x1E } ∧
      ((serial8086Init junk echoed u).1 = 0 ↔ echoed ∨ junk = 0xAE) := by
  by_cases hdlab : u.lcr &&& 0x80 = 0
  · cases echoed
    · by_cases hjunk : junk = 0xAE <;>
        simp +decide [serial8086Init, Uart.outb, Uart.inb, Uart.Dlab, hdlab, hjunk]
    · simp +decide [serial8086Init, Uart.outb, Uart.inb, Uart.shift, Uart.Dlab, Uart.Loopback,
        hdlab]
  · cases echoed
    · by_cases hjunk : junk = 0xAE <;>
        simp +decide [serial8086Init, Uart.outb, Uart.inb, Uart.Dlab, hdlab, hjunk]
    · simp +decide [serial8086Init, Uart.outb, Uart.inb, Uart.shift, Uart.Dlab, Uart.Loopback,
        hdlab]

/-- The test byte is back when the driver reads it, or what it reads looks like it. -/
def testPasses (junk : UInt8) (echoed : Bool) : Bool := echoed || junk == 0xAE

/-- A chip that fails the test stays looped, and a test byte that was not back is yet to be sent. -/
theorem serial8086Init_ready (junk : UInt8) (echoed : Bool) (u : Uart) :
    (serial8086Init junk echoed u).2.Ready (!testPasses junk echoed) ∧
      (serial8086Init junk echoed u).2.thr = (if echoed then none else some 0xAE) ∧
      ((serial8086Init junk echoed u).1 = 0 ↔ testPasses junk echoed) := by
  obtain ⟨hchip, hresult⟩ := serial8086Init_spec junk echoed u
  have hpasses : testPasses junk echoed = true ↔ echoed = true ∨ junk = 0xAE := by
    simp [testPasses]
  rw [hresult, hpasses, hchip]
  refine ⟨⟨by simp +decide [Uart.Dlab], ?_⟩, rfl, Iff.rfl⟩
  rw [Bool.not_eq_true', ← Bool.not_eq_true, hpasses]
  by_cases hpass : echoed = true ∨ junk = 0xAE <;> simp +decide [Uart.Loopback, hpass]

theorem or_and_mask (a b mask : UInt8) : (a ||| b) &&& mask = (a &&& mask) ||| (b &&& mask) :=
  UInt8.eq_of_toBitVec_eq BitVec.and_or_distrib_right

/-- The poll of `serial_write` sees whether there is a byte to send. -/
theorem isTransmitEmpty_eq_zero (u : Uart) : isTransmitEmpty u = 0 ↔ u.thr.isSome := by
  have hmask : (u.line &&& 0xDE) &&& 0x20 = 0 := by
    rw [UInt8.and_assoc]
    exact UInt8.and_zero
  unfold isTransmitEmpty Uart.inb Uart.lineStatus
  cases u.thr <;> cases u.rbr <;> simp +decide [or_and_mask, hmask]

theorem Uart.Ready.outb {looped : Bool} {u : Uart} (h : u.Ready looped) (value : UInt8) :
    u.outb com1 value = { u with thr := some value } := by
  rw [Uart.outb, if_pos rfl, if_neg h.dlab]

theorem Uart.Ready.shift {looped : Bool} {u : Uart} (h : u.Ready looped) {b : UInt8}
    (hthr : u.thr = some b) : u.shift = (if looped then none else some b,
      { u with thr := none, rbr := if looped then some b else u.rbr }) := by
  cases looped with
  | false => simp [Uart.shift, hthr, mt h.loopback.mp Bool.false_ne_true]
  | true => simp [Uart.shift, hthr, h.loopback.mpr rfl]

end HolyOs.Drivers
