import HolyOs.Drivers.Serial
import HolyOs.Foundation.Handshake
import HolyOs.Lib.Sprintf

/-!
# Messages on the serial line

`kprintf` of `kernel/kprintf.c`: the text is formatted into a buffer on the stack and written to the
serial port byte by byte. The processor polls the chip, and the chip sends at its own time. The
kernel makes a sequence of calls; every access to the chip is a step of its own.
-/
namespace HolyOs.Kernel

open ByteMemory HolyOs.Drivers HolyOs.Lib Transition

@[simp] def kprintfBufsize : Nat := 4096

/-- A call: its arguments, and the place of the buffer in the memory that it finds. -/
structure Message where
  fmt : CString
  args : List VaArg
  buf : Nat
  mem : Memory

/-- The bytes `buf[0]`, …, `buf[len - 1]` that the loop of `kprintf` writes. -/
def kprintfBytes (junk : Memory) (c : Message) : Except FormatFault (List UInt8) :=
  match vsnprintf junk c.mem c.buf kprintfBufsize c.fmt.raw c.args with
  | .error fault => .error fault
  | .ok (m, len) => .ok (readBytes m c.buf len.toNat)

/-- Where the kernel is in `serial_write`. -/
inductive SerialPc
  /-- Between two calls of `kprintf`. -/
  | idle
  | poll
  | send
deriving DecidableEq

structure Console where
  uart : Uart
  pc : SerialPc
  /-- What the current call has still to write, and the calls to come. -/
  bytes : List UInt8
  calls : List Message
  /-- What the other end of the line has received. -/
  wire : List UInt8

inductive ConsoleAct
  | call
  | poll
  | send
  | leave
  | shift

inductive Console.Step (junk : Memory) : Console → ConsoleAct → Console → Prop
  | call {s : Console} {c : Message} {rest : List Message} {bytes : List UInt8} :
      s.pc = .idle → s.calls = c :: rest → kprintfBytes junk c = .ok bytes →
      Step junk s .call { s with pc := .poll, bytes := bytes, calls := rest }
  | poll {s : Console} : s.pc = .poll → s.bytes ≠ [] →
      Step junk s .poll { s with pc := if isTransmitEmpty s.uart = 0 then .poll else .send }
  | send {s : Console} {b : UInt8} {rest : List UInt8} : s.pc = .send → s.bytes = b :: rest →
      Step junk s .send { s with pc := .poll, bytes := rest, uart := s.uart.outb com1 b }
  | leave {s : Console} : s.pc = .poll → s.bytes = [] → Step junk s .leave { s with pc := .idle }
  | shift {s : Console} {b : UInt8} : s.uart.thr = some b →
      Step junk s .shift
        { s with uart := s.uart.shift.2, wire := s.wire ++ s.uart.shift.1.toList }

/-- The text of a call as far as it fits the buffer. -/
def Message.text (c : Message) : List UInt8 :=
  ((render c.fmt.bytes c.args).getD []).take (kprintfBufsize - 1)

/-- The directives of the format match the arguments, and the buffer is below 4 GiB. -/
structure Message.Valid (c : Message) : Prop where
  renders : (render c.fmt.bytes c.args).isSome
  fits : c.buf + kprintfBufsize ≤ 2 ^ 32

/-- The loop writes the text. -/
theorem kprintfBytes_eq (junk : Memory) {c : Message} (hc : c.Valid) :
    kprintfBytes junk c = .ok c.text := by
  obtain ⟨out, hout⟩ := Option.isSome_iff_exists.mp hc.renders
  have hfits : c.buf + 4096 ≤ 2 ^ 32 := hc.fits
  have hend : c.buf + 4096 - 1 < 2 ^ 32 := by omega
  have hlen : (((min out.length 4095 : Nat) : Int).bmod (2 ^ 32)).toNat = min out.length 4095 := by
    rw [Int.bmod_eq_of_le (by omega) (by omega), Int.toNat_natCast]
  have hprinted := printed_writeBytes c.mem c.buf 4095 out
  simp only [kprintfBytes, kprintfBufsize, vsnprintf_fits junk c.mem hout (by decide) hend,
    Message.text, hout, Option.getD_some, Nat.add_one_sub_one, hlen, hprinted.text]
  rw [Nat.min_comm, ← List.take_eq_take_min]

/-! ## The protocol of the line -/

/-- The console as two parties with the chip between them, once these bytes have left the chip. -/
def Console.handshake (s : Console) (taken : List UInt8) : Handshake.State UInt8 where
  slot := s.uart.thr
  clear := s.pc = .send
  todo := s.bytes ++ s.calls.flatMap Message.text
  taken := taken

def ConsoleAct.handshake : ConsoleAct → Option Handshake.Act
  | .poll => some .look
  | .send => some .put
  | .shift => some .take
  | .call | .leave => none

/-- The chip is set up, and the calls to come are as they have to be. -/
structure Console.Ready (looped : Bool) (s : Console) : Prop where
  uart : s.uart.Ready looped
  calls : ∀ c ∈ s.calls, c.Valid
  idle : s.pc = .idle → s.bytes = []
  sending : s.pc = .send → s.bytes ≠ []

variable {junk : Memory} {looped : Bool} {s t : Console} {c : Handshake.State UInt8}

theorem Console.Ready.step {op : ConsoleAct} (h : s.Ready looped) (hstep : s.Step junk op t) :
    t.Ready looped := by
  obtain ⟨huart, hcalls, hidle, hsending⟩ := h
  cases hstep with
  | call _ hcall _ =>
    rw [hcall] at hcalls
    exact ⟨huart, fun c hc => hcalls c (List.mem_cons_of_mem _ hc), fun hpc => (nomatch hpc),
      fun hpc => (nomatch hpc)⟩
  | poll _ hbytes =>
    refine ⟨huart, hcalls, fun hpc => ?_, fun _ => hbytes⟩
    split_ifs at hpc
  | send _ _ =>
    rw [huart.outb]
    exact ⟨⟨huart.dlab, huart.loopback⟩, hcalls, fun hpc => (nomatch hpc),
      fun hpc => (nomatch hpc)⟩
  | leave _ hbytes => exact ⟨huart, hcalls, fun _ => hbytes, fun hpc => (nomatch hpc)⟩
  | shift hthr =>
    rw [huart.shift hthr]
    exact ⟨⟨huart.dlab, huart.loopback⟩, hcalls, hidle, hsending⟩

/-- What leaves the chip is on the line, unless the chip is looped. -/
structure Console.Follows (looped : Bool) (s : Console) (c : Handshake.State UInt8) : Prop where
  ready : s.Ready looped
  state : s.handshake c.taken = c
  wire : s.wire = if looped then [] else c.taken

/-- The start and the end of a call are invisible to the chip. -/
theorem Console.Follows.hidden {op : ConsoleAct} (h : s.Follows looped c)
    (hop : op.handshake = none) (hstep : s.Step junk op t) : t.Follows looped c := by
  refine ⟨h.ready.step hstep, ?_, ?_⟩
  · rw [← h.state]
    cases hstep with
    | @call c rest bytes hpc hcall hbytes =>
      have hvalid : c.Valid := h.ready.calls c (hcall ▸ List.mem_cons_self)
      obtain rfl : c.text = bytes := Except.ok.inj ((kprintfBytes_eq junk hvalid).symm.trans hbytes)
      simp [handshake, hpc, hcall, h.ready.idle hpc]
    | leave hpc hbytes => simp [handshake, hpc]
    | _ => cases hop
  · cases hstep with
    | call => exact h.wire
    | leave => exact h.wire
    | _ => cases hop

/-- The other steps are those of the protocol. -/
theorem Console.Follows.step {op : ConsoleAct} {k : Handshake.Act} (h : s.Follows looped c)
    (hop : op.handshake = some k) (hstep : s.Step junk op t) :
    ∃ d, Handshake.Step c k d ∧ t.Follows looped d := by
  have hready := h.ready.step hstep
  have hwire := h.wire
  rw [← h.state]
  generalize c.taken = taken at hwire
  cases hstep with
  | poll hpc hbytes =>
    cases hop
    refine ⟨_, .look _, hready, ?_, hwire⟩
    have hclear : decide ((if isTransmitEmpty s.uart = 0 then SerialPc.poll else .send) = .send) =
        s.uart.thr.isNone := by
      simp only [isTransmitEmpty_eq_zero]
      cases s.uart.thr <;> rfl
    simp only [handshake]
    rw [hclear]
  | @send b rest hpc hbytes =>
    cases hop
    have htodo : (s.handshake taken).todo = b :: (rest ++ s.calls.flatMap Message.text) := by
      simp [handshake, hbytes]
    refine ⟨_, .put (decide_eq_true hpc) htodo, hready, ?_, hwire⟩
    rw [h.ready.uart.outb]
    rfl
  | @shift b hthr =>
    cases hop
    refine ⟨_, .take hthr, hready, ?_, ?_⟩
    · rw [h.ready.uart.shift hthr]
      rfl
    · rw [h.ready.uart.shift hthr]
      cases looped <;> simp_all [handshake]
  | _ => cases hop

/-! ## From the start to the end of the calls -/

/-- After `serial8086_init`, whose result `kmain` does not look at. -/
def Console.boot (garbage : UInt8) (echoed : Bool) (u : Uart) (calls : List Message) : Console :=
  ⟨(serial8086Init garbage echoed u).2, .idle, [], calls, []⟩

/-- What goes through the chip from then on: the test byte, if it was not back in time, and the
texts. -/
def bootStream (echoed : Bool) (calls : List Message) : List UInt8 :=
  (if echoed then [] else [0xAE]) ++ calls.flatMap Message.text

theorem boot_follows (garbage : UInt8) (echoed : Bool) (u : Uart) {calls : List Message}
    (hcalls : ∀ c ∈ calls, c.Valid) :
    (Console.boot garbage echoed u calls).Follows (!testPasses garbage echoed)
      ((Console.boot garbage echoed u calls).handshake []) where
  ready := ⟨(serial8086Init_ready garbage echoed u).1, hcalls, fun _ => rfl,
    fun hpc => (nomatch hpc)⟩
  state := rfl
  wire := by
    simp only [Console.handshake, ite_self]
    rfl

theorem boot_handshake (garbage : UInt8) (echoed : Bool) (u : Uart) (calls : List Message) :
    Handshake.Sound (bootStream echoed calls)
      ((Console.boot garbage echoed u calls).handshake []) where
  clear hclear := nomatch hclear
  account := by
    have hthr := (serial8086Init_ready garbage echoed u).2.1
    cases echoed <;> simp [Console.boot, Console.handshake, hthr, bootStream]

/-- The text of a call is sent, and the call ends. -/
theorem Console.Ready.finishes (junk : Memory) (h : s.Ready looped) (hpc : s.pc = .poll) :
    ∃ ops t, Run (Console.Step junk) s ops t ∧ t.Ready looped ∧ t.pc = .idle ∧
      t.calls = s.calls := by
  induction hbytes : s.bytes generalizing s with
  | nil =>
    have hleave : s.Step junk .leave { s with pc := .idle } := .leave hpc hbytes
    exact ⟨_, _, .single hleave, h.step hleave, rfl, rfl⟩
  | cons b rest ih =>
    -- the chip is done with the byte before, if there is one
    obtain ⟨ops, u, hops, hu, hupc, hubytes, hthr, hcalls⟩ : ∃ ops u,
        Run (Console.Step junk) s ops u ∧ u.Ready looped ∧ u.pc = .poll ∧ u.bytes = b :: rest ∧
        u.uart.thr = none ∧ u.calls = s.calls := by
      cases hthr : s.uart.thr with
      | none => exact ⟨[], s, .nil, h, hpc, hbytes, hthr, rfl⟩
      | some a =>
        have hshift : s.Step junk .shift _ := .shift hthr
        refine ⟨_, _, .single hshift, h.step hshift, hpc, hbytes, ?_, rfl⟩
        rw [h.uart.shift hthr]
    have hempty : isTransmitEmpty u.uart ≠ 0 := by
      rw [ne_eq, isTransmitEmpty_eq_zero, hthr]
      exact Bool.false_ne_true
    have hpoll : u.Step junk .poll { u with pc := .send } := by
      have hstep : u.Step junk .poll _ := .poll hupc (hubytes ▸ List.cons_ne_nil b rest)
      rwa [if_neg hempty] at hstep
    have hsend : Console.Step junk { u with pc := .send } .send
        { u with pc := .poll, bytes := rest, uart := u.uart.outb com1 b } := .send rfl hubytes
    obtain ⟨ops', t, hrun, ht, htpc, htcalls⟩ := ih ((hu.step hpoll).step hsend) rfl rfl
    exact ⟨_, t, hops.append (.cons hpoll (.cons hsend hrun)), ht, htpc, htcalls.trans hcalls⟩

theorem Console.Ready.finishesAll (junk : Memory) (h : s.Ready looped) (hpc : s.pc = .idle) :
    ∃ ops t, Run (Console.Step junk) s ops t ∧ t.Ready looped ∧ t.pc = .idle ∧ t.calls = [] := by
  induction hcalls : s.calls generalizing s with
  | nil => exact ⟨[], s, .nil, h, hpc, hcalls⟩
  | cons c rest ih =>
    have hcall : s.Step junk .call _ :=
      .call hpc hcalls (kprintfBytes_eq junk (h.calls c (hcalls ▸ List.mem_cons_self)))
    obtain ⟨ops, u, hops, hu, hupc, hucalls⟩ := (h.step hcall).finishes junk rfl
    obtain ⟨ops', t, hrun, ht⟩ := ih hu hupc hucalls
    exact ⟨_, t, (Run.cons hcall hops).append hrun, ht⟩

/-- What a state of the console says about the bytes that go through the chip. -/
structure Console.Transmits (junk : Memory) (stream : List UInt8) (s : Console) : Prop where
  /-- They are what was received, what the chip holds and what is still to be written. -/
  account : stream = s.wire ++ s.uart.thr.toList ++ (s.bytes ++ s.calls.flatMap Message.text)
  /-- No byte is written over another. -/
  room : s.pc = .send → s.uart.thr = none
  /-- The calls come to their end. -/
  ends : ∃ ops t, Run (Console.Step junk) s ops t ∧ t.pc = .idle ∧ t.calls = [] ∧
    t.wire ++ t.uart.thr.toList = stream

/-- The calls come to their end, but nothing is received. -/
structure Console.Silent (junk : Memory) (s : Console) : Prop where
  wire : s.wire = []
  room : s.pc = .send → s.uart.thr = none
  ends : ∃ ops t, Run (Console.Step junk) s ops t ∧ t.pc = .idle ∧ t.calls = []

/-- A run of the console is a run of the protocol. -/
theorem Console.Follows.run {all : List UInt8} {ops : List ConsoleAct} (h : s.Follows looped c)
    (hsound : Handshake.Sound all c) (hrun : Run (Console.Step junk) s ops t) :
    ∃ d, t.Follows looped d ∧ Handshake.Sound all d := by
  obtain ⟨d, hprotocol, hd⟩ := hrun.stutters ConsoleAct.handshake h
    (fun _ _ _ _ hop hfollows hstep => hfollows.hidden hop hstep)
    (fun _ _ _ _ _ hop hfollows hstep => hfollows.step hop hstep)
  exact ⟨d, hd, hsound.run hprotocol⟩

theorem Console.Ready.ends (junk : Memory) (h : s.Ready looped) :
    ∃ ops t, Run (Console.Step junk) s ops t ∧ t.pc = .idle ∧ t.calls = [] := by
  -- the call that is being made, and then the others
  obtain ⟨ops, u, hops, hu, hidle⟩ : ∃ ops u, Run (Console.Step junk) s ops u ∧ u.Ready looped ∧
      u.pc = .idle := by
    cases hpc : s.pc with
    | idle => exact ⟨[], s, .nil, h, hpc⟩
    | poll =>
      obtain ⟨ops, u, hops, hu, hidle, -⟩ := h.finishes junk hpc
      exact ⟨ops, u, hops, hu, hidle⟩
    | send =>
      obtain ⟨b, rest, hbytes⟩ := List.exists_cons_of_ne_nil (h.sending hpc)
      have hsend : s.Step junk .send _ := .send hpc hbytes
      obtain ⟨ops, u, hops, hu, hidle, -⟩ := (h.step hsend).finishes junk rfl
      exact ⟨_, u, .cons hsend hops, hu, hidle⟩
  obtain ⟨ops', t, hops', -, htpc, htcalls⟩ := hu.finishesAll junk hidle
  exact ⟨_, t, hops.append hops', htpc, htcalls⟩

theorem Console.Follows.room {all : List UInt8} (h : s.Follows looped c)
    (hsound : Handshake.Sound all c) (hpc : s.pc = .send) : s.uart.thr = none := by
  rw [← h.state] at hsound
  exact hsound.clear (decide_eq_true hpc)

/-- In every order of the steps of the kernel and of the chip, the line carries the texts of the
calls one behind the other, each byte once, if the chip passed the test, and nothing otherwise. -/
theorem kprintf_transmits {garbage : UInt8} {echoed : Bool} {u : Uart} {calls : List Message}
    {ops : List ConsoleAct} (hcalls : ∀ c ∈ calls, c.Valid)
    (hrun : Run (Console.Step junk) (.boot garbage echoed u calls) ops s) :
    ((serial8086Init garbage echoed u).1 = 0 ↔ testPasses garbage echoed) ∧
      (testPasses garbage echoed → s.Transmits junk (bootStream echoed calls)) ∧
      (¬ testPasses garbage echoed → s.Silent junk) := by
  obtain ⟨c, hfollows, hsound⟩ := (boot_follows garbage echoed u hcalls).run
    (boot_handshake garbage echoed u calls) hrun
  obtain ⟨ops', t, hops', hpc, htcalls⟩ := hfollows.ready.ends junk
  refine ⟨(serial8086Init_ready garbage echoed u).2.2, fun hpass => ?_, fun hfail => ?_⟩
  · have hwire : ∀ {x : Console} {d : Handshake.State UInt8},
        x.Follows (!testPasses garbage echoed) d → x.wire = d.taken := by
      intro x d hx
      simpa [hpass] using hx.wire
    refine ⟨?_, hfollows.room hsound, ops', t, hops', hpc, htcalls, ?_⟩
    · rw [hwire hfollows, hsound.account, ← hfollows.state]
      rfl
    · obtain ⟨d, hd, hdsound⟩ := hfollows.run hsound hops'
      have htodo : d.todo = [] := by
        rw [← hd.state]
        simp [Console.handshake, hd.ready.idle hpc, htcalls]
      rw [hwire hd, ← hdsound.done htodo, ← hd.state]
      rfl
  · refine ⟨?_, hfollows.room hsound, ops', t, hops', hpc, htcalls⟩
    simpa [hfail] using hfollows.wire

theorem kprintf_transmits_number : ∃ s : Console, s.bytes = [0x6E, 0x3D, 0x37] ∧
    s.Transmits (fun _ => 0)
      (bootStream true [⟨.ascii "n=%d", [.word 7], 0x1000, fun _ => 0⟩]) := by
  have hvalid : Message.Valid ⟨.ascii "n=%d", [.word 7], 0x1000, fun _ => 0⟩ :=
    ⟨by decide, by decide⟩
  have hcall : Console.Step (fun _ => 0) (.boot 0 true ⟨none, none, 0, 0, 0, 0, 0, 0, 0⟩
      [⟨.ascii "n=%d", [.word 7], 0x1000, fun _ => 0⟩]) .call _ :=
    .call rfl rfl (kprintfBytes_eq _ hvalid)
  obtain ⟨-, hpasses, -⟩ := kprintf_transmits (fun c hc => by
    rw [List.mem_singleton.mp hc]
    exact hvalid) (.single hcall)
  exact ⟨_, by decide, hpasses rfl⟩

end HolyOs.Kernel
