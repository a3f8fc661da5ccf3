import HolyOs.Drivers.Serial
import HolyOs.Foundation.PortIo
import Mathlib.Tactic.Tauto

/-!
# The PS/2 controller

Shallow model of `drivers/input/ps2/i8042.c` as programs on the ports of the controller, and of the
controller behind them. It executes a command and passes on a byte of the keyboard or the mouse at
any time between two accesses of the processor.
-/
namespace HolyOs.Drivers

open PortIo Transition Relation

structure I8042 where
  /-- The command that was written and is still to be executed. -/
  input : Option UInt8
  /-- The byte to be read. -/
  output : Option UInt8
  /-- The answer of the controller, until the byte before it was read. -/
  reply : Option UInt8
  kbd : Bool
  mouse : Bool
  /-- The bits of the status that the driver does not look at. -/
  flags : UInt8

@[simp] def i8042DataPort : Nat := 0x60
@[simp] def i8042StatusPort : Nat := 0x64
@[simp] def i8042CmdPort : Nat := 0x64
def i8042StatusOutputFull : UInt8 := (1 : UInt8) <<< 0
def i8042StatusInputFull : UInt8 := (1 : UInt8) <<< 1
@[simp] def i8042CmdDisableKbd : UInt8 := 0xAD
@[simp] def i8042CmdEnableKbd : UInt8 := 0xAE
@[simp] def i8042CmdDisableMouse : UInt8 := 0xA7
@[simp] def i8042CmdEnableMouse : UInt8 := 0xA8

namespace I8042

def status (c : I8042) : UInt8 :=
  (c.flags &&& 0xFC) ||| (if c.output.isSome then 0x01 else 0) |||
    (if c.input.isSome then 0x02 else 0)

/-- The keyboard and the mouse after the command. -/
def enable (cmd : UInt8) (kbd mouse : Bool) : Bool × Bool :=
  if cmd = 0xAD then (false, mouse)
  else if cmd = 0xAE then (true, mouse)
  else if cmd = 0xA7 then (kbd, false)
  else if cmd = 0xA8 then (kbd, true)
  else (kbd, mouse)

/-- 0xAA is the self-test, which passes. -/
def execute (c : I8042) (cmd : UInt8) : I8042 :=
  { c with
    input := none
    reply := if cmd = 0xAA then some 0x55 else c.reply
    kbd := (enable cmd c.kbd c.mouse).1
    mouse := (enable cmd c.kbd c.mouse).2 }

/-- The bytes in `sends` are those that the keyboard and the mouse send, and `shows` has the values
of the bits that the driver does not look at. -/
inductive Moves (sends shows : Set UInt8) : I8042 → I8042 → Prop
  | execute {c : I8042} {cmd : UInt8} : c.input = some cmd → Moves sends shows c (c.execute cmd)
  | answer {c : I8042} {b : UInt8} : c.reply = some b → c.output = none →
      Moves sends shows c { c with output := some b, reply := none }
  | send {c : I8042} {b : UInt8} : c.kbd = true ∨ c.mouse = true → c.output = none → b ∈ sends →
      Moves sends shows c { c with output := some b }
  | flags {c : I8042} {flags : UInt8} : flags ∈ shows →
      Moves sends shows c { c with flags := flags }

/-- A command that is written over another one replaces it. -/
def device (sends shows : Set UInt8) : Device I8042 where
  read port c :=
    if port = 0x60 then (c.output.getD 0, { c with output := none }) else (c.status, c)
  write port value c := if port = 0x64 then { c with input := some value } else c
  moves := Moves sends shows

end I8042

def i8042ReadData : Prog UInt8 :=
  .poll i8042StatusPort (fun status => !(status &&& i8042StatusOutputFull != 0))
    (.inb i8042DataPort .ret)

def i8042WriteCmd (cmd : UInt8) : Prog Unit :=
  .poll i8042StatusPort (fun status => status &&& i8042StatusInputFull != 0)
    (.outb i8042CmdPort cmd (.ret ()))

def i8042Init : Prog Unit := do
  i8042WriteCmd i8042CmdDisableKbd
  i8042WriteCmd i8042CmdDisableMouse
  .drain i8042StatusPort (fun status => status &&& 0x1 != 0) i8042DataPort (.ret ())
  i8042WriteCmd i8042CmdEnableKbd
  i8042WriteCmd i8042CmdEnableMouse

/-- `i8042_check` behind the test of the status. -/
def i8042SelfTest : Prog Bool := do
  i8042WriteCmd i8042CmdDisableKbd
  i8042WriteCmd i8042CmdDisableMouse
  i8042WriteCmd 0xAA
  let response ← i8042ReadData
  if response ≠ 0x55 then
    return false
  else
    i8042WriteCmd i8042CmdEnableKbd
    i8042WriteCmd i8042CmdEnableMouse
    return true

def i8042Check : Prog Bool := do
  let status ← .inb i8042StatusPort .ret
  if status = 0x00 ∨ status = 0xFF then
    return false
  else
    i8042SelfTest

/-- What `kmain` does to the controller: the constructor runs in `init_ctors`, and the keyboard is
probed in `input_init`. -/
def i8042Boot : Prog Bool := do
  i8042Init
  i8042Check

theorem i8042WriteCmd_onBus (v cmd : UInt8) :
    (i8042WriteCmd cmd).onBus v = if v &&& 2 = 0 then some () else none := by
  have hfull : i8042StatusInputFull = 2 := by decide
  simp only [i8042WriteCmd, Prog.onBus, hfull, bne_iff_ne, ne_eq, ite_not]

theorem i8042ReadData_onBus (v : UInt8) :
    i8042ReadData.onBus v = if v &&& 1 = 0 then none else some v := by
  have hfull : i8042StatusOutputFull = 1 := by decide
  simp [i8042ReadData, Prog.onBus, hfull]

theorem i8042Boot_onBus (v : UInt8) :
    i8042Boot.onBus v = if v = 0 then some false else none := by
  by_cases hzero : v = 0
  · subst hzero
    decide
  by_cases hinput : v &&& 2 = 0
  case neg => simp [i8042Boot, i8042Init, i8042WriteCmd_onBus, hinput, hzero]
  by_cases houtput : v &&& 1 = 0
  case neg => simp [i8042Boot, i8042Init, i8042WriteCmd_onBus, Prog.onBus, hinput, houtput, hzero]
  have hfloat : v ≠ 0xFF := by
    rintro rfl
    exact absurd hinput (by decide)
  simp [i8042Boot, i8042Init, i8042Check, i8042SelfTest, i8042WriteCmd_onBus, i8042ReadData_onBus,
    Prog.onBus, hinput, houtput, hzero, hfloat]

/-- With no controller on the bus the kernel gets past the constructor only where the status reads
as 0. The test for 0xFF in `i8042_check` comes too late. -/
theorem i8042Boot_absent (v : UInt8) (found : Bool) :
    (∃ ops, Run (Step (floating v)) ⟨(), i8042Boot⟩ ops ⟨(), .ret found⟩) ↔
      v = 0 ∧ found = false := by
  rw [onBus_iff, i8042Boot_onBus]
  by_cases hzero : v = 0
  · simp [hzero, eq_comm]
  · simp [hzero]

namespace I8042

variable {sends shows : Set UInt8} {c c' : I8042}

@[simp] theorem status_input (c : I8042) :
    (c.status &&& i8042StatusInputFull != 0) = c.input.isSome := by
  have hfull : i8042StatusInputFull = 2 := by decide
  have hmask : (c.flags &&& 0xFC) &&& 0x02 = 0 := by
    rw [UInt8.and_assoc]
    exact UInt8.and_zero
  unfold status
  cases c.input <;> cases c.output <;> simp +decide [or_and_mask, hfull, hmask]

@[simp] theorem status_output (c : I8042) : (c.status &&& 0x1 != 0) = c.output.isSome := by
  have hmask : (c.flags &&& 0xFC) &&& 0x1 = 0 := by
    rw [UInt8.and_assoc]
    exact UInt8.and_zero
  unfold status
  cases c.input <;> cases c.output <;> simp +decide [or_and_mask, hmask]

theorem status_mask (c : I8042) : c.status &&& 0xFC = c.flags &&& 0xFC := by
  unfold I8042.status
  rw [or_and_mask, or_and_mask, UInt8.and_assoc]
  split_ifs <;> exact (UInt8.or_zero.trans UInt8.or_zero)

theorem status_eq_zero (c : I8042) :
    c.status = 0x00 ↔ c.flags &&& 0xFC = 0 ∧ c.output = none ∧ c.input = none := by
  constructor
  · intro hstatus
    have hmask := c.status_mask
    have houtput := c.status_output
    have hinput := c.status_input
    rw [hstatus] at hmask houtput hinput
    exact ⟨hmask.symm, Option.not_isSome_iff_eq_none.mp (houtput ▸ by decide),
      Option.not_isSome_iff_eq_none.mp (hinput ▸ by decide)⟩
  · rintro ⟨hflags, houtput, hinput⟩
    simp [status, hflags, houtput, hinput]

theorem status_eq_full (c : I8042) : c.status = 0xFF ↔
    c.flags &&& 0xFC = 0xFC ∧ c.output.isSome = true ∧ c.input.isSome = true := by
  constructor
  · intro hstatus
    have hmask := c.status_mask
    have houtput := c.status_output
    have hinput := c.status_input
    rw [hstatus] at hmask houtput hinput
    exact ⟨hmask.symm, houtput.symm, hinput.symm⟩
  · rintro ⟨hflags, houtput, hinput⟩
    simp +decide [status, hflags, houtput, hinput]

theorem Moves.input_none (h : Moves sends shows c c') (hinput : c.input = none) :
    c'.input = none := by
  cases h with
  | execute => rfl
  | _ => exact hinput

theorem Moves.output_some (h : Moves sends shows c c') {b : UInt8} (houtput : c.output = some b) :
    c'.output = some b := by
  cases h with
  | answer _ hnone | send _ hnone => exact absurd (hnone.symm.trans houtput) (by simp)
  | _ => exact houtput

variable {P M : I8042 → Prop}

theorem stable_empty (hP : (device sends shows).Stable P) :
    (device sends shows).Stable fun c => P c ∧ c.input = none :=
  fun c c' ⟨hc, hinput⟩ hmove => ⟨hP c c' hc hmove, Moves.input_none hmove hinput⟩

/-- The poll of `i8042_write_cmd`. -/
def i8042Wait : Prog Unit :=
  .poll i8042StatusPort (fun status => status &&& i8042StatusInputFull != 0) (.ret ())

theorem wait_sat (hP : (device sends shows).Stable P) :
    Sat (device sends shows) (fun _ c => P c ∧ c.input = none) P i8042Wait := by
  refine .poll hP (fun _ hc => hc) hP (fun c hc => ?_) (fun c hc => ?_)
    (.ret (stable_empty hP) fun _ hc => hc)
  · cases hinput : c.input <;> simp [device, hinput, hc]
  · cases hinput : c.input with
    | none => exact ⟨c, .refl, by simp [device, hinput]⟩
    | some cmd => exact ⟨c.execute cmd, .single (.execute hinput), by simp [device, execute]⟩

/-- A command is never written over another one. -/
theorem writeCmd_sat {cmd : UInt8} (hP : (device sends shows).Stable P)
    (hM : (device sends shows).Stable M)
    (hwrite : ∀ c, P c → c.input = none → M { c with input := some cmd }) :
    Sat (device sends shows) (fun _ => M) P (i8042WriteCmd cmd) :=
  (wait_sat hP).bind fun _ => .outb (stable_empty hP) (fun c hc => hwrite c hc.1 hc.2)
    (.ret hM fun _ hc => hc)

theorem stable_full (hP : (device sends shows).Stable P) :
    (device sends shows).Stable fun c => P c ∧ c.output ≠ none := by
  intro c c' ⟨hc, houtput⟩ hmove
  obtain ⟨b, hb⟩ := Option.ne_none_iff_exists'.mp houtput
  exact ⟨hP c c' hc hmove, by simp [Moves.output_some hmove hb]⟩

theorem readData_sat {Q : UInt8 → I8042 → Prop} (hP : (device sends shows).Stable P)
    (hQ : ∀ b, (device sends shows).Stable (Q b))
    (hread : ∀ c b, P c → c.output = some b → Q b { c with output := none })
    (hwait : ∀ c, P c → ∃ c', ReflTransGen (Moves sends shows) c c' ∧ c'.output ≠ none) :
    Sat (device sends shows) Q P i8042ReadData := by
  have hbit : i8042StatusOutputFull = 0x1 := by decide
  refine .poll hP (fun _ hc => hc) hP (fun c hc => ?_) (fun c hc => ?_)
    (.inb (M := Q) (stable_full hP) (fun c ⟨hc, houtput⟩ => ?_) fun b => .ret (hQ b) fun _ hc => hc)
  · cases houtput : c.output <;> simp [device, hbit, houtput, hc]
  · obtain ⟨c', hmoves, houtput⟩ := hwait c hc
    refine ⟨c', hmoves, ?_⟩
    cases hc' : c'.output <;> simp_all [device]
  · obtain ⟨b, hb⟩ := Option.ne_none_iff_exists'.mp houtput
    simpa [device, hb] using hread c b hc hb

/-- The last command that was written is `cmd`, and `K` holds of the keyboard and the mouse once it
is executed. -/
structure Written (shows : Set UInt8) (cmd : UInt8) (K : Bool → Bool → Prop)
    (C : Option UInt8 → Option UInt8 → Prop) (c : I8042) : Prop where
  shown : c.flags ∈ shows
  data : C c.output c.reply
  executed : c.input = none → K c.kbd c.mouse
  pending : ∀ v, c.input = some v →
    v = cmd ∧ K (enable cmd c.kbd c.mouse).1 (enable cmd c.kbd c.mouse).2

/-- What may be in the output buffer and in the reply, whatever the controller does. -/
structure Closed (sends : Set UInt8) (cmd : UInt8)
    (C : Option UInt8 → Option UInt8 → Prop) : Prop where
  answer : ∀ b, C none (some b) → C (some b) none
  send : ∀ r, ∀ b ∈ sends, C none r → C (some b) r
  selfTest : cmd = 0xAA → ∀ o r, C o r → C o (some 0x55)

variable {cmd next : UInt8} {K L : Bool → Bool → Prop} {C D : Option UInt8 → Option UInt8 → Prop}

theorem Written.stable (hC : Closed sends cmd C) :
    (device sends shows).Stable (Written shows cmd K C) := by
  intro c c' hc hmove
  cases hmove with
  | @execute v hinput =>
    obtain ⟨rfl, hK⟩ := hc.pending v hinput
    refine ⟨hc.shown, ?_, fun _ => hK, fun _ hnone => (nomatch hnone)⟩
    by_cases htest : v = 0xAA
    · simpa [execute, htest] using hC.selfTest htest _ _ hc.data
    · simpa [execute, htest] using hc.data
  | @answer b hreply houtput =>
    refine ⟨hc.shown, hC.answer b ?_, hc.executed, hc.pending⟩
    rw [← hreply, ← houtput]
    exact hc.data
  | @send b _ houtput hb =>
    refine ⟨hc.shown, hC.send _ b hb ?_, hc.executed, hc.pending⟩
    rw [← houtput]
    exact hc.data
  | flags hshown => exact ⟨hshown, hc.data, hc.executed, hc.pending⟩

theorem Written.weaken (hc : Written shows cmd K C c) (hdata : D c.output c.reply) :
    Written shows cmd K D c :=
  { hc with data := hdata }

theorem Written.read (hc : Written shows cmd K C c) (hdata : D none c.reply) :
    Written shows cmd K D { c with output := none } :=
  { hc with data := hdata }

theorem Written.write (hc : Written shows cmd K C c) (hinput : c.input = none)
    (hK : ∀ k m, K k m → L (enable next k m).1 (enable next k m).2)
    (hdata : ∀ o r, C o r → D o r) : Written shows next L D { c with input := some next } where
  shown := hc.shown
  data := hdata _ _ hc.data
  executed hnone := nomatch hnone
  pending _ hv := ⟨(Option.some.inj hv).symm, hK _ _ (hc.executed hinput)⟩

theorem Written.writeCmd_sat (hC : Closed sends cmd C) (hD : Closed sends next D)
    (hK : ∀ k m, K k m → L (enable next k m).1 (enable next k m).2)
    (hdata : ∀ o r, C o r → D o r) :
    Sat (device sends shows) (fun _ => Written shows next L D) (Written shows cmd K C)
      (i8042WriteCmd next) :=
  I8042.writeCmd_sat (stable hC) (stable hD) fun _ hc hinput => hc.write hinput hK hdata

/-- No answer is to come, and the output buffer is as `S` says. -/
def Quiet (S : Option UInt8 → Prop) (o r : Option UInt8) : Prop := r = none ∧ S o

theorem Quiet.closed {S : Option UInt8 → Prop} (hsends : S none → ∀ b ∈ sends, S (some b))
    (htest : cmd ≠ 0xAA) : Closed sends cmd (Quiet S) where
  answer _ h := nomatch h.1
  send _ b hb h := ⟨h.1, hsends h.2 b hb⟩
  selfTest h := absurd h htest

theorem Closed.const (p : Prop) : Closed sends cmd fun _ _ => p where
  answer _ h := h
  send _ _ _ h := h
  selfTest _ _ _ h := h

/-- No command and no answer is left, except that commands of the keyboard may be pending. -/
structure Idle (shows : Set UInt8) (c : I8042) : Prop where
  shown : c.flags ∈ shows
  reply : c.reply = none
  input : c.input ≠ some 0xAA

theorem Idle.stable : (device sends shows).Stable (Idle shows) := by
  intro c c' hc hmove
  cases hmove with
  | @execute v hinput =>
    have htest : v ≠ 0xAA := by
      rintro rfl
      exact hc.input hinput
    exact ⟨hc.shown, by simpa [execute, htest] using hc.reply, fun hnone => (nomatch hnone)⟩
  | answer hreply => exact absurd (hc.reply.symm.trans hreply) (by simp)
  | send => exact ⟨hc.shown, hc.reply, hc.input⟩
  | flags hshown => exact ⟨hshown, hc.reply, hc.input⟩

def Off (k m : Bool) : Prop := k = false ∧ m = false

def On (k m : Bool) : Prop := k = true ∧ m = true

/-- The byte to be read is one of those that the keyboard and the mouse send. -/
def Sent (sends : Set UInt8) (o : Option UInt8) : Prop := ∀ b, o = some b → b ∈ sends

theorem Sent.closed (htest : cmd ≠ 0xAA) : Closed sends cmd (Quiet (Sent sends)) :=
  Quiet.closed (fun _ _ hb _ hsome => Option.some.inj hsome ▸ hb) htest

theorem Quiet.closed_any (htest : cmd ≠ 0xAA) : Closed sends cmd (Quiet fun _ => True) :=
  Quiet.closed (fun _ _ _ => trivial) htest

/-- The loop of `i8042_init` throws away what was left from before. -/
theorem drain_sat (htest : cmd ≠ 0xAA) : Sat (device sends shows)
    (fun _ : Unit => Written shows cmd K (Quiet (Sent sends)))
    (Written shows cmd K (Quiet fun _ => True))
    (.drain i8042StatusPort (fun status => status &&& 0x1 != 0) i8042DataPort (.ret ())) := by
  have hany : (device sends shows).Stable (Written shows cmd K (Quiet fun _ => True)) :=
    Written.stable (Quiet.closed_any htest)
  have hsent : (device sends shows).Stable (Written shows cmd K (Quiet (Sent sends))) :=
    Written.stable (Sent.closed htest)
  refine .drain hany (fun _ hc => hc) hany (stable_full hany) (fun c hc => ?_) (fun c hc => ?_)
    (.ret hsent fun _ hc => hc)
  · cases houtput : c.output with
    | none =>
      have hclean : Written shows cmd K (Quiet (Sent sends)) c :=
        hc.weaken ⟨hc.data.1, fun b hb => absurd (houtput.symm.trans hb) (by simp)⟩
      simpa [device, houtput] using hclean
    | some b => simpa [device, houtput] using hc
  · refine ⟨?_, by simp [device]⟩
    have hread : Written shows cmd K (Quiet fun _ => True) { c with output := none } :=
      hc.1.read ⟨hc.1.data.1, trivial⟩
    simpa [device] using hread

/-- `i8042_init` up to its last access. -/
def i8042InitFront : Prog Unit := do
  i8042WriteCmd i8042CmdDisableKbd
  i8042WriteCmd i8042CmdDisableMouse
  .drain i8042StatusPort (fun status => status &&& 0x1 != 0) i8042DataPort (.ret ())
  i8042WriteCmd i8042CmdEnableKbd
  i8042Wait

theorem i8042Init_eq :
    i8042Init = i8042InitFront >>= fun _ => .outb i8042CmdPort i8042CmdEnableMouse (.ret ()) := rfl

/-- The constructor has enabled the keyboard, and what was left from before is gone. -/
abbrev FrontDone (sends shows : Set UInt8) : I8042 → Prop :=
  Written shows i8042CmdEnableKbd (fun k _ => k = true) (Quiet (Sent sends))

theorem FrontDone.stable : (device sends shows).Stable (FrontDone sends shows) :=
  Written.stable (Sent.closed (by decide))

theorem i8042InitFront_sat : Sat (device sends shows)
    (fun _ c => FrontDone sends shows c ∧ c.input = none) (Idle shows) i8042InitFront := by
  have hfirst : Sat (device sends shows)
      (fun _ => Written shows i8042CmdDisableKbd (fun k _ => k = false) (Quiet fun _ => True))
      (Idle shows) (i8042WriteCmd i8042CmdDisableKbd) :=
    writeCmd_sat Idle.stable (Written.stable (Quiet.closed_any (by decide))) fun c hc _ =>
      ⟨hc.shown, ⟨hc.reply, trivial⟩, fun hnone => (nomatch hnone),
        fun _ hv => ⟨(Option.some.inj hv).symm, rfl⟩⟩
  refine Sat.bind hfirst fun _ => ?_
  refine Sat.bind (Written.writeCmd_sat (L := Off) (Quiet.closed_any (by decide))
    (Quiet.closed_any (by decide)) (fun k m hk => ⟨hk, rfl⟩) fun _ _ h => h) fun _ => ?_
  refine Sat.bind (drain_sat (by decide)) fun _ => ?_
  refine Sat.bind (Written.writeCmd_sat (L := fun k _ => k = true) (Sent.closed (by decide))
    (Sent.closed (by decide)) (fun k m hk => rfl) fun _ _ h => h) fun _ => ?_
  exact wait_sat FrontDone.stable

theorem FrontDone.written (hc : FrontDone sends shows c) (hinput : c.input = none) :
    Written shows i8042CmdEnableMouse On (Quiet (Sent sends))
      { c with input := some i8042CmdEnableMouse } :=
  hc.write hinput (fun _ _ hk => ⟨hk, rfl⟩) fun _ _ h => h

theorem i8042Init_sat : Sat (device sends shows)
    (fun _ => Written shows i8042CmdEnableMouse On (Quiet (Sent sends))) (Idle shows)
    i8042Init := by
  have hdone : (device sends shows).Stable
      (Written shows i8042CmdEnableMouse On (Quiet (Sent sends))) :=
    Written.stable (Sent.closed (by decide))
  rw [i8042Init_eq]
  exact i8042InitFront_sat.bind fun _ =>
    .outb (stable_empty FrontDone.stable) (fun _ hc => hc.1.written hc.2)
      (.ret hdone fun _ hc => hc)

/-- The self-test was started with the keyboard and the mouse off. Its answer comes after the byte
that was to be read before. -/
structure SelfTest (shows : Set UInt8) (S : Option UInt8 → Prop) (c : I8042) : Prop where
  shown : c.flags ∈ shows
  off : Off c.kbd c.mouse
  answer : c.input = some 0xAA ∧ c.reply = none ∧ S c.output ∨
    c.input = none ∧ c.reply = some 0x55 ∧ S c.output ∨
    c.input = none ∧ c.reply = none ∧ c.output = some 0x55 ∧ S none

variable {S : Option UInt8 → Prop}

theorem SelfTest.stable : (device sends shows).Stable (SelfTest shows S) := by
  intro c c' ⟨hshown, hoff, hanswer⟩ hmove
  cases hmove with
  | @execute v hinput =>
    obtain ⟨htest, -, hS⟩ | ⟨hnone, -⟩ | ⟨hnone, -⟩ := hanswer
    · obtain rfl := Option.some.inj (hinput.symm.trans htest)
      exact ⟨hshown, hoff, .inr (.inl ⟨rfl, rfl, hS⟩)⟩
    · exact absurd (hnone.symm.trans hinput) (by simp)
    · exact absurd (hnone.symm.trans hinput) (by simp)
  | @answer b hreply houtput =>
    obtain ⟨-, hnone, -⟩ | ⟨hinput, h55, hS⟩ | ⟨-, hnone, -⟩ := hanswer
    · exact absurd (hnone.symm.trans hreply) (by simp)
    · obtain rfl := Option.some.inj (hreply.symm.trans h55)
      exact ⟨hshown, hoff, .inr (.inr ⟨hinput, rfl, rfl, houtput ▸ hS⟩)⟩
    · exact absurd (hnone.symm.trans hreply) (by simp)
  | send henabled => simp [hoff.1, hoff.2] at henabled
  | flags hshown' => exact ⟨hshown', hoff, hanswer⟩

theorem SelfTest.answers (hc : SelfTest shows S c) :
    ∃ c', ReflTransGen (Moves sends shows) c c' ∧ c'.output ≠ none := by
  by_cases houtput : c.output = none
  case neg => exact ⟨c, .refl, houtput⟩
  obtain ⟨hinput, -⟩ | ⟨-, hreply, -⟩ | ⟨-, -, h55, -⟩ := hc.answer
  · have hexecute : Moves sends shows c (c.execute 0xAA) := .execute hinput
    have hanswer : Moves sends shows (c.execute 0xAA) _ := .answer (b := 0x55) rfl houtput
    exact ⟨_, .tail (.single hexecute) hanswer, by simp⟩
  · exact ⟨_, .single (.answer hreply houtput), by simp⟩
  · exact absurd (houtput.symm.trans h55) (by simp)

/-- The byte that `i8042_check` takes for the answer. -/
theorem SelfTest.readData_sat : Sat (device sends shows)
    (fun b => Written shows 0xAA Off fun _ _ => b = 0x55 ∧ S none ∨ S (some b)) (SelfTest shows S)
    i8042ReadData := by
  refine I8042.readData_sat stable (fun b => Written.stable (.const _)) (fun c b hc hb => ?_)
    fun c hc => hc.answers
  have hbyte : b = 0x55 ∧ S none ∨ S (some b) := by
    obtain ⟨-, -, hS⟩ | ⟨-, -, hS⟩ | ⟨-, -, h55, hS⟩ := hc.answer
    · exact .inr (hb ▸ hS)
    · exact .inr (hb ▸ hS)
    · exact .inl ⟨Option.some.inj (hb.symm.trans h55), hS⟩
  have hinput (v : UInt8) (hv : c.input = some v) : v = 0xAA := by
    obtain ⟨htest, -⟩ | ⟨hnone, -⟩ | ⟨hnone, -⟩ := hc.answer
    · exact Option.some.inj (hv.symm.trans htest)
    · exact absurd (hnone.symm.trans hv) (by simp)
    · exact absurd (hnone.symm.trans hv) (by simp)
  exact ⟨hc.shown, hbyte, fun _ => hc.off, fun v hv => ⟨hinput v hv, hc.off⟩⟩

/-- What the result of the self-test says. -/
def Tested (shows : Set UInt8) (S : Option UInt8 → Prop) (passed : Bool) : I8042 → Prop :=
  if passed then Written shows i8042CmdEnableMouse On fun _ _ => S none ∨ S (some 0x55)
  else Written shows 0xAA Off fun _ _ => ∃ b, b ≠ 0x55 ∧ S (some b)

theorem i8042SelfTest_sat (hsends : S none → ∀ b ∈ sends, S (some b)) : Sat (device sends shows)
    (Tested shows S) (Written shows i8042CmdEnableMouse On (Quiet S)) i8042SelfTest := by
  have hquiet (cmd : UInt8) (htest : cmd ≠ 0xAA) : Closed sends cmd (Quiet S) :=
    Quiet.closed hsends htest
  refine Sat.bind (Written.writeCmd_sat (L := fun k _ => k = false) (hquiet _ (by decide))
    (hquiet _ (by decide)) (fun k m hk => rfl) fun _ _ h => h) fun _ => ?_
  refine Sat.bind (Written.writeCmd_sat (L := Off) (hquiet _ (by decide)) (hquiet _ (by decide))
    (fun k m hk => ⟨hk, rfl⟩) fun _ _ h => h) fun _ => ?_
  refine Sat.bind (I8042.writeCmd_sat (Written.stable (hquiet _ (by decide))) SelfTest.stable
    fun c hc hinput => ⟨hc.shown, hc.executed hinput, .inl ⟨rfl, hc.data⟩⟩) fun _ => ?_
  refine Sat.bind SelfTest.readData_sat fun response => ?_
  split_ifs with hresponse
  · -- the byte was sent before, and the keyboard stays off
    refine .ret (Written.stable (.const _)) fun c hc => ?_
    exact hc.weaken ⟨response, hresponse, hc.data.resolve_left fun h => hresponse h.1⟩
  have hdata (o r : Option UInt8) (h : response = 0x55 ∧ S none ∨ S (some response)) :
      S none ∨ S (some 0x55) := by
    obtain rfl := not_not.mp hresponse
    exact h.imp_left fun h => h.2
  refine Sat.bind (Written.writeCmd_sat (L := fun k _ => k = true) (.const _) (.const _)
    (fun k m hk => rfl) hdata) fun _ => ?_
  refine Sat.bind (Written.writeCmd_sat (L := On) (.const _) (.const _)
    (fun k m hk => ⟨hk, rfl⟩) fun _ _ h => h) fun _ => ?_
  exact .ret (Written.stable (.const _)) fun _ hc => hc

/-- The status can read as 0x00, or as 0xFF, which takes a byte to be read. -/
def Mute (shows : Set UInt8) (S : Option UInt8 → Prop) : Prop :=
  (∃ f ∈ shows, f &&& 0xFC = 0) ∨ (∃ f ∈ shows, f &&& 0xFC = 0xFC) ∧ ∃ b, S (some b)

theorem mute_of_status (hshown : c.flags ∈ shows) (hS : S c.output)
    (hstatus : c.status = 0x00 ∨ c.status = 0xFF) : Mute shows S := by
  obtain hzero | hfull := hstatus
  · exact .inl ⟨_, hshown, (c.status_eq_zero.mp hzero).1⟩
  · obtain ⟨hflags, houtput, -⟩ := c.status_eq_full.mp hfull
    obtain ⟨b, hb⟩ := Option.isSome_iff_exists.mp houtput
    exact .inr ⟨⟨_, hshown, hflags⟩, b, hb ▸ hS⟩

/-- What the result of `i8042_check` says: it fails on a byte that is not the answer, or before it
has sent a command. -/
def Found (shows : Set UInt8) (S : Option UInt8 → Prop) (found : Bool) (c : I8042) : Prop :=
  Tested shows S found c ∨
    found = false ∧ Written shows i8042CmdEnableMouse On (fun _ _ => Mute shows S) c

theorem i8042Check_sat (hsends : S none → ∀ b ∈ sends, S (some b)) : Sat (device sends shows)
    (Found shows S) (Written shows i8042CmdEnableMouse On (Quiet S)) i8042Check := by
  have hstable : (device sends shows).Stable (Written shows i8042CmdEnableMouse On (Quiet S)) :=
    Written.stable (Quiet.closed hsends (by decide))
  have hread (v : UInt8) : (device sends shows).Stable fun c =>
      Written shows i8042CmdEnableMouse On (Quiet S) c ∧ (v = 0x00 ∨ v = 0xFF → Mute shows S) :=
    fun c c' ⟨hc, hv⟩ hmove => ⟨hstable c c' hc hmove, hv⟩
  refine Sat.bind (.inb hstable
    (fun c hc => ⟨hc, fun hv => mute_of_status hc.shown hc.data.2 hv⟩) fun v =>
      .ret (hread v) fun _ hc => hc) fun v => ?_
  split_ifs with hstatus
  · exact .ret (hread v) fun c hc => .inr ⟨rfl, hc.1.weaken (hc.2 hstatus)⟩
  · exact ((i8042SelfTest_sat hsends).weaken (hread v) fun c hc => hc.1).mono
      fun passed c hc => .inl hc

/-- The keyboard and the mouse are enabled, or off for good: the command that is pending at the end
does not change it. -/
def Settled (on : Bool) (c : I8042) : Prop :=
  if on then c.kbd = true ∧ (c.input = none ∧ c.mouse = true ∨ c.input = some 0xA8)
  else c.kbd = false ∧ c.mouse = false ∧ (c.input = none ∨ c.input = some 0xAA)

theorem Written.settled_on (hc : Written shows i8042CmdEnableMouse On C c) : c.Settled true := by
  cases hinput : c.input with
  | none => exact ⟨(hc.executed hinput).1, .inl ⟨hinput, (hc.executed hinput).2⟩⟩
  | some v =>
    obtain ⟨rfl, hkbd, -⟩ := hc.pending v hinput
    exact ⟨hkbd, .inr hinput⟩

theorem Written.settled_off (hc : Written shows 0xAA Off C c) : c.Settled false := by
  cases hinput : c.input with
  | none => exact ⟨(hc.executed hinput).1, (hc.executed hinput).2, .inl hinput⟩
  | some v =>
    obtain ⟨rfl, hkbd, hmouse⟩ := hc.pending v hinput
    exact ⟨hkbd, hmouse, .inr hinput⟩

theorem Settled.not_both (hoff : c.Settled false) : ¬ c.Settled true :=
  fun hon => Bool.false_ne_true (hoff.1.symm.trans hon.1)

theorem i8042Boot_sat (sends shows : Set UInt8) :
    Sat (device sends shows) (Found shows (Sent sends)) (Idle shows) i8042Boot :=
  i8042Init_sat.bind fun _ =>
    i8042Check_sat fun _ _ hb _ hsome => Option.some.inj hsome ▸ hb

/-- What the controller does when nothing is sent, it can do. -/
theorem Run.of_silent {ρ : Type} {x y : State I8042 ρ} {ops : List Act}
    (h : Run (Step (device ∅ shows)) x ops y) : Run (Step (device sends shows)) x ops y := by
  refine PortIo.Run.mono (m := Moves sends shows) (fun c c' hmove => ?_) h
  cases hmove with
  | execute hinput => exact .execute hinput
  | answer hreply houtput => exact .answer hreply houtput
  | send _ _ hb => exact hb.elim
  | flags hshown => exact .flags hshown

/-- The last command of the constructor is still to be executed, and nothing is to be read. -/
structure Pending (shows : Set UInt8) (c : I8042) : Prop where
  written : Written shows i8042CmdEnableMouse On (Quiet (· = none)) c
  input : c.input = some i8042CmdEnableMouse

/-- The constructor can end in that state. -/
theorem i8042Init_pending (sends : Set UInt8) (hidle : c.Idle shows) :
    ∃ ops u, Run (Step (device sends shows)) ⟨c, i8042Init⟩ ops ⟨u, .ret ()⟩ ∧
      u.Pending shows := by
  have hfront : Sat (device ∅ shows) _ (Idle shows) i8042InitFront := i8042InitFront_sat
  obtain ⟨ops, u, ⟨⟩, hrun⟩ := hfront.ends hidle
  obtain ⟨hu, hinput⟩ := State.Sat.run ⟨_, hidle, hfront⟩ hrun
  have hnone (o r : Option UInt8) (h : Quiet (Sent ∅) o r) : Quiet (· = none) o r := by
    refine ⟨h.1, ?_⟩
    cases o with
    | none => rfl
    | some b => exact (h.2 b rfl).elim
  have hlast : Run (Step (device ∅ shows)) ⟨c, i8042Init⟩ _ ⟨_, .ret ()⟩ :=
    (PortIo.Run.bind hrun fun _ => .outb i8042CmdPort i8042CmdEnableMouse (.ret ())).snoc .outb
  have hwritten := hu.written hinput
  exact ⟨_, _, Run.of_silent hlast, hwritten.weaken (hnone _ _ hwritten.data), rfl⟩

/-- The boot goes on with the check after the controller has made its moves. -/
theorem i8042Boot_run {u s t : I8042} {found : Bool} {ops ops' : List Act}
    (hinit : Run (Step (device sends shows)) ⟨c, i8042Init⟩ ops ⟨u, .ret ()⟩)
    (hmoves : ReflTransGen (Moves sends shows) u s)
    (hcheck : Run (Step (device sends shows)) ⟨s, i8042Check⟩ ops' ⟨t, .ret found⟩) :
    ∃ ops, Run (Step (device sends shows)) ⟨c, i8042Boot⟩ ops ⟨t, .ret found⟩ := by
  have hbind := PortIo.Run.bind hinit fun _ => i8042Check
  obtain ⟨waits, hwait⟩ := Run.of_moves (d := device sends shows) hmoves i8042Check
  exact ⟨_, (hbind.append hwait).append hcheck⟩

/-- The first step of the check. -/
theorem i8042Check_step (s : I8042) : Step (device sends shows) ⟨s, i8042Check⟩ .access
    ⟨s, if s.status = 0x00 ∨ s.status = 0xFF then .ret false else i8042SelfTest⟩ := .inb

/-- A check whose first read sees neither 0x00 nor 0xFF makes the self-test. -/
theorem i8042Check_tests {s : I8042} (hstatus : ¬ (s.status = 0x00 ∨ s.status = 0xFF))
    (hsends : S none → ∀ b ∈ sends, S (some b))
    (hs : Written shows i8042CmdEnableMouse On (Quiet S) s) :
    ∃ ops t found, Run (Step (device sends shows)) ⟨s, i8042Check⟩ ops ⟨t, .ret found⟩ ∧
      t.Tested shows S found := by
  have hstep : Step (device sends shows) ⟨s, i8042Check⟩ .access _ := i8042Check_step s
  rw [if_neg hstatus] at hstep
  have hsat : Sat (device sends shows) (Tested shows S)
      (Written shows i8042CmdEnableMouse On (Quiet S)) i8042SelfTest := i8042SelfTest_sat hsends
  obtain ⟨ops, t, found, hrun⟩ := hsat.ends hs
  exact ⟨_, t, found, .cons hstep hrun, State.Sat.run ⟨_, hs, hsat⟩ hrun⟩

/-- One whose first read sees 0x00 or 0xFF fails. -/
theorem i8042Check_gives_up {s : I8042} (hstatus : s.status = 0x00 ∨ s.status = 0xFF) :
    Run (Step (device sends shows)) ⟨s, i8042Check⟩ [.access] ⟨s, .ret false⟩ := by
  have hstep : Step (device sends shows) ⟨s, i8042Check⟩ .access _ := i8042Check_step s
  rw [if_pos hstatus] at hstep
  exact .single hstep

variable {u : I8042}

theorem Pending.output (hu : u.Pending shows) : u.output = none := hu.written.data.2

theorem Pending.kbd (hu : u.Pending shows) : u.kbd = true := by
  obtain ⟨-, hkbd, -⟩ := hu.written.pending _ hu.input
  exact hkbd

/-- The devices are silent, and the status is read while the last command is pending. -/
theorem Pending.finds (hu : u.Pending shows) :
    ∃ ops t, Run (Step (device sends shows)) ⟨u, i8042Check⟩ ops ⟨t, .ret true⟩ := by
  have hstatus : ¬ (u.status = 0x00 ∨ u.status = 0xFF) := by
    rw [u.status_eq_zero, u.status_eq_full, hu.input, hu.output]
    simp
  have htests : ∃ ops t found, Run (Step (device ∅ shows)) ⟨u, i8042Check⟩ ops ⟨t, .ret found⟩ ∧
      t.Tested shows (· = none) found :=
    i8042Check_tests hstatus (fun _ _ hb => hb.elim) hu.written
  obtain ⟨ops, t, found, hrun, htested⟩ := htests
  cases found with
  | true => exact ⟨ops, t, Run.of_silent hrun⟩
  | false =>
    obtain ⟨b, -, hb⟩ := Written.data htested
    cases hb

/-- The byte is sent before the status is read, and it is read in the place of the answer. -/
theorem Pending.mistakes (hu : u.Pending shows) {b : UInt8} (hb : b ∈ sends) (hne : b ≠ 0x55) :
    ∃ s ops t, ReflTransGen (Moves sends shows) u s ∧
      Run (Step (device sends shows)) ⟨s, i8042Check⟩ ops ⟨t, .ret false⟩ ∧ t.Settled false := by
  have hexecute : Moves sends shows u (u.execute i8042CmdEnableMouse) := .execute hu.input
  have hquiet : (device ∅ shows).Stable
      (Written shows i8042CmdEnableMouse On (Quiet (· = none))) :=
    Written.stable (Quiet.closed (fun _ _ hb => hb.elim) (by decide))
  have hwritten := hquiet u _ hu.written (.execute hu.input)
  have hsend : Moves sends shows (u.execute i8042CmdEnableMouse)
      { u.execute i8042CmdEnableMouse with output := some b } :=
    .send (.inl hu.kbd) hu.output hb
  have hsent : Written shows i8042CmdEnableMouse On (Quiet (· = some b))
      { u.execute i8042CmdEnableMouse with output := some b } :=
    { hwritten with data := ⟨hwritten.data.1, rfl⟩ }
  have hstatus : ∀ s : I8042, s.output = some b → s.input = none →
      ¬ (s.status = 0x00 ∨ s.status = 0xFF) := by
    intro s houtput hinput
    rw [s.status_eq_zero, s.status_eq_full, houtput, hinput]
    simp
  have htests : ∃ ops t found, Run (Step (device sends shows))
      ⟨{ u.execute i8042CmdEnableMouse with output := some b }, i8042Check⟩ ops ⟨t, .ret found⟩ ∧
      t.Tested shows (· = some b) found :=
    i8042Check_tests (hstatus _ rfl rfl) (fun hnone => (nomatch hnone)) hsent
  obtain ⟨ops, t, found, hrun, htested⟩ := htests
  refine ⟨_, ops, t, .tail (.single hexecute) hsend, ?_⟩
  cases found with
  | false => exact ⟨hrun, Written.settled_off htested⟩
  | true =>
    obtain hnone | hself := Written.data htested
    · exact (nomatch hnone)
    · exact absurd (Option.some.inj hself).symm hne

/-- The status reads as 0x00 once the command is executed, or as 0xFF while it is pending behind a
byte. -/
theorem Pending.mute (hu : u.Pending shows) (hmute : Mute shows (Sent sends)) :
    ∃ s ops t, ReflTransGen (Moves sends shows) u s ∧
      Run (Step (device sends shows)) ⟨s, i8042Check⟩ ops ⟨t, .ret false⟩ ∧ t.Settled true := by
  obtain ⟨f, hf, hzero⟩ | ⟨⟨f, hf, hfull⟩, b, hb⟩ := hmute
  · have hexecute : Moves sends shows u (u.execute i8042CmdEnableMouse) := .execute hu.input
    have hflags : Moves sends shows (u.execute i8042CmdEnableMouse)
        { u.execute i8042CmdEnableMouse with flags := f } := .flags hf
    refine ⟨_, _, _, .tail (.single hexecute) hflags, i8042Check_gives_up (.inl ?_),
      hu.kbd, .inl ⟨rfl, rfl⟩⟩
    exact (status_eq_zero _).mpr ⟨hzero, hu.output, rfl⟩
  · have hflags : Moves sends shows u { u with flags := f } := .flags hf
    have hsend : Moves sends shows { u with flags := f } { u with flags := f, output := some b } :=
      .send (.inl hu.kbd) hu.output (hb b rfl)
    refine ⟨_, _, _, .tail (.single hflags) hsend, i8042Check_gives_up (.inr ?_),
      hu.kbd, .inr hu.input⟩
    exact (status_eq_full _).mpr ⟨hfull, rfl, by simp [hu.input]⟩

/-- How the boot can end. -/
structure Outcomes (sends shows : Set UInt8) (c : I8042) : Prop where
  found : ∀ ops t, Run (Step (device sends shows)) ⟨c, i8042Boot⟩ ops ⟨t, .ret true⟩ →
    t.Settled true
  missed : ∀ ops t, Run (Step (device sends shows)) ⟨c, i8042Boot⟩ ops ⟨t, .ret false⟩ →
    t.Settled false ∨ t.Settled true
  finds : ∃ ops t, Run (Step (device sends shows)) ⟨c, i8042Boot⟩ ops ⟨t, .ret true⟩
  /-- A byte is taken for the answer to the self-test. -/
  mistakes : (∃ ops t, Run (Step (device sends shows)) ⟨c, i8042Boot⟩ ops ⟨t, .ret false⟩ ∧
    t.Settled false) ↔ ∃ b ∈ sends, b ≠ 0x55
  /-- The status is taken for that of a bus without a controller. -/
  mute : (∃ ops t, Run (Step (device sends shows)) ⟨c, i8042Boot⟩ ops ⟨t, .ret false⟩ ∧
    t.Settled true) ↔ Mute shows (Sent sends)
  ends : ∀ ops x, Run (Step (device sends shows)) ⟨c, i8042Boot⟩ ops x →
    ∃ ops' t found, Run (Step (device sends shows)) x ops' ⟨t, .ret found⟩

/-- The kernel comes to an end with the controller whatever the keyboard and the mouse send and
whatever the other bits of the status are. It can miss the keyboard exactly when one of them sends a
byte that is not the answer to the self-test, or the status can look like that of no controller; in
the second case it leaves the keyboard on. -/
theorem i8042Boot_outcomes (sends shows : Set UInt8) {c : I8042} (hidle : c.Idle shows) :
    Outcomes sends shows c := by
  have hsat : (State.mk c i8042Boot).Sat (device sends shows) _ := ⟨_, hidle, i8042Boot_sat _ _⟩
  obtain ⟨ops, u, hinit, hu⟩ := i8042Init_pending sends hidle
  constructor
  case found =>
    intro ops t hrun
    obtain htested | ⟨hfalse, -⟩ := hsat.run hrun
    · exact Written.settled_on htested
    · cases hfalse
  case missed =>
    intro ops t hrun
    exact (hsat.run hrun).imp Written.settled_off fun h => h.2.settled_on
  case finds =>
    obtain ⟨ops', t, hcheck⟩ := hu.finds
    obtain ⟨ops'', hrun⟩ := i8042Boot_run hinit .refl hcheck
    exact ⟨ops'', t, hrun⟩
  case mistakes =>
    constructor
    · rintro ⟨ops, t, hrun, hoff⟩
      obtain htested | ⟨-, hon⟩ := hsat.run hrun
      · obtain ⟨b, hne, hb⟩ := Written.data htested
        exact ⟨b, hb b rfl, hne⟩
      · exact absurd hon.settled_on hoff.not_both
    · rintro ⟨b, hb, hne⟩
      obtain ⟨s, ops', t, hmoves, hcheck, hoff⟩ := hu.mistakes hb hne
      obtain ⟨ops'', hrun⟩ := i8042Boot_run hinit hmoves hcheck
      exact ⟨ops'', t, hrun, hoff⟩
  case mute =>
    constructor
    · rintro ⟨ops, t, hrun, hon⟩
      obtain htested | ⟨-, hmute⟩ := hsat.run hrun
      · exact absurd hon (Written.settled_off htested).not_both
      · exact hmute.data
    · intro hmute
      obtain ⟨s, ops', t, hmoves, hcheck, hon⟩ := hu.mute hmute
      obtain ⟨ops'', hrun⟩ := i8042Boot_run hinit hmoves hcheck
      exact ⟨ops'', t, hrun, hon⟩
  case ends =>
    intro ops x hrun
    exact hsat.ends hrun

/-- A byte of the keyboard is to be read, and the mouse is off. -/
def leftover : I8042 where
  input := none
  output := some 0x1C
  reply := none
  kbd := true
  mouse := false
  flags := 0x14

theorem i8042Boot_outcomes_leftover : leftover.Idle {0x14} ∧ ∃ ops t,
    Run (Step (device {0x1C} {0x14})) ⟨leftover, i8042Boot⟩ ops ⟨t, .ret false⟩ ∧ t.Settled false :=
  have hidle : leftover.Idle {0x14} := ⟨rfl, rfl, by decide⟩
  ⟨hidle, (i8042Boot_outcomes {0x1C} {0x14} hidle).mistakes.mpr ⟨0x1C, rfl, by decide⟩⟩

end I8042
end HolyOs.Drivers
