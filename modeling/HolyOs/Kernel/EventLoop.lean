import HolyOs.Cpu.Spinlock
import HolyOs.Drivers.Keyboard
import HolyOs.Terminal.Line

/-!
# The event loop and the keyboard interrupt

One processor runs the loop of `kmain`. Between two of its steps the keyboard interrupt may be
taken, and its handler then runs to the end before the loop goes on. The queue is shared, and its
lock is taken by both: every access to the lock, the queue and the flag of the handler is a step of
its own.

## Main results

* `loop_goes_on`: no step of the loop fails, in any reachable state.
* `handler_completes`, `pop_completes`: undisturbed, the steps of a call come to the call of
  `Drivers.Input`.
* `interrupts_outside_never_deadlock`: the handler waits for a lock of the loop exactly where an
  interrupt is taken between `spinlock_lock` and `spinlock_unlock` of `input_pop_event`.
-/
namespace HolyOs.Kernel

open ByteMemory HolyOs.Cpu HolyOs.Drivers HolyOs.Lib HolyOs.Terminal Transition

/-- Where the loop is. -/
inductive MainPc where
  /-- The messages printed before the loop. -/
  | banner
  | hasEvents
  | popLock (pc : LockPc)
  | popTest
  | popRead
  | popAdvance (event : KeyEvent)
  | popUnlock (event : KeyEvent)
  | handle (event : KeyEvent)

/-- Where the handler is. -/
inductive HandlerPc where
  | entry (data : UInt8)
  | pushLock (event : KeyEvent) (pc : LockPc)
  | pushTest (event : KeyEvent)
  | pushWrite (event : KeyEvent) (next : Nat)
  | pushAdvance (next : Nat)
  | pushUnlock

structure Machine where
  queue : InputQueue
  lock : Spinlock
  shiftPressed : Bool
  tty : Tty
  main : MainPc
  handler : Option HandlerPc

/-- What the processor does: a step of the loop, the interrupt with a byte from the keyboard, a step
of the handler. -/
inductive Act where
  | main
  | interrupt (data : UInt8)
  | handler

/-- The state in which `kmain` enables interrupts. -/
def Machine.boot (q : InputQueue) (l : Spinlock) (screen : Memory) : Machine where
  queue := inputInit q
  lock := spinlockInit l
  shiftPressed := false
  tty := ttyInit screen
  main := .banner
  handler := none

def mainStep (junk : Memory) (m : Machine) : MainPc → Except FormatFault Machine
  | .banner => .ok { m with main := .hasEvents }
  | .hasEvents =>
    .ok (if inputHasEvents m.queue ≠ 0 then { m with main := .popLock .exchange } else m)
  | .popLock pc =>
    match spinlockLockStep m.lock pc with
    | (some pc, lock) => .ok { m with lock := lock, main := .popLock pc }
    | (none, lock) => .ok { m with lock := lock, main := .popTest }
  | .popTest =>
    .ok { m with main := if m.queue.tail ≠ m.queue.head then .popRead else .popUnlock .zero }
  | .popRead => .ok { m with main := .popAdvance (m.queue.buffer m.queue.tail) }
  | .popAdvance event =>
    .ok { m with
      queue := { m.queue with tail := Word32.wrap (m.queue.tail + 1) % inputBufferSize },
      main := .popUnlock event }
  | .popUnlock event => .ok { m with lock := spinlockUnlock m.lock, main := .handle event }
  | .handle event =>
    match ttyHandleKeypress junk m.tty event with
    | .error fault => .error fault
    | .ok (tty, _) => .ok { m with tty := tty, main := .hasEvents }

def handlerStep (m : Machine) : HandlerPc → Machine
  | .entry data =>
    let shiftPressed := ps2kbdShift m.shiftPressed data
    { m with
      shiftPressed := shiftPressed,
      handler := some (.pushLock (ps2kbdEvent shiftPressed data) .exchange) }
  | .pushLock event pc =>
    match spinlockLockStep m.lock pc with
    | (some pc, lock) => { m with lock := lock, handler := some (.pushLock event pc) }
    | (none, lock) => { m with lock := lock, handler := some (.pushTest event) }
  | .pushTest event =>
    let next := Word32.wrap (m.queue.head + 1) % inputBufferSize
    { m with handler := some (if next ≠ m.queue.tail then .pushWrite event next else .pushUnlock) }
  | .pushWrite event next =>
    { m with
      queue := { m.queue with
        buffer := fun i => if i = m.queue.head then event else m.queue.buffer i },
      handler := some (.pushAdvance next) }
  | .pushAdvance next =>
    { m with queue := { m.queue with head := next }, handler := some .pushUnlock }
  | .pushUnlock => { m with lock := spinlockUnlock m.lock, handler := none }

/-- The loop only runs, and an interrupt is only taken, when the handler is not running. -/
inductive Machine.Step (junk : Memory) : Machine → Act → Machine → Prop
  | main {m m' : Machine} : m.handler = none → mainStep junk m m.main = .ok m' →
      Step junk m .main m'
  | interrupt {m : Machine} (data : UInt8) :
      m.handler = none → Step junk m (.interrupt data) { m with handler := some (.entry data) }
  | handler {m : Machine} {pc : HandlerPc} :
      m.handler = some pc → Step junk m .handler (handlerStep m pc)

/-! ## Who holds the lock -/

/-- Between the end of `spinlock_lock` and `spinlock_unlock`. -/
def MainPc.holdsLock : MainPc → Bool
  | .popTest | .popRead | .popAdvance _ | .popUnlock _ => true
  | _ => false

def HandlerPc.holdsLock : HandlerPc → Bool
  | .pushTest _ | .pushWrite _ _ | .pushAdvance _ | .pushUnlock => true
  | _ => false

/-- In the inner loop of `spinlock_lock`. -/
def HandlerPc.spins : HandlerPc → Bool
  | .pushLock _ .wait => true
  | _ => false

/-- The handler spins on a lock that the loop holds. -/
def Machine.Deadlocked (m : Machine) : Prop :=
  m.main.holdsLock = true ∧ m.handler.any HandlerPc.spins = true

instance (m : Machine) : Decidable m.Deadlocked := inferInstanceAs (Decidable (_ ∧ _))

/-- The lock is taken exactly while one of the two holds it, and never both do. -/
structure Machine.Owned (m : Machine) : Prop where
  free : m.lock.Free ↔ m.main.holdsLock = false ∧ m.handler.any HandlerPc.holdsLock = false
  exclusive : m.handler.any HandlerPc.holdsLock = true → m.main.holdsLock = false

theorem boot_owned (q : InputQueue) (l : Spinlock) (screen : Memory) :
    (Machine.boot q l screen).Owned where
  free := by simp [Machine.boot, MainPc.holdsLock]
  exclusive _ := rfl

variable {junk : Memory} {m m' : Machine}

theorem owned_of_idle (hidle : m.handler = none)
    (hfree : m.lock.Free ↔ m.main.holdsLock = false) : m.Owned where
  free := by simpa [hidle] using hfree
  exclusive hholds := by simp [hidle] at hholds

theorem owned_of_running {pc : HandlerPc} (hpc : m.handler = some pc)
    (hfree : m.lock.Free ↔ m.main.holdsLock = false ∧ pc.holdsLock = false)
    (hexclusive : pc.holdsLock = true → m.main.holdsLock = false) : m.Owned where
  free := by simpa [hpc] using hfree
  exclusive hholds := hexclusive (by simpa [hpc] using hholds)

theorem Machine.Owned.of_mainStep (h : m.Owned) (hidle : m.handler = none)
    (hstep : mainStep junk m m.main = .ok m') : m'.Owned := by
  have hfree := h.free
  simp only [hidle, Option.any_none, and_true] at hfree
  cases hmain : m.main <;> rw [hmain] at hstep hfree
  case hasEvents =>
    cases hstep
    split_ifs
    · exact owned_of_idle hidle hfree
    · exact h
  case popLock pc =>
    simp only [mainStep] at hstep
    split at hstep <;> cases hstep
    · exact owned_of_idle hidle ((spinlockLockStep_continue ‹_›).trans hfree)
    · have htaken := spinlockLockStep_return ‹_›
      exact owned_of_idle hidle (by simp [htaken.2, MainPc.holdsLock])
  case popTest =>
    cases hstep
    split_ifs
    all_goals exact owned_of_idle hidle hfree
  case popUnlock event =>
    cases hstep
    exact owned_of_idle hidle (by simp [MainPc.holdsLock])
  case handle event =>
    simp only [mainStep] at hstep
    split at hstep <;> cases hstep
    exact owned_of_idle hidle hfree
  -- the other steps touch neither the lock nor its holder
  all_goals
    cases hstep
    exact owned_of_idle hidle hfree

theorem Machine.Owned.of_handlerStep (h : m.Owned) {pc : HandlerPc} (hpc : m.handler = some pc) :
    (handlerStep m pc).Owned := by
  obtain ⟨hfree, hexclusive⟩ := h
  simp only [hpc, Option.any_some] at hfree hexclusive
  cases pc with
  | entry data => exact owned_of_running rfl hfree hexclusive
  | pushLock event pc =>
    simp only [handlerStep]
    split
    · exact owned_of_running rfl ((spinlockLockStep_continue ‹_›).trans hfree) hexclusive
    · have htaken := spinlockLockStep_return ‹_›
      exact owned_of_running rfl (by simp [htaken.2, HandlerPc.holdsLock]) fun _ =>
        (hfree.mp htaken.1).1
  | pushTest event =>
    have hloop := hexclusive rfl
    simp only [handlerStep]
    split_ifs
    all_goals exact owned_of_running rfl hfree fun _ => hloop
  | pushWrite event next => exact owned_of_running rfl hfree hexclusive
  | pushAdvance next => exact owned_of_running rfl hfree hexclusive
  | pushUnlock => exact owned_of_idle rfl (by simp [handlerStep, hexclusive rfl])

theorem Machine.Owned.step {a : Act} (h : m.Owned) (hstep : m.Step junk a m') : m'.Owned := by
  cases hstep with
  | main hidle hstep => exact h.of_mainStep hidle hstep
  | interrupt data hidle =>
    have hfree := h.free
    rw [hidle] at hfree
    exact owned_of_running rfl hfree fun hholds => by cases hholds
  | handler hpc => exact h.of_handlerStep hpc

theorem mainStep_handler {pc : MainPc} (hstep : mainStep junk m pc = .ok m') :
    m'.handler = m.handler := by
  cases pc <;> simp only [mainStep] at hstep
  case hasEvents => split_ifs at hstep <;> cases hstep <;> rfl
  case popLock | handle => split at hstep <;> cases hstep <;> rfl
  all_goals cases hstep; rfl

/-- The handler touches neither the loop nor the terminal. -/
theorem handlerStep_frame (m : Machine) (pc : HandlerPc) :
    (handlerStep m pc).main = m.main ∧ (handlerStep m pc).tty = m.tty := by
  cases pc with
  | pushLock event pc =>
    simp only [handlerStep]
    split <;> exact ⟨rfl, rfl⟩
  | _ => exact ⟨rfl, rfl⟩

@[simp] theorem handlerStep_main (m : Machine) (pc : HandlerPc) :
    (handlerStep m pc).main = m.main := (handlerStep_frame m pc).1

@[simp] theorem handlerStep_tty (m : Machine) (pc : HandlerPc) :
    (handlerStep m pc).tty = m.tty := (handlerStep_frame m pc).2

/-! ## A call that is not disturbed -/

/-- With the lock free, the handler runs to its end in at most six steps, and has pushed the event
of the byte. -/
theorem handler_completes (junk : Memory) (hfree : m.lock.Free) {data : UInt8}
    (hpc : m.handler = some (.entry data)) :
    ∃ acts, (∀ a ∈ acts, a = Act.handler) ∧ acts.length ≤ 6 ∧
      Run (Machine.Step junk) m acts
        { m with
          queue := (ps2kbdHandler m.shiftPressed m.queue data).2,
          lock := ⟨0⟩,
          shiftPressed := (ps2kbdHandler m.shiftPressed m.queue data).1,
          handler := none } := by
  obtain ⟨queue, lock, shiftPressed, tty, main, handler⟩ := m
  cases hpc
  cases Spinlock.eq_of_free hfree
  simp only [ps2kbdHandler]
  generalize hevent : ps2kbdEvent (ps2kbdShift shiftPressed data) data = event
  by_cases hroom : Word32.wrap (queue.head + 1) % inputBufferSize ≠ queue.tail
  · have hpush : inputPushEvent queue event = { queue with
        buffer := fun i => if i = queue.head then event else queue.buffer i,
        head := Word32.wrap (queue.head + 1) % inputBufferSize } := if_pos hroom
    refine ⟨[.handler, .handler, .handler, .handler, .handler, .handler], by simp, by simp, ?_⟩
    rw [hpush, ← hevent]
    exact .cons (.handler rfl) <| .cons (.handler rfl) <| .cons (.handler rfl) <|
      .cons (.handler (congrArg some (if_pos hroom))) <| .cons (.handler rfl) <|
      .cons (.handler rfl) .nil
  · have hpush : inputPushEvent queue event = queue := if_neg hroom
    refine ⟨[.handler, .handler, .handler, .handler], by simp, by simp, ?_⟩
    rw [hpush]
    exact .cons (.handler rfl) <| .cons (.handler rfl) <| .cons (.handler rfl) <|
      .cons (.handler (congrArg some (if_neg hroom))) .nil

/-- With the lock free, a loop that is not interrupted pops an event in at most five steps. -/
theorem pop_completes (junk : Memory) (hfree : m.lock.Free) (hidle : m.handler = none)
    (hmain : m.main = .popLock .exchange) :
    ∃ acts, (∀ a ∈ acts, a = Act.main) ∧ acts.length ≤ 5 ∧
      Run (Machine.Step junk) m acts
        { m with
          queue := (inputPopEvent m.queue).2,
          lock := ⟨0⟩,
          main := .handle (inputPopEvent m.queue).1 } := by
  obtain ⟨queue, lock, shiftPressed, tty, main, handler⟩ := m
  cases hidle
  cases hmain
  cases Spinlock.eq_of_free hfree
  by_cases hsome : queue.tail ≠ queue.head
  · have hpop : inputPopEvent queue = (queue.buffer queue.tail,
        { queue with tail := Word32.wrap (queue.tail + 1) % inputBufferSize }) := if_pos hsome
    refine ⟨[.main, .main, .main, .main, .main], by simp, by simp, ?_⟩
    rw [hpop]
    exact .cons (.main rfl rfl) <| .cons (.main rfl rfl) <|
      .cons (.main rfl (congrArg (mainStep junk _) (if_pos hsome))) <| .cons (.main rfl rfl) <|
      .cons (.main rfl rfl) .nil
  · have hpop : inputPopEvent queue = (.zero, queue) := if_neg hsome
    refine ⟨[.main, .main, .main], by simp, by simp, ?_⟩
    rw [hpop]
    exact .cons (.main rfl rfl) <| .cons (.main rfl rfl) <|
      .cons (.main rfl (congrArg (mainStep junk _) (if_neg hsome))) .nil

/-! ## The loop goes on -/

theorem mainStep_tty {pc : MainPc} (hline : ∃ line, HoldsLine m.tty line)
    (hstep : mainStep junk m pc = .ok m') : ∃ line, HoldsLine m'.tty line := by
  cases pc <;> simp only [mainStep] at hstep
  case hasEvents => split_ifs at hstep <;> cases hstep <;> exact hline
  case popLock => split at hstep <;> cases hstep <;> exact hline
  case handle event =>
    obtain ⟨line, hline⟩ := hline
    obtain ⟨t', actions, line', hrun, hline'⟩ := hline.handles junk event
    rw [hrun] at hstep
    cases hstep
    exact ⟨line', hline'⟩
  all_goals cases hstep; exact hline

/-- In every reachable state the loop has a next step, unless the handler is running. -/
theorem loop_goes_on {q : InputQueue} {l : Spinlock} {screen : Memory} {acts : List Act}
    (hrun : Run (Machine.Step junk) (.boot q l screen) acts m) (hidle : m.handler = none) :
    ∃ m', m.Step junk .main m' := by
  have hline : ∃ line, HoldsLine m.tty line := by
    refine hrun.invariant (I := fun m => ∃ line, HoldsLine m.tty line)
      ⟨[], holdsLine_init screen⟩ fun m a m' hline hstep => ?_
    cases hstep with
    | main _ hstep => exact mainStep_tty hline hstep
    | interrupt data _ => exact hline
    | @handler pc _ => rwa [handlerStep_tty]
  obtain ⟨line, hline⟩ := hline
  suffices hok : ∃ m', mainStep junk m m.main = .ok m' from
    hok.imp fun m' hstep => .main hidle hstep
  cases hmain : m.main with
  | popLock pc =>
    simp only [mainStep]
    split <;> exact ⟨_, rfl⟩
  | handle event =>
    obtain ⟨t', actions, -, hrun, -⟩ := hline.handles junk event
    simp only [mainStep, hrun]
    exact ⟨_, rfl⟩
  | _ => exact ⟨_, rfl⟩

/-! ## Interrupts outside the lock -/

/-- A step that takes no interrupt while the loop holds the lock. -/
def Machine.QuietStep (junk : Memory) (m : Machine) (a : Act) (m' : Machine) : Prop :=
  m.Step junk a m' ∧ ∀ data, a = .interrupt data → m.main.holdsLock = false

/-- The handler runs while the loop does not hold the lock, and never has to wait. -/
structure Machine.Quiet (m : Machine) : Prop extends m.Owned where
  apart : m.handler ≠ none → m.main.holdsLock = false
  prompt : m.handler.any HandlerPc.spins = false

theorem boot_quiet (q : InputQueue) (l : Spinlock) (screen : Memory) :
    (Machine.boot q l screen).Quiet where
  toOwned := boot_owned q l screen
  apart _ := rfl
  prompt := rfl

theorem Machine.Quiet.of_handlerStep (h : m.Quiet) {pc : HandlerPc} (hpc : m.handler = some pc) :
    (handlerStep m pc).Quiet where
  toOwned := h.toOwned.of_handlerStep hpc
  apart _ := by
    rw [handlerStep_main]
    exact h.apart (by simp [hpc])
  prompt := by
    have hloop := h.apart (by simp [hpc])
    have hprompt := h.prompt
    have hfree := h.free
    simp only [hpc, Option.any_some, hloop, true_and] at hfree hprompt
    cases pc with
    | pushLock event pc =>
      cases pc with
      | exchange => simp only [handlerStep, spinlockLockStep_of_free (hfree.mpr rfl)]; rfl
      | wait => cases hprompt
    | pushTest event =>
      simp only [handlerStep]
      split_ifs <;> rfl
    | _ => rfl

theorem Machine.Quiet.step {a : Act} (h : m.Quiet) (hstep : m.QuietStep junk a m') : m'.Quiet := by
  obtain ⟨hstep, hquiet⟩ := hstep
  have howned := h.toOwned.step hstep
  cases hstep with
  | main hidle hstep =>
    have hidle' := (mainStep_handler hstep).trans hidle
    exact ⟨howned, fun hne => absurd hidle' hne, by rw [hidle']; rfl⟩
  | interrupt data hidle => exact ⟨howned, fun _ => hquiet data rfl, rfl⟩
  | handler hpc => exact h.of_handlerStep hpc

theorem Machine.Quiet.not_deadlocked (h : m.Quiet) : ¬ m.Deadlocked := fun hdead =>
  Bool.false_ne_true (h.prompt.symm.trans hdead.2)

/-! ## An interrupt inside the lock -/

theorem Machine.Owned.not_free (h : m.Owned) (hholds : m.main.holdsLock = true) :
    ¬ m.lock.Free := fun hfree => Bool.false_ne_true ((h.free.mp hfree).1.symm.trans hholds)

/-- A handler that asks for a lock that is taken is in the inner loop after the next step. -/
theorem handlerStep_pushLock (hheld : ¬ m.lock.Free) (event : KeyEvent) (pc : LockPc) :
    (handlerStep m (.pushLock event pc)).handler = some (.pushLock event .wait) := by
  have hwait := spinlockLockStep_of_held hheld pc
  simp only [handlerStep]
  split
  · simp_all
  · simp_all

/-- The lock stays taken, so the handler stays in its loop and nothing else goes on. -/
theorem Machine.Deadlocked.step {a : Act} (h : m.Deadlocked) (howned : m.Owned)
    (hstep : m.Step junk a m') : m'.Deadlocked := by
  obtain ⟨hholds, hspins⟩ := h
  cases hstep with
  | main hidle _ => simp [hidle] at hspins
  | interrupt data hidle => simp [hidle] at hspins
  | @handler pc hpc =>
    simp only [hpc, Option.any_some] at hspins
    cases pc with
    | pushLock event pc =>
      refine ⟨by rwa [handlerStep_main], ?_⟩
      rw [handlerStep_pushLock (howned.not_free hholds)]
      rfl
    | _ => cases hspins

/-- Two steps of the handler after the interrupt, the machine is frozen. -/
theorem Machine.Owned.interrupt_deadlocks (h : m.Owned) (hidle : m.handler = none)
    (hholds : m.main.holdsLock = true) (junk : Memory) (data : UInt8) :
    ∃ m', Run (Machine.Step junk) m [.interrupt data, .handler, .handler] m' ∧ m'.Deadlocked := by
  refine ⟨_, .cons (.interrupt data hidle) <| .cons (.handler rfl) <| .cons (.handler rfl) .nil, ?_⟩
  refine ⟨by rwa [handlerStep_main, handlerStep_main], ?_⟩
  rw [handlerStep_pushLock ?_]
  · rfl
  · exact h.not_free hholds

/-- With interrupts only outside the lock, the handler never spins on a lock of the loop. Any
interrupt inside it stops the machine for ever. -/
theorem interrupts_outside_never_deadlock (junk : Memory) (q : InputQueue) (l : Spinlock)
    (screen : Memory) :
    (∀ acts m, Run (Machine.QuietStep junk) (.boot q l screen) acts m → ¬ m.Deadlocked) ∧
    (∀ acts m data, Run (Machine.Step junk) (.boot q l screen) acts m → m.handler = none →
      m.main.holdsLock = true →
      ∃ m', Run (Machine.Step junk) m [.interrupt data, .handler, .handler] m' ∧
        ∀ more m'', Run (Machine.Step junk) m' more m'' → m''.Deadlocked) := by
  constructor
  · intro acts m hrun
    have hquiet : m.Quiet :=
      hrun.invariant (boot_quiet q l screen) fun _ _ _ h hstep => h.step hstep
    exact hquiet.not_deadlocked
  · intro acts m data hrun hidle hholds
    have howned : m.Owned :=
      hrun.invariant (boot_owned q l screen) fun _ _ _ h hstep => h.step hstep
    obtain ⟨m', hrun', hdead⟩ := howned.interrupt_deadlocks hidle hholds junk data
    have howned' : m'.Owned := hrun'.invariant howned fun _ _ _ h hstep => h.step hstep
    refine ⟨m', hrun', fun more m'' hmore => ?_⟩
    have hfrozen : m''.Owned ∧ m''.Deadlocked :=
      hmore.invariant (I := fun m => m.Owned ∧ m.Deadlocked) ⟨howned', hdead⟩
        fun _ _ _ h hstep => ⟨h.1.step hstep, h.2.step h.1 hstep⟩
    exact hfrozen.2

/-- A key is pressed, and the interrupt of its release comes while the loop pops the event. -/
theorem interrupt_inside_deadlocks : ¬ ∀ (junk : Memory) (q : InputQueue) (l : Spinlock)
    (screen : Memory) (acts : List Act) (m : Machine),
    Run (Machine.Step junk) (.boot q l screen) acts m → ¬ m.Deadlocked := by
  intro h
  let start := Machine.boot ⟨fun _ => .zero, 0, 0⟩ ⟨0⟩ fun _ => 0
  obtain ⟨acts, m, hrun, hidle, hholds⟩ : ∃ acts m,
      Run (Machine.Step fun _ => 0) start acts m ∧ m.handler = none ∧ m.main.holdsLock = true :=
    ⟨_, _, .cons (.main rfl rfl) <| .cons (.interrupt 0x1E rfl) <| .cons (.handler rfl) <|
      .cons (.handler rfl) <| .cons (.handler rfl) <| .cons (.handler rfl) <|
      .cons (.handler rfl) <| .cons (.handler rfl) <| .cons (.main rfl rfl) <|
      .cons (.main rfl rfl) .nil, rfl, rfl⟩
  have howned : m.Owned := hrun.invariant (boot_owned _ _ _) fun _ _ _ h hstep => h.step hstep
  obtain ⟨m', hrun', hdead⟩ := howned.interrupt_deadlocks hidle hholds (fun _ => 0) 0x9E
  exact h _ _ _ _ _ _ (hrun.append hrun') hdead

end HolyOs.Kernel
