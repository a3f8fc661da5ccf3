import HolyOs.Drivers.Shift
import HolyOs.Kernel.EventLoop

/-!
# From the keyboard to the terminal

The machine of the event loop with a record of what went through it: the bytes the keyboard sent,
the events its handler offered to the queue, and those the loop gave to the terminal. Whatever the
order of the steps, an event is lost only where 255 others are waiting, and the terminal is what the
events make of it in the order of their bytes.

## Main results

* `keyboard_to_terminal`: the record and the machine agree after every run.
-/
namespace HolyOs.Kernel

open ByteMemory HolyOs.Cpu HolyOs.Drivers HolyOs.Lib HolyOs.Terminal Transition

/-- An event the handler wants to push, the number of those that are waiting, and what the test of
`input_push_event` says. -/
structure Offer where
  event : KeyEvent
  waiting : Nat
  taken : Bool

structure Trace where
  bytes : List UInt8
  offers : List Offer
  handled : List KeyEvent

def Trace.accepted (t : Trace) : List KeyEvent := (t.offers.filter Offer.taken).map Offer.event

/-- The record of a step from the machine `m`. -/
def Trace.enter (t : Trace) (m : Machine) : Act → Trace
  | .interrupt data => { t with bytes := t.bytes ++ [data] }
  | .main =>
    match m.main with
    | .handle event => { t with handled := t.handled ++ [event] }
    | _ => t
  | .handler =>
    match m.handler with
    | some (.pushTest event) =>
      let taken := Word32.wrap (m.queue.head + 1) % inputBufferSize ≠ m.queue.tail
      { t with offers := t.offers ++ [⟨event, (queued m.queue).length, taken⟩] }
    | _ => t

structure Observed where
  machine : Machine
  trace : Trace

def Observed.boot (q : InputQueue) (l : Spinlock) (screen : Memory) : Observed :=
  ⟨.boot q l screen, ⟨[], [], []⟩⟩

def Observed.Step (junk : Memory) (s : Observed) (a : Act) (s' : Observed) : Prop :=
  s.machine.Step junk a s'.machine ∧ s'.trace = s.trace.enter s.machine a

/-- The next state, where there is one. -/
def Observed.next (junk : Memory) (s : Observed) (a : Act) : Option Observed :=
  let m := s.machine
  let next := match a with
    | .main => if m.handler.isNone then (mainStep junk m m.main).toOption else none
    | .interrupt data =>
      if m.handler.isNone then some { m with handler := some (.entry data) } else none
    | .handler => m.handler.map (handlerStep m)
  next.map fun m' => ⟨m', s.trace.enter m a⟩

theorem Observed.step_of_next {junk : Memory} {s s' : Observed} {a : Act}
    (h : s.next junk a = some s') : s.Step junk a s' := by
  obtain ⟨m', hm', rfl⟩ := Option.map_eq_some_iff.mp h
  refine ⟨?_, rfl⟩
  cases a with
  | main =>
    simp only [Option.ite_none_right_eq_some, Option.isNone_iff_eq_none] at hm'
    cases hstep : mainStep junk s.machine s.machine.main with
    | error => simp [hstep, Except.toOption] at hm'
    | ok m => exact .main hm'.1 (by rw [hstep] at hm' ⊢; exact congrArg _ (Option.some.inj hm'.2))
  | interrupt data =>
    simp only [Option.ite_none_right_eq_some, Option.isNone_iff_eq_none] at hm'
    obtain ⟨hidle, hm'⟩ := hm'
    cases hm'
    exact .interrupt data hidle
  | handler =>
    obtain ⟨pc, hpc, rfl⟩ := Option.map_eq_some_iff.mp hm'
    exact .handler hpc

/-! ## Where an event is -/

/-- Popped and not yet handled. -/
def MainPc.carried : MainPc → List KeyEvent
  | .popUnlock event | .handle event => [event]
  | _ => []

/-- Decoded and not yet offered. -/
def Machine.undecided (m : Machine) : List KeyEvent :=
  match m.handler with
  | some (.entry data) => [ps2kbdEvent (ps2kbdShift m.shiftPressed data) data]
  | some (.pushLock event _) | some (.pushTest event) => [event]
  | _ => []

/-- Accepted and not yet in the queue. -/
def Machine.writing (m : Machine) : List KeyEvent :=
  match m.handler with
  | some (.pushWrite event _) => [event]
  | some (.pushAdvance _) => [m.queue.buffer m.queue.head]
  | _ => []

/-- What the record says about the machine. -/
structure Observed.Flows (junk screen : Memory) (s : Observed) : Prop where
  /-- Every byte is an event, offered in the order of the bytes. -/
  decoded : ps2kbdEvents false s.trace.bytes =
    s.trace.offers.map Offer.event ++ s.machine.undecided
  /-- Only a full queue refuses an event. -/
  refused : ∀ o ∈ s.trace.offers, o.taken = true ↔ o.waiting < 255
  /-- What was accepted was handled, or is on its way, in this order. -/
  ordered : s.trace.accepted =
    s.trace.handled ++ s.machine.main.carried ++ queued s.machine.queue ++ s.machine.writing
  /-- The terminal is what the handled events make of it. -/
  terminal : ∃ actions, ttyHandleKeypresses junk (ttyInit screen) s.trace.handled =
    .ok (s.machine.tty, actions)

/-! ## What the steps keep -/

/-- A loop that has seen an event finds it. -/
def MainPc.Ready (q : InputQueue) : MainPc → Prop
  | .popLock _ | .popTest | .popRead => queued q ≠ []
  | .popAdvance event => ∃ rest, queued q = event :: rest
  | _ => True

/-- A push that goes on has room. -/
def HandlerPc.Ready (q : InputQueue) : HandlerPc → Prop
  | .pushWrite _ next | .pushAdvance next => next = Ring.next 256 q.head ∧ next ≠ q.tail
  | _ => True

/-- The flag of the handler, or what its first step makes of it. -/
def Machine.shiftAfter (m : Machine) : Bool :=
  match m.handler with
  | some (.entry data) => ps2kbdShift m.shiftPressed data
  | _ => m.shiftPressed

structure Observed.Sound (junk screen : Memory) (s : Observed) : Prop
    extends s.Flows junk screen where
  valid : Ring.Valid 256 s.machine.queue
  ready : s.machine.main.Ready s.machine.queue
  pushing : ∀ pc, s.machine.handler = some pc → pc.Ready s.machine.queue
  shift : s.machine.shiftAfter = s.trace.bytes.foldl ps2kbdShift false

variable {junk screen : Memory} {s : Observed} {m' : Machine}

theorem ps2kbdEvents_concat (flag : Bool) (bytes : List UInt8) (data : UInt8) :
    ps2kbdEvents flag (bytes ++ [data]) = ps2kbdEvents flag bytes ++
      [ps2kbdEvent (ps2kbdShift (bytes.foldl ps2kbdShift flag) data) data] := by
  induction bytes generalizing flag with
  | nil => rfl
  | cons b bytes ih => exact congrArg _ (ih _)

theorem ttyHandleKeypresses_concat {t t₁ t₂ : Tty} {events : List KeyEvent} {event : KeyEvent}
    {actions : List (List LineAction)} {last : List LineAction}
    (hrun : ttyHandleKeypresses junk t events = .ok (t₁, actions))
    (hlast : ttyHandleKeypress junk t₁ event = .ok (t₂, last)) :
    ttyHandleKeypresses junk t (events ++ [event]) = .ok (t₂, actions ++ [last]) := by
  induction events generalizing t actions with
  | nil =>
    cases hrun
    simp [ttyHandleKeypresses, hlast]
  | cons e events ih =>
    simp only [List.cons_append, ttyHandleKeypresses] at hrun ⊢
    split at hrun
    · cases hrun
    · split at hrun <;> cases hrun
      rw [ih ‹_›]
      rfl

theorem boot_sound (junk : Memory) (q : InputQueue) (l : Spinlock) (screen : Memory) :
    (Observed.boot q l screen).Sound junk screen where
  decoded := rfl
  refused _ ho := absurd ho List.not_mem_nil
  ordered := rfl
  terminal := ⟨[], rfl⟩
  valid := ⟨Nat.succ_pos 255, Nat.succ_pos 255⟩
  ready := trivial
  pushing _ hpc := nomatch hpc
  shift := rfl

/-- What a step of the loop has to show, the handler being at rest. -/
theorem Observed.Sound.of_main (h : s.Sound junk screen) (hidle : s.machine.handler = none)
    {handled : List KeyEvent} (hhandler : m'.handler = none)
    (hshift : m'.shiftPressed = s.machine.shiftPressed) (hvalid : Ring.Valid 256 m'.queue)
    (hready : m'.main.Ready m'.queue)
    (hordered : s.trace.handled ++ s.machine.main.carried ++ queued s.machine.queue =
      handled ++ m'.main.carried ++ queued m'.queue)
    (hterminal : ∃ actions, ttyHandleKeypresses junk (ttyInit screen) handled =
      .ok (m'.tty, actions)) :
    Observed.Sound junk screen ⟨m', { s.trace with handled := handled }⟩ where
  decoded := by
    have hdecoded := h.decoded
    simp only [Machine.undecided, hidle, hhandler] at hdecoded ⊢
    exact hdecoded
  refused := h.refused
  ordered := by
    have hold := h.ordered
    simp only [Machine.writing, hidle, hhandler, List.append_nil] at hold ⊢
    exact hold.trans hordered
  terminal := hterminal
  valid := hvalid
  ready := hready
  pushing pc hpc := by
    rw [hhandler] at hpc
    cases hpc
  shift := by
    have hold := h.shift
    simp only [Machine.shiftAfter, hidle, hhandler, hshift] at hold ⊢
    exact hold

theorem mainStep_shift {pc : MainPc} {m : Machine} (hstep : mainStep junk m pc = .ok m') :
    m'.shiftPressed = m.shiftPressed := by
  cases pc <;> simp only [mainStep] at hstep
  case hasEvents => split_ifs at hstep <;> cases hstep <;> rfl
  case popLock | handle => split at hstep <;> cases hstep <;> rfl
  all_goals cases hstep; rfl

theorem Observed.Sound.main (h : s.Sound junk screen) (hidle : s.machine.handler = none)
    (hstep : mainStep junk s.machine s.machine.main = .ok m') :
    Observed.Sound junk screen ⟨m', s.trace.enter s.machine .main⟩ := by
  have hhandler := (mainStep_handler hstep).trans hidle
  have hshift := mainStep_shift hstep
  have hready := h.ready
  have hvalid := h.valid
  cases hmain : s.machine.main <;> rw [hmain] at hstep hready
  case banner =>
    have henter : s.trace.enter s.machine .main = s.trace := by simp only [Trace.enter, hmain]
    cases hstep
    rw [henter]
    exact h.of_main hidle hhandler hshift hvalid trivial (by simp [hmain, MainPc.carried])
      h.terminal
  case hasEvents =>
    have henter : s.trace.enter s.machine .main = s.trace := by simp only [Trace.enter, hmain]
    rw [henter]
    simp only [mainStep] at hstep
    split_ifs at hstep with hevents
    · cases hstep
      have hnonempty : queued s.machine.queue ≠ [] := by
        unfold inputHasEvents at hevents
        rw [queued, ne_eq, ← hvalid.empty_iff]
        grind
      exact h.of_main hidle hhandler hshift hvalid hnonempty (by simp [hmain, MainPc.carried])
        h.terminal
    · cases hstep
      exact h
  case popLock pc =>
    have henter : s.trace.enter s.machine .main = s.trace := by simp only [Trace.enter, hmain]
    rw [henter]
    simp only [mainStep] at hstep
    split at hstep <;> cases hstep
    all_goals
      exact h.of_main hidle hhandler hshift hvalid hready (by simp [hmain, MainPc.carried])
        h.terminal
  case popTest =>
    have henter : s.trace.enter s.machine .main = s.trace := by simp only [Trace.enter, hmain]
    have hne : s.machine.queue.tail ≠ s.machine.queue.head := hvalid.empty_iff.not.mpr hready
    cases hstep
    rw [henter, if_pos hne]
    exact h.of_main hidle hidle rfl hvalid hready (by simp [hmain, MainPc.carried]) h.terminal
  case popRead =>
    have henter : s.trace.enter s.machine .main = s.trace := by simp only [Trace.enter, hmain]
    have hpop := hvalid.contents_pop KeyEvent.zero hready
    rw [Ring.pop, if_neg (hvalid.empty_iff.not.mpr hready)] at hpop
    cases hstep
    rw [henter]
    exact h.of_main hidle hhandler hshift hvalid ⟨_, hpop⟩ (by simp [hmain, MainPc.carried])
      h.terminal
  case popAdvance event =>
    have henter : s.trace.enter s.machine .main = s.trace := by simp only [Trace.enter, hmain]
    obtain ⟨rest, hrest⟩ := hready
    have hne : queued s.machine.queue ≠ [] := hrest ▸ List.cons_ne_nil _ _
    have hpop := hvalid.contents_pop KeyEvent.zero hne
    have hpopped := hvalid.pop KeyEvent.zero
    rw [Ring.pop, if_neg (hvalid.empty_iff.not.mpr hne)] at hpop hpopped
    obtain ⟨rfl, rfl⟩ := List.cons.inj (hrest.symm.trans hpop)
    cases hstep
    rw [henter, wrap_succ_mod]
    refine h.of_main hidle hidle rfl hpopped trivial ?_ h.terminal
    rw [hmain, hrest]
    simp [MainPc.carried, queued]
  case popUnlock event =>
    have henter : s.trace.enter s.machine .main = s.trace := by simp only [Trace.enter, hmain]
    cases hstep
    rw [henter]
    exact h.of_main hidle hhandler hshift hvalid trivial (by simp [hmain, MainPc.carried])
      h.terminal
  case handle event =>
    have henter : s.trace.enter s.machine .main =
        { s.trace with handled := s.trace.handled ++ [event] } := by
      simp only [Trace.enter, hmain]
    simp only [mainStep] at hstep
    split at hstep
    · cases hstep
    · cases hstep
      obtain ⟨actions, hterminal⟩ := h.terminal
      rw [henter]
      exact h.of_main hidle hhandler hshift h.valid trivial (by simp [hmain, MainPc.carried])
        ⟨_, ttyHandleKeypresses_concat hterminal ‹_›⟩

theorem Observed.Sound.interrupt (h : s.Sound junk screen) (hidle : s.machine.handler = none)
    (data : UInt8) : Observed.Sound junk screen
      ⟨{ s.machine with handler := some (.entry data) },
        s.trace.enter s.machine (.interrupt data)⟩ where
  decoded := by
    have hdecoded := h.decoded
    have hshift := h.shift
    simp only [Machine.undecided, Machine.shiftAfter, hidle, List.append_nil] at hdecoded hshift
    simp only [Trace.enter, Machine.undecided, ps2kbdEvents_concat, hdecoded, hshift]
  refused := h.refused
  ordered := by
    have hordered := h.ordered
    simp only [Machine.writing, hidle] at hordered
    exact hordered
  terminal := h.terminal
  valid := h.valid
  ready := h.ready
  pushing pc hpc := by
    obtain rfl := Option.some.inj hpc
    trivial
  shift := by
    have hshift := h.shift
    simp only [Machine.shiftAfter, hidle] at hshift
    simp only [Trace.enter, Machine.shiftAfter, List.foldl_concat, hshift]

/-- What a step of the handler has to show; `extra` is what it got accepted. -/
theorem Observed.Sound.of_handler (h : s.Sound junk screen) {offers : List Offer}
    (extra : List KeyEvent)
    (hmain : m'.main = s.machine.main) (htty : m'.tty = s.machine.tty)
    (hshift : m'.shiftAfter = s.machine.shiftAfter)
    (hoffered : offers.map Offer.event ++ m'.undecided =
      s.trace.offers.map Offer.event ++ s.machine.undecided)
    (hrefused : ∀ o ∈ offers, o.taken = true ↔ o.waiting < 255)
    (haccepted : (offers.filter Offer.taken).map Offer.event = s.trace.accepted ++ extra)
    (hqueue : queued s.machine.queue ++ s.machine.writing ++ extra =
      queued m'.queue ++ m'.writing)
    (hvalid : Ring.Valid 256 m'.queue)
    (hready : m'.main.Ready m'.queue)
    (hpushing : ∀ pc, m'.handler = some pc → pc.Ready m'.queue) :
    Observed.Sound junk screen ⟨m', { s.trace with offers := offers }⟩ where
  decoded := h.decoded.trans hoffered.symm
  refused := hrefused
  ordered := by
    rw [hmain, List.append_assoc, ← hqueue]
    refine haccepted.trans ?_
    rw [h.ordered]
    simp only [List.append_assoc]
  terminal := by
    rw [htty]
    exact h.terminal
  valid := hvalid
  ready := hready
  pushing := hpushing
  shift := hshift.trans h.shift

/-- More events in the queue leave a loop that waits for one where it is. -/
theorem MainPc.Ready.append {q q' : InputQueue} {extra : List KeyEvent} {pc : MainPc}
    (h : pc.Ready q) (hq : queued q' = queued q ++ extra) : pc.Ready q' := by
  cases pc with
  | popLock | popTest | popRead =>
    have hne : queued q ≠ [] := h
    show queued q' ≠ []
    rw [hq]
    exact List.append_ne_nil_of_left_ne_nil hne _
  | popAdvance event =>
    obtain ⟨rest, hrest⟩ := h
    exact ⟨rest ++ extra, by rw [hq, hrest, List.cons_append]⟩
  | _ => trivial

/-- A step of the handler that offers nothing. -/
theorem Observed.Sound.of_silent (h : s.Sound junk screen) (hmain : m'.main = s.machine.main)
    (htty : m'.tty = s.machine.tty) (hshift : m'.shiftAfter = s.machine.shiftAfter)
    (hundecided : m'.undecided = s.machine.undecided)
    (hqueue : queued s.machine.queue ++ s.machine.writing = queued m'.queue ++ m'.writing)
    (hvalid : Ring.Valid 256 m'.queue) (hready : m'.main.Ready m'.queue)
    (hpushing : ∀ pc, m'.handler = some pc → pc.Ready m'.queue) :
    Observed.Sound junk screen ⟨m', s.trace⟩ :=
  h.of_handler [] hmain htty hshift (by rw [hundecided]) h.refused (List.append_nil _).symm
    (by rw [List.append_nil, hqueue]) hvalid hready hpushing

/-- A step of the handler that leaves the queue alone too. -/
theorem Observed.Sound.of_same (h : s.Sound junk screen) (hmain : m'.main = s.machine.main)
    (htty : m'.tty = s.machine.tty) (hq : m'.queue = s.machine.queue)
    (hshift : m'.shiftAfter = s.machine.shiftAfter)
    (hundecided : m'.undecided = s.machine.undecided) (hwriting : m'.writing = s.machine.writing)
    (hpushing : ∀ pc, m'.handler = some pc → pc.Ready m'.queue) :
    Observed.Sound junk screen ⟨m', s.trace⟩ :=
  h.of_silent hmain htty hshift hundecided (by rw [hq, hwriting]) (by rw [hq]; exact h.valid)
    (by rw [hq, hmain]; exact h.ready) hpushing

theorem Observed.Sound.handler (h : s.Sound junk screen) {pc : HandlerPc}
    (hpc : s.machine.handler = some pc) : Observed.Sound junk screen
      ⟨handlerStep s.machine pc, s.trace.enter s.machine .handler⟩ := by
  have hvalid := h.valid
  have hpushing := h.pushing pc hpc
  have hmain := handlerStep_main s.machine pc
  have htty := handlerStep_tty s.machine pc
  cases pc with
  | entry data =>
    have henter : s.trace.enter s.machine .handler = s.trace := by simp only [Trace.enter, hpc]
    rw [henter]
    apply h.of_same hmain htty rfl
    case hshift => simp only [handlerStep, Machine.shiftAfter, hpc]
    case hundecided => simp only [handlerStep, Machine.undecided, hpc]
    case hwriting => simp only [handlerStep, Machine.writing, hpc]
    case hpushing =>
      intro pc hpc
      obtain rfl := Option.some.inj hpc
      trivial
  | pushLock event pc =>
    have henter : s.trace.enter s.machine .handler = s.trace := by simp only [Trace.enter, hpc]
    rw [henter]
    simp only [handlerStep] at hmain htty ⊢
    split
    all_goals
      apply h.of_same
      case hmain => rfl
      case htty => rfl
      case hq => rfl
      case hshift => simp only [Machine.shiftAfter, hpc]
      case hundecided => simp only [Machine.undecided, hpc]
      case hwriting => simp only [Machine.writing, hpc]
      case hpushing =>
        intro pc hpc
        obtain rfl := Option.some.inj hpc
        trivial
  | pushTest event =>
    have hlength : (queued s.machine.queue).length < 256 := by
      rw [queued, Ring.length_contents]
      exact hvalid.length_lt
    have hfull : Ring.next 256 s.machine.queue.head = s.machine.queue.tail ↔
        (queued s.machine.queue).length = 255 := hvalid.full_iff
    simp only [handlerStep, Trace.enter, hpc, wrap_succ_mod]
    apply h.of_handler
      (if Ring.next 256 s.machine.queue.head ≠ s.machine.queue.tail then [event] else [])
    case hmain => rfl
    case htty => rfl
    case hshift => split_ifs <;> simp only [Machine.shiftAfter, hpc]
    case hoffered => split_ifs <;> simp [Machine.undecided, hpc]
    case hrefused =>
      intro o ho
      rcases List.mem_append.mp ho with ho | ho
      · exact h.refused o ho
      · obtain rfl := List.mem_singleton.mp ho
        simp only [decide_eq_true_eq, ne_eq, hfull]
        omega
    case haccepted => split_ifs with hroom <;> simp [Trace.accepted, List.filter_append, hroom]
    case hqueue => split_ifs <;> simp [Machine.writing, hpc]
    case hvalid => exact hvalid
    case hready => exact h.ready
    case hpushing =>
      intro pc hpc
      obtain rfl := Option.some.inj hpc
      split_ifs with hroom
      · exact ⟨rfl, hroom⟩
      · trivial
  | pushWrite event next =>
    obtain ⟨rfl, hroom⟩ := hpushing
    have henter : s.trace.enter s.machine .handler = s.trace := by simp only [Trace.enter, hpc]
    have hcontents := hvalid.contents_write event hroom
    rw [henter]
    apply h.of_silent hmain htty
    case hshift => simp only [handlerStep, Machine.shiftAfter, hpc]
    case hundecided => simp only [handlerStep, Machine.undecided, hpc]
    case hqueue => simp only [handlerStep, Machine.writing, hpc, queued, hcontents, if_true]
    case hvalid => exact ⟨hvalid.head_lt, hvalid.tail_lt⟩
    case hready => exact h.ready.append (hcontents.trans (List.append_nil _).symm)
    case hpushing =>
      intro pc hpc
      obtain rfl := Option.some.inj hpc
      exact ⟨rfl, hroom⟩
  | pushAdvance next =>
    obtain ⟨rfl, hroom⟩ := hpushing
    have henter : s.trace.enter s.machine .handler = s.trace := by simp only [Trace.enter, hpc]
    have hcontents := hvalid.contents_advance hroom
    rw [henter]
    apply h.of_silent hmain htty
    case hshift => simp only [handlerStep, Machine.shiftAfter, hpc]
    case hundecided => simp only [handlerStep, Machine.undecided, hpc]
    case hqueue => simp only [handlerStep, Machine.writing, hpc, queued, hcontents, List.append_nil]
    case hvalid => exact ⟨Ring.next_lt hvalid.head_lt, hvalid.tail_lt⟩
    case hready => exact h.ready.append hcontents
    case hpushing =>
      intro pc hpc
      obtain rfl := Option.some.inj hpc
      trivial
  | pushUnlock =>
    have henter : s.trace.enter s.machine .handler = s.trace := by simp only [Trace.enter, hpc]
    rw [henter]
    apply h.of_same hmain htty rfl
    case hshift => simp only [handlerStep, Machine.shiftAfter, hpc]
    case hundecided => simp only [handlerStep, Machine.undecided, hpc]
    case hwriting => simp only [handlerStep, Machine.writing, hpc]
    case hpushing =>
      intro pc hpc
      cases hpc

theorem Observed.Sound.step {s' : Observed} {a : Act} (h : s.Sound junk screen)
    (hstep : s.Step junk a s') : s'.Sound junk screen := by
  obtain ⟨m', trace⟩ := s'
  obtain ⟨hstep, rfl : trace = s.trace.enter s.machine a⟩ := hstep
  cases hstep with
  | main hidle hstep => exact h.main hidle hstep
  | interrupt data hidle => exact h.interrupt hidle data
  | handler hpc => exact h.handler hpc

/-- After every run of the loop and the interrupts, the bytes of the keyboard have reached the
terminal in their order, up to what is on its way and what a full queue refused. -/
theorem keyboard_to_terminal {q : InputQueue} {l : Spinlock} {acts : List Act}
    (hrun : Run (Observed.Step junk) (.boot q l screen) acts s) : s.Flows junk screen :=
  (hrun.invariant (boot_sound junk q l screen) fun _ _ _ h hstep => h.step hstep).toFlows

/-- A key is pressed, read by the handler and handled by the loop. -/
theorem keyboard_to_terminal_key : ∃ s : Observed,
    s.Flows (fun _ => 0) (fun _ => 0) ∧ s.trace.handled = [⟨.keyPressed, 0x1E, 0x61⟩] := by
  have hrun : Run (Observed.Step fun _ => 0) (.boot ⟨fun _ => .zero, 9, 9⟩ ⟨0⟩ fun _ => 0)
      (.main :: .interrupt 0x1E :: List.replicate 6 .handler ++ List.replicate 7 .main) _ :=
    .of_foldlM Observed.step_of_next rfl
  exact ⟨_, keyboard_to_terminal hrun, rfl⟩

/-! ## When the keyboard falls silent -/

theorem Machine.Step.holdsLine {m : Machine} {a : Act} (hstep : m.Step junk a m')
    (hline : ∃ line, HoldsLine m.tty line) : ∃ line, HoldsLine m'.tty line := by
  cases hstep with
  | main _ hstep => exact mainStep_tty hline hstep
  | interrupt => exact hline
  | @handler pc _ => rwa [handlerStep_tty]

/-- All that is known of a reachable state. -/
structure Observed.Live (junk screen : Memory) (s : Observed) : Prop
    extends s.Sound junk screen where
  owned : s.machine.Owned
  line : ∃ line, HoldsLine s.machine.tty line

theorem Observed.Live.step {s' : Observed} {a : Act} (h : s.Live junk screen)
    (hstep : s.Step junk a s') : s'.Live junk screen where
  toSound := h.toSound.step hstep
  owned := h.owned.step hstep.1
  line := hstep.1.holdsLine h.line

theorem boot_live (junk : Memory) (q : InputQueue) (l : Spinlock) (screen : Memory) :
    (Observed.boot q l screen).Live junk screen where
  toSound := boot_sound junk q l screen
  owned := boot_owned q l screen
  line := ⟨[], holdsLine_init screen⟩

/-- How many steps of the loop are ahead until it is back at its test, the queue aside. -/
def MainPc.ahead : MainPc → Nat
  | .popAdvance _ => 0
  | .popRead => 1
  | .popTest => 2
  | .popLock .exchange => 3
  | .popLock .wait => 4
  | .hasEvents => 5
  | .banner | .handle _ => 6
  | .popUnlock _ => 7

def Machine.ahead (m : Machine) : Nat := 8 * (queued m.queue).length + m.main.ahead

/-- The loop is at its test, and there is nothing to do. -/
def Machine.AtRest (m : Machine) : Prop := m.main = .hasEvents ∧ queued m.queue = []

/-- A step of the loop that is not at rest brings it nearer to its rest. -/
theorem Observed.Live.advances (h : s.Live junk screen) (hidle : s.machine.handler = none)
    (hbusy : ¬ s.machine.AtRest) :
    ∃ m', mainStep junk s.machine s.machine.main = .ok m' ∧ m'.ahead < s.machine.ahead := by
  have hready := h.ready
  have hvalid := h.valid
  have hfree := h.owned.free
  simp only [hidle, Option.any_none, and_true] at hfree
  cases hmain : s.machine.main <;> rw [hmain] at hready hfree
  case banner => exact ⟨_, rfl, by simp [Machine.ahead, MainPc.ahead, hmain]⟩
  case hasEvents =>
    have hne : queued s.machine.queue ≠ [] := fun hempty => hbusy ⟨hmain, hempty⟩
    have hevents : inputHasEvents s.machine.queue ≠ 0 := by
      have hindices := hvalid.empty_iff.not.mpr hne
      unfold inputHasEvents
      grind
    refine ⟨_, congrArg _ (if_pos hevents), ?_⟩
    simp [Machine.ahead, MainPc.ahead, hmain]
  case popLock pc =>
    have hlock := Spinlock.eq_of_free (hfree.mpr rfl)
    cases pc <;> simp [mainStep, spinlockLockStep, atomicExchange, hlock, Machine.ahead,
      MainPc.ahead, hmain]
  case popTest =>
    refine ⟨_, congrArg Except.ok (congrArg (Machine.mk _ _ _ _ · _)
      (if_pos (hvalid.empty_iff.not.mpr hready))), ?_⟩
    simp [Machine.ahead, MainPc.ahead, hmain]
  case popRead => exact ⟨_, rfl, by simp [Machine.ahead, MainPc.ahead, hmain]⟩
  case popAdvance event =>
    obtain ⟨rest, hrest⟩ := hready
    have hne : queued s.machine.queue ≠ [] := hrest ▸ List.cons_ne_nil _ _
    have hpop := hvalid.contents_pop KeyEvent.zero hne
    rw [Ring.pop, if_neg (hvalid.empty_iff.not.mpr hne)] at hpop
    refine ⟨_, rfl, ?_⟩
    generalize hq : ({ s.machine.queue with tail := Ring.next 256 s.machine.queue.tail } :
      InputQueue) = q at hpop
    have hlength : (queued s.machine.queue).length = (queued q).length + 1 :=
      congrArg List.length hpop
    simp only [Machine.ahead, MainPc.ahead, hmain, wrap_succ_mod, hq]
    omega
  case popUnlock event => exact ⟨_, rfl, by simp [Machine.ahead, MainPc.ahead, hmain]⟩
  case handle event =>
    obtain ⟨line, hline⟩ := h.line
    obtain ⟨t', actions, -, hrun, -⟩ := hline.handles junk event
    refine ⟨{ s.machine with tty := t', main := .hasEvents }, by simp only [mainStep, hrun], ?_⟩
    simp [Machine.ahead, MainPc.ahead, hmain]

/-- The loop comes to rest, and no step of it offers an event. -/
theorem Observed.Live.rests (h : s.Live junk screen) (hidle : s.machine.handler = none) :
    ∃ acts s', (∀ a ∈ acts, a = Act.main) ∧ acts.length ≤ s.machine.ahead ∧
      Run (Observed.Step junk) s acts s' ∧ s'.Live junk screen ∧ s'.machine.AtRest ∧
      s'.machine.handler = none ∧ s'.trace.offers = s.trace.offers := by
  induction hn : s.machine.ahead using Nat.strong_induction_on generalizing s with
  | _ n ih =>
    by_cases hrest : s.machine.AtRest
    · exact ⟨[], s, by simp, Nat.zero_le _, .nil, h, hrest, hidle, rfl⟩
    · obtain ⟨m', hmain, hless⟩ := h.advances hidle hrest
      have hstep : s.Step junk .main ⟨m', s.trace.enter s.machine .main⟩ := ⟨.main hidle hmain, rfl⟩
      have hidle' := (mainStep_handler hmain).trans hidle
      have hoffers : (s.trace.enter s.machine .main).offers = s.trace.offers := by
        simp only [Trace.enter]
        split <;> rfl
      obtain ⟨acts, s', hacts, hlength, hrun, hlive, hrest', hidle'', hsame⟩ :=
        ih _ (hn ▸ hless) (h.step hstep) hidle' rfl
      refine ⟨.main :: acts, s', ?_, ?_, .cons hstep hrun, hlive, hrest', hidle'',
        hsame.trans hoffers⟩
      · simpa using hacts
      · rw [List.length_cons]
        exact Nat.succ_le_of_lt (Nat.lt_of_le_of_lt hlength (hn ▸ hless))

/-- From every reachable state in which no handler runs, the loop alone handles every event that was
accepted, within eight steps for each one that waits and seven more. -/
theorem silence_drains {q : InputQueue} {l : Spinlock} {acts : List Act}
    (hrun : Run (Observed.Step junk) (.boot q l screen) acts s)
    (hidle : s.machine.handler = none) :
    ∃ more s', (∀ a ∈ more, a = Act.main) ∧
      more.length ≤ 8 * (queued s.machine.queue).length + 7 ∧
      Run (Observed.Step junk) s more s' ∧ s'.trace.handled = s.trace.accepted ∧
      s'.machine.AtRest := by
  have hlive : s.Live junk screen :=
    hrun.invariant (boot_live junk q l screen) fun _ _ _ h hstep => h.step hstep
  obtain ⟨more, s', hmore, hlength, hrun', hlive', hrest, hidle', hoffers⟩ := hlive.rests hidle
  refine ⟨more, s', hmore, ?_, hrun', ?_, hrest⟩
  · have hahead : s.machine.main.ahead ≤ 7 := by
      cases s.machine.main with
      | popLock pc => cases pc <;> simp [MainPc.ahead]
      | _ => simp [MainPc.ahead]
    unfold Machine.ahead at hlength
    omega
  · have hordered := hlive'.ordered
    obtain ⟨hmain, hempty⟩ := hrest
    simp only [hmain, MainPc.carried, hempty, Machine.writing, hidle', List.append_nil,
      Trace.accepted, hoffers] at hordered
    exact hordered.symm

/-- Two keys are pressed while the loop is at its test. -/
theorem silence_drains_twoKeys : ∃ s s' : Observed, s.trace.accepted.length = 2 ∧
    s.trace.handled = [] ∧ s'.trace.handled = s.trace.accepted := by
  have hrun : Run (Observed.Step fun _ => 0) (.boot ⟨fun _ => .zero, 9, 9⟩ ⟨0⟩ fun _ => 0)
      (.main :: .interrupt 0x1E :: List.replicate 6 .handler ++
        .interrupt 0x1F :: List.replicate 6 .handler) _ :=
    .of_foldlM Observed.step_of_next rfl
  obtain ⟨more, s', -, -, -, hhandled, -⟩ := silence_drains hrun rfl
  exact ⟨_, s', rfl, rfl, hhandled⟩

end HolyOs.Kernel
