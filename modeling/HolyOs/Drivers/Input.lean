import HolyOs.Foundation.Ring
import HolyOs.Foundation.Transition
import HolyOs.Foundation.Word

/-!
# The input queue

Shallow model of the event queue of `drivers/input/input.c`: a ring of 256 events between the
keyboard driver and the event loop. The calls are atomic here. Every history of calls is one of
a first-in first-out queue of at most 255 events.
-/
namespace HolyOs.Drivers

open Transition

@[simp] def inputBufferSize : Nat := 256

inductive KeyEventType
  | keyPressed
  | keyReleased
deriving DecidableEq

structure KeyEvent where
  type : KeyEventType
  scancode : UInt8
  ascii : UInt8
deriving DecidableEq

/-- `key_event event = {0}`. -/
def KeyEvent.zero : KeyEvent := ⟨.keyPressed, 0, 0⟩

/-- The static variables `buffer`, `head` and `tail`. -/
abbrev InputQueue := Ring.State KeyEvent

/-- The part of `input_init` about the queue. The cells keep what they hold. -/
def inputInit (q : InputQueue) : InputQueue := { q with head := 0, tail := 0 }

def inputPushEvent (q : InputQueue) (event : KeyEvent) : InputQueue :=
  let next := Word32.wrap (q.head + 1) % inputBufferSize
  if next ≠ q.tail then
    { q with buffer := fun i => if i = q.head then event else q.buffer i, head := next }
  else q

def inputPopEvent (q : InputQueue) : KeyEvent × InputQueue :=
  if q.tail ≠ q.head then
    (q.buffer q.tail, { q with tail := Word32.wrap (q.tail + 1) % inputBufferSize })
  else (.zero, q)

def inputHasEvents (q : InputQueue) : Nat := if q.head ≠ q.tail then 1 else 0

/-! ## The queue is a ring -/

theorem wrap_succ_mod (i : Nat) : Word32.wrap (i + 1) % inputBufferSize = Ring.next 256 i := by
  unfold Word32.wrap Ring.next inputBufferSize
  omega

theorem inputPushEvent_eq (q : InputQueue) (event : KeyEvent) :
    inputPushEvent q event = Ring.push 256 q event := by
  unfold inputPushEvent Ring.push
  simp only [wrap_succ_mod]
  split_ifs <;> simp_all

theorem inputPopEvent_eq (q : InputQueue) : inputPopEvent q = Ring.pop 256 .zero q := by
  unfold inputPopEvent Ring.pop
  simp only [wrap_succ_mod]
  split_ifs <;> simp_all

/-- The queued events, the oldest first. -/
def queued (q : InputQueue) : List KeyEvent := Ring.contents 256 q

/-! ## Histories -/

inductive InputOp
  | push (event : KeyEvent)
  | pop

/-- The queue, the events it took and the events it gave back, each in order. -/
structure InputLog where
  queue : InputQueue
  accepted : List KeyEvent
  returned : List KeyEvent

/-- A push is accepted when it moves `head`; a pop returns an event when there is one. -/
def InputLog.enter (s : InputLog) : InputOp → InputLog
  | .push event =>
    let queue := inputPushEvent s.queue event
    { s with queue := queue,
             accepted := if queue.head = s.queue.head then s.accepted else s.accepted ++ [event] }
  | .pop =>
    let r := inputPopEvent s.queue
    { s with queue := r.2,
             returned := if inputHasEvents s.queue = 0 then s.returned else s.returned ++ [r.1] }

def InputLog.Step (s : InputLog) (op : InputOp) (t : InputLog) : Prop := t = s.enter op

/-- The state after `input_init`. -/
def InputLog.start (q : InputQueue) : InputLog := ⟨inputInit q, [], []⟩

/-- What a queue of capacity 255 shows to its clients. -/
structure InputLog.Fifo (s : InputLog) : Prop where
  head_lt : s.queue.head < inputBufferSize
  tail_lt : s.queue.tail < inputBufferSize
  /-- The events taken are those given back and those queued, in this order. -/
  ledger : s.accepted = s.returned ++ queued s.queue
  bounded : (queued s.queue).length ≤ 255
  hasEvents : inputHasEvents s.queue ≠ 0 ↔ queued s.queue ≠ []
  push : ∀ event, (queued s.queue).length < 255 →
    (s.enter (.push event)).accepted = s.accepted ++ [event] ∧
      queued (inputPushEvent s.queue event) = queued s.queue ++ [event]
  full : ∀ event, (queued s.queue).length = 255 → s.enter (.push event) = s
  pop : ∀ event rest, queued s.queue = event :: rest →
    (inputPopEvent s.queue).1 = event ∧ queued (inputPopEvent s.queue).2 = rest
  empty : queued s.queue = [] → inputPopEvent s.queue = (.zero, s.queue)

/-- The invariant of histories. -/
structure InputLog.Sound (s : InputLog) : Prop where
  valid : Ring.Valid 256 s.queue
  ledger : s.accepted = s.returned ++ queued s.queue

namespace InputLog

variable {s : InputLog}

theorem Sound.hasEvents_eq_zero (h : s.Sound) :
    inputHasEvents s.queue = 0 ↔ queued s.queue = [] := by
  rw [queued, ← h.valid.empty_iff]
  unfold inputHasEvents
  split_ifs <;> simp_all [eq_comm]

theorem Sound.push_full (h : s.Sound) (event : KeyEvent) (hfull : (queued s.queue).length = 255) :
    s.enter (.push event) = s := by
  simp only [enter, inputPushEvent_eq, h.valid.push_full event hfull, if_true]

theorem Sound.push_room (h : s.Sound) (event : KeyEvent) (hroom : (queued s.queue).length ≠ 255) :
    (s.enter (.push event)).accepted = s.accepted ++ [event] ∧
      queued (inputPushEvent s.queue event) = queued s.queue ++ [event] := by
  have hcontents := h.valid.contents_push event hroom
  have hhead : (Ring.push 256 s.queue event).head ≠ s.queue.head := by
    have hlt := h.valid.head_lt
    rw [Ring.push, if_neg (h.valid.full_iff.not.mpr hroom)]
    dsimp only
    rw [Ring.next_eq hlt]
    split_ifs <;> omega
  refine ⟨?_, by rw [inputPushEvent_eq]; exact hcontents⟩
  simp only [enter, inputPushEvent_eq, if_neg hhead]

theorem Sound.enter (h : s.Sound) (op : InputOp) : (s.enter op).Sound := by
  cases op with
  | push event =>
    by_cases hfull : (queued s.queue).length = 255
    · rw [h.push_full event hfull]
      exact h
    · obtain ⟨haccepted, hqueued⟩ := h.push_room event hfull
      have hvalid := h.valid.push event
      rw [← inputPushEvent_eq] at hvalid
      refine ⟨hvalid, ?_⟩
      rw [haccepted, h.ledger, List.append_assoc, ← hqueued]
      rfl
  | pop =>
    have hvalid := h.valid.pop KeyEvent.zero
    rw [← inputPopEvent_eq] at hvalid
    refine ⟨hvalid, ?_⟩
    by_cases hempty : queued s.queue = []
    · have hsame := h.valid.pop_empty KeyEvent.zero hempty
      simp only [InputLog.enter, inputPopEvent_eq, hsame, if_pos (h.hasEvents_eq_zero.mpr hempty)]
      exact h.ledger
    · have hcons := h.valid.contents_pop KeyEvent.zero hempty
      simp only [InputLog.enter, inputPopEvent_eq, if_neg (h.hasEvents_eq_zero.not.mpr hempty)]
      rw [h.ledger, List.append_assoc, queued, hcons]
      rfl

theorem start_sound (q : InputQueue) : (start q).Sound where
  valid := ⟨by simp [start, inputInit], by simp [start, inputInit]⟩
  ledger := by simp [start, inputInit, queued, Ring.contents, Ring.length]

theorem Sound.fifo (h : s.Sound) : s.Fifo where
  head_lt := h.valid.head_lt
  tail_lt := h.valid.tail_lt
  ledger := h.ledger
  bounded := by
    have := h.valid.length_lt
    simp only [queued, Ring.length_contents]
    omega
  hasEvents := h.hasEvents_eq_zero.not
  push event hroom := h.push_room event (by omega)
  full := h.push_full
  pop event rest heq := by
    have hne : queued s.queue ≠ [] := heq ▸ List.cons_ne_nil event rest
    have hcons := h.valid.contents_pop KeyEvent.zero hne
    rw [inputPopEvent_eq]
    rw [queued, hcons] at heq
    exact ⟨(List.cons.inj heq).1, (List.cons.inj heq).2⟩
  empty hempty := by
    rw [inputPopEvent_eq]
    exact h.valid.pop_empty KeyEvent.zero hempty

end InputLog

/-- After any interleaving of pushes and pops the queue is a first-in first-out queue of
capacity 255. -/
theorem input_queue_fifo {q : InputQueue} {ops : List InputOp} {s : InputLog}
    (hrun : Run InputLog.Step (.start q) ops s) : s.Fifo := by
  have hsound : s.Sound := by
    refine hrun.invariant (InputLog.start_sound q) ?_
    rintro s op t hs rfl
    exact hs.enter op
  exact hsound.fifo

/-- Two events are pushed and the first one is popped. -/
theorem input_queue_fifo_twoEvents :
    let a : KeyEvent := ⟨.keyPressed, 0x1E, 97⟩
    let b : KeyEvent := ⟨.keyReleased, 0x1E, 0⟩
    let s := (((InputLog.start ⟨fun _ => .zero, 7, 9⟩).enter (.push a)).enter (.push b)).enter .pop
    s.Fifo ∧ s.accepted = [a, b] ∧ s.returned = [a] :=
  ⟨input_queue_fifo (((Run.single rfl).snoc rfl).snoc rfl), rfl, rfl⟩

end HolyOs.Drivers
