import HolyOs.Cpu.Controller
import HolyOs.Foundation.Latch

/-!
# From the request to the handler

The devices, the interrupt controllers and `interrupt_handler` as one system. Devices request their
lines at any time, handlers are registered and lines masked at any time, and the processor takes an
interrupt when no handler runs, as the gates of the interrupt table clear the interrupt flag. A
handler runs to its end and `interrupt_handler` sends the end of interrupt behind it.
-/
namespace HolyOs.Cpu

open Transition

variable {α : Type*}

structure Delivery (α : Type*) where
  chips : Chips
  handlers : Nat → Option α
  /-- The vector whose handler runs. -/
  running : Option Nat

inductive DeliveryAct (α : Type*)
  | register (num : UInt8) (handler : α)
  | mask (irq : Nat)
  | request (irq : Nat)
  | deliver (vector : Nat)
  | finish

/-- What an operation does to the requests. -/
def DeliveryAct.latch : DeliveryAct α → Option (Latch.Act Nat)
  | .request irq => some (.raise irq)
  | .deliver vector => some (.serve (vector - 32))
  | .register _ _ | .mask _ | .finish => none

/-- The operations of the processor. -/
def DeliveryAct.Serves : DeliveryAct α → Prop
  | .deliver _ | .finish => True
  | .register _ _ | .mask _ | .request _ => False

namespace Delivery

def register (s : Delivery α) (num : UInt8) (handler : α) : Delivery α :=
  if num ≥ 48 then s
  else
    let s := { s with handlers := Function.update s.handlers num.toNat (some handler) }
    if num ≥ 32 ∧ num < 48 then { s with chips := s.chips.picUnmaskIrq (num.toNat - 32) } else s

/-- The end of `interrupt_handler`. -/
def finish (s : Delivery α) (intNo : Nat) : Delivery α :=
  { s with
    chips := if intNo ≥ 32 ∧ intNo < 48 then s.chips.picSendEoi (intNo - 32) else s.chips
    running := none }

inductive Step : Delivery α → DeliveryAct α → Delivery α → Prop
  | register {s : Delivery α} {num : UInt8} {handler : α} :
      Step s (.register num handler) (s.register num handler)
  | mask {s : Delivery α} {irq : Nat} : irq < 16 →
      Step s (.mask irq) { s with chips := s.chips.picMaskIrq irq }
  | request {s : Delivery α} {irq : Nat} : irq < 16 → irq ≠ 2 →
      Step s (.request irq) { s with chips := s.chips.request irq }
  | deliver {s : Delivery α} {v : BitVec 8} {chips : Chips} : s.running = none →
      s.chips.acknowledge = some (v, chips) →
        Step s (.deliver v.toNat) { s with chips := chips, running := some v.toNat }
  | finish {s : Delivery α} {intNo : Nat} : s.running = some intNo → Step s .finish (s.finish intNo)

/-- After `pic_init`, with an empty table. -/
def start (c : Chips) : Delivery α := ⟨c.picInit, fun _ => none, none⟩

/-- The table and the masks alone. -/
def interrupts (s : Delivery α) : Interrupts α := ⟨s.handlers, s.chips.masks⟩

/-! ## The invariant -/

structure Sound (s : Delivery α) : Prop where
  ready : s.chips.Ready
  /-- Line 2 belongs to the second chip. -/
  cascade : ¬ s.chips.Requested 2
  /-- Nothing is in service between two handlers. -/
  quiet : s.running = none → s.chips.Quiet
  busy : ∀ v, s.running = some v → (s.handlers v).isSome ∧
    ∃ irq < 16, v = 32 + irq ∧ s.chips.InService irq
  /-- The lines that are not masked have handlers. -/
  lines : ∀ k < 16, ¬ s.chips.masks.Masked k → (s.handlers (32 + k)).isSome

variable {s t : Delivery α}

theorem start_requested (c : Chips) (k : Nat) : ¬ (start c : Delivery α).chips.Requested k := by
  rw [start, Chips.picInit_eq, Chips.Requested]
  simp

theorem start_sound (c : Chips) : (start c : Delivery α).Sound where
  ready := c.picInit_ready
  cascade := start_requested c 2
  quiet _ := by
    rw [start, Chips.picInit_eq]
    exact ⟨rfl, rfl⟩
  busy v hv := nomatch hv
  lines k hk hmasked := by
    rw [start, Chips.picInit_masks] at hmasked
    exact absurd (picInit_masked _ k) hmasked

/-- A registration does to the table and the masks what the model of them says, and the chips keep
the rest. -/
theorem Sound.register_eq (h : s.Sound) (num : UInt8) (handler : α) : s.register num handler =
    { s with
      handlers := (interruptRegisterHandler s.interrupts num (some handler)).handlers
      chips := s.chips.withMasks
        (interruptRegisterHandler s.interrupts num (some handler)).pic } := by
  unfold register interruptRegisterHandler interrupts
  dsimp only
  split_ifs
  · rfl
  · rw [h.ready.picUnmaskIrq]
  · rfl

theorem Sound.register (h : s.Sound) (num : UInt8) (handler : α) :
    (s.register num handler).Sound := by
  have hhandlers := fun n (hn : n < 48) => register_handlers s.interrupts (num, handler) hn
  rw [h.register_eq]
  exact {
    ready := h.ready.withMasks _
    cascade := h.cascade
    quiet := fun hidle => (h.quiet hidle).withMasks _
    busy := by
      intro v hv
      obtain ⟨hsome, irq, hirq, rfl, hservice⟩ := h.busy v hv
      exact ⟨(hhandlers _ (by omega)).mpr (.inr hsome), irq, hirq, rfl, hservice.withMasks _⟩
    lines := by
      intro k hk hmasked
      refine (hhandlers _ (by omega)).mpr ?_
      have hline := (register_unmasked s.interrupts (num, handler) hk).mp hmasked
      exact hline.imp_right (h.lines k hk) }

theorem Sound.mask (h : s.Sound) {irq : Nat} (hirq : irq < 16) :
    Sound { s with chips := s.chips.picMaskIrq irq } := by
  rw [h.ready.picMaskIrq]
  exact {
    ready := h.ready.withMasks _
    cascade := h.cascade
    quiet := fun hidle => (h.quiet hidle).withMasks _
    busy := by
      intro v hv
      obtain ⟨hsome, irq, hirq, hvector, hservice⟩ := h.busy v hv
      exact ⟨hsome, irq, hirq, hvector, hservice.withMasks _⟩
    lines := by
      intro k hk hmasked
      rw [Chips.withMasks_masks, picMaskIrq_masked _ hirq hk] at hmasked
      exact h.lines k hk fun hk => hmasked (.inr hk) }

theorem Sound.request (h : s.Sound) {irq : Nat} (htwo : irq ≠ 2) :
    Sound { s with chips := s.chips.request irq } where
  ready := h.ready.request irq
  cascade := by
    rw [Chips.requested_request]
    exact fun hrequested => hrequested.elim (fun heq => htwo heq.symm) h.cascade
  quiet hidle := by
    obtain ⟨hmaster, hslave⟩ := s.chips.request_isr irq
    exact ⟨hmaster.trans (h.quiet hidle).master, hslave.trans (h.quiet hidle).slave⟩
  busy v hv := by
    obtain ⟨hsome, j, hj, hvector, hservice⟩ := h.busy v hv
    obtain ⟨hmaster, hslave⟩ := s.chips.request_isr irq
    exact ⟨hsome, j, hj, hvector, hmaster.trans hservice.master, hslave.trans hservice.slave⟩
  lines k hk hmasked := by
    rw [Chips.request_masks] at hmasked
    exact h.lines k hk hmasked

theorem Sound.deliver (h : s.Sound) {irq : Nat} (hidle : s.running = none) (hirq : irq < 16)
    (hdeliverable : s.chips.Deliverable irq) :
    Sound { s with chips := s.chips.take irq, running := some (32 + irq) } where
  ready := h.ready.take irq
  cascade := by
    rw [Chips.requested_take h.cascade]
    exact fun hboth => h.cascade hboth.2
  quiet hnone := nomatch hnone
  busy v hv := by
    obtain rfl := Option.some.inj hv
    exact ⟨h.lines irq hirq hdeliverable.2.1, irq, hirq, rfl,
      h.ready.take_inService (h.quiet hidle) irq⟩
  lines k hk hmasked := by
    rw [Chips.take_masks] at hmasked
    exact h.lines k hk hmasked

/-- The handler has run, and the end of interrupt was sent. -/
theorem Sound.finish_eq (h : s.Sound) {v : Nat} (hv : s.running = some v) : s.finish v =
    { s with
      chips := ⟨{ s.chips.master with isr := ∅ }, { s.chips.slave with isr := ∅ }⟩
      running := none } := by
  obtain ⟨-, irq, hirq, rfl, hservice⟩ := h.busy v hv
  rw [Delivery.finish, if_pos (by omega), Nat.add_sub_cancel_left, hservice.picSendEoi hirq]

theorem Sound.finish (h : s.Sound) {v : Nat} (hv : s.running = some v) : (s.finish v).Sound := by
  obtain ⟨⟨h1, h2, h3, h4⟩, ⟨h5, h6, h7, h8⟩⟩ := h.ready
  rw [h.finish_eq hv]
  exact {
    ready := ⟨⟨h1, h2, h3, h4⟩, ⟨h5, h6, h7, h8⟩⟩
    cascade := h.cascade
    quiet := fun _ => ⟨rfl, rfl⟩
    busy := fun v hv => nomatch hv
    lines := h.lines }

/-- What an interrupt that is taken is. -/
theorem Sound.acknowledge (h : s.Sound) (hidle : s.running = none) {v : BitVec 8} {chips : Chips}
    (hack : s.chips.acknowledge = some (v, chips)) : ∃ irq < 16, irq ≠ 2 ∧ v.toNat = 32 + irq ∧
      chips = s.chips.take irq ∧ s.chips.Deliverable irq ∧
        ∀ j < 16, j ≠ 2 → s.chips.Deliverable j → Chips.rank irq ≤ Chips.rank j :=
  h.ready.acknowledge (h.quiet hidle) hack

theorem Sound.step {op : DeliveryAct α} (h : s.Sound) (hstep : s.Step op t) : t.Sound := by
  cases hstep with
  | register => exact h.register _ _
  | mask hirq => exact h.mask hirq
  | request hirq htwo => exact h.request htwo
  | deliver hidle hack =>
    obtain ⟨irq, hirq, -, hvector, rfl, hdeliverable, -⟩ := h.acknowledge hidle hack
    rw [hvector]
    exact h.deliver hidle hirq hdeliverable
  | finish hv => exact h.finish hv

/-! ## The requests -/

/-- The requests that are latched are those of `l`. -/
structure Refines (s : Delivery α) (l : Latch.State Nat) : Prop where
  sound : s.Sound
  pending : ∀ k, k ∈ l.pending ↔ s.chips.Requested k

variable {l : Latch.State Nat}

theorem Refines.hidden {op : DeliveryAct α} (h : s.Refines l) (hop : op.latch = none)
    (hstep : s.Step op t) : t.Refines l := by
  refine ⟨h.sound.step hstep, fun k => ?_⟩
  rw [h.pending]
  cases hstep with
  | register =>
    rw [h.sound.register_eq]
    exact Iff.rfl
  | mask =>
    rw [h.sound.ready.picMaskIrq]
    exact Iff.rfl
  | finish hv =>
    rw [h.sound.finish_eq hv]
    exact Iff.rfl
  | _ => cases hop

theorem Refines.follows {op : DeliveryAct α} {k : Latch.Act Nat} (h : s.Refines l)
    (hop : op.latch = some k) (hstep : s.Step op t) : ∃ l', Latch.Step l k l' ∧ t.Refines l' := by
  have hsound := h.sound.step hstep
  cases hstep with
  | @request irq hirq htwo =>
    cases hop
    by_cases hrequested : irq ∈ l.pending
    · refine ⟨l, .merge hrequested, hsound, fun k => ?_⟩
      rw [Chips.requested_request, h.pending]
      refine (or_iff_right_of_imp ?_).symm
      rintro rfl
      exact (h.pending _).mp hrequested
    · refine ⟨_, .latch hrequested, hsound, fun k => ?_⟩
      rw [Chips.requested_request, Finset.mem_insert, h.pending]
  | deliver hidle hack =>
    cases hop
    obtain ⟨irq, -, -, hvector, rfl, hdeliverable, -⟩ := h.sound.acknowledge hidle hack
    rw [hvector, Nat.add_sub_cancel_left]
    refine ⟨_, .serve ((h.pending irq).mpr hdeliverable.1), hvector ▸ hsound, fun k => ?_⟩
    rw [Chips.requested_take h.sound.cascade, Finset.mem_erase, h.pending]
  | _ => cases hop

/-- Nothing is requested that could reach the processor. -/
structure Drained (s : Delivery α) : Prop where
  idle : s.running = none
  none : ∀ irq < 16, irq ≠ 2 → ¬ s.chips.Deliverable irq

/-- An interrupt can be taken exactly when a line is requested whose request can reach the
processor. -/
theorem Sound.deliver_iff (h : s.Sound) (hidle : s.running = none) :
    (∃ v t, s.Step (.deliver v) t) ↔ ∃ irq < 16, irq ≠ 2 ∧ s.chips.Deliverable irq := by
  constructor
  · rintro ⟨v, t, hstep⟩
    cases hstep with
    | deliver _ hack =>
      obtain ⟨irq, hirq, htwo, -, -, hdeliverable, -⟩ := h.acknowledge hidle hack
      exact ⟨irq, hirq, htwo, hdeliverable⟩
  · rintro ⟨irq, hirq, htwo, hdeliverable⟩
    obtain ⟨⟨v, chips⟩, hack⟩ := Option.isSome_iff_exists.mp
      ((h.quiet hidle).acknowledge_isSome hirq htwo hdeliverable)
    exact ⟨_, _, .deliver hidle hack⟩

/-- One request is served. -/
theorem Refines.serves (h : s.Refines l) {v : Nat} {u : Delivery α}
    (hstep : s.Step (.deliver v) u) :
    ∃ t l', Run Step s [.deliver v, .finish] t ∧ t.Refines l' ∧ t.running = none ∧
      l'.pending.card < l.pending.card := by
  obtain ⟨l', hlatch, hu⟩ := h.follows rfl hstep
  have hcard : l'.pending.card < l.pending.card := by
    cases hlatch with
    | serve hmem => exact Finset.card_erase_lt_of_mem hmem
  have hrunning : u.running = some v := by
    cases hstep with
    | deliver => rfl
  have hfinish : u.Step .finish _ := .finish hrunning
  exact ⟨_, l', .cons hstep (.single hfinish), hu.hidden rfl hfinish, rfl, hcard⟩

/-- When the devices are silent, the requests are served one after the other. -/
theorem Refines.drains (h : s.Refines l) (hidle : s.running = none) :
    ∃ ops t, Run Step s ops t ∧ (∀ op ∈ ops, op.Serves) ∧ ops.length ≤ 2 * l.pending.card ∧
      t.Drained := by
  induction hcard : l.pending.card using Nat.strong_induction_on generalizing s l with
  | _ n ih =>
    by_cases hmore : ∃ v t, s.Step (.deliver v) t
    · obtain ⟨v, u, hstep⟩ := hmore
      obtain ⟨t, l', hrun, ht, htidle, hless⟩ := h.serves hstep
      obtain ⟨ops, w, hrest, hserves, hlength, hdrained⟩ := ih _ (hcard ▸ hless) ht htidle rfl
      refine ⟨_, w, hrun.append hrest, ?_, ?_, hdrained⟩
      · simpa [DeliveryAct.Serves] using hserves
      · simp only [List.length_append, List.length_cons, List.length_nil]
        omega
    · rw [h.sound.deliver_iff hidle] at hmore
      push Not at hmore
      exact ⟨[], s, .nil, by simp, by simp, hidle, hmore⟩

/-- The account of the requests. -/
structure Accounted (ops : List (DeliveryAct α)) (s : Delivery α) (l : Latch.State Nat) : Prop where
  run : Run Latch.Step .empty (ops.filterMap DeliveryAct.latch) l
  /-- Each request that was latched has been served once, or is pending. -/
  sound : l.Sound
  pending : ∀ k, k ∈ l.pending ↔ s.chips.Requested k
  /-- When the devices are silent, everything that can be delivered is. -/
  drains : s.running = none → ∃ ops t, Run Step s ops t ∧ (∀ op ∈ ops, op.Serves) ∧
    ops.length ≤ 2 * l.pending.card ∧ t.Drained

/-- What holds after every sequence of operations. -/
structure Correct (ops : List (DeliveryAct α)) (s : Delivery α) : Prop where
  /-- No interrupt ends in the halt. -/
  handled : ∀ v, s.running = some v → (s.handlers v).isSome
  /-- Nothing stays in service behind a handler. -/
  quiet : s.running = none → s.chips.Quiet
  account : ∃ l, s.Accounted ops l
  /-- The processor is asked exactly while there is something to deliver. -/
  prompt : s.running = none →
    ((∃ v t, s.Step (.deliver v) t) ↔ ∃ irq < 16, irq ≠ 2 ∧ s.chips.Deliverable irq)
  /-- And it gets the request of the highest priority. -/
  first : ∀ v t, s.Step (.deliver v) t → ∃ irq < 16, irq ≠ 2 ∧ v = 32 + irq ∧
    s.chips.Deliverable irq ∧
      ∀ j < 16, j ≠ 2 → s.chips.Deliverable j → Chips.rank irq ≤ Chips.rank j

/-- Devices, controllers and processor in any order of their steps. -/
theorem interrupts_delivered {c : Chips} {ops : List (DeliveryAct α)}
    (hrun : Run Step (start c) ops s) : s.Correct ops := by
  have hinit : (start c : Delivery α).Refines .empty :=
    ⟨start_sound c, fun k => iff_of_false (Finset.notMem_empty k) (start_requested c k)⟩
  obtain ⟨l, hlatch, h⟩ := hrun.stutters (R := Refines) DeliveryAct.latch hinit
    (fun _ _ _ _ hop h hstep => h.hidden hop hstep)
    (fun _ _ _ _ _ hop h hstep => h.follows hop hstep)
  exact {
    handled := fun v hv => (h.sound.busy v hv).1
    quiet := h.sound.quiet
    account := ⟨l, hlatch, Latch.sound_empty.run hlatch, h.pending, h.drains⟩
    prompt := h.sound.deliver_iff
    first := by
      intro v t hstep
      cases hstep with
      | deliver hidle hack =>
        obtain ⟨irq, hirq, htwo, hvector, -, hrest⟩ := h.sound.acknowledge hidle hack
        exact ⟨irq, hirq, htwo, hvector, hrest⟩ }

theorem interrupts_delivered_keyboard : ∃ (v : Nat) (s : Delivery Unit),
    s.running = some v ∧ s.Correct [.register 33 (), .request 1, .deliver v] := by
  obtain ⟨c⟩ : Nonempty Chips :=
    ⟨⟨⟨.mask, 0, 0, 0, 0, 0, ∅, ∅⟩, ⟨.mask, 0, 0, 0, 0, 0, ∅, ∅⟩⟩⟩
  have hregister : (start c).Step (.register 33 ()) ((start c).register 33 ()) := .register
  have hstart : (start c : Delivery Unit).Sound := start_sound c
  have hunmasked : ¬ ((start c).register 33 ()).chips.masks.Masked 1 := by
    rw [hstart.register_eq]
    exact (register_unmasked (start c).interrupts (33, ()) (by omega)).mpr (.inl rfl)
  generalize (start c).register 33 () = s at hregister hunmasked
  have hrequest : s.Step (.request 1) { s with chips := s.chips.request 1 } :=
    .request (by omega) (by omega)
  have hidle : ({ s with chips := s.chips.request 1 } : Delivery Unit).running = none := by
    cases hregister
    rfl
  have hdeliverable : (s.chips.request 1).Deliverable 1 := by
    rw [Chips.Deliverable, Chips.requested_request, Chips.request_masks]
    exact ⟨.inl rfl, hunmasked, fun h => absurd h (by omega)⟩
  have hsound := (hstart.step hregister).step hrequest
  obtain ⟨v, t, hdeliver⟩ := (hsound.deliver_iff hidle).mpr ⟨1, by omega, by omega, hdeliverable⟩
  have hrunning : t.running = some v := by
    cases hdeliver
    rfl
  exact ⟨v, t, hrunning, interrupts_delivered (.cons hregister (.cons hrequest (.single hdeliver)))⟩

end Delivery

end HolyOs.Cpu
