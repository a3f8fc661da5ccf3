import HolyOs.Foundation.Transition
import Mathlib.Logic.Relation

/-!
# Programs on the ports of a device

A program reads and writes ports and polls, and the device makes moves of its own between any two
accesses. `Sat` has the proof rules: an assertion between two accesses survives the moves of the
device, and a poll keeps its assertion while it goes on and waits for something that the device can
bring about. Such a program ends in its postcondition, and it can end from every state it gets to.
-/
namespace PortIo

open Relation Transition

universe u

structure Device (σ : Type*) where
  read : Nat → σ → UInt8 × σ
  write : Nat → UInt8 → σ → σ
  moves : σ → σ → Prop

inductive Prog (ρ : Type u)
  | ret (r : ρ)
  | inb (port : Nat) (next : UInt8 → Prog ρ)
  | outb (port : Nat) (value : UInt8) (next : Prog ρ)
  /-- `while (again(inb(port)));` -/
  | poll (port : Nat) (again : UInt8 → Bool) (next : Prog ρ)
  /-- `while (again(inb(port))) inb(data);` -/
  | drain (port : Nat) (again : UInt8 → Bool) (data : Nat) (next : Prog ρ)

/-- One program after the other. -/
def Prog.bind {ρ τ : Type u} : Prog ρ → (ρ → Prog τ) → Prog τ
  | .ret r, k => k r
  | .inb port next, k => .inb port fun v => (next v).bind k
  | .outb port value next, k => .outb port value (next.bind k)
  | .poll port again next, k => .poll port again (next.bind k)
  | .drain port again data next, k => .drain port again data (next.bind k)

instance instMonadProg : Monad Prog where
  pure := .ret
  bind := Prog.bind

variable {σ : Type*} {ρ τ : Type u}

structure State (σ : Type*) (ρ : Type u) where
  dev : σ
  prog : Prog ρ

inductive Act
  | device
  | access

inductive Step (d : Device σ) : State σ ρ → Act → State σ ρ → Prop
  | device {s s' : σ} {prog : Prog ρ} : d.moves s s' → Step d ⟨s, prog⟩ .device ⟨s', prog⟩
  | inb {s : σ} {port : Nat} {next : UInt8 → Prog ρ} :
      Step d ⟨s, .inb port next⟩ .access ⟨(d.read port s).2, next (d.read port s).1⟩
  | outb {s : σ} {port : Nat} {value : UInt8} {next : Prog ρ} :
      Step d ⟨s, .outb port value next⟩ .access ⟨d.write port value s, next⟩
  | poll {s : σ} {port : Nat} {again : UInt8 → Bool} {next : Prog ρ} :
      Step d ⟨s, .poll port again next⟩ .access
        ⟨(d.read port s).2, if again (d.read port s).1 then .poll port again next else next⟩
  | drain {s : σ} {port data : Nat} {again : UInt8 → Bool} {next : Prog ρ} :
      Step d ⟨s, .drain port again data next⟩ .access
        ⟨(d.read port s).2, if again (d.read port s).1
          then .inb data fun _ => .drain port again data next else next⟩

/-- The assertion survives the moves of the device. -/
def Device.Stable (d : Device σ) (P : σ → Prop) : Prop := ∀ s s', P s → d.moves s s' → P s'

/-- The loops `poll` and `drain` have an invariant `I`. -/
inductive Sat (d : Device σ) (Q : ρ → σ → Prop) : (σ → Prop) → Prog ρ → Prop
  | ret {P : σ → Prop} {r : ρ} : d.Stable P → (∀ s, P s → Q r s) → Sat d Q P (.ret r)
  | inb {P : σ → Prop} {M : UInt8 → σ → Prop} {port : Nat} {next : UInt8 → Prog ρ} : d.Stable P →
      (∀ s, P s → M (d.read port s).1 (d.read port s).2) → (∀ v, Sat d Q (M v) (next v)) →
        Sat d Q P (.inb port next)
  | outb {P M : σ → Prop} {port : Nat} {value : UInt8} {next : Prog ρ} : d.Stable P →
      (∀ s, P s → M (d.write port value s)) → Sat d Q M next → Sat d Q P (.outb port value next)
  | poll {P I M : σ → Prop} {port : Nat} {again : UInt8 → Bool} {next : Prog ρ} : d.Stable P →
      (∀ s, P s → I s) → d.Stable I →
        (∀ s, I s → if again (d.read port s).1 then I (d.read port s).2 else M (d.read port s).2) →
          (∀ s, I s → ∃ s', ReflTransGen d.moves s s' ∧ again (d.read port s').1 = false) →
            Sat d Q M next → Sat d Q P (.poll port again next)
  | drain {P I N M : σ → Prop} {port data : Nat} {again : UInt8 → Bool} {next : Prog ρ} :
      d.Stable P → (∀ s, P s → I s) → d.Stable I → d.Stable N →
        (∀ s, I s → if again (d.read port s).1 then N (d.read port s).2 else M (d.read port s).2) →
          (∀ s, N s → I (d.read data s).2 ∧ again (d.read port (d.read data s).2).1 = false) →
            Sat d Q M next → Sat d Q P (.drain port again data next)

variable {d : Device σ} {P : σ → Prop} {Q : ρ → σ → Prop} {prog : Prog ρ}

theorem Sat.stable (h : Sat d Q P prog) : d.Stable P := by
  cases h <;> assumption

/-- The assertion that a state is in. -/
def State.Sat (d : Device σ) (Q : ρ → σ → Prop) (x : State σ ρ) : Prop :=
  ∃ P : σ → Prop, P x.dev ∧ PortIo.Sat d Q P x.prog

theorem State.Sat.step {x y : State σ ρ} {op : Act} (h : x.Sat d Q) (hstep : Step d x op y) :
    y.Sat d Q := by
  obtain ⟨P, hP, h⟩ := h
  cases hstep with
  | device hmoves => exact ⟨P, h.stable _ _ hP hmoves, h⟩
  | inb =>
    cases h with
    | inb _ hread hnext => exact ⟨_, hread _ hP, hnext _⟩
  | outb =>
    cases h with
    | outb _ hwrite hnext => exact ⟨_, hwrite _ hP, hnext⟩
  | @poll s port again next =>
    cases h with
    | @poll _ I M _ _ _ _ hPI hI hread hwaits hnext =>
      have hs := hread s (hPI s hP)
      split_ifs at hs ⊢ with hagain
      · exact ⟨I, hs, .poll hI (fun _ hs => hs) hI hread hwaits hnext⟩
      · exact ⟨M, hs, hnext⟩
  | @drain s port data again next =>
    cases h with
    | @drain _ I N M _ _ _ _ _ hPI hI hN hread hdata hnext =>
      have hs := hread s (hPI s hP)
      split_ifs at hs ⊢ with hagain
      · -- the loop itself is what follows the read
        have hloop : PortIo.Sat d Q I (.drain port again data next) :=
          .drain hI (fun _ hs => hs) hI hN hread hdata hnext
        exact ⟨N, hs, .inb (M := fun _ => I) hN (fun s hs => (hdata s hs).1) fun _ => hloop⟩
      · exact ⟨M, hs, hnext⟩

/-- A program that meets its assertions ends in the postcondition. -/
theorem State.Sat.run {x : State σ ρ} {ops : List Act} {t : σ} {r : ρ} (h : x.Sat d Q)
    (hrun : Run (Step d) x ops ⟨t, .ret r⟩) : Q r t := by
  obtain ⟨P, hP, hsat⟩ := hrun.invariant h fun _ _ _ h hstep => h.step hstep
  cases hsat with
  | ret _ hQ => exact hQ t hP

theorem Run.of_moves {s t : σ} (h : ReflTransGen d.moves s t) (prog : Prog ρ) :
    ∃ ops, Run (Step d) (State.mk s prog) ops ⟨t, prog⟩ := by
  induction h with
  | refl => exact ⟨[], .nil⟩
  | tail _ hmove ih =>
    obtain ⟨ops, hrun⟩ := ih
    exact ⟨_, hrun.snoc (.device hmove)⟩

/-- A device that moves more has all these runs. -/
theorem Step.mono {m : σ → σ → Prop} {x y : State σ ρ} {op : Act}
    (hm : ∀ s s', d.moves s s' → m s s') (h : Step d x op y) :
    Step { d with moves := m } x op y := by
  cases h with
  | device hmoves => exact .device (hm _ _ hmoves)
  | inb => exact .inb
  | outb => exact .outb
  | poll => exact .poll
  | drain => exact .drain

theorem Run.mono {m : σ → σ → Prop} {x y : State σ ρ} {ops : List Act}
    (hm : ∀ s s', d.moves s s' → m s s') (h : Run (Step d) x ops y) :
    Run (Step { d with moves := m }) x ops y := by
  induction h with
  | nil => exact .nil
  | snoc _ hstep ih => exact ih.snoc (hstep.mono hm)

theorem Step.bind {x y : State σ ρ} {op : Act} (h : Step d x op y) (k : ρ → Prog τ) :
    Step d ⟨x.dev, x.prog >>= k⟩ op ⟨y.dev, y.prog >>= k⟩ := by
  cases h with
  | device hmoves => exact .device hmoves
  | inb => exact .inb
  | outb => exact .outb
  | @poll s port again next =>
    have hpoll : Step d ⟨s, .poll port again (next >>= k)⟩ .access _ := .poll
    rw [apply_ite (· >>= k)]
    exact hpoll
  | @drain s port data again next =>
    have hdrain : Step d ⟨s, .drain port again data (next >>= k)⟩ .access _ := .drain
    rw [apply_ite (· >>= k)]
    exact hdrain

theorem Run.bind {x y : State σ ρ} {ops : List Act} (h : Run (Step d) x ops y) (k : ρ → Prog τ) :
    Run (Step d) ⟨x.dev, x.prog >>= k⟩ ops ⟨y.dev, y.prog >>= k⟩ := by
  induction h with
  | nil => exact .nil
  | snoc _ hstep ih => exact ih.snoc (hstep.bind k)

theorem Device.Stable.moves {s t : σ} (h : d.Stable P) (hs : P s)
    (hmoves : ReflTransGen d.moves s t) : P t := by
  induction hmoves with
  | refl => exact hs
  | tail _ hmove ih => exact h _ _ ih hmove

theorem Step.leave_poll {s : σ} {port : Nat} {again : UInt8 → Bool} {next : Prog ρ}
    (hagain : again (d.read port s).1 = false) :
    Step d ⟨s, .poll port again next⟩ .access ⟨(d.read port s).2, next⟩ := by
  have hpoll : Step d ⟨s, .poll port again next⟩ .access _ := .poll
  rwa [hagain, if_neg Bool.false_ne_true] at hpoll

theorem Step.leave_drain {s : σ} {port data : Nat} {again : UInt8 → Bool} {next : Prog ρ}
    (hagain : again (d.read port s).1 = false) :
    Step d ⟨s, .drain port again data next⟩ .access ⟨(d.read port s).2, next⟩ := by
  have hdrain : Step d ⟨s, .drain port again data next⟩ .access _ := .drain
  rwa [hagain, if_neg Bool.false_ne_true] at hdrain

theorem Step.go_on_drain {s : σ} {port data : Nat} {again : UInt8 → Bool} {next : Prog ρ}
    (hagain : again (d.read port s).1 = true) : Step d ⟨s, .drain port again data next⟩ .access
      ⟨(d.read port s).2, .inb data fun _ => .drain port again data next⟩ := by
  have hdrain : Step d ⟨s, .drain port again data next⟩ .access _ := .drain
  rwa [hagain, if_pos rfl] at hdrain

/-- And it can end, whatever it is doing. -/
theorem Sat.ends (h : Sat d Q P prog) {s : σ} (hs : P s) :
    ∃ ops t r, Run (Step d) ⟨s, prog⟩ ops ⟨t, .ret r⟩ := by
  induction h generalizing s with
  | ret => exact ⟨[], s, _, .nil⟩
  | inb _ hread _ ih =>
    obtain ⟨ops, t, r, hrun⟩ := ih _ (hread s hs)
    exact ⟨_, t, r, .cons .inb hrun⟩
  | outb _ hwrite _ ih =>
    obtain ⟨ops, t, r, hrun⟩ := ih (hwrite s hs)
    exact ⟨_, t, r, .cons .outb hrun⟩
  | @poll P I M port again next _ hPI hI hread hwaits _ ih =>
    obtain ⟨u, hmoves, hagain⟩ := hwaits s (hPI s hs)
    obtain ⟨ops, hops⟩ := Run.of_moves hmoves (.poll port again next)
    have hu := hread u (hI.moves (hPI s hs) hmoves)
    rw [hagain, if_neg Bool.false_ne_true] at hu
    obtain ⟨ops', t, r, hrun⟩ := ih hu
    exact ⟨_, t, r, hops.append (.cons (.leave_poll hagain) hrun)⟩
  | @drain P I N M port data again next _ hPI _ _ hread hdata _ ih =>
    have hleave : ∀ u, I u → again (d.read port u).1 = false →
        ∃ ops t r, Run (Step d) ⟨u, .drain port again data next⟩ ops ⟨t, .ret r⟩ := by
      intro u hu hagain
      have hM := hread u hu
      rw [hagain, if_neg Bool.false_ne_true] at hM
      obtain ⟨ops, t, r, hrun⟩ := ih hM
      exact ⟨_, t, r, .cons (.leave_drain hagain) hrun⟩
    cases hagain : again (d.read port s).1 with
    | false => exact hleave s (hPI s hs) hagain
    | true =>
      have hN := hread s (hPI s hs)
      rw [hagain, if_pos rfl] at hN
      obtain ⟨hI, hdone⟩ := hdata _ hN
      obtain ⟨ops, t, r, hrun⟩ := hleave _ hI hdone
      exact ⟨_, t, r, .cons (.go_on_drain hagain) (.cons .inb hrun)⟩

/-- No run takes that possibility away. -/
theorem State.Sat.ends {x y : State σ ρ} {ops : List Act} (h : x.Sat d Q)
    (hrun : Run (Step d) x ops y) : ∃ ops' t r, Run (Step d) y ops' ⟨t, .ret r⟩ := by
  obtain ⟨P, hP, hsat⟩ := hrun.invariant h fun _ _ _ h hstep => h.step hstep
  exact hsat.ends hP

theorem Sat.weaken {P' : σ → Prop} (h : Sat d Q P prog) (hstable : d.Stable P')
    (hP : ∀ s, P' s → P s) : Sat d Q P' prog := by
  cases h with
  | ret _ hQ => exact .ret hstable fun s hs => hQ s (hP s hs)
  | inb _ hread hnext => exact .inb hstable (fun s hs => hread s (hP s hs)) hnext
  | outb _ hwrite hnext => exact .outb hstable (fun s hs => hwrite s (hP s hs)) hnext
  | poll _ hI hinv hread hwaits hnext =>
    exact .poll hstable (fun s hs => hI s (hP s hs)) hinv hread hwaits hnext
  | drain _ hI hinv hN hread hdata hnext =>
    exact .drain hstable (fun s hs => hI s (hP s hs)) hinv hN hread hdata hnext

theorem Sat.mono {Q' : ρ → σ → Prop} (h : Sat d Q P prog) (hQ : ∀ r s, Q r s → Q' r s) :
    Sat d Q' P prog := by
  induction h with
  | ret hstable hpost => exact .ret hstable fun s hs => hQ _ s (hpost s hs)
  | inb hstable hread _ ih => exact .inb hstable hread ih
  | outb hstable hwrite _ ih => exact .outb hstable hwrite ih
  | poll hstable hI hinv hread hwaits _ ih => exact .poll hstable hI hinv hread hwaits ih
  | drain hstable hI hinv hN hread hdata _ ih => exact .drain hstable hI hinv hN hread hdata ih

theorem Sat.bind {R : τ → σ → Prop} {k : ρ → Prog τ} (h : Sat d Q P prog)
    (hk : ∀ r, Sat d R (Q r) (k r)) : Sat d R P (prog >>= k) := by
  induction h with
  | ret hstable hQ => exact (hk _).weaken hstable hQ
  | inb hstable hread _ ih => exact .inb hstable hread ih
  | outb hstable hwrite _ ih => exact .outb hstable hwrite ih
  | poll hstable hI hinv hread hwaits _ ih => exact .poll hstable hI hinv hread hwaits ih
  | drain hstable hI hinv hN hread hdata _ ih => exact .drain hstable hI hinv hN hread hdata ih

/-- No device answers, and the bus reads as `v` at all times. -/
def floating (v : UInt8) : Device Unit where
  read _ s := (v, s)
  write _ _ s := s
  moves _ _ := False

/-- What the program ends with on such a bus. -/
def Prog.onBus (v : UInt8) : Prog ρ → Option ρ
  | .ret r => some r
  | .inb _ next => (next v).onBus v
  | .outb _ _ next => next.onBus v
  | .poll _ again next => if again v then none else next.onBus v
  | .drain _ again _ next => if again v then none else next.onBus v

@[simp] theorem onBus_bind (v : UInt8) (prog : Prog ρ) (k : ρ → Prog τ) :
    (prog >>= k).onBus v = (prog.onBus v).bind fun r => (k r).onBus v := by
  induction prog with
  | ret => rfl
  | inb _ _ ih => exact ih v
  | outb _ _ _ ih => exact ih
  | poll _ again _ ih => cases hagain : again v <;> simp_all [Bind.bind, Prog.bind, Prog.onBus]
  | drain _ again _ _ ih => cases hagain : again v <;> simp_all [Bind.bind, Prog.bind, Prog.onBus]

theorem Step.onBus_eq {v : UInt8} {x y : State Unit ρ} {op : Act} (h : Step (floating v) x op y) :
    y.prog.onBus v = x.prog.onBus v := by
  cases h with
  | device hmoves => exact hmoves.elim
  | inb => rfl
  | outb => rfl
  | poll =>
    simp only [floating, Prog.onBus]
    split_ifs with hagain <;> simp [Prog.onBus, hagain]
  | drain =>
    simp only [floating, Prog.onBus]
    split_ifs with hagain <;> simp [Prog.onBus, hagain]

theorem Prog.onBus_ends {v : UInt8} {r : ρ} (h : prog.onBus v = some r) :
    ∃ ops, Run (Step (floating v)) ⟨(), prog⟩ ops ⟨(), .ret r⟩ := by
  induction prog with
  | ret r' =>
    obtain rfl := Option.some.inj h
    exact ⟨[], .nil⟩
  | inb _ _ ih =>
    obtain ⟨ops, hrun⟩ := ih v h
    exact ⟨_, .cons .inb hrun⟩
  | outb _ _ _ ih =>
    obtain ⟨ops, hrun⟩ := ih h
    exact ⟨_, .cons .outb hrun⟩
  | poll port again next ih =>
    simp only [Prog.onBus, Option.ite_none_left_eq_some, Bool.not_eq_true] at h
    obtain ⟨ops, hrun⟩ := ih h.2
    exact ⟨_, .cons (.leave_poll h.1) hrun⟩
  | drain port again data next ih =>
    simp only [Prog.onBus, Option.ite_none_left_eq_some, Bool.not_eq_true] at h
    obtain ⟨ops, hrun⟩ := ih h.2
    exact ⟨_, .cons (.leave_drain h.1) hrun⟩

/-- The program can end in no other way. -/
theorem onBus_iff {v : UInt8} {r : ρ} :
    (∃ ops, Run (Step (floating v)) ⟨(), prog⟩ ops ⟨(), .ret r⟩) ↔ prog.onBus v = some r := by
  refine ⟨fun ⟨ops, hrun⟩ => ?_, Prog.onBus_ends⟩
  have hsame : (Prog.ret r).onBus v = prog.onBus v :=
    hrun.invariant (I := fun x => x.prog.onBus v = prog.onBus v) rfl
      fun _ _ _ hx hstep => hstep.onBus_eq.trans hx
  exact hsame.symm

end PortIo
