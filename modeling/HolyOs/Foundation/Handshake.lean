import HolyOs.Foundation.Transition

/-!
# A place for one value between two parties

One party has a list of values to pass on. It looks at the place, and puts its next value there once
it has seen the place empty; the other party takes what is there. The look, the put and the take are
steps of their own, in any order that the two parties allow. What was taken, what is in the place
and what is still to come is the list at all times.
-/
namespace Handshake

open Transition

variable {α : Type*}

structure State (α : Type*) where
  slot : Option α
  /-- The place was empty when the sender looked last, and it has put nothing there since. -/
  clear : Bool
  todo : List α
  taken : List α

inductive Act
  | look
  | put
  | take

inductive Step : State α → Act → State α → Prop
  | look (s : State α) : Step s .look { s with clear := s.slot.isNone }
  | put {s : State α} {a : α} {rest : List α} : s.clear = true → s.todo = a :: rest →
      Step s .put { s with slot := some a, clear := false, todo := rest }
  | take {s : State α} {a : α} : s.slot = some a →
      Step s .take { s with slot := none, taken := s.taken ++ [a] }

/-- Nothing of the list was lost, and the sender never writes over a value. -/
structure Sound (all : List α) (s : State α) : Prop where
  clear : s.clear = true → s.slot = none
  account : all = s.taken ++ s.slot.toList ++ s.todo

variable {all : List α} {s t : State α}

theorem Sound.step {op : Act} (h : Sound all s) (hstep : Step s op t) : Sound all t := by
  obtain ⟨hclear, haccount⟩ := h
  cases hstep with
  | look => exact ⟨fun hnone => Option.isNone_iff_eq_none.mp hnone, haccount⟩
  | put hempty htodo =>
    refine ⟨fun hfalse => (nomatch hfalse), ?_⟩
    rw [haccount, htodo, hclear hempty]
    simp
  | take hslot =>
    refine ⟨fun _ => rfl, ?_⟩
    rw [haccount, hslot]
    simp

/-- In every run the values arrive in order, each of them once. -/
theorem Sound.run {ops : List Act} (h : Sound all s) (hrun : Run Step s ops t) : Sound all t :=
  hrun.invariant h fun _ _ _ hsound hstep => hsound.step hstep

/-- A sender that has nothing left has passed on everything but the value in the place. -/
theorem Sound.done (h : Sound all s) (htodo : s.todo = []) : s.taken ++ s.slot.toList = all := by
  rw [h.account, htodo, List.append_nil]

end Handshake
