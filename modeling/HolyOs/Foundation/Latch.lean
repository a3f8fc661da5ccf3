import HolyOs.Foundation.Transition
import Mathlib.Data.Finset.Basic
import Mathlib.Data.List.Count

/-!
# Requests that are latched

A request that is raised stays pending until it is served, and one that is raised again in the
meantime is the same request. Each request that became pending is served once, or still pending.
-/
namespace Latch

open Transition

variable {ι : Type*}

structure State (ι : Type*) where
  pending : Finset ι
  /-- The requests that became pending, and those that were served, in order. -/
  raised : List ι
  served : List ι

inductive Act (ι : Type*)
  | raise (k : ι)
  | serve (k : ι)

variable [DecidableEq ι]

inductive Step : State ι → Act ι → State ι → Prop
  | merge {s : State ι} {k : ι} : k ∈ s.pending → Step s (.raise k) s
  | latch {s : State ι} {k : ι} : k ∉ s.pending →
      Step s (.raise k) { s with pending := insert k s.pending, raised := s.raised ++ [k] }
  | serve {s : State ι} {k : ι} : k ∈ s.pending →
      Step s (.serve k) { s with pending := s.pending.erase k, served := s.served ++ [k] }

def State.empty : State ι := ⟨∅, [], []⟩

/-- No request is lost and none is served twice. -/
def State.Sound (s : State ι) : Prop :=
  ∀ k, s.raised.count k = s.served.count k + if k ∈ s.pending then 1 else 0

variable {s t : State ι}

theorem sound_empty : (State.empty : State ι).Sound := fun _ => rfl

theorem State.Sound.step {op : Act ι} (h : s.Sound) (hstep : Step s op t) : t.Sound := by
  intro j
  have hj := h j
  cases hstep with
  | merge => exact hj
  | @latch k hk =>
    by_cases heq : k = j
    · subst heq
      rw [if_neg hk] at hj
      simp [hj]
    · simpa [heq, Ne.symm heq] using hj
  | @serve k hk =>
    by_cases heq : k = j
    · subst heq
      rw [if_pos hk] at hj
      simp [hj]
    · simpa [heq, Ne.symm heq] using hj

theorem State.Sound.run {ops : List (Act ι)} (h : s.Sound) (hrun : Run Step s ops t) : t.Sound :=
  hrun.invariant h fun _ _ _ hsound hstep => hsound.step hstep

end Latch
