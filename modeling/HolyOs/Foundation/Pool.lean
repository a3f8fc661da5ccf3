import HolyOs.Foundation.Transition
import Mathlib.Data.Finset.Max

/-!
# A pool of resources with exclusive owners

Resources are elements of a linear order. Taking hands out the least available one, giving
back requires that the resource is held. The pool also records what was ever given back.
Every history keeps the three sets in balance: nothing is both available and held, nothing
appears or disappears, and what is available is exactly what was available at the start or
given back since, minus what is held.
-/
namespace Pool

open Transition

variable {α : Type*} [LinearOrder α]

structure State (α : Type*) where
  available : Finset α
  held : Finset α
  returned : Finset α

inductive Op (α : Type*)
  | take
  | give (a : α)

inductive Step : State α → Op α → State α → Prop
  | take {s : State α} {a : α} : a ∈ s.available → (∀ b ∈ s.available, a ≤ b) →
      Step s .take ⟨s.available.erase a, insert a s.held, s.returned⟩
  | exhausted {s : State α} : s.available = ∅ → Step s .take s
  | give {s : State α} {a : α} : a ∈ s.held →
      Step s (.give a) ⟨insert a s.available, s.held.erase a, insert a s.returned⟩

/-- The balance of a pool that started with `available` free and `held` owned resources. -/
structure Balanced (available held : Finset α) (s : State α) : Prop where
  disjoint : Disjoint s.available s.held
  conserved : s.available ∪ s.held = available ∪ held
  accounted : ∀ a, a ∈ s.available ↔ (a ∈ available ∨ a ∈ s.returned) ∧ a ∉ s.held

theorem Balanced.init {available held : Finset α} (h : Disjoint available held) :
    Balanced available held ⟨available, held, ∅⟩ where
  disjoint := h
  conserved := rfl
  accounted a := by
    have hdisj : a ∈ available → a ∉ held := fun ha => Finset.disjoint_left.mp h ha
    simp only [Finset.notMem_empty, or_false]
    tauto

/-- Moving an element between the two sets changes neither their union nor the elements that are in
one of them. -/
theorem move_union {s t : Finset α} {a : α} (ha : a ∈ s) : s.erase a ∪ insert a t = s ∪ t := by
  ext b
  by_cases hb : b = a
  · simp [hb, ha]
  · simp [hb]

theorem Balanced.step {A H : Finset α} {s t : State α} {op : Op α} (h : Balanced A H s)
    (hstep : Step s op t) : Balanced A H t := by
  have hdisj : ∀ a ∈ s.available, a ∉ s.held := fun a ha => Finset.disjoint_left.mp h.disjoint ha
  cases hstep with
  | @take a ha _ =>
    refine ⟨Finset.disjoint_left.mpr fun b hb => ?_, ?_, fun b => ?_⟩
    · obtain ⟨hne, hb⟩ := Finset.mem_erase.mp hb
      simp [hne, hdisj b hb]
    · exact (move_union ha).trans h.conserved
    · by_cases hb : b = a
      · simp [hb]
      · simp [hb, h.accounted b]
  | exhausted _ => exact h
  | @give a ha =>
    refine ⟨Finset.disjoint_left.mpr fun b hb => ?_, ?_, fun b => ?_⟩
    · rcases Finset.mem_insert.mp hb with rfl | hb
      · simp
      · simp [hdisj b hb]
    · rw [Finset.union_comm, move_union ha, Finset.union_comm]
      exact h.conserved
    · by_cases hb : b = a
      · simp [hb]
      · simp [hb, h.accounted b]

/-- Every history of a pool is balanced. -/
theorem Run.balanced {available held : Finset α} {ops : List (Op α)} {s : State α}
    (hdisj : Disjoint available held) (h : Run Step ⟨available, held, ∅⟩ ops s) :
    Balanced available held s :=
  h.invariant (.init hdisj) fun _ _ _ hb => hb.step

end Pool
