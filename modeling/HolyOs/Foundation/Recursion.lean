import Mathlib.Data.Fintype.Card
import Mathlib.Data.Fintype.Order
import Mathlib.Logic.Relation
import Mathlib.Tactic.Choose

/-!
# Recursion along a finite graph

A procedure that calls itself on the successors of its argument, run with a bound on the depth of
its calls. It returns exactly on the arguments from which no cycle can be reached.

## Main definitions

* `Recursion.inOrder`: a loop of calls that joins what they collect.
* `Recursion.Deepens`: what `n + 1` nested calls can do is given by what `n` can do.
-/
namespace Recursion

variable {α β : Type*}

/-- Runs `f` on the elements of `l` in order. The loop returns when each of its calls does. -/
def inOrder (f : α → Option (List β)) : List α → Option (List β)
  | [] => some []
  | x :: xs => do
    let first ← f x
    let rest ← inOrder f xs
    return first ++ rest

@[simp] theorem inOrder_nil (f : α → Option (List β)) : inOrder f [] = some [] := rfl

theorem inOrder_isSome {f : α → Option (List β)} {l : List α} :
    (inOrder f l).isSome ↔ ∀ x ∈ l, (f x).isSome := by
  induction l with
  | nil => simp
  | cons x xs ih =>
    unfold inOrder
    cases hx : f x with
    | none => simp [hx]
    | some first =>
      cases hxs : inOrder f xs with
      | none => simp_all
      | some rest => simp_all

/-- A loop whose calls return more often returns the same when it already did. -/
theorem inOrder_mono {f g : α → Option (List β)} {l : List α} {out : List β}
    (hfg : ∀ x ∈ l, ∀ out, f x = some out → g x = some out) (hout : inOrder f l = some out) :
    inOrder g l = some out := by
  induction l generalizing out with
  | nil => exact hout
  | cons x xs ih =>
    unfold inOrder at hout ⊢
    obtain ⟨first, hfirst, rest, hrest, rfl⟩ : ∃ first, f x = some first ∧
        ∃ rest, inOrder f xs = some rest ∧ first ++ rest = out := by
      simpa [Option.bind_eq_some_iff] using hout
    have hxs := ih (fun y hy => hfg y (.tail x hy)) hrest
    simp [hfg x (.head xs) first hfirst, hxs]

/-- `returns n v` says that the call on `v` returns with at most `n` nested calls. -/
structure Deepens (call : α → α → Prop) (returns : Nat → α → Prop) : Prop where
  zero : ∀ v, ¬ returns 0 v
  succ : ∀ n v, returns (n + 1) v ↔ ∀ w, call v w → returns n w

namespace Deepens

variable {call : α → α → Prop} {returns : Nat → α → Prop}

theorem mono (h : Deepens call returns) {n m : Nat} (hnm : n ≤ m) {v : α} (hv : returns n v) :
    returns m v := by
  induction n generalizing m v with
  | zero => exact absurd hv (h.zero v)
  | succ n ih =>
    obtain ⟨m, rfl⟩ : ∃ k, m = k + 1 := ⟨m - 1, by omega⟩
    rw [h.succ] at hv ⊢
    exact fun w hw => ih (by omega) (hv w hw)

/-- A call that returns has returned from a smaller depth everywhere below it. -/
theorem lt_of_transGen (h : Deepens call returns) {n : Nat} {v w : α}
    (hvw : Relation.TransGen call v w) (hv : returns n v) : ∃ m < n, returns m w := by
  induction hvw with
  | single hcall =>
    cases n with
    | zero => exact absurd hv (h.zero v)
    | succ n => exact ⟨n, by omega, (h.succ n v).mp hv _ hcall⟩
  | tail _ hcall ih =>
    obtain ⟨m, hmn, hm⟩ := ih
    cases m with
    | zero => exact absurd hm (h.zero _)
    | succ m => exact ⟨m, by omega, (h.succ m _).mp hm _ hcall⟩

/-- A call on a cycle never returns: the least depth at which it did would have a smaller one. -/
theorem not_returns_of_cycle (h : Deepens call returns) {v : α}
    (hcycle : Relation.TransGen call v v)
    (n : Nat) : ¬ returns n v := by
  induction n using Nat.strong_induction_on with
  | _ n ih =>
    intro hv
    obtain ⟨m, hmn, hm⟩ := h.lt_of_transGen hcycle hv
    exact ih m hmn hm

theorem returns_of_acc [Finite α] (h : Deepens call returns) {v : α} (hacc : Acc (flip call) v) :
    ∃ n, returns n v := by
  induction hacc with
  | intro v _ ih =>
    have hdepth : ∀ w, ∃ n, call v w → returns n w := fun w => by
      by_cases hw : call v w
      · obtain ⟨n, hn⟩ := ih w hw
        exact ⟨n, fun _ => hn⟩
      · exact ⟨0, fun hcall => absurd hcall hw⟩
    choose depth hdepth using hdepth
    obtain ⟨bound, hbound⟩ := Finite.bddAbove_range depth
    refine ⟨bound + 1, (h.succ bound v).mpr fun w hw => ?_⟩
    exact h.mono (hbound ⟨w, rfl⟩) (hdepth w hw)

end Deepens

/-- On a finite graph a vertex that reaches no cycle has no infinite path from it. -/
theorem acc_of_no_cycle [Finite α] {call : α → α → Prop} {v : α}
    (hfree : ∀ w, Relation.ReflTransGen call v w → ¬ Relation.TransGen call w w) :
    Acc (flip call) v := by
  -- the calls made below `v` form an acyclic graph
  let below (a b : α) : Prop := Relation.ReflTransGen call v a ∧ call a b
  have hbelow : ∀ {a b}, Relation.TransGen below a b →
      Relation.ReflTransGen call v a ∧ Relation.TransGen call a b := by
    intro a b hab
    induction hab with
    | single hcall => exact ⟨hcall.1, .single hcall.2⟩
    | tail _ hcall ih => exact ⟨ih.1, ih.2.tail hcall.2⟩
  have hirrefl : Std.Irrefl (Relation.TransGen (flip below)) := by
    refine ⟨fun w hw => ?_⟩
    obtain ⟨hreach, hcycle⟩ := hbelow (Relation.transGen_swap.mp hw)
    exact hfree w hreach hcycle
  have hwf : WellFounded (Relation.TransGen (flip below)) := Finite.wellFounded_of_trans_of_irrefl _
  have hacc : ∀ w, Relation.ReflTransGen call v w → Acc (flip call) w := by
    intro w
    induction w using hwf.induction with
    | _ w ih =>
      intro hw
      exact .intro w fun u hu => ih u (.single ⟨hw, hu⟩) (hw.tail hu)
  exact hacc v .refl

/-- The call on `v` returns at some depth exactly when no call below it is on a cycle. -/
theorem Deepens.exists_returns_iff [Finite α] {call : α → α → Prop} {returns : Nat → α → Prop}
    (h : Deepens call returns) (v : α) :
    (∃ n, returns n v) ↔ ∀ w, Relation.ReflTransGen call v w → ¬ Relation.TransGen call w w := by
  constructor
  · rintro ⟨n, hn⟩ w hw hcycle
    have hreturns : ∃ m, returns m w := by
      rcases Relation.reflTransGen_iff_eq_or_transGen.mp hw with rfl | hvw
      · exact ⟨n, hn⟩
      · obtain ⟨m, -, hm⟩ := h.lt_of_transGen hvw hn
        exact ⟨m, hm⟩
    obtain ⟨m, hm⟩ := hreturns
    exact h.not_returns_of_cycle hcycle m hm
  · intro hfree
    exact h.returns_of_acc (acc_of_no_cycle hfree)

end Recursion
