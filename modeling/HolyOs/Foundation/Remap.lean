import HolyOs.Foundation.Transition
import Mathlib.Data.Set.Basic
import Mathlib.Logic.Function.Basic

/-!
# Memory behind a map

A partial map takes the addresses of a program to the places of a memory, and a cache keeps some
pairs of the map. While the cache has only pairs of the map and no two addresses share a place, the
program has a memory of its own, `Flat`, to which regions are added and from which they are taken.
-/
namespace Remap

/-! ## The cache -/

section Cache

variable {κ ν : Type*} {cache map map' : κ → Option ν}

def Coherent (cache map : κ → Option ν) : Prop := ∀ k v, cache k = some v → map k = some v

/-- The pair in the cache, or else the pair of the map. -/
def lookup (cache map : κ → Option ν) (k : κ) : Option ν := (cache k).or (map k)

theorem coherent_empty (map : κ → Option ν) : Coherent (fun _ => none) map := fun _ _ h => nomatch h

theorem Coherent.lookup_eq (h : Coherent cache map) (k : κ) : lookup cache map k = map k := by
  unfold lookup
  cases hcache : cache k with
  | none => rfl
  | some v => exact (h k v hcache).symm

variable [DecidableEq κ]

theorem Coherent.fill (h : Coherent cache map) (k : κ) :
    Coherent (Function.update cache k (map k)) map := by
  intro j v hcache
  rw [Function.update_apply] at hcache
  split_ifs at hcache with hj
  · rwa [hj]
  · exact h j v hcache

/-- The pair of one key may change where the cache is flushed of it. -/
theorem Coherent.flush (h : Coherent cache map) {k : κ} (hmap : ∀ j ≠ k, map' j = map j) :
    Coherent (Function.update cache k none) map' := by
  intro j v hcache
  rw [Function.update_apply] at hcache
  split_ifs at hcache with hj
  rw [hmap j hj]
  exact h j v hcache

end Cache

/-! ## The view -/

section View

variable {α β γ : Type*} {f : α → Option β} {m m' : β → γ}

/-- What the program finds at its addresses. -/
def view (f : α → Option β) (m : β → γ) (x : α) : Option γ := (f x).map m

theorem view_congr {x : α} (h : ∀ p, f x = some p → m' p = m p) : view f m' x = view f m x := by
  unfold view
  cases hx : f x with
  | none => rfl
  | some p => rw [Option.map_some, Option.map_some, h p hx]

variable [DecidableEq α] [DecidableEq β]

/-- A write is seen at its own address only. -/
theorem view_update {x : α} {p : β} (hx : f x = some p) (hf : ∀ y, f y = some p → y = x) (v : γ) :
    view f (Function.update m p v) = Function.update (view f m) x (some v) := by
  funext y
  by_cases hy : f y = some p
  · obtain rfl := hf y hy
    simp [view, hy]
  · have hne : y ≠ x := fun heq => hy (heq ▸ hx)
    rw [Function.update_of_ne hne]
    refine view_congr fun q hq => Function.update_of_ne ?_ _ _
    rintro rfl
    exact hy hq

end View

/-! ## The memory of the program -/

section Flat

variable {α γ : Type*}

/-- What is at the addresses that the program has. -/
abbrev Flat (α γ : Type*) := α → Option γ

inductive Flat.Act (α γ : Type*)
  | grow (region : Set α)
  | shrink (region : Set α)
  | load (x : α) (v : γ)
  | store (x : α) (v : γ)

/-- A new region may contain anything. -/
inductive Flat.Step [DecidableEq α] : Flat α γ → Flat.Act α γ → Flat α γ → Prop
  | grow {f g : Flat α γ} {region : Set α} : (∀ x ∈ region, f x = none ∧ (g x).isSome) →
      (∀ x ∉ region, g x = f x) → Step f (.grow region) g
  | shrink {f g : Flat α γ} {region : Set α} : (∀ x ∈ region, (f x).isSome ∧ g x = none) →
      (∀ x ∉ region, g x = f x) → Step f (.shrink region) g
  | load {f : Flat α γ} {x : α} {v : γ} : f x = some v → Step f (.load x v) f
  | store {f : Flat α γ} {x : α} (v : γ) : (f x).isSome →
      Step f (.store x v) (Function.update f x (some v))

end Flat

end Remap
