import HolyOs.Foundation.Recursion

/-!
# Preorder traversal

Each vertex of a graph has a list of items, and an item may have another vertex below it. The
traversal collects the items of a vertex in order, each one followed by what it collects below
it, and keeps no record of the vertices it has seen. On a tree it returns, and collects each item
exactly once.

## Main definitions

* `Recursion.Forest.preorder`: the traversal, with a bound on the depth of its calls.
* `Recursion.Forest.IsTree`: the vertices that are reached from the root form a tree.
-/
namespace Recursion

open Relation

variable {α β γ : Type*}

/-! ## Loops -/

section Loops

theorem mem_inOrder {f : α → Option (List β)} {l : List α} {out : List β}
    (hout : inOrder f l = some out) {y : β} :
    y ∈ out ↔ ∃ x ∈ l, ∃ part, f x = some part ∧ y ∈ part := by
  induction l generalizing out with
  | nil =>
    obtain rfl := Option.some.inj hout
    simp
  | cons x xs ih =>
    obtain ⟨first, hfirst, rest, hrest, rfl⟩ : ∃ first, f x = some first ∧
        ∃ rest, inOrder f xs = some rest ∧ first ++ rest = out := by
      simpa [inOrder, Option.bind_eq_some_iff] using hout
    simp [ih hrest, hfirst]

/-- The parts of a loop that have no element twice, and none in common. -/
theorem nodup_inOrder {f : α → Option (List β)} {l : List α} {out : List β}
    (hout : inOrder f l = some out) (hl : l.Nodup)
    (hpart : ∀ x ∈ l, ∀ part, f x = some part → part.Nodup)
    (hapart : ∀ x ∈ l, ∀ y ∈ l, x ≠ y → ∀ part part', f x = some part → f y = some part' →
      List.Disjoint part part') : out.Nodup := by
  induction l generalizing out with
  | nil =>
    obtain rfl := Option.some.inj hout
    exact .nil
  | cons x xs ih =>
    obtain ⟨first, hfirst, rest, hrest, rfl⟩ : ∃ first, f x = some first ∧
        ∃ rest, inOrder f xs = some rest ∧ first ++ rest = out := by
      simpa [inOrder, Option.bind_eq_some_iff] using hout
    obtain ⟨hx, hxs⟩ := List.nodup_cons.mp hl
    refine List.nodup_append'.mpr ⟨hpart x (.head xs) first hfirst, ?_, ?_⟩
    · exact ih hrest hxs (fun y hy => hpart y (.tail x hy))
        fun y hy z hz => hapart y (.tail x hy) z (.tail x hz)
    · intro y hy hyrest
      obtain ⟨z, hz, part, hpart', hyz⟩ := (mem_inOrder hrest).mp hyrest
      have hne : x ≠ z := fun heq => hx (heq ▸ hz)
      exact hapart x (.head xs) z (.tail x hz) hne first part hfirst hpart' hy hyz

theorem inOrder_append (f : α → Option (List β)) (l k : List α) :
    inOrder f (l ++ k) =
      (inOrder f l).bind fun first => (inOrder f k).map fun rest => first ++ rest := by
  induction l with
  | nil => simp [inOrder]
  | cons x xs ih =>
    rw [List.cons_append, inOrder, ih, inOrder]
    cases f x with
    | none => rfl
    | some first =>
      cases inOrder f xs <;> cases inOrder f k <;> simp

theorem inOrder_flatMap (f : γ → Option (List β)) (g : α → List γ) (l : List α) :
    inOrder f (l.flatMap g) = inOrder (fun x => inOrder f (g x)) l := by
  induction l with
  | nil => rfl
  | cons x xs ih =>
    rw [List.flatMap_cons, inOrder_append, ih, inOrder]
    cases inOrder f (g x) with
    | none => rfl
    | some first => cases inOrder (fun x => inOrder f (g x)) xs <;> rfl

theorem inOrder_map (f : γ → Option (List β)) (g : α → γ) (l : List α) :
    inOrder f (l.map g) = inOrder (fun x => f (g x)) l := by
  induction l with
  | nil => rfl
  | cons x xs ih => rw [List.map_cons, inOrder, ih, inOrder]

/-- A loop that skips some of its elements. -/
theorem inOrder_filter (f : α → Option (List β)) (p : α → Prop) [DecidablePred p] (l : List α) :
    inOrder f (l.filter fun x => p x) = inOrder (fun x => if p x then f x else some []) l := by
  induction l with
  | nil => rfl
  | cons x xs ih =>
    by_cases hx : p x
    · rw [List.filter_cons_of_pos (by simpa using hx), inOrder, ih, inOrder, if_pos hx]
    · rw [List.filter_cons_of_neg (by simpa using hx), ih, inOrder, if_neg hx]
      cases inOrder (fun x => if p x then f x else some []) xs <;> rfl

end Loops

/-! ## Graphs of items -/

/-- The items of each vertex, each item at one vertex, and the vertex below an item if there is
one. -/
structure Forest (α β : Type*) where
  items : α → List β
  below : β → Option α
  owner : β → α
  owned : ∀ {v x}, x ∈ items v → owner x = v
  distinct : ∀ v, (items v).Nodup

namespace Forest

variable (g : Forest α β)

/-- An item of `v` has `w` below it. -/
def Call (v w : α) : Prop := ∃ x ∈ g.items v, g.below x = some w

/-- What is collected for one item, when `scan` collects what is below a vertex. -/
def visit (scan : α → Option (List β)) (x : β) : Option (List β) :=
  match g.below x with
  | none => some [x]
  | some w => (scan w).map (x :: ·)

/-- The traversal with at most `depth` nested calls, and `none` when it would need more. -/
def preorder : Nat → α → Option (List β)
  | 0, _ => none
  | depth + 1, v => inOrder (g.visit (preorder depth)) (g.items v)

/-- No item that is reached leads to the root, and no two lead to the same vertex. -/
structure IsTree (root : α) : Prop where
  rootless : ∀ {v x}, ReflTransGen g.Call root v → x ∈ g.items v → g.below x ≠ some root
  parent : ∀ {v v' x x' w}, ReflTransGen g.Call root v → ReflTransGen g.Call root v' →
    x ∈ g.items v → x' ∈ g.items v' → g.below x = some w → g.below x' = some w → x = x'

variable {g}

theorem visit_cases {scan : α → Option (List β)} {x : β} {part : List β}
    (hpart : g.visit scan x = some part) :
    (g.below x = none ∧ part = [x]) ∨
      ∃ w rest, g.below x = some w ∧ scan w = some rest ∧ part = x :: rest := by
  unfold visit at hpart
  cases hbelow : g.below x with
  | none =>
    rw [hbelow] at hpart
    exact .inl ⟨rfl, (Option.some.inj hpart).symm⟩
  | some w =>
    rw [hbelow] at hpart
    obtain ⟨rest, hrest, rfl⟩ := Option.map_eq_some_iff.mp hpart
    exact .inr ⟨w, rest, rfl, hrest, rfl⟩

theorem visit_isSome {scan : α → Option (List β)} {x : β} :
    (g.visit scan x).isSome ↔ ∀ w, g.below x = some w → (scan w).isSome := by
  unfold visit
  cases g.below x <;> simp

theorem visit_mono {scan scan' : α → Option (List β)}
    (hscan : ∀ w out, scan w = some out → scan' w = some out) {x : β} {part : List β}
    (hpart : g.visit scan x = some part) : g.visit scan' x = some part := by
  rcases visit_cases hpart with ⟨hbelow, rfl⟩ | ⟨w, rest, hbelow, hrest, rfl⟩
  · simp [visit, hbelow]
  · simp [visit, hbelow, hscan w rest hrest]

/-- The traversal calls itself on the vertices below the items. -/
theorem preorder_deepens (g : Forest α β) :
    Deepens g.Call fun depth v => (g.preorder depth v).isSome where
  zero _ := by simp [preorder]
  succ depth v := by
    simp only [preorder, inOrder_isSome, visit_isSome, Call]
    constructor
    · rintro h w ⟨x, hx, hw⟩
      exact h x hx w hw
    · intro h x hx w hw
      exact h w ⟨x, hx, hw⟩

/-- What the traversal collects does not depend on the bound under which it returns. -/
theorem preorder_mono {n m : Nat} (hnm : n ≤ m) {v : α} {out : List β}
    (hout : g.preorder n v = some out) : g.preorder m v = some out := by
  induction n generalizing m v out with
  | zero => simp [preorder] at hout
  | succ n ih =>
    obtain ⟨m, rfl⟩ : ∃ k, m = k + 1 := ⟨m - 1, by omega⟩
    unfold preorder at hout ⊢
    exact inOrder_mono (fun x _ part => visit_mono fun w out => ih (by omega)) hout

/-- The traversal collects the items of the vertices that it reaches. -/
theorem mem_preorder {n : Nat} {v : α} {out : List β} (hout : g.preorder n v = some out) {y : β} :
    y ∈ out ↔ ∃ u, ReflTransGen g.Call v u ∧ y ∈ g.items u := by
  induction n generalizing v out with
  | zero => simp [preorder] at hout
  | succ n ih =>
    have hparts : ∀ x ∈ g.items v, ∃ part, g.visit (g.preorder n) x = some part := fun x hx =>
      Option.isSome_iff_exists.mp (inOrder_isSome.mp (Option.isSome_of_eq_some hout) x hx)
    rw [mem_inOrder hout]
    constructor
    · rintro ⟨x, hx, part, hpart, hy⟩
      rcases visit_cases hpart with ⟨-, rfl⟩ | ⟨w, rest, hbelow, hrest, rfl⟩
      · obtain rfl := List.mem_singleton.mp hy
        exact ⟨v, .refl, hx⟩
      · rcases List.mem_cons.mp hy with rfl | hy
        · exact ⟨v, .refl, hx⟩
        · obtain ⟨u, hwu, hyu⟩ := (ih hrest).mp hy
          exact ⟨u, .head ⟨x, hx, hbelow⟩ hwu, hyu⟩
    · rintro ⟨u, hvu, hyu⟩
      rcases hvu.cases_head with rfl | ⟨w, ⟨x, hx, hbelow⟩, hwu⟩
      · obtain ⟨part, hpart⟩ := hparts y hyu
        refine ⟨y, hyu, part, hpart, ?_⟩
        rcases visit_cases hpart with ⟨-, rfl⟩ | ⟨-, rest, -, -, rfl⟩ <;> simp
      · obtain ⟨part, hpart⟩ := hparts x hx
        refine ⟨x, hx, part, hpart, ?_⟩
        rcases visit_cases hpart with ⟨hnone, -⟩ | ⟨w', rest, hbelow', hrest, rfl⟩
        · simp [hnone] at hbelow
        · obtain rfl := Option.some.inj (hbelow.symm.trans hbelow')
          exact .tail x ((ih hrest).mpr ⟨u, hwu, hyu⟩)

/-! ## Trees -/

section Tree

variable {root v w : α}

/-- A vertex that is reached is called from one vertex. -/
theorem IsTree.unique (h : g.IsTree root) {u u' : α} (hu : ReflTransGen g.Call root u)
    (hu' : ReflTransGen g.Call root u') (hcall : g.Call u w) (hcall' : g.Call u' w) : u = u' := by
  obtain ⟨x, hx, hbelow⟩ := hcall
  obtain ⟨x', hx', hbelow'⟩ := hcall'
  obtain rfl := h.parent hu hu' hx hx' hbelow hbelow'
  exact (g.owned hx).symm.trans (g.owned hx')

theorem IsTree.acyclic (h : g.IsTree root) (hv : ReflTransGen g.Call root v) :
    ¬ TransGen g.Call v v := by
  induction hv with
  | refl =>
    intro hcycle
    obtain ⟨u, hu, x, hx, hbelow⟩ := TransGen.tail'_iff.mp hcycle
    exact h.rootless hu hx hbelow
  | @tail u v hu hcall ih =>
    intro hcycle
    obtain ⟨u', hvu', hcall'⟩ := TransGen.tail'_iff.mp hcycle
    obtain rfl := h.unique hu (hu.trans (.head hcall hvu')) hcall hcall'
    exact ih (.head' hcall hvu')

/-- Of two vertices above the same one, one is above the other. -/
theorem IsTree.total (h : g.IsTree root) {w' u : α} (hw : ReflTransGen g.Call root w)
    (hw' : ReflTransGen g.Call root w') (hwu : ReflTransGen g.Call w u)
    (hwu' : ReflTransGen g.Call w' u) :
    ReflTransGen g.Call w w' ∨ ReflTransGen g.Call w' w := by
  induction hwu with
  | refl => exact .inr hwu'
  | @tail p u hwp hcall ih =>
    rcases hwu'.cases_tail with rfl | ⟨p', hwp', hcall'⟩
    · exact .inl (hwp.tail hcall)
    · obtain rfl := h.unique (hw.trans hwp) (hw'.trans hwp') hcall hcall'
      exact ih hwp'

/-- Nothing leads from a vertex below an item to another one below the same vertex. -/
theorem IsTree.not_below (h : g.IsTree root) (hv : ReflTransGen g.Call root v) {w' : α}
    (hcall : g.Call v w) (hcall' : g.Call v w') (hne : w ≠ w') : ¬ ReflTransGen g.Call w w' := by
  intro hww'
  rcases hww'.cases_tail with rfl | ⟨p, hwp, hpw'⟩
  · exact hne rfl
  · obtain rfl := h.unique hv ((hv.tail hcall).trans hwp) hcall' hpw'
    exact h.acyclic hv (.head' hcall hwp)

/-- Different items of a vertex lead to different vertices. -/
theorem IsTree.apart (h : g.IsTree root) (hv : ReflTransGen g.Call root v) {x x' : β} {w' u : α}
    (hx : x ∈ g.items v) (hx' : x' ∈ g.items v) (hne : x ≠ x') (hbelow : g.below x = some w)
    (hbelow' : g.below x' = some w') (hwu : ReflTransGen g.Call w u) :
    ¬ ReflTransGen g.Call w' u := by
  intro hwu'
  have hcall : g.Call v w := ⟨x, hx, hbelow⟩
  have hcall' : g.Call v w' := ⟨x', hx', hbelow'⟩
  have hdiffer : w ≠ w' := by
    rintro rfl
    exact hne (h.parent hv hv hx hx' hbelow hbelow')
  rcases h.total (hv.tail hcall) (hv.tail hcall') hwu hwu' with hww' | hww'
  · exact h.not_below hv hcall hcall' hdiffer hww'
  · exact h.not_below hv hcall' hcall hdiffer.symm hww'

/-- The items of a vertex are not collected again below it. -/
theorem IsTree.notMem_below (h : g.IsTree root) (hv : ReflTransGen g.Call root v) {x y : β}
    (hx : x ∈ g.items v) (hbelow : g.below x = some w) (hy : y ∈ g.items v) {n : Nat}
    {rest : List β} (hrest : g.preorder n w = some rest) : y ∉ rest := by
  intro hyrest
  obtain ⟨u, hwu, hyu⟩ := (mem_preorder hrest).mp hyrest
  obtain rfl := (g.owned hy).symm.trans (g.owned hyu)
  exact h.acyclic hv (.head' ⟨x, hx, hbelow⟩ hwu)

theorem IsTree.nodup_preorder (h : g.IsTree root) (hv : ReflTransGen g.Call root v) {n : Nat}
    {out : List β} (hout : g.preorder n v = some out) : out.Nodup := by
  induction n generalizing v out with
  | zero => simp [preorder] at hout
  | succ n ih =>
    refine nodup_inOrder hout (g.distinct v) (fun x hx part hpart => ?_) ?_
    · rcases visit_cases hpart with ⟨-, rfl⟩ | ⟨w, rest, hbelow, hrest, rfl⟩
      · exact List.nodup_singleton x
      · exact List.nodup_cons.mpr ⟨h.notMem_below hv hx hbelow hx hrest,
          ih (hv.tail ⟨x, hx, hbelow⟩) hrest⟩
    · intro x hx x' hx' hne part part' hpart hpart' y hy hy'
      rcases visit_cases hpart with ⟨-, rfl⟩ | ⟨w, rest, hbelow, hrest, rfl⟩ <;>
        rcases visit_cases hpart' with ⟨-, rfl⟩ | ⟨w', rest', hbelow', hrest', rfl⟩
      · exact hne ((List.mem_singleton.mp hy).symm.trans (List.mem_singleton.mp hy'))
      · obtain rfl := List.mem_singleton.mp hy
        exact (List.mem_cons.mp hy').elim hne (h.notMem_below hv hx' hbelow' hx hrest')
      · obtain rfl := List.mem_singleton.mp hy'
        exact (List.mem_cons.mp hy).elim hne.symm (h.notMem_below hv hx hbelow hx' hrest)
      · rcases List.mem_cons.mp hy with rfl | hy <;> rcases List.mem_cons.mp hy' with heq | hy'
        · exact hne heq
        · exact h.notMem_below hv hx' hbelow' hx hrest' hy'
        · exact h.notMem_below hv hx hbelow hx' hrest (heq ▸ hy)
        · obtain ⟨u, hwu, hyu⟩ := (mem_preorder hrest).mp hy
          obtain ⟨u', hwu', hyu'⟩ := (mem_preorder hrest').mp hy'
          obtain rfl := (g.owned hyu).symm.trans (g.owned hyu')
          exact h.apart hv hx hx' hne hbelow hbelow' hwu hwu'

/-- On a tree the traversal returns, with every item of the tree once and nothing else. -/
theorem IsTree.exists_preorder [Finite α] (h : g.IsTree root) :
    ∃ out, (∃ n, ∀ m ≥ n, g.preorder m root = some out) ∧ out.Nodup ∧
      ∀ y, y ∈ out ↔ ∃ u, ReflTransGen g.Call root u ∧ y ∈ g.items u := by
  obtain ⟨n, hn⟩ := (g.preorder_deepens.exists_returns_iff root).mpr fun w hw => h.acyclic hw
  obtain ⟨out, hout⟩ := Option.isSome_iff_exists.mp hn
  exact ⟨out, ⟨n, fun m hm => preorder_mono hm hout⟩, h.nodup_preorder .refl hout,
    fun y => mem_preorder hout⟩

end Tree

end Forest

end Recursion
