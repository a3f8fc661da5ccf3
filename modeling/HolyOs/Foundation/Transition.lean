import Mathlib.Data.List.Basic

/-!
# Finite runs of labelled step relations

`Run step s ops t` says that the operations `ops`, executed in order from `s`, lead to `t`.
The step relation carries the guards on the operations and any ghost components of the
state, so one induction rule serves every history property: an invariant that holds at
the start and is kept by each step holds at the end of every run.
-/
namespace Transition

variable {σ τ ι κ : Type*} {step : σ → ι → σ → Prop}

/-- The operations `ops` lead from `s` to the indexed state. -/
inductive Run (step : σ → ι → σ → Prop) (s : σ) : List ι → σ → Prop
  | nil : Run step s [] s
  | snoc {ops : List ι} {t u : σ} {op : ι} :
      Run step s ops t → step t op u → Run step s (ops ++ [op]) u

theorem Run.single {s t : σ} {op : ι} (h : step s op t) : Run step s [op] t :=
  .snoc .nil h

theorem Run.append {s t u : σ} {xs ys : List ι} (h : Run step s xs t) (g : Run step t ys u) :
    Run step s (xs ++ ys) u := by
  induction g with
  | nil => simpa using h
  | snoc _ hstep ih => simpa using ih.snoc hstep

theorem Run.cons {s t u : σ} {op : ι} {ops : List ι} (h : step s op t) (g : Run step t ops u) :
    Run step s (op :: ops) u :=
  (Run.single h).append g

/-- Operations that are evaluated one after the other. -/
theorem Run.of_foldlM {f : σ → ι → Option σ} (hf : ∀ {s op t}, f s op = some t → step s op t)
    {s t : σ} {ops : List ι} (h : ops.foldlM f s = some t) : Run step s ops t := by
  induction ops generalizing s with
  | nil =>
    obtain rfl := Option.some.inj h
    exact .nil
  | cons op ops ih =>
    rw [List.foldlM_cons] at h
    obtain ⟨u, hop, hrest⟩ := Option.bind_eq_some_iff.mp h
    exact .cons (hf hop) (ih hrest)

/-- An invariant of the steps, relative to the operations executed so far. -/
theorem Run.history {s t : σ} {ops : List ι} {I : List ι → σ → Prop} (h : Run step s ops t)
    (init : I [] s) (preserved : ∀ ops t op u, I ops t → step t op u → I (ops ++ [op]) u) :
    I ops t := by
  induction h with
  | nil => exact init
  | snoc _ hstep ih => exact preserved _ _ _ _ ih hstep

/-- An invariant of the steps holds at the end of every run. -/
theorem Run.invariant {s t : σ} {ops : List ι} {I : σ → Prop} (h : Run step s ops t)
    (init : I s) (preserved : ∀ t op u, I t → step t op u → I u) : I t :=
  h.history (I := fun _ => I) init fun _ t op u => preserved t op u

/-- A forward simulation: the abstract system follows every concrete run, executing the
image `f op` of each operation. -/
theorem Run.simulates {astep : τ → κ → τ → Prop} {R : σ → τ → Prop} {s t : σ} {a : τ}
    {ops : List ι} (f : ι → κ) (h : Run step s ops t) (init : R s a)
    (follows : ∀ t op u b, R t b → step t op u → ∃ c, astep b (f op) c ∧ R u c) :
    ∃ c, Run astep a (ops.map f) c ∧ R t c := by
  induction h with
  | nil => exact ⟨a, .nil, init⟩
  | snoc _ hstep ih =>
    obtain ⟨b, hrun, hb⟩ := ih
    obtain ⟨c, hc, hR⟩ := follows _ _ _ _ hb hstep
    exact ⟨c, by simpa using hrun.snoc hc, hR⟩

/-- A forward simulation in which some operations are invisible to the abstract system: it stays
where it is when `f op` is `none`. -/
theorem Run.stutters {astep : τ → κ → τ → Prop} {R : σ → τ → Prop} {s t : σ} {a : τ}
    {ops : List ι} (f : ι → Option κ) (h : Run step s ops t) (init : R s a)
    (hidden : ∀ t op u b, f op = none → R t b → step t op u → R u b)
    (follows : ∀ t op u b k, f op = some k → R t b → step t op u → ∃ c, astep b k c ∧ R u c) :
    ∃ c, Run astep a (ops.filterMap f) c ∧ R t c := by
  induction h with
  | nil => exact ⟨a, .nil, init⟩
  | @snoc ops t u op _ hstep ih =>
    obtain ⟨b, hrun, hb⟩ := ih
    cases hf : f op with
    | none => exact ⟨b, by simpa [hf] using hrun, hidden _ _ _ _ hf hb hstep⟩
    | some k =>
      obtain ⟨c, hc, hR⟩ := follows _ _ _ _ _ hf hb hstep
      exact ⟨c, by simpa [hf] using hrun.snoc hc, hR⟩

/-- A property that an operation brings about, or leaves as it is, holds after a sequence that
contains such an operation, or held before. -/
theorem foldl_iff {f : σ → ι → σ} {P : σ → Prop} {brings : ι → Prop}
    (h : ∀ s op, P (f s op) ↔ brings op ∨ P s) (ops : List ι) (s : σ) :
    P (ops.foldl f s) ↔ (∃ op ∈ ops, brings op) ∨ P s := by
  induction ops generalizing s with
  | nil => simp
  | cons op ops ih =>
    rw [List.foldl_cons, ih, h]
    simp only [List.mem_cons, exists_eq_or_imp]
    exact or_left_comm.trans or_assoc.symm

end Transition
