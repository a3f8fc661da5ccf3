import HolyOs.Foundation.Recursion

/-!
# Loops on states

A `while` loop is its condition and what one iteration does to the state. If its states are among
finitely many, it ends exactly when none it comes to leads back to itself.
-/
open Relation

structure WhileLoop (σ : Type*) where
  runs : σ → Prop
  body : σ → σ

namespace WhileLoop

variable {σ : Type*} (w : WhileLoop σ)

/-- One iteration leads from `s` to `t`. -/
def Iterates (s t : σ) : Prop := w.runs s ∧ t = w.body s

/-- The states in which the iterations from `s` on start, up to the end of the loop. -/
inductive Visits : σ → List σ → Prop
  | done {s : σ} : ¬ w.runs s → Visits s []
  | step {s : σ} {ts : List σ} : w.runs s → Visits (w.body s) ts → Visits s (s :: ts)

/-- From `s` on every iteration starts in a state with `P`, and none in the same state as an
earlier one. -/
def Advances (P : σ → Prop) (s : σ) : Prop :=
  ∀ t, ReflTransGen w.Iterates s t → w.runs t → P t ∧ ¬ TransGen w.Iterates t t

/-- Runs the loop and joins what its iterations give; none when the condition is not false within
the given number of tests. -/
def collect [DecidablePred w.runs] {β : Type*} (gives : σ → List β) : Nat → σ → Option (List β)
  | 0, _ => none
  | fuel + 1, s =>
    if w.runs s then (collect gives fuel (w.body s)).map (gives s ++ ·) else some []

variable {w} {s t : σ} {ts : List σ} {P I : σ → Prop}

/-- What is visited is what the iterations lead to. -/
theorem Visits.mem_iff (h : w.Visits s ts) :
    t ∈ ts ↔ ReflTransGen w.Iterates s t ∧ w.runs t := by
  induction h with
  | @done s hend =>
    refine iff_of_false List.not_mem_nil ?_
    rintro ⟨hreach, hruns⟩
    rcases hreach.cases_head with rfl | ⟨u, hstep, -⟩
    · exact hend hruns
    · exact hend hstep.1
  | @step s ts hruns _ ih =>
    rw [List.mem_cons, ih]
    constructor
    · rintro (rfl | ⟨hreach, ht⟩)
      · exact ⟨.refl, hruns⟩
      · exact ⟨.head ⟨hruns, rfl⟩ hreach, ht⟩
    · rintro ⟨hreach, ht⟩
      rcases hreach.cases_head with rfl | ⟨u, ⟨-, rfl⟩, hrest⟩
      · exact .inl rfl
      · exact .inr ⟨hrest, ht⟩

theorem Visits.unique {ts' : List σ} (h : w.Visits s ts) (h' : w.Visits s ts') : ts = ts' := by
  induction h generalizing ts' with
  | done hend =>
    cases h' with
    | done => rfl
    | step hruns => exact absurd hruns hend
  | step hruns _ ih =>
    cases h' with
    | done hend => exact absurd hruns hend
    | step _ hrest => rw [ih hrest]

/-- With enough tests what is collected comes from the states that are visited. -/
theorem collect_eq_some_iff [DecidablePred w.runs] {β : Type*} {gives : σ → List β} {fuel : Nat}
    {out : List β} : w.collect gives fuel s = some out ↔
      ∃ ts, w.Visits s ts ∧ ts.length < fuel ∧ out = ts.flatMap gives := by
  induction fuel generalizing s out with
  | zero => simp [collect]
  | succ fuel ih =>
    unfold collect
    split_ifs with hruns
    · rw [Option.map_eq_some_iff]
      constructor
      · rintro ⟨rest, hrest, rfl⟩
        obtain ⟨ts, hvisits, hlength, rfl⟩ := ih.mp hrest
        exact ⟨s :: ts, .step hruns hvisits, Nat.succ_lt_succ hlength, rfl⟩
      · rintro ⟨ts, hvisits, hlength, rfl⟩
        cases hvisits with
        | done hend => exact absurd hruns hend
        | step _ hrest => exact ⟨_, ih.mpr ⟨_, hrest, Nat.lt_of_succ_lt_succ hlength, rfl⟩, rfl⟩
    · constructor
      · intro hout
        obtain rfl := Option.some.inj hout
        exact ⟨[], .done hruns, Nat.succ_pos _, rfl⟩
      · rintro ⟨ts, hvisits, -, rfl⟩
        cases hvisits with
        | done => rfl
        | step hstep => exact absurd hstep hruns

theorem runs_of_cycle (h : TransGen w.Iterates s t) : w.runs s := by
  obtain ⟨u, hstep, -⟩ := TransGen.head'_iff.mp h
  exact hstep.1

/-- The iterations keep what is kept by each. -/
theorem reach_closed (hclosed : ∀ s, I s → w.runs s → I (w.body s)) (hs : I s)
    (h : ReflTransGen w.Iterates s t) :
    ∃ ht : I t, ReflTransGen (fun a b : {s // I s} => w.Iterates a b) ⟨s, hs⟩ ⟨t, ht⟩ := by
  induction h with
  | refl => exact ⟨hs, .refl⟩
  | tail _ hstep ih =>
    obtain ⟨hu, hreach⟩ := ih
    obtain ⟨hruns, rfl⟩ := hstep
    exact ⟨hclosed _ hu hruns, hreach.tail ⟨hruns, rfl⟩⟩

/-- A state has at most `n + 1` iterations before it if the next one has at most `n`. -/
theorem visits_deepens (hclosed : ∀ s, I s → w.runs s → I (w.body s)) :
    Recursion.Deepens (fun a b : {s // I s} => w.Iterates a b)
      fun n a => ∃ ts, w.Visits a ts ∧ ts.length < n where
  zero v := by simp
  succ n v := by
    constructor
    · rintro ⟨ts, hvisits, hlength⟩ u ⟨hruns, hu⟩
      cases hvisits with
      | done hend => exact absurd hruns hend
      | step _ hrest => exact ⟨_, hu ▸ hrest, Nat.lt_of_succ_lt_succ hlength⟩
    · intro hnext
      by_cases hruns : w.runs v
      · obtain ⟨ts, hvisits, hlength⟩ := hnext ⟨_, hclosed v v.2 hruns⟩ ⟨hruns, rfl⟩
        exact ⟨v :: ts, .step hruns hvisits, by simpa using hlength⟩
      · exact ⟨[], .done hruns, by simp⟩

/-- The loop ends after iterations in states with `P` only exactly when it advances through such
states. -/
theorem exists_visits_iff [Finite {s // I s}] (hclosed : ∀ s, I s → w.runs s → I (w.body s))
    (hs : I s) : (∃ ts, w.Visits s ts ∧ ∀ t ∈ ts, P t) ↔ w.Advances P s := by
  have hends : (∃ ts, w.Visits s ts) ↔
      ∀ t, ReflTransGen w.Iterates s t → ¬ TransGen w.Iterates t t := by
    have hreturns := (visits_deepens hclosed).exists_returns_iff ⟨s, hs⟩
    constructor
    · rintro ⟨ts, hvisits⟩ t hreach hcycle
      obtain ⟨ht, hreach'⟩ := reach_closed hclosed hs hreach
      apply hreturns.mp ⟨_, ts, hvisits, Nat.lt_succ_self _⟩ ⟨t, ht⟩ hreach'
      obtain ⟨u, ⟨hruns, rfl⟩, hrest⟩ := TransGen.head'_iff.mp hcycle
      obtain ⟨_, hback⟩ := reach_closed hclosed (hclosed t ht hruns) hrest
      exact .head' ⟨hruns, rfl⟩ hback
    · intro hfree
      obtain ⟨-, ts, hvisits, -⟩ := hreturns.mpr fun t hreach hcycle =>
        hfree t (hreach.lift Subtype.val fun _ _ h => h) (hcycle.lift Subtype.val fun _ _ h => h)
      exact ⟨ts, hvisits⟩
  constructor
  · rintro ⟨ts, hvisits, hP⟩ t hreach hruns
    exact ⟨hP t (hvisits.mem_iff.mpr ⟨hreach, hruns⟩), hends.mp ⟨ts, hvisits⟩ t hreach⟩
  · intro hadvances
    obtain ⟨ts, hvisits⟩ := hends.mpr fun t hreach hcycle =>
      (hadvances t hreach (runs_of_cycle hcycle)).2 hcycle
    refine ⟨ts, hvisits, fun t ht => ?_⟩
    obtain ⟨hreach, hruns⟩ := hvisits.mem_iff.mp ht
    exact (hadvances t hreach hruns).1

end WhileLoop
