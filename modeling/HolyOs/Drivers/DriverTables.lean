import HolyOs.Drivers.Selection

/-!
# The bounds of the driver tables

The selection loops of `video_init` and `input_init` end at an empty slot, and a full table has
none. Here they run on the memory from the first slot on, and `behind` is what lies at the indices
that are not in the table.
-/
namespace HolyOs.Drivers

/-- What `drivers[i]` reads. -/
def slotAt (table : List (Option Driver)) (behind : Nat → Option Driver) (i : Nat) :
    Option Driver :=
  table.getD i (behind i)

section Reads

variable (nullPriority : Int32)

/-- The indices at which `for (int i = 0; drivers[i]; i++)` reads a slot, from `i` on and as far as
`fuel` tests of the condition go. -/
def selectReads (slots : Nat → Option Driver) (best : Option Driver) : Nat → Nat → List Nat
  | 0, _ => []
  | fuel + 1, i =>
    i :: match slots i with
      | none => []
      | some d =>
        if d.priority < (readPriority nullPriority best).1 then selectReads slots best fuel (i + 1)
        else if d.probe ≠ 0 then []
        else selectReads slots best fuel (i + 1)

def videoInitReads (table : List (Option Driver)) (behind : Nat → Option Driver) (fuel : Nat) :
    List Nat :=
  selectReads nullPriority (slotAt table behind) none fuel 0

def inputInitReads (table : List (Option Driver)) (behind : Nat → Option Driver) (fuel : Nat) :
    List Nat :=
  selectReads nullPriority (slotAt table behind) none fuel 0

end Reads

/-! ## Registration -/

/-- An occupied slot keeps its driver. -/
theorem registerDriver_keeps {table : List (Option Driver)} (driver : Driver) {i : Nat} {d : Driver}
    (h : table[i]? = some (some d)) : (registerDriver table driver)[i]? = some (some d) := by
  fun_induction registerDriver table driver generalizing i with
  | case1 => exact h
  | case2 driver table =>
    -- the free slot is not the one at `i`
    cases i with
    | zero => simp at h
    | succ i => exact h
  | case3 driver e table ih =>
    cases i with
    | zero => exact h
    | succ i => exact ih h

/-! ## The reads of a selection -/

section Selection

variable {nullPriority : Int32} {slots : Nat → Option Driver} {best : Option Driver}

/-- The loop goes on behind a driver that it does not take. -/
theorem selectReads_succ_of_skip {d : Driver} {i : Nat} (fuel : Nat) (hd : slots i = some d)
    (hskip : d.priority < (readPriority nullPriority best).1 ∨ d.probe = 0) :
    selectReads nullPriority slots best (fuel + 1) i =
      i :: selectReads nullPriority slots best fuel (i + 1) := by
  rw [selectReads, hd]
  grind

theorem selectReads_inside_cons {P : Nat → Prop} {d : Driver} {i : Nat} (hd : slots i = some d)
    (hskip : d.priority < (readPriority nullPriority best).1 ∨ d.probe = 0) (hi : P i) :
    (∀ fuel, ∀ j ∈ selectReads nullPriority slots best fuel i, P j) ↔
      ∀ fuel, ∀ j ∈ selectReads nullPriority slots best fuel (i + 1), P j := by
  constructor
  · intro h fuel j hj
    apply h (fuel + 1)
    rw [selectReads_succ_of_skip fuel hd hskip]
    exact List.mem_cons_of_mem _ hj
  · rintro h (_ | fuel) j hj
    · cases hj
    · rw [selectReads_succ_of_skip fuel hd hskip] at hj
      grind

/-- The loop stays inside the table exactly when the selection has a result. -/
theorem selectReads_inside_iff (nullPriority : Int32) (slots : Nat → Option Driver)
    (best : Option Driver) (table : List (Option Driver)) (i : Nat)
    (hslots : ∀ k s, table[k]? = some s → slots (i + k) = s) :
    (∀ fuel, ∀ j ∈ selectReads nullPriority slots best fuel i, j < i + table.length) ↔
      (selectLoop nullPriority best table).isSome := by
  induction table generalizing i with
  | nil =>
    -- the first test already reads behind the table
    have hread : i ∈ selectReads nullPriority slots best 1 i := by
      unfold selectReads
      grind
    simp only [selectLoop, Option.isSome_none, Bool.false_eq_true, iff_false]
    intro h
    simpa using h 1 i hread
  | cons s table ih =>
    have hs : slots i = s := hslots 0 s rfl
    have hrest := ih (i + 1) fun k s hk => by
      rw [Nat.add_assoc, Nat.add_comm 1]
      exact hslots (k + 1) s hk
    rw [Nat.add_assoc, Nat.add_comm 1] at hrest
    have hstop : (∀ fuel, selectReads nullPriority slots best (fuel + 1) i = [i]) →
        ∀ fuel, ∀ j ∈ selectReads nullPriority slots best fuel i,
          j < i + (s :: table).length := by
      rintro h (_ | fuel) j hj
      · cases hj
      · rw [h, List.mem_singleton] at hj
        simp [hj]
    cases s with
    | none =>
      refine iff_of_true (hstop fun fuel => ?_) rfl
      rw [selectReads, hs]
    | some d =>
      have hi : i < i + (some d :: table).length := by simp
      by_cases hskip : d.priority < (readPriority nullPriority best).1 ∨ d.probe = 0
      · rw [selectReads_inside_cons hs hskip hi, List.length_cons, hrest, selectLoop]
        grind
      · rw [not_or] at hskip
        refine iff_of_true (hstop fun fuel => ?_) ?_
        · rw [selectReads, hs]
          grind
        · rw [selectLoop]
          grind

/-- A selection has a result when there is an empty slot, or a driver to take before. -/
theorem isSome_selectLoop (nullPriority : Int32) (drivers : List Driver) (free : Nat) :
    (selectLoop nullPriority none (drivers.map some ++ List.replicate free none)).isSome ↔
      0 < free ∨ ∃ d ∈ drivers, Acceptable nullPriority d := by
  induction drivers with
  | nil =>
    cases free with
    | zero => simp [selectLoop]
    | succ free => simp [List.replicate_succ, selectLoop]
  | cons d drivers ih =>
    rw [List.map_cons, List.cons_append, selectLoop]
    simp only [readPriority]
    by_cases hskip : d.priority < nullPriority ∨ d.probe = 0
    · have hd : Acceptable nullPriority d = false := by
        simpa [Acceptable, or_iff_not_imp_left] using hskip
      grind
    · have hd : Acceptable nullPriority d = true := by
        simpa [Acceptable, or_iff_not_imp_left] using hskip
      rw [not_or] at hskip
      grind

end Selection

/-- What is asked of a table with `size` slots: registration overwrites no driver, and the selection
reads inside the table. -/
structure TableBounded (size : Nat)
    (register : List (Option Driver) → Driver → List (Option Driver)) (reads : Nat → List Nat) :
    Prop where
  kept : ∀ (table : List (Option Driver)) (driver : Driver) (i : Nat) (d : Driver),
    table[i]? = some (some d) → (register table driver)[i]? = some (some d)
  inside : ∀ fuel, ∀ i ∈ reads fuel, i < size

/-- The selection from the first `size` drivers ends before or at the last slot. -/
def EndsInside (nullPriority : Int32) (size : Nat) (drivers : List Driver) : Prop :=
  drivers.length < size ∨ ∃ d ∈ drivers.take size, Acceptable nullPriority d

theorem tableBounded_iff (nullPriority : Int32) (behind : Nat → Option Driver) (size : Nat)
    (drivers : List Driver) :
    TableBounded size registerDriver (selectReads nullPriority
        (slotAt (drivers.foldl registerDriver (List.replicate size none)) behind) none · 0) ↔
      EndsInside nullPriority size drivers := by
  have hlength : (drivers.foldl registerDriver (List.replicate size none)).length = size := by
    simp only [foldl_registerDriver_empty, List.length_append, List.length_map, List.length_take,
      List.length_replicate]
    omega
  have hreads := selectReads_inside_iff nullPriority
    (slotAt (drivers.foldl registerDriver (List.replicate size none)) behind) none
    (drivers.foldl registerDriver (List.replicate size none)) 0
    fun k s hk => by simp [slotAt, List.getD, hk]
  rw [hlength, Nat.zero_add, foldl_registerDriver_empty, isSome_selectLoop, Nat.sub_pos_iff_lt,
    ← foldl_registerDriver_empty] at hreads
  constructor
  · rintro ⟨-, hinside⟩
    exact hreads.mp hinside
  · intro hends
    exact ⟨fun _ driver _ _ h => registerDriver_keeps driver h, hreads.mpr hends⟩

/-- Both tables keep their drivers and both selections read inside them exactly when each finds an
empty slot or a driver to take, whatever lies behind the tables. -/
theorem driver_tables_bounded_iff (nullPriority : Int32)
    (behindVideo behindInput : Nat → Option Driver) (video input : List Driver) :
    (TableBounded maxVideoDrivers videoRegisterDriver
        (videoInitReads nullPriority (registeredDrivers video) behindVideo) ↔
      EndsInside nullPriority maxVideoDrivers video) ∧
    (TableBounded maxInputDrivers inputRegisterDriver
        (inputInitReads nullPriority (inputDrivers input) behindInput) ↔
      EndsInside nullPriority maxInputDrivers input) :=
  ⟨tableBounded_iff nullPriority behindVideo maxVideoDrivers video,
    tableBounded_iff nullPriority behindInput maxInputDrivers input⟩

/-- As many video drivers as slots, and none of them finds its device. -/
theorem driver_tables_bounded_fails : ¬ ∀ (nullPriority : Int32) (behind : Nat → Option Driver)
    (drivers : List Driver), TableBounded maxVideoDrivers videoRegisterDriver
      (videoInitReads nullPriority (registeredDrivers drivers) behind) := by
  intro h
  have hread : maxVideoDrivers ∈ videoInitReads 0
      (registeredDrivers (List.replicate maxVideoDrivers ⟨10, 0, none⟩)) (fun _ => none) 6 := by
    decide
  exact absurd ((h _ _ _).inside 6 _ hread) (Nat.lt_irrefl _)

end HolyOs.Drivers
