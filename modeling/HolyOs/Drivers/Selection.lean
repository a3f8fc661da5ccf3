import HolyOs.Foundation.Word
import Mathlib.Data.List.Basic

/-!
# Driver tables

Registration and selection of drivers in `drivers/video/video.c` and `drivers/input/input.c`. Both
tables are filled from the front, and both selections compare with the priority of the best driver
so far, which is a null pointer at the start. `nullPriority` is what lies at the address of the
field `priority` of a driver at 0.
-/
namespace HolyOs.Drivers

/-- The fields that the selection reads, and what the probe function returns. -/
structure Driver where
  priority : Int32
  probe : Int32
  /-- The address of the function, or null. -/
  init : Option Nat
deriving DecidableEq

inductive DriverEvent where
  /-- A field is read through a null pointer. -/
  | nullRead
  | probe (d : Driver)
  | init (d : Driver)
deriving DecidableEq

def maxVideoDrivers : Nat := 5
def maxInputDrivers : Nat := 8

/-- The driver goes to the first empty slot, if there is one. -/
def registerDriver : List (Option Driver) → Driver → List (Option Driver)
  | [], _ => []
  | none :: table, driver => some driver :: table
  | some d :: table, driver => some d :: registerDriver table driver

def videoRegisterDriver (table : List (Option Driver)) (driver : Driver) : List (Option Driver) :=
  registerDriver table driver

def inputRegisterDriver (table : List (Option Driver)) (driver : Driver) : List (Option Driver) :=
  registerDriver table driver

/-- `registered_drivers` after the constructors have run. -/
def registeredDrivers (drivers : List Driver) : List (Option Driver) :=
  drivers.foldl videoRegisterDriver (List.replicate maxVideoDrivers none)

/-- `drivers` of the input subsystem, after the constructors have run. -/
def inputDrivers (drivers : List Driver) : List (Option Driver) :=
  drivers.foldl inputRegisterDriver (List.replicate maxInputDrivers none)

section Selection

variable (nullPriority : Int32)

/-- `best->priority`. -/
def readPriority : Option Driver → Int32 × List DriverEvent
  | some d => (d.priority, [])
  | none => (nullPriority, [.nullRead])

/-- `for (int i = 0; drivers[i]; i++)`. There is no result when it reads behind the table. -/
def selectLoop (best : Option Driver) :
    List (Option Driver) → Option (Option Driver × List DriverEvent)
  | [] => none
  | none :: _ => some (best, [])
  | some d :: table =>
    let (priority, reads) := readPriority nullPriority best
    if d.priority < priority then
      (selectLoop best table).map fun (best, events) => (best, reads ++ events)
    else if d.probe ≠ 0 then some (some d, reads ++ [.probe d])
    else (selectLoop best table).map fun (best, events) => (best, reads ++ .probe d :: events)

/-- The selection, and the initialisation of the selected driver. -/
def initBest (table : List (Option Driver)) : Option (Option Driver × List DriverEvent) :=
  match selectLoop nullPriority none table with
  | none => none
  | some (none, events) => some (none, events)
  | some (some best, events) =>
    some (some best, events ++ if best.init.isSome then [.init best] else [])

/-- The driver that becomes `current_driver`, and what happens on the way. -/
def videoInit (table : List (Option Driver)) : Option (Option Driver × List DriverEvent) :=
  initBest nullPriority table

/-- The part of `input_init` about the drivers. -/
def inputInitBest (table : List (Option Driver)) : Option (Option Driver × List DriverEvent) :=
  initBest nullPriority table

end Selection

/-! ## The tables -/

/-- Registration keeps the order, and drops what does not fit. -/
theorem foldl_registerDriver (drivers first : List Driver) (free : Nat) :
    drivers.foldl registerDriver (first.map some ++ List.replicate free none) =
      (first ++ drivers.take free).map some ++ List.replicate (free - drivers.length) none := by
  induction drivers generalizing first free with
  | nil => simp
  | cons driver drivers ih =>
    cases free with
    | zero =>
      have hfull : registerDriver (first.map some) driver = first.map some := by
        induction first with
        | nil => rfl
        | cons d first ih => simp [registerDriver, ih]
      simpa [hfull] using ih first 0
    | succ free =>
      have hslot : registerDriver (first.map some ++ List.replicate (free + 1) none) driver =
          (first ++ [driver]).map some ++ List.replicate free none := by
        induction first with
        | nil => rfl
        | cons d first ih => simpa [registerDriver] using ih
      rw [List.foldl_cons, hslot, ih]
      simp

theorem foldl_registerDriver_empty (drivers : List Driver) (free : Nat) :
    drivers.foldl registerDriver (List.replicate free none) =
      (drivers.take free).map some ++ List.replicate (free - drivers.length) none := by
  simpa using foldl_registerDriver drivers [] free

/-! ## The selection -/

/-- The drivers that pass the comparison with what lies at 0, and then the probe. -/
def Acceptable (nullPriority : Int32) (d : Driver) : Bool :=
  !decide (d.priority < nullPriority) && decide (d.probe ≠ 0)

/-- The first acceptable driver is selected, and every turn reads through the null pointer. -/
theorem selectLoop_eq (nullPriority : Int32) (drivers : List Driver)
    (table : List (Option Driver)) :
    ∃ events, selectLoop nullPriority none (drivers.map some ++ none :: table) =
        some (drivers.find? (Acceptable nullPriority), events) ∧
      (.nullRead ∈ events ↔ drivers ≠ []) := by
  induction drivers with
  | nil => exact ⟨[], rfl, by simp⟩
  | cons d drivers ih =>
    obtain ⟨events, hrun, -⟩ := ih
    simp only [List.map_cons, List.cons_append, selectLoop, readPriority, hrun, Option.map_some]
    split_ifs with hlow hprobe
    · exact ⟨.nullRead :: events, by simp [Acceptable, hlow], by simp⟩
    · exact ⟨[.nullRead, .probe d], by simp [Acceptable, hlow, hprobe], by simp⟩
    · exact ⟨.nullRead :: .probe d :: events, by simp [Acceptable, hprobe], by simp⟩

theorem initBest_eq (nullPriority : Int32) (drivers : List Driver)
    (table : List (Option Driver)) :
    ∃ events, initBest nullPriority (drivers.map some ++ none :: table) =
        some (drivers.find? (Acceptable nullPriority), events) ∧
      (.nullRead ∈ events ↔ drivers ≠ []) := by
  obtain ⟨events, hrun, hreads⟩ := selectLoop_eq nullPriority drivers table
  unfold initBest
  rw [hrun]
  cases drivers.find? (Acceptable nullPriority) with
  | none => exact ⟨events, rfl, hreads⟩
  | some best =>
    refine ⟨_, rfl, ?_⟩
    split_ifs <;> simpa using hreads

/-- What the selection is for: of the drivers whose probe succeeds, one of maximal priority. -/
structure HonoursPriorities (drivers : List Driver)
    (result : Option (Option Driver × List DriverEvent)) : Prop where
  selected : ∀ d events, result = some (some d, events) → d ∈ drivers ∧ d.probe ≠ 0 ∧
    ∀ e ∈ drivers, e.probe ≠ 0 → e.priority ≤ d.priority
  none_iff : (∃ events, result = some (none, events)) ↔ ∀ d ∈ drivers, d.probe = 0
  noNullRead : ∃ best events, result = some (best, events) ∧ .nullRead ∉ events

theorem honoursPriorities_iff (nullPriority : Int32) {drivers : List Driver} {size : Nat}
    (h : drivers.length < size) :
    HonoursPriorities drivers
        (initBest nullPriority (drivers.foldl registerDriver (List.replicate size none))) ↔
      drivers = [] := by
  have hfree : size - drivers.length = size - drivers.length - 1 + 1 := by omega
  rw [foldl_registerDriver_empty, List.take_of_length_le h.le, hfree, List.replicate_succ]
  obtain ⟨events, hrun, hreads⟩ := initBest_eq nullPriority drivers
    (List.replicate (size - drivers.length - 1) none)
  rw [hrun]
  constructor
  · rintro ⟨-, -, best, events', hsame, hread⟩
    grind
  · rintro rfl
    exact ⟨by simp, by simp, ⟨_, _, rfl, by simpa using hreads⟩⟩

/-- Both selections honour the priorities exactly when there is nothing to select from: the first
comparison already reads through the null pointer. -/
theorem driver_selection_iff (nullPriority : Int32) {video input : List Driver}
    (hvideo : video.length < maxVideoDrivers) (hinput : input.length < maxInputDrivers) :
    (HonoursPriorities video (videoInit nullPriority (registeredDrivers video)) ↔ video = []) ∧
      (HonoursPriorities input (inputInitBest nullPriority (inputDrivers input)) ↔ input = []) :=
  ⟨honoursPriorities_iff nullPriority hvideo, honoursPriorities_iff nullPriority hinput⟩

theorem driver_selection_iff_one :
    (HonoursPriorities [⟨10, 1, none⟩] (videoInit 0 (registeredDrivers [⟨10, 1, none⟩])) ↔
        [(⟨10, 1, none⟩ : Driver)] = []) ∧
      (HonoursPriorities [] (inputInitBest 0 (inputDrivers [])) ↔ ([] : List Driver) = []) :=
  driver_selection_iff 0 (by decide) (by decide)

/-- One driver whose probe succeeds. -/
theorem driver_selection_fails : ¬ ∀ (nullPriority : Int32) (drivers : List Driver),
    drivers.length < maxVideoDrivers →
    HonoursPriorities drivers (videoInit nullPriority (registeredDrivers drivers)) := by
  intro h
  obtain ⟨best, events, hrun, hread⟩ := (h 0 [⟨10, 1, none⟩] (by decide)).noNullRead
  have hevents : videoInit 0 (registeredDrivers [⟨10, 1, none⟩]) =
      some (some ⟨10, 1, none⟩, [.nullRead, .probe ⟨10, 1, none⟩]) := by decide
  grind

end HolyOs.Drivers
