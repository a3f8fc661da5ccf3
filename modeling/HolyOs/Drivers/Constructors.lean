import HolyOs.Drivers.Selection
import HolyOs.Foundation.ByteMemory

/-!
# The constructors

`init_ctors` of `boot/boot.s` calls the functions of the table between `__ctors_start` and
`__ctors_end`. Those of the drivers register them, and `video_init` and `input_init` select from
what was registered. The table is not written to on the way.
-/
namespace HolyOs.Drivers

open ByteMemory

/-- What the function at an address does to the tables of drivers. -/
inductive Ctor
  | video (d : Driver)
  | input (d : Driver)
  | other

structure DriverTables where
  video : List (Option Driver)
  input : List (Option Driver)
  /-- The functions that were called, the first one first. -/
  called : List Nat

def DriverTables.empty : DriverTables :=
  ⟨List.replicate maxVideoDrivers none, List.replicate maxInputDrivers none, []⟩

section Calls

variable (kind : Nat → Ctor)

def callCtor (s : DriverTables) (f : Nat) : DriverTables :=
  let s := { s with called := s.called ++ [f] }
  match kind f with
  | .video d => { s with video := videoRegisterDriver s.video d }
  | .input d => { s with input := inputRegisterDriver s.input d }
  | .other => s

/-- The loop of `init_ctors`, from its test on. `ebx` is left as it is at the end. -/
def initCtorsLoop (m : Memory) (ctorsEnd : Nat) :
    Nat → Nat → DriverTables → Option (Nat × DriverTables)
  | 0, _, _ => none
  | fuel + 1, ebx, s =>
    if ebx < ctorsEnd
    then initCtorsLoop m ctorsEnd fuel (Word32.wrap (ebx + 4)) (callCtor kind s (load32 m ebx))
    else some (ebx, s)

def initCtors (m : Memory) (ctorsStart ctorsEnd fuel : Nat) (s : DriverTables) :
    Option (Nat × DriverTables) :=
  initCtorsLoop kind m ctorsEnd fuel ctorsStart s

end Calls

/-- The functions of a table with `n` entries. -/
def ctorTable (m : Memory) (base n : Nat) : List Nat :=
  (List.range n).map fun i => load32 m (base + 4 * i)

def Ctor.video? : Ctor → Option Driver
  | .video d => some d
  | _ => none

def Ctor.input? : Ctor → Option Driver
  | .input d => some d
  | _ => none

/-- The drivers that a list of constructors registers. -/
def videoDriversOf (kind : Nat → Ctor) (fs : List Nat) : List Driver :=
  fs.filterMap fun f => (kind f).video?

def inputDriversOf (kind : Nat → Ctor) (fs : List Nat) : List Driver :=
  fs.filterMap fun f => (kind f).input?

section Runs

variable {kind : Nat → Ctor} {m : Memory}

theorem ctorTable_succ (m : Memory) (base n : Nat) :
    ctorTable m base (n + 1) = load32 m base :: ctorTable m (base + 4) n := by
  rw [ctorTable, List.range_succ_eq_map, List.map_cons, List.map_map]
  refine congrArg (load32 m base :: ·) (List.map_congr_left fun i _ => ?_)
  have haddr : base + 4 * (i + 1) = base + 4 + 4 * i := by omega
  exact congrArg (load32 m) haddr

/-- The loop calls the functions of the table one after the other. -/
theorem initCtorsLoop_eq {n fuel ebx : Nat} (hfit : ebx + 4 * n < 2 ^ 32) (hfuel : n < fuel)
    (s : DriverTables) : initCtorsLoop kind m (ebx + 4 * n) fuel ebx s =
      some (ebx + 4 * n, (ctorTable m ebx n).foldl (callCtor kind) s) := by
  induction n generalizing fuel ebx s with
  | zero =>
    obtain ⟨fuel, rfl⟩ := Nat.exists_eq_add_of_lt hfuel
    simp [initCtorsLoop, ctorTable]
  | succ n ih =>
    obtain ⟨fuel, rfl⟩ : ∃ k, fuel = k + 1 := ⟨fuel - 1, by omega⟩
    have hend : ebx + 4 * (n + 1) = ebx + 4 + 4 * n := by omega
    rw [initCtorsLoop, if_pos (by omega), Word32.wrap_of_lt (by omega), hend, ctorTable_succ]
    exact ih (by omega) (by omega) _

/-- Each table gets its drivers in the order of the calls. -/
theorem foldl_callCtor (fs : List Nat) (s : DriverTables) :
    fs.foldl (callCtor kind) s = {
      video := (videoDriversOf kind fs).foldl videoRegisterDriver s.video
      input := (inputDriversOf kind fs).foldl inputRegisterDriver s.input
      called := s.called ++ fs } := by
  induction fs generalizing s with
  | nil => simp [videoDriversOf, inputDriversOf]
  | cons f fs ih =>
    rw [List.foldl_cons, ih, callCtor]
    cases hkind : kind f <;>
      simp [videoDriversOf, inputDriversOf, Ctor.video?, Ctor.input?, hkind]

end Runs

/-- A selection from a table that is not full. -/
theorem initBest_registered (nullPriority : Int32) {drivers : List Driver} {size : Nat}
    (h : drivers.length < size) : ∃ events,
      initBest nullPriority (drivers.foldl registerDriver (List.replicate size none)) =
        some (drivers.find? (Acceptable nullPriority), events) := by
  have hfree : size - drivers.length = size - drivers.length - 1 + 1 := by omega
  rw [foldl_registerDriver_empty, List.take_of_length_le h.le, hfree, List.replicate_succ]
  obtain ⟨events, hrun, -⟩ := initBest_eq nullPriority drivers
    (List.replicate (size - drivers.length - 1) none)
  exact ⟨events, hrun⟩

/-- `init_ctors` calls every function of its table once and in order. Both subsystems then select
the first driver registered with them that passes, whatever other constructors are in between. -/
theorem drivers_brought_up (kind : Nat → Ctor) (m : Memory) {base n fuel : Nat}
    (hfit : base + 4 * n < 2 ^ 32) (hfuel : n < fuel) (nullPriority : Int32)
    (hvideo : (videoDriversOf kind (ctorTable m base n)).length < maxVideoDrivers)
    (hinput : (inputDriversOf kind (ctorTable m base n)).length < maxInputDrivers) :
    ∃ s events inputEvents,
      initCtors kind m base (base + 4 * n) fuel .empty = some (base + 4 * n, s) ∧
      s.called = ctorTable m base n ∧
      videoInit nullPriority s.video = some
        ((videoDriversOf kind s.called).find? (Acceptable nullPriority), events) ∧
      inputInitBest nullPriority s.input = some
        ((inputDriversOf kind s.called).find? (Acceptable nullPriority), inputEvents) := by
  obtain ⟨events, hvideo⟩ := initBest_registered nullPriority hvideo
  obtain ⟨inputEvents, hinput⟩ := initBest_registered nullPriority hinput
  refine ⟨_, events, inputEvents, initCtorsLoop_eq hfit hfuel .empty, ?_⟩
  rw [foldl_callCtor]
  exact ⟨rfl, hvideo, hinput⟩

/-- Three constructors at 2 MiB: that of the PS/2 controller, and two that register a driver. -/
def threeCtors : Memory :=
  store32 (store32 (store32 (fun _ => 0) 0x200000 0x201000) 0x200004 0x202000) 0x200008 0x203000

def threeKinds (f : Nat) : Ctor :=
  if f = 0x202000 then .input ⟨10, 1, some 0x204000⟩
  else if f = 0x203000 then .video ⟨10, 1, none⟩
  else .other

theorem drivers_brought_up_three : ∃ s events inputEvents,
    initCtors threeKinds threeCtors 0x200000 (0x200000 + 4 * 3) 4 .empty =
      some (0x200000 + 4 * 3, s) ∧ s.called = [0x201000, 0x202000, 0x203000] ∧
      videoInit 0 s.video = some (some ⟨10, 1, none⟩, events) ∧
      inputInitBest 0 s.input = some (some ⟨10, 1, some 0x204000⟩, inputEvents) := by
  have htable : ctorTable threeCtors 0x200000 3 = [0x201000, 0x202000, 0x203000] := by
    decide +kernel
  obtain ⟨s, events, inputEvents, hrun, hcalled, hvideo, hinput⟩ :=
    drivers_brought_up threeKinds threeCtors (show 0x200000 + 4 * 3 < 2 ^ 32 by decide)
      (show 3 < 4 by decide) 0 (by rw [htable]; decide) (by rw [htable]; decide)
  rw [htable] at hcalled
  rw [hcalled] at hvideo hinput
  exact ⟨s, events, inputEvents, hrun, hcalled, hvideo, hinput⟩

end HolyOs.Drivers
