import HolyOs.Cpu.Spinlock

/-!
# Code that writes to what a lock protects

A program over a state and its lock, one write at a time. The monitor records whether each
write so far was made with the lock taken. A program that stops for good leaves its record
behind: the writes it made until then count.

`Yields x m l r` says what a program comes to, as one value `r`, when all its writes are
guarded. The rules follow the program, so that a function with many writes and ways out is shown
to be guarded together with what it computes.
-/
namespace HolyOs.Cpu

/-- A state, its lock, and whether each write to the state was made with the lock taken. -/
structure Monitor (S : Type) where
  lock : Spinlock
  state : S
  guarded : Bool

namespace Monitor

variable {S ε α β : Type}

/-- Before the first write. -/
def enter (l : Spinlock) (s : S) : Monitor S := ⟨l, s, true⟩

/-- One write. -/
def write (m : Monitor S) (f : S → S) : Monitor S :=
  { m with state := f m.state, guarded := m.guarded && !decide m.lock.Free }

/-- `spinlock_lock`; `waiting` stands for waiting for ever. -/
def acquire (waiting : ε) : EStateM ε (Monitor S) Unit := fun m =>
  match spinlockLock m.lock with
  | none => .error waiting m
  | some l => .ok () { m with lock := l }

/-- `spinlock_unlock`. -/
def release : EStateM ε (Monitor S) Unit := fun m =>
  .ok () { m with lock := spinlockUnlock m.lock }

def load : EStateM ε (Monitor S) S := fun m => .ok m.state m

def store (f : S → S) : EStateM ε (Monitor S) Unit := fun m => .ok () (m.write f)

/-- A step that does not write to what the lock protects. -/
def elsewhere (f : S → α × S) : EStateM ε (Monitor S) α := fun m =>
  .ok (f m.state).1 { m with state := (f m.state).2 }

/-- The result of code without writes. -/
def result : Except ε α → EStateM ε (Monitor S) α
  | .ok a => pure a
  | .error e => throw e

/-- No write was made without the lock, and a program that returns has released it. -/
structure Disciplined (x : EStateM ε (Monitor S) α) (m : Monitor S) : Prop where
  guarded : ∀ a m', x m = .ok a m' → m'.guarded = true
  stopped : ∀ e m', x m = .error e m' → m'.guarded = true
  released : ∀ a m', x m = .ok a m' → m'.lock.Free

/-- The program returns. -/
def Returns (x : EStateM ε (Monitor S) α) (m : Monitor S) : Prop := ∃ a m', x m = .ok a m'

/-- The lock after `spinlock_lock`. -/
def taken : Spinlock := ⟨1⟩

theorem taken_held : ¬ taken.Free := by decide

/-- With guarded writes only, `x` returns a value and a state, with the lock at `l`, or stops
for good. -/
def Yields (x : EStateM ε (Monitor S) α) (m : Monitor S) (l : Spinlock) :
    Except ε (α × S) → Prop
  | .ok (a, s) => x m = .ok a ⟨l, s, m.guarded⟩
  | .error e => ∃ m', x m = .error e m' ∧ m'.guarded = m.guarded

section Rules

variable {x : EStateM ε (Monitor S) α} {k : α → EStateM ε (Monitor S) β} {m : Monitor S}
  {l l' : Spinlock} {s : S} {g : Bool} {r : Except ε (α × S)}

theorem write_of_held (hheld : ¬ l.Free) (f : S → S) :
    (⟨l, s, g⟩ : Monitor S).write f = ⟨l, f s, g⟩ := by
  simp [write, hheld]

theorem load_bind_apply (k : S → EStateM ε (Monitor S) β) (m : Monitor S) :
    (load >>= k) m = k m.state m := rfl

theorem Yields.pure (a : α) : Yields (Pure.pure a : EStateM ε (Monitor S) α) ⟨l, s, g⟩ l
    (.ok (a, s)) := rfl

theorem Yields.bind_error {e : ε} (hx : Yields x m l (.error e)) :
    Yields (x >>= k) m l' (.error e) := by
  obtain ⟨m', hm', hg⟩ := hx
  refine ⟨m', ?_, hg⟩
  change EStateM.bind x k m = _
  rw [EStateM.bind, hm']

theorem Yields.bind_ok {a : α} {r : Except ε (β × S)} (hx : Yields x m l (.ok (a, s)))
    (hk : Yields (k a) ⟨l, s, m.guarded⟩ l' r) : Yields (x >>= k) m l' r := by
  have hm : x m = .ok a ⟨l, s, m.guarded⟩ := hx
  have hthen : (x >>= k) m = k a ⟨l, s, m.guarded⟩ := by
    change EStateM.bind x k m = _
    rw [EStateM.bind, hm]
  unfold Yields at hk ⊢
  rw [hthen]
  exact hk

theorem Yields.load_bind {k : S → EStateM ε (Monitor S) β} {r : Except ε (β × S)}
    (h : Yields (k s) ⟨l, s, g⟩ l' r) : Yields (load >>= k) ⟨l, s, g⟩ l' r := h

theorem Yields.store_bind {k : Unit → EStateM ε (Monitor S) β} {r : Except ε (β × S)}
    {f : S → S} (hheld : ¬ l.Free) (h : Yields (k ()) ⟨l, f s, g⟩ l' r) :
    Yields (store f >>= k) ⟨l, s, g⟩ l' r := by
  have hthen : (store f >>= k) ⟨l, s, g⟩ = k () ⟨l, f s, g⟩ :=
    congrArg (k ()) (write_of_held hheld f)
  unfold Yields at h ⊢
  rw [hthen]
  exact h

theorem Yields.store {f : S → S} (hheld : ¬ l.Free) :
    Yields (Monitor.store f : EStateM ε (Monitor S) Unit) ⟨l, s, g⟩ l (.ok ((), f s)) :=
  congrArg (EStateM.Result.ok ()) (write_of_held hheld f)

theorem Yields.elsewhere {f : S → α × S} :
    Yields (Monitor.elsewhere f : EStateM ε (Monitor S) α) ⟨l, s, g⟩ l (.ok (f s)) := rfl

theorem Yields.result (r : Except ε α) :
    Yields (Monitor.result r) ⟨l, s, g⟩ l (r.map fun a => (a, s)) := by
  cases r with
  | error e => exact ⟨_, rfl, rfl⟩
  | ok a => rfl

theorem Yields.acquire_bind {k : Unit → EStateM ε (Monitor S) β} {r : Except ε (β × S)}
    {waiting : ε} (hfree : l.Free) (h : Yields (k ()) ⟨taken, s, g⟩ l' r) :
    Yields (acquire waiting >>= k) ⟨l, s, g⟩ l' r := by
  have hthen : (acquire waiting >>= k) ⟨l, s, g⟩ = k () ⟨taken, s, g⟩ := by
    obtain rfl := Spinlock.eq_of_free hfree
    rfl
  unfold Yields at h ⊢
  rw [hthen]
  exact h

/-- A program that waits for a lock it has taken stops there. -/
theorem Yields.acquire_of_held {k : Unit → EStateM ε (Monitor S) β} {waiting : ε}
    (hheld : ¬ l.Free) :
    Yields (acquire waiting >>= k) ⟨l, s, g⟩ l' (.error waiting) := by
  refine ⟨⟨l, s, g⟩, ?_, rfl⟩
  change EStateM.bind (acquire waiting) k _ = _
  rw [EStateM.bind, acquire, spinlockLock_of_held hheld]

/-- The usual way out: unlock and return. -/
theorem Yields.release_pure (a : α) :
    Yields (do release; return a : EStateM ε (Monitor S) α) ⟨l, s, g⟩ ⟨0⟩ (.ok (a, s)) := rfl

theorem Yields.disciplined (h : Yields x (enter l s) l' r) (hfree : l'.Free) :
    Disciplined x (enter l s) := by
  cases r with
  | error e =>
    obtain ⟨m', hm', hg⟩ := h
    refine ⟨fun a n hn => ?_, fun e n hn => ?_, fun a n hn => ?_⟩ <;> rw [hm'] at hn <;> cases hn
    exact hg
  | ok p =>
    have hm : x (enter l s) = .ok p.1 ⟨l', p.2, true⟩ := h
    refine ⟨fun a n hn => ?_, fun e n hn => ?_, fun a n hn => ?_⟩ <;> rw [hm] at hn <;> cases hn
    · rfl
    · exact hfree

theorem Yields.returns {p : α × S} (h : Yields x m l (.ok p)) : Returns x m := ⟨p.1, _, h⟩

end Rules

end Monitor

end HolyOs.Cpu
