import Mathlib.Logic.Basic
import Mathlib.Tactic.SplitIfs

/-!
# Spinlocks

Shallow model of `kernel/cpu/spinlock.c`, one atomic access to the lock word at a time. On one
processor nothing else changes the word, so waiting for a lock that is taken never ends.
-/
namespace HolyOs.Cpu

structure Spinlock where
  lock : UInt32
deriving DecidableEq

/-- The previous value, and the lock with the new one. -/
def atomicExchange (l : Spinlock) (val : UInt32) : UInt32 × Spinlock := (l.lock, ⟨val⟩)

def spinlockInit (_ : Spinlock) : Spinlock := ⟨0⟩

/-- Where `spinlock_lock` is: at the exchange of the outer loop, or reading in the inner one. -/
inductive LockPc
  | exchange
  | wait
deriving DecidableEq

/-- One access of `spinlock_lock`. No next place means that it returns. -/
def spinlockLockStep (l : Spinlock) : LockPc → Option LockPc × Spinlock
  | .exchange =>
    let r := atomicExchange l 1
    (if r.1 ≠ 0 then some .wait else none, r.2)
  | .wait => (if l.lock ≠ 0 then some .wait else some .exchange, l)

def spinlockTrylock (l : Spinlock) : Bool × Spinlock :=
  let r := atomicExchange l 1
  (r.1 = 0, r.2)

def spinlockUnlock (l : Spinlock) : Spinlock := (atomicExchange l 0).2

namespace Spinlock

/-- Nobody holds the lock. -/
def Free (l : Spinlock) : Prop := l.lock = 0

instance (l : Spinlock) : Decidable l.Free := inferInstanceAs (Decidable (_ = _))

@[simp] theorem free_unlock (l : Spinlock) : (spinlockUnlock l).Free := rfl

@[simp] theorem free_init (l : Spinlock) : (spinlockInit l).Free := rfl

theorem eq_of_free {l : Spinlock} (hfree : l.Free) : l = ⟨0⟩ := congrArg Spinlock.mk hfree

end Spinlock

/-- `spinlock_lock` alone on the processor, for at most `n` accesses. -/
def spinlockLockRun : Nat → LockPc → Spinlock → Option Spinlock
  | 0, _, _ => none
  | n + 1, pc, l =>
    match spinlockLockStep l pc with
    | (none, l) => some l
    | (some pc, l) => spinlockLockRun n pc l

/-- `spinlock_lock` alone on the processor; `none` stands for waiting for ever. -/
def spinlockLock (l : Spinlock) : Option Spinlock := if l.lock ≠ 0 then none else some ⟨1⟩

/-- Waiting for a lock that is taken does not end. -/
theorem spinlockLockRun_of_held {l : Spinlock} (hheld : ¬ l.Free) (n : Nat) (pc : LockPc) :
    spinlockLockRun n pc l = none := by
  induction n generalizing pc l with
  | zero => rfl
  | succ n ih =>
    unfold Spinlock.Free at hheld
    cases pc with
    | exchange =>
      simp only [spinlockLockRun, spinlockLockStep, atomicExchange, ne_eq, hheld, not_false_eq_true,
        if_true]
      exact ih (by decide) .wait
    | wait =>
      simp only [spinlockLockRun, spinlockLockStep, ne_eq, hheld, not_false_eq_true, if_true]
      exact ih hheld .wait

/-- What the accesses come to. -/
theorem spinlockLock_eq_some_iff {l l' : Spinlock} :
    spinlockLock l = some l' ↔ ∃ n, spinlockLockRun n .exchange l = some l' := by
  unfold spinlockLock
  split_ifs with hlock
  · simp [spinlockLockRun_of_held hlock]
  · rw [not_not] at hlock
    constructor
    · intro heq
      refine ⟨1, ?_⟩
      simpa [spinlockLockRun, spinlockLockStep, atomicExchange, hlock] using heq
    · rintro ⟨n, hn⟩
      cases n with
      | zero => cases hn
      | succ n => simpa [spinlockLockRun, spinlockLockStep, atomicExchange, hlock] using hn

theorem spinlockLockStep_of_free {l : Spinlock} (hfree : l.Free) :
    spinlockLockStep l .exchange = (none, ⟨1⟩) := by
  rw [Spinlock.eq_of_free hfree]
  rfl

theorem spinlockLockStep_of_held {l : Spinlock} (hheld : ¬ l.Free) (pc : LockPc) :
    (spinlockLockStep l pc).1 = some .wait := by
  cases pc <;> exact if_pos hheld

/-- `spinlock_lock` returns with a lock that was free. -/
theorem spinlockLockStep_return {l l' : Spinlock} {pc : LockPc}
    (h : spinlockLockStep l pc = (none, l')) : l.Free ∧ ¬ l'.Free := by
  cases pc <;> grind [spinlockLockStep, atomicExchange, Spinlock.Free]

/-- As long as it goes on, it takes a free lock from nobody. -/
theorem spinlockLockStep_continue {l l' : Spinlock} {pc pc' : LockPc}
    (h : spinlockLockStep l pc = (some pc', l')) : l'.Free ↔ l.Free := by
  cases pc <;> grind [spinlockLockStep, atomicExchange, Spinlock.Free]

theorem spinlockLock_of_free {l : Spinlock} (hfree : l.Free) : spinlockLock l = some ⟨1⟩ :=
  if_neg (not_not.mpr hfree)

theorem spinlockLock_of_held {l : Spinlock} (hheld : ¬ l.Free) : spinlockLock l = none :=
  if_pos hheld

end HolyOs.Cpu
