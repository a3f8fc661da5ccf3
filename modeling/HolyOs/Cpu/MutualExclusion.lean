import HolyOs.Cpu.Spinlock
import HolyOs.Foundation.Transition
import Mathlib.Logic.Function.Basic

/-!
# Mutual exclusion

Any number of processors around one spinlock. Each of them calls `spinlock_lock` or
`spinlock_trylock`, goes through its critical section if it has the lock, and calls
`spinlock_unlock`; a step is one access of one processor to the lock word, or the start of a call.

Who holds the lock is read off the word: the processor whose access made it nonzero holds the lock
until its access makes it 0 again.
-/
namespace HolyOs.Cpu

open Transition

/-- Where a processor is. `tried` is after the return of `spinlock_trylock`, with its result. -/
inductive ProcessorPc
  | outside
  | locking (pc : LockPc)
  | trying
  | tried (result : Bool)
  | critical
  | unlocking
deriving DecidableEq

/-- The lock, the processors, and for each of them whether it holds the lock. -/
structure Processors (ι : Type*) where
  lock : Spinlock
  pc : ι → ProcessorPc
  holds : ι → Bool

/-- Whether a processor holds the lock after its access, if it did so before. -/
def holdsAfter (before after : Spinlock) (held : Bool) : Bool :=
  if before.lock = 0 ∧ after.lock ≠ 0 then true
  else if before.lock ≠ 0 ∧ after.lock = 0 then false
  else held

namespace Processors

variable {ι : Type*}

/-- After `spinlock_init`, with every processor outside. -/
def start (l : Spinlock) : Processors ι := ⟨spinlockInit l, fun _ => .outside, fun _ => false⟩

variable [DecidableEq ι]

/-- Processor `i` goes on without an access. -/
def goto (s : Processors ι) (i : ι) (pc : ProcessorPc) : Processors ι :=
  { s with pc := Function.update s.pc i pc }

/-- Processor `i` leaves `l` in the lock and goes on. -/
def access (s : Processors ι) (i : ι) (l : Spinlock) (pc : ProcessorPc) : Processors ι where
  lock := l
  pc := Function.update s.pc i pc
  holds := Function.update s.holds i (holdsAfter s.lock l (s.holds i))

/-- The next access of `spinlock_lock`, and the critical section once it returns. -/
def lockAccess (s : Processors ι) (i : ι) (pc : LockPc) : Processors ι :=
  let r := spinlockLockStep s.lock pc
  s.access i r.2 (r.1.elim .critical .locking)

inductive Step (s : Processors ι) : ι → Processors ι → Prop
  | callLock {i : ι} : s.pc i = .outside → Step s i (s.goto i (.locking .exchange))
  | callTrylock {i : ι} : s.pc i = .outside → Step s i (s.goto i .trying)
  | lock {i : ι} {pc : LockPc} : s.pc i = .locking pc → Step s i (s.lockAccess i pc)
  | trylock {i : ι} : s.pc i = .trying →
      Step s i (s.access i (spinlockTrylock s.lock).2 (.tried (spinlockTrylock s.lock).1))
  | enter {i : ι} : s.pc i = .tried true → Step s i (s.goto i .critical)
  | giveUp {i : ι} : s.pc i = .tried false → Step s i (s.goto i .outside)
  | leave {i : ι} : s.pc i = .critical → Step s i (s.goto i .unlocking)
  | unlock {i : ι} : s.pc i = .unlocking →
      Step s i (s.access i (spinlockUnlock s.lock) .outside)

end Processors

/-- The places between taking the lock and giving it back. -/
def ProcessorPc.Inside : ProcessorPc → Prop
  | .tried result => result = true
  | .critical => True
  | .unlocking => True
  | _ => False

/-- The lock word tells whether a processor holds the lock, and the processor that does is the one
between taking it and giving it back. -/
structure Processors.Exclusive {ι : Type*} (s : Processors ι) : Prop where
  word : s.lock.lock = 0 ∨ s.lock.lock = 1
  taken : ¬ s.lock.Free ↔ ∃ i, s.holds i = true
  unique : ∀ i j, s.holds i = true → s.holds j = true → i = j
  inside : ∀ i, s.holds i = true ↔ (s.pc i).Inside

namespace Processors

variable {ι : Type*} {s t : Processors ι} {i : ι}

theorem Exclusive.start (l : Spinlock) : (Processors.start l : Processors ι).Exclusive where
  word := .inl rfl
  taken := by simp [Processors.start]
  unique i j hi := by cases hi
  inside i := by simp [Processors.start, ProcessorPc.Inside]

variable [DecidableEq ι]

/-- A step without an access goes from one place inside to another, or from outside to outside. -/
theorem Exclusive.goto (h : s.Exclusive) {pc : ProcessorPc} (hpc : (s.pc i).Inside ↔ pc.Inside) :
    (s.goto i pc).Exclusive where
  word := h.word
  taken := h.taken
  unique := h.unique
  inside j := by
    have hj := h.inside j
    by_cases hji : j = i
    · subst hji
      simpa [Processors.goto] using hj.trans hpc
    · simpa [Processors.goto, hji] using hj

/-- A processor takes the free lock. -/
theorem Exclusive.take (h : s.Exclusive) (hfree : s.lock.Free) {pc : ProcessorPc}
    (hpc : pc.Inside) : (s.access i ⟨1⟩ pc).Exclusive := by
  have hnobody : ∀ j, s.holds j = false := by
    intro j
    by_contra hj
    exact h.taken.mpr ⟨j, by simpa using hj⟩ hfree
  have hholds : ∀ j, (s.access i ⟨1⟩ pc).holds j = true ↔ j = i := by
    intro j
    have hfree' : s.lock.lock = 0 := hfree
    by_cases hji : j = i <;> simp [access, holdsAfter, hji, hfree', hnobody]
  refine ⟨.inr rfl, ?_, ?_, ?_⟩
  · simp only [hholds, exists_eq, iff_true]
    exact (by decide : ¬ (⟨1⟩ : Spinlock).Free)
  · intro j k hj hk
    rw [(hholds j).mp hj, (hholds k).mp hk]
  · intro j
    rw [hholds]
    by_cases hji : j = i
    · simp [access, hji, hpc]
    · have hout := h.inside j
      simp only [hnobody, Bool.false_eq_true, false_iff] at hout
      simp [access, hji, hout]

/-- An access that leaves a taken lock taken goes on outside. -/
theorem Exclusive.retry (h : s.Exclusive) {l : Spinlock} {pc : ProcessorPc}
    (hheld : ¬ s.lock.Free) (hword : l.lock = 1) (hout : ¬ (s.pc i).Inside)
    (hpc : ¬ pc.Inside) : (s.access i l pc).Exclusive := by
  have hholds : (s.access i l pc).holds = s.holds := by
    have hheld' : s.lock.lock ≠ 0 := hheld
    have hsame : holdsAfter s.lock l (s.holds i) = s.holds i := by simp [holdsAfter, hheld', hword]
    unfold access
    rw [hsame, Function.update_eq_self]
  refine ⟨.inr hword, ?_, ?_, fun j => ?_⟩
  · rw [hholds, ← h.taken]
    exact iff_of_true (by simp [access, Spinlock.Free, hword]) hheld
  · rw [hholds]
    exact h.unique
  · rw [hholds, h.inside j]
    by_cases hji : j = i
    · subst hji
      simp [access, hout, hpc]
    · simp [access, hji]

/-- The processor inside gives the lock back. -/
theorem Exclusive.release (h : s.Exclusive) (hin : (s.pc i).Inside) :
    (s.access i (spinlockUnlock s.lock) .outside).Exclusive := by
  have hholder := (h.inside i).mpr hin
  have hheld : s.lock.lock ≠ 0 := h.taken.mpr ⟨i, hholder⟩
  have hword : (spinlockUnlock s.lock).lock = 0 := rfl
  have hnobody : ∀ j, (s.access i (spinlockUnlock s.lock) .outside).holds j = false := by
    intro j
    by_cases hji : j = i
    · subst hji
      simp [access, holdsAfter, hheld, hword]
    · have hother : s.holds j = false := by
        by_contra hj
        exact hji (h.unique j i (by simpa using hj) hholder)
      simp [access, hji, hother]
  refine ⟨.inl hword, ?_, ?_, fun j => ?_⟩
  · refine iff_of_false (fun hnot => hnot rfl) ?_
    rintro ⟨j, hj⟩
    simp [hnobody] at hj
  · intro j k hj
    simp [hnobody] at hj
  · rw [hnobody]
    by_cases hji : j = i
    · simp [access, hji, ProcessorPc.Inside]
    · have hout : ¬ (s.pc j).Inside := fun hj =>
        hji (h.unique j i ((h.inside j).mpr hj) hholder)
      simp [access, hji, hout]

/-- One access of `spinlock_lock`. -/
theorem Exclusive.lockAccess (h : s.Exclusive) {pc : LockPc} (hpc : s.pc i = .locking pc) :
    (s.lockAccess i pc).Exclusive := by
  have hout : ¬ (s.pc i).Inside := by simp [hpc, ProcessorPc.Inside]
  by_cases hfree : s.lock.Free
  · cases pc with
    | exchange =>
      rw [Processors.lockAccess, spinlockLockStep_of_free hfree]
      exact h.take hfree trivial
    | wait =>
      -- the inner loop has seen the free lock, and takes nothing
      have hread : spinlockLockStep s.lock .wait = (some .exchange, s.lock) := by
        rw [Spinlock.eq_of_free hfree]
        rfl
      have hsame : s.access i s.lock (.locking .exchange) = s.goto i (.locking .exchange) := by
        simp [access, Processors.goto, holdsAfter]
      rw [Processors.lockAccess, hread]
      exact hsame ▸ h.goto (iff_of_false hout id)
  · have hword := h.word.resolve_left hfree
    have hnext := spinlockLockStep_of_held hfree pc
    rw [Processors.lockAccess, hnext]
    refine h.retry hfree ?_ hout id
    cases pc with
    | exchange => rfl
    | wait => exact hword

theorem Exclusive.trylock (h : s.Exclusive) (hpc : s.pc i = .trying) :
    (s.access i (spinlockTrylock s.lock).2 (.tried (spinlockTrylock s.lock).1)).Exclusive := by
  have hout : ¬ (s.pc i).Inside := by simp [hpc, ProcessorPc.Inside]
  by_cases hfree : s.lock.Free
  · exact h.take hfree (decide_eq_true hfree)
  · exact h.retry hfree rfl hout fun hresult => hfree (of_decide_eq_true hresult)

theorem Exclusive.step (h : s.Exclusive) (hstep : Step s i t) : t.Exclusive := by
  cases hstep with
  | callLock hpc => exact h.goto (by simp [hpc, ProcessorPc.Inside])
  | callTrylock hpc => exact h.goto (by simp [hpc, ProcessorPc.Inside])
  | lock hpc => exact h.lockAccess hpc
  | trylock hpc => exact h.trylock hpc
  | enter hpc => exact h.goto (by simp [hpc, ProcessorPc.Inside])
  | giveUp hpc => exact h.goto (by simp [hpc, ProcessorPc.Inside])
  | leave hpc => exact h.goto (by simp [hpc, ProcessorPc.Inside])
  | unlock hpc => exact h.release (by simp [hpc, ProcessorPc.Inside])

end Processors

/-- However the steps of any number of processors are interleaved, at most one of them is in its
critical section, and it holds the lock; the lock word is 1 exactly when a processor holds the
lock, and 0 otherwise; `spinlock_trylock` has returned nonzero exactly to a processor that holds
the lock. -/
theorem spinlock_mutual_exclusion {ι : Type*} [DecidableEq ι] {l : Spinlock} {steps : List ι}
    {s : Processors ι} (hrun : Run Processors.Step (.start l) steps s) :
    (∀ i j, s.pc i = .critical → s.pc j = .critical → i = j) ∧
      (∀ i, s.pc i = .critical → s.holds i = true) ∧
      (s.lock.lock = 1 ↔ ∃ i, s.holds i = true) ∧ (s.lock.lock = 0 ∨ s.lock.lock = 1) ∧
      ∀ i result, s.pc i = .tried result → (result = true ↔ s.holds i = true) := by
  have h : s.Exclusive :=
    hrun.invariant (.start l) fun _ _ _ hs hstep => hs.step hstep
  have hcritical : ∀ i, s.pc i = .critical → s.holds i = true := fun i hi =>
    (h.inside i).mpr (by simp [hi, ProcessorPc.Inside])
  refine ⟨fun i j hi hj => h.unique i j (hcritical i hi) (hcritical j hj), hcritical, ?_, h.word,
    fun i result hi => ?_⟩
  · rw [← h.taken, Spinlock.Free]
    rcases h.word with hword | hword <;> simp [hword]
  · rw [h.inside i, hi]
    rfl

/-- One of two processors tries the lock and gets it, and the other one waits. -/
theorem spinlock_mutual_exclusion_pair : ∃ s : Processors Bool,
    s.pc true = .critical ∧ s.pc false = .locking .wait ∧
      (∀ i j, s.pc i = .critical → s.pc j = .critical → i = j) := by
  have hrun : Run Processors.Step (.start ⟨7⟩ : Processors Bool)
      [true, true, true, false, false] _ :=
    .cons (.callTrylock rfl) <| .cons (.trylock rfl) <| .cons (.enter rfl) <|
      .cons (.callLock rfl) <| .single (.lock (rfl : _ = ProcessorPc.locking .exchange))
  exact ⟨_, rfl, rfl, (spinlock_mutual_exclusion hrun).1⟩

end HolyOs.Cpu
