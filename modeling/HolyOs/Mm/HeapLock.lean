import HolyOs.Cpu.Spinlock
import HolyOs.Mm.HeapClient

/-!
# The heap lock

The calls of `kernel/mm/heap.c` with the operations on `heap_lock` as the code has them: one
`spinlock_lock` and a `spinlock_unlock` on every way out. Only the processor that runs the call
is there to release the lock, so a call that waits for it waits for itself.

Where no call waits, the calls do to the heap what they do without the lock. The one that waits
is `krealloc` on its way to a larger block: it calls `kmalloc` with the lock taken.

## Main definitions

* `LockedHeap`: the heap and its lock, with the calls.
* `LockedClient`: the clients of `HeapClient`, calling the locked heap.
-/
namespace HolyOs.Mm

open ByteMemory HolyOs.Lib HolyOs.Cpu Transition

/-- Why a call does not return: it waits for the lock, or follows `next` pointers for ever. -/
inductive Stuck
  | waiting
  | looping
deriving DecidableEq

structure LockedHeap (σ : Type) where
  heap : Heap σ
  lock : Spinlock

/-- The result of a loop on `next` pointers. -/
def looped {α : Type} : Option α → Except Stuck α
  | none => .error .looping
  | some a => .ok a

namespace LockedHeap

variable {σ : Type} (s : LockedHeap σ)

/-- `spinlock_lock(&heap_lock)`. -/
def acquire : Except Stuck (LockedHeap σ) :=
  match spinlockLock s.lock with
  | none => .error .waiting
  | some lock => .ok { s with lock := lock }

/-- `spinlock_unlock(&heap_lock)`. -/
def release : LockedHeap σ := { s with lock := spinlockUnlock s.lock }

def heapInit [PageSource σ] : LockedHeap σ := ⟨Mm.heapInit s.heap, spinlockInit s.lock⟩

def kmalloc [PageSource σ] (size : Nat) : Except Stuck (Nat × LockedHeap σ) :=
  if size = 0 then .ok (0, s)
  else do
    let s ← s.acquire
    let size := alignSize size
    let block ← looped (findFreeBlock s.heap size)
    if block ≠ 0 then
      let r := takeBlock s.heap block size
      return (r.1, { s with heap := r.2 }.release)
    else
      let s := { s with heap := heapExpand s.heap (Word32.wrap (size + heapBlockSize)) }
      let block ← looped (findFreeBlock s.heap size)
      if block = 0 then return (0, s.release)
      else
        let r := takeBlock s.heap block size
        return (r.1, { s with heap := r.2 }.release)

def kfree (ptr : Nat) : Except Stuck (LockedHeap σ) :=
  if ptr = 0 then .ok s
  else do
    let s ← s.acquire
    let block := Word32.sub ptr heapBlockSize
    if blockMagic s.heap.mem block ≠ heapMagic then return s.release
    else
      let h ← looped (releaseBlock s.heap block)
      return { s with heap := h }.release

def krealloc [PageSource σ] (ptr size : Nat) : Except Stuck (Nat × LockedHeap σ) :=
  if ptr = 0 then s.kmalloc size
  else if size = 0 then do
    let s ← s.kfree ptr
    return (0, s)
  else do
    let s ← s.acquire
    let block := Word32.sub ptr heapBlockSize
    if blockMagic s.heap.mem block ≠ heapMagic then return (0, s.release)
    else
      let size := alignSize size
      if size ≤ blockSize s.heap.mem block then
        return (ptr, { s with heap := trimBlock s.heap block size }.release)
      else
        let (newPtr, s) ← s.kmalloc size
        if newPtr = 0 then return (0, s.release)
        else
          let h := { s.heap with mem := memcpy s.heap.mem newPtr ptr (blockSize s.heap.mem block) }
          let h ← looped (releaseBlock h block)
          return (newPtr, { s with heap := h }.release)

/-! ## With the lock free -/

section Binds

variable {α β : Type} (f : α → Except Stuck β)

@[simp] theorem looped_none_bind : (looped none >>= f) = .error .looping := rfl

@[simp] theorem looped_some_bind (a : α) : (looped (some a) >>= f) = f a := rfl

end Binds

variable {s}

theorem acquire_bind_of_free {α : Type} (hfree : s.lock.Free)
    (f : LockedHeap σ → Except Stuck α) : (s.acquire >>= f) = f ⟨s.heap, ⟨1⟩⟩ := by
  unfold acquire
  rw [spinlockLock_of_free hfree]
  rfl

theorem acquire_bind_of_held {α : Type} (hheld : ¬ s.lock.Free)
    (f : LockedHeap σ → Except Stuck α) : (s.acquire >>= f) = .error .waiting := by
  unfold acquire
  rw [spinlockLock_of_held hheld]
  rfl

/-- A heap whose lock is free. -/
def idle (h : Heap σ) : LockedHeap σ := ⟨h, ⟨0⟩⟩

theorem kmalloc_of_free [PageSource σ] (hfree : s.lock.Free) (size : Nat) :
    s.kmalloc size = looped ((Mm.kmalloc s.heap size).map fun (r, h) => (r, idle h)) := by
  obtain ⟨h, lock⟩ := s
  obtain rfl : lock = ⟨0⟩ := Spinlock.eq_of_free hfree
  unfold kmalloc Mm.kmalloc
  rw [acquire_bind_of_free hfree]
  generalize alignSize size = aligned
  split_ifs with hsize
  · rfl
  · cases hfind : findFreeBlock h aligned with
    | none =>
      simp only [hfind, looped_none_bind]
      rfl
    | some block =>
      simp only [hfind, looped_some_bind]
      split_ifs with hblock
      · rfl
      · generalize heapExpand h (Word32.wrap (aligned + heapBlockSize)) = h'
        cases findFreeBlock h' aligned with
        | none => rfl
        | some again =>
          simp only [looped_some_bind]
          split_ifs <;> rfl

/-- A call with the lock taken waits. -/
theorem kmalloc_of_held [PageSource σ] (hheld : ¬ s.lock.Free) {size : Nat} (hsize : size ≠ 0) :
    s.kmalloc size = .error .waiting := by
  unfold kmalloc
  rw [if_neg hsize, acquire_bind_of_held hheld]

theorem kfree_of_free (hfree : s.lock.Free) (ptr : Nat) :
    s.kfree ptr = looped ((Mm.kfree s.heap ptr).map idle) := by
  obtain ⟨h, lock⟩ := s
  obtain rfl : lock = ⟨0⟩ := Spinlock.eq_of_free hfree
  unfold kfree Mm.kfree
  rw [acquire_bind_of_free hfree]
  dsimp only
  split_ifs with hptr hmagic
  · rfl
  · rfl
  · cases releaseBlock h (Word32.sub ptr heapBlockSize) <;> rfl

end LockedHeap

/-- `krealloc` of a block that it has to move to a larger one. -/
def Heap.Grows {σ : Type*} (h : Heap σ) (ptr size : Nat) : Prop :=
  ptr ≠ 0 ∧ size ≠ 0 ∧ blockMagic h.mem (Word32.sub ptr heapBlockSize) = heapMagic ∧
    blockSize h.mem (Word32.sub ptr heapBlockSize) < alignSize size

instance {σ : Type*} (h : Heap σ) (ptr size : Nat) : Decidable (h.Grows ptr size) :=
  inferInstanceAs (Decidable (_ ∧ _))

namespace LockedHeap

variable {σ : Type} {s : LockedHeap σ} [PageSource σ] {ptr size : Nat}

theorem krealloc_of_grows (hfree : s.lock.Free) (hgrows : s.heap.Grows ptr size) :
    s.krealloc ptr size = .error .waiting := by
  obtain ⟨hptr, hsize, hmagic, hlt⟩ := hgrows
  have hheld : ¬ (⟨1⟩ : Spinlock).Free := by decide
  unfold krealloc
  rw [if_neg hptr, if_neg hsize, acquire_bind_of_free hfree]
  dsimp only
  rw [if_neg (not_not.mpr hmagic), if_neg (by omega),
    kmalloc_of_held (s := ⟨s.heap, ⟨1⟩⟩) hheld (show alignSize size ≠ 0 by omega)]
  rfl

theorem krealloc_of_free (hfree : s.lock.Free) (hstays : ¬ s.heap.Grows ptr size) :
    s.krealloc ptr size =
      looped ((Mm.krealloc s.heap ptr size).map fun (r, h) => (r, idle h)) := by
  unfold krealloc Mm.krealloc
  split_ifs with hptr hsize
  · exact kmalloc_of_free hfree size
  · rw [kfree_of_free hfree]
    cases Mm.kfree s.heap ptr <;> rfl
  · rw [acquire_bind_of_free hfree]
    dsimp only
    split_ifs with hmagic hfits
    · rfl
    · rfl
    · exact absurd ⟨hptr, hsize, not_not.mp hmagic, by omega⟩ hstays

end LockedHeap

/-! ## Clients of the locked heap -/

/-- The locked heap and the allocations that are live. -/
structure LockedClient (σ : Type) where
  heap : LockedHeap σ
  live : List Allocation

namespace LockedClient

variable {σ : Type} (s : LockedClient σ)

/-- The client, without the lock. -/
def erase : HeapClient σ := ⟨s.heap.heap, s.live⟩

variable [PageSource σ]

def call : HeapCall → Except Stuck (LockedClient σ)
  | .kmalloc size => do
    let (r, h) ← s.heap.kmalloc size
    return ⟨h, grant s.live r size⟩
  | .kfree ptr => do
    let h ← s.heap.kfree ptr
    return ⟨h, dropPtr s.live ptr⟩
  | .krealloc ptr size => do
    let (r, h) ← s.heap.krealloc ptr size
    return ⟨h, if r = 0 ∧ size ≠ 0 then s.live else grant (dropPtr s.live ptr) r size⟩

def enter : HeapOp → Except Stuck (LockedClient σ)
  | .call c => s.call c
  | .write addr value =>
    let h := s.heap.heap
    .ok { s with heap := { s.heap with heap := { h with mem := store8 h.mem addr value } } }

def Step (s : LockedClient σ) (op : HeapOp) (t : LockedClient σ) : Prop :=
  s.erase.Legal op ∧ s.enter op = .ok t

/-- The state after `heap_init`. -/
def start (h : LockedHeap σ) : LockedClient σ := ⟨h.heapInit, []⟩

/-- The call is a `krealloc` that moves its block. -/
def Grows : HeapCall → Prop
  | .krealloc ptr size => s.heap.heap.Grows ptr size
  | _ => False

/-- The call does not wait for the lock, and the lock is free when it returns. -/
structure LockSafe (c : HeapCall) : Prop where
  goesOn : s.call c ≠ .error .waiting
  released : ∀ t, s.call c = .ok t → t.heap.lock.Free

variable {s}

/-- Calls that do not move a block do what they do without the lock. -/
theorem call_of_free (hfree : s.heap.lock.Free) {c : HeapCall} (hstays : ¬ s.Grows c) :
    s.call c = looped ((s.erase.call c).map fun t => ⟨.idle t.heap, t.live⟩) := by
  cases c with
  | kmalloc size =>
    simp only [call, HeapClient.call, erase, LockedHeap.kmalloc_of_free hfree]
    cases kmalloc s.heap.heap size <;> rfl
  | kfree ptr =>
    simp only [call, HeapClient.call, erase, LockedHeap.kfree_of_free hfree]
    cases kfree s.heap.heap ptr <;> rfl
  | krealloc ptr size =>
    simp only [call, HeapClient.call, erase, LockedHeap.krealloc_of_free hfree hstays]
    cases krealloc s.heap.heap ptr size <;> rfl

theorem call_of_grows (hfree : s.heap.lock.Free) {c : HeapCall} (hgrows : s.Grows c) :
    s.call c = .error .waiting := by
  cases c with
  | kmalloc => cases hgrows
  | kfree => cases hgrows
  | krealloc ptr size =>
    rw [call, LockedHeap.krealloc_of_grows hfree hgrows]
    rfl

/-- A call that returns leaves the lock free, and does what it does without the lock. -/
theorem call_returns (hfree : s.heap.lock.Free) {c : HeapCall} {t : LockedClient σ}
    (hcall : s.call c = .ok t) : t.heap.lock.Free ∧ s.erase.call c = some t.erase := by
  have hstays : ¬ s.Grows c := fun hgrows => by
    rw [call_of_grows hfree hgrows] at hcall
    cases hcall
  rw [call_of_free hfree hstays] at hcall
  cases herased : s.erase.call c with
  | none =>
    rw [herased] at hcall
    cases hcall
  | some u =>
    rw [herased] at hcall
    obtain rfl := Except.ok.inj hcall
    exact ⟨rfl, rfl⟩

theorem lockSafe_iff (hfree : s.heap.lock.Free) (c : HeapCall) : s.LockSafe c ↔ ¬ s.Grows c := by
  constructor
  · intro hsafe hgrows
    exact hsafe.goesOn (call_of_grows hfree hgrows)
  · intro hstays
    refine ⟨?_, fun t hcall => (call_returns hfree hcall).1⟩
    rw [call_of_free hfree hstays]
    cases s.erase.call c <;> simp [looped]

theorem enter_returns (hfree : s.heap.lock.Free) {op : HeapOp} {t : LockedClient σ}
    (henter : s.enter op = .ok t) : t.heap.lock.Free ∧ s.erase.enter op = some t.erase := by
  cases op with
  | call c => exact call_returns hfree henter
  | write addr value =>
    obtain rfl := Except.ok.inj henter
    exact ⟨hfree, rfl⟩

/-- The locked heap refines the heap without its lock. -/
theorem refines {h : LockedHeap σ} {ops : List HeapOp} (hrun : Run Step (start h) ops s) :
    s.heap.lock.Free ∧ Run (HeapClient.Step HeapClient.Legal) (.start h.heap) ops s.erase := by
  have hsim : ∃ t, Run (HeapClient.Step HeapClient.Legal) (.start h.heap) (ops.map id) t ∧
      (s.heap.lock.Free ∧ s.erase = t) := by
    refine hrun.simulates (R := fun s t => s.heap.lock.Free ∧ s.erase = t) id ⟨rfl, rfl⟩ ?_
    rintro s op t _ ⟨hfree, rfl⟩ ⟨hlegal, henter⟩
    obtain ⟨hfree', henter'⟩ := enter_returns hfree henter
    exact ⟨_, ⟨hlegal, henter'⟩, hfree', rfl⟩
  obtain ⟨t, hrun', hfree, rfl⟩ := hsim
  exact ⟨hfree, by simpa using hrun'⟩

/-- An accepted call that moves no block returns. -/
theorem call_of_accepts {h : LockedHeap σ} (hsupply : Supplies 0 h.heap.pages)
    (hinit : (heapInit h.heap).heapStart ≠ 0) {ops : List HeapOp}
    (hrun : Run Step (start h) ops s) {c : HeapCall} (haccepts : s.erase.Accepts c)
    (hstays : ¬ s.Grows c) : ∃ t, s.call c = .ok t ∧ t.heap.lock.Free := by
  obtain ⟨hfree, hrun'⟩ := refines hrun
  obtain ⟨top, l, hs⟩ := HeapClient.exists_sound hsupply hinit hrun'
  obtain ⟨t, -, -, hcall, -, -⟩ := hs.call haccepts
  refine ⟨⟨.idle t.heap, t.live⟩, ?_, rfl⟩
  rw [call_of_free hfree hstays, hcall]
  rfl

end LockedClient

/-- In every run the lock is free between the calls, and a call is safe exactly when it is not a
`krealloc` that has to move its block. -/
theorem heap_lock_safe_iff {σ : Type} [PageSource σ] {h : LockedHeap σ} {ops : List HeapOp}
    {s : LockedClient σ} (hrun : Run LockedClient.Step (.start h) ops s) (c : HeapCall) :
    s.heap.lock.Free ∧ (s.LockSafe c ↔ ¬ s.Grows c) := by
  have hfree := (LockedClient.refines hrun).1
  exact ⟨hfree, LockedClient.lockSafe_iff hfree c⟩

section Scripted

theorem exists_ok {α : Type} {x : Except Stuck α} {P : α → Prop} [DecidablePred P]
    (h : (x.toOption.map fun a => decide (P a)) = some true) : ∃ a, x = .ok a ∧ P a := by
  cases x with
  | error e => cases h
  | ok a => exact ⟨a, rfl, of_decide_eq_true (Option.some.inj h)⟩

/-- A client that holds a block of 16 bytes. To get 32 bytes it has to move. -/
theorem scripted_malloc : ∃ s : LockedClient PageScript,
    Run LockedClient.Step (.start (.idle PageScript.scripted)) [.call (.kmalloc 16)] s ∧
      s.live = [⟨0xC0000010, 16⟩] ∧ s.heap.heap.Grows 0xC0000010 32 := by
  obtain ⟨s, hcall, hs⟩ : ∃ s : LockedClient PageScript,
      (LockedClient.start (.idle PageScript.scripted)).call (.kmalloc 16) = .ok s ∧
        s.live = [⟨0xC0000010, 16⟩] ∧ s.heap.heap.Grows 0xC0000010 32 :=
    exists_ok (by decide +kernel)
  exact ⟨s, .single ⟨⟨.inl rfl, by decide⟩, hcall⟩, hs⟩

theorem heap_lock_safe_iff_scripted : ∃ s : LockedClient PageScript,
    s.live = [⟨0xC0000010, 16⟩] ∧
      s.heap.lock.Free ∧ (s.LockSafe (.kmalloc 100) ↔ ¬ s.Grows (.kmalloc 100)) := by
  obtain ⟨s, hrun, hlive, -⟩ := scripted_malloc
  exact ⟨s, hlive, heap_lock_safe_iff hrun (.kmalloc 100)⟩

/-- `krealloc` to 32 bytes waits for the lock that it holds. -/
theorem heap_lock_krealloc_waits : ∃ s : LockedClient PageScript,
    Run LockedClient.Step (.start (.idle PageScript.scripted)) [.call (.kmalloc 16)] s ∧
      s.heap.lock.Free ∧ s.erase.Accepts (.krealloc 0xC0000010 32) ∧
      s.call (.krealloc 0xC0000010 32) = .error .waiting := by
  obtain ⟨s, hrun, hlive, hgrows⟩ := scripted_malloc
  have hfree := (LockedClient.refines hrun).1
  refine ⟨s, hrun, hfree, .inr ⟨⟨0xC0000010, 16⟩, ?_, rfl⟩, ?_⟩
  · rw [LockedClient.erase, hlive]
    exact List.mem_singleton_self _
  · exact LockedClient.call_of_grows hfree hgrows

end Scripted

end HolyOs.Mm
