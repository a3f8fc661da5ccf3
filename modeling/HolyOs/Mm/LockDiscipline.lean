import HolyOs.Cpu.Monitor
import HolyOs.Mm.HeapLock
import HolyOs.Mm.PmmOwnership
import HolyOs.Mm.PmmStartup

/-!
# Lock discipline

The operations of `pmm.c` and `heap.c` again, as programs over the state that `pmm_lock` and
`heap_lock` protect: one write for each store to the bitmap, a block header or a static variable,
where the code has it between its lock operations. Each program does what the function of the
model does, and makes its writes with the lock taken; `pmm_free_page`, which takes no lock, is
the exception.
-/
namespace HolyOs.Mm

open HolyOs.Lib HolyOs.Cpu Transition

namespace Guarded

open Monitor

/-! ## The physical memory manager -/

section Pmm

abbrev PmmCode (α : Type) := EStateM Stuck (Monitor Pmm) α

def pmmAllocPageInternal (alignedOnly : Bool) : PmmCode Nat := do
  acquire .waiting
  match pmmFindBlock (← load) alignedOnly with
  | some block =>
    store fun p => pmmSetBit p block
    store fun p => { p with pmmUsedBlocks := Word32.wrap (p.pmmUsedBlocks + 1) }
    release
    return Word32.wrap (block * pmmBlockSize)
  | none =>
    release
    return 0

def pmmAllocPage : PmmCode Nat := pmmAllocPageInternal false

def pmmAllocPageAligned : PmmCode Nat := pmmAllocPageInternal true

def pmmFreePage (page : Nat) : PmmCode Unit := do
  let block := page / pmmBlockSize
  if block ≥ (← load).pmmMaxBlocks then return
  else if pmmTestBit (← load) block ≠ 0#32 then
    store fun p => pmmClearBit p block
    store fun p => { p with pmmUsedBlocks := Word32.sub p.pmmUsedBlocks 1 }

end Pmm

/-! ## The heap -/

section Heap

variable {σ : Type}

abbrev HeapCode (σ α : Type) := EStateM Stuck (Monitor (Heap σ)) α

/-- A write to a block header. -/
def storeHeader (f : ByteMemory.Memory → ByteMemory.Memory) : HeapCode σ Unit :=
  store fun h => { h with mem := f h.mem }

def heapAppend (newBlock : Nat) : HeapCode σ Unit := do
  storeHeader fun mem => setMagic mem newBlock heapMagic
  storeHeader fun mem => setSize mem newBlock (pageSize - heapBlockSize)
  storeHeader fun mem => setNext mem newBlock 0
  let heapEnd := (← load).heapEnd
  storeHeader fun mem => setNext mem heapEnd newBlock
  store fun h => { h with heapEnd := newBlock }
  store fun h => { h with heapSize := Word32.wrap (h.heapSize + pageSize) }

/-- `vmm_alloc_page`, which has state of its own. -/
def vmmAllocPage [PageSource σ] : HeapCode σ Nat :=
  elsewhere fun h =>
    let r := PageSource.vmmAllocPage h.pages (pagePresent ||| pageWrite)
    (r.1, { h with pages := r.2 })

def heapExpandLoop [PageSource σ] : Nat → HeapCode σ Unit
  | 0 => return
  | pages + 1 => do
    let newMem ← vmmAllocPage
    if newMem = 0 then return
    else
      heapAppend newMem
      heapExpandLoop pages

def heapExpand [PageSource σ] (size : Nat) : HeapCode σ Unit :=
  let requiredSize := Word32.wrap (size + heapBlockSize)
  heapExpandLoop (Word32.wrap (requiredSize + heapExpandSize - 1) / heapExpandSize)

def findFreeBlock (size : Nat) : HeapCode σ Nat := do
  result (looped (Mm.findFreeBlock (← load) size))

def splitBlock (block size : Nat) : HeapCode σ Unit := do
  let newBlock := Word32.wrap (block + heapBlockSize + size)
  storeHeader fun mem => setMagic mem newBlock heapMagic
  storeHeader fun mem => setSize mem newBlock
    (Word32.sub (Word32.sub (blockSize mem block) size) heapBlockSize)
  storeHeader fun mem => setNext mem newBlock (blockNext mem block)
  storeHeader fun mem => setUsed mem newBlock 0
  storeHeader fun mem => setSize mem block size
  storeHeader fun mem => setNext mem block newBlock
  if block = (← load).heapEnd then
    store fun h => { h with heapEnd := newBlock }

def mergeNext (current : Nat) : HeapCode σ Unit := do
  storeHeader fun mem => setSize mem current
    (Word32.wrap (blockSize mem current + (heapBlockSize + blockSize mem (blockNext mem current))))
  storeHeader fun mem => setNext mem current (blockNext mem (blockNext mem current))
  if blockNext (← load).mem current = 0 then
    store fun h => { h with heapEnd := current }

def mergeLoop : Nat → Nat → HeapCode σ Unit
  | 0, _ => throw .looping
  | fuel + 1, current => do
    let mem := (← load).mem
    let next := blockNext mem current
    if current = 0 ∨ next = 0 then return
    else if blockUsed mem current = 0 ∧ blockUsed mem next = 0 then
      mergeNext current
      mergeLoop fuel current
    else mergeLoop fuel next

def mergeBlocks : HeapCode σ Unit := do
  mergeLoop loopFuel (← load).heapStart

def trimBlock (block size : Nat) : HeapCode σ Unit := do
  if Word32.wrap (size + heapBlockSize + heapAlignment) ≤ blockSize (← load).mem block then
    splitBlock block size

def takeBlock (block size : Nat) : HeapCode σ Nat := do
  trimBlock block size
  storeHeader fun mem => setUsed mem block 1
  return Word32.wrap (block + heapBlockSize)

def kmalloc [PageSource σ] (size : Nat) : HeapCode σ Nat :=
  if size = 0 then return 0
  else do
    acquire .waiting
    let size := alignSize size
    let block ← findFreeBlock size
    if block ≠ 0 then
      let ptr ← takeBlock block size
      release
      return ptr
    else
      heapExpand (Word32.wrap (size + heapBlockSize))
      let block ← findFreeBlock size
      if block = 0 then
        release
        return 0
      else
        let ptr ← takeBlock block size
        release
        return ptr

def releaseBlock (block : Nat) : HeapCode σ Unit := do
  storeHeader fun mem => setUsed mem block 0
  mergeBlocks

def kfree (ptr : Nat) : HeapCode σ Unit :=
  if ptr = 0 then return
  else do
    acquire .waiting
    let block := Word32.sub ptr heapBlockSize
    if blockMagic (← load).mem block ≠ heapMagic then release
    else
      releaseBlock block
      release

/-- The bytes that `memcpy` writes are payload. -/
def krealloc [PageSource σ] (ptr size : Nat) : HeapCode σ Nat :=
  if ptr = 0 then kmalloc size
  else if size = 0 then do
    kfree ptr
    return 0
  else do
    acquire .waiting
    let block := Word32.sub ptr heapBlockSize
    if blockMagic (← load).mem block ≠ heapMagic then
      release
      return 0
    else
      let size := alignSize size
      if size ≤ blockSize (← load).mem block then
        trimBlock block size
        release
        return ptr
      else
        let newPtr ← kmalloc size
        if newPtr = 0 then
          release
          return 0
        else
          elsewhere fun h => ((), { h with mem := memcpy h.mem newPtr ptr (blockSize h.mem block) })
          releaseBlock block
          release
          return newPtr

end Heap

/-! ## What the programs come to -/

section PmmRules

variable {l : Spinlock} {p : Pmm} {g : Bool}

theorem pmmAllocPageInternal_yields (hfree : l.Free) (alignedOnly : Bool) :
    Yields (pmmAllocPageInternal alignedOnly) ⟨l, p, g⟩ ⟨0⟩
      (.ok (Mm.pmmAllocPageInternal p alignedOnly)) := by
  unfold pmmAllocPageInternal Mm.pmmAllocPageInternal
  refine .acquire_bind hfree (.load_bind ?_)
  cases pmmFindBlock p alignedOnly with
  | some block =>
    refine .store_bind taken_held (.store_bind taken_held ?_)
    exact .release_pure _
  | none => exact .release_pure 0

/-- `pmm_free_page` writes exactly when it finds the mark of the block, and then without the
lock. -/
theorem pmmFreePage_eq (hfree : l.Free) (page : Nat) :
    pmmFreePage page ⟨l, p, g⟩ = .ok () ⟨l, Mm.pmmFreePage p page,
      g && !decide (page / pmmBlockSize < p.pmmMaxBlocks ∧
        p.marked (page / pmmBlockSize) = true)⟩ := by
  unfold pmmFreePage Mm.pmmFreePage
  generalize page / pmmBlockSize = block
  have htest : pmmTestBit p block ≠ 0#32 ↔ p.marked block = true := by
    rw [ne_eq, pmmTestBit_eq_zero, Bool.not_eq_false]
  have hwrite : ∀ (f : Pmm → Pmm) (q : Pmm) (g : Bool),
      (⟨l, q, g⟩ : Monitor Pmm).write f = ⟨l, f q, false⟩ := by simp [write, hfree]
  simp only [load_bind_apply]
  by_cases hlimit : block ≥ p.pmmMaxBlocks
  · rw [if_pos hlimit, if_pos hlimit, decide_eq_false (by omega), Bool.not_false, Bool.and_true]
    rfl
  · rw [if_neg hlimit, if_neg hlimit, load_bind_apply]
    by_cases hmark : p.marked block = true
    · rw [if_pos (htest.mpr hmark), if_pos (htest.mpr hmark),
        decide_eq_true ⟨Nat.lt_of_not_le hlimit, hmark⟩]
      change EStateM.Result.ok () ((Monitor.write _ _).write _) = _
      rw [hwrite, hwrite, Bool.not_true, Bool.and_false]
    · rw [if_neg (htest.not.mpr hmark), if_neg (htest.not.mpr hmark),
        decide_eq_false fun h => hmark h.2, Bool.not_false, Bool.and_true]
      rfl

end PmmRules

section HeapRules

variable {σ : Type} {l l' : Spinlock} {h : Heap σ} {g : Bool} {α : Type}

theorem storeHeader_bind {f : ByteMemory.Memory → ByteMemory.Memory} {k : Unit → HeapCode σ α}
    {r : Except Stuck (α × Heap σ)} (hheld : ¬ l.Free)
    (hk : Yields (k ()) ⟨l, { h with mem := f h.mem }, g⟩ l' r) :
    Yields (storeHeader f >>= k) ⟨l, h, g⟩ l' r := .store_bind hheld hk

theorem heapAppend_yields (hheld : ¬ l.Free) (newBlock : Nat) :
    Yields (heapAppend newBlock) ⟨l, h, g⟩ l (.ok ((), Mm.heapAppend h newBlock)) := by
  unfold heapAppend
  refine storeHeader_bind hheld (storeHeader_bind hheld (storeHeader_bind hheld (.load_bind ?_)))
  exact storeHeader_bind hheld (.store_bind hheld (.store hheld))

theorem heapExpandLoop_yields [PageSource σ] (hheld : ¬ l.Free) (pages : Nat) :
    Yields (heapExpandLoop pages) ⟨l, h, g⟩ l (.ok ((), Mm.heapExpandLoop pages h)) := by
  induction pages generalizing h with
  | zero => exact .pure ()
  | succ pages ih =>
    unfold heapExpandLoop Mm.heapExpandLoop
    refine .bind_ok .elsewhere ?_
    dsimp only
    split_ifs with hfail
    · exact .pure ()
    · exact .bind_ok (heapAppend_yields hheld _) ih

/-- The search for a block, in front of code that goes on with what it finds. -/
theorem findFreeBlock_bind {size : Nat} {k : Nat → HeapCode σ α}
    {r : Nat → Option (α × Heap σ)}
    (hk : ∀ block, Yields (k block) ⟨l, h, g⟩ l' (looped (r block))) :
    Yields (findFreeBlock size >>= k) ⟨l, h, g⟩ l'
      (looped ((Mm.findFreeBlock h size).bind r)) := by
  have hfind : Yields (findFreeBlock size) ⟨l, h, g⟩ l
      ((looped (Mm.findFreeBlock h size)).map fun block => (block, h)) := .load_bind (.result _)
  cases hfound : Mm.findFreeBlock h size with
  | none =>
    rw [hfound] at hfind
    exact hfind.bind_error
  | some block =>
    rw [hfound] at hfind
    exact .bind_ok hfind (hk block)

theorem splitBlock_yields (hheld : ¬ l.Free) (block size : Nat) :
    Yields (splitBlock block size) ⟨l, h, g⟩ l (.ok ((), Mm.splitBlock h block size)) := by
  unfold splitBlock Mm.splitBlock
  refine storeHeader_bind hheld (storeHeader_bind hheld (storeHeader_bind hheld ?_))
  refine storeHeader_bind hheld (storeHeader_bind hheld (storeHeader_bind hheld (.load_bind ?_)))
  dsimp only
  split_ifs
  · exact .store hheld
  · exact .pure ()

theorem trimBlock_yields (hheld : ¬ l.Free) (block size : Nat) :
    Yields (trimBlock block size) ⟨l, h, g⟩ l (.ok ((), Mm.trimBlock h block size)) := by
  unfold trimBlock Mm.trimBlock
  refine .load_bind ?_
  split_ifs
  · exact splitBlock_yields hheld block size
  · exact .pure ()

theorem takeBlock_yields (hheld : ¬ l.Free) (block size : Nat) :
    Yields (takeBlock block size) ⟨l, h, g⟩ l (.ok (Mm.takeBlock h block size)) :=
  .bind_ok (trimBlock_yields hheld block size) (storeHeader_bind hheld (.pure _))

theorem mergeNext_yields (hheld : ¬ l.Free) (current : Nat) :
    Yields (mergeNext current) ⟨l, h, g⟩ l (.ok ((), Mm.mergeNext h current)) := by
  unfold mergeNext Mm.mergeNext
  refine storeHeader_bind hheld (storeHeader_bind hheld (.load_bind ?_))
  dsimp only
  split_ifs
  · exact .store hheld
  · exact .pure ()

theorem mergeLoop_yields (hheld : ¬ l.Free) (fuel current : Nat) :
    Yields (mergeLoop fuel current) ⟨l, h, g⟩ l
      (looped ((Mm.mergeLoop fuel h current).map fun h => ((), h))) := by
  induction fuel generalizing h current with
  | zero => exact ⟨_, rfl, rfl⟩
  | succ fuel ih =>
    unfold mergeLoop Mm.mergeLoop
    refine .load_bind ?_
    dsimp only
    split_ifs
    · exact .pure ()
    · exact .bind_ok (mergeNext_yields hheld current) (ih current)
    · exact ih _

theorem releaseBlock_yields (hheld : ¬ l.Free) (block : Nat) :
    Yields (releaseBlock block) ⟨l, h, g⟩ l
      (looped ((Mm.releaseBlock h block).map fun h => ((), h))) :=
  storeHeader_bind hheld (.load_bind (mergeLoop_yields hheld loopFuel _))

/-- The search of `kmalloc`, as a bind. -/
theorem kmalloc_eq [PageSource σ] {size : Nat} (hsize : size ≠ 0) :
    Mm.kmalloc h size = (Mm.findFreeBlock h (alignSize size)).bind fun block =>
      if block ≠ 0 then some (Mm.takeBlock h block (alignSize size))
      else
        let h := Mm.heapExpand h (Word32.wrap (alignSize size + heapBlockSize))
        (Mm.findFreeBlock h (alignSize size)).bind fun block =>
          if block = 0 then some (0, h) else some (Mm.takeBlock h block (alignSize size)) := by
  unfold Mm.kmalloc
  rw [if_neg hsize]
  dsimp only
  cases Mm.findFreeBlock h (alignSize size) with
  | none => rfl
  | some block =>
    simp only [Option.bind_some]
    split_ifs
    · rfl
    · cases Mm.findFreeBlock (Mm.heapExpand h (Word32.wrap (alignSize size + heapBlockSize)))
        (alignSize size) <;> rfl

theorem kmalloc_yields [PageSource σ] (hfree : l.Free) (size : Nat) :
    Yields (kmalloc size) ⟨l, h, g⟩ ⟨0⟩ (looped (Mm.kmalloc h size)) := by
  by_cases hsize : size = 0
  · obtain rfl := Spinlock.eq_of_free hfree
    subst hsize
    exact .pure 0
  · rw [kmalloc_eq hsize]
    unfold kmalloc
    rw [if_neg hsize]
    refine .acquire_bind hfree (findFreeBlock_bind fun block => ?_)
    dsimp only
    split_ifs
    · exact .bind_ok (takeBlock_yields taken_held block _) (.release_pure _)
    · refine .bind_ok (heapExpandLoop_yields taken_held _) (findFreeBlock_bind fun block => ?_)
      split_ifs
      · exact .release_pure 0
      · exact .bind_ok (takeBlock_yields taken_held block _) (.release_pure _)

theorem kmalloc_yields_of_held [PageSource σ] (hheld : ¬ l.Free) {size : Nat} (hsize : size ≠ 0) :
    Yields (kmalloc size) ⟨l, h, g⟩ l' (.error .waiting) := by
  unfold kmalloc
  rw [if_neg hsize]
  exact .acquire_of_held hheld

theorem kfree_yields (hfree : l.Free) (ptr : Nat) :
    Yields (kfree ptr) ⟨l, h, g⟩ ⟨0⟩ (looped ((Mm.kfree h ptr).map fun h => ((), h))) := by
  unfold kfree Mm.kfree
  split_ifs with hptr
  · obtain rfl := Spinlock.eq_of_free hfree
    exact .pure ()
  · refine .acquire_bind hfree (.load_bind ?_)
    dsimp only
    split_ifs
    · rfl
    · have hrelease := releaseBlock_yields (h := h) (g := g) taken_held
        (Word32.sub ptr heapBlockSize)
      cases hdone : Mm.releaseBlock h (Word32.sub ptr heapBlockSize) with
      | none =>
        rw [hdone] at hrelease
        exact hrelease.bind_error
      | some h' =>
        rw [hdone] at hrelease
        exact .bind_ok hrelease rfl

/-- A release whose result is not used, as in `krealloc` to size 0. -/
theorem kfree_zero_yields (hfree : l.Free) (ptr : Nat) :
    Yields (do kfree ptr; return 0 : HeapCode σ Nat) ⟨l, h, g⟩ ⟨0⟩
      (looped ((Mm.kfree h ptr).map fun h => (0, h))) := by
  have hkfree := kfree_yields (h := h) (g := g) hfree ptr
  cases hdone : Mm.kfree h ptr with
  | none =>
    rw [hdone] at hkfree
    exact hkfree.bind_error
  | some h' =>
    rw [hdone] at hkfree
    exact .bind_ok hkfree (.pure 0)

theorem krealloc_yields [PageSource σ] (hfree : l.Free) {ptr size : Nat}
    (hstays : ¬ h.Grows ptr size) :
    Yields (krealloc ptr size) ⟨l, h, g⟩ ⟨0⟩ (looped (Mm.krealloc h ptr size)) := by
  unfold krealloc Mm.krealloc
  split_ifs with hptr hsize
  · exact kmalloc_yields hfree size
  · exact kfree_zero_yields hfree ptr
  · refine .acquire_bind hfree (.load_bind ?_)
    dsimp only
    split_ifs with hmagic hfits
    · exact .release_pure 0
    · refine .load_bind ?_
      rw [if_pos hfits]
      exact .bind_ok (trimBlock_yields taken_held _ _) (.release_pure ptr)
    · exact absurd ⟨hptr, hsize, not_not.mp hmagic, Nat.lt_of_not_le hfits⟩ hstays

/-- `krealloc` on its way to a larger block stops at the lock it has taken. -/
theorem krealloc_yields_of_grows [PageSource σ] (hfree : l.Free) {ptr size : Nat}
    (hgrows : h.Grows ptr size) :
    Yields (krealloc ptr size) ⟨l, h, g⟩ ⟨0⟩ (.error .waiting) := by
  obtain ⟨hptr, hsize, hmagic, hlt⟩ := hgrows
  unfold krealloc
  rw [if_neg hptr, if_neg hsize]
  refine .acquire_bind hfree (.load_bind ?_)
  dsimp only
  rw [if_neg (not_not.mpr hmagic)]
  refine .load_bind ?_
  rw [if_neg (Nat.not_le.mpr hlt)]
  have hwaits : Yields (kmalloc (alignSize size)) ⟨taken, h, g⟩ taken (.error .waiting) :=
    kmalloc_yields_of_held taken_held (Nat.ne_zero_of_lt hlt)
  exact hwaits.bind_error

end HeapRules

end Guarded

/-! ## The discipline -/

section Discipline

open Monitor

/-- The operations that may run after `pmm_init` and `heap_init`. -/
inductive LockedOp
  | pmm (op : PmmOp)
  | heap (c : HeapCall)

def PmmOp.code : PmmOp → Guarded.PmmCode Nat
  | .allocPage => Guarded.pmmAllocPage
  | .allocPageAligned => Guarded.pmmAllocPageAligned
  | .freePage page => do
    Guarded.pmmFreePage page
    return 0

def HeapCall.code {σ : Type} [PageSource σ] : HeapCall → Guarded.HeapCode σ Nat
  | .kmalloc size => Guarded.kmalloc size
  | .kfree ptr => do
    Guarded.kfree ptr
    return 0
  | .krealloc ptr size => Guarded.krealloc ptr size

/-- A `pmm_free_page` of a page that is marked in the bitmap. -/
def LockedOp.ClearsMark (p : Pmm) : LockedOp → Prop
  | .pmm (.freePage page) =>
    page / pmmBlockSize < p.pmmMaxBlocks ∧ p.marked (page / pmmBlockSize) = true
  | _ => False

section

variable {σ : Type} [PageSource σ] (pmmLock : Spinlock) (p : Pmm) (s : LockedClient σ)

/-- The operation writes with its lock taken, and releases it before it returns. -/
def LockedOp.Disciplined : LockedOp → Prop
  | .pmm op => Monitor.Disciplined op.code (enter pmmLock p)
  | .heap c => Monitor.Disciplined c.code (enter s.heap.lock s.heap.heap)

def LockedOp.Returns : LockedOp → Prop
  | .pmm op => Monitor.Returns op.code (enter pmmLock p)
  | .heap c => Monitor.Returns c.code (enter s.heap.lock s.heap.heap)

/-- A heap call with 0 or a live pointer that moves no block, or any operation on pages. -/
def LockedOp.InPlace : LockedOp → Prop
  | .pmm _ => True
  | .heap c => s.erase.Accepts c ∧ ¬ s.Grows c

end

section Codes

variable {σ : Type} [PageSource σ] {l : Spinlock} {h : Heap σ} {p : Pmm}

theorem PmmOp.code_yields (hfree : l.Free) {op : PmmOp} (hop : ¬ (LockedOp.pmm op).ClearsMark p) :
    ∃ r, Yields op.code (enter l p) ⟨0⟩ (.ok r) := by
  cases op with
  | allocPage => exact ⟨_, Guarded.pmmAllocPageInternal_yields hfree false⟩
  | allocPageAligned => exact ⟨_, Guarded.pmmAllocPageInternal_yields hfree true⟩
  | freePage page =>
    have hquiet : Yields (Guarded.pmmFreePage page) (enter l p) l
        (.ok ((), pmmFreePage p page)) := by
      refine (Guarded.pmmFreePage_eq hfree page).trans ?_
      have hkept : ¬ (page / pmmBlockSize < p.pmmMaxBlocks ∧
          p.marked (page / pmmBlockSize) = true) := hop
      rw [decide_eq_false hkept]
      rfl
    obtain rfl := Spinlock.eq_of_free hfree
    exact ⟨_, .bind_ok hquiet (.pure 0)⟩

theorem PmmOp.code_unguarded (hfree : l.Free) {page : Nat}
    (hclears : (LockedOp.pmm (.freePage page)).ClearsMark p) :
    (PmmOp.freePage page).code (enter l p) = .ok 0 ⟨l, pmmFreePage p page, false⟩ := by
  change EStateM.bind (Guarded.pmmFreePage page) _ _ = _
  have hmarked : page / pmmBlockSize < p.pmmMaxBlocks ∧
      p.marked (page / pmmBlockSize) = true := hclears
  rw [EStateM.bind, enter, Guarded.pmmFreePage_eq hfree, decide_eq_true hmarked]
  rfl

theorem HeapCall.code_yields (hfree : l.Free) {c : HeapCall}
    (hstays : ∀ ptr size, c = .krealloc ptr size → ¬ h.Grows ptr size) :
    Yields c.code (enter l h) ⟨0⟩ (looped (c.exec h)) := by
  cases c with
  | kmalloc size => exact Guarded.kmalloc_yields hfree size
  | kfree ptr => exact Guarded.kfree_zero_yields hfree ptr
  | krealloc ptr size => exact Guarded.krealloc_yields hfree (hstays ptr size rfl)

theorem HeapCall.code_disciplined (hfree : l.Free) (c : HeapCall) :
    Monitor.Disciplined c.code (enter l h) := by
  by_cases hgrows : ∃ ptr size, c = .krealloc ptr size ∧ h.Grows ptr size
  · obtain ⟨ptr, size, rfl, hgrows⟩ := hgrows
    exact (Guarded.krealloc_yields_of_grows hfree hgrows).disciplined rfl
  · refine (HeapCall.code_yields hfree fun ptr size hc hg => hgrows ⟨ptr, size, hc, hg⟩).disciplined
      rfl

theorem HeapClient.exec_of_call {s t : HeapClient σ} {c : HeapCall} (hcall : s.call c = some t) :
    ∃ r, c.exec s.heap = some r := by
  cases c with
  | kmalloc size =>
    obtain ⟨r, hr, -⟩ := Option.map_eq_some_iff.mp hcall
    exact ⟨r, hr⟩
  | kfree ptr =>
    obtain ⟨h, hh, -⟩ := Option.map_eq_some_iff.mp hcall
    refine ⟨(0, h), ?_⟩
    rw [HeapCall.exec, hh]
    rfl
  | krealloc ptr size =>
    obtain ⟨r, hr, -⟩ := Option.map_eq_some_iff.mp hcall
    exact ⟨r, hr⟩

end Codes

theorem LockedOp.disciplined_iff {σ : Type} [PageSource σ] {l : Spinlock} (hl : l.Free) (p : Pmm)
    {s : LockedClient σ} (hfree : s.heap.lock.Free) (op : LockedOp) :
    op.Disciplined l p s ↔ ¬ op.ClearsMark p := by
  cases op with
  | heap c =>
    simp only [Disciplined, ClearsMark, not_false_eq_true, iff_true]
    exact c.code_disciplined hfree
  | pmm op =>
    constructor
    · intro hdisciplined hclears
      cases op with
      | allocPage => exact hclears
      | allocPageAligned => exact hclears
      | freePage page =>
        have hguarded := hdisciplined.guarded _ _ (PmmOp.code_unguarded hl hclears)
        cases hguarded
    · intro hclears
      obtain ⟨r, hr⟩ := PmmOp.code_yields hl hclears
      exact hr.disciplined rfl

/-- Every operation on pages returns. -/
theorem PmmOp.code_returns {l : Spinlock} {p : Pmm} (hfree : l.Free) (op : PmmOp) :
    Monitor.Returns op.code (enter l p) := by
  by_cases hclears : (LockedOp.pmm op).ClearsMark p
  · cases op with
    | allocPage => cases hclears
    | allocPageAligned => cases hclears
    | freePage page => exact ⟨_, _, PmmOp.code_unguarded hfree hclears⟩
  · obtain ⟨r, hr⟩ := PmmOp.code_yields hfree hclears
    exact hr.returns

/-- In every run the lock of the heap is free between the calls. With the locks free, an
operation writes to what its lock protects with the lock taken, and returns with it released,
exactly when it is not a `pmm_free_page` of a marked page. Every operation on pages returns, and
so does, after a successful `heap_init`, every heap call with 0 or a live pointer that moves no
block. -/
theorem lock_discipline_iff {σ : Type} [PageSource σ] {h : LockedHeap σ} {ops : List HeapOp}
    {s : LockedClient σ} (hrun : Run LockedClient.Step (.start h) ops s) {pmmLock : Spinlock}
    (hfree : pmmLock.Free) (p : Pmm) (op : LockedOp) :
    s.heap.lock.Free ∧ (op.Disciplined pmmLock p s ↔ ¬ op.ClearsMark p) ∧
      (Supplies 0 h.heap.pages → (heapInit h.heap).heapStart ≠ 0 →
        op.InPlace s → op.Returns pmmLock p s) := by
  have hheld := (LockedClient.refines hrun).1
  refine ⟨hheld, op.disciplined_iff hfree p hheld, fun hsupply hinit hplace => ?_⟩
  cases op with
  | pmm op => exact op.code_returns hfree
  | heap c =>
    obtain ⟨haccepts, hstays⟩ := hplace
    obtain ⟨top, l, hs⟩ := HeapClient.exists_sound hsupply hinit (LockedClient.refines hrun).2
    obtain ⟨t, -, -, hcall, -, -⟩ := hs.call haccepts
    obtain ⟨r, hr⟩ := HeapClient.exec_of_call hcall
    have hyields : Yields c.code (enter s.heap.lock s.heap.heap) ⟨0⟩
        (looped (c.exec s.heap.heap)) := by
      refine HeapCall.code_yields hheld ?_
      rintro ptr size rfl
      exact hstays
    have hexec : c.exec s.heap.heap = some r := hr
    rw [hexec] at hyields
    exact hyields.returns

/-- With a live block of 16 bytes, `kmalloc` and the release of the block are disciplined and
return, and so are `pmm_alloc_page` and a `pmm_free_page` of a free page. The release of a page that
was allocated is not disciplined. -/
theorem lock_discipline_iff_scripted : ∃ s : LockedClient PageScript,
    s.live = [⟨0xC0000010, 16⟩] ∧ s.heap.lock.Free ∧
      (∀ op ∈ [LockedOp.heap (.kmalloc 100), .heap (.kfree 0xC0000010), .pmm .allocPage,
          .pmm (.freePage 4096)],
        op.Disciplined ⟨0⟩ fourBlocks s ∧ op.Returns ⟨0⟩ fourBlocks s) ∧
      ¬ (LockedOp.pmm (.freePage 4096)).Disciplined ⟨0⟩ (pmmAllocPage fourBlocks).2 s := by
  obtain ⟨s, hrun, hlive, -⟩ := scripted_malloc
  have hlock : (⟨0⟩ : Spinlock).Free := rfl
  have hboth : ∀ op : LockedOp, ¬ op.ClearsMark fourBlocks → op.InPlace s →
      op.Disciplined ⟨0⟩ fourBlocks s ∧ op.Returns ⟨0⟩ fourBlocks s := by
    intro op hclears hplace
    obtain ⟨-, hdisciplined, hreturns⟩ := lock_discipline_iff hrun hlock fourBlocks op
    exact ⟨hdisciplined.mpr hclears,
      hreturns PageScript.scripted_supplies (by decide +kernel) hplace⟩
  have hlast := lock_discipline_iff hrun hlock (pmmAllocPage fourBlocks).2
    (.pmm (.freePage 4096))
  refine ⟨s, hlive, hlast.1, ?_, fun h => hlast.2.1.mp h ⟨by decide, by decide⟩⟩
  simp only [List.forall_mem_cons, List.not_mem_nil, false_implies, implies_true, and_true]
  have hkfree : s.erase.Accepts (.kfree 0xC0000010) := by
    refine .inr ⟨⟨0xC0000010, 16⟩, ?_, rfl⟩
    rw [LockedClient.erase, hlive]
    exact List.mem_singleton_self _
  exact ⟨hboth _ id ⟨.inl rfl, id⟩, hboth _ id ⟨hkfree, id⟩, hboth _ id trivial,
    hboth _ (fun h => absurd h.2 (by decide)) trivial⟩

/-- One region of four blocks. -/
def fourMap : List MmapEntry := [⟨0, 0x4000, 1⟩]

/-- After start-up `pmm_alloc_page` returns page 1, and `pmm_free_page` then clears its mark without
taking the lock. -/
theorem pmm_free_page_unguarded :
    (pcLayout 0x9000).Boots (lowBoot fourMap) fun p =>
      (pmmAllocPage p).1 = 4096 ∧
        ¬ Monitor.Disciplined (PmmOp.freePage 4096).code (enter ⟨0⟩ (pmmAllocPage p).2) := by
  have hbelow : RegionsBelow fourMap := by decide
  obtain ⟨p, hp, hstarted⟩ := exists_started_lowBoot (by decide) hbelow (by decide)
    (.inl (by decide))
  have hfree : 1 ∈ p.freeBlocks := hstarted.free_of_region hbelow (e := ⟨0, 0x4000, 1⟩)
    (by simp [fourMap]) (by decide) (by decide) (by decide) (by decide)
  have hzero : 0 ∉ p.freeBlocks := fun hmem => ((hstarted.free 0).mp hmem).2.1 (by decide)
  have hfirst : p.FirstFree 1 := ⟨hfree, fun block hblock =>
    Nat.one_le_iff_ne_zero.mpr fun heq => hzero (heq ▸ hblock)⟩
  have halloc : pmmAllocPage p = (4096, p.take 1) := pmmAllocPageInternal_of_firstFree hfirst false
  refine ⟨p, hp, by rw [halloc], fun hdisciplined => ?_⟩
  rw [halloc] at hdisciplined
  have hclears : (LockedOp.pmm (.freePage 4096)).ClearsMark (p.take 1) :=
    ⟨(mem_freeBlocks.mp hfree).1, by simp [marked_take]⟩
  have hguarded := hdisciplined.guarded _ _ (PmmOp.code_unguarded rfl hclears)
  cases hguarded

end Discipline

end HolyOs.Mm
