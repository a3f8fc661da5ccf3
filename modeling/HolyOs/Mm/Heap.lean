import HolyOs.Mm.Vmm

/-!
# The kernel heap

Shallow model of `kernel/mm/heap.c`. The heap keeps its block headers in the memory it hands
out, so the state is that memory, the static variables and the source of pages. The source is
a parameter: `vmm_alloc_page` of the virtual memory manager is one, a script of results is
another. The lock is uncontended here and is left out of the state.

The loops that follow `next` pointers run on fuel, one unit for each iteration and as many as
there are addresses; `none` stands for a loop that does not end by then.
-/
namespace HolyOs.Mm

open ByteMemory HolyOs.Lib

@[simp] def heapMagic : Nat := 0xDEADBEEF
@[simp] def heapExpandSize : Nat := 0x10000
@[simp] def heapAlignment : Nat := 16

/-- `sizeof(heap_block_t)`: three words, one byte and padding. -/
@[simp] def heapBlockSize : Nat := 16

/-- Where the heap gets its pages from: a state and the function that takes the next page. -/
class PageSource (σ : Type*) where
  vmmAllocPage : σ → Nat → Nat × σ

instance : PageSource Vmm := ⟨vmmAllocPage⟩

/-- The static variables of `heap.c`, the memory and the page source. -/
structure Heap (σ : Type*) where
  mem : Memory
  heapStart : Nat
  heapEnd : Nat
  heapSize : Nat
  pages : σ

/-! ## Block headers -/

def blockMagic (m : Memory) (block : Nat) : Nat := load32 m block
def blockSize (m : Memory) (block : Nat) : Nat := load32 m (block + 4)
def blockNext (m : Memory) (block : Nat) : Nat := load32 m (block + 8)
def blockUsed (m : Memory) (block : Nat) : UInt8 := m (block + 12)

def setMagic (m : Memory) (block value : Nat) : Memory := store32 m block value
def setSize (m : Memory) (block value : Nat) : Memory := store32 m (block + 4) value
def setNext (m : Memory) (block value : Nat) : Memory := store32 m (block + 8) value
def setUsed (m : Memory) (block : Nat) (value : UInt8) : Memory := store8 m (block + 12) value

section Operations

variable {σ : Type*}

/-- The body of the loop of `heap_expand`: make the new page a block behind `heap_end`. The
`used` flag of the new block is whatever the page holds there. -/
def heapAppend (h : Heap σ) (newBlock : Nat) : Heap σ :=
  let mem := setMagic h.mem newBlock heapMagic
  let mem := setSize mem newBlock (pageSize - heapBlockSize)
  let mem := setNext mem newBlock 0
  let mem := setNext mem h.heapEnd newBlock
  { h with mem := mem, heapEnd := newBlock, heapSize := Word32.wrap (h.heapSize + pageSize) }

/-- The loop of `heap_expand`, which returns early when there is no page. -/
def heapExpandLoop [PageSource σ] : Nat → Heap σ → Heap σ
  | 0, h => h
  | pages + 1, h =>
    let newMem := PageSource.vmmAllocPage h.pages (pagePresent ||| pageWrite)
    let h := { h with pages := newMem.2 }
    if newMem.1 = 0 then h else heapExpandLoop pages (heapAppend h newMem.1)

def heapExpand [PageSource σ] (h : Heap σ) (size : Nat) : Heap σ :=
  let requiredSize := Word32.wrap (size + heapBlockSize)
  let pages := Word32.wrap (requiredSize + heapExpandSize - 1) / heapExpandSize
  heapExpandLoop pages h

/-- The fuel of the pointer loops. -/
def loopFuel : Nat := 2 ^ 32

/-- The loop of `find_free_block` from `current`; 0 if there is no block. -/
def findLoop (m : Memory) (size : Nat) : Nat → Nat → Option Nat
  | 0, _ => none
  | fuel + 1, current =>
    if current = 0 then some 0
    else if blockUsed m current = 0 ∧ size ≤ blockSize m current then some current
    else findLoop m size fuel (blockNext m current)

def findFreeBlock (h : Heap σ) (size : Nat) : Option Nat :=
  findLoop h.mem size loopFuel h.heapStart

def splitBlock (h : Heap σ) (block size : Nat) : Heap σ :=
  let newBlock := Word32.wrap (block + heapBlockSize + size)
  let mem := setMagic h.mem newBlock heapMagic
  let mem := setSize mem newBlock
    (Word32.sub (Word32.sub (blockSize mem block) size) heapBlockSize)
  let mem := setNext mem newBlock (blockNext mem block)
  let mem := setUsed mem newBlock 0
  let mem := setSize mem block size
  let mem := setNext mem block newBlock
  { h with mem := mem, heapEnd := if block = h.heapEnd then newBlock else h.heapEnd }

/-- One merge in the loop of `merge_blocks`. -/
def mergeNext (h : Heap σ) (current : Nat) : Heap σ :=
  let mem := setSize h.mem current
    (Word32.wrap (blockSize h.mem current +
      (heapBlockSize + blockSize h.mem (blockNext h.mem current))))
  let mem := setNext mem current (blockNext mem (blockNext mem current))
  { h with mem := mem, heapEnd := if blockNext mem current = 0 then current else h.heapEnd }

/-- The loop of `merge_blocks` from `current`. -/
def mergeLoop : Nat → Heap σ → Nat → Option (Heap σ)
  | 0, _, _ => none
  | fuel + 1, h, current =>
    let next := blockNext h.mem current
    if current = 0 ∨ next = 0 then some h
    else if blockUsed h.mem current = 0 ∧ blockUsed h.mem next = 0 then
      mergeLoop fuel (mergeNext h current) current
    else mergeLoop fuel h next

def mergeBlocks (h : Heap σ) : Option (Heap σ) := mergeLoop loopFuel h h.heapStart

/-- `heap_init`; a failing page allocation leaves the heap without blocks. -/
def heapInit [PageSource σ] (h : Heap σ) : Heap σ :=
  let page := PageSource.vmmAllocPage h.pages (pagePresent ||| pageWrite)
  let h := { h with heapStart := page.1, pages := page.2 }
  if page.1 = 0 then h
  else
    let mem := setMagic h.mem page.1 heapMagic
    let mem := setSize mem page.1 (pageSize - heapBlockSize)
    let mem := setNext mem page.1 0
    let mem := setUsed mem page.1 0
    { h with mem := mem, heapEnd := page.1, heapSize := pageSize }

/-- `(size + HEAP_ALIGNMENT - 1) & ~(HEAP_ALIGNMENT - 1)`. -/
def alignSize (size : Nat) : Nat :=
  Word32.wrap (size + heapAlignment - 1) &&& Word32.not (heapAlignment - 1)

/-- Split the block if it is large enough for another one behind `size` bytes. -/
def trimBlock (h : Heap σ) (block size : Nat) : Heap σ :=
  if Word32.wrap (size + heapBlockSize + heapAlignment) ≤ blockSize h.mem block then
    splitBlock h block size
  else h

/-- The end of `kmalloc`, with the block found. -/
def takeBlock (h : Heap σ) (block size : Nat) : Nat × Heap σ :=
  let h := trimBlock h block size
  (Word32.wrap (block + heapBlockSize), { h with mem := setUsed h.mem block 1 })

def kmalloc [PageSource σ] (h : Heap σ) (size : Nat) : Option (Nat × Heap σ) :=
  if size = 0 then some (0, h)
  else
    let size := alignSize size
    match findFreeBlock h size with
    | none => none
    | some block =>
      if block ≠ 0 then some (takeBlock h block size)
      else
        let h := heapExpand h (Word32.wrap (size + heapBlockSize))
        match findFreeBlock h size with
        | none => none
        | some block => if block = 0 then some (0, h) else some (takeBlock h block size)

/-- `block->used = 0; merge_blocks();` -/
def releaseBlock (h : Heap σ) (block : Nat) : Option (Heap σ) :=
  mergeBlocks { h with mem := setUsed h.mem block 0 }

def kfree (h : Heap σ) (ptr : Nat) : Option (Heap σ) :=
  if ptr = 0 then some h
  else
    let block := Word32.sub ptr heapBlockSize
    if blockMagic h.mem block ≠ heapMagic then some h else releaseBlock h block

def krealloc [PageSource σ] (h : Heap σ) (ptr size : Nat) : Option (Nat × Heap σ) :=
  if ptr = 0 then kmalloc h size
  else if size = 0 then (kfree h ptr).map fun h => (0, h)
  else
    let block := Word32.sub ptr heapBlockSize
    if blockMagic h.mem block ≠ heapMagic then some (0, h)
    else
      let size := alignSize size
      if size ≤ blockSize h.mem block then some (ptr, trimBlock h block size)
      else
        match kmalloc h size with
        | none => none
        | some (newPtr, h) =>
          if newPtr = 0 then some (0, h)
          else
            let h := { h with mem := memcpy h.mem newPtr ptr (blockSize h.mem block) }
            (releaseBlock h block).map fun h => (newPtr, h)

/-- The loop of `get_allocated_memory` and `get_free_memory`: the sizes of the blocks that
`counts` accepts, from `current` on. -/
def sumLoop (m : Memory) (counts : UInt8 → Bool) : Nat → Nat → Nat → Option Nat
  | 0, _, _ => none
  | fuel + 1, total, current =>
    if current = 0 then some total
    else
      let total := if counts (blockUsed m current) then Word32.wrap (total + blockSize m current)
        else total
      sumLoop m counts fuel total (blockNext m current)

def getAllocatedMemory (h : Heap σ) : Option Nat :=
  sumLoop h.mem (fun used => used ≠ 0) loopFuel 0 h.heapStart

def getFreeMemory (h : Heap σ) : Option Nat :=
  sumLoop h.mem (fun used => used = 0) loopFuel 0 h.heapStart

def getHeapSize (h : Heap σ) : Nat := h.heapSize

end Operations

end HolyOs.Mm
