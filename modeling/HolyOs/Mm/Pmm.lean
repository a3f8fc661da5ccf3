import HolyOs.Foundation.PackedBits
import HolyOs.Foundation.Word
import Mathlib.Data.Finset.Max
import Mathlib.Data.Nat.ModEq

/-!
# The physical memory manager

Shallow model of `kernel/mm/pmm.c` after initialization: the static variables as a record,
the bitmap as a total array of words from `pmm_bitmap` on, and the allocator functions as
state transformers. The spinlock is uncontended here and is left out of the state.

The second half gives each function one specification in terms of the set of free blocks;
later modules use these and never unfold the bit manipulation again.
-/
namespace HolyOs.Mm

open PackedBits

@[simp] def pmmBlockSize : Nat := 4096
@[simp] def pmmBitsPerEntry : Nat := 32

/-- The static variables of `pmm.c`. `pmmBitmap i` is the word `pmm_bitmap[i]`, whether or
not `i` is below `pmm_bitmap_size`; `pmmBitmapAddr` is the pointer itself. -/
structure Pmm where
  pmmBitmap : Nat → BitVec 32
  pmmBitmapAddr : Nat
  pmmBitmapSize : Nat
  pmmMaxBlocks : Nat
  pmmUsedBlocks : Nat

def pmmSetBit (p : Pmm) (bit : Nat) : Pmm :=
  let word := bit / pmmBitsPerEntry
  let mask := 1#32 <<< (bit % pmmBitsPerEntry)
  { p with pmmBitmap := Function.update p.pmmBitmap word (p.pmmBitmap word ||| mask) }

def pmmClearBit (p : Pmm) (bit : Nat) : Pmm :=
  let word := bit / pmmBitsPerEntry
  let mask := 1#32 <<< (bit % pmmBitsPerEntry)
  { p with pmmBitmap := Function.update p.pmmBitmap word (p.pmmBitmap word &&& ~~~mask) }

def pmmTestBit (p : Pmm) (bit : Nat) : BitVec 32 :=
  p.pmmBitmap (bit / pmmBitsPerEntry) &&& 1#32 <<< (bit % pmmBitsPerEntry)

def isPageAligned (addr : Nat) : Bool := addr &&& (pmmBlockSize - 1) == 0

/-- The loop of `pmm_alloc_page_internal`: the first block that is clear in the bitmap and
passes the alignment test. -/
def pmmFindBlock (p : Pmm) (alignedOnly : Bool) : Option Nat :=
  (List.range p.pmmMaxBlocks).find? fun block =>
    pmmTestBit p block == 0#32 &&
      !(alignedOnly && !isPageAligned (Word32.wrap (block * pmmBlockSize)))

def pmmAllocPageInternal (p : Pmm) (alignedOnly : Bool) : Nat × Pmm :=
  match pmmFindBlock p alignedOnly with
  | some block =>
    let q := pmmSetBit p block
    (Word32.wrap (block * pmmBlockSize),
      { q with pmmUsedBlocks := Word32.wrap (q.pmmUsedBlocks + 1) })
  | none => (0, p)

def pmmAllocPage (p : Pmm) : Nat × Pmm := pmmAllocPageInternal p false

def pmmAllocPageAligned (p : Pmm) : Nat × Pmm := pmmAllocPageInternal p true

def pmmFreePage (p : Pmm) (page : Nat) : Pmm :=
  let block := page / pmmBlockSize
  if block ≥ p.pmmMaxBlocks then p
  else if pmmTestBit p block ≠ 0#32 then
    let q := pmmClearBit p block
    { q with pmmUsedBlocks := Word32.sub q.pmmUsedBlocks 1 }
  else p

def pmmGetFreePageCount (p : Pmm) : Nat := Word32.sub p.pmmMaxBlocks p.pmmUsedBlocks

def pmmIsPageFree (p : Pmm) (page : Nat) : Bool :=
  if page % pmmBlockSize ≠ 0 then false
  else
    let block := page / pmmBlockSize
    if block ≥ p.pmmMaxBlocks then false
    else pmmTestBit p block == 0#32

/-! ## Bits, marks and the free set -/

/-- The mark of a block: its bit in the bitmap. -/
def Pmm.marked (p : Pmm) (block : Nat) : Bool := getBit p.pmmBitmap block

/-- The blocks the allocator can hand out. -/
def Pmm.freeBlocks (p : Pmm) : Finset Nat :=
  (Finset.range p.pmmMaxBlocks).filter fun block => p.marked block = false

/-- Number of marks within the allocated words. -/
def Pmm.markCount (p : Pmm) : Nat :=
  (bitsBelow p.pmmBitmap (pmmBitsPerEntry * p.pmmBitmapSize)).card

@[simp] theorem mem_freeBlocks {p : Pmm} {block : Nat} :
    block ∈ p.freeBlocks ↔ block < p.pmmMaxBlocks ∧ p.marked block = false := by
  simp [Pmm.freeBlocks]

theorem pmmTestBit_eq_zero (p : Pmm) (bit : Nat) :
    pmmTestBit p bit = 0#32 ↔ p.marked bit = false := by
  have hlt : bit % 32 < 32 := Nat.mod_lt _ (by decide)
  constructor
  · intro h
    have hbit := congrArg (fun x => x.getLsbD (bit % 32)) h
    simpa [pmmTestBit, getLsbD_mask hlt, hlt, Pmm.marked, getBit] using hbit
  · intro h
    apply BitVec.eq_of_getLsbD_eq
    intro i hi
    simp only [pmmTestBit, pmmBitsPerEntry, BitVec.getLsbD_and, getLsbD_mask hi]
    by_cases hk : i = bit % 32
    · subst hk
      simpa [Pmm.marked, getBit] using h
    · simp [hk]

@[simp] theorem pmmSetBit_pmmBitmap (p : Pmm) (bit : Nat) :
    (pmmSetBit p bit).pmmBitmap = setBit p.pmmBitmap bit := rfl
@[simp] theorem pmmClearBit_pmmBitmap (p : Pmm) (bit : Nat) :
    (pmmClearBit p bit).pmmBitmap = clearBit p.pmmBitmap bit := rfl
@[simp] theorem pmmSetBit_pmmMaxBlocks (p : Pmm) (bit : Nat) :
    (pmmSetBit p bit).pmmMaxBlocks = p.pmmMaxBlocks := rfl
@[simp] theorem pmmClearBit_pmmMaxBlocks (p : Pmm) (bit : Nat) :
    (pmmClearBit p bit).pmmMaxBlocks = p.pmmMaxBlocks := rfl
@[simp] theorem pmmSetBit_pmmUsedBlocks (p : Pmm) (bit : Nat) :
    (pmmSetBit p bit).pmmUsedBlocks = p.pmmUsedBlocks := rfl
@[simp] theorem pmmClearBit_pmmUsedBlocks (p : Pmm) (bit : Nat) :
    (pmmClearBit p bit).pmmUsedBlocks = p.pmmUsedBlocks := rfl
@[simp] theorem pmmSetBit_pmmBitmapSize (p : Pmm) (bit : Nat) :
    (pmmSetBit p bit).pmmBitmapSize = p.pmmBitmapSize := rfl
@[simp] theorem pmmClearBit_pmmBitmapSize (p : Pmm) (bit : Nat) :
    (pmmClearBit p bit).pmmBitmapSize = p.pmmBitmapSize := rfl

/-! ## Allocation -/

/-- What initialization guarantees about the limits: the bitmap covers every block and
block addresses fit in 32 bits. -/
structure Pmm.Consistent (p : Pmm) : Prop where
  covered : p.pmmMaxBlocks ≤ pmmBitsPerEntry * p.pmmBitmapSize
  addressable : p.pmmMaxBlocks ≤ 2 ^ 20

/-- Block addresses are page aligned, so the alignment test never rejects one. -/
theorem isPageAligned_block (block : Nat) :
    isPageAligned (Word32.wrap (block * pmmBlockSize)) = true := by
  have hmask : Word32.wrap (block * 4096) &&& 4095 = Word32.wrap (block * 4096) % 4096 :=
    Nat.and_two_pow_sub_one_eq_mod _ 12
  simp only [isPageAligned, pmmBlockSize, Nat.reduceSub, hmask, beq_iff_eq]
  unfold Word32.wrap
  omega

theorem pmmFindBlock_eq (p : Pmm) (alignedOnly : Bool) :
    pmmFindBlock p alignedOnly =
      (List.range p.pmmMaxBlocks).find? fun block => !p.marked block := by
  unfold pmmFindBlock
  congr 1
  funext block
  rw [isPageAligned_block, Bool.eq_iff_iff]
  simp [pmmTestBit_eq_zero]

/-- The two allocation functions are the same function. -/
theorem pmmAllocPageInternal_eq (p : Pmm) (a b : Bool) :
    pmmAllocPageInternal p a = pmmAllocPageInternal p b := by
  simp only [pmmAllocPageInternal, pmmFindBlock_eq]

/-- `block` is the free block of lowest number. -/
def Pmm.FirstFree (p : Pmm) (block : Nat) : Prop :=
  block ∈ p.freeBlocks ∧ ∀ j ∈ p.freeBlocks, block ≤ j

theorem Pmm.FirstFree.unique {p : Pmm} {a b : Nat} (ha : p.FirstFree a) (hb : p.FirstFree b) :
    a = b := Nat.le_antisymm (ha.2 b hb.1) (hb.2 a ha.1)

theorem exists_firstFree {p : Pmm} (h : p.freeBlocks.Nonempty) : ∃ block, p.FirstFree block :=
  ⟨p.freeBlocks.min' h, Finset.min'_mem _ h, fun _ hj => Finset.min'_le _ _ hj⟩

theorem pmmFindBlock_eq_some {p : Pmm} {alignedOnly : Bool} {block : Nat} :
    pmmFindBlock p alignedOnly = some block ↔ p.FirstFree block := by
  rw [pmmFindBlock_eq, List.find?_range_eq_some]
  simp only [Bool.not_eq_true', List.mem_range, Bool.not_not, Pmm.FirstFree, mem_freeBlocks]
  constructor
  · rintro ⟨hclear, hlt, hfirst⟩
    refine ⟨⟨hlt, hclear⟩, fun j hj => Nat.le_of_not_lt fun hlt => ?_⟩
    simp [hfirst j hlt] at hj
  · rintro ⟨⟨hlt, hclear⟩, hfirst⟩
    refine ⟨hclear, hlt, fun j hj => ?_⟩
    by_contra hmark
    have := hfirst j ⟨by omega, by simpa using hmark⟩
    omega

theorem pmmFindBlock_eq_none {p : Pmm} {alignedOnly : Bool} :
    pmmFindBlock p alignedOnly = none ↔ p.freeBlocks = ∅ := by
  constructor
  · intro h
    by_contra hne
    obtain ⟨block, hblock⟩ := exists_firstFree (Finset.nonempty_iff_ne_empty.mpr hne)
    rw [pmmFindBlock_eq_some.mpr hblock] at h
    cases h
  · intro h
    cases hfind : pmmFindBlock p alignedOnly with
    | none => rfl
    | some block =>
      have := (pmmFindBlock_eq_some.mp hfind).1
      simp [h] at this

/-- The state after a successful allocation of `block`. -/
def Pmm.take (p : Pmm) (block : Nat) : Pmm :=
  { pmmSetBit p block with pmmUsedBlocks := Word32.wrap (p.pmmUsedBlocks + 1) }

/-- The state after `block` has been given back. -/
def Pmm.give (p : Pmm) (block : Nat) : Pmm :=
  { pmmClearBit p block with pmmUsedBlocks := Word32.sub p.pmmUsedBlocks 1 }

/-- The whole behaviour of an allocation: the first free block is taken, or there is none
and nothing happens. -/
theorem pmmAllocPageInternal_cases (p : Pmm) (alignedOnly : Bool) :
    (∃ block, p.FirstFree block ∧ pmmAllocPageInternal p alignedOnly =
      (Word32.wrap (block * pmmBlockSize), p.take block)) ∨
    (p.freeBlocks = ∅ ∧ pmmAllocPageInternal p alignedOnly = (0, p)) := by
  unfold pmmAllocPageInternal
  cases hfind : pmmFindBlock p alignedOnly with
  | some block => exact .inl ⟨block, pmmFindBlock_eq_some.mp hfind, rfl⟩
  | none => exact .inr ⟨pmmFindBlock_eq_none.mp hfind, rfl⟩

theorem pmmAllocPageInternal_of_firstFree {p : Pmm} {block : Nat} (h : p.FirstFree block)
    (alignedOnly : Bool) : pmmAllocPageInternal p alignedOnly =
      (Word32.wrap (block * pmmBlockSize), p.take block) := by
  simp only [pmmAllocPageInternal, pmmFindBlock_eq_some.mpr h]
  rfl

theorem pmmAllocPageInternal_of_empty {p : Pmm} (h : p.freeBlocks = ∅) (alignedOnly : Bool) :
    pmmAllocPageInternal p alignedOnly = (0, p) := by
  simp only [pmmAllocPageInternal, pmmFindBlock_eq_none.mpr h]

/-- Addresses of blocks below the limit do not wrap. -/
theorem Pmm.Consistent.wrap_block {p : Pmm} (h : p.Consistent) {block : Nat}
    (hlt : block < p.pmmMaxBlocks) : Word32.wrap (block * pmmBlockSize) = block * 4096 := by
  have := h.addressable
  apply Word32.wrap_of_lt
  simp only [pmmBlockSize]
  omega

/-- Freeing a page below the limit that is marked gives its block back. -/
theorem pmmFreePage_of_marked {p : Pmm} {page : Nat} (hlt : page / 4096 < p.pmmMaxBlocks)
    (hmark : p.marked (page / 4096) = true) : pmmFreePage p page = p.give (page / 4096) := by
  have htest : pmmTestBit p (page / 4096) ≠ 0#32 := by
    rw [Ne, pmmTestBit_eq_zero, hmark]
    decide
  simp [pmmFreePage, Nat.not_le.mpr hlt, htest, Pmm.give]

/-- Freeing a page that is beyond the limit or already free does nothing. -/
theorem pmmFreePage_of_not_marked {p : Pmm} {page : Nat}
    (h : p.pmmMaxBlocks ≤ page / 4096 ∨ p.marked (page / 4096) = false) :
    pmmFreePage p page = p := by
  simp only [pmmFreePage, pmmBlockSize, ge_iff_le, ne_eq, pmmTestBit_eq_zero]
  rcases h with h | h
  · simp [h]
  · simp [h]

theorem pmmIsPageFree_iff {p : Pmm} {page : Nat} :
    pmmIsPageFree p page = true ↔ page % 4096 = 0 ∧ page / 4096 ∈ p.freeBlocks := by
  simp only [pmmIsPageFree, pmmBlockSize]
  by_cases haligned : page % 4096 = 0
  · by_cases hlt : page / 4096 < p.pmmMaxBlocks
    · simp [haligned, hlt, pmmTestBit_eq_zero, Nat.not_le.mpr hlt]
    · simp [haligned, hlt, Nat.le_of_not_lt hlt]
  · simp [haligned]

/-! ## Effect of taking and giving back a block -/

section Effects

variable (p : Pmm) (block : Nat)

@[simp] theorem take_pmmMaxBlocks : (p.take block).pmmMaxBlocks = p.pmmMaxBlocks := rfl
@[simp] theorem give_pmmMaxBlocks : (p.give block).pmmMaxBlocks = p.pmmMaxBlocks := rfl
@[simp] theorem take_pmmBitmap : (p.take block).pmmBitmap = setBit p.pmmBitmap block := rfl
@[simp] theorem give_pmmBitmap : (p.give block).pmmBitmap = clearBit p.pmmBitmap block := rfl

theorem marked_take (j : Nat) :
    (p.take block).marked j = (decide (j = block) || p.marked j) := by
  rw [Pmm.marked, take_pmmBitmap, getBit_setBit, Pmm.marked]

theorem marked_give (j : Nat) :
    (p.give block).marked j = (!decide (j = block) && p.marked j) := by
  rw [Pmm.marked, give_pmmBitmap, getBit_clearBit, Pmm.marked]

theorem freeBlocks_take : (p.take block).freeBlocks = p.freeBlocks.erase block := by
  ext j
  simp only [mem_freeBlocks, take_pmmMaxBlocks, marked_take, Finset.mem_erase,
    Bool.or_eq_false_iff, decide_eq_false_iff_not]
  tauto

variable {p block}

theorem freeBlocks_give (hlt : block < p.pmmMaxBlocks) :
    (p.give block).freeBlocks = insert block p.freeBlocks := by
  ext j
  simp only [mem_freeBlocks, give_pmmMaxBlocks, marked_give, Finset.mem_insert,
    Bool.and_eq_false_iff, Bool.not_eq_false', decide_eq_true_eq]
  constructor
  · tauto
  · rintro (rfl | h)
    · exact ⟨hlt, .inl rfl⟩
    · exact ⟨h.1, .inr h.2⟩

theorem Pmm.Consistent.take (h : p.Consistent) : (p.take block).Consistent :=
  ⟨h.covered, h.addressable⟩

theorem Pmm.Consistent.give (h : p.Consistent) : (p.give block).Consistent :=
  ⟨h.covered, h.addressable⟩

theorem markCount_take (h : p.Consistent) (hfree : block ∈ p.freeBlocks) :
    (p.take block).markCount = p.markCount + 1 := by
  obtain ⟨hlt, hclear⟩ := mem_freeBlocks.mp hfree
  exact card_bitsBelow_setBit (hlt.trans_le h.covered) hclear

theorem markCount_give (h : p.Consistent) (hlt : block < p.pmmMaxBlocks)
    (hmark : p.marked block = true) : (p.give block).markCount + 1 = p.markCount :=
  card_bitsBelow_clearBit (hlt.trans_le h.covered) hmark

end Effects

/-- An allocation changes at most the bit of the block it returns, and the count of used
blocks follows the marks. -/
theorem pmmAllocPageInternal_effect {p : Pmm} (h : p.Consistent) (alignedOnly : Bool) :
    (∀ j, j ≠ (pmmAllocPageInternal p alignedOnly).1 / 4096 →
      (pmmAllocPageInternal p alignedOnly).2.marked j = p.marked j) ∧
    (pmmAllocPageInternal p alignedOnly).2.pmmUsedBlocks + p.markCount ≡
      p.pmmUsedBlocks + (pmmAllocPageInternal p alignedOnly).2.markCount [MOD 2 ^ 32] := by
  rcases pmmAllocPageInternal_cases p alignedOnly with ⟨block, hfirst, hres⟩ | ⟨_, hres⟩
  · have hlt := (mem_freeBlocks.mp hfirst.1).1
    rw [hres, h.wrap_block hlt, Nat.mul_div_cancel _ (by decide)]
    refine ⟨fun j hj => by simp [marked_take, hj], ?_⟩
    rw [markCount_take h hfirst.1]
    simp only [Pmm.take, Word32.wrap, Nat.ModEq]
    omega
  · rw [hres]
    exact ⟨fun _ _ => rfl, rfl⟩

/-- A free changes at most the bit of the page's block, and the count of used blocks
follows the marks. -/
theorem pmmFreePage_effect {p : Pmm} (h : p.Consistent) (page : Nat) :
    (∀ j, j ≠ page / 4096 → (pmmFreePage p page).marked j = p.marked j) ∧
    (pmmFreePage p page).pmmUsedBlocks + p.markCount ≡
      p.pmmUsedBlocks + (pmmFreePage p page).markCount [MOD 2 ^ 32] := by
  by_cases hgive : page / 4096 < p.pmmMaxBlocks ∧ p.marked (page / 4096) = true
  · rw [pmmFreePage_of_marked hgive.1 hgive.2]
    refine ⟨fun j hj => by simp [marked_give, hj], ?_⟩
    have hcount := markCount_give h hgive.1 hgive.2
    simp only [Pmm.give, Word32.sub, Nat.ModEq] at hcount ⊢
    omega
  · rw [not_and_or, Nat.not_lt, Bool.not_eq_true] at hgive
    rw [pmmFreePage_of_not_marked hgive]
    exact ⟨fun _ _ => rfl, rfl⟩

end HolyOs.Mm
