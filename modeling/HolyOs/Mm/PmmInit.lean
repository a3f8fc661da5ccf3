import HolyOs.Mm.Pmm
import Mathlib.Order.Interval.Finset.Nat

/-!
# What `pmm_init` computes from the memory map

The quantities of `pmm_init`, in terms of the entries that its walks read. The first two walks read
one list of entries and give the size, the limit and the place of the bitmap. The third walk clears
the blocks of the entries that it reads; `pmm_init` has filled the bitmap by then, and they can be
others. The walks themselves, over the map in memory, are in `PmmMap`.

Of the log lines only the division by `pmm_max_blocks` in the last one is kept.

## Main definitions

* `Started`: the static variables and the free blocks after `pmm_init`, by what its walks read.
-/
namespace HolyOs.Mm

open PackedBits

@[simp] def multibootMemoryAvailable : BitVec 32 := 1

/-- An entry of the multiboot memory map, without the `size` field that links the walks. -/
structure MmapEntry where
  addr : BitVec 64
  len : BitVec 64
  type : BitVec 32
deriving DecidableEq

namespace MmapEntry

def available (e : MmapEntry) : Bool := e.type == multibootMemoryAvailable

/-- `end_addr`: the 64-bit sum stored into a `uint32_t`. -/
def endAddr (e : MmapEntry) : Nat := Word32.wrap (e.addr + e.len).toNat

/-- `start_block`: a 64-bit quotient stored into a `uint32_t`. -/
def startBlock (e : MmapEntry) : Nat := Word32.wrap (e.addr.toNat / pmmBlockSize)

/-- `end_block`: a quotient of the 64-bit sum, stored into a `uint32_t`. -/
def endBlock (e : MmapEntry) : Nat := Word32.wrap ((e.addr + e.len).toNat / pmmBlockSize)

/-- The iterations of the loop from `start_block` to `end_block`. -/
def blocks (e : MmapEntry) : List Nat := List.range' e.startBlock (e.endBlock - e.startBlock)

/-- The bytes the entry describes. -/
def Holds (e : MmapEntry) (x : Nat) : Prop :=
  e.addr.toNat ≤ x ∧ x < e.addr.toNat + e.len.toNat

end MmapEntry

/-- `max_mem` after the first walk. -/
def pmmMaxMem (mmap : List MmapEntry) : Nat :=
  mmap.foldl (fun maxMem e =>
    if e.available then if e.endAddr > maxMem then e.endAddr else maxMem else maxMem) 0

def pmmInitMaxBlocks (mmap : List MmapEntry) : Nat := pmmMaxMem mmap / pmmBlockSize

def pmmInitBitmapSize (mmap : List MmapEntry) : Nat :=
  (pmmInitMaxBlocks mmap + pmmBitsPerEntry - 1) / pmmBitsPerEntry

/-- `pmm_bitmap` after the second walk, which stops at the first region that is large
enough; without one the pointer stays null. -/
def pmmInitBitmapAddr (mmap : List MmapEntry) : Nat :=
  match mmap.find? fun e => e.available && decide (e.len.toNat ≥ pmmInitBitmapSize mmap * 4) with
  | some e => Word32.wrap e.addr.toNat
  | none => 0

/-- The bits the third walk passes to `pmm_clear_bit` at these entries, in order. -/
def pmmInitClears (marked : List MmapEntry) : List Nat :=
  marked.flatMap fun e => if e.available then e.blocks else []

/-- The bits the last loop passes to `pmm_set_bit`, from `bitmap_start` to `bitmap_end`. -/
def pmmInitSets (mmap : List MmapEntry) : List Nat :=
  let bitmapStart := pmmInitBitmapAddr mmap / pmmBlockSize
  let bitmapEnd := bitmapStart + pmmInitBitmapSize mmap * 4 / pmmBlockSize + 1
  List.range' bitmapStart (bitmapEnd - bitmapStart)

/-! ## Quantities of the map -/

/-- Words a bitmap needs to cover the blocks below every AVAILABLE end, the ends being
taken modulo `2 ^ 32`. -/
def bitmapWords (mmap : List MmapEntry) : Nat :=
  (mmap.filter (·.available)).foldr (fun e n => max ((e.endAddr / 4096 + 31) / 32) n) 0

/-- Address of the first AVAILABLE region with room for these words. -/
def bitmapHome (mmap : List MmapEntry) : Nat :=
  ((mmap.filter (·.available)).find? fun e => 4 * bitmapWords mmap ≤ e.len.toNat).elim 0
    fun e => e.addr.toNat % 2 ^ 32

/-- The blocks reserved for the bitmap. -/
def bitmapBlocks (mmap : List MmapEntry) : Finset Nat :=
  Finset.Icc (bitmapHome mmap / 4096) (bitmapHome mmap / 4096 + 4 * bitmapWords mmap / 4096)

/-- Some AVAILABLE entry ends at or beyond the end of block 0, the ends being taken modulo
`2 ^ 32`. -/
def HasBlock (mmap : List MmapEntry) : Prop :=
  ∃ e ∈ mmap, e.available = true ∧ 4096 ≤ e.endAddr

instance (mmap : List MmapEntry) : Decidable (HasBlock mmap) :=
  inferInstanceAs (Decidable (∃ e ∈ mmap, _))

/-- Some AVAILABLE entry describes the byte. -/
def Covered (mmap : List MmapEntry) (x : Nat) : Prop :=
  ∃ e ∈ mmap, e.available = true ∧ e.Holds x

/-- Some entry of another type describes the byte. -/
def Claimed (mmap : List MmapEntry) (x : Nat) : Prop :=
  ∃ e ∈ mmap, e.available = false ∧ e.Holds x

/-! ## The first two walks -/

theorem foldl_maxMem (mmap : List MmapEntry) (m : Nat) :
    mmap.foldl (fun maxMem e =>
      if e.available then if e.endAddr > maxMem then e.endAddr else maxMem else maxMem) m =
    max m ((mmap.filter (·.available)).foldr (fun e n => max e.endAddr n) 0) := by
  induction mmap generalizing m with
  | nil => simp
  | cons e mmap ih =>
    rw [List.foldl_cons, ih]
    by_cases h : e.available = true
    · simp only [h, if_true, List.filter_cons_of_pos, List.foldr_cons]
      split <;> omega
    · simp [h]

theorem pmmMaxMem_eq (mmap : List MmapEntry) : pmmMaxMem mmap =
    (mmap.filter (·.available)).foldr (fun e n => max e.endAddr n) 0 := by
  rw [pmmMaxMem, foldl_maxMem, Nat.zero_max]

theorem le_foldr_max {α : Type*} {g : α → Nat} (es : List α) {n : Nat} (hn : 0 < n) :
    n ≤ es.foldr (fun e m => max (g e) m) 0 ↔ ∃ e ∈ es, n ≤ g e := by
  induction es with
  | nil => simp; omega
  | cons e es ih => simp [ih]

/-- The first walk finds the highest end. -/
theorem le_pmmMaxMem {mmap : List MmapEntry} {n : Nat} (hn : 0 < n) :
    n ≤ pmmMaxMem mmap ↔ ∃ e ∈ mmap, e.available = true ∧ n ≤ e.endAddr := by
  rw [pmmMaxMem_eq, le_foldr_max _ hn]
  simp [and_assoc]

theorem pmmMaxMem_lt (mmap : List MmapEntry) : pmmMaxMem mmap < 2 ^ 32 := by
  by_contra h
  obtain ⟨e, -, -, he⟩ := (le_pmmMaxMem (by decide)).mp (Nat.le_of_not_lt h)
  exact absurd (Word32.wrap_lt (e.addr + e.len).toNat) (Nat.not_lt.mpr he)

/-- A block is below the limit when it ends below some AVAILABLE end. -/
theorem lt_pmmInitMaxBlocks {mmap : List MmapEntry} {block : Nat} :
    block < pmmInitMaxBlocks mmap ↔
      ∃ e ∈ mmap, e.available = true ∧ (block + 1) * 4096 ≤ e.endAddr := by
  rw [← le_pmmMaxMem (by omega), pmmInitMaxBlocks, pmmBlockSize]
  omega

theorem hasBlock_iff {mmap : List MmapEntry} : HasBlock mmap ↔ pmmInitMaxBlocks mmap ≠ 0 := by
  rw [Nat.ne_zero_iff_zero_lt, lt_pmmInitMaxBlocks]
  simp [HasBlock]

theorem pmmInitMaxBlocks_lt (mmap : List MmapEntry) : pmmInitMaxBlocks mmap < 2 ^ 20 := by
  have := pmmMaxMem_lt mmap
  simp only [pmmInitMaxBlocks, pmmBlockSize]
  omega

theorem pmmInitBitmapSize_eq (mmap : List MmapEntry) :
    pmmInitBitmapSize mmap = bitmapWords mmap := by
  have hfold : ∀ es : List MmapEntry,
      (es.foldr (fun e n => max e.endAddr n) 0 / 4096 + 31) / 32 =
        es.foldr (fun e n => max ((e.endAddr / 4096 + 31) / 32) n) 0 := by
    intro es
    induction es with
    | nil => simp
    | cons e es ih =>
      simp only [List.foldr_cons, ← ih]
      omega
  rw [bitmapWords, ← hfold, ← pmmMaxMem_eq]
  simp [pmmInitBitmapSize, pmmInitMaxBlocks]

theorem pmmInitBitmapAddr_eq (mmap : List MmapEntry) :
    pmmInitBitmapAddr mmap = bitmapHome mmap := by
  have htest : (fun e : MmapEntry => decide (e.available = true ∧
      decide (4 * bitmapWords mmap ≤ e.len.toNat) = true)) =
      fun e => e.available && decide (e.len.toNat ≥ bitmapWords mmap * 4) := by
    funext e
    simp [Nat.mul_comm]
  rw [pmmInitBitmapAddr, bitmapHome, List.find?_filter, pmmInitBitmapSize_eq, htest]
  cases mmap.find? fun e => e.available && decide (e.len.toNat ≥ bitmapWords mmap * 4) <;> rfl

/-! ## The marking walks -/

theorem mem_blocks {e : MmapEntry} {block : Nat} :
    block ∈ e.blocks ↔ e.startBlock ≤ block ∧ block < e.endBlock := by
  rw [MmapEntry.blocks, List.mem_range'_1]
  omega

theorem mem_pmmInitClears {mmap : List MmapEntry} {block : Nat} :
    block ∈ pmmInitClears mmap ↔
      ∃ e ∈ mmap, e.available = true ∧ e.startBlock ≤ block ∧ block < e.endBlock := by
  simp only [pmmInitClears, List.mem_flatMap]
  constructor
  · rintro ⟨e, he, hblock⟩
    by_cases havail : e.available = true
    · rw [if_pos havail, mem_blocks] at hblock
      exact ⟨e, he, havail, hblock⟩
    · simp [havail] at hblock
  · rintro ⟨e, he, havail, hblock⟩
    exact ⟨e, he, by rwa [if_pos havail, mem_blocks]⟩

theorem mem_pmmInitSets {mmap : List MmapEntry} {block : Nat} :
    block ∈ pmmInitSets mmap ↔ block ∈ bitmapBlocks mmap := by
  simp only [pmmInitSets, pmmInitBitmapAddr_eq, pmmInitBitmapSize_eq, List.mem_range'_1,
    bitmapBlocks, Finset.mem_Icc, pmmBlockSize]
  omega

/-! ## What is left -/

theorem bitmapSize_lt (mmap : List MmapEntry) : pmmInitBitmapSize mmap < 2 ^ 16 := by
  have hmax := pmmInitMaxBlocks_lt mmap
  simp only [pmmInitBitmapSize, pmmBitsPerEntry]
  omega

theorem pmmInitBitmapAddr_lt (mmap : List MmapEntry) : pmmInitBitmapAddr mmap < 2 ^ 32 := by
  rw [pmmInitBitmapAddr]
  split
  · exact Word32.wrap_lt _
  · decide

theorem endBlock_lt (e : MmapEntry) : e.endBlock < 2 ^ 32 := Word32.wrap_lt _

theorem pmmInitClears_lt {marked : List MmapEntry} {bit : Nat} (hbit : bit ∈ pmmInitClears marked) :
    bit < 2 ^ 34 := by
  obtain ⟨e, -, -, -, hend⟩ := mem_pmmInitClears.mp hbit
  have := endBlock_lt e
  omega

theorem pmmInitSets_lt {mmap : List MmapEntry} {bit : Nat} (hbit : bit ∈ pmmInitSets mmap) :
    bit < 2 ^ 34 := by
  have haddr := pmmInitBitmapAddr_lt mmap
  have hsize := bitmapSize_lt mmap
  simp only [pmmInitSets, List.mem_range'_1, pmmBlockSize] at hbit
  omega

/-- The bitmap is filled, the blocks of the entries are cleared, and those of the bitmap are set. -/
def startedWords (mmap marked : List MmapEntry) (ram : Nat → BitVec 32) : Nat → BitVec 32 :=
  (pmmInitSets mmap).foldl setBit ((pmmInitClears marked).foldl clearBit
    fun i => if i < pmmInitBitmapSize mmap then 0xFFFFFFFF#32 else ram i)

theorem getBit_startedWords {mmap : List MmapEntry} (marked : List MmapEntry)
    (ram : Nat → BitVec 32) {block : Nat} (hlt : block < pmmInitMaxBlocks mmap) :
    getBit (startedWords mmap marked ram) block = false ↔ block ∉ bitmapBlocks mmap ∧
      ∃ e ∈ marked, e.available = true ∧ e.startBlock ≤ block ∧ block < e.endBlock := by
  have hword : block / 32 < pmmInitBitmapSize mmap := by
    simp only [pmmInitBitmapSize, pmmBitsPerEntry]
    omega
  have hfilled : getBit (fun i => if i < pmmInitBitmapSize mmap then 0xFFFFFFFF#32 else ram i)
      block = true := by
    have hones : (0xFFFFFFFF#32 : BitVec 32) = BitVec.allOnes 32 := rfl
    rw [getBit, if_pos hword, hones, BitVec.getLsbD_allOnes]
    simp [Nat.mod_lt]
  rw [startedWords, getBit_foldl_setBit, getBit_foldl_clearBit, hfilled]
  simp [mem_pmmInitSets, mem_pmmInitClears]

/-- The static variables after `pmm_init`, whose first walks read `mmap` and whose third walk read
`marked`. A block is free when the third walk cleared it and the bitmap does not occupy it. -/
structure Started (mmap marked : List MmapEntry) (p : Pmm) : Prop where
  blocks : HasBlock mmap
  address : p.pmmBitmapAddr = bitmapHome mmap
  size : p.pmmBitmapSize = bitmapWords mmap
  limit : p.pmmMaxBlocks = pmmInitMaxBlocks mmap
  used : p.pmmUsedBlocks = (bitmapBlocks mmap).card
  free : ∀ block, block ∈ p.freeBlocks ↔ block < pmmInitMaxBlocks mmap ∧
    block ∉ bitmapBlocks mmap ∧
      ∃ e ∈ marked, e.available = true ∧ e.startBlock ≤ block ∧ block < e.endBlock

/-- Initialization leaves a bitmap that covers every block. -/
theorem Started.consistent {mmap marked : List MmapEntry} {p : Pmm} (h : Started mmap marked p) :
    p.Consistent where
  covered := by
    rw [h.limit, h.size, ← pmmInitBitmapSize_eq, pmmInitBitmapSize]
    simp only [pmmBitsPerEntry]
    omega
  addressable := by
    rw [h.limit]
    exact (pmmInitMaxBlocks_lt mmap).le

/-- Initialization counts the blocks of the bitmap. -/
theorem length_pmmInitSets (mmap : List MmapEntry) :
    (pmmInitSets mmap).length = (bitmapBlocks mmap).card := by
  simp only [pmmInitSets, bitmapBlocks, List.length_range', Nat.card_Icc, pmmBlockSize,
    pmmInitBitmapAddr_eq, pmmInitBitmapSize_eq]
  omega

theorem card_bitmapBlocks_lt (mmap : List MmapEntry) : (bitmapBlocks mmap).card < 2 ^ 16 := by
  have hlimit := pmmInitMaxBlocks_lt mmap
  have hwords := pmmInitBitmapSize_eq mmap
  rw [bitmapBlocks, Nat.card_Icc]
  simp only [pmmInitBitmapSize, pmmBitsPerEntry] at hwords
  omega

/-- `pmm_used_blocks` after it was counted up once for each of these. -/
theorem foldl_used (bits : List Nat) {used : Nat} (h : used + bits.length < 2 ^ 32) :
    bits.foldl (fun used _ => Word32.wrap (used + 1)) used = used + bits.length := by
  induction bits generalizing used with
  | nil => rfl
  | cons bit bits ih =>
    rw [List.length_cons] at h ⊢
    rw [List.foldl_cons, Word32.wrap_of_lt (by omega), ih (by omega)]
    omega

/-! ## Regions below 4 GiB -/

/-- A region that ends below 4 GiB loses nothing in the 32-bit variables. -/
theorem MmapEntry.exact {e : MmapEntry} (h : e.addr.toNat + e.len.toNat < 2 ^ 32) :
    e.startBlock = e.addr.toNat / 4096 ∧
      e.endBlock = (e.addr.toNat + e.len.toNat) / 4096 ∧
      e.endAddr = e.addr.toNat + e.len.toNat := by
  have hsum : (e.addr + e.len).toNat = e.addr.toNat + e.len.toNat := by
    rw [BitVec.toNat_add]
    omega
  simp only [startBlock, endBlock, endAddr, hsum, Word32.wrap, pmmBlockSize]
  omega

section Below

variable {mmap : List MmapEntry}

/-- The AVAILABLE regions end below 4 GiB. -/
def RegionsBelow (mmap : List MmapEntry) : Prop :=
  ∀ e ∈ mmap, e.available = true → e.addr.toNat + e.len.toNat < 2 ^ 32

instance (mmap : List MmapEntry) : Decidable (RegionsBelow mmap) :=
  inferInstanceAs (Decidable (∀ e ∈ mmap, _))

/-- The regions end below the limit, so only blocks of the bitmap's words are cleared. -/
theorem RegionsBelow.clears (h : RegionsBelow mmap) :
    ∀ bit ∈ pmmInitClears mmap, bit < 32 * bitmapWords mmap := by
  intro bit hbit
  obtain ⟨e, he, havail, -, hend⟩ := mem_pmmInitClears.mp hbit
  obtain ⟨-, ht, hr⟩ := MmapEntry.exact (h e he havail)
  have hmax : bit < pmmInitMaxBlocks mmap := lt_pmmInitMaxBlocks.mpr ⟨e, he, havail, by omega⟩
  rw [← pmmInitBitmapSize_eq]
  simp only [pmmInitBitmapSize, pmmBitsPerEntry]
  omega

/-- The blocks between the rounded ends of an AVAILABLE region are free, unless the bitmap
occupies them. -/
theorem Started.free_of_region {p : Pmm} (hp : Started mmap mmap p) (hbelow : RegionsBelow mmap)
    {e : MmapEntry} (he : e ∈ mmap) (havail : e.available = true) {block : Nat}
    (hstart : e.addr.toNat / 4096 ≤ block) (hend : block < (e.addr.toNat + e.len.toNat) / 4096)
    (hbitmap : block ∉ bitmapBlocks mmap) : block ∈ p.freeBlocks := by
  obtain ⟨hs, ht, hr⟩ := MmapEntry.exact (hbelow e he havail)
  rw [hp.free]
  refine ⟨lt_pmmInitMaxBlocks.mpr ⟨e, he, havail, ?_⟩, hbitmap, e, he, havail, ?_⟩
  · rw [hr]
    omega
  · rw [hs, ht]
    exact ⟨hstart, hend⟩

end Below

end HolyOs.Mm
