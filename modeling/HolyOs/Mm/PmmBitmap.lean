import HolyOs.Mm.PmmBoot

/-!
# The blocks of the bitmap

`pmm_init` reserves the blocks of its own bitmap from a start and a length that are each
rounded down, plus one. When the offset of the bitmap in its first block and the last part of
its length exceed a block together, the bitmap reaches one block further than that.
-/
namespace HolyOs.Mm

open Transition

/-- In every history from here on in which callers free only pages they hold, no page they
hold overlaps the bitmap. A page is held from the call that returns it. -/
def BitmapProtected (p : Pmm) : Prop :=
  ∀ ops s, Run Ledger.Step ⟨p, ∅, ∅⟩ ops s → ∀ page ∈ s.held,
    ¬ (page < p.pmmBitmapAddr + 4 * p.pmmBitmapSize ∧ p.pmmBitmapAddr < page + 4096)

/-- The block behind the reserved ones. -/
def nextBlock (mmap : List MmapEntry) : Nat :=
  bitmapHome mmap / 4096 + 4 * bitmapWords mmap / 4096 + 1

/-- The bitmap ends inside its reserved blocks, or the block behind them cannot be handed out:
no AVAILABLE entry that was read frees it, or no AVAILABLE end of the map lies beyond it. -/
def BitmapReserved (mmap marked : List MmapEntry) : Prop :=
  bitmapHome mmap % 4096 + 4 * bitmapWords mmap % 4096 ≤ 4096 ∨
    ¬ ((∃ e ∈ marked, e.available = true ∧ e.startBlock ≤ nextBlock mmap ∧
        nextBlock mmap < e.endBlock) ∧
      ∃ e ∈ mmap, e.available = true ∧ (nextBlock mmap + 1) * 4096 ≤ e.endAddr)

section Protection

variable {mmap marked : List MmapEntry} {p : Pmm}

/-- The bitmap overlaps its reserved blocks and, when the two remainders exceed a block, the
next one. -/
theorem overlaps_iff (mmap : List MmapEntry) (block : Nat) :
    (block * 4096 < bitmapHome mmap + 4 * bitmapWords mmap ∧
        bitmapHome mmap < (block + 1) * 4096) ∧ block ∉ bitmapBlocks mmap ↔
      block = nextBlock mmap ∧ 4096 < bitmapHome mmap % 4096 + 4 * bitmapWords mmap % 4096 := by
  simp only [bitmapBlocks, Finset.mem_Icc, nextBlock]
  omega

/-- The bitmap is protected exactly when none of the blocks it overlaps is free at the start. -/
theorem Started.bitmapProtected_iff (hp : Started mmap marked p) : BitmapProtected p ↔
    ∀ block, block * 4096 < bitmapHome mmap + 4 * bitmapWords mmap →
      bitmapHome mmap < (block + 1) * 4096 → block ∉ p.freeBlocks := by
  simp only [BitmapProtected, hp.address, hp.size]
  constructor
  · intro h block hlow hhigh hfree
    have hreserved := ((hp.free block).mp hfree).2.1
    have hne : block ≠ 0 := by
      rintro rfl
      have := (overlaps_iff mmap 0).mp ⟨⟨hlow, hhigh⟩, hreserved⟩
      simp [nextBlock] at this
    obtain ⟨ops, s, hrun, hpage⟩ := exists_run_holding hne ⟨p, ∅, ∅⟩ hp.consistent hfree
    exact h ops s hrun _ hpage ⟨hlow, by omega⟩
  · intro h ops s hrun page hpage hover
    obtain ⟨block, hfree, -, rfl⟩ := held_was_free hp.consistent hrun hpage
    exact h block hover.1 (by omega) hfree

/-- Only the block behind the reserved ones can be a block of the bitmap that is free. -/
theorem Started.bitmapReserved_iff (hp : Started mmap marked p) :
    BitmapProtected p ↔ BitmapReserved mmap marked := by
  have hfree : nextBlock mmap ∈ p.freeBlocks ↔ nextBlock mmap ∉ bitmapBlocks mmap ∧
      (∃ e ∈ marked, e.available = true ∧ e.startBlock ≤ nextBlock mmap ∧
        nextBlock mmap < e.endBlock) ∧
      ∃ e ∈ mmap, e.available = true ∧ (nextBlock mmap + 1) * 4096 ≤ e.endAddr := by
    rw [hp.free, lt_pmmInitMaxBlocks]
    exact ⟨fun h => ⟨h.2.1, h.2.2, h.1⟩, fun h => ⟨h.2.2, h.1, h.2.1⟩⟩
  have hnext : nextBlock mmap ∉ bitmapBlocks mmap := by
    simp only [bitmapBlocks, Finset.mem_Icc, nextBlock]
    omega
  rw [hp.bitmapProtected_iff, BitmapReserved]
  constructor
  · intro h
    by_cases hreach : bitmapHome mmap % 4096 + 4 * bitmapWords mmap % 4096 ≤ 4096
    · exact .inl hreach
    · obtain ⟨hover, -⟩ := (overlaps_iff mmap _).mpr ⟨rfl, Nat.lt_of_not_le hreach⟩
      exact .inr fun hboth => h _ hover.1 hover.2 (hfree.mpr ⟨hnext, hboth⟩)
  · intro h block hlow hhigh hblock
    have hreserved := ((hp.free block).mp hblock).2.1
    obtain ⟨rfl, hreach⟩ := (overlaps_iff mmap _).mp ⟨⟨hlow, hhigh⟩, hreserved⟩
    rcases h with h | h
    · omega
    · exact h (hfree.mp hblock).2

end Protection

/-- No history hands out a page of the bitmap exactly when the bitmap is reserved. -/
theorem pmm_bitmap_protected_iff {l : BootLayout} {m : ByteMemory.Memory} {mmap : List MmapEntry}
    (hholds : l.Holds m mmap) : l.DecidedBy m mmap BitmapProtected (BitmapReserved mmap) :=
  hholds.decidedBy fun _ _ hp => hp.bitmapReserved_iff

/-- The bitmap for 128 MiB of memory from address 0 on takes less than a block and is reserved. -/
theorem pmm_bitmap_protected_lowHighMap :
    (pcLayout 0x9000).Boots (lowBoot lowHighMap) BitmapProtected := by
  have hapart := lowBoot_apart lowHighMap (by decide) (by decide) (.inl (by decide))
  exact ((pmm_bitmap_protected_iff (lowBoot_holds (by decide))).apart hapart
    lowHighMap_below.clears lowHighMap_hasBlock).mpr (.inl (by decide))

/-- One region that starts in the middle of its first block. -/
def halfBlockMap : List MmapEntry := [⟨0x800, 0x7FDF800, 1⟩]

/-- Its bitmap has 4092 bytes from 0x800 on and reaches into block 1, which the first allocation
returns. -/
theorem pmm_bitmap_unprotected_halfBlockMap :
    (pcLayout 0x9000).Holds (lowBoot halfBlockMap) halfBlockMap ∧ RegionsBelow halfBlockMap ∧
      (∃ e ∈ halfBlockMap, e.available = true ∧ 4 * bitmapWords halfBlockMap ≤ e.len.toNat) ∧
      (pcLayout 0x9000).Boots (lowBoot halfBlockMap) fun p => ¬ BitmapProtected p := by
  have hbelow : RegionsBelow halfBlockMap := by decide
  obtain ⟨p, hp, hstarted⟩ := exists_started_lowBoot (by decide) hbelow (by decide)
    (.inl (by decide))
  refine ⟨lowBoot_holds (by decide), hbelow, by decide, p, hp, fun hprotected => ?_⟩
  rcases hstarted.bitmapReserved_iff.mp hprotected with hreach | hkept
  · revert hreach
    decide
  · exact hkept (by decide)

end HolyOs.Mm
