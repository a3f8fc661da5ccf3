import HolyOs.Mm.PmmBoot

/-!
# The count of free pages

`pmm_used_blocks` is kept by hand beside the bitmap. The allocator moves the two together, so
the count they give is right after every history or after none: what decides is the balance
that `pmm_init` leaves. It counts the blocks of the bitmap, whether or not they lie below the
limit, and it does not count the marked blocks between the regions.
-/
namespace HolyOs.Mm

open Transition

/-- How many of these allocations, made one after the other, take a block. -/
def pmmTakes (p : Pmm) : List Bool → Nat
  | [] => 0
  | alignedOnly :: rest =>
    (if (pmmFindBlock p alignedOnly).isSome then 1 else 0) +
      pmmTakes (pmmAllocPageInternal p alignedOnly).2 rest

/-- The count is the number of clear bits below the limit, and of the allocations made next
exactly that many take a block. -/
structure FreeCountTruthful (p : Pmm) : Prop where
  clear : pmmGetFreePageCount p = p.freeBlocks.card
  takes : ∀ flags, pmmTakes p flags = min flags.length (pmmGetFreePageCount p)

/-! ## The balance of the counter and the bitmap -/

/-- Used and free blocks make up the limit. -/
structure Pmm.Balanced (p : Pmm) : Prop where
  consistent : p.Consistent
  bounded : p.pmmUsedBlocks < 2 ^ 32
  balance : p.pmmUsedBlocks + p.freeBlocks.card ≡ p.pmmMaxBlocks [MOD 2 ^ 32]

theorem card_freeBlocks_le (p : Pmm) : p.freeBlocks.card ≤ p.pmmMaxBlocks := by
  simpa [Pmm.freeBlocks] using Finset.card_filter_le (Finset.range p.pmmMaxBlocks) _

/-- The count is right exactly in balance. -/
theorem pmmGetFreePageCount_eq_card {p : Pmm} (h : p.Consistent)
    (hused : p.pmmUsedBlocks < 2 ^ 32) :
    pmmGetFreePageCount p = p.freeBlocks.card ↔
      p.pmmUsedBlocks + p.freeBlocks.card ≡ p.pmmMaxBlocks [MOD 2 ^ 32] := by
  have hcard := card_freeBlocks_le p
  have hlimit := h.addressable
  unfold pmmGetFreePageCount Word32.sub Nat.ModEq
  omega

section Operations

variable {p : Pmm} {block : Nat}

theorem Pmm.Balanced.take (h : p.Balanced) (hfree : block ∈ p.freeBlocks) :
    (p.take block).Balanced where
  consistent := h.consistent.take
  bounded := Word32.wrap_lt _
  balance := by
    have hcard := Finset.card_erase_add_one hfree
    have hbalance := h.balance
    rw [freeBlocks_take]
    simp only [Pmm.take, Word32.wrap, Nat.ModEq, pmmSetBit_pmmMaxBlocks] at hbalance ⊢
    omega

theorem Pmm.Balanced.give (h : p.Balanced) (hlt : block < p.pmmMaxBlocks)
    (hmark : p.marked block = true) : (p.give block).Balanced where
  consistent := h.consistent.give
  bounded := Nat.mod_lt _ (by decide)
  balance := by
    have hcard := Finset.card_insert_of_notMem (s := p.freeBlocks) (a := block) (by simp [hmark])
    have hbalance := h.balance
    have hbounded := h.bounded
    rw [freeBlocks_give hlt]
    simp only [Pmm.give, Word32.sub, Nat.ModEq, pmmClearBit_pmmMaxBlocks] at hbalance ⊢
    omega

theorem Pmm.Balanced.alloc (h : p.Balanced) (alignedOnly : Bool) :
    (pmmAllocPageInternal p alignedOnly).2.Balanced := by
  rcases pmmAllocPageInternal_cases p alignedOnly with ⟨block, hfirst, hres⟩ | ⟨-, hres⟩
  · rw [hres]
    exact h.take hfirst.1
  · rw [hres]
    exact h

theorem Pmm.Balanced.free (h : p.Balanced) (page : Nat) : (pmmFreePage p page).Balanced := by
  by_cases hgive : page / 4096 < p.pmmMaxBlocks ∧ p.marked (page / 4096) = true
  · rw [pmmFreePage_of_marked hgive.1 hgive.2]
    exact h.give hgive.1 hgive.2
  · rw [pmmFreePage_of_not_marked (by grind)]
    exact h

end Operations

/-- Each operation moves the counter and the bitmap together. -/
theorem Pmm.Balanced.step {s t : Ledger} {op : PmmOp} (h : s.pmm.Balanced)
    (hstep : Ledger.Step s op t) : t.pmm.Balanced := by
  obtain ⟨-, rfl⟩ := hstep
  cases op with
  | allocPage => exact h.alloc false
  | allocPageAligned => exact h.alloc true
  | freePage page => exact h.free page

/-- Allocations take a block as long as one is free. -/
theorem pmmTakes_eq (p : Pmm) (flags : List Bool) :
    pmmTakes p flags = min flags.length p.freeBlocks.card := by
  induction flags generalizing p with
  | nil => simp [pmmTakes]
  | cons alignedOnly rest ih =>
    rw [pmmTakes, ih]
    rcases pmmAllocPageInternal_cases p alignedOnly with ⟨block, hfirst, hres⟩ | ⟨hempty, hres⟩
    · have hcard := Finset.card_erase_add_one hfirst.1
      rw [hres, pmmFindBlock_eq_some.mpr hfirst, freeBlocks_take]
      simp only [Option.isSome_some, if_true, List.length_cons]
      omega
    · simp [hres, pmmFindBlock_eq_none.mpr hempty, hempty]

theorem Pmm.Balanced.truthful {p : Pmm} (h : p.Balanced) : FreeCountTruthful p := by
  have hcount := (pmmGetFreePageCount_eq_card h.consistent h.bounded).mpr h.balance
  exact ⟨hcount, fun flags => by rw [hcount, pmmTakes_eq]⟩

/-! ## The balance at the start -/

/-- The highest AVAILABLE end in blocks, the ends being taken modulo `2 ^ 32`. -/
def blockLimit (mmap : List MmapEntry) : Nat :=
  (mmap.filter (·.available)).foldr (fun e n => max (e.endAddr / 4096) n) 0

/-- Blocks below the limit that are in no block range of an AVAILABLE entry that was read and not
reserved for the bitmap: their marks are never counted. -/
def reservedBlocks (mmap marked : List MmapEntry) : Finset Nat :=
  (Finset.range (blockLimit mmap)).filter fun block => block ∉ bitmapBlocks mmap ∧
    ¬ ∃ e ∈ marked, e.available = true ∧ e.startBlock ≤ block ∧ block < e.endBlock

/-- Blocks of the bitmap at or beyond the limit: they are counted although no block below the
limit is marked for them. -/
def overhangBlocks (mmap : List MmapEntry) : Finset Nat :=
  (bitmapBlocks mmap).filter fun block => blockLimit mmap ≤ block

theorem pmmInitMaxBlocks_eq (mmap : List MmapEntry) : pmmInitMaxBlocks mmap = blockLimit mmap := by
  rw [pmmInitMaxBlocks, pmmMaxMem_eq, blockLimit, pmmBlockSize]
  induction mmap.filter (·.available) with
  | nil => simp
  | cons e es ih =>
    simp only [List.foldr_cons, ← ih]
    omega

section Start

variable {mmap marked : List MmapEntry} {p : Pmm}

/-- Below the limit a block is free, reserved, or occupied by the bitmap. -/
theorem Started.card_blocks (hp : Started mmap marked p) :
    p.freeBlocks.card + (reservedBlocks mmap marked).card + (bitmapBlocks mmap).card =
      blockLimit mmap + (overhangBlocks mmap).card := by
  have hfree : p.freeBlocks = (Finset.range (blockLimit mmap)).filter
      fun block => block ∉ bitmapBlocks mmap ∧
        ∃ e ∈ marked, e.available = true ∧ e.startBlock ≤ block ∧ block < e.endBlock := by
    ext block
    rw [hp.free, pmmInitMaxBlocks_eq]
    simp
  have hoccupied : (Finset.range (blockLimit mmap)).filter (· ∈ bitmapBlocks mmap) =
      (bitmapBlocks mmap).filter fun block => ¬ blockLimit mmap ≤ block := by
    ext block
    simp [and_comm]
  have hrange := Finset.card_filter_add_card_filter_not (s := Finset.range (blockLimit mmap))
    (· ∈ bitmapBlocks mmap)
  have hopen := Finset.card_filter_add_card_filter_not
    (s := (Finset.range (blockLimit mmap)).filter (· ∉ bitmapBlocks mmap))
    (fun block => ∃ e ∈ marked, e.available = true ∧ e.startBlock ≤ block ∧ block < e.endBlock)
  have hbitmap := Finset.card_filter_add_card_filter_not (s := bitmapBlocks mmap)
    (fun block => blockLimit mmap ≤ block)
  rw [Finset.filter_filter, Finset.filter_filter, ← hfree] at hopen
  rw [hoccupied, Finset.card_range] at hrange
  unfold reservedBlocks overhangBlocks
  omega

theorem Started.used_lt (hp : Started mmap marked p) : p.pmmUsedBlocks < 2 ^ 32 := by
  have hcard := card_bitmapBlocks_lt mmap
  rw [hp.used]
  omega

theorem Started.balanced_iff (hp : Started mmap marked p) :
    p.Balanced ↔ (reservedBlocks mmap marked).card = (overhangBlocks mmap).card := by
  have hblocks := hp.card_blocks
  have hused := hp.used
  have hmax := hp.limit
  have hcard := card_bitmapBlocks_lt mmap
  have hlimit := pmmInitMaxBlocks_lt mmap
  have hreserved := Finset.card_filter_le (Finset.range (blockLimit mmap)) fun block =>
    block ∉ bitmapBlocks mmap ∧
      ¬ ∃ e ∈ marked, e.available = true ∧ e.startBlock ≤ block ∧ block < e.endBlock
  have hoverhang := Finset.card_filter_le (bitmapBlocks mmap) fun block => blockLimit mmap ≤ block
  rw [pmmInitMaxBlocks_eq] at hlimit hmax
  rw [Finset.card_range] at hreserved
  change (reservedBlocks mmap marked).card ≤ _ at hreserved
  change (overhangBlocks mmap).card ≤ _ at hoverhang
  constructor
  · intro h
    have hbalance := h.balance
    rw [hmax, hused, Nat.ModEq] at hbalance
    omega
  · intro h
    refine ⟨hp.consistent, hp.used_lt, ?_⟩
    rw [hmax, hused, Nat.ModEq]
    omega

end Start

/-- The count is truthful after every history in which held pages are freed. -/
def CountKept (p : Pmm) : Prop :=
  ∀ ops s, Run Ledger.Step ⟨p, ∅, ∅⟩ ops s → FreeCountTruthful s.pmm

/-- The operations keep the balance and cannot bring it about. -/
theorem countKept_iff {p : Pmm} (hconsistent : p.Consistent) (hused : p.pmmUsedBlocks < 2 ^ 32) :
    CountKept p ↔ p.Balanced := by
  constructor
  · intro h
    exact ⟨hconsistent, hused,
      (pmmGetFreePageCount_eq_card hconsistent hused).mp (h [] _ .nil).clear⟩
  · intro h ops s hrun
    have hbalanced : s.pmm.Balanced :=
      hrun.invariant (I := fun s => s.pmm.Balanced) h fun _ _ _ hb hstep => hb.step hstep
    exact hbalanced.truthful

/-- The free-page count is truthful after every history in which held pages are freed, exactly
when as many reserved blocks are left out of the count as blocks of the bitmap beyond the
limit are counted in. -/
theorem pmm_free_count_truthful_iff {l : BootLayout} {m : ByteMemory.Memory} {mmap : List MmapEntry}
    (hholds : l.Holds m mmap) :
    l.DecidedBy m mmap CountKept fun marked =>
      (reservedBlocks mmap marked).card = (overhangBlocks mmap).card :=
  hholds.decidedBy fun _ _ hp => (countKept_iff hp.consistent hp.used_lt).trans hp.balanced_iff

/-- One region from address 0 on. -/
def wholeMap : List MmapEntry := [⟨0, 0x7FE0000, 1⟩]

/-- Without a hole the count is truthful. -/
theorem pmm_free_count_truthful_wholeMap :
    (pcLayout 0x9000).Boots (lowBoot wholeMap) CountKept := by
  have hapart := lowBoot_apart wholeMap (by decide) (by decide) (.inl (by decide))
  have hbelow : RegionsBelow wholeMap := by decide
  have hoverhang : overhangBlocks wholeMap = ∅ := by decide
  have hnone : reservedBlocks wholeMap wholeMap = ∅ := by
    rw [reservedBlocks, Finset.filter_eq_empty_iff]
    rintro block hlt ⟨-, hopen⟩
    refine hopen ⟨⟨0, 0x7FE0000, 1⟩, by simp [wholeMap], by decide, Nat.zero_le _, ?_⟩
    exact Finset.mem_range.mp hlt
  refine ((pmm_free_count_truthful_iff (lowBoot_holds (by decide))).apart hapart hbelow.clears
    (by decide)).mpr ?_
  rw [hoverhang, hnone]

/-- The hole between low memory and the first MiB of a machine with 128 MiB is marked and not
counted. -/
theorem pmm_free_count_wrong_pcMap :
    (pcLayout 0x9000).Holds (lowBoot pcMap) pcMap ∧
      (pcLayout 0x9000).Boots (lowBoot pcMap) fun p => ¬ CountKept p := by
  obtain ⟨p, hp, hstarted⟩ := exists_started_pcMap
  refine ⟨lowBoot_holds (by decide), p, hp, fun hkept => ?_⟩
  have hbalance := hstarted.balanced_iff.mp
    ((countKept_iff hstarted.consistent hstarted.used_lt).mp hkept)
  have hoverhang : overhangBlocks pcMap = ∅ := by decide
  have hhole : 0xA0 ∈ reservedBlocks pcMap pcMap := by
    simp only [reservedBlocks, Finset.mem_filter, Finset.mem_range]
    decide
  have hpos := Finset.card_pos.mpr ⟨_, hhole⟩
  rw [hoverhang, Finset.card_empty] at hbalance
  omega

end HolyOs.Mm
