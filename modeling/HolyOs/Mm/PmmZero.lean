import HolyOs.Mm.PmmBoot

/-!
# The zero result

Address 0 is the address of block 0 and also what an allocation returns when it fails. The two
are told apart as long as block 0 is never free, and this is decided at start-up: no region frees
it, or the bitmap is put on top of it.
-/
namespace HolyOs.Mm

open Transition

/-- The allocation returns 0 exactly if no block is free, and changes nothing then. -/
structure ZeroMeansFailure (p : Pmm) (alloc : Pmm → Nat × Pmm) : Prop where
  exhausted : (alloc p).1 = 0 ↔ p.freeBlocks = ∅
  unchanged : (alloc p).1 = 0 → (alloc p).2.pmmBitmap = p.pmmBitmap ∧
    (alloc p).2.pmmUsedBlocks = p.pmmUsedBlocks

/-- Without block 0 the result 0 is a failure. -/
theorem zeroMeansFailure_of_notMem {p : Pmm} (h : p.Consistent) (hzero : 0 ∉ p.freeBlocks)
    (alignedOnly : Bool) : ZeroMeansFailure p (pmmAllocPageInternal · alignedOnly) := by
  rcases pmmAllocPageInternal_cases p alignedOnly with ⟨block, hfirst, hres⟩ | ⟨hempty, hres⟩
  · rw [h.wrap_block (mem_freeBlocks.mp hfirst.1).1] at hres
    have hne : block ≠ 0 := by
      rintro rfl
      exact hzero hfirst.1
    have hfree : p.freeBlocks ≠ ∅ := Finset.ne_empty_of_mem hfirst.1
    have hresult : (pmmAllocPageInternal p alignedOnly).1 ≠ 0 := by
      rw [hres]
      omega
    exact ⟨iff_of_false hresult hfree, fun hnull => absurd hnull hresult⟩
  · have hresult : (pmmAllocPageInternal p alignedOnly).1 = 0 := by rw [hres]
    exact ⟨iff_of_true hresult hempty, fun _ => by simp [hres]⟩

/-- Block 0 is handed out as if the allocation had failed. -/
theorem not_zeroMeansFailure_of_mem {p : Pmm} (hzero : 0 ∈ p.freeBlocks) (alignedOnly : Bool) :
    ¬ ZeroMeansFailure p (pmmAllocPageInternal · alignedOnly) := by
  intro h
  have hfirst : p.FirstFree 0 := ⟨hzero, fun j _ => Nat.zero_le j⟩
  have hresult : (pmmAllocPageInternal p alignedOnly).1 = 0 := by
    rw [pmmAllocPageInternal_of_firstFree hfirst]
    rfl
  exact Finset.ne_empty_of_mem hzero (h.exhausted.mp hresult)

/-- In no history from a start where block 0 is marked does it become free. -/
theorem Ledger.zero_notMem {p : Pmm} (h : p.Consistent) (hzero : 0 ∉ p.freeBlocks)
    {ops : List PmmOp} {s : Ledger} (hrun : Run Ledger.Step ⟨p, ∅, ∅⟩ ops s) :
    s.pmm.Consistent ∧ 0 ∉ s.pmm.freeBlocks := by
  have hstart : Ledger.Start p ∅ := ⟨h, hzero, by simp, by simp, by simp⟩
  obtain ⟨a, hshows, -⟩ := Ledger.run_shows hstart hrun
  refine ⟨hshows.consistent, fun hfree => ?_⟩
  rw [hshows.available] at hfree
  exact absurd (hshows.inside 0 (Finset.mem_union_left _ hfree)).1 (Nat.lt_irrefl 0)

/-- After every sequence of allocations and frees of held pages an allocation returns 0 exactly if
no block is free, and changes nothing then. -/
def ZeroKept (p : Pmm) : Prop :=
  ∀ ops s, Run Ledger.Step ⟨p, ∅, ∅⟩ ops s →
    ZeroMeansFailure s.pmm pmmAllocPage ∧ ZeroMeansFailure s.pmm pmmAllocPageAligned

theorem Pmm.Consistent.zeroKept_iff {p : Pmm} (h : p.Consistent) :
    ZeroKept p ↔ 0 ∉ p.freeBlocks := by
  constructor
  · intro hkept hfree
    exact not_zeroMeansFailure_of_mem hfree false (hkept [] _ .nil).1
  · intro hzero ops s hrun
    obtain ⟨hconsistent, hzero'⟩ := Ledger.zero_notMem h hzero hrun
    exact ⟨zeroMeansFailure_of_notMem hconsistent hzero' false,
      zeroMeansFailure_of_notMem hconsistent hzero' true⟩

/-- The bitmap is put into block 0, or block 0 is in the block range of no AVAILABLE entry that was
read. -/
def ZeroReserved (mmap marked : List MmapEntry) : Prop :=
  bitmapHome mmap < 4096 ∨
    ∀ e ∈ marked, e.available = true → 0 < e.startBlock ∨ e.endBlock = 0

section Zero

variable {mmap marked : List MmapEntry}

/-- Start-up leaves block 0 free if an entry frees it and the bitmap is put elsewhere. -/
theorem Started.zeroReserved_iff {p : Pmm} (hp : Started mmap marked p) :
    ZeroKept p ↔ ZeroReserved mmap marked := by
  have hbitmap : 0 ∉ bitmapBlocks mmap ↔ 4096 ≤ bitmapHome mmap := by
    simp only [bitmapBlocks, Finset.mem_Icc, Nat.zero_le, and_true, nonpos_iff_eq_zero]
    omega
  have hmax := Nat.pos_of_ne_zero (hasBlock_iff.mp hp.blocks)
  rw [hp.consistent.zeroKept_iff, hp.free, hbitmap, ZeroReserved]
  constructor
  · intro h
    by_cases hhome : bitmapHome mmap < 4096
    · exact .inl hhome
    · refine .inr fun e he havail => ?_
      by_contra hrange
      exact h ⟨hmax, by omega, e, he, havail, by omega, by omega⟩
  · rintro (hhome | hnone) ⟨-, hhome', e, he, havail, hstart, hend⟩
    · omega
    · have := hnone e he havail
      omega

/-- Of a map below 4 GiB, no AVAILABLE region covers block 0 up to its end. -/
theorem RegionsBelow.zeroReserved_iff (hbelow : RegionsBelow mmap) : ZeroReserved mmap mmap ↔
    bitmapHome mmap < 4096 ∨ ∀ e ∈ mmap, e.available = true →
      4096 ≤ e.addr.toNat ∨ e.addr.toNat + e.len.toNat < 4096 := by
  refine or_congr_right (forall₂_congr fun e he => forall_congr' fun havail => ?_)
  obtain ⟨hs, ht, -⟩ := MmapEntry.exact (hbelow e he havail)
  rw [hs, ht]
  omega

end Zero

/-- For maps whose AVAILABLE regions end below 4 GiB, zero means failure in every history exactly if
the bitmap or the entries that the third walk reads keep block 0 from being free. With the bitmap
apart, this is if `pmm_init` puts the bitmap into block 0 or no AVAILABLE region of the map covers
block 0 up to its end. -/
theorem pmm_zero_means_failure_iff {l : BootLayout} {m : ByteMemory.Memory} {mmap : List MmapEntry}
    (hholds : l.Holds m mmap) (hbelow : RegionsBelow mmap) :
    l.DecidedBy m mmap ZeroKept (ZeroReserved mmap) ∧
      (l.Apart m mmap → HasBlock mmap → (l.Boots m ZeroKept ↔
        bitmapHome mmap < 4096 ∨ ∀ e ∈ mmap, e.available = true →
          4096 ≤ e.addr.toNat ∨ e.addr.toNat + e.len.toNat < 4096)) := by
  have hdecided : l.DecidedBy m mmap ZeroKept (ZeroReserved mmap) :=
    hholds.decidedBy fun _ _ hp => hp.zeroReserved_iff
  refine ⟨hdecided, fun hapart hblock => ?_⟩
  rw [hdecided.apart hapart hbelow.clears hblock, hbelow.zeroReserved_iff]

/-- The bitmap for 128 MiB of memory is put into block 0. -/
theorem pmm_zero_means_failure_lowHighMap :
    (pcLayout 0x9000).Boots (lowBoot lowHighMap) ZeroKept := by
  have hapart := lowBoot_apart lowHighMap (by decide) (by decide) (.inl (by decide))
  exact ((pmm_zero_means_failure_iff (lowBoot_holds (by decide)) lowHighMap_below).2 hapart
    lowHighMap_hasBlock).mpr (.inl (by decide))

/-- One page of low memory, too small for the bitmap of the memory above the first MiB. -/
def smallLowMap : List MmapEntry := [⟨0, 0x1000, 1⟩, ⟨0x100000, 0xFF00000, 1⟩]

theorem smallLowMap_below : RegionsBelow smallLowMap := by decide

/-- The first allocation returns 0, although blocks are free: it takes block 0. -/
theorem pmm_zero_handed_out_smallLowMap :
    (pcLayout 0x9000).Holds (lowBoot smallLowMap) smallLowMap ∧ RegionsBelow smallLowMap ∧
      (pcLayout 0x9000).Boots (lowBoot smallLowMap) fun p =>
        (pmmAllocPage p).1 = 0 ∧ p.freeBlocks ≠ ∅ ∧ ¬ ZeroKept p := by
  obtain ⟨p, hp, hstarted⟩ := exists_started_lowBoot (by decide) smallLowMap_below (by decide)
    (.inr (by decide))
  have hfree : 0 ∈ p.freeBlocks := hstarted.free_of_region smallLowMap_below
    (e := ⟨0, 0x1000, 1⟩) (by simp [smallLowMap]) (by decide) (by decide) (by decide) (by decide)
  refine ⟨lowBoot_holds (by decide), smallLowMap_below, p, hp, ?_, Finset.ne_empty_of_mem hfree,
    fun hkept => hstarted.consistent.zeroKept_iff.mp hkept hfree⟩
  rw [pmmAllocPage, pmmAllocPageInternal_of_firstFree ⟨hfree, fun j _ => Nat.zero_le j⟩]
  rfl

end HolyOs.Mm
