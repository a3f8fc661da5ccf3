import HolyOs.Mm.VmmFree
import HolyOs.Mm.VmmWalk

/-!
# Allocations that fail

`vmm_alloc_page` advances its counter before it knows that the page can be mapped, takes block 0
although the address of that block reads as a failure, and returns the counter although it can be
0. A call that fails otherwise leaves everything as it was.
-/
namespace HolyOs.Mm

open ByteMemory Transition

/-- The next allocation finds a block, and the address of the block is not 0. -/
def Pmm.HasFrame (p : Pmm) : Prop := ∃ block, p.FirstFree block ∧ block % 2 ^ 20 ≠ 0

/-- There is no free block, or there are blocks for the next page and for the table that it needs,
and the counter is not 0. -/
def Vmm.LeavesNoTrace (v : Vmm) : Prop :=
  v.pmm.freeBlocks = ∅ ∨ v.nextVirt ≠ 0 ∧ ∃ block, v.pmm.FirstFree block ∧ block % 2 ^ 20 ≠ 0 ∧
    (v.EntryPresent (pdIndex v.nextVirt) ∨ (v.pmm.take block).HasFrame)

theorem pmmAllocPageAligned_ne_zero_iff {p : Pmm} : (pmmAllocPageAligned p).1 ≠ 0 ↔ p.HasFrame := by
  rcases pmmAllocPageInternal_cases p true with ⟨block, hfirst, hresult⟩ | ⟨hempty, hresult⟩
  · have hzero : Word32.wrap (block * pmmBlockSize) ≠ 0 ↔ block % 2 ^ 20 ≠ 0 := by
      simp only [Word32.wrap, pmmBlockSize]
      omega
    rw [pmmAllocPageAligned, hresult]
    constructor
    · intro hne
      exact ⟨block, hfirst, hzero.mp hne⟩
    · rintro ⟨block', hfirst', hne⟩
      obtain rfl := hfirst.unique hfirst'
      exact hzero.mpr hne
  · rw [pmmAllocPageAligned, hresult]
    refine iff_of_false (fun hne => hne rfl) ?_
    rintro ⟨block, hfirst, -⟩
    have hmem := hfirst.1
    rw [hempty] at hmem
    exact Finset.notMem_empty block hmem

theorem pmmAllocPageAligned_of_first {p : Pmm} {block : Nat} (h : p.FirstFree block) :
    pmmAllocPageAligned p = (Word32.wrap (block * pmmBlockSize), p.take block) :=
  pmmAllocPageInternal_of_firstFree h true

/-- A page can be mapped if its table is there or can be allocated. -/
theorem vmmMapPage_ok_iff (v : Vmm) (virt phys flags : Nat) :
    (vmmMapPage v virt phys flags).1 = true ↔
      v.EntryPresent (pdIndex virt) ∨ v.pmm.HasFrame := by
  rw [vmmMapPage_ok, ← pmmAllocPageAligned_ne_zero_iff, vmmEnsureTable, Vmm.EntryPresent]
  dsimp only
  split_ifs with habsent hnull
  · refine iff_of_false id ?_
    rw [not_or, not_not, not_not]
    exact ⟨habsent, hnull⟩
  · simp [hnull]
  · exact iff_of_true rfl (.inl habsent)

/-- A failing call without a free block. -/
theorem vmmAllocPage_of_empty {v : Vmm} (h : v.pmm.freeBlocks = ∅) (flags : Nat) :
    vmmAllocPage v flags = (0, v) := by
  rw [vmmAllocPage, pmmAllocPageAligned, pmmAllocPageInternal_of_empty h]
  rfl

/-- A call that finds a frame returns the counter or 0, and advances the counter. -/
theorem vmmAllocPage_of_frame {v : Vmm} {block : Nat} (hfirst : v.pmm.FirstFree block)
    (hpos : block % 2 ^ 20 ≠ 0) (flags : Nat) :
    (vmmAllocPage v flags).2.nextVirt = Word32.wrap (v.nextVirt + pageSize) ∧
      (v.EntryPresent (pdIndex v.nextVirt) ∨ (v.pmm.take block).HasFrame →
        (vmmAllocPage v flags).1 = v.nextVirt) ∧
      (¬ (v.EntryPresent (pdIndex v.nextVirt) ∨ (v.pmm.take block).HasFrame) →
        (vmmAllocPage v flags).1 = 0) := by
  have hne : Word32.wrap (block * pmmBlockSize) ≠ 0 := by
    simp only [Word32.wrap, pmmBlockSize]
    omega
  have hok := vmmMapPage_ok_iff { v with
    pmm := v.pmm.take block
    nextVirt := Word32.wrap (v.nextVirt + pageSize) } v.nextVirt
      (Word32.wrap (block * pmmBlockSize)) flags
  have hroom : v.EntryPresent (pdIndex v.nextVirt) ∨ (v.pmm.take block).HasFrame ↔ _ := hok.symm
  rw [hroom, vmmAllocPage, pmmAllocPageAligned_of_first hfirst]
  dsimp only
  rw [if_neg hne]
  split_ifs with hmapped
  · exact ⟨vmmMapPage_nextVirt .., fun _ => rfl, fun hfail => absurd hmapped hfail⟩
  · exact ⟨vmmMapPage_nextVirt .., fun hsuccess => absurd hsuccess hmapped, fun _ => rfl⟩

theorem Word32.wrap_add_pageSize_ne (n : Nat) : Word32.wrap (n + pageSize) ≠ n := by
  simp only [Word32.wrap, pageSize]
  omega

/-- The call that takes block 0 returns what a failing call returns. -/
theorem vmmAllocPage_of_frame_zero {v : Vmm} {block : Nat} (hfirst : v.pmm.FirstFree block)
    (hzero : block % 2 ^ 20 = 0) (flags : Nat) :
    vmmAllocPage v flags = (0, { v with pmm := v.pmm.take block }) := by
  have hnull : Word32.wrap (block * pmmBlockSize) = 0 := by
    simp only [Word32.wrap, pmmBlockSize]
    omega
  rw [vmmAllocPage, pmmAllocPageAligned_of_first hfirst]
  exact if_pos hnull

theorem Pmm.FirstFree.take_ne {p : Pmm} {block : Nat} (h : p.FirstFree block) :
    p.take block ≠ p := by
  intro heq
  have hmark := marked_take p block block
  rw [heq, (mem_freeBlocks.mp h.1).2] at hmark
  simp at hmark

/-- A call fails without a trace exactly where the condition holds. -/
theorem vmmAllocPage_trace_iff (v : Vmm) (flags : Nat) :
    ((vmmAllocPage v flags).1 = 0 → (vmmAllocPage v flags).2 = v) ↔ v.LeavesNoTrace := by
  rcases Finset.eq_empty_or_nonempty v.pmm.freeBlocks with hempty | hfree
  · exact iff_of_true (fun _ => by rw [vmmAllocPage_of_empty hempty]) (.inl hempty)
  · obtain ⟨block, hfirst⟩ := exists_firstFree hfree
    have hcondition : v.LeavesNoTrace ↔ v.nextVirt ≠ 0 ∧ block % 2 ^ 20 ≠ 0 ∧
        (v.EntryPresent (pdIndex v.nextVirt) ∨ (v.pmm.take block).HasFrame) := by
      constructor
      · rintro (hempty | ⟨hnext, block', hfirst', hpos, hroom⟩)
        · exact absurd hempty hfree.ne_empty
        · obtain rfl := hfirst.unique hfirst'
          exact ⟨hnext, hpos, hroom⟩
      · rintro ⟨hnext, hpos, hroom⟩
        exact .inr ⟨hnext, block, hfirst, hpos, hroom⟩
    rw [hcondition]
    by_cases hpos : block % 2 ^ 20 = 0
    · refine iff_of_false (fun htrace => ?_) fun h => h.2.1 hpos
      rw [vmmAllocPage_of_frame_zero hfirst hpos] at htrace
      exact hfirst.take_ne (congrArg Vmm.pmm (htrace rfl))
    · obtain ⟨hnext, hsuccess, hfail⟩ := vmmAllocPage_of_frame hfirst hpos flags
      -- the counter has moved, so no call that returns 0 here leaves the state as it was
      have hmoved : (vmmAllocPage v flags).2 ≠ v := fun heq =>
        Word32.wrap_add_pageSize_ne v.nextVirt (hnext.symm.trans (congrArg Vmm.nextVirt heq))
      have hiff : ((vmmAllocPage v flags).1 = 0 → (vmmAllocPage v flags).2 = v) ↔
          (vmmAllocPage v flags).1 ≠ 0 := by
        simp [hmoved]
      rw [hiff]
      by_cases hroom : v.EntryPresent (pdIndex v.nextVirt) ∨ (v.pmm.take block).HasFrame
      · rw [hsuccess hroom]
        exact ⟨fun hne => ⟨hne, hpos, hroom⟩, fun h => h.1⟩
      · rw [hfail hroom]
        exact iff_of_false (fun hne => hne rfl) fun h => hroom h.2.2

/-- The last free block, and no table for the next page. -/
theorem Vmm.not_leavesNoTrace {v : Vmm} (hlast : v.pmm.freeBlocks.card = 1)
    (habsent : ¬ v.EntryPresent (pdIndex v.nextVirt)) : ¬ v.LeavesNoTrace := by
  rintro (hempty | ⟨-, block, hfirst, -, hpresent | ⟨table, htable, -⟩⟩)
  · simp [hempty] at hlast
  · exact habsent hpresent
  · have hcard := hfirst.card_freeBlocks
    have hpos := Finset.card_pos.mpr ⟨table, htable.1⟩
    omega

/-- After `vmm_init` on three free blocks one block is left, and none for a second table. -/
theorem not_leavesNoTrace_fourBlocks (ram : Memory) :
    ¬ (vmmInit fourBlocks ram).LeavesNoTrace := by
  obtain ⟨root, table, hstart⟩ := exists_vmmStart_of_card fourBlocks_consistent (by decide)
  have hroot := hstart.root_free.card_freeBlocks
  have htable := hstart.table_free.card_freeBlocks
  have hfour : fourBlocks.freeBlocks.card = 3 := by decide
  refine Vmm.not_leavesNoTrace ?_ fun hpresent => ?_
  · rw [vmmInit_eq hstart ram]
    dsimp only
    omega
  · exact hpresent (((vmmInit_shows hstart ram).pde_absent 0xC0000000).mpr rfl)

/-! ## The blocks of a failing call -/

/-- No block is free, or one is and the table that its page needs is missing. -/
def Vmm.OutOfPages (v : Vmm) : Prop :=
  v.pmm.freeBlocks = ∅ ∨
    v.pmm.freeBlocks.card = 1 ∧ 0 ∉ v.pmm.freeBlocks ∧ ¬ v.EntryPresent (pdIndex v.nextVirt)

theorem vmmMapPage_pmm (v : Vmm) (virt phys flags : Nat) : (vmmMapPage v virt phys flags).2.pmm =
    if v.EntryPresent (pdIndex virt) then v.pmm else (pmmAllocPageAligned v.pmm).2 := by
  unfold vmmMapPage vmmEnsureTable Vmm.EntryPresent
  dsimp only
  split_ifs <;> simp_all [vmmSetEntry]

theorem Pmm.Consistent.alloc {p : Pmm} (h : p.Consistent) :
    (pmmAllocPageAligned p).2.Consistent := by
  rcases pmmAllocPageAligned_cases h with ⟨f, -, -, hres⟩ | ⟨-, hres⟩
  · rw [hres]
    exact h.take
  · rw [hres]
    exact h

theorem Pmm.Consistent.free {p : Pmm} (h : p.Consistent) (page : Nat) :
    (pmmFreePage p page).Consistent := by
  by_cases hgive : page / 4096 < p.pmmMaxBlocks ∧ p.marked (page / 4096) = true
  · rw [pmmFreePage_of_marked hgive.1 hgive.2]
    exact h.give
  · rw [pmmFreePage_of_not_marked (by simpa [imp_iff_not_or] using hgive)]
    exact h

theorem vmmAllocPage_consistent {v : Vmm} (h : v.pmm.Consistent) (flags : Nat) :
    (vmmAllocPage v flags).2.pmm.Consistent := by
  have hmapped : ∀ u : Vmm, u.pmm.Consistent → ∀ virt phys,
      (vmmMapPage u virt phys flags).2.pmm.Consistent := by
    intro u hu virt phys
    rw [vmmMapPage_pmm]
    split_ifs
    · exact hu
    · exact hu.alloc
  unfold vmmAllocPage
  dsimp only
  split_ifs
  · exact h.alloc
  · exact hmapped _ h.alloc _ _
  · exact (hmapped _ h.alloc _ _).free _

theorem freeBlocks_alloc_subset {p : Pmm} (h : p.Consistent) :
    (pmmAllocPageAligned p).2.freeBlocks ⊆ p.freeBlocks := by
  rcases pmmAllocPageAligned_cases h with ⟨f, -, -, hres⟩ | ⟨-, hres⟩
  · rw [hres, freeBlocks_take]
    exact Finset.erase_subset f _
  · rw [hres]

/-- The condition, with the block that would be taken. -/
theorem Pmm.FirstFree.outOfPages_iff {v : Vmm} {f : Nat} (hf : v.pmm.FirstFree f) : v.OutOfPages ↔
    f ≠ 0 ∧ (v.pmm.take f).freeBlocks = ∅ ∧ ¬ v.EntryPresent (pdIndex v.nextVirt) := by
  have hne : v.pmm.freeBlocks ≠ ∅ := Finset.ne_empty_of_mem hf.1
  have hcard := hf.card_freeBlocks
  have hzero : 0 ∉ v.pmm.freeBlocks ↔ f ≠ 0 := by
    refine ⟨fun hnot heq => hnot (heq ▸ hf.1), fun hpos hmem => ?_⟩
    have := hf.2 0 hmem
    omega
  have hlast : v.pmm.freeBlocks.card = 1 ↔ (v.pmm.take f).freeBlocks = ∅ := by
    rw [← Finset.card_eq_zero]
    omega
  rw [Vmm.OutOfPages, hzero, hlast]
  grind

/-- A block after the first one has an address other than 0. -/
theorem Pmm.FirstFree.hasFrame_take_iff {p : Pmm} {f : Nat} (hp : p.Consistent)
    (hf : p.FirstFree f) : (p.take f).HasFrame ↔ (p.take f).freeBlocks ≠ ∅ := by
  constructor
  · rintro ⟨t, ht, -⟩
    exact Finset.ne_empty_of_mem ht.1
  · intro hne
    obtain ⟨t, ht⟩ := exists_firstFree (Finset.nonempty_iff_ne_empty.mpr hne)
    have hlater := hf.lt_second ht
    have hlow := (mem_freeBlocks.mp ht.1).1.trans_le hp.take.addressable
    exact ⟨t, ht, by omega⟩

/-- A call fails and takes no block exactly where the condition holds. -/
theorem vmmAllocPage_outOfPages_iff {v : Vmm} (hp : v.pmm.Consistent) (flags : Nat) :
    ((vmmAllocPage v flags).1 = 0 ∧ (vmmAllocPage v flags).2.pmm.freeBlocks = v.pmm.freeBlocks) ↔
      v.OutOfPages := by
  rcases pmmAllocPageAligned_cases hp with ⟨f, hf, hlt, hres⟩ | ⟨hempty, -⟩
  · have hgone : ∀ {blocks : Finset Nat}, f ∉ blocks → blocks ≠ v.pmm.freeBlocks := by
      rintro blocks hnot rfl
      exact hnot hf.1
    have htaken : f ∉ (v.pmm.take f).freeBlocks := by simp [freeBlocks_take]
    rw [hf.outOfPages_iff]
    by_cases hzero : f = 0
    · rw [vmmAllocPage_of_frame_zero hf (by omega)]
      exact iff_of_false (fun h => hgone htaken h.2) fun h => h.1 hzero
    · have hnull : 4096 * f ≠ 0 := by omega
      unfold vmmAllocPage
      rw [hres]
      dsimp only
      rw [if_neg hnull]
      split_ifs with hmapped
      · have hroom := (vmmMapPage_ok_iff _ _ _ _).mp hmapped
        refine iff_of_false (fun h => hgone ?_ h.2) ?_
        · rw [vmmMapPage_pmm]
          split_ifs
          · exact htaken
          · exact fun hmem => htaken (freeBlocks_alloc_subset hp.take hmem)
        · rintro ⟨-, hempty, habsent⟩
          exact (hf.hasFrame_take_iff hp).mp (hroom.resolve_left habsent) hempty
      · obtain ⟨habsent, hnone⟩ := not_or.mp ((vmmMapPage_ok_iff _ _ _ _).not.mp hmapped)
        have hempty := not_not.mp ((hf.hasFrame_take_iff hp).not.mp hnone)
        refine iff_of_true ⟨rfl, ?_⟩ ⟨hzero, hempty, habsent⟩
        rw [vmmMapPage_pmm, if_neg habsent]
        dsimp only
        rw [pmmAllocPageAligned, pmmAllocPageInternal_of_empty hempty, hf.free_take,
          freeBlocks_give hf.inUse.lt, freeBlocks_take, Finset.insert_erase hf.1]
  · rw [vmmAllocPage_of_empty hempty]
    exact iff_of_true ⟨rfl, rfl⟩ (.inl hempty)

/-! ## Between two pages -/

/-- A call between two successful allocations: no allocation, or one that fails under the
condition. -/
def Vmm.QuietStep (v : Vmm) (call : VmmCall) (w : Vmm) : Prop :=
  v.Step call w ∧ ∀ flags, call = .allocPage flags → (vmmAllocPage v flags).1 = 0 ∧ v.LeavesNoTrace

theorem Vmm.QuietStep.nextVirt {v w : Vmm} {call : VmmCall} (h : v.QuietStep call w) :
    w.nextVirt = v.nextVirt := by
  obtain ⟨rfl, hquiet⟩ := h
  cases call with
  | mapPage virt phys flags => exact vmmMapPage_nextVirt v virt phys flags
  | allocPage flags =>
    obtain ⟨hfail, htrace⟩ := hquiet flags rfl
    exact congrArg Vmm.nextVirt ((vmmAllocPage_trace_iff v flags).mpr htrace hfail)
  | freePage virt =>
    simp only [Vmm.call, vmmFreePage]
    split <;> rfl
  | physical op => rfl

/-- A successful call returns the counter. -/
theorem vmmAllocPage_result {v : Vmm} {flags : Nat} (h : (vmmAllocPage v flags).1 ≠ 0) :
    (vmmAllocPage v flags).1 = v.nextVirt ∧
      (vmmAllocPage v flags).2.nextVirt = Word32.wrap (v.nextVirt + pageSize) := by
  rcases vmmAllocPage_counter v flags with ⟨hzero, -⟩ | ⟨-, hnext, hzero | hresult⟩
  · exact absurd hzero h
  · exact absurd hzero h
  · exact ⟨hresult, hnext⟩

/-- A failing `vmm_alloc_page` leaves everything as it was exactly if there is no free block, or
if there are blocks for the page and its table and the counter is not 0. Between two successful
calls with only such failures, the second one returns the address right after the first one's. -/
theorem vmm_alloc_page_no_trace_iff (v : Vmm) (flags : Nat) :
    (((vmmAllocPage v flags).1 = 0 → (vmmAllocPage v flags).2 = v) ↔ v.LeavesNoTrace) ∧
      ((vmmAllocPage v flags).1 ≠ 0 → ∀ calls w,
        Run Vmm.QuietStep (vmmAllocPage v flags).2 calls w →
        ∀ flags', (vmmAllocPage w flags').1 ≠ 0 →
          (vmmAllocPage w flags').1 = Word32.wrap ((vmmAllocPage v flags).1 + pageSize)) := by
  refine ⟨vmmAllocPage_trace_iff v flags, fun hok calls w hrun flags' hok' => ?_⟩
  obtain ⟨hresult, hnext⟩ := vmmAllocPage_result hok
  have hcounter : w.nextVirt = (vmmAllocPage v flags).2.nextVirt :=
    hrun.invariant (I := fun u => u.nextVirt = (vmmAllocPage v flags).2.nextVirt) rfl
      fun _ _ _ hu hstep => hstep.nextVirt.trans hu
  rw [(vmmAllocPage_result hok').1, hcounter, hnext, hresult]

/-- The failing call has advanced the counter. -/
theorem vmm_alloc_page_trace_fourBlocks : ¬ ∀ (v : Vmm) (flags : Nat),
    (vmmAllocPage v flags).1 = 0 → (vmmAllocPage v flags).2 = v := by
  intro hclaim
  exact not_leavesNoTrace_fourBlocks (fun _ => 0) ((vmmAllocPage_trace_iff _ 3).mp (hclaim _ 3))

end HolyOs.Mm
