import HolyOs.Mm.VmmClient

/-!
# The address counter

`vmm_alloc_page` takes its addresses from a 32-bit counter that starts at 3 GiB and advances
with every call that finds a free block. Its results are fresh until the counter has gone
through the last gigabyte; the next call maps page zero and later ones return addresses
in the identity-mapped area. Every manager with enough blocks gets there.
-/
namespace HolyOs.Mm

open ByteMemory Transition

namespace VmmClient

/-- What an allocation promises: its result is a fresh page of the last gigabyte, and the
first 4 MiB stay mapped to themselves. -/
structure FreshResult (s : VmmClient) (flags : Nat) : Prop where
  aligned : (vmmAllocPage s.vmm flags).1 ≠ 0 → (vmmAllocPage s.vmm flags).1 % pageSize = 0
  high : (vmmAllocPage s.vmm flags).1 ≠ 0 → 0xC0000000 ≤ (vmmAllocPage s.vmm flags).1
  unmapped : (vmmAllocPage s.vmm flags).1 ≠ 0 → (vmmAllocPage s.vmm flags).1 ∉ s.live ∧
    s.vmm.translate (vmmAllocPage s.vmm flags).1 = none
  identity : ∀ addr < 0x400000, (vmmAllocPage s.vmm flags).2.translate addr = some addr

/-- The counter has not wrapped, or there is no free block and it is not used. -/
def CounterRoom (s : VmmClient) : VmmOp → Prop
  | .allocPage _ => s.vmm.pmm.freeBlocks ≠ ∅ → 0xC0000000 ≤ s.vmm.nextVirt
  | .freePage _ => True

def CounterStep (s : VmmClient) (op : VmmOp) (t : VmmClient) : Prop :=
  s.CounterRoom op ∧ s.Step op t

variable {p : Pmm} {n : Nat} {s : VmmClient} {a : AddressSpace}

theorem Sound.counter_lt (h : s.Sound p n a) (hhigh : 0xC0000000 ≤ s.vmm.nextVirt) :
    n < 2 ^ 18 := by
  have hissued := h.issued
  rw [h.counter, Word32.wrap] at hhigh
  omega

theorem Sound.of_counter_run {root table : Nat} (h : VmmStart p root table) {mem : Memory}
    {ops : List VmmOp} (hrun : Run CounterStep (start p mem) ops s) : ∃ n a, s.Sound p n a := by
  refine hrun.invariant (I := fun s => ∃ n a, s.Sound p n a) ⟨0, _, h.sound mem⟩ ?_
  rintro t op u ⟨n, a, hsound⟩ ⟨hroom, hstep⟩
  obtain ⟨m, b, hsound', -⟩ := hsound.step hstep fun flags hop hfree =>
    hsound.counter_lt (by subst hop; exact hroom hfree)
  exact ⟨m, b, hsound'⟩

theorem Sound.identity (h : s.Sound p n a) {addr : Nat} (haddr : addr < 0x400000) :
    s.vmm.translate addr = some addr := by
  rw [h.shows.translate_eq (by omega), h.layout.identity _ (by omega), Option.map_some,
    Nat.div_add_mod]

/-- A result other than 0 is the counter. -/
theorem AllocOutcome.result_eq {v w : Vmm} {a b : AddressSpace} {r : Nat}
    (h : AllocOutcome v a r w b) (hne : r ≠ 0) : r = v.nextVirt := by
  cases h with
  | exhausted => exact absurd rfl hne
  | blockZero => exact absurd rfl hne
  | mapped => rfl
  | noTable => exact absurd rfl hne
  | newTable => rfl

/-- Before the counter wraps, results are fresh. -/
theorem Sound.freshResult (h : s.Sound p n a) {flags : Nat} (hflags : flags < pageSize)
    (hroom : s.CounterRoom (.allocPage flags)) : s.FreshResult flags := by
  have hcounter : s.vmm.pmm.freeBlocks ≠ ∅ → n < 2 ^ 18 := fun hfree =>
    h.counter_lt (hroom hfree)
  obtain ⟨b, ho⟩ := vmmAllocPage_outcome h.shows h.backs h.nextVirt_lt hflags
  have hresult : (vmmAllocPage s.vmm flags).1 ≠ 0 → n < 2 ^ 18 ∧
      (vmmAllocPage s.vmm flags).1 = 4096 * (firstPage + n) := by
    intro hne
    have hn : n < 2 ^ 18 := by
      apply hcounter
      rintro hempty
      rw [vmmAllocPage, pmmAllocPageAligned, pmmAllocPageInternal_of_empty hempty] at hne
      exact hne rfl
    exact ⟨hn, (AllocOutcome.result_eq ho hne).trans (h.nextVirt_eq hn)⟩
  exact {
    aligned := by
      intro hne
      rw [(hresult hne).2, pageSize]
      omega
    high := by
      intro hne
      rw [(hresult hne).2, firstPage]
      omega
    unmapped := by
      intro hne
      obtain ⟨hn, heq⟩ := hresult hne
      have hpage : 4096 * (firstPage + n) / 4096 = firstPage + n :=
        Nat.mul_div_cancel_left _ (by omega)
      rw [heq, h.live, h.shows.translate_eq (by simp only [firstPage]; omega), hpage,
        h.nextPage_unmapped]
      simp
    identity := fun addr haddr => (h.alloc hcounter ho).identity haddr }

/-- Once the counter has wrapped, the next block goes to page zero. -/
theorem Sound.wrapped (h : s.Sound p (2 ^ 18) a) {flags : Nat} (hflags : flags < pageSize)
    (hfree : s.vmm.pmm.freeBlocks ≠ ∅) : ∃ f w, s.vmm.pmm.FirstFree f ∧ f ≠ 0 ∧
      vmmAllocPage s.vmm flags = (0, w) ∧ w.pmm = s.vmm.pmm.take f ∧ w.nextVirt = 4096 ∧
      w.Shows (a.setFrame 0 (some f)) := by
  have hzero : s.vmm.nextVirt = 0 := h.counter
  have htables : a.tables (pdIndex s.vmm.nextVirt) ≠ none := by
    rw [hzero]
    exact h.layout.lowTable
  obtain ⟨b, ho⟩ := vmmAllocPage_outcome h.shows h.backs h.nextVirt_lt hflags
  generalize hr : vmmAllocPage s.vmm flags = r at ho ⊢
  obtain ⟨r, w⟩ := r
  cases ho with
  | exhausted hempty => exact absurd hempty hfree
  | blockZero hf => exact absurd rfl (h.free hf.1).2.2
  | noTable _ _ hnone => exact absurd hnone htables
  | newTable _ _ hnone => exact absurd hnone htables
  | @mapped f t _ hf hpos ht hpmm hnext hshows =>
    rw [hzero] at hnext hshows
    exact ⟨f, w, hf, hpos, congrArg (·, w) hzero, hpmm, hnext, hshows⟩

end VmmClient

/-- In a history of allocations with flags below the page size that all found the counter at
or above 3 GiB or no free block, the next allocation keeps its promise exactly when it does
so, too. -/
theorem vmm_alloc_fresh_iff {p : Pmm} (hp : p.Consistent) (hfree : 2 ≤ p.freeBlocks.card)
    {mem : Memory} {ops : List VmmOp} {s : VmmClient}
    (hrun : Run VmmClient.CounterStep (.start p mem) ops s) {flags : Nat}
    (hflags : flags < pageSize) : s.FreshResult flags ↔ s.CounterRoom (.allocPage flags) := by
  obtain ⟨root, table, hstart⟩ := exists_vmmStart_of_card hp hfree
  obtain ⟨n, a, hsound⟩ := VmmClient.Sound.of_counter_run hstart hrun
  refine ⟨fun hfresh hblocks => ?_, hsound.freshResult hflags⟩
  by_contra hlow
  have hn : n = 2 ^ 18 := by
    by_contra hne
    have hissued := hsound.issued
    rw [hsound.nextVirt_eq (by omega), firstPage] at hlow
    omega
  subst hn
  obtain ⟨f, w, -, hpos, hres, -, -, hshows⟩ := hsound.wrapped hflags hblocks
  have hidentity := hfresh.identity 0 (by omega)
  rw [hres, hshows.translate_eq (by omega), setFrame_frames, if_pos (by omega),
    Option.map_some, Option.some.injEq] at hidentity
  omega

theorem vmm_alloc_fresh_iff_sixBlocks :
    (VmmClient.start sixBlocks fun _ => 0).FreshResult 3 ↔
      (VmmClient.start sixBlocks fun _ => 0).CounterRoom (.allocPage 3) :=
  vmm_alloc_fresh_iff sixBlocks_consistent (by decide) .nil (by simp)

/-! ## Reaching the wrap -/

namespace VmmClient

variable {p : Pmm} {n : Nat} {s : VmmClient} {a : AddressSpace}

/-- The frame of an allocated page is not block zero. -/
theorem Sound.frame_ne_zero (h : s.Sound p n a) {page f : Nat} (hpage : firstPage ≤ page)
    (hf : a.frames page = some f) : f ≠ 0 := by
  rintro rfl
  rcases h.zero with hmarked | hroot
  · have := (mem_freeBlocks.mp (h.layout.owned (.frame hpage hf))).2
    simp [hmarked] at this
  · exact h.layout.frame_ne_root hpage hf hroot.symm

/-- A reachable state in which `n` addresses have been used, the first of them is live, and a
block is free. -/
structure Spare (p : Pmm) (mem : Memory) (n : Nat) (s : VmmClient) (a : AddressSpace) : Prop where
  reached : ∃ ops, Run Step (start p mem) ops s
  sound : s.Sound p n a
  held : 0xC0000000 ∈ s.live
  free : s.vmm.pmm.freeBlocks ≠ ∅

variable {mem : Memory}

theorem give_freeBlocks_ne_empty {q : Pmm} {f : Nat} (hlt : f < q.pmmMaxBlocks) :
    (q.give f).freeBlocks ≠ ∅ := by
  rw [freeBlocks_give hlt]
  exact Finset.insert_ne_empty _ _

/-- An allocation that finds a block and still fails gives the block back. -/
theorem Sound.failed_free (h : s.Sound p n a) (hn : n < 2 ^ 18) {r : Nat} {w : Vmm}
    {b : AddressSpace} (ho : AllocOutcome s.vmm a r w b) (hr : r = 0)
    (hfree : s.vmm.pmm.freeBlocks ≠ ∅) : w.pmm.freeBlocks ≠ ∅ := by
  cases ho with
  | exhausted => exact hfree
  | blockZero hf => exact absurd rfl (h.free hf.1).2.2
  | mapped => exact absurd hr (h.nextVirt_pos hn)
  | newTable => exact absurd hr (h.nextVirt_pos hn)
  | noTable hf _ _ _ hpmm =>
    rw [hpmm]
    exact give_freeBlocks_ne_empty (mem_freeBlocks.mp hf.1).1

theorem step_allocPage (s : VmmClient) {flags : Nat} (hflags : flags < pageSize) :
    s.Step (.allocPage flags) ⟨(vmmAllocPage s.vmm flags).2, if (vmmAllocPage s.vmm flags).1 = 0
      then s.live else insert (vmmAllocPage s.vmm flags).1 s.live⟩ := ⟨hflags, rfl⟩

theorem step_freePage {s : VmmClient} {virt : Nat} (hlive : virt ∈ s.live) :
    s.Step (.freePage virt) ⟨vmmFreePage s.vmm virt, s.live.erase virt⟩ := ⟨hlive, rfl⟩

/-- The first allocation succeeds and leaves a spare block if five were free. -/
theorem Spare.first {root table : Nat} (h : VmmStart p root table) (mem : Memory)
    (hcard : 5 ≤ p.freeBlocks.card) :
    ∃ a, Spare p mem 1 ((start p mem).enter (.allocPage 3)) a := by
  have hsound := h.sound mem
  have hpmm : (start p mem).vmm.pmm = (p.take root).take table := by
    rw [start, vmmInit_eq h]
  have hthree : 3 ≤ (start p mem).vmm.pmm.freeBlocks.card := by
    have hroot := h.root_free.card_freeBlocks
    have htable := h.table_free.card_freeBlocks
    rw [hpmm]
    omega
  have hfree : (start p mem).vmm.pmm.freeBlocks ≠ ∅ := by
    rintro hempty
    simp [hempty] at hthree
  obtain ⟨b, ho⟩ :=
    vmmAllocPage_outcome hsound.shows hsound.backs hsound.nextVirt_lt (show 3 < 4096 by omega)
  have hnext := hsound.nextVirt_eq (by omega)
  have hrun := Run.single ((start p mem).step_allocPage (show 3 < pageSize by simp))
  have hsound' := hsound.alloc (fun _ => by omega) ho
  rw [taken, if_neg hfree] at hsound'
  simp only [enter]
  generalize (vmmAllocPage (start p mem).vmm 3).1 = r at ho hrun hsound' ⊢
  generalize (vmmAllocPage (start p mem).vmm 3).2 = w at ho hrun hsound' ⊢
  have hpos := hsound.nextVirt_pos (by omega)
  cases ho with
  | exhausted hempty => exact absurd hempty hfree
  | blockZero hf => exact absurd rfl (hsound.free hf.1).2.2
  | noTable hf _ _ hempty =>
    rw [hf.card_freeBlocks, hempty, Finset.card_empty] at hthree
    omega
  | mapped hf _ _ hpmm =>
    rw [if_neg hpos] at hrun hsound' ⊢
    refine ⟨_, ⟨_, hrun⟩, hsound', Finset.mem_insert.mpr (.inl hnext.symm), ?_⟩
    rintro hempty
    rw [hf.card_freeBlocks, ← hpmm, hempty, Finset.card_empty] at hthree
    omega
  | newTable hf _ _ ht hpmm =>
    rw [if_neg hpos] at hrun hsound' ⊢
    refine ⟨_, ⟨_, hrun⟩, hsound', Finset.mem_insert.mpr (.inl hnext.symm), ?_⟩
    rintro hempty
    rw [hf.card_freeBlocks, ht.card_freeBlocks, ← hpmm, hempty, Finset.card_empty] at hthree
    omega

/-- An allocation, followed by a free if it succeeded, uses one more address. -/
theorem Spare.next (h : Spare p mem n s a) (hn : n < 2 ^ 18) :
    ∃ t b, Spare p mem (n + 1) t b := by
  obtain ⟨ops, hrun⟩ := h.reached
  obtain ⟨b, ho⟩ :=
    vmmAllocPage_outcome h.sound.shows h.sound.backs h.sound.nextVirt_lt (show 3 < 4096 by omega)
  have hsound := h.sound.alloc (fun _ => hn) ho
  have hrun' := hrun.snoc (s.step_allocPage (show 3 < pageSize by simp))
  rw [taken, if_neg h.free] at hsound
  by_cases hres : (vmmAllocPage s.vmm 3).1 = 0
  · rw [if_pos hres] at hsound hrun'
    exact ⟨_, b, ⟨_, hrun'⟩, hsound, h.held, h.sound.failed_free hn ho hres h.free⟩
  · rw [if_neg hres] at hsound hrun'
    have hother : 0xC0000000 ≠ (vmmAllocPage s.vmm 3).1 := by
      have hheld := ((h.sound.live _).mp h.held).2.2
      rw [AllocOutcome.result_eq ho hres, h.sound.nextVirt_eq hn]
      rintro heq
      rw [heq, Nat.mul_div_cancel_left _ (by omega), h.sound.nextPage_unmapped] at hheld
      exact hheld rfl
    have hlive : (vmmAllocPage s.vmm 3).1 ∈ insert (vmmAllocPage s.vmm 3).1 s.live :=
      Finset.mem_insert_self _ _
    obtain ⟨f, hf, hgive, hsound'⟩ := hsound.freePage hlive
    obtain ⟨-, g, hg, hinUse⟩ := hsound.mapped hlive
    obtain rfl := Option.some.inj (hf.symm.trans hg)
    have hfree : ((vmmAllocPage s.vmm 3).2.pmm.give f).freeBlocks ≠ ∅ :=
      give_freeBlocks_ne_empty hinUse.lt
    have hheld : 0xC0000000 ∈ (insert (vmmAllocPage s.vmm 3).1 s.live).erase
        (vmmAllocPage s.vmm 3).1 :=
      Finset.mem_erase.mpr ⟨hother, Finset.mem_insert_of_mem h.held⟩
    exact ⟨_, _, ⟨_, hrun'.snoc (step_freePage hlive)⟩, hsound', hheld, by rwa [hgive]⟩

/-- Every count up to the wrap is reached. -/
theorem exists_spare {root table : Nat} (h : VmmStart p root table) (mem : Memory)
    (hcard : 5 ≤ p.freeBlocks.card) (n : Nat) (hn : n < 2 ^ 18) :
    ∃ s a, Spare p mem (n + 1) s a := by
  induction n with
  | zero => exact ⟨_, Spare.first h mem hcard⟩
  | succ n ih =>
    obtain ⟨s, a, hs⟩ := ih (by omega)
    exact hs.next hn

/-- After page zero was mapped to the block `f`, the free of the held page gives its frame back. -/
theorem Spare.release (h : Spare p mem n s a) {f : Nat} {w : Vmm}
    (hwpmm : w.pmm = s.vmm.pmm.take f) (hw : w.Shows (a.setFrame 0 (some f))) :
    ∃ g, a.frames (0xC0000000 / 4096) = some g ∧ s.vmm.pmm.InUse g ∧
      (vmmFreePage w 0xC0000000).pmm = (s.vmm.pmm.take f).give g ∧
      (vmmFreePage w 0xC0000000).nextVirt = w.nextVirt ∧
      (vmmFreePage w 0xC0000000).Shows
        ((a.setFrame 0 (some f)).setFrame (0xC0000000 / 4096) none) := by
  obtain ⟨hpage, g, hg, hgUse⟩ := h.sound.mapped h.held
  have hg' : (a.setFrame 0 (some f)).frames (0xC0000000 / 4096) = some g := by
    rw [setFrame_frames, if_neg (by omega), hg]
  obtain ⟨c, hc⟩ := vmmFreePage_outcome hw hpage
  generalize vmmFreePage w 0xC0000000 = u at hc ⊢
  cases hc with
  | noTable ht => simp [hw.frames_of_no_table hpage ht] at hg'
  | unmapped ht hnone => simp [hnone] at hg'
  | @mapped t g' _ ht hgw hupmm hunext hushows =>
    obtain rfl := Option.some.inj (hg'.symm.trans hgw)
    refine ⟨g, hg, hgUse, ?_, hunext, hushows⟩
    rw [hupmm, hwpmm, pmmFreePage_of_marked] <;> rw [Nat.mul_div_cancel_left g (by omega)]
    · exact (hgUse.take f).lt
    · exact (hgUse.take f).marked

/-- With the counter wrapped, page zero is remapped, and once the held page was freed an
allocation returns the second page of the identity-mapped area. -/
theorem Spare.wrapped (h : Spare p mem (2 ^ 18) s a) : ∃ ops t,
    Run Step (start p mem) ops t ∧ t.vmm.translate 0 ≠ some 0 ∧
      (vmmAllocPage t.vmm 3).1 = 4096 := by
  obtain ⟨ops, hrun⟩ := h.reached
  have hflags : 3 < pageSize := by simp
  obtain ⟨f, w, hf, hfpos, hres, hwpmm, hwnext, hw⟩ := h.sound.wrapped hflags h.free
  have hrun₁ := hrun.snoc (s.step_allocPage hflags)
  rw [hres, if_pos rfl] at hrun₁
  have hrun₂ := hrun₁.snoc (step_freePage h.held)
  obtain ⟨g, hg, hgUse, hgive, hunext, hushows⟩ := h.release hwpmm hw
  generalize vmmFreePage w 0xC0000000 = u at hgive hunext hushows hrun₂
  have hgfirst : firstPage ≤ 0xC0000000 / 4096 := by simp
  have hback : ∀ {b}, a.Owns b → b ≠ g → u.pmm.InUse b := by
    intro b hb hne
    rw [hgive]
    exact ((h.sound.inUse hb).take f).give hne
  have hbacks : u.pmm.Backs ((a.setFrame 0 (some f)).setFrame (0xC0000000 / 4096) none) := {
    consistent := by rw [hgive]; exact h.sound.consistent.take.give
    root := hback .directory (h.sound.layout.frame_ne_root hgfirst hg).symm
    table := by
      intro i t ht
      refine hback (.table ht) ?_
      rintro rfl
      exact h.sound.layout.frame_ne_table hgfirst hg ht }
  have hfreeBlocks : u.pmm.freeBlocks = insert g (s.vmm.pmm.freeBlocks.erase f) := by
    rw [hgive, freeBlocks_give (hgUse.take f).lt, freeBlocks_take]
  have hzero : ¬ u.pmm.FirstFree 0 := by
    intro hfirst
    have hmem := hfirst.1
    rw [hfreeBlocks] at hmem
    rcases Finset.mem_insert.mp hmem with heq | hmem
    · exact h.sound.frame_ne_zero hgfirst hg heq.symm
    · exact (h.sound.free (Finset.mem_of_mem_erase hmem)).2.2 rfl
  have htables : ((a.setFrame 0 (some f)).setFrame (0xC0000000 / 4096) none).tables
      (pdIndex u.nextVirt) ≠ none := by
    rw [hunext, hwnext]
    exact h.sound.layout.lowTable
  refine ⟨_, _, hrun₂, ?_, ?_⟩
  · rw [hushows.translate_eq (by omega), setFrame_frames, if_neg (by omega), setFrame_frames,
      if_pos (by omega), Option.map_some, Ne, Option.some.injEq]
    omega
  · obtain ⟨b, ho⟩ := vmmAllocPage_outcome hushows hbacks (by omega) hflags
    generalize hr : vmmAllocPage u 3 = r at ho ⊢
    obtain ⟨r, x⟩ := r
    cases ho with
    | exhausted hempty => simp [hfreeBlocks] at hempty
    | blockZero hfirst => exact absurd hfirst hzero
    | noTable _ _ hnone => exact absurd hnone htables
    | newTable _ _ hnone => exact absurd hnone htables
    | mapped => exact hunext.trans hwnext

end VmmClient

/-- On a manager of six blocks with five free, allocating and freeing long enough reaches a
state in which the identity mapping is broken and a successful allocation returns 0x1000. -/
theorem vmm_alloc_not_fresh_sixBlocks : ∃ ops s,
    Run VmmClient.Step (.start sixBlocks fun _ => 0) ops s ∧ s.vmm.translate 0 ≠ some 0 ∧
      (vmmAllocPage s.vmm 3).1 = 0x1000 := by
  have hcard : 5 ≤ sixBlocks.freeBlocks.card := by decide
  obtain ⟨root, table, hstart⟩ := exists_vmmStart_of_card sixBlocks_consistent (by omega)
  obtain ⟨s, a, hspare⟩ := VmmClient.exists_spare hstart (fun _ => 0) hcard (2 ^ 18 - 1) (by omega)
  exact hspare.wrapped

end HolyOs.Mm
