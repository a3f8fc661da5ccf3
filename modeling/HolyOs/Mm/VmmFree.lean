import HolyOs.Mm.PmmOwnership
import HolyOs.Mm.VmmCounter

/-!
# Freeing a page that is not mapped

`vmm_free_page` checks the directory entry and then frees whatever block the table entry
names, present or not. For a page that is not mapped the translations survive in every state;
the physical manager does only if the named block is free already. An empty entry names
block zero.
-/
namespace HolyOs.Mm

open ByteMemory Transition

/-- A call into the two managers, with any arguments. -/
inductive VmmCall
  | mapPage (virt phys flags : Nat)
  | allocPage (flags : Nat)
  | freePage (virt : Nat)
  | physical (op : PmmOp)

def Vmm.call (v : Vmm) : VmmCall → Vmm
  | .mapPage virt phys flags => (vmmMapPage v virt phys flags).2
  | .allocPage flags => (vmmAllocPage v flags).2
  | .freePage virt => vmmFreePage v virt
  | .physical op => { v with pmm := (op.exec v.pmm).2 }

def Vmm.Step (v : Vmm) (call : VmmCall) (w : Vmm) : Prop := w = v.call call

/-- The block a table entry names, present or not. -/
def Vmm.entryBlock (v : Vmm) (virt : Nat) : Nat := load32 v.mem (v.entryAddr virt) / 4096

/-- Freeing the page changes neither the physical manager nor any translation. -/
structure Vmm.FreeHarmless (v : Vmm) (virt : Nat) : Prop where
  bitmap : (vmmFreePage v virt).pmm.pmmBitmap = v.pmm.pmmBitmap
  used : (vmmFreePage v virt).pmm.pmmUsedBlocks = v.pmm.pmmUsedBlocks
  translations : ∀ addr, (vmmFreePage v virt).translate addr = v.translate addr

/-! ## The directory does not move -/

theorem vmmEnsureTable_currentPageDirectory (v : Vmm) (virt flags : Nat) :
    (vmmEnsureTable v virt flags).2.currentPageDirectory = v.currentPageDirectory := by
  simp only [vmmEnsureTable]
  split
  · split <;> rfl
  · rfl

theorem vmmMapPage_currentPageDirectory (v : Vmm) (virt phys flags : Nat) :
    (vmmMapPage v virt phys flags).2.currentPageDirectory = v.currentPageDirectory := by
  simp only [vmmMapPage]
  split <;> exact vmmEnsureTable_currentPageDirectory v virt flags

theorem vmmAllocPage_currentPageDirectory (v : Vmm) (flags : Nat) :
    (vmmAllocPage v flags).2.currentPageDirectory = v.currentPageDirectory := by
  simp only [vmmAllocPage]
  split
  · rfl
  · split <;> exact vmmMapPage_currentPageDirectory _ _ _ flags

theorem vmmFreePage_currentPageDirectory (v : Vmm) (virt : Nat) :
    (vmmFreePage v virt).currentPageDirectory = v.currentPageDirectory := by
  rw [vmmFreePage]
  split <;> rfl

theorem Vmm.call_currentPageDirectory (v : Vmm) (call : VmmCall) :
    (v.call call).currentPageDirectory = v.currentPageDirectory := by
  cases call with
  | mapPage virt phys flags => exact vmmMapPage_currentPageDirectory v virt phys flags
  | allocPage flags => exact vmmAllocPage_currentPageDirectory v flags
  | freePage virt => exact vmmFreePage_currentPageDirectory v virt
  | physical op => rfl

/-- The directory is at a page boundary in every reachable state. -/
theorem Vmm.directory_aligned {p : Pmm} {mem : Memory} {calls : List VmmCall} {v : Vmm}
    (h : Run Vmm.Step (vmmInit p mem) calls v) : v.currentPageDirectory % 4096 = 0 := by
  refine h.invariant (I := fun v => v.currentPageDirectory % 4096 = 0) ?_ ?_
  · simp only [vmmInit, pmmAllocPageAligned, pmmAllocPageInternal]
    split
    · simp only [Word32.wrap, pmmBlockSize]
      omega
    · rfl
  · rintro v call w haligned rfl
    rwa [Vmm.call_currentPageDirectory]

/-! ## Clearing an entry that is not present -/

theorem load32_clear (m : Memory) {e x : Nat} (he : e % 4 = 0) (hx : x % 4 = 0) :
    load32 (store32 m e 0) x = if x = e then 0 else load32 m x := by
  split
  · subst x
    exact load32_store32_same _ _ (by omega)
  · exact load32_store32_of_disjoint _ _ (by omega)

theorem tableOf_aligned {entry : Nat} (h : entry < 2 ^ 32) : tableOf entry % 4 = 0 := by
  rw [tableOf_eq h]
  omega

/-- The walk ends before it uses an entry that is not present, so clearing one changes no
walk. -/
theorem walk_clear_absent {m : Memory} {e directory : Nat} (he : e % 4 = 0)
    (hdir : directory % 4 = 0) (habsent : load32 m e &&& pagePresent = 0) (virt : Nat) :
    walk (store32 m e 0) directory virt = walk m directory virt := by
  simp only [walk]
  rw [load32_clear m he (show (directory + 4 * pdIndex virt) % 4 = 0 by omega)]
  by_cases hpde : directory + 4 * pdIndex virt = e
  · rw [if_pos hpde, hpde, if_pos habsent]
    simp
  · have htable := tableOf_aligned (load32_lt m (directory + 4 * pdIndex virt))
    rw [if_neg hpde, load32_clear m he (by omega)]
    by_cases hpte : tableOf (load32 m (directory + 4 * pdIndex virt)) + 4 * ptIndex virt = e
    · rw [if_pos hpte, hpte, if_pos habsent]
      simp
    · rw [if_neg hpte]

/-- An address without translation has an absent directory entry or an absent table entry. -/
theorem Vmm.entry_absent {v : Vmm} {virt : Nat} (h : v.translate virt = none)
    (hpresent : v.pde (pdIndex virt) &&& pagePresent ≠ 0) :
    load32 v.mem (v.entryAddr virt) &&& pagePresent = 0 := by
  by_contra hentry
  have hpresent' : ¬ load32 v.mem (v.currentPageDirectory + 4 * pdIndex virt) &&&
      pagePresent = 0 := hpresent
  have hentry' : ¬ load32 v.mem (tableOf (load32 v.mem (v.currentPageDirectory +
      4 * pdIndex virt)) + 4 * ptIndex virt) &&& pagePresent = 0 := hentry
  simp only [Vmm.translate, HolyOs.Mm.translate, walk] at h
  rw [if_neg hpresent', if_neg hentry'] at h
  cases h

/-! ## The result -/

/-- Freeing a page that is not mapped is harmless exactly when the directory entry is absent,
or the block named by the table entry does not exist or is free. -/
theorem Vmm.freeHarmless_iff {v : Vmm} (haligned : v.currentPageDirectory % 4096 = 0) {virt : Nat}
    (hunmapped : v.translate virt = none) :
    v.FreeHarmless virt ↔ v.pde (pdIndex virt) &&& pagePresent = 0 ∨
      v.pmm.pmmMaxBlocks ≤ v.entryBlock virt ∨ v.pmm.marked (v.entryBlock virt) = false := by
  by_cases hpde : v.pde (pdIndex virt) &&& pagePresent = 0
  · have hsame : vmmFreePage v virt = v := if_pos hpde
    refine iff_of_true ⟨?_, ?_, ?_⟩ (.inl hpde) <;> simp [hsame]
  · have hblock : tableOf (load32 v.mem (v.entryAddr virt)) / 4096 = v.entryBlock virt := by
      rw [tableOf_eq (load32_lt _ _), Nat.mul_div_cancel _ (by omega), Vmm.entryBlock]
    have hfree : vmmFreePage v virt =
        { v with
          pmm := pmmFreePage v.pmm (tableOf (load32 v.mem (v.entryAddr virt)))
          mem := store32 v.mem (v.entryAddr virt) 0 } := if_neg hpde
    have hdir : v.currentPageDirectory % 4 = 0 := by omega
    have hentry : v.entryAddr virt % 4 = 0 := by
      have := tableOf_aligned (load32_lt v.mem (v.currentPageDirectory + 4 * pdIndex virt))
      rw [Vmm.entryAddr, Vmm.pde]
      omega
    rw [or_iff_right hpde]
    constructor
    · intro hharmless
      by_contra hused
      obtain ⟨hlt, hmarked⟩ := not_or.mp hused
      rw [Nat.not_le] at hlt
      rw [Bool.not_eq_false] at hmarked
      have hbitmap := hharmless.bitmap
      rw [hfree] at hbitmap
      simp only at hbitmap
      rw [pmmFreePage_of_marked (hblock ▸ hlt) (hblock ▸ hmarked), hblock] at hbitmap
      have hgive := marked_give v.pmm (v.entryBlock virt) (v.entryBlock virt)
      rw [Pmm.marked, hbitmap] at hgive
      rw [Pmm.marked] at hmarked
      simp [hmarked] at hgive
    · intro hunused
      have hpmm : (vmmFreePage v virt).pmm = v.pmm := by
        rw [hfree]
        exact pmmFreePage_of_not_marked (hblock.symm ▸ hunused)
      refine ⟨by rw [hpmm], by rw [hpmm], fun addr => ?_⟩
      rw [hfree]
      exact congrArg (Option.map _)
        (walk_clear_absent hentry hdir (Vmm.entry_absent hunmapped hpde) addr)

namespace VmmClient

variable {p : Pmm} {n : Nat} {s : VmmClient} {a : AddressSpace}

theorem Sound.marked_zero (h : s.Sound p n a) : s.vmm.pmm.marked 0 = true := by
  rw [h.marked]
  rcases h.zero with hzero | hroot
  · exact .inl hzero
  · exact .inr (hroot ▸ .directory)

theorem Sound.entryBlock_unmapped (h : s.Sound p n a) {virt t : Nat} (hvirt : virt < 2 ^ 32)
    (ht : a.tables (pdIndex virt) = some t) (hunmapped : a.frames (virt / 4096) = none) :
    s.vmm.entryBlock virt = 0 := by
  have hpte := h.shows.pte_encodes hvirt ht
  rw [hunmapped] at hpte
  have hentry : load32 s.vmm.mem (4096 * t + 4 * ptIndex virt) = 0 := hpte
  rw [Vmm.entryBlock, h.shows.entryAddr_eq ht, hentry]

/-- As long as clients free only live pages, block zero is in use, and the first free of an
unmapped page with a table releases it. -/
theorem Sound.freeHarmless_iff (h : s.Sound p n a) {virt : Nat} (hvirt : virt < 2 ^ 32)
    (hunmapped : s.vmm.translate virt = none) :
    s.vmm.FreeHarmless virt ↔ s.vmm.pde (pdIndex virt) &&& pagePresent = 0 := by
  have haligned : s.vmm.currentPageDirectory % 4096 = 0 := by
    rw [h.shows.directory]
    omega
  rw [Vmm.freeHarmless_iff haligned hunmapped, or_iff_left_iff_imp, h.shows.pde_absent]
  intro hunused
  cases ht : a.tables (pdIndex virt) with
  | none => rfl
  | some t =>
    rw [h.shows.translate_eq hvirt, Option.map_eq_none_iff] at hunmapped
    rw [h.entryBlock_unmapped hvirt ht hunmapped, h.marked_zero] at hunused
    have hroot := (h.inUse .directory).lt
    rcases hunused with hlimit | hclear
    · omega
    · cases hclear

end VmmClient

/-- In every state reached by any calls of the two managers, freeing a page that is not
mapped is harmless exactly when its directory entry is absent, or the block named by its
table entry does not exist or is free. -/
theorem vmm_free_unmapped_harmless_iff {p : Pmm} {mem : Memory} {calls : List VmmCall} {v : Vmm}
    (hrun : Run Vmm.Step (vmmInit p mem) calls v) {virt : Nat}
    (hunmapped : v.translate virt = none) :
    v.FreeHarmless virt ↔ v.pde (pdIndex virt) &&& pagePresent = 0 ∨
      v.pmm.pmmMaxBlocks ≤ v.entryBlock virt ∨ v.pmm.marked (v.entryBlock virt) = false :=
  Vmm.freeHarmless_iff (Vmm.directory_aligned hrun) hunmapped

/-- The manager of six blocks after its first page was allocated and freed. -/
def sixBlocksReused : Vmm :=
  vmmFreePage (vmmAllocPage (vmmInit sixBlocks fun _ => 0) 3).2 0xC0000000

theorem run_alloc_free (v : Vmm) (flags virt : Nat) : Run Vmm.Step v
    [.allocPage flags, .freePage virt] (vmmFreePage (vmmAllocPage v flags).2 virt) :=
  (Run.single rfl).snoc rfl

theorem sixBlocksReused_run : Run Vmm.Step (vmmInit sixBlocks fun _ => 0)
    [.allocPage 3, .freePage 0xC0000000] sixBlocksReused := by
  rw [sixBlocksReused]
  exact run_alloc_free _ _ _

/-- The page is unmapped, but its table remains. -/
theorem sixBlocksReused_sound : ∃ s a, s.vmm = sixBlocksReused ∧
    VmmClient.Sound sixBlocks 1 s a ∧ a.tables (pdIndex 0xC0000000) ≠ none ∧
      a.frames (0xC0000000 / 4096) = none := by
  obtain ⟨root, table, hstart⟩ := exists_vmmStart_of_card sixBlocks_consistent (by decide)
  obtain ⟨a, hspare⟩ := VmmClient.Spare.first hstart (fun _ => 0) (by decide)
  have hvmm := VmmClient.enter_allocPage (VmmClient.start sixBlocks fun _ => 0) 3
  generalize (VmmClient.start sixBlocks fun _ => 0).enter (.allocPage 3) = s at hspare hvmm
  obtain ⟨f, hf, -, hsound⟩ := hspare.sound.freePage hspare.held
  refine ⟨_, _, congrArg (vmmFreePage · 0xC0000000) hvmm, hsound, ?_, setFrame_frames_same _ _ _⟩
  intro hnone
  rw [hspare.sound.shows.frames_of_no_table (by omega) hnone] at hf
  cases hf

theorem sixBlocksReused_unmapped : sixBlocksReused.translate 0xC0000000 = none := by
  obtain ⟨s, a, hvmm, hsound, -, hframe⟩ := sixBlocksReused_sound
  rw [← hvmm, hsound.shows.translate_eq (by omega), hframe, Option.map_none]

/-- The second free of the page makes physical page zero allocatable. -/
theorem vmm_double_free_sixBlocks : sixBlocksReused.translate 0xC0000000 = none ∧
    pmmIsPageFree sixBlocksReused.pmm 0 = false ∧
    pmmIsPageFree (vmmFreePage sixBlocksReused 0xC0000000).pmm 0 = true := by
  obtain ⟨s, a, hvmm, hsound, htable, hframe⟩ := sixBlocksReused_sound
  have hlt : 0 < s.vmm.pmm.pmmMaxBlocks :=
    lt_of_le_of_lt (Nat.zero_le _) (hsound.inUse .directory).lt
  obtain ⟨b, ho⟩ := vmmFreePage_outcome hsound.shows (show 0xC0000000 < 2 ^ 32 by omega)
  refine ⟨sixBlocksReused_unmapped, ?_, ?_⟩
  · rw [← hvmm, Bool.eq_false_iff, Ne, pmmIsPageFree_iff, mem_freeBlocks]
    rintro ⟨-, -, hclear⟩
    exact Bool.false_ne_true (hclear.symm.trans hsound.marked_zero)
  · rw [← hvmm, pmmIsPageFree_iff]
    generalize vmmFreePage s.vmm 0xC0000000 = w at ho ⊢
    cases ho with
    | noTable hnone => exact absurd hnone htable
    | mapped _ hf => simp [hframe] at hf
    | unmapped _ _ hpmm =>
      have hgive : w.pmm = s.vmm.pmm.give 0 :=
        hpmm.trans (pmmFreePage_of_marked hlt hsound.marked_zero)
      rw [hgive, freeBlocks_give hlt]
      exact ⟨rfl, Finset.mem_insert_self _ _⟩

theorem vmm_free_unmapped_harmless_iff_sixBlocks :
    sixBlocksReused.FreeHarmless 0xC0000000 ↔
      sixBlocksReused.pde (pdIndex 0xC0000000) &&& pagePresent = 0 ∨
      sixBlocksReused.pmm.pmmMaxBlocks ≤ sixBlocksReused.entryBlock 0xC0000000 ∨
      sixBlocksReused.pmm.marked (sixBlocksReused.entryBlock 0xC0000000) = false :=
  vmm_free_unmapped_harmless_iff sixBlocksReused_run sixBlocksReused_unmapped

end HolyOs.Mm
