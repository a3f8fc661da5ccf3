import HolyOs.Mm.AddressSpace

/-!
# Outcomes of the virtual memory operations

Every call of `vmm_alloc_page` and `vmm_free_page` in a state that shows an address space
ends in one of a few ways, each named here together with the new address space. The
histories in later modules split on these outcomes and never unfold the operations.
-/
namespace HolyOs.Mm

open ByteMemory HolyOs.Lib

/-- A block in use by someone: it exists and is marked. -/
structure Pmm.InUse (p : Pmm) (block : Nat) : Prop where
  lt : block < p.pmmMaxBlocks
  marked : p.marked block = true

/-- The directory and all tables are in use. -/
structure Pmm.Backs (p : Pmm) (a : AddressSpace) : Prop where
  consistent : p.Consistent
  root : p.InUse a.root
  table : ∀ {i t}, a.tables i = some t → p.InUse t

theorem Pmm.FirstFree.ne_inUse {p : Pmm} {f b : Nat} (hf : p.FirstFree f) (hb : p.InUse b) :
    f ≠ b := by
  rintro rfl
  have := (mem_freeBlocks.mp hf.1).2
  simp [hb.marked] at this

theorem Pmm.InUse.take {p : Pmm} {b : Nat} (h : p.InUse b) (f : Nat) : (p.take f).InUse b :=
  ⟨h.lt, by simp [marked_take, h.marked]⟩

theorem Pmm.InUse.give {p : Pmm} {b f : Nat} (h : p.InUse b) (hne : b ≠ f) : (p.give f).InUse b :=
  ⟨h.lt, by simp [marked_give, h.marked, hne]⟩

theorem Pmm.FirstFree.inUse {p : Pmm} {f : Nat} (h : p.FirstFree f) : (p.take f).InUse f :=
  ⟨(mem_freeBlocks.mp h.1).1, by simp [marked_take]⟩

/-- A block that was just taken is given back. -/
theorem Pmm.FirstFree.free_take {p : Pmm} {f : Nat} (h : p.FirstFree f) :
    pmmFreePage (p.take f) (4096 * f) = (p.take f).give f := by
  have hinUse := h.inUse
  rw [pmmFreePage_of_marked] <;> rw [Nat.mul_div_cancel_left f (by omega)]
  · exact hinUse.lt
  · exact hinUse.marked

theorem Pmm.Backs.take {p : Pmm} {a : AddressSpace} (h : p.Backs a) (f : Nat) :
    (p.take f).Backs a :=
  ⟨h.consistent.take, h.root.take f, fun ht => (h.table ht).take f⟩

/-- The next free block after the first is a later one. -/
theorem Pmm.FirstFree.lt_second {p : Pmm} {f t : Nat} (hf : p.FirstFree f)
    (ht : (p.take f).FirstFree t) : f < t := by
  have hmem := ht.1
  rw [freeBlocks_take] at hmem
  exact lt_of_le_of_ne (hf.2 t (Finset.mem_of_mem_erase hmem))
    (Finset.ne_of_mem_erase hmem).symm

theorem Pmm.FirstFree.card_freeBlocks {p : Pmm} {f : Nat} (hf : p.FirstFree f) :
    p.freeBlocks.card = (p.take f).freeBlocks.card + 1 := by
  rw [freeBlocks_take, Finset.card_erase_add_one hf.1]

/-- A page allocation of the physical manager, with addresses as multiples of 4096. -/
theorem pmmAllocPageAligned_cases {p : Pmm} (h : p.Consistent) :
    (∃ f, p.FirstFree f ∧ f < 2 ^ 20 ∧ pmmAllocPageAligned p = (4096 * f, p.take f)) ∨
    (p.freeBlocks = ∅ ∧ pmmAllocPageAligned p = (0, p)) := by
  rcases pmmAllocPageInternal_cases p true with ⟨f, hf, hres⟩ | hnone
  · have hlt := (mem_freeBlocks.mp hf.1).1
    rw [h.wrap_block hlt, Nat.mul_comm] at hres
    exact .inl ⟨f, hf, hlt.trans_le h.addressable, hres⟩
  · exact .inr hnone

theorem pmmAllocPageAligned_of_firstFree {p : Pmm} (h : p.Consistent) {f : Nat}
    (hf : p.FirstFree f) : pmmAllocPageAligned p = (4096 * f, p.take f) := by
  rcases pmmAllocPageAligned_cases h with ⟨g, hg, -, hres⟩ | ⟨hnone, -⟩
  · rw [hf.unique hg, hres]
  · have := hf.1
    simp [hnone] at this

/-! ## Initialization -/

/-- The address space `vmm_init` sets up: the first 1024 pages are mapped to themselves. -/
def AddressSpace.initial (root table : Nat) : AddressSpace where
  root := root
  tables i := if i = 0 then some table else none
  frames n := if n < 1024 then some n else none

/-- The entries `vmm_init` writes have both flag bits. -/
theorem encodes_init (block : Nat) :
    Encodes (4096 * block ||| pagePresent ||| pageWrite) (some block) := by
  have hcomm : 4096 * block ||| pagePresent ||| pageWrite =
      4096 * block ||| pageWrite ||| pagePresent := by
    rw [Nat.or_assoc, Nat.or_comm pagePresent, ← Nat.or_assoc]
  rw [hcomm]
  exact encodes_entry (by simp)

theorem init_lt {block : Nat} (h : block < 2 ^ 20) :
    4096 * block ||| pagePresent ||| pageWrite < 2 ^ 32 :=
  Nat.or_lt_two_pow (Nat.or_lt_two_pow (by omega) (by simp)) (by simp)

/-- `vmm_init` when both of its page allocations find a block. -/
structure VmmStart (p : Pmm) (root table : Nat) : Prop where
  consistent : p.Consistent
  root_free : p.FirstFree root
  table_free : (p.take root).FirstFree table

section Init

variable {p : Pmm} {root table : Nat}

theorem VmmStart.root_lt_table (h : VmmStart p root table) : root < table :=
  h.root_free.lt_second h.table_free

theorem VmmStart.table_lt (h : VmmStart p root table) : table < 2 ^ 20 :=
  (mem_freeBlocks.mp h.table_free.1).1.trans_le h.consistent.addressable

/-- Success as the code sees it: both calls return non-null. -/
theorem exists_vmmStart (hp : p.Consistent) (hroot : (pmmAllocPageAligned p).1 ≠ 0)
    (htable : (pmmAllocPageAligned (pmmAllocPageAligned p).2).1 ≠ 0) :
    ∃ root table, VmmStart p root table := by
  rcases pmmAllocPageAligned_cases hp with ⟨r, hr, -, hres⟩ | ⟨-, hres⟩
  · rw [hres] at hroot htable
    rcases pmmAllocPageAligned_cases (p := p.take r) hp.take with ⟨t, ht, -, -⟩ | ⟨-, hres'⟩
    · exact ⟨r, t, hp, hr, ht⟩
    · simp [hres'] at htable
  · simp [hres] at hroot

/-- Two free blocks are enough. -/
theorem exists_vmmStart_of_card (hp : p.Consistent) (h : 2 ≤ p.freeBlocks.card) :
    ∃ root table, VmmStart p root table := by
  have hfree : 0 < p.freeBlocks.card := by omega
  obtain ⟨r, hr⟩ := exists_firstFree (Finset.card_pos.mp hfree)
  have hcard : 0 < (p.take r).freeBlocks.card := by
    rw [freeBlocks_take, Finset.card_erase_of_mem hr.1]
    omega
  obtain ⟨t, ht⟩ := exists_firstFree (Finset.card_pos.mp hcard)
  exact ⟨r, t, hp, hr, ht⟩

variable (h : VmmStart p root table) (mem : Memory)
include h

/-- The memory `vmm_init` leaves, with the allocations resolved. -/
theorem vmmInit_eq : vmmInit p mem =
    { pmm := (p.take root).take table
      mem := store32 (storeWords (memset (memset mem (4096 * root) 0 pageSize) (4096 * table) 0
        pageSize) (4096 * table)
          (fun i => Word32.wrap (i * pageSize) ||| pagePresent ||| pageWrite) 1024)
        (4096 * root) (4096 * table ||| pagePresent ||| pageWrite)
      currentPageDirectory := 4096 * root
      nextVirt := 0xC0000000 } := by
  rw [vmmInit, pmmAllocPageAligned_of_firstFree h.consistent h.root_free,
    pmmAllocPageAligned_of_firstFree h.consistent.take h.table_free]

theorem vmmInit_shows : (vmmInit p mem).Shows (.initial root table) := by
  have hlt := h.root_lt_table
  have htable := h.table_lt
  have hroot : root < 2 ^ 20 := hlt.trans htable
  rw [vmmInit_eq h mem]
  exact {
    directory := rfl
    root_lt := hroot
    table_lt := by
      intro i t ht
      simp only [AddressSpace.initial, Option.ite_none_right_eq_some, Option.some.injEq] at ht
      omega
    table_ne_root := by
      intro i t ht
      simp only [AddressSpace.initial, Option.ite_none_right_eq_some, Option.some.injEq] at ht
      simp only [AddressSpace.initial]
      omega
    table_inj := by
      intro i j t hi hj
      simp only [AddressSpace.initial, Option.ite_none_right_eq_some, Option.some.injEq] at hi hj
      omega
    pde := by
      intro i hi
      simp only [AddressSpace.initial]
      by_cases hz : i = 0
      · subst hz
        rw [if_pos rfl, Nat.mul_zero, Nat.add_zero, load32_store32_same _ _ (init_lt htable)]
        exact encodes_init table
      · have hne : root ≠ table := by omega
        have hwords := word_outside hne.symm hi
        rw [if_neg hz, load32_store32_of_disjoint _ _ (by omega),
          load32_congr (sameOn_storeWords _ _ (by omega)), load32_zeroed_other htable hne.symm hi,
          load32_zeroed hroot hi]
        rfl
    pte := by
      intro i hi t ht j hj
      simp only [AddressSpace.initial, Option.ite_none_right_eq_some, Option.some.injEq] at ht ⊢
      obtain ⟨rfl, rfl⟩ := ht
      have hne : root ≠ table := by omega
      have hwords := word_outside hne hj
      have hentry : Word32.wrap (j * pageSize) = 4096 * j := by
        rw [pageSize, Nat.mul_comm]
        exact Word32.wrap_of_lt (by omega)
      rw [load32_store32_of_disjoint _ _ (by omega), load32_storeWords _ _ hj
        (by rw [hentry]; exact init_lt (by omega)), hentry, if_pos (by omega), Nat.mul_zero,
        Nat.zero_add]
      exact encodes_init j
    unmapped := by
      intro i hi ht j hj
      simp only [AddressSpace.initial, ite_eq_right_iff, reduceCtorEq, imp_false] at ht ⊢
      omega }

theorem vmmInit_backs : (vmmInit p mem).pmm.Backs (.initial root table) := by
  have hlt := h.root_lt_table
  rw [vmmInit_eq h mem]
  exact {
    consistent := h.consistent.take.take
    root := h.root_free.inUse.take table
    table := by
      intro i t ht
      simp only [AddressSpace.initial, Option.ite_none_right_eq_some, Option.some.injEq] at ht
      obtain ⟨-, rfl⟩ := ht
      exact h.table_free.inUse }

end Init

/-! ## Mapping a page -/

section Map

variable {v : Vmm} {a : AddressSpace}

theorem vmmEnsureTable_of_table (h : v.Shows a) {virt t : Nat}
    (ht : a.tables (pdIndex virt) = some t) (flags : Nat) :
    vmmEnsureTable v virt flags = (true, v) := by
  have hpresent : ¬ v.pde (pdIndex virt) &&& pagePresent = 0 := by
    rw [h.pde_absent, ht]
    simp
  rw [vmmEnsureTable, if_neg hpresent]

theorem vmmEnsureTable_of_exhausted (h : v.Shows a) {virt : Nat}
    (hnone : a.tables (pdIndex virt) = none) (hempty : v.pmm.freeBlocks = ∅) (flags : Nat) :
    vmmEnsureTable v virt flags = (false, v) := by
  rw [vmmEnsureTable, if_pos ((h.pde_absent virt).mpr hnone), pmmAllocPageAligned,
    pmmAllocPageInternal_of_empty hempty]
  simp

theorem vmmEnsureTable_of_firstFree (h : v.Shows a) (hb : v.pmm.Backs a) {virt t : Nat}
    (hnone : a.tables (pdIndex virt) = none) (ht : v.pmm.FirstFree t) (hpos : t ≠ 0)
    {flags : Nat} (hflags : flags < 4096) :
    ∃ w, vmmEnsureTable v virt flags = (true, w) ∧ w.pmm = v.pmm.take t ∧
      w.nextVirt = v.nextVirt ∧ w.Shows (a.setTable (pdIndex virt) t) := by
  have hlt : t < 2 ^ 20 := (mem_freeBlocks.mp ht.1).1.trans_le hb.consistent.addressable
  rw [vmmEnsureTable, if_pos ((h.pde_absent virt).mpr hnone),
    pmmAllocPageAligned_of_firstFree hb.consistent ht, if_neg (by omega)]
  have hfresh : ∀ i, a.tables i ≠ some t := fun i hi => ht.ne_inUse (hb.table hi) rfl
  refine ⟨_, rfl, rfl, rfl, ?_⟩
  apply h.install (pdIndex_lt virt) hnone hlt (ht.ne_inUse hb.root) hfresh
    (encodes_entry hflags) (entry_lt hlt hflags)
  · rfl
  · rw [h.directory]

theorem Vmm.Shows.setEntry (h : v.Shows a) {virt t block flags : Nat} (hvirt : virt < 2 ^ 32)
    (ht : a.tables (pdIndex virt) = some t) (hblock : block < 2 ^ 20) (hflags : flags < 4096) :
    (vmmSetEntry v virt (4096 * block) flags).Shows (a.setFrame (virt / 4096) (some block)) :=
  h.write hvirt ht (encodes_entry hflags) (entry_lt hblock hflags) rfl
    (by rw [vmmSetEntry, h.entryAddr_eq ht])

end Map

/-! ## Allocation -/

/-- How `vmm_alloc_page` can end: its result, the new state and the new address space. -/
inductive AllocOutcome (v : Vmm) (a : AddressSpace) : Nat → Vmm → AddressSpace → Prop
  /-- There is no free block. -/
  | exhausted : v.pmm.freeBlocks = ∅ → AllocOutcome v a 0 v a
  /-- Block zero is taken, and its address reads as a failure. -/
  | blockZero : v.pmm.FirstFree 0 → AllocOutcome v a 0 { v with pmm := v.pmm.take 0 } a
  /-- The frame goes into a table that exists. -/
  | mapped {f t : Nat} {w : Vmm} :
      v.pmm.FirstFree f → f ≠ 0 → a.tables (pdIndex v.nextVirt) = some t →
      w.pmm = v.pmm.take f → w.nextVirt = Word32.wrap (v.nextVirt + pageSize) →
      w.Shows (a.setFrame (v.nextVirt / 4096) (some f)) →
      AllocOutcome v a v.nextVirt w (a.setFrame (v.nextVirt / 4096) (some f))
  /-- A table is missing and there is no block for it: the frame is given back. -/
  | noTable {f : Nat} {w : Vmm} :
      v.pmm.FirstFree f → f ≠ 0 → a.tables (pdIndex v.nextVirt) = none →
      (v.pmm.take f).freeBlocks = ∅ →
      w.pmm = (v.pmm.take f).give f → w.nextVirt = Word32.wrap (v.nextVirt + pageSize) →
      w.Shows a → AllocOutcome v a 0 w a
  /-- A table is missing and the next free block becomes it. -/
  | newTable {f t : Nat} {w : Vmm} :
      v.pmm.FirstFree f → f ≠ 0 → a.tables (pdIndex v.nextVirt) = none →
      (v.pmm.take f).FirstFree t →
      w.pmm = (v.pmm.take f).take t → w.nextVirt = Word32.wrap (v.nextVirt + pageSize) →
      w.Shows ((a.setTable (pdIndex v.nextVirt) t).setFrame (v.nextVirt / 4096) (some f)) →
      AllocOutcome v a v.nextVirt w
        ((a.setTable (pdIndex v.nextVirt) t).setFrame (v.nextVirt / 4096) (some f))

section Outcomes

variable {v : Vmm} {a : AddressSpace}

theorem vmmAllocPage_outcome (h : v.Shows a) (hb : v.pmm.Backs a) (hvirt : v.nextVirt < 2 ^ 32)
    {flags : Nat} (hflags : flags < 4096) :
    ∃ b, AllocOutcome v a (vmmAllocPage v flags).1 (vmmAllocPage v flags).2 b := by
  rcases pmmAllocPageAligned_cases hb.consistent with ⟨f, hf, hlt, hres⟩ | ⟨hempty, hres⟩
  · by_cases hzero : f = 0
    · subst hzero
      rw [vmmAllocPage, hres]
      exact ⟨a, .blockZero hf⟩
    · have hne : 4096 * f ≠ 0 := by omega
      rw [vmmAllocPage, hres]
      simp only [if_neg hne]
      generalize hx : ({ v with
        pmm := v.pmm.take f
        nextVirt := Word32.wrap (v.nextVirt + pageSize) } : Vmm) = x
      have hshows : x.Shows a := h.congr (by rw [← hx]) (by rw [← hx])
      have hpmm : x.pmm = v.pmm.take f := by rw [← hx]
      have hnext : x.nextVirt = Word32.wrap (v.nextVirt + pageSize) := by rw [← hx]
      have hbacks : x.pmm.Backs a := hpmm ▸ hb.take f
      cases ht : a.tables (pdIndex v.nextVirt) with
      | some t =>
        rw [vmmMapPage, vmmEnsureTable_of_table hshows ht]
        exact ⟨_, .mapped hf hzero ht hpmm hnext (hshows.setEntry hvirt ht hlt hflags)⟩
      | none =>
        rcases Finset.eq_empty_or_nonempty (v.pmm.take f).freeBlocks with hempty | hfree
        · rw [vmmMapPage, vmmEnsureTable_of_exhausted hshows ht (hpmm ▸ hempty)]
          have hused : pmmFreePage x.pmm (4096 * f) = (v.pmm.take f).give f := by
            rw [hpmm, hf.free_take]
          exact ⟨a, .noTable hf hzero ht hempty hused hnext (hshows.congr rfl rfl)⟩
        · obtain ⟨t, htfree⟩ := exists_firstFree hfree
          have hlater := hf.lt_second htfree
          obtain ⟨w, hensure, hwpmm, hwnext, hw⟩ := vmmEnsureTable_of_firstFree hshows hbacks ht
            (hpmm ▸ htfree) (by omega) hflags
          rw [vmmMapPage, hensure]
          have hinstalled : (a.setTable (pdIndex v.nextVirt) t).tables (pdIndex v.nextVirt) =
              some t := by simp [setTable_tables]
          exact ⟨_, .newTable hf hzero ht htfree (hwpmm.trans (by rw [hpmm]))
            (hwnext.trans hnext) (hw.setEntry hvirt hinstalled hlt hflags)⟩
  · rw [vmmAllocPage, hres]
    exact ⟨a, .exhausted hempty⟩

/-! ## Freeing -/

/-- How `vmm_free_page` can end: the new state and the new address space. -/
inductive FreeOutcome (v : Vmm) (a : AddressSpace) (virt : Nat) : Vmm → AddressSpace → Prop
  /-- The directory has no table for the page. -/
  | noTable : a.tables (pdIndex virt) = none → FreeOutcome v a virt v a
  /-- The table entry is empty, and the block freed is block zero. -/
  | unmapped {t : Nat} {w : Vmm} :
      a.tables (pdIndex virt) = some t → a.frames (virt / 4096) = none →
      w.pmm = pmmFreePage v.pmm 0 → w.nextVirt = v.nextVirt → w.Shows a →
      FreeOutcome v a virt w a
  /-- The page is mapped. -/
  | mapped {t f : Nat} {w : Vmm} :
      a.tables (pdIndex virt) = some t → a.frames (virt / 4096) = some f →
      w.pmm = pmmFreePage v.pmm (4096 * f) → w.nextVirt = v.nextVirt →
      w.Shows (a.setFrame (virt / 4096) none) →
      FreeOutcome v a virt w (a.setFrame (virt / 4096) none)

theorem setFrame_none {page : Nat} (h : a.frames page = none) : a.setFrame page none = a := by
  rw [AddressSpace.setFrame, Function.update_eq_self_iff.mpr h.symm]

theorem vmmFreePage_outcome (h : v.Shows a) {virt : Nat} (hvirt : virt < 2 ^ 32) :
    ∃ b, FreeOutcome v a virt (vmmFreePage v virt) b := by
  cases ht : a.tables (pdIndex virt) with
  | none =>
    rw [vmmFreePage, if_pos ((h.pde_absent virt).mpr ht)]
    exact ⟨a, .noTable ht⟩
  | some t =>
    have hpresent : ¬ v.pde (pdIndex virt) &&& pagePresent = 0 := by
      rw [h.pde_absent, ht]
      simp
    have hpte := h.pte_encodes hvirt ht
    have hfree : vmmFreePage v virt =
        { v with
          pmm := pmmFreePage v.pmm (tableOf (load32 v.mem (4096 * t + 4 * ptIndex virt)))
          mem := store32 v.mem (4096 * t + 4 * ptIndex virt) 0 } := by
      rw [vmmFreePage, if_neg hpresent, h.entryAddr_eq ht]
      rfl
    have hempty : Encodes 0 none := rfl
    have hshows : (vmmFreePage v virt).Shows (a.setFrame (virt / 4096) none) :=
      h.write hvirt ht hempty (by omega) (by rw [hfree]) (by rw [hfree])
    cases hf : a.frames (virt / 4096) with
    | none =>
      rw [hf] at hpte
      have hphys : load32 v.mem (4096 * t + 4 * ptIndex virt) = 0 := hpte
      refine ⟨a, .unmapped ht hf ?_ (by rw [hfree]) (setFrame_none hf ▸ hshows)⟩
      rw [hfree, hphys, tableOf, Nat.zero_and]
    | some f =>
      rw [hf] at hpte
      refine ⟨_, .mapped ht hf ?_ (by rw [hfree]) hshows⟩
      rw [hfree, hpte.tableOf (load32_lt _ _)]

end Outcomes

/-! ## The counter -/

theorem vmmMapPage_nextVirt (v : Vmm) (virt phys flags : Nat) :
    (vmmMapPage v virt phys flags).2.nextVirt = v.nextVirt := by
  have htable : (vmmEnsureTable v virt flags).2.nextVirt = v.nextVirt := by
    unfold vmmEnsureTable
    dsimp only
    split_ifs <;> rfl
  unfold vmmMapPage
  dsimp only
  split_ifs
  · exact htable
  · exact htable

/-- How `vmm_alloc_page` uses the counter: not at all, and it returns 0, or it advances it where
there is a free block, and it returns 0 or the counter. -/
theorem vmmAllocPage_counter (v : Vmm) (flags : Nat) :
    (vmmAllocPage v flags).1 = 0 ∧ (vmmAllocPage v flags).2.nextVirt = v.nextVirt ∨
      v.pmm.freeBlocks ≠ ∅ ∧
        (vmmAllocPage v flags).2.nextVirt = Word32.wrap (v.nextVirt + 4096) ∧
        ((vmmAllocPage v flags).1 = 0 ∨ (vmmAllocPage v flags).1 = v.nextVirt) := by
  unfold vmmAllocPage
  dsimp only
  split_ifs with hnull hmapped
  · exact .inl ⟨rfl, rfl⟩
  · exact .inr ⟨fun hempty => hnull (by rw [pmmAllocPageAligned,
      pmmAllocPageInternal_of_empty hempty]), vmmMapPage_nextVirt .., .inr rfl⟩
  · exact .inr ⟨fun hempty => hnull (by rw [pmmAllocPageAligned,
      pmmAllocPageInternal_of_empty hempty]), vmmMapPage_nextVirt .., .inl rfl⟩

end HolyOs.Mm
