import HolyOs.Mm.VmmClient

/-!
# One mapping

What a call of `vmm_map_page` does to the walks of all addresses, for any directory whose present
entries lead to tables of their own. The absent entries, and the entries of the tables, may hold
anything.

## Main definitions

* `DistinctTables`: the present entries of the directory lead to distinct tables outside of it.
* `NewFrame`: what the next allocation returns is none of these.
-/
namespace HolyOs.Mm

open ByteMemory HolyOs.Lib

/-- Entry `index` of the directory is present. -/
def Vmm.EntryPresent (v : Vmm) (index : Nat) : Prop := v.pde index &&& pagePresent ≠ 0

instance (v : Vmm) (index : Nat) : Decidable (v.EntryPresent index) :=
  inferInstanceAs (Decidable (_ ≠ _))

/-- The page at `frame` has no byte in common with the directory. -/
def Vmm.OffDirectory (v : Vmm) (frame : Nat) : Prop :=
  frame + pageSize ≤ v.currentPageDirectory ∨ v.currentPageDirectory + pageSize ≤ frame

structure DistinctTables (v : Vmm) : Prop where
  off : ∀ i < 1024, v.EntryPresent i → v.OffDirectory (tableOf (v.pde i))
  inj : ∀ i < 1024, ∀ j < 1024, v.EntryPresent i → v.EntryPresent j →
    tableOf (v.pde i) = tableOf (v.pde j) → i = j

/-- The next allocation returns 0, or a frame other than the directory and the tables. -/
def NewFrame (v : Vmm) : Prop :=
  (pmmAllocPageAligned v.pmm).1 = 0 ∨ v.OffDirectory (pmmAllocPageAligned v.pmm).1 ∧
    ∀ i < 1024, v.EntryPresent i → tableOf (v.pde i) ≠ (pmmAllocPageAligned v.pmm).1

/-- The walk of an address from the current directory. -/
def Vmm.walk (v : Vmm) (virt : Nat) : Option Nat :=
  HolyOs.Mm.walk v.mem v.currentPageDirectory virt

section Pages

theorem tableOf_mod {entry : Nat} (h : entry < 2 ^ 32) : tableOf entry % 4096 = 0 := by
  rw [tableOf_eq h]
  omega

/-- An allocation returns a page. -/
theorem pmmAllocPageAligned_page (p : Pmm) : (pmmAllocPageAligned p).1 % 4096 = 0 ∧
    (pmmAllocPageAligned p).1 + 4096 ≤ 2 ^ 32 := by
  rcases pmmAllocPageInternal_cases p true with ⟨block, -, hresult⟩ | ⟨-, hresult⟩
  · rw [pmmAllocPageAligned, hresult]
    simp only [Word32.wrap, pmmBlockSize]
    omega
  · rw [pmmAllocPageAligned, hresult]
    omega

/-- The entry for a page and flags below the page size. -/
theorem entry_of_page {page flags : Nat} (hpage : page % 4096 = 0) (hflags : flags < 4096) :
    page ||| flags ||| pagePresent = page + (flags ||| pagePresent) := by
  have hblock : 4096 * (page / 4096) = page := by omega
  rw [← hblock]
  exact entry_eq hflags

theorem flags_or_present_lt {flags : Nat} (hflags : flags < 4096) : flags ||| pagePresent < 4096 :=
  Nat.or_lt_two_pow (n := 12) hflags (by decide)

theorem entry_of_page_lt {page flags : Nat} (hpage : page % 4096 = 0) (hle : page + 4096 ≤ 2 ^ 32)
    (hflags : flags < 4096) : page ||| flags ||| pagePresent < 2 ^ 32 := by
  have hbits := flags_or_present_lt hflags
  rw [entry_of_page hpage hflags]
  omega

theorem tableOf_entry {page flags : Nat} (hpage : page % 4096 = 0) (hle : page + 4096 ≤ 2 ^ 32)
    (hflags : flags < 4096) : tableOf (page ||| flags ||| pagePresent) = page := by
  have hbits := flags_or_present_lt hflags
  rw [tableOf_eq (entry_of_page_lt hpage hle hflags), entry_of_page hpage hflags]
  omega

theorem entry_present (page flags : Nat) :
    (page ||| flags ||| pagePresent) &&& pagePresent ≠ 0 := by
  rw [pagePresent, Word32.or_one_and_one]
  decide

end Pages

section Walks

variable {v w : Vmm} {virt : Nat}

theorem Vmm.walk_of_no_table (h : ¬ v.EntryPresent (pdIndex virt)) : v.walk virt = none :=
  if_pos (not_not.mp h)

theorem Vmm.walk_of_table (h : v.EntryPresent (pdIndex virt)) : v.walk virt =
    if load32 v.mem (v.entryAddr virt) &&& pagePresent = 0 then none
    else some (load32 v.mem (v.entryAddr virt)) :=
  if_neg h

/-- A walk depends on the directory entry and, if it is present, on the table entry. -/
theorem Vmm.walk_congr (hpde : w.pde (pdIndex virt) = v.pde (pdIndex virt))
    (hpte : v.EntryPresent (pdIndex virt) →
      load32 w.mem (v.entryAddr virt) = load32 v.mem (v.entryAddr virt)) :
    w.walk virt = v.walk virt := by
  by_cases htable : v.EntryPresent (pdIndex virt)
  · have htable' : w.EntryPresent (pdIndex virt) := by rwa [Vmm.EntryPresent, hpde]
    have haddr : w.entryAddr virt = v.entryAddr virt := by rw [Vmm.entryAddr, Vmm.entryAddr, hpde]
    rw [walk_of_table htable, walk_of_table htable', haddr, hpte htable]
  · have htable' : ¬ w.EntryPresent (pdIndex virt) := by rwa [Vmm.EntryPresent, hpde]
    rw [walk_of_no_table htable, walk_of_no_table htable']

/-! ## The new table -/

/-- The state once a zeroed page is the table at `index`. -/
structure Installed (v w : Vmm) (index table flags : Nat) : Prop where
  directory : w.currentPageDirectory = v.currentPageDirectory
  mem : w.mem = store32 (memset v.mem table 0 pageSize) (v.currentPageDirectory + 4 * index)
    (table ||| flags ||| pagePresent)
  absent : ¬ v.EntryPresent index
  page : table % 4096 = 0
  le : table + pageSize ≤ 2 ^ 32
  off : v.OffDirectory table
  fresh : ∀ i < 1024, v.EntryPresent i → tableOf (v.pde i) ≠ table

variable {index table flags : Nat}

/-- A word outside the new table and outside the new entry. -/
theorem Installed.load32_outside (h : Installed v w index table flags) {addr : Nat}
    (htable : addr + 4 ≤ table ∨ table + 4096 ≤ addr)
    (hentry : addr + 4 ≤ v.currentPageDirectory + 4 * index ∨
      v.currentPageDirectory + 4 * index + 4 ≤ addr) :
    load32 w.mem addr = load32 v.mem addr := by
  rw [h.mem, load32_store32_of_disjoint _ _ hentry]
  refine load32_congr fun x hlo hhi => ?_
  rw [memset_apply _ _ h.le, if_neg]
  simp only [pageSize]
  omega

theorem Installed.pde_same (h : Installed v w index table flags) (hflags : flags < 4096) :
    w.pde index = table ||| flags ||| pagePresent := by
  rw [Vmm.pde, h.directory, h.mem, load32_store32_same _ _ (entry_of_page_lt h.page h.le hflags)]

theorem Installed.pde_other (h : Installed v w index table flags) {i : Nat} (hi : i < 1024)
    (hne : i ≠ index) : w.pde i = v.pde i := by
  have hoff := h.off
  simp only [Vmm.OffDirectory, pageSize] at hoff
  rw [Vmm.pde, h.directory, h.load32_outside (by omega) (by omega), Vmm.pde]

/-- No entry of the new table is present. -/
theorem Installed.load32_table (h : Installed v w index table flags) (hindex : index < 1024)
    {i : Nat} (hi : i < 1024) : load32 w.mem (table + 4 * i) = 0 := by
  have hoff := h.off
  simp only [Vmm.OffDirectory, pageSize] at hoff
  rw [h.mem, load32_store32_of_disjoint _ _ (by omega)]
  refine load32_zero fun x hlo hhi => ?_
  rw [memset_apply _ _ h.le, if_pos]
  simp only [pageSize]
  omega

theorem Installed.entryPresent_iff (h : Installed v w index table flags) (hflags : flags < 4096)
    {i : Nat} (hi : i < 1024) : w.EntryPresent i ↔ i = index ∨ v.EntryPresent i := by
  by_cases hne : i = index
  · subst hne
    rw [Vmm.EntryPresent, h.pde_same hflags]
    exact iff_of_true (entry_present table flags) (.inl rfl)
  · rw [Vmm.EntryPresent, h.pde_other hi hne]
    simp [hne, Vmm.EntryPresent]

theorem Installed.distinctTables (h : Installed v w index table flags) (hflags : flags < 4096)
    (hv : DistinctTables v) : DistinctTables w := by
  have hsame : tableOf (w.pde index) = table := by
    rw [h.pde_same hflags, tableOf_entry h.page h.le hflags]
  refine ⟨fun i hi htable => ?_, fun i hi j hj htable htable' heq => ?_⟩
  · rw [Vmm.OffDirectory, h.directory]
    by_cases hne : i = index
    · subst hne
      rw [hsame]
      exact h.off
    · rw [h.pde_other hi hne]
      exact hv.off i hi (((h.entryPresent_iff hflags hi).mp htable).resolve_left hne)
  · by_cases hne : i = index <;> by_cases hne' : j = index
    · exact hne.trans hne'.symm
    · have hold := ((h.entryPresent_iff hflags hj).mp htable').resolve_left hne'
      rw [hne, hsame, h.pde_other hj hne'] at heq
      exact absurd heq.symm (h.fresh j hj hold)
    · have hold := ((h.entryPresent_iff hflags hi).mp htable).resolve_left hne
      rw [hne', hsame, h.pde_other hi hne] at heq
      exact absurd heq (h.fresh i hi hold)
    · rw [h.pde_other hi hne, h.pde_other hj hne'] at heq
      exact hv.inj i hi j hj (((h.entryPresent_iff hflags hi).mp htable).resolve_left hne)
        (((h.entryPresent_iff hflags hj).mp htable').resolve_left hne') heq

/-- The new table changes no walk. -/
theorem Installed.walk_eq (h : Installed v w index table flags) (hindex : index < 1024)
    (hflags : flags < 4096) (hv : DistinctTables v) (virt : Nat) : w.walk virt = v.walk virt := by
  have hpt := ptIndex_lt virt
  by_cases hne : pdIndex virt = index
  · have hnone : ¬ v.EntryPresent (pdIndex virt) := hne ▸ h.absent
    have htable : w.EntryPresent (pdIndex virt) :=
      (h.entryPresent_iff hflags (pdIndex_lt virt)).mpr (.inl hne)
    have haddr : w.entryAddr virt = table + 4 * ptIndex virt := by
      rw [Vmm.entryAddr, hne, h.pde_same hflags, tableOf_entry h.page h.le hflags]
    rw [Vmm.walk_of_no_table hnone, Vmm.walk_of_table htable, haddr, h.load32_table hindex hpt]
    exact if_pos (by decide)
  · refine Vmm.walk_congr (h.pde_other (pdIndex_lt virt) hne) fun htable => ?_
    -- the table of `virt` is another page than the new one, and not the directory
    have hoff := hv.off _ (pdIndex_lt virt) htable
    have hfresh := h.fresh _ (pdIndex_lt virt) htable
    have hmod := tableOf_mod (load32_lt v.mem (v.currentPageDirectory + 4 * pdIndex virt))
    have hpage := h.page
    simp only [Vmm.OffDirectory, Vmm.pde, pageSize] at hoff hfresh
    exact h.load32_outside (by simp only [Vmm.entryAddr, Vmm.pde]; omega)
      (by simp only [Vmm.entryAddr, Vmm.pde]; omega)

/-! ## The entry of the page -/

theorem vmmSetEntry_pde (hv : DistinctTables v) (htable : v.EntryPresent (pdIndex virt))
    (phys flags : Nat) {i : Nat} (hi : i < 1024) :
    (vmmSetEntry v virt phys flags).pde i = v.pde i := by
  have hoff := hv.off _ (pdIndex_lt virt) htable
  have hpt := ptIndex_lt virt
  simp only [Vmm.OffDirectory, pageSize] at hoff
  have hsame : (vmmSetEntry v virt phys flags).currentPageDirectory = v.currentPageDirectory := rfl
  refine load32_store32_of_disjoint _ _ ?_
  simp only [Vmm.entryAddr]
  omega

/-- The walk of the page ends at the entry that was written. -/
theorem vmmSetEntry_walk_same (hv : DistinctTables v) (htable : v.EntryPresent (pdIndex virt))
    {phys : Nat} (hlt : phys ||| flags ||| pagePresent < 2 ^ 32) :
    (vmmSetEntry v virt phys flags).walk virt = some (phys ||| flags ||| pagePresent) := by
  have hpde := vmmSetEntry_pde hv htable phys flags (pdIndex_lt virt)
  have htable' : (vmmSetEntry v virt phys flags).EntryPresent (pdIndex virt) := by
    rwa [Vmm.EntryPresent, hpde]
  have hentry : load32 (vmmSetEntry v virt phys flags).mem
      ((vmmSetEntry v virt phys flags).entryAddr virt) = phys ||| flags ||| pagePresent := by
    rw [Vmm.entryAddr, hpde]
    exact load32_store32_same _ _ hlt
  rw [Vmm.walk_of_table htable', hentry, if_neg (entry_present phys flags)]

/-- The walks of the other pages are as before. -/
theorem vmmSetEntry_walk_other (hv : DistinctTables v) (htable : v.EntryPresent (pdIndex virt))
    (phys flags : Nat) (hvirt : virt < 2 ^ 32) {other : Nat} (hother : other < 2 ^ 32)
    (hne : other / 4096 ≠ virt / 4096) :
    (vmmSetEntry v virt phys flags).walk other = v.walk other := by
  refine Vmm.walk_congr (vmmSetEntry_pde hv htable phys flags (pdIndex_lt other)) fun htable' => ?_
  refine load32_store32_of_disjoint _ _ ?_
  have hpt := ptIndex_lt virt
  have hpt' := ptIndex_lt other
  have hmod := tableOf_mod (load32_lt v.mem (v.currentPageDirectory + 4 * pdIndex virt))
  have hmod' := tableOf_mod (load32_lt v.mem (v.currentPageDirectory + 4 * pdIndex other))
  rw [← pageNumber_eq hvirt, ← pageNumber_eq hother] at hne
  by_cases hpd : pdIndex other = pdIndex virt
  · rw [Vmm.entryAddr, Vmm.entryAddr, hpd]
    rw [hpd] at hne
    omega
  · have hdistinct : tableOf (v.pde (pdIndex other)) ≠ tableOf (v.pde (pdIndex virt)) := fun heq =>
      hpd (hv.inj _ (pdIndex_lt other) _ (pdIndex_lt virt) htable' htable heq)
    simp only [Vmm.entryAddr, Vmm.pde] at hdistinct ⊢
    omega

end Walks

/-! ## The call -/

section Call

variable {v : Vmm} {virt phys flags : Nat}

/-- The call that finds a frame for a missing table. -/
theorem vmmEnsureTable_installed (hnew : NewFrame v) (habsent : ¬ v.EntryPresent (pdIndex virt))
    (hframe : (pmmAllocPageAligned v.pmm).1 ≠ 0) :
    Installed v (vmmEnsureTable v virt flags).2 (pdIndex virt) (pmmAllocPageAligned v.pmm).1
      flags := by
  obtain ⟨hoff, hfresh⟩ := hnew.resolve_left hframe
  obtain ⟨hpage, hle⟩ := pmmAllocPageAligned_page v.pmm
  have hpde : v.pde (pdIndex virt) &&& pagePresent = 0 := not_not.mp habsent
  simp only [vmmEnsureTable, hpde, hframe, if_true, if_false]
  exact ⟨rfl, rfl, habsent, hpage, hle, hoff, hfresh⟩

/-- How a call makes sure that there is a table: there is one, there is no frame for one, or a new
one is installed. -/
theorem vmmEnsureTable_cases (hnew : NewFrame v) (virt flags : Nat) :
    (v.EntryPresent (pdIndex virt) ∧ vmmEnsureTable v virt flags = (true, v)) ∨
    (¬ v.EntryPresent (pdIndex virt) ∧ vmmEnsureTable v virt flags =
      (false, { v with pmm := (pmmAllocPageAligned v.pmm).2 })) ∨
    ((vmmEnsureTable v virt flags).1 = true ∧ Installed v (vmmEnsureTable v virt flags).2
      (pdIndex virt) (pmmAllocPageAligned v.pmm).1 flags) := by
  by_cases hpresent : v.EntryPresent (pdIndex virt)
  · exact .inl ⟨hpresent, if_neg hpresent⟩
  · have hpde : v.pde (pdIndex virt) &&& pagePresent = 0 := not_not.mp hpresent
    by_cases hframe : (pmmAllocPageAligned v.pmm).1 = 0
    · refine .inr (.inl ⟨hpresent, ?_⟩)
      simp only [vmmEnsureTable, hpde, hframe, if_true]
    · refine .inr (.inr ⟨?_, vmmEnsureTable_installed hnew hpresent hframe⟩)
      simp only [vmmEnsureTable, hpde, hframe, if_true, if_false]

/-- Making sure that there is a table changes no walk and no entry that is present. If it succeeds
there is a table. -/
theorem vmmEnsureTable_walks (hv : DistinctTables v) (hnew : NewFrame v) (virt : Nat)
    (hflags : flags < 4096) :
    (∀ other, (vmmEnsureTable v virt flags).2.walk other = v.walk other) ∧
      (∀ i < 1024, v.EntryPresent i → (vmmEnsureTable v virt flags).2.pde i = v.pde i) ∧
      ((vmmEnsureTable v virt flags).1 = true → DistinctTables (vmmEnsureTable v virt flags).2 ∧
        (vmmEnsureTable v virt flags).2.EntryPresent (pdIndex virt)) := by
  rcases vmmEnsureTable_cases hnew virt flags with
    ⟨hpresent, hcall⟩ | ⟨-, hcall⟩ | ⟨-, hinstalled⟩
  · rw [hcall]
    exact ⟨fun _ => rfl, fun _ _ _ => rfl, fun _ => ⟨hv, hpresent⟩⟩
  · rw [hcall]
    exact ⟨fun _ => rfl, fun _ _ _ => rfl, fun hok => absurd hok Bool.false_ne_true⟩
  · refine ⟨hinstalled.walk_eq (pdIndex_lt virt) hflags hv, fun i hi hpresent => ?_, fun _ =>
      ⟨hinstalled.distinctTables hflags hv,
        (hinstalled.entryPresent_iff hflags (pdIndex_lt virt)).mpr (.inl rfl)⟩⟩
    refine hinstalled.pde_other hi ?_
    rintro rfl
    exact hinstalled.absent hpresent

theorem vmmMapPage_of_ok (hok : (vmmEnsureTable v virt flags).1 = true) (phys : Nat) :
    vmmMapPage v virt phys flags =
      (true, vmmSetEntry (vmmEnsureTable v virt flags).2 virt phys flags) := if_pos hok

theorem vmmMapPage_of_not_ok (hok : (vmmEnsureTable v virt flags).1 = false) (phys : Nat) :
    vmmMapPage v virt phys flags = (false, (vmmEnsureTable v virt flags).2) :=
  if_neg (by simp [hok])

theorem vmmMapPage_ok (v : Vmm) (virt phys flags : Nat) :
    (vmmMapPage v virt phys flags).1 = (vmmEnsureTable v virt flags).1 := by
  cases hok : (vmmEnsureTable v virt flags).1 with
  | false => rw [vmmMapPage_of_not_ok hok]
  | true => rw [vmmMapPage_of_ok hok]

end Call

/-- A successful `vmm_map_page` changes one walk: the page is mapped to the frame with the flags,
and every address of another page is walked as before, through the same directory entry. A call
that fails changes no walk. -/
theorem vmm_map_page_one_walk {v : Vmm} {virt phys flags : Nat} (hv : DistinctTables v)
    (hnew : NewFrame v) (hvirt : virt < 2 ^ 32) (hphys : phys < 2 ^ 32)
    (haligned : phys % pageSize = 0) (hflags : flags < pageSize) :
    ((vmmMapPage v virt phys flags).1 = true →
      (∃ pte, (vmmMapPage v virt phys flags).2.walk virt = some pte ∧ tableOf pte = phys ∧
        pte % pageSize = flags ||| pagePresent) ∧
      ∀ other < 2 ^ 32, other / pageSize ≠ virt / pageSize →
        (vmmMapPage v virt phys flags).2.walk other = v.walk other ∧
        (v.EntryPresent (pdIndex other) →
          (vmmMapPage v virt phys flags).2.pde (pdIndex other) = v.pde (pdIndex other))) ∧
    ((vmmMapPage v virt phys flags).1 = false →
      ∀ other, (vmmMapPage v virt phys flags).2.walk other = v.walk other) := by
  simp only [pageSize] at haligned hflags ⊢
  obtain ⟨hwalks, hpdes, htable⟩ := vmmEnsureTable_walks hv hnew virt hflags
  cases hok : (vmmEnsureTable v virt flags).1 with
  | false =>
    rw [vmmMapPage_of_not_ok hok]
    exact ⟨fun hfail => absurd hfail Bool.false_ne_true, fun _ => hwalks⟩
  | true =>
    obtain ⟨hdistinct, hhas⟩ := htable hok
    have hle : phys + 4096 ≤ 2 ^ 32 := by omega
    have hbits := flags_or_present_lt hflags
    rw [vmmMapPage_of_ok hok]
    refine ⟨fun _ => ⟨⟨_, vmmSetEntry_walk_same hdistinct hhas
      (entry_of_page_lt haligned hle hflags), tableOf_entry haligned hle hflags, ?_⟩,
      fun other hother hne => ⟨?_, fun hpresent => ?_⟩⟩,
      fun hfail => absurd hfail.symm Bool.false_ne_true⟩
    · rw [entry_of_page haligned hflags]
      omega
    · rw [vmmSetEntry_walk_other hdistinct hhas phys flags hvirt hother hne, hwalks]
    · rw [vmmSetEntry_pde hdistinct hhas phys flags (pdIndex_lt other),
        hpdes _ (pdIndex_lt other) hpresent]

/-! ## The directory of `vmm_init` -/

section Directory

variable {v : Vmm} {a : AddressSpace}

theorem Vmm.Shows.tableOf_pde (h : v.Shows a) {i : Nat} (hi : i < 1024)
    (hpresent : v.EntryPresent i) : ∃ t, a.tables i = some t ∧ tableOf (v.pde i) = 4096 * t := by
  have hpde := h.pde i hi
  rw [← h.directory] at hpde
  cases ht : a.tables i with
  | none =>
    rw [ht] at hpde
    exact absurd (hpde.present.mpr rfl) hpresent
  | some t =>
    rw [ht] at hpde
    exact ⟨t, rfl, hpde.tableOf (load32_lt _ _)⟩

/-- The tables of an address space are where its directory says. -/
theorem Vmm.Shows.distinctTables (h : v.Shows a) : DistinctTables v := by
  refine ⟨fun i hi hpresent => ?_, fun i hi j hj hpresent hpresent' heq => ?_⟩
  · obtain ⟨t, ht, htable⟩ := h.tableOf_pde hi hpresent
    have hne := h.table_ne_root ht
    rw [Vmm.OffDirectory, htable, h.directory, pageSize]
    omega
  · obtain ⟨t, ht, htable⟩ := h.tableOf_pde hi hpresent
    obtain ⟨t', ht', htable'⟩ := h.tableOf_pde hj hpresent'
    obtain rfl : t = t' := by omega
    exact h.table_inj ht ht'

/-- Blocks in use are not allocated again. -/
theorem Vmm.Shows.newFrame (h : v.Shows a) (hb : v.pmm.Backs a) : NewFrame v := by
  rcases pmmAllocPageAligned_cases hb.consistent with ⟨f, hf, -, hresult⟩ | ⟨-, hresult⟩
  · refine .inr ⟨?_, fun i hi hpresent => ?_⟩
    · have hne := hf.ne_inUse hb.root
      rw [Vmm.OffDirectory, hresult, h.directory, pageSize]
      omega
    · obtain ⟨t, ht, htable⟩ := h.tableOf_pde hi hpresent
      have hne := hf.ne_inUse (hb.table ht)
      rw [hresult, htable]
      omega
  · exact .inl (by rw [hresult])

end Directory

/-- A page outside the identity mapping needs a new table, and the pages of the identity mapping
are walked as before. -/
theorem vmm_map_page_one_walk_sixBlocks :
    let v := vmmInit sixBlocks fun _ => 0
    v.EntryPresent 0 ∧ (∃ pte, (vmmMapPage v 0xD0001000 0x3000 6).2.walk 0xD0001000 = some pte ∧
      tableOf pte = 0x3000 ∧ pte % pageSize = 7) ∧
        (vmmMapPage v 0xD0001000 0x3000 6).2.walk 0x5000 = v.walk 0x5000 := by
  intro v
  obtain ⟨root, table, hstart⟩ := exists_vmmStart_of_card sixBlocks_consistent (by decide)
  have hshows : v.Shows (.initial root table) := vmmInit_shows hstart _
  have hbacks : v.pmm.Backs (.initial root table) := vmmInit_backs hstart _
  have hpde : ∀ i, v.pde i = load32 v.mem (4096 * root + 4 * i) := fun i => by
    rw [Vmm.pde, hshows.directory]
    rfl
  have hpresent : v.EntryPresent 0 := by
    rw [Vmm.EntryPresent, hpde]
    exact (hshows.pde 0 (by decide)).present.not.mpr (Option.some_ne_none table)
  have habsent : v.pde (pdIndex 0xD0001000) &&& pagePresent = 0 := by
    rw [hpde]
    exact (hshows.pde _ (by decide)).present.mpr rfl
  have htable : (pmmAllocPageAligned v.pmm).1 ≠ 0 := by
    show (pmmAllocPageAligned (pmmAllocPageAligned (pmmAllocPageAligned sixBlocks).2).2).1 ≠ 0
    decide +kernel
  have hok : (vmmMapPage v 0xD0001000 0x3000 6).1 = true := by
    rw [vmmMapPage_ok, vmmEnsureTable, if_pos habsent, if_neg htable]
  obtain ⟨hmapped, hothers⟩ := (vmm_map_page_one_walk hshows.distinctTables
    (hshows.newFrame hbacks) (by decide) (by decide) (by decide) (by decide)).1 hok
  exact ⟨hpresent, hmapped, (hothers 0x5000 (by decide) (by decide)).1⟩

end HolyOs.Mm
