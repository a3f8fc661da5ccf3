import HolyOs.Mm.VmmFree
import HolyOs.Mm.VmmWalk

/-!
# Permissions of mapped pages

The processor allows an access to a page if the directory entry and the table entry both do.
`vmm_map_page` gives its flags to the table entry, and to the directory entry only when that entry
is new; the first mapping of a region of 4 MiB decides what the later ones can permit.

## Main definitions

* `Vmm.permission`: the bits that both entries of a mapped page have.
* `Vmm.mappedBy`: the page that a successful call maps, and the flags it asks for.
-/
namespace HolyOs.Mm

open ByteMemory Transition

@[simp] def pageUser : Nat := 0x04

/-- The bits that grant something. -/
def permissionBits : Nat := pageWrite ||| pageUser

/-- The entries of a mapped page combined, as the processor does. -/
def Vmm.permission (v : Vmm) (virt : Nat) : Nat :=
  match v.walk virt with
  | none => 0
  | some pte => v.pde (pdIndex virt) &&& pte

/-- The page that a successful call maps and the flags of the call. -/
def Vmm.mappedBy (v : Vmm) : VmmCall → Option (Nat × Nat)
  | .mapPage virt phys flags =>
    if (vmmMapPage v virt phys flags).1 then some (virt, flags) else none
  | .allocPage flags =>
    if (vmmAllocPage v flags).1 ≠ 0 then some ((vmmAllocPage v flags).1, flags) else none
  | _ => none

/-- A mapping call on addresses of 32 bits, a page-aligned frame and flags below the page size. -/
def VmmCall.Maps : VmmCall → Prop
  | .mapPage virt phys flags =>
    virt < 2 ^ 32 ∧ phys < 2 ^ 32 ∧ phys % pageSize = 0 ∧ flags < pageSize
  | .allocPage flags => flags < pageSize
  | _ => False

instance : DecidablePred VmmCall.Maps
  | .mapPage .. => inferInstanceAs (Decidable (_ ∧ _))
  | .allocPage _ => inferInstanceAs (Decidable (_ < _))
  | .freePage _ => inferInstanceAs (Decidable False)
  | .physical _ => inferInstanceAs (Decidable False)

/-- A successful mapping call. -/
def Vmm.MapStep (v : Vmm) (call : VmmCall) (w : Vmm) : Prop :=
  call.Maps ∧ (v.mappedBy call).isSome ∧ v.Step call w

/-! ## One call -/

section Call

variable {v : Vmm} {a : AddressSpace} {virt phys flags : Nat}

/-- A successful call leaves an address space behind. -/
theorem Vmm.Shows.mapPage (h : v.Shows a) (hb : v.pmm.Backs a)
    (hmaps : (VmmCall.mapPage virt phys flags).Maps)
    (hok : (vmmMapPage v virt phys flags).1 = true) :
    ∃ b, (vmmMapPage v virt phys flags).2.Shows b ∧
      (vmmMapPage v virt phys flags).2.pmm.Backs b := by
  obtain ⟨hvirt, hphys, haligned, hflags⟩ := hmaps
  obtain ⟨block, rfl⟩ : ∃ block, phys = 4096 * block :=
    ⟨phys / 4096, by rw [pageSize] at haligned; omega⟩
  have hblock : block < 2 ^ 20 := by omega
  have hensure : (vmmEnsureTable v virt flags).1 = true := vmmMapPage_ok v virt _ flags ▸ hok
  rw [vmmMapPage_of_ok hensure]
  cases ht : a.tables (pdIndex virt) with
  | some t =>
    rw [vmmEnsureTable_of_table h ht]
    exact ⟨_, h.setEntry hvirt ht hblock hflags, hb.consistent, hb.root, hb.table⟩
  | none =>
    rcases Finset.eq_empty_or_nonempty v.pmm.freeBlocks with hempty | hfree
    · rw [vmmEnsureTable_of_exhausted h ht hempty] at hensure
      exact absurd hensure Bool.false_ne_true
    · obtain ⟨t, htfree⟩ := exists_firstFree hfree
      have hpos : t ≠ 0 := by
        rintro rfl
        rw [vmmEnsureTable, if_pos ((h.pde_absent virt).mpr ht),
          pmmAllocPageAligned_of_firstFree hb.consistent htfree] at hensure
        exact absurd hensure Bool.false_ne_true
      obtain ⟨w, hw, hpmm, -, hshows⟩ := vmmEnsureTable_of_firstFree h hb ht htfree hpos hflags
      have hinstalled : (a.setTable (pdIndex virt) t).tables (pdIndex virt) = some t := by
        simp [setTable_tables]
      rw [hw]
      refine ⟨_, hshows.setEntry hvirt hinstalled hblock hflags, ?_⟩
      have htake := hb.take t
      refine ⟨hpmm ▸ htake.consistent, hpmm ▸ htake.root, fun {i s} hs => ?_⟩
      rw [setFrame_tables, setTable_tables] at hs
      show w.pmm.InUse s
      rw [hpmm]
      split at hs
      · obtain rfl := Option.some.inj hs
        exact htfree.inUse
      · exact htake.table hs

/-- The page gets every bit that was asked for exactly if an old directory entry has it. -/
theorem vmmMapPage_includes_iff (hv : DistinctTables v) (hnew : NewFrame v)
    (hmaps : (VmmCall.mapPage virt phys flags).Maps)
    (hok : (vmmMapPage v virt phys flags).1 = true) :
    Word32.Includes ((vmmMapPage v virt phys flags).2.permission virt) (flags &&& permissionBits) ↔
      (v.EntryPresent (pdIndex virt) →
        Word32.Includes (v.pde (pdIndex virt)) (flags &&& permissionBits)) := by
  obtain ⟨hvirt, hphys, haligned, hflags⟩ := hmaps
  simp only [pageSize] at haligned hflags
  have hensure : (vmmEnsureTable v virt flags).1 = true := vmmMapPage_ok v virt phys flags ▸ hok
  obtain ⟨-, hpdes, htable⟩ := vmmEnsureTable_walks hv hnew virt hflags
  obtain ⟨hdistinct, hpresent⟩ := htable hensure
  have hwalk := vmmSetEntry_walk_same hdistinct hpresent
    (entry_of_page_lt haligned (by omega) hflags)
  rw [vmmMapPage_of_ok hensure, Vmm.permission, hwalk,
    vmmSetEntry_pde hdistinct hpresent phys flags (pdIndex_lt virt), Word32.includes_and,
    and_iff_left (Word32.includes_or phys flags pagePresent permissionBits)]
  rcases vmmEnsureTable_cases hnew virt flags with
    ⟨hold, hcall⟩ | ⟨-, hcall⟩ | ⟨-, hinstalled⟩
  · rw [hcall]
    exact ⟨fun h _ => h, fun h => h hold⟩
  · rw [hcall] at hensure
    exact absurd hensure Bool.false_ne_true
  · -- the new directory entry has the flags of the call
    rw [hinstalled.pde_same hflags]
    exact iff_of_true (Word32.includes_or _ flags pagePresent permissionBits)
      fun hold => absurd hold hinstalled.absent

/-- A successful allocation takes a block and maps the page of the counter to it. -/
theorem vmmAllocPage_ok (hp : v.pmm.Consistent) (hok : (vmmAllocPage v flags).1 ≠ 0) :
    ∃ f u, v.pmm.FirstFree f ∧ f < 2 ^ 20 ∧ u.pmm = v.pmm.take f ∧ u.mem = v.mem ∧
      u.currentPageDirectory = v.currentPageDirectory ∧
      u.nextVirt = Word32.wrap (v.nextVirt + pageSize) ∧
      (vmmMapPage u v.nextVirt (4096 * f) flags).1 = true ∧
      vmmAllocPage v flags = (v.nextVirt, (vmmMapPage u v.nextVirt (4096 * f) flags).2) := by
  rcases pmmAllocPageAligned_cases hp with ⟨f, hf, hlt, hresult⟩ | ⟨-, hresult⟩
  · unfold vmmAllocPage at hok ⊢
    rw [hresult] at hok ⊢
    dsimp only at hok ⊢
    split_ifs at hok ⊢ with hnull hmapped
    · exact absurd rfl hok
    · refine ⟨f, { v with
        pmm := v.pmm.take f
        nextVirt := Word32.wrap (v.nextVirt + pageSize) },
        hf, hlt, rfl, rfl, rfl, rfl, hmapped, rfl⟩
    · exact absurd rfl hok
  · rw [vmmAllocPage, hresult] at hok
    exact absurd rfl hok

end Call

/-! ## Runs of successful calls -/

/-- The directory and the tables are intact, and the counter is an address. -/
def Vmm.Ready (v : Vmm) : Prop := ∃ a, v.Shows a ∧ v.pmm.Backs a ∧ v.nextVirt < 2 ^ 32

section Runs

variable {v : Vmm} {call : VmmCall} {page flags : Nat}

/-- Both calls end with a successful `vmm_map_page` of the page. -/
theorem Vmm.Ready.mappedBy (h : v.Ready) (hmaps : call.Maps)
    (hmapped : v.mappedBy call = some (page, flags)) :
    ∃ u a phys, u.Shows a ∧ u.pmm.Backs a ∧ u.nextVirt < 2 ^ 32 ∧
      (VmmCall.mapPage page phys flags).Maps ∧ (vmmMapPage u page phys flags).1 = true ∧
      v.call call = (vmmMapPage u page phys flags).2 ∧ u.pde = v.pde := by
  obtain ⟨a, hshows, hbacks, hnext⟩ := h
  cases call with
  | mapPage virt phys flags' =>
    obtain ⟨hok, rfl, rfl⟩ : (vmmMapPage v virt phys flags').1 = true ∧ virt = page ∧
        flags' = flags := by simpa [Vmm.mappedBy] using hmapped
    exact ⟨v, a, phys, hshows, hbacks, hnext, hmaps, hok, rfl, rfl⟩
  | allocPage flags' =>
    obtain ⟨hok, hpage, rfl⟩ : (vmmAllocPage v flags').1 ≠ 0 ∧ (vmmAllocPage v flags').1 = page ∧
        flags' = flags := by simpa [Vmm.mappedBy] using hmapped
    obtain ⟨f, u, hf, hlt, hpmm, hmem, hdir, hcounter, hmap, hcall⟩ :=
      vmmAllocPage_ok hbacks.consistent hok
    obtain rfl : v.nextVirt = page := by rw [← hpage, hcall]
    refine ⟨u, a, 4096 * f, hshows.congr hmem hdir, hpmm ▸ hbacks.take f, ?_,
      ⟨hnext, by omega, by rw [pageSize]; omega, hmaps⟩, hmap, congrArg Prod.snd hcall, ?_⟩
    · rw [hcounter]
      exact Word32.wrap_lt _
    · funext i
      rw [Vmm.pde, Vmm.pde, hmem, hdir]
  | freePage virt => exact hmaps.elim
  | physical op => exact hmaps.elim

theorem Vmm.Ready.step {w : Vmm} (h : v.Ready) (hstep : v.MapStep call w) : w.Ready := by
  obtain ⟨hmaps, hmapped, rfl⟩ := hstep
  obtain ⟨⟨page, flags⟩, hmapped⟩ := Option.isSome_iff_exists.mp hmapped
  obtain ⟨u, a, phys, hshows, hbacks, hnext, hmap, hok, hcall, -⟩ := h.mappedBy hmaps hmapped
  obtain ⟨b, hshows', hbacks'⟩ := hshows.mapPage hbacks hmap hok
  rw [hcall]
  exact ⟨b, hshows', hbacks', by rwa [vmmMapPage_nextVirt]⟩

/-- What a call grants, in a state that is ready. -/
theorem Vmm.Ready.includes_iff (h : v.Ready) (hmaps : call.Maps)
    (hmapped : v.mappedBy call = some (page, flags)) :
    Word32.Includes ((v.call call).permission page) (flags &&& permissionBits) ↔
      (v.EntryPresent (pdIndex page) →
        Word32.Includes (v.pde (pdIndex page)) (flags &&& permissionBits)) := by
  obtain ⟨u, a, phys, hshows, hbacks, -, hmap, hok, hcall, hpde⟩ := h.mappedBy hmaps hmapped
  rw [hcall, vmmMapPage_includes_iff hshows.distinctTables (hshows.newFrame hbacks) hmap hok,
    Vmm.EntryPresent, hpde, Vmm.EntryPresent]

theorem vmmInit_ready {p : Pmm} (hp : p.Consistent) (hfree : 2 ≤ p.freeBlocks.card)
    (mem : Memory) : (vmmInit p mem).Ready := by
  obtain ⟨root, table, hstart⟩ := exists_vmmStart_of_card hp hfree
  have hnext : (vmmInit p mem).nextVirt = 0xC0000000 := rfl
  exact ⟨_, vmmInit_shows hstart mem, vmmInit_backs hstart mem, by rw [hnext]; omega⟩

end Runs

/-- After any run of successful `vmm_map_page` and `vmm_alloc_page` calls, a further one gives its
page every permission bit that it asks for exactly if the directory entry of the page was absent,
or had these bits already. -/
theorem vmm_permissions_granted_iff {p : Pmm} (hp : p.Consistent) (hfree : 2 ≤ p.freeBlocks.card)
    {mem : Memory} {calls : List VmmCall} {v : Vmm}
    (hrun : Run Vmm.MapStep (vmmInit p mem) calls v) {call : VmmCall} (hmaps : call.Maps)
    {page flags : Nat} (hmapped : v.mappedBy call = some (page, flags)) :
    Word32.Includes ((v.call call).permission page) (flags &&& permissionBits) ↔
      (v.EntryPresent (pdIndex page) →
        Word32.Includes (v.pde (pdIndex page)) (flags &&& permissionBits)) := by
  have hready : v.Ready := hrun.invariant (vmmInit_ready hp hfree mem)
    fun _ _ _ h hstep => h.step hstep
  exact hready.includes_iff hmaps hmapped

/-! ## A user page in the area of the kernel -/

theorem initial_pde {p : Pmm} {root table : Nat} (h : VmmStart p root table) (mem : Memory) :
    (vmmInit p mem).pde 0 = 4096 * table ||| pagePresent ||| pageWrite := by
  rw [vmmInit_eq h mem]
  exact load32_store32_same _ _ (init_lt h.table_lt)

theorem initial_mappedBy {p : Pmm} {root table : Nat} (h : VmmStart p root table) (mem : Memory)
    (phys flags : Nat) : (vmmInit p mem).mappedBy (.mapPage 0x1000 phys flags) =
      some (0x1000, flags) := by
  have hensure : (vmmEnsureTable (vmmInit p mem) 0x1000 flags).1 = true := by
    rw [vmmEnsureTable_of_table (vmmInit_shows h mem) (show _ = some table from rfl)]
  exact if_pos ((vmmMapPage_ok ..).trans hensure)

theorem fourBlocks_start : ∃ root table, VmmStart fourBlocks root table :=
  exists_vmmStart_of_card fourBlocks_consistent (by decide)

/-- `vmm_init` leaves the user bit of its directory entry clear. -/
theorem not_includes_initial_pde {p : Pmm} {root table : Nat} (h : VmmStart p root table)
    (mem : Memory) : ¬ Word32.Includes ((vmmInit p mem).pde 0) (6 &&& permissionBits) := by
  rw [initial_pde h mem, Word32.includes_iff]
  intro hbits
  have huser := hbits 2 (by decide)
  have hblock : (4096 * table).testBit 2 = false := by
    rw [show 4096 = 2 ^ 12 from rfl, Nat.testBit_two_pow_mul]
    rfl
  rw [Nat.testBit_or, Nat.testBit_or, hblock] at huser
  exact absurd huser (by decide)

theorem vmm_permissions_granted_iff_fourBlocks :
    Word32.Includes (((vmmInit fourBlocks fun _ => 0).call (.mapPage 0x1000 0x5000 2)).permission
      0x1000) (2 &&& permissionBits) ↔
      ((vmmInit fourBlocks fun _ => 0).EntryPresent 0 →
        Word32.Includes ((vmmInit fourBlocks fun _ => 0).pde 0) (2 &&& permissionBits)) := by
  obtain ⟨root, table, hstart⟩ := fourBlocks_start
  exact vmm_permissions_granted_iff fourBlocks_consistent (by decide) .nil (by decide)
    (initial_mappedBy hstart _ 0x5000 2)

/-- A page that is mapped for the user in the first 4 MiB is not accessible to the user. -/
theorem vmm_permission_missing_fourBlocks :
    ¬ ∀ (p : Pmm) (mem : Memory) (calls : List VmmCall) (v : Vmm), p.Consistent →
      2 ≤ p.freeBlocks.card → Run Vmm.MapStep (vmmInit p mem) calls v →
      ∀ (call : VmmCall) (page flags : Nat), call.Maps → v.mappedBy call = some (page, flags) →
        Word32.Includes ((v.call call).permission page) (flags &&& permissionBits) := by
  intro hclaim
  obtain ⟨root, table, hstart⟩ := fourBlocks_start
  have hmapped := initial_mappedBy hstart (fun _ => 0) 0x5000 6
  have hgranted := hclaim fourBlocks (fun _ => 0) [] _ fourBlocks_consistent (by decide) .nil
    (.mapPage 0x1000 0x5000 6) 0x1000 6 (by decide) hmapped
  have hready := vmmInit_ready fourBlocks_consistent (by decide) fun _ => 0
  have hpresent : (vmmInit fourBlocks fun _ => 0).EntryPresent (pdIndex 0x1000) := fun habsent =>
    nomatch ((vmmInit_shows hstart fun _ => 0).pde_absent 0x1000).mp habsent
  exact not_includes_initial_pde hstart (fun _ => 0)
    ((hready.includes_iff (by decide) hmapped).mp hgranted hpresent)

end HolyOs.Mm
