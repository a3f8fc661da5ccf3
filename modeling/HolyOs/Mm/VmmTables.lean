import HolyOs.Mm.VmmClient

/-!
# Page tables under paging

Once paging is on, `vmm_map_page` and `vmm_free_page` reach a page table through its physical
address used as a virtual one. The accesses are recorded here with the state they happen in;
they go to the right frame exactly as long as every table is in the identity-mapped area, and
that depends on where the physical manager finds the block of a new table.
-/
namespace HolyOs.Mm

open ByteMemory Transition

/-- An access of the program to `size` bytes from `addr` on, in the state `vmm`. -/
structure Access where
  vmm : Vmm
  addr : Nat
  size : Nat

/-- Every byte is translated to itself. -/
def Access.ReachesItself (x : Access) : Prop :=
  ∀ k < x.size, x.vmm.translate (x.addr + k) = some (x.addr + k)

/-- The page table accesses of `vmm_map_page`: `memset` of `new_table` and the write to
`page_table[pt_index]`. -/
def vmmMapPageAccesses (v : Vmm) (virt flags : Nat) : List Access :=
  let newTable := pmmAllocPageAligned v.pmm
  let cleared : List Access :=
    if v.pde (pdIndex virt) &&& pagePresent = 0 ∧ newTable.1 ≠ 0 then
      [⟨{ v with pmm := newTable.2 }, newTable.1, pageSize⟩]
    else []
  let r := vmmEnsureTable v virt flags
  if r.1 then cleared ++ [⟨r.2, r.2.entryAddr virt, 4⟩] else cleared

def vmmAllocPageAccesses (v : Vmm) (flags : Nat) : List Access :=
  let phys := pmmAllocPageAligned v.pmm
  if phys.1 = 0 then []
  else vmmMapPageAccesses
    { v with pmm := phys.2, nextVirt := Word32.wrap (v.nextVirt + pageSize) } v.nextVirt flags

/-- The read and the write of `page_table[pt_index]` in `vmm_free_page`. -/
def vmmFreePageAccesses (v : Vmm) (virt : Nat) : List Access :=
  if v.pde (pdIndex virt) &&& pagePresent = 0 then []
  else
    let phys := load32 v.mem (v.entryAddr virt) &&& Word32.not 0xFFF
    [⟨v, v.entryAddr virt, 4⟩, ⟨{ v with pmm := pmmFreePage v.pmm phys }, v.entryAddr virt, 4⟩]

/-- The page table accesses of a client's call. -/
def VmmClient.tableAccesses (s : VmmClient) : VmmOp → List Access
  | .allocPage flags => vmmAllocPageAccesses s.vmm flags
  | .freePage virt => vmmFreePageAccesses s.vmm virt

/-- The two blocks the manager hands out next exist and are below 4 MiB. -/
def Pmm.HasLowPair (p : Pmm) : Prop := 2 ≤ (p.freeBlocks.filter (· < 1024)).card

/-- An allocation needs no new table, cannot get one, or finds one below 4 MiB. -/
def VmmClient.TableRoom (s : VmmClient) : VmmOp → Prop
  | .allocPage _ => s.vmm.pde (pdIndex s.vmm.nextVirt) &&& pagePresent ≠ 0 ∨
      s.vmm.pmm.freeBlocks.card < 2 ∨ s.vmm.pmm.HasLowPair
  | .freePage _ => True

/-! ## The second free block -/

section Pair

variable {p : Pmm} {f t : Nat}

theorem Pmm.FirstFree.hasLowPair_iff (hf : p.FirstFree f) (ht : (p.take f).FirstFree t) :
    p.HasLowPair ↔ t < 1024 := by
  have hlater := hf.lt_second ht
  have htfree := ht.1
  rw [freeBlocks_take] at htfree
  constructor
  · intro hpair
    by_contra hhigh
    have hsub : p.freeBlocks.filter (· < 1024) ⊆ {f} := by
      intro b hb
      obtain ⟨hfree, hlow⟩ := Finset.mem_filter.mp hb
      by_contra hne
      have hleft : b ∈ (p.take f).freeBlocks := by
        rw [freeBlocks_take]
        exact Finset.mem_erase.mpr ⟨by simpa using hne, hfree⟩
      have hle := ht.2 b hleft
      omega
    have hcard := Finset.card_le_card hsub
    rw [Finset.card_singleton] at hcard
    rw [Pmm.HasLowPair] at hpair
    omega
  · intro hlow
    have hsub : {f, t} ⊆ p.freeBlocks.filter (· < 1024) := by
      intro b hb
      rcases Finset.mem_insert.mp hb with rfl | hb
      · exact Finset.mem_filter.mpr ⟨hf.1, by omega⟩
      · obtain rfl := Finset.mem_singleton.mp hb
        exact Finset.mem_filter.mpr ⟨Finset.mem_of_mem_erase htfree, hlow⟩
    calc 2 = ({f, t} : Finset Nat).card := (Finset.card_pair (by omega)).symm
      _ ≤ _ := Finset.card_le_card hsub

end Pair

/-! ## Accesses and the identity mapping -/

/-- A piece of block `b` reaches itself exactly when the page is mapped to its own number. -/
theorem Vmm.Shows.reachesItself_iff {v : Vmm} {a : AddressSpace} (h : v.Shows a)
    {b size : Nat} (offset : Nat) (hb : b < 2 ^ 20) (hpos : 0 < size)
    (hsize : offset + size ≤ 4096) :
    Access.ReachesItself ⟨v, 4096 * b + offset, size⟩ ↔ a.frames b = some b := by
  have hpage : ∀ k < size, v.translate (4096 * b + offset + k) =
      (a.frames b).map fun f => 4096 * f + (offset + k) := by
    intro k hk
    rw [h.translate_eq (by omega), show (4096 * b + offset + k) / 4096 = b by omega,
      show (4096 * b + offset + k) % 4096 = offset + k by omega]
  constructor
  · intro hreach
    have hfirst : v.translate (4096 * b + offset + 0) = some (4096 * b + offset + 0) :=
      hreach 0 hpos
    rw [hpage 0 hpos] at hfirst
    obtain ⟨f, hf, heq⟩ := Option.map_eq_some_iff.mp hfirst
    rw [hf, Option.some.injEq]
    omega
  · intro hb k hk
    change v.translate (4096 * b + offset + k) = some (4096 * b + offset + k)
    rw [hpage k hk, hb, Option.map_some, Nat.add_assoc]

/-- The entry of a page is reached when its table is in the identity-mapped area. -/
theorem Vmm.Shows.entry_reachesItself {v : Vmm} {a : AddressSpace} (h : v.Shows a) {virt t : Nat}
    (ht : a.tables (pdIndex virt) = some t) (hid : a.frames t = some t) :
    Access.ReachesItself ⟨v, v.entryAddr virt, 4⟩ := by
  have hlt := ptIndex_lt virt
  rw [h.entryAddr_eq ht, h.reachesItself_iff _ (h.table_lt ht).2 (by omega) (by omega)]
  exact hid

/-! ## The accesses of `vmm_map_page` -/

section Accesses

variable {v : Vmm} {a : AddressSpace} (h : v.Shows a) {virt : Nat}
include h

theorem vmmMapPageAccesses_of_table {t : Nat} (ht : a.tables (pdIndex virt) = some t)
    (flags : Nat) : vmmMapPageAccesses v virt flags = [⟨v, v.entryAddr virt, 4⟩] := by
  have hpresent : ¬ v.pde (pdIndex virt) &&& pagePresent = 0 := by
    rw [h.pde_absent, ht]
    simp
  rw [vmmMapPageAccesses, vmmEnsureTable_of_table h ht, if_neg (not_and_of_not_left _ hpresent)]
  rfl

theorem vmmMapPageAccesses_of_exhausted (hnone : a.tables (pdIndex virt) = none)
    (hempty : v.pmm.freeBlocks = ∅) (flags : Nat) : vmmMapPageAccesses v virt flags = [] := by
  rw [vmmMapPageAccesses, vmmEnsureTable_of_exhausted h hnone hempty, pmmAllocPageAligned,
    pmmAllocPageInternal_of_empty hempty]
  simp

theorem vmmMapPageAccesses_of_firstFree (hb : v.pmm.Backs a)
    (hnone : a.tables (pdIndex virt) = none) {t : Nat} (ht : v.pmm.FirstFree t) (hpos : t ≠ 0)
    {flags : Nat} (hflags : flags < 4096) :
    ∃ w, w.Shows (a.setTable (pdIndex virt) t) ∧ vmmMapPageAccesses v virt flags =
      [⟨{ v with pmm := v.pmm.take t }, 4096 * t, pageSize⟩, ⟨w, w.entryAddr virt, 4⟩] := by
  obtain ⟨w, hensure, -, -, hw⟩ := vmmEnsureTable_of_firstFree h hb hnone ht hpos hflags
  have hne : 4096 * t ≠ 0 := by omega
  refine ⟨w, hw, ?_⟩
  rw [vmmMapPageAccesses, hensure, pmmAllocPageAligned_of_firstFree hb.consistent ht,
    if_pos rfl, if_pos ⟨(h.pde_absent virt).mpr hnone, hne⟩]
  rfl

end Accesses

/-! ## Tables stay in the identity-mapped area -/

/-- Tables are in the identity-mapped area. -/
def AddressSpace.LowTables (a : AddressSpace) : Prop := ∀ {i t}, a.tables i = some t → t < 1024

theorem lowTables_initial {root table : Nat} (h : table < 1024) :
    (AddressSpace.initial root table).LowTables := by
  intro i t ht
  simp only [AddressSpace.initial, Option.ite_none_right_eq_some, Option.some.injEq] at ht
  omega

namespace VmmClient

variable {p : Pmm} {n : Nat} {s : VmmClient} {a : AddressSpace}

/-- A free block is mapped to itself exactly when it is below 4 MiB. -/
theorem Sound.identity_iff (h : s.Sound p n a) {t : Nat} (ht : t ∈ s.vmm.pmm.freeBlocks) :
    a.frames t = some t ↔ t < 1024 := by
  constructor
  · intro hid
    by_contra hlow
    by_cases hgap : t < firstPage
    · simp [h.layout.gap t (by omega) hgap] at hid
    · exact (h.free ht).2.1 (.frame (by omega) hid)
  · exact h.layout.identity t

/-- An allocation reaches its tables exactly when it has room for them. -/
theorem Sound.alloc_reaches_iff (h : s.Sound p n a) (hlow : a.LowTables) {flags : Nat}
    (hflags : flags < pageSize) :
    (∀ x ∈ s.tableAccesses (.allocPage flags), x.ReachesItself) ↔
      s.TableRoom (.allocPage flags) := by
  simp only [tableAccesses, TableRoom, vmmAllocPageAccesses, Ne, h.shows.pde_absent]
  rcases pmmAllocPageAligned_cases h.consistent with ⟨f, hf, -, hres⟩ | ⟨hempty, hres⟩
  · have hpos := (h.free hf.1).2.2
    rw [hres, if_neg (by omega), hf.card_freeBlocks]
    generalize hx : ({ s.vmm with
      pmm := s.vmm.pmm.take f
      nextVirt := Word32.wrap (s.vmm.nextVirt + pageSize) } : Vmm) = x
    have hshows : x.Shows a := h.shows.congr (by rw [← hx]) (by rw [← hx])
    have hpmm : s.vmm.pmm.take f = x.pmm := by rw [← hx]
    have hbacks : x.pmm.Backs a := hpmm ▸ h.backs.take f
    cases ht : a.tables (pdIndex s.vmm.nextVirt) with
    | some t =>
      rw [vmmMapPageAccesses_of_table hshows ht]
      simpa using hshows.entry_reachesItself ht (h.layout.identity t (hlow ht))
    | none =>
      rcases Finset.eq_empty_or_nonempty x.pmm.freeBlocks with hempty | hfree
      · rw [vmmMapPageAccesses_of_exhausted hshows ht hempty, hpmm, hempty]
        simp
      · obtain ⟨t, htfirst⟩ := exists_firstFree hfree
        have hsecond : (s.vmm.pmm.take f).FirstFree t := hpmm ▸ htfirst
        have hlater := hf.lt_second hsecond
        have htfree := hsecond.1
        rw [freeBlocks_take] at htfree
        have hcard := Finset.card_pos.mpr hfree
        have hlt : t < 2 ^ 20 :=
          (mem_freeBlocks.mp htfirst.1).1.trans_le hbacks.consistent.addressable
        obtain ⟨w, hw, haccesses⟩ :=
          vmmMapPageAccesses_of_firstFree hshows hbacks ht htfirst (by omega) hflags
        have hclear : Access.ReachesItself ⟨{ x with pmm := x.pmm.take t }, 4096 * t, pageSize⟩ ↔
            t < 1024 := by
          have hcleared : ({ x with pmm := x.pmm.take t } : Vmm).Shows a := hshows.congr rfl rfl
          rw [← h.identity_iff (Finset.mem_of_mem_erase htfree)]
          exact hcleared.reachesItself_iff 0 hlt (by simp) (by simp)
        rw [haccesses, hpmm, hf.hasLowPair_iff hsecond]
        simp only [List.mem_cons, List.not_mem_nil, or_false, forall_eq_or_imp, forall_eq, hclear,
          not_true, false_or]
        constructor
        · exact fun hreach => .inr hreach.1
        · rintro (hfew | hroom)
          · omega
          · exact ⟨hroom, hw.entry_reachesItself (by simp [setTable_tables])
              (h.layout.identity t hroom)⟩
  · rw [hres, hempty]
    simp

/-- A free of a live page reaches the page's table. -/
theorem Sound.free_reaches (h : s.Sound p n a) (hlow : a.LowTables) (virt : Nat) :
    ∀ x ∈ s.tableAccesses (.freePage virt), x.ReachesItself := by
  simp only [tableAccesses, vmmFreePageAccesses, h.shows.pde_absent]
  cases ht : a.tables (pdIndex virt) with
  | none => simp
  | some t =>
    have hreach : ∀ {w : Vmm}, w.Shows a → Access.ReachesItself ⟨w, w.entryAddr virt, 4⟩ :=
      fun hw => hw.entry_reachesItself ht (h.layout.identity t (hlow ht))
    simp only [reduceCtorEq, if_false, List.mem_cons, List.not_mem_nil, or_false,
      forall_eq_or_imp, forall_eq]
    exact ⟨hreach h.shows, hreach (h.shows.congr rfl rfl)⟩

/-- A call with room for its tables puts them into the identity-mapped area. -/
theorem Sound.step_lowTables {t : VmmClient} {op : VmmOp} (h : s.Sound p n a)
    (hlow : a.LowTables) (hstep : s.Step op t) (hn : n < 2 ^ 18) (hroom : s.TableRoom op) :
    ∃ m b, t.Sound p m b ∧ b.LowTables ∧ m ≤ n + op.allocs := by
  obtain ⟨hallowed, rfl⟩ := hstep
  cases op with
  | freePage virt =>
    obtain ⟨f, -, -, hsound⟩ := h.freePage hallowed
    exact ⟨n, _, hsound, hlow, by omega⟩
  | allocPage flags =>
    obtain ⟨b, ho⟩ := vmmAllocPage_outcome h.shows h.backs h.nextVirt_lt hallowed
    have htaken := s.taken_le_one
    refine ⟨_, b, h.alloc (fun _ => hn) ho, ?_, by simp only [VmmOp.allocs]; omega⟩
    simp only [TableRoom, Ne, h.shows.pde_absent] at hroom
    generalize (vmmAllocPage s.vmm flags).1 = r at ho
    generalize (vmmAllocPage s.vmm flags).2 = w at ho
    cases ho with
    | exhausted => exact hlow
    | blockZero => exact hlow
    | mapped => exact hlow
    | noTable => exact hlow
    | @newTable f t _ hf _ hnone ht =>
      have hcard := Finset.card_pos.mpr ⟨t, ht.1⟩
      rw [hf.card_freeBlocks, hf.hasLowPair_iff ht] at hroom
      have hblock : t < 1024 := by
        rcases hroom with habsent | hfew | hblock
        · exact absurd hnone habsent
        · omega
        · exact hblock
      intro i u hu
      rw [setFrame_tables, setTable_tables] at hu
      split at hu
      · obtain rfl := Option.some.inj hu
        exact hblock
      · exact hlow hu

end VmmClient

/-- A call of a client that has room for its tables. -/
def VmmClient.RoomStep (s : VmmClient) (op : VmmOp) (t : VmmClient) : Prop :=
  s.TableRoom op ∧ s.Step op t

/-- While all calls have had room for their tables, the tables are in the identity-mapped area. -/
theorem VmmClient.Sound.of_room_run {p : Pmm} {root table : Nat} (h : VmmStart p root table)
    (htable : table < 1024) {mem : Memory} {ops : List VmmOp} {s : VmmClient}
    (hrun : Run VmmClient.RoomStep (.start p mem) ops s) (hcalls : allocCalls ops < 2 ^ 18) :
    ∃ n a, s.Sound p n a ∧ a.LowTables ∧ n ≤ allocCalls ops := by
  refine hrun.history (I := fun ops s => allocCalls ops < 2 ^ 18 →
    ∃ n a, s.Sound p n a ∧ a.LowTables ∧ n ≤ allocCalls ops) ?_ ?_ hcalls
  · exact fun _ => ⟨0, _, h.sound mem, lowTables_initial htable, by omega⟩
  · intro ops t op u ih hstep hlt
    rw [allocCalls_snoc] at hlt ⊢
    obtain ⟨n, a, hsound, hlow, hn⟩ := ih (by omega)
    obtain ⟨m, b, hsound', hlow', hm⟩ :=
      hsound.step_lowTables hlow hstep.2 (by omega) hstep.1
    exact ⟨m, b, hsound', hlow', by omega⟩

/-- In a history after a `vmm_init` with pages below 4 MiB whose calls all had room for their
tables, the next call reaches every page table it accesses exactly when it has room, too. -/
theorem vmm_tables_reachable_iff {p : Pmm} (hp : p.Consistent) (hpair : p.HasLowPair)
    {mem : Memory} {ops : List VmmOp} {s : VmmClient}
    (hrun : Run VmmClient.RoomStep (.start p mem) ops s) {op : VmmOp} (hop : s.Allowed op)
    (hcalls : allocCalls (ops ++ [op]) < 2 ^ 18) :
    (∀ x ∈ s.tableAccesses op, x.ReachesItself) ↔ s.TableRoom op := by
  have hfree : 2 ≤ p.freeBlocks.card :=
    le_trans hpair (Finset.card_le_card (Finset.filter_subset _ _))
  obtain ⟨root, table, hstart⟩ := exists_vmmStart_of_card hp hfree
  have htable := (hstart.root_free.hasLowPair_iff hstart.table_free).mp hpair
  rw [allocCalls_snoc] at hcalls
  obtain ⟨n, a, hsound, hlow, -⟩ := VmmClient.Sound.of_room_run hstart htable hrun (by omega)
  cases op with
  | allocPage flags => exact hsound.alloc_reaches_iff hlow hop
  | freePage virt => exact iff_of_true (hsound.free_reaches hlow virt) trivial

theorem vmm_tables_reachable_iff_sixBlocks :
    (∀ x ∈ (VmmClient.start sixBlocks fun _ => 0).tableAccesses (.allocPage 3),
      x.ReachesItself) ↔
      (VmmClient.start sixBlocks fun _ => 0).TableRoom (.allocPage 3) :=
  vmm_tables_reachable_iff sixBlocks_consistent (show 2 ≤ _ by decide) .nil
    (by simp [VmmClient.Allowed]) (by simp [allocCalls, VmmOp.allocs])

/-- A manager of 1025 blocks of which blocks 1, 2, 3 and 1024 are free. -/
def splitBlocks : Pmm where
  pmmBitmap i :=
    if i = 0 then 0xFFFFFFF1#32 else if i = 32 then 0xFFFFFFFE#32 else 0xFFFFFFFF#32
  pmmBitmapAddr := 0
  pmmBitmapSize := 33
  pmmMaxBlocks := 1025
  pmmUsedBlocks := 1021

theorem freeBlocks_splitBlocks : splitBlocks.freeBlocks = {1, 2, 3, 1024} := by
  have hword : ∀ k < 32, (0xFFFFFFF1#32).getLsbD k = false → k = 1 ∨ k = 2 ∨ k = 3 := by decide
  have hones : ∀ k < 32, (0xFFFFFFFF#32).getLsbD k = true := by decide
  ext b
  simp only [mem_freeBlocks, Finset.mem_insert, Finset.mem_singleton]
  constructor
  · rintro ⟨hlt, hclear⟩
    simp only [splitBlocks, Pmm.marked, PackedBits.getBit] at hlt hclear
    have hbit : b % 32 < 32 := by omega
    split at hclear
    · have := hword _ hbit hclear
      omega
    · split at hclear
      · omega
      · simp [hones _ hbit] at hclear
  · rintro (rfl | rfl | rfl | rfl) <;> decide

/-- With blocks 1, 2, 3 and 1024 free, `vmm_init` takes blocks 1 and 2, and the table of the
first allocation is put at 4 MiB, which is not mapped. -/
theorem vmm_tables_unreachable_splitBlocks : splitBlocks.HasLowPair ∧
    ∃ x ∈ (VmmClient.start splitBlocks fun _ => 0).tableAccesses (.allocPage 3),
      ¬ x.ReachesItself := by
  have hp : splitBlocks.Consistent := ⟨by simp [splitBlocks], by simp [splitBlocks]⟩
  have hfirst : splitBlocks.FirstFree 1 := by
    rw [Pmm.FirstFree, freeBlocks_splitBlocks]
    decide
  have hsecond : (splitBlocks.take 1).FirstFree 2 := by
    rw [Pmm.FirstFree, freeBlocks_take, freeBlocks_splitBlocks]
    decide
  have hthird : ((splitBlocks.take 1).take 2).FirstFree 3 := by
    rw [Pmm.FirstFree, freeBlocks_take, freeBlocks_take, freeBlocks_splitBlocks]
    decide
  have hfourth : (((splitBlocks.take 1).take 2).take 3).FirstFree 1024 := by
    rw [Pmm.FirstFree, freeBlocks_take, freeBlocks_take, freeBlocks_take, freeBlocks_splitBlocks]
    decide
  have hstart : VmmStart splitBlocks 1 2 := ⟨hp, hfirst, hsecond⟩
  have hsound := hstart.sound fun _ => 0
  have hpmm : (VmmClient.start splitBlocks fun _ => 0).vmm.pmm =
      (splitBlocks.take 1).take 2 := by rw [VmmClient.start, vmmInit_eq hstart]
  have hcard := hthird.card_freeBlocks.trans (congrArg (· + 1) hfourth.card_freeBlocks)
  have hnone : (AddressSpace.initial 1 2).tables
      (pdIndex (VmmClient.start splitBlocks fun _ => 0).vmm.nextVirt) = none := by
    rw [hsound.nextVirt_eq (by omega)]
    decide
  refine ⟨(hfirst.hasLowPair_iff hsecond).mpr (by omega), ?_⟩
  by_contra hreach
  push Not at hreach
  rcases (hsound.alloc_reaches_iff (lowTables_initial (by omega)) (by simp)).mp hreach with
    hpresent | hfew | hpair
  · exact hpresent ((hsound.shows.pde_absent _).mpr hnone)
  · rw [hpmm, hcard] at hfew
    omega
  · rw [hpmm, hthird.hasLowPair_iff hfourth] at hpair
    omega

end HolyOs.Mm
