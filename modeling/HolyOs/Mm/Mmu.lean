import HolyOs.Foundation.Remap
import HolyOs.Mm.VmmCounter
import HolyOs.Mm.VmmOwnership
import HolyOs.Mm.VmmTables

/-!
# The memory of a kernel with paging on

The processor takes the addresses of the program to physical memory. It finds the block of a page in
the TLB or in the tables, and it may fill or evict entries of the TLB at any time; `flush_tlb` is
what keeps them up to date. Beside the pages of `vmm_alloc_page` the kernel uses the first 4 MiB
where the physical manager had nothing to give.

## Main definitions

* `Mmu.Step`: the calls of the manager, the loads and stores of the program and the changes of the
  TLB.
* `Mmu.Has`: the addresses that the program may use.
-/
namespace HolyOs.Mm

open ByteMemory HolyOs.Lib Remap Transition

/-! ## The blocks that the manager does not write -/

section Blocks

variable {v w : Vmm} {a : AddressSpace} {b : Nat}

/-- The bytes of block `b` are the same. -/
def SameBlock (m m' : Memory) (b : Nat) : Prop := SameOn m m' (4096 * b) (4096 * b + 4096)

theorem sameBlock_refl (m : Memory) (b : Nat) : SameBlock m m b := fun _ _ _ => rfl

theorem sameBlock_store32 (m : Memory) {t i : Nat} (value : Nat) (hi : i < 1024) (hne : b ≠ t) :
    SameBlock m (store32 m (4096 * t + 4 * i) value) b := by
  have hwords := word_outside hne hi
  exact sameOn_store32 m value (by omega)

theorem sameBlock_memset (m : Memory) {t : Nat} (ht : t < 2 ^ 20) (hne : b ≠ t) :
    SameBlock m (memset m (4096 * t) 0 pageSize) b := by
  intro x hlo hhi
  rw [memset_apply _ _ (by simp only [pageSize]; omega), if_neg]
  simp only [pageSize]
  omega

/-- The block is not the directory, not a table and not free. -/
structure Vmm.Spares (v : Vmm) (a : AddressSpace) (b : Nat) : Prop where
  root : b ≠ a.root
  table : ∀ i, a.tables i ≠ some b
  used : b ∉ v.pmm.freeBlocks

/-- A new table is written over a free block, and the directory gets its entry. -/
theorem vmmEnsureTable_sameBlock (h : v.Shows a) (hp : v.pmm.Consistent) (hb : v.Spares a b)
    (virt flags : Nat) :
    SameBlock v.mem (vmmEnsureTable v virt flags).2.mem b := by
  unfold vmmEnsureTable
  rcases pmmAllocPageAligned_cases hp with ⟨t, ht, hlt, hres⟩ | ⟨-, hres⟩
  · have hne : b ≠ t := fun heq => hb.used (heq ▸ ht.1)
    dsimp only
    rw [hres, h.directory]
    split_ifs
    · exact sameBlock_refl _ _
    · exact (sameBlock_memset v.mem hlt hne).trans (sameBlock_store32 _ _ (pdIndex_lt virt) hb.root)
    · exact sameBlock_refl _ _
  · dsimp only
    rw [hres]
    dsimp only
    rw [if_pos rfl]
    split_ifs <;> exact sameBlock_refl _ _

theorem vmmSetEntry_sameBlock (h : v.Shows a) {virt t : Nat} (ht : a.tables (pdIndex virt) = some t)
    (hne : b ≠ t) (phys flags : Nat) : SameBlock v.mem (vmmSetEntry v virt phys flags).mem b := by
  rw [vmmSetEntry, h.entryAddr_eq ht]
  exact sameBlock_store32 _ _ (ptIndex_lt virt) hne

theorem vmmMapPage_sameBlock (h : v.Shows a) (hp : v.pmm.Backs a) (hb : v.Spares a b)
    (virt phys : Nat) {flags : Nat} (hflags : flags < 4096) :
    SameBlock v.mem (vmmMapPage v virt phys flags).2.mem b := by
  have hensure := vmmEnsureTable_sameBlock h hp.consistent hb virt flags
  unfold vmmMapPage
  dsimp only
  split_ifs with hok
  · refine hensure.trans ?_
    cases ht : a.tables (pdIndex virt) with
    | some t =>
      rw [vmmEnsureTable_of_table h ht]
      exact vmmSetEntry_sameBlock h ht (fun heq => hb.table _ (heq ▸ ht)) _ _
    | none =>
      rcases Finset.eq_empty_or_nonempty v.pmm.freeBlocks with hempty | hfree
      · rw [vmmEnsureTable_of_exhausted h ht hempty] at hok
        cases hok
      · obtain ⟨t, htfree⟩ := exists_firstFree hfree
        by_cases hzero : t = 0
        · subst hzero
          rw [vmmEnsureTable, if_pos ((h.pde_absent virt).mpr ht),
            pmmAllocPageAligned_of_firstFree hp.consistent htfree] at hok
          cases hok
        · obtain ⟨w, hres, -, -, hw⟩ :=
            vmmEnsureTable_of_firstFree h hp ht htfree hzero hflags
          rw [hres]
          have hne : b ≠ t := fun heq => hb.used (heq ▸ htfree.1)
          exact vmmSetEntry_sameBlock hw (by simp [setTable_tables]) hne _ _
  · exact hensure

/-- `vmm_alloc_page` writes to the directory, to tables and to blocks that were free. -/
theorem vmmAllocPage_sameBlock (h : v.Shows a) (hp : v.pmm.Backs a) (hb : v.Spares a b)
    {flags : Nat}
    (hflags : flags < 4096) : SameBlock v.mem (vmmAllocPage v flags).2.mem b := by
  unfold vmmAllocPage
  rcases pmmAllocPageAligned_cases hp.consistent with ⟨f, hf, -, hres⟩ | ⟨-, hres⟩
  · rw [hres]
    dsimp only
    generalize hx : ({ v with
      pmm := v.pmm.take f
      nextVirt := Word32.wrap (v.nextVirt + pageSize) } : Vmm) = x
    have hmem : x.mem = v.mem := by rw [← hx]
    have hpmm : x.pmm = v.pmm.take f := by rw [← hx]
    have hspares : x.Spares a b := by
      refine ⟨hb.root, hb.table, ?_⟩
      rw [hpmm, freeBlocks_take]
      exact fun hfree => hb.used (Finset.mem_of_mem_erase hfree)
    have hmap := vmmMapPage_sameBlock (h.congr hmem (by rw [← hx])) (hpmm ▸ hp.take f) hspares
      v.nextVirt (4096 * f) hflags
    rw [hmem] at hmap
    split_ifs
    · rw [← hmem]
      exact sameBlock_refl _ _
    · exact hmap
    · exact hmap
  · rw [hres]
    dsimp only
    rw [if_pos rfl]
    exact sameBlock_refl _ _

theorem vmmFreePage_sameBlock (h : v.Shows a) (hb : v.Spares a b) (virt : Nat) :
    SameBlock v.mem (vmmFreePage v virt).mem b := by
  unfold vmmFreePage
  split_ifs with habsent
  · exact sameBlock_refl _ _
  · rw [h.pde_absent] at habsent
    obtain ⟨t, ht⟩ := Option.ne_none_iff_exists'.mp habsent
    dsimp only
    rw [h.entryAddr_eq ht]
    exact sameBlock_store32 _ _ (ptIndex_lt virt) fun heq => hb.table _ (heq ▸ ht)

/-- What is outside the directory and the tables does not matter. -/
theorem Vmm.Shows.of_sameBlock (h : v.Shows a)
    (hdir : w.currentPageDirectory = v.currentPageDirectory)
    (hroot : SameBlock v.mem w.mem a.root)
    (htables : ∀ i t, a.tables i = some t → SameBlock v.mem w.mem t) : w.Shows a where
  directory := hdir.trans h.directory
  root_lt := h.root_lt
  table_lt := h.table_lt
  table_ne_root := h.table_ne_root
  table_inj := h.table_inj
  pde i hi := by
    rw [load32_congr (hroot.mono (by omega) (by omega))]
    exact h.pde i hi
  pte i hi t ht j hj := by
    rw [load32_congr ((htables i t ht).mono (by omega) (by omega))]
    exact h.pte i hi t ht j hj
  unmapped := h.unmapped

/-- An allocation maps the page of the counter, or nothing. -/
theorem AllocOutcome.frames {c : AddressSpace} {r : Nat} (h : AllocOutcome v a r w c) :
    c.root = a.root ∧ (r = 0 ∧ c.frames = a.frames ∨
      r = v.nextVirt ∧ v.pmm.freeBlocks ≠ ∅ ∧
        ∃ f, c.frames = Function.update a.frames (v.nextVirt / 4096) (some f)) := by
  cases h with
  | exhausted => exact ⟨rfl, .inl ⟨rfl, rfl⟩⟩
  | blockZero => exact ⟨rfl, .inl ⟨rfl, rfl⟩⟩
  | mapped hf => exact ⟨rfl, .inr ⟨rfl, Finset.ne_empty_of_mem hf.1, _, rfl⟩⟩
  | noTable => exact ⟨rfl, .inl ⟨rfl, rfl⟩⟩
  | newTable hf => exact ⟨rfl, .inr ⟨rfl, Finset.ne_empty_of_mem hf.1, _, rfl⟩⟩

theorem vmmInit_sameBlock {p : Pmm} {root table : Nat} (h : VmmStart p root table) (mem : Memory)
    (hused : b ∉ p.freeBlocks) : SameBlock mem (vmmInit p mem).mem b := by
  have htable := h.table_lt
  have hroot := h.root_lt_table.trans htable
  have hne : b ≠ root := fun heq => hused (heq ▸ h.root_free.1)
  have hnet : b ≠ table := by
    have htfree := h.table_free.1
    rw [freeBlocks_take] at htfree
    exact fun heq => hused (heq ▸ Finset.mem_of_mem_erase htfree)
  rw [vmmInit_eq h mem]
  refine ((sameBlock_memset mem hroot hne).trans (sameBlock_memset _ htable hnet)).trans ?_
  refine SameOn.trans (sameOn_storeWords _ _ ?_) (sameBlock_store32 (i := 0) _ _ (by omega) hne)
  have hwords := word_outside (j := 0) hnet (by omega)
  omega

end Blocks

/-! ## The processor -/

/-- A client of the manager, and the TLB with blocks by page number. -/
structure Mmu where
  client : VmmClient
  tlb : Nat → Option Nat

/-- An operation, with the address or the byte that it returns. -/
inductive MmuOp
  | alloc (flags virt : Nat)
  | free (virt : Nat)
  | load (addr : Nat) (value : UInt8)
  | store (addr : Nat) (value : UInt8)
  /-- The processor loads an entry of the TLB, or drops it. -/
  | fill (page : Nat)
  | evict (page : Nat)

def flushTlb (tlb : Nat → Option Nat) (virt : Nat) : Nat → Option Nat :=
  Function.update tlb (virt / pageSize) none

namespace Mmu

variable (p : Pmm) (s : Mmu)

def vmm : Vmm := s.client.vmm

/-- The physical address that an access goes to. -/
def place (addr : Nat) : Option Nat :=
  (lookup s.tlb (fun page => s.vmm.frameOf (pageSize * page)) (addr / pageSize)).map fun block =>
    pageSize * block + addr % pageSize

/-- The pages that were handed out, and what was not free in the first 4 MiB before `vmm_init`. -/
def Has (addr : Nat) : Prop :=
  pageSize * (addr / pageSize) ∈ s.client.live ∨
    addr / pageSize < 1024 ∧ addr / pageSize ∉ p.freeBlocks

instance decidableHas (addr : Nat) : Decidable (s.Has p addr) := inferInstanceAs (Decidable (_ ∨ _))

/-- The TLB is flushed of the page where `vmm_map_page` has written its entry. -/
def allocPage (flags : Nat) : Mmu :=
  let virt := (vmmAllocPage s.vmm flags).1
  ⟨s.client.enter (.allocPage flags), if virt = 0 then s.tlb else flushTlb s.tlb virt⟩

@[simp] theorem allocPage_client (flags : Nat) :
    (s.allocPage flags).client = s.client.enter (.allocPage flags) := rfl

def freePage (virt : Nat) : Mmu :=
  ⟨s.client.enter (.freePage virt),
    if s.vmm.pde (pdIndex virt) &&& pagePresent = 0 then s.tlb else flushTlb s.tlb virt⟩

def write (phys : Nat) (value : UInt8) : Mmu :=
  { s with client := { s.client with vmm := { s.vmm with mem := store8 s.vmm.mem phys value } } }

/-- A call of the manager finds room for its tables, and its counter has not wrapped. -/
def Allowed (op : VmmOp) : Prop :=
  s.client.Allowed op ∧ s.client.TableRoom op ∧ s.client.CounterRoom op

inductive Step (p : Pmm) : Mmu → MmuOp → Mmu → Prop
  | alloc {s : Mmu} {flags : Nat} : s.Allowed (.allocPage flags) →
      Step p s (.alloc flags (vmmAllocPage s.vmm flags).1) (s.allocPage flags)
  | free {s : Mmu} {virt : Nat} : s.Allowed (.freePage virt) →
      Step p s (.free virt) (s.freePage virt)
  | load {s : Mmu} {addr phys : Nat} : s.Has p addr → s.place addr = some phys →
      Step p s (.load addr (s.vmm.mem phys)) s
  | store {s : Mmu} {addr phys : Nat} {value : UInt8} : s.Has p addr → s.place addr = some phys →
      Step p s (.store addr value) (s.write phys value)
  | fill {s : Mmu} {page : Nat} : page < 2 ^ 20 → Step p s (.fill page)
      { s with tlb := Function.update s.tlb page (s.vmm.frameOf (pageSize * page)) }
  | evict {s : Mmu} {page : Nat} : Step p s (.evict page)
      { s with tlb := Function.update s.tlb page none }

/-- After `vmm_init`, whose `load_page_directory` leaves nothing in the TLB. -/
def start (mem : Memory) : Mmu := ⟨.start p mem, fun _ => none⟩

@[simp] theorem start_client (mem : Memory) : (start p mem).client = .start p mem := rfl

/-- Where the bytes of the program are. -/
def route (addr : Nat) : Option Nat := if s.Has p addr then s.place addr else none

/-- What the program finds at its addresses. -/
def contents : Flat Nat UInt8 := view (s.route p) s.vmm.mem

end Mmu

/-- The addresses of a page. -/
def pageOf (virt : Nat) : Set Nat := { addr | addr / pageSize = virt / pageSize }

/-- What an operation does to the memory of the program. -/
def MmuOp.flat : MmuOp → Option (Flat.Act Nat UInt8)
  | .alloc _ virt => if virt = 0 then none else some (.grow (pageOf virt))
  | .free virt => some (.shrink (pageOf virt))
  | .load addr value => some (.load addr value)
  | .store addr value => some (.store addr value)
  | .fill _ => none
  | .evict _ => none

/-! ## What the processor finds -/

namespace Mmu

/-- The invariant of the client, with the tables where the manager reaches them and a TLB that is up
to date. -/
structure Sound (p : Pmm) (n : Nat) (s : Mmu) (a : AddressSpace) : Prop
    extends VmmClient.Sound p n s.client a where
  root : a.root < 1024
  low : ∀ i t, s.vmm.HasTable i t → t < 1024
  coherent : Coherent s.tlb a.frames

variable {p : Pmm} {n m : Nat} {s t : Mmu} {a b : AddressSpace} {addr : Nat}

theorem Sound.lookup_eq (h : s.Sound p n a) {page : Nat} (hpage : page < 2 ^ 20) :
    lookup s.tlb (fun page => s.vmm.frameOf (pageSize * page)) page = a.frames page := by
  have hframe : s.vmm.frameOf (pageSize * page) = a.frames page := by
    have hshows : s.vmm.Shows a := h.shows
    rw [hshows.frameOf_eq (by simp only [pageSize]; omega), pageSize,
      Nat.mul_div_cancel_left page (by omega)]
  rw [← h.coherent.lookup_eq page, lookup, lookup, hframe]

theorem Sound.place_eq (h : s.Sound p n a) (haddr : addr < 2 ^ 32) :
    s.place addr = (a.frames (addr / 4096)).map fun block => 4096 * block + addr % 4096 := by
  have hlookup := h.lookup_eq (show addr / 4096 < 2 ^ 20 by omega)
  simp only [pageSize] at hlookup
  simp only [place, pageSize, hlookup]

/-- An address of the program is in a page whose block the manager does not write. -/
theorem Sound.spares (h : s.Sound p n a) (hhas : s.Has p addr) : addr < 2 ^ 32 ∧
    ∃ block, a.frames (addr / 4096) = some block ∧ s.vmm.Spares a block := by
  rcases hhas with hlive | ⟨hlow, hused⟩
  · simp only [pageSize] at hlive
    obtain ⟨-, hpage, -⟩ := (h.live _).mp hlive
    obtain ⟨hlt, block, hframe, hinUse⟩ := h.mapped hlive
    rw [Nat.mul_div_cancel_left _ (by omega)] at hpage hframe
    refine ⟨by omega, block, hframe, h.layout.frame_ne_root hpage hframe,
      fun i => h.layout.frame_ne_table hpage hframe, fun hfree => ?_⟩
    have hclear := (mem_freeBlocks.mp hfree).2
    simp [vmm, hinUse.marked] at hclear
  · simp only [pageSize] at hlow hused
    refine ⟨by omega, _, h.layout.identity _ hlow, ?_, ?_, fun hfree => hused (h.free hfree).1⟩
    · exact fun heq => hused (heq ▸ h.layout.owned .directory)
    · exact fun i ht => hused (h.layout.owned (.table ht))

/-- Two pages of the program are never in one block. -/
theorem Sound.page_inj (h : s.Sound p n a) {x y block : Nat} (hx : s.Has p x) (hy : s.Has p y)
    (hbx : a.frames (x / 4096) = some block) (hby : a.frames (y / 4096) = some block) :
    x / 4096 = y / 4096 := by
  have hpage : ∀ {z}, s.Has p z → firstPage ≤ z / 4096 ∨
      z / 4096 < 1024 ∧ z / 4096 ∉ p.freeBlocks := by
    rintro z (hlive | hlow)
    · have hrange := ((h.live _).mp hlive).2.1
      rw [pageSize, Nat.mul_div_cancel_left _ (by omega)] at hrange
      exact .inl hrange
    · exact .inr hlow
  -- the block of a low page has the number of the page, and was not free
  have hmixed : ∀ {z w}, firstPage ≤ z / 4096 → w / 4096 < 1024 → w / 4096 ∉ p.freeBlocks →
      a.frames (z / 4096) = some block → a.frames (w / 4096) = some block → False := by
    intro z w hz hlow hused hbz hbw
    rw [h.layout.identity _ hlow] at hbw
    obtain rfl := Option.some.inj hbw
    exact hused (h.layout.owned (.frame hz hbz))
  rcases hpage hx with hx | ⟨hx, hxused⟩ <;> rcases hpage hy with hy | ⟨hy, hyused⟩
  · exact h.layout.frame_inj hx hy hbx hby
  · exact (hmixed hx hy hyused hbx hby).elim
  · exact (hmixed hy hx hxused hby hbx).elim
  · rw [h.layout.identity _ hx] at hbx
    rw [h.layout.identity _ hy] at hby
    exact Option.some.inj (hbx.trans hby.symm)

theorem Sound.route_of_has (h : s.Sound p n a) (hhas : s.Has p addr) : ∃ block,
    a.frames (addr / 4096) = some block ∧ s.vmm.Spares a block ∧
      s.route p addr = some (4096 * block + addr % 4096) := by
  obtain ⟨haddr, block, hframe, hspares⟩ := h.spares hhas
  refine ⟨block, hframe, hspares, ?_⟩
  rw [route, if_pos hhas, h.place_eq haddr, hframe, Option.map_some]

theorem Sound.contents_isSome (h : s.Sound p n a) :
    (s.contents p addr).isSome ↔ s.Has p addr := by
  unfold contents view
  rw [Option.isSome_map]
  by_cases hhas : s.Has p addr
  · obtain ⟨block, -, -, hroute⟩ := h.route_of_has hhas
    simp [hroute, hhas]
  · simp [route, hhas]

theorem contents_of_not_has (hhas : ¬ s.Has p addr) : s.contents p addr = none := by
  simp [contents, view, route, hhas]

theorem Sound.route_inj (h : s.Sound p n a) {x y phys : Nat} (hx : s.route p x = some phys)
    (hy : s.route p y = some phys) : y = x := by
  have hhas : ∀ {z}, s.route p z = some phys → s.Has p z := by
    intro z hz
    by_contra hnot
    simp [route, hnot] at hz
  obtain ⟨bx, hbx, -, hroutex⟩ := h.route_of_has (hhas hx)
  obtain ⟨by', hby, -, hroutey⟩ := h.route_of_has (hhas hy)
  have hphysx := Option.some.inj (hroutex.symm.trans hx)
  have hphysy := Option.some.inj (hroutey.symm.trans hy)
  obtain rfl : bx = by' := by omega
  have hpage := h.page_inj (hhas hx) (hhas hy) hbx hby
  omega

/-- An address keeps its byte where its page keeps its block and the block its bytes. -/
theorem Sound.contents_congr (h : s.Sound p n a) (ht : t.Sound p m b)
    (hhas : t.Has p addr ↔ s.Has p addr) (hframe : b.frames (addr / 4096) = a.frames (addr / 4096))
    (hmem : ∀ block, s.vmm.Spares a block → SameBlock s.vmm.mem t.vmm.mem block) :
    t.contents p addr = s.contents p addr := by
  by_cases hs : s.Has p addr
  · obtain ⟨block, hblock, hspares, hroute⟩ := h.route_of_has hs
    obtain ⟨block', hblock', -, hroute'⟩ := ht.route_of_has (hhas.mpr hs)
    obtain rfl := Option.some.inj (hblock'.symm.trans (hframe.trans hblock))
    rw [contents, contents, view, view, hroute, hroute', Option.map_some, Option.map_some,
      hmem _ hspares _ (by omega) (by omega)]
  · rw [contents_of_not_has hs, contents_of_not_has (hhas.not.mpr hs)]

/-! ## The steps -/

theorem Sound.lowTables (h : s.Sound p n a) : a.LowTables := by
  intro i t ht
  have hshows : s.vmm.Shows a := h.shows
  exact h.low i t (hshows.hasTable_iff.mpr ht)

/-- The tables are below 4 MiB after an allocation with room for them. -/
theorem Sound.low_allocPage (h : s.Sound p n a) {flags : Nat}
    (hallowed : s.Allowed (.allocPage flags)) (i t : Nat) :
    (s.allocPage flags).vmm.HasTable i t → t < 1024 := by
  obtain ⟨hok, hroom, hcounter⟩ := hallowed
  by_cases hfree : s.client.vmm.pmm.freeBlocks = ∅
  · have hsame : (s.allocPage flags).vmm = s.vmm := by
      change (vmmAllocPage s.client.vmm flags).2 = s.client.vmm
      rw [vmmAllocPage, pmmAllocPageAligned, pmmAllocPageInternal_of_empty hfree]
      rfl
    rw [hsame]
    exact h.low i t
  · obtain ⟨m, b, hsound, hlow, -⟩ :=
      h.step_lowTables h.lowTables ⟨hok, rfl⟩ (h.counter_lt (hcounter hfree)) hroom
    exact fun htable => hlow (hsound.shows.hasTable_iff.mp htable)

theorem mem_pageOf {virt : Nat} : addr ∈ pageOf virt ↔ addr / 4096 = virt / 4096 := Iff.rfl

/-- The address of a page that is handed out is in the page. -/
theorem Sound.has_live (h : s.Sound p n a) {virt : Nat} (hvirt : virt ∈ s.client.live)
    (haddr : addr ∈ pageOf virt) : s.Has p addr := by
  obtain ⟨haligned, -, -⟩ := (h.live virt).mp hvirt
  rw [mem_pageOf] at haddr
  have hpage : pageSize * (addr / pageSize) = virt := by
    simp only [pageSize]
    omega
  exact .inl (hpage ▸ hvirt)

/-- What is in a page above 3 GiB and not handed out is not the program's. -/
theorem not_has_of_not_live {virt : Nat} (hpage : firstPage ≤ virt / 4096)
    (haligned : virt % 4096 = 0)
    (hvirt : virt ∉ s.client.live) (haddr : addr ∈ pageOf virt) : ¬ s.Has p addr := by
  rw [mem_pageOf] at haddr
  simp only [firstPage] at hpage
  rintro (hlive | ⟨hlow, -⟩)
  · have hbase : pageSize * (addr / pageSize) = virt := by
      simp only [pageSize]
      omega
    exact hvirt (hbase ▸ hlive)
  · simp only [pageSize] at hlow
    omega

/-- The addresses outside a page are the program's as before when the page comes or goes. -/
theorem has_iff_of_not_mem {virt : Nat} (haddr : addr ∉ pageOf virt)
    (hlive : ∀ x ≠ virt, x ∈ t.client.live ↔ x ∈ s.client.live) : t.Has p addr ↔ s.Has p addr := by
  rw [mem_pageOf] at haddr
  have hne : pageSize * (addr / pageSize) ≠ virt := by
    simp only [pageSize]
    omega
  rw [Has, Has, hlive _ hne]

/-- A page is handed out. -/
theorem Sound.grows (h : s.Sound p n a) (ht : t.Sound p m b) {virt f : Nat}
    (hnone : virt ∉ s.client.live) (hlive : t.client.live = insert virt s.client.live)
    (hframes : b.frames = Function.update a.frames (virt / 4096) (some f))
    (hmem : ∀ block, s.vmm.Spares a block → SameBlock s.vmm.mem t.vmm.mem block) :
    Flat.Step (s.contents p) (.grow (pageOf virt)) (t.contents p) := by
  have hvirt : virt ∈ t.client.live := hlive ▸ Finset.mem_insert_self _ _
  obtain ⟨haligned, hpage, -⟩ := (ht.live virt).mp hvirt
  refine .grow (fun addr haddr => ⟨?_, ?_⟩) fun addr haddr => ?_
  · exact contents_of_not_has (not_has_of_not_live hpage haligned hnone haddr)
  · exact ht.contents_isSome.mpr (ht.has_live hvirt haddr)
  · refine h.contents_congr ht (has_iff_of_not_mem haddr fun x hx => ?_) ?_ hmem
    · rw [hlive, Finset.mem_insert, or_iff_right hx]
    · rw [hframes]
      exact Function.update_of_ne (fun heq => haddr heq) _ _

/-- A page is taken back. -/
theorem Sound.shrinks (h : s.Sound p n a) (ht : t.Sound p m b) {virt : Nat}
    (hvirt : virt ∈ s.client.live) (hlive : t.client.live = s.client.live.erase virt)
    (hframes : b.frames = Function.update a.frames (virt / 4096) none)
    (hmem : ∀ block, s.vmm.Spares a block → SameBlock s.vmm.mem t.vmm.mem block) :
    Flat.Step (s.contents p) (.shrink (pageOf virt)) (t.contents p) := by
  obtain ⟨haligned, hpage, -⟩ := (h.live virt).mp hvirt
  have hnone : virt ∉ t.client.live := hlive ▸ Finset.notMem_erase _ _
  refine .shrink (fun addr haddr => ⟨?_, ?_⟩) fun addr haddr => ?_
  · exact h.contents_isSome.mpr (h.has_live hvirt haddr)
  · exact contents_of_not_has (not_has_of_not_live hpage haligned hnone haddr)
  · refine h.contents_congr ht (has_iff_of_not_mem haddr fun x hx => ?_) ?_ hmem
    · rw [hlive, Finset.mem_erase, and_iff_right hx]
    · rw [hframes]
      exact Function.update_of_ne (fun heq => haddr heq) _ _

theorem Sound.allocPage (h : s.Sound p n a) {flags : Nat}
    (hallowed : s.Allowed (.allocPage flags)) : ∃ m b, (s.allocPage flags).Sound p m b ∧
      (if (vmmAllocPage s.vmm flags).1 = 0 then (s.allocPage flags).contents p = s.contents p
      else Flat.Step (s.contents p) (.grow (pageOf (vmmAllocPage s.vmm flags).1))
        ((s.allocPage flags).contents p)) := by
  have hlow := h.low_allocPage hallowed
  obtain ⟨hok, -, hcounter⟩ := hallowed
  have hroom : s.client.vmm.pmm.freeBlocks ≠ ∅ → n < 2 ^ 18 := fun hfree =>
    h.counter_lt (hcounter hfree)
  obtain ⟨b, ho⟩ : ∃ b, AllocOutcome s.vmm a (vmmAllocPage s.vmm flags).1
      (vmmAllocPage s.vmm flags).2 b := vmmAllocPage_outcome h.shows h.backs h.nextVirt_lt hok
  have hclient : VmmClient.Sound p (n + s.client.taken) (s.allocPage flags).client b :=
    h.alloc hroom ho
  have hmem : ∀ block, s.vmm.Spares a block →
      SameBlock s.vmm.mem (s.allocPage flags).vmm.mem block := fun block hspares =>
    vmmAllocPage_sameBlock h.shows h.backs hspares hok
  have hlive : (s.allocPage flags).client.live = if (vmmAllocPage s.vmm flags).1 = 0
    then s.client.live else insert (vmmAllocPage s.vmm flags).1 s.client.live := rfl
  have htlb : (s.allocPage flags).tlb = if (vmmAllocPage s.vmm flags).1 = 0
    then s.tlb else flushTlb s.tlb (vmmAllocPage s.vmm flags).1 := rfl
  obtain ⟨hroot, ⟨hzero, hframes⟩ | ⟨hresult, hfree, f, hframes⟩⟩ := ho.frames
  · rw [if_pos hzero] at hlive htlb
    have hsound : (s.allocPage flags).Sound p (n + s.client.taken) b :=
      { hclient with
        root := hroot ▸ h.root
        low := hlow
        coherent := by rw [htlb, hframes]; exact h.coherent }
    refine ⟨_, b, hsound, ?_⟩
    rw [if_pos hzero]
    funext addr
    exact h.contents_congr hsound (by rw [Has, Has, hlive]) (by rw [hframes]) hmem
  · have hn := hroom hfree
    have hne : (vmmAllocPage s.vmm flags).1 ≠ 0 := fun hzero =>
      h.nextVirt_pos hn (hresult.symm.trans hzero)
    rw [if_neg hne] at hlive htlb
    rw [← hresult] at hframes
    have hpage : (vmmAllocPage s.vmm flags).1 / 4096 = firstPage + n :=
      (congrArg (· / 4096) hresult).trans (h.nextPage_eq hn)
    have hnone : a.frames ((vmmAllocPage s.vmm flags).1 / 4096) = none :=
      hpage ▸ h.nextPage_unmapped
    have hsound : (s.allocPage flags).Sound p (n + s.client.taken) b :=
      { hclient with
        root := hroot ▸ h.root
        low := hlow
        coherent := by
          rw [htlb, hframes]
          exact h.coherent.flush fun page hpage => Function.update_of_ne hpage _ _ }
    refine ⟨_, b, hsound, ?_⟩
    rw [if_neg hne]
    exact h.grows hsound (fun hmem => ((h.live _).mp hmem).2.2 hnone) hlive hframes hmem

theorem Sound.freePage (h : s.Sound p n a) {virt : Nat} (hvirt : virt ∈ s.client.live) :
    (s.freePage virt).Sound p n (a.setFrame (virt / 4096) none) ∧
      Flat.Step (s.contents p) (.shrink (pageOf virt)) ((s.freePage virt).contents p) := by
  obtain ⟨f, hframe, -, hclient⟩ := VmmClient.Sound.freePage h.toSound hvirt
  obtain ⟨hlt, -⟩ := h.mapped hvirt
  have htable : ¬ s.vmm.pde (pdIndex virt) &&& pagePresent = 0 := by
    have hshows : s.vmm.Shows a := h.shows
    rw [hshows.pde_absent]
    intro hnone
    have hunmapped := hshows.frames_of_no_table hlt hnone
    rw [hframe] at hunmapped
    cases hunmapped
  have hshows : (s.freePage virt).vmm.Shows (a.setFrame (virt / 4096) none) := hclient.shows
  have hsound : (s.freePage virt).Sound p n (a.setFrame (virt / 4096) none) :=
    { hclient with
      root := h.root
      low := fun i t ht => h.lowTables (hshows.hasTable_iff.mp ht)
      coherent := by
        have htlb : (s.freePage virt).tlb = flushTlb s.tlb virt := if_neg htable
        rw [htlb]
        exact h.coherent.flush fun page hpage => Function.update_of_ne hpage _ _ }
  refine ⟨hsound, h.shrinks hsound hvirt rfl rfl fun block hspares => ?_⟩
  exact vmmFreePage_sameBlock h.shows hspares virt

/-- A store of the program changes no table, and its byte only. -/
theorem Sound.write (h : s.Sound p n a) {phys : Nat} (hhas : s.Has p addr)
    (hplace : s.place addr = some phys) (value : UInt8) : (s.write phys value).Sound p n a ∧
      (s.write phys value).contents p = Function.update (s.contents p) addr (some value) := by
  obtain ⟨block, hframe, hspares, hroute⟩ := h.route_of_has hhas
  have hphys : s.route p addr = some phys := by rw [route, if_pos hhas, hplace]
  obtain rfl : 4096 * block + addr % 4096 = phys := Option.some.inj (hroute.symm.trans hphys)
  have hother : ∀ c, c ≠ block →
      SameBlock s.vmm.mem (s.write (4096 * block + addr % 4096) value).vmm.mem c := by
    intro c hne
    refine sameOn_store8 s.vmm.mem value ?_
    rcases Nat.lt_or_gt_of_ne hne with hlt | hgt <;> omega
  have hbefore : s.vmm.Shows a := h.shows
  have hshows : (s.write (4096 * block + addr % 4096) value).vmm.Shows a :=
    hbefore.of_sameBlock rfl (hother _ hspares.root.symm)
      fun i t ht => hother t fun heq => hspares.table i (heq ▸ ht)
  have hsound : (s.write (4096 * block + addr % 4096) value).Sound p n a :=
    { h with
      shows := hshows
      low := fun i t ht => h.lowTables (hshows.hasTable_iff.mp ht) }
  have hroutes : (s.write (4096 * block + addr % 4096) value).route p = s.route p := by
    funext x
    by_cases hx : s.Has p x
    · obtain ⟨haddr, -⟩ := h.spares hx
      unfold route
      rw [h.place_eq haddr, hsound.place_eq haddr]
      rfl
    · exact (if_neg hx).trans (if_neg hx).symm
  have hupdate : (s.write (4096 * block + addr % 4096) value).vmm.mem =
      Function.update s.vmm.mem (4096 * block + addr % 4096) value :=
    funext fun x => (Function.update_apply s.vmm.mem _ value x).symm
  refine ⟨hsound, ?_⟩
  rw [contents, hroutes, hupdate]
  exact view_update hphys (fun x hx => h.route_inj hphys hx) value

theorem Sound.fill (h : s.Sound p n a) {page : Nat} (hpage : page < 2 ^ 20) :
    Sound p n { s with
      tlb := Function.update s.tlb page (s.vmm.frameOf (pageSize * page)) } a := by
  have hshows : s.vmm.Shows a := h.shows
  have hframe : s.vmm.frameOf (pageSize * page) = a.frames page := by
    rw [hshows.frameOf_eq (by simp only [pageSize]; omega), pageSize,
      Nat.mul_div_cancel_left page (by omega)]
  rw [hframe]
  exact { h with coherent := h.coherent.fill page }

theorem Sound.evict (h : s.Sound p n a) (page : Nat) :
    Sound p n { s with tlb := Function.update s.tlb page none } a :=
  { h with coherent := h.coherent.flush fun _ _ => rfl }

/-- The TLB makes no difference to the program. -/
theorem Sound.contents_tlb (h : s.Sound p n a) {tlb : Nat → Option Nat}
    (ht : Sound p n { s with tlb := tlb } a) : contents p { s with tlb := tlb } = s.contents p :=
  funext fun _ => h.contents_congr ht Iff.rfl rfl fun _ _ => sameBlock_refl _ _

/-! ## The memory of the program -/

/-- What is in the first 4 MiB and was not free. -/
def kernelMemory (p : Pmm) (mem : Memory) : Flat Nat UInt8 := fun addr =>
  if addr / pageSize < 1024 ∧ addr / pageSize ∉ p.freeBlocks then some (mem addr) else none

theorem start_sound {root table : Nat} (h : VmmStart p root table) (hlow : table < 1024)
    (mem : Memory) : (Mmu.start p mem).Sound p 0 (.initial root table) :=
  { h.sound mem with
    root := h.root_lt_table.trans hlow
    low := fun _ _ ht => lowTables_initial hlow ((h.sound mem).shows.hasTable_iff.mp ht)
    coherent := coherent_empty _ }

/-- The program finds its memory as it was when paging is turned on. -/
theorem start_contents {root table : Nat} (h : VmmStart p root table) (hlow : table < 1024)
    (mem : Memory) : (Mmu.start p mem).contents p = kernelMemory p mem := by
  funext addr
  have hsound := start_sound h hlow mem
  have hhas : (Mmu.start p mem).Has p addr ↔
      addr / pageSize < 1024 ∧ addr / pageSize ∉ p.freeBlocks :=
    or_iff_right (Finset.notMem_empty _)
  unfold kernelMemory
  split_ifs with hkernel
  · obtain ⟨block, hframe, -, hroute⟩ := hsound.route_of_has (hhas.mpr hkernel)
    simp only [pageSize] at hkernel
    rw [hsound.layout.identity _ hkernel.1] at hframe
    obtain rfl := Option.some.inj hframe
    have hsame := vmmInit_sameBlock h mem hkernel.2
    rw [contents, view, hroute, Nat.div_add_mod, Option.map_some]
    exact congrArg some (hsame addr (by omega) (by omega))
  · exact contents_of_not_has (hhas.not.mpr hkernel)

/-- What paging is for the program, and for the manager. -/
structure Transparent (p : Pmm) (s : Mmu) : Prop where
  /-- No access to an address of the program faults. -/
  present : ∀ addr, s.Has p addr → (s.place addr).isSome
  /-- The directory and the tables are at their physical addresses. -/
  directory : ∀ k < pageSize,
    s.place (s.vmm.currentPageDirectory + k) = some (s.vmm.currentPageDirectory + k)
  table : ∀ i t, s.vmm.HasTable i t → ∀ k < pageSize,
    s.place (pageSize * t + k) = some (pageSize * t + k)

theorem Sound.place_low (h : s.Sound p n a) {block k : Nat} (hblock : block < 1024)
    (hk : k < pageSize) : s.place (pageSize * block + k) = some (pageSize * block + k) := by
  simp only [pageSize] at hk ⊢
  rw [h.place_eq (by omega), show (4096 * block + k) / 4096 = block by omega,
    h.layout.identity block hblock, Option.map_some]
  exact congrArg some (by omega)

theorem Sound.transparent (h : s.Sound p n a) : s.Transparent p where
  present addr hhas := by
    obtain ⟨haddr, block, hframe, -⟩ := h.spares hhas
    rw [h.place_eq haddr, hframe]
    rfl
  directory k hk := by
    have hdirectory : s.vmm.currentPageDirectory = pageSize * a.root := h.shows.directory
    rw [hdirectory]
    exact h.place_low h.root hk
  table i t ht k hk := h.place_low (h.low i t ht) hk

/-- The machine is in a state that a run can reach, and the program's memory is `f`. -/
structure Refines (p : Pmm) (s : Mmu) (f : Flat Nat UInt8) : Prop where
  sound : ∃ n a, s.Sound p n a
  contents : s.contents p = f

theorem Refines.hidden {op : MmuOp} {f : Flat Nat UInt8} (h : s.Refines p f) (hop : op.flat = none)
    (hstep : Step p s op t) : t.Refines p f := by
  obtain ⟨⟨n, a, hsound⟩, rfl⟩ := h
  cases hstep with
  | @alloc flags hallowed =>
    obtain ⟨m, b, hnew, hcontents⟩ := hsound.allocPage hallowed
    have hzero : (vmmAllocPage s.vmm flags).1 = 0 := by
      by_contra hne
      simp [MmuOp.flat, hne] at hop
    rw [if_pos hzero] at hcontents
    exact ⟨⟨m, b, hnew⟩, hcontents⟩
  | fill hpage => exact ⟨⟨n, a, hsound.fill hpage⟩, hsound.contents_tlb (hsound.fill hpage)⟩
  | evict => exact ⟨⟨n, a, hsound.evict _⟩, hsound.contents_tlb (hsound.evict _)⟩
  | _ => cases hop

theorem Refines.follows {op : MmuOp} {f : Flat Nat UInt8} {k : Flat.Act Nat UInt8}
    (h : s.Refines p f) (hop : op.flat = some k) (hstep : Step p s op t) :
    Flat.Step f k (t.contents p) ∧ t.Refines p (t.contents p) := by
  obtain ⟨⟨n, a, hsound⟩, rfl⟩ := h
  cases hstep with
  | @alloc flags hallowed =>
    obtain ⟨m, b, hnew, hcontents⟩ := hsound.allocPage hallowed
    have hne : (vmmAllocPage s.vmm flags).1 ≠ 0 := by
      intro hzero
      simp [MmuOp.flat, hzero] at hop
    rw [if_neg hne] at hcontents
    obtain rfl : Flat.Act.grow (pageOf (vmmAllocPage s.vmm flags).1) = k := by
      simpa [MmuOp.flat, hne] using hop
    exact ⟨hcontents, ⟨m, b, hnew⟩, rfl⟩
  | free hallowed =>
    cases hop
    obtain ⟨hnew, hshrink⟩ := hsound.freePage hallowed.1
    exact ⟨hshrink, ⟨n, _, hnew⟩, rfl⟩
  | @load addr phys hhas hplace =>
    cases hop
    have hvalue : s.contents p addr = some (s.vmm.mem phys) := by
      rw [Mmu.contents, view, route, if_pos hhas, hplace, Option.map_some]
    exact ⟨.load hvalue, ⟨n, a, hsound⟩, rfl⟩
  | @store addr phys value hhas hplace =>
    cases hop
    obtain ⟨hnew, hcontents⟩ := hsound.write hhas hplace value
    rw [hcontents]
    exact ⟨.store value (hsound.contents_isSome.mpr hhas), ⟨n, a, hnew⟩, hcontents⟩
  | _ => cases hop

/-- In every run of the kernel the program has a memory of its own: the calls of the manager add
pages to it and take them away, a load finds what was stored, and neither the tables nor the TLB are
seen. -/
theorem paging_is_flat (hp : p.Consistent) (hpair : p.HasLowPair) {mem : Memory}
    {ops : List MmuOp} (hrun : Run (Step p) (.start p mem) ops s) :
    Run Flat.Step (kernelMemory p mem) (ops.filterMap MmuOp.flat) (s.contents p) ∧
      s.Transparent p := by
  have hfree : 2 ≤ p.freeBlocks.card :=
    le_trans hpair (Finset.card_le_card (Finset.filter_subset _ _))
  obtain ⟨root, table, hstart⟩ := exists_vmmStart_of_card hp hfree
  have hlow := (hstart.root_free.hasLowPair_iff hstart.table_free).mp hpair
  have hinit : (Mmu.start p mem).Refines p (kernelMemory p mem) :=
    ⟨⟨0, _, start_sound hstart hlow mem⟩, start_contents hstart hlow mem⟩
  obtain ⟨f, hflat, ⟨n, a, hsound⟩, rfl⟩ := hrun.stutters (R := Refines p) MmuOp.flat hinit
    (fun _ _ _ _ hop h hstep => h.hidden hop hstep)
    (fun _ _ u _ _ hop h hstep => ⟨u.contents p, h.follows hop hstep⟩)
  exact ⟨hflat, hsound.transparent⟩

theorem paging_is_flat_sixBlocks : ∃ (virt : Nat) (s : Mmu), s.Has sixBlocks 0xC0000000 ∧
    Run Flat.Step (kernelMemory sixBlocks fun _ => 0) ([.alloc 3 virt].filterMap MmuOp.flat)
      (s.contents sixBlocks) ∧ s.Transparent sixBlocks := by
  obtain ⟨root, table, hstart⟩ := exists_vmmStart_of_card sixBlocks_consistent (by decide)
  obtain ⟨a, hspare⟩ := VmmClient.Spare.first hstart (fun _ => 0) (by decide)
  have hallowed : (Mmu.start sixBlocks fun _ => 0).Allowed (.allocPage 3) :=
    ⟨show 3 < 4096 by omega, .inr (.inr (show 2 ≤ _ by decide)), fun _ => le_refl 0xC0000000⟩
  have hrun : Run (Step sixBlocks) (Mmu.start sixBlocks fun _ => 0) _ _ := .single (.alloc hallowed)
  have hclient := allocPage_client (.start sixBlocks fun _ => 0) 3
  rw [start_client] at hclient
  generalize (VmmClient.start sixBlocks fun _ => 0).enter (.allocPage 3) = c at hspare hclient
  generalize (Mmu.start sixBlocks fun _ => 0).allocPage 3 = s at hrun hclient
  have hhas : s.Has sixBlocks 0xC0000000 := by
    refine .inl ?_
    rw [hclient, pageSize, show 4096 * (0xC0000000 / 4096) = 0xC0000000 by norm_num]
    exact hspare.held
  exact ⟨_, s, hhas, paging_is_flat sixBlocks_consistent (show 2 ≤ _ by decide) hrun⟩

end Mmu

end HolyOs.Mm
