import HolyOs.Foundation.Transition
import HolyOs.Mm.VmmOutcome

/-!
# Clients of the virtual memory manager

The states a client can reach from `vmm_init` by allocating pages and freeing the pages it
holds. Their invariant has an abstract part, `AddressSpace.Layout`, about who owns which
block and which page, and a part that relates it to the marks of the physical manager, the
counter and the client's live addresses.
-/
namespace HolyOs.Mm

open ByteMemory HolyOs.Lib Transition

/-- The page number of the first address `vmm_alloc_page` returns. -/
@[simp] def firstPage : Nat := 0xC0000

/-! ## The layout of an address space -/

/-- The blocks an address space takes from the physical manager: its directory, its tables
and the frames of allocated pages. -/
inductive AddressSpace.Owns (a : AddressSpace) : Nat → Prop
  | directory : a.Owns a.root
  | table {i t : Nat} : a.tables i = some t → a.Owns t
  | frame {page f : Nat} : firstPage ≤ page → a.frames page = some f → a.Owns f

/-- Blocks come from `pool` and have one owner, the first 1024 pages are mapped to themselves,
and only the first `n` pages of the allocation range have been used. -/
structure AddressSpace.Layout (pool : Finset Nat) (n : Nat) (a : AddressSpace) : Prop where
  owned : ∀ {b}, a.Owns b → b ∈ pool
  frame_ne_root : ∀ {page f}, firstPage ≤ page → a.frames page = some f → f ≠ a.root
  frame_ne_table : ∀ {page f i}, firstPage ≤ page → a.frames page = some f → a.tables i ≠ some f
  frame_inj : ∀ {x y f}, firstPage ≤ x → firstPage ≤ y → a.frames x = some f →
    a.frames y = some f → x = y
  identity : ∀ page < 1024, a.frames page = some page
  gap : ∀ page, 1024 ≤ page → page < firstPage → a.frames page = none
  lowTable : a.tables 0 ≠ none
  used : ∀ {page f}, firstPage ≤ page → a.frames page = some f → page < firstPage + n

namespace AddressSpace

variable {a : AddressSpace} {pool : Finset Nat} {n : Nat}

theorem owns_setTable {i t : Nat} (h : a.tables i = none) (b : Nat) :
    (a.setTable i t).Owns b ↔ a.Owns b ∨ b = t := by
  constructor
  · intro hb
    cases hb with
    | directory => exact .inl .directory
    | table ht =>
      rw [setTable_tables] at ht
      split at ht
      · exact .inr (Option.some.inj ht).symm
      · exact .inl (.table ht)
    | frame hpage hf => exact .inl (.frame hpage hf)
  · rintro (hb | rfl)
    · cases hb with
      | directory => exact .directory
      | @table j _ ht =>
        have hne : j ≠ i := fun heq => by simp [← heq, ht] at h
        exact .table (i := j) (by rw [setTable_tables, if_neg hne, ht])
      | frame hpage hf => exact .frame hpage hf
    · exact .table (i := i) (by rw [setTable_tables, if_pos rfl])

theorem owns_setFrame {page f : Nat} (hpage : firstPage ≤ page) (h : a.frames page = none)
    (b : Nat) : (a.setFrame page (some f)).Owns b ↔ a.Owns b ∨ b = f := by
  constructor
  · intro hb
    cases hb with
    | directory => exact .inl .directory
    | table ht => exact .inl (.table ht)
    | frame hother hf =>
      rw [setFrame_frames] at hf
      split at hf
      · exact .inr (Option.some.inj hf).symm
      · exact .inl (.frame hother hf)
  · rintro (hb | rfl)
    · cases hb with
      | directory => exact .directory
      | table ht => exact .table ht
      | @frame other _ hother hf =>
        have hne : other ≠ page := fun heq => by simp [← heq, hf] at h
        exact .frame hother (by rw [setFrame_frames, if_neg hne, hf])
    · exact .frame hpage (by rw [setFrame_frames, if_pos rfl])

theorem Layout.owns_clearFrame (h : a.Layout pool n) {page f : Nat} (hpage : firstPage ≤ page)
    (hframe : a.frames page = some f) (b : Nat) :
    (a.setFrame page none).Owns b ↔ a.Owns b ∧ b ≠ f := by
  constructor
  · intro hb
    cases hb with
    | directory => exact ⟨.directory, (h.frame_ne_root hpage hframe).symm⟩
    | table ht =>
      refine ⟨.table ht, ?_⟩
      rintro rfl
      exact h.frame_ne_table hpage hframe ht
    | frame hother hf =>
      rw [setFrame_frames] at hf
      split at hf
      · cases hf
      · rename_i hne
        refine ⟨.frame hother hf, ?_⟩
        rintro rfl
        exact hne (h.frame_inj hother hpage hf hframe)
  · rintro ⟨hb, hne⟩
    cases hb with
    | directory => exact .directory
    | table ht => exact .table ht
    | @frame other _ hother hf =>
      have hpages : other ≠ page := by
        rintro rfl
        exact hne (Option.some.inj (hf.symm.trans hframe))
      exact .frame hother (by rw [setFrame_frames, if_neg hpages, hf])

/-- A block nobody owns becomes a table. -/
theorem Layout.setTable (h : a.Layout pool n) {i t : Nat} (hnone : a.tables i = none)
    (hpool : t ∈ pool) (hfresh : ¬ a.Owns t) : (a.setTable i t).Layout pool n where
  owned hb := by
    rcases (owns_setTable hnone _).mp hb with hb | rfl
    · exact h.owned hb
    · exact hpool
  frame_ne_root := h.frame_ne_root
  frame_ne_table hpage hf := by
    rw [setTable_tables]
    split
    · intro heq
      exact hfresh (Option.some.inj heq ▸ .frame hpage hf)
    · exact h.frame_ne_table hpage hf
  frame_inj := h.frame_inj
  identity := h.identity
  gap := h.gap
  lowTable := by
    rw [setTable_tables]
    split
    · simp
    · exact h.lowTable
  used := h.used

/-- A block nobody owns becomes the frame of the next page. -/
theorem Layout.setFrame (h : a.Layout pool n) {f : Nat} (hpool : f ∈ pool)
    (hfresh : ¬ a.Owns f) : (a.setFrame (firstPage + n) (some f)).Layout pool (n + 1) := by
  have hnone : a.frames (firstPage + n) = none := by
    cases hf : a.frames (firstPage + n) with
    | none => rfl
    | some g => exact absurd (h.used (by omega) hf) (by omega)
  exact {
    owned := by
      intro b hb
      rcases (owns_setFrame (by omega) hnone b).mp hb with hb | rfl
      · exact h.owned hb
      · exact hpool
    frame_ne_root := by
      intro page g hpage hg
      rw [setFrame_frames] at hg
      split at hg
      · obtain rfl := Option.some.inj hg
        exact fun hroot => hfresh (hroot ▸ .directory)
      · exact h.frame_ne_root hpage hg
    frame_ne_table := by
      intro page g i hpage hg hi
      rw [setFrame_frames] at hg
      split at hg
      · obtain rfl := Option.some.inj hg
        exact hfresh (.table hi)
      · exact h.frame_ne_table hpage hg hi
    frame_inj := by
      intro x y g hx hy hgx hgy
      rw [setFrame_frames] at hgx hgy
      split at hgx <;> split at hgy
      · omega
      · obtain rfl := Option.some.inj hgx
        exact absurd (.frame hy hgy) hfresh
      · obtain rfl := Option.some.inj hgy
        exact absurd (.frame hx hgx) hfresh
      · exact h.frame_inj hx hy hgx hgy
    identity := by
      intro page hpage
      rw [setFrame_frames, if_neg (by simp only [firstPage]; omega)]
      exact h.identity page hpage
    gap := by
      intro page hlow hhigh
      rw [setFrame_frames, if_neg (by omega)]
      exact h.gap page hlow hhigh
    lowTable := h.lowTable
    used := by
      intro page g hpage hg
      rw [setFrame_frames] at hg
      split at hg
      · omega
      · have := h.used hpage hg
        omega }

/-- A page of the allocation range is unmapped. -/
theorem Layout.clearFrame (h : a.Layout pool n) {page : Nat} (hpage : firstPage ≤ page) :
    (a.setFrame page none).Layout pool n := by
  have hframes : ∀ {x f}, (a.setFrame page none).frames x = some f → a.frames x = some f := by
    intro x f hf
    rw [setFrame_frames] at hf
    split at hf
    · cases hf
    · exact hf
  exact {
    owned := by
      intro b hb
      cases hb with
      | directory => exact h.owned .directory
      | table ht => exact h.owned (.table ht)
      | frame hx hf => exact h.owned (.frame hx (hframes hf))
    frame_ne_root := fun hx hf => h.frame_ne_root hx (hframes hf)
    frame_ne_table := fun hx hf => h.frame_ne_table hx (hframes hf)
    frame_inj := fun hx hy hfx hfy => h.frame_inj hx hy (hframes hfx) (hframes hfy)
    identity := by
      intro x hx
      rw [setFrame_frames, if_neg (by simp only [firstPage] at hpage; omega)]
      exact h.identity x hx
    gap := by
      intro x hlow hhigh
      rw [setFrame_frames, if_neg (by omega)]
      exact h.gap x hlow hhigh
    lowTable := h.lowTable
    used := fun hx hf => h.used hx (hframes hf) }

end AddressSpace

/-! ## Clients -/

/-- A call of a client. -/
inductive VmmOp
  | allocPage (flags : Nat)
  | freePage (virt : Nat)

/-- The manager and the addresses it has returned that have not been freed since. -/
structure VmmClient where
  vmm : Vmm
  live : Finset Nat

/-- Whether a call is an allocation, as a number. -/
def VmmOp.allocs : VmmOp → Nat
  | .allocPage _ => 1
  | .freePage _ => 0

/-- The number of allocation calls. -/
def allocCalls (ops : List VmmOp) : Nat := (ops.map VmmOp.allocs).sum

@[simp] theorem allocCalls_snoc (ops : List VmmOp) (op : VmmOp) :
    allocCalls (ops ++ [op]) = allocCalls ops + op.allocs := by
  simp [allocCalls]

/-- The effect of a call on the manager and the live addresses. -/
def VmmClient.enter (s : VmmClient) : VmmOp → VmmClient
  | .allocPage flags =>
    let r := vmmAllocPage s.vmm flags
    ⟨r.2, if r.1 = 0 then s.live else insert r.1 s.live⟩
  | .freePage virt => ⟨vmmFreePage s.vmm virt, s.live.erase virt⟩

/-- Flags are below the page size and only live pages are freed. -/
def VmmClient.Allowed (s : VmmClient) : VmmOp → Prop
  | .allocPage flags => flags < pageSize
  | .freePage virt => virt ∈ s.live

def VmmClient.Step (s : VmmClient) (op : VmmOp) (t : VmmClient) : Prop :=
  s.Allowed op ∧ t = s.enter op

/-- The state after `vmm_init`. -/
def VmmClient.start (p : Pmm) (mem : Memory) : VmmClient := ⟨vmmInit p mem, ∅⟩

theorem VmmClient.enter_allocPage (s : VmmClient) (flags : Nat) :
    (s.enter (.allocPage flags)).vmm = (vmmAllocPage s.vmm flags).2 := rfl

/-- The invariant of clients, relative to the physical manager `p` before `vmm_init` and the
number `n` of addresses taken from the counter. -/
structure VmmClient.Sound (p : Pmm) (n : Nat) (s : VmmClient) (a : AddressSpace) : Prop where
  shows : s.vmm.Shows a
  layout : a.Layout p.freeBlocks n
  consistent : s.vmm.pmm.Consistent
  limit : s.vmm.pmm.pmmMaxBlocks = p.pmmMaxBlocks
  marked : ∀ b, s.vmm.pmm.marked b = true ↔ p.marked b = true ∨ a.Owns b
  zero : p.marked 0 = true ∨ a.root = 0
  counter : s.vmm.nextVirt = Word32.wrap (0xC0000000 + 4096 * n)
  issued : n ≤ 2 ^ 18
  live : ∀ virt, virt ∈ s.live ↔
    virt % 4096 = 0 ∧ firstPage ≤ virt / 4096 ∧ a.frames (virt / 4096) ≠ none

namespace VmmClient

variable {p : Pmm} {n : Nat} {s : VmmClient} {a : AddressSpace}

theorem Sound.inUse (h : s.Sound p n a) {b : Nat} (hb : a.Owns b) : s.vmm.pmm.InUse b where
  lt := h.limit ▸ (mem_freeBlocks.mp (h.layout.owned hb)).1
  marked := (h.marked b).mpr (.inr hb)

theorem Sound.backs (h : s.Sound p n a) : s.vmm.pmm.Backs a :=
  ⟨h.consistent, h.inUse .directory, fun ht => h.inUse (.table ht)⟩

/-- A free block has no owner and was free at the start. -/
theorem Sound.free (h : s.Sound p n a) {b : Nat} (hb : b ∈ s.vmm.pmm.freeBlocks) :
    b ∈ p.freeBlocks ∧ ¬ a.Owns b ∧ b ≠ 0 := by
  obtain ⟨hlt, hclear⟩ := mem_freeBlocks.mp hb
  have hmark := (h.marked b).not.mp (by simp [hclear])
  obtain ⟨hp, hown⟩ := not_or.mp hmark
  refine ⟨mem_freeBlocks.mpr ⟨h.limit ▸ hlt, by simpa using hp⟩, hown, ?_⟩
  rintro rfl
  rcases h.zero with hzero | hzero
  · exact hp hzero
  · exact hown (hzero ▸ .directory)

theorem Sound.nextVirt_lt (h : s.Sound p n a) : s.vmm.nextVirt < 2 ^ 32 := by
  rw [h.counter]
  exact Word32.wrap_lt _

/-- Before the counter wraps it points at the first unused page. -/
theorem Sound.nextVirt_eq (h : s.Sound p n a) (hn : n < 2 ^ 18) :
    s.vmm.nextVirt = 4096 * (firstPage + n) := by
  rw [h.counter, Word32.wrap_of_lt (by omega), firstPage]
  omega

theorem Sound.nextPage_eq (h : s.Sound p n a) (hn : n < 2 ^ 18) :
    s.vmm.nextVirt / 4096 = firstPage + n := by
  rw [h.nextVirt_eq hn, Nat.mul_div_cancel_left _ (by omega)]

theorem Sound.counter_step (h : s.Sound p n a) :
    Word32.wrap (s.vmm.nextVirt + pageSize) = Word32.wrap (0xC0000000 + 4096 * (n + 1)) := by
  rw [h.counter]
  simp only [Word32.wrap, pageSize]
  omega

/-- The pages of the allocation range are below the counter, hence 32-bit addresses. -/
theorem Sound.page_lt (h : s.Sound p n a) {page f : Nat} (hpage : firstPage ≤ page)
    (hf : a.frames page = some f) : page < 2 ^ 20 := by
  have hused := h.layout.used hpage hf
  have hissued := h.issued
  simp only [firstPage] at hused
  omega

end VmmClient

/-- The address space of `vmm_init` is laid out over the blocks that were free before it. -/
theorem VmmStart.layout {p : Pmm} {root table : Nat} (h : VmmStart p root table) :
    (AddressSpace.initial root table).Layout p.freeBlocks 0 where
  owned hb := by
    have htable := h.table_free.1
    rw [freeBlocks_take] at htable
    cases hb with
    | directory => exact h.root_free.1
    | table ht =>
      simp only [AddressSpace.initial, Option.ite_none_right_eq_some, Option.some.injEq] at ht
      exact ht.2 ▸ Finset.mem_of_mem_erase htable
    | frame hpage hf =>
      simp only [AddressSpace.initial, Option.ite_none_right_eq_some, firstPage] at hf hpage
      omega
  frame_ne_root hpage hf := by
    simp only [AddressSpace.initial, Option.ite_none_right_eq_some, firstPage] at hf hpage
    omega
  frame_ne_table hpage hf := by
    simp only [AddressSpace.initial, Option.ite_none_right_eq_some, firstPage] at hf hpage
    omega
  frame_inj hx _ hfx _ := by
    simp only [AddressSpace.initial, Option.ite_none_right_eq_some, firstPage] at hx hfx
    omega
  identity page hpage := if_pos hpage
  gap page hlow _ := if_neg (by omega)
  lowTable := by simp [AddressSpace.initial]
  used hpage hf := by
    simp only [AddressSpace.initial, Option.ite_none_right_eq_some, firstPage] at hf hpage
    omega

/-- The blocks `vmm_init` owns are its directory and its table. -/
theorem AddressSpace.initial_owns {root table b : Nat} :
    (AddressSpace.initial root table).Owns b ↔ b = root ∨ b = table := by
  constructor
  · intro hb
    cases hb with
    | directory => exact .inl rfl
    | table ht =>
      simp only [AddressSpace.initial, Option.ite_none_right_eq_some, Option.some.injEq] at ht
      exact .inr ht.2.symm
    | frame hpage hf =>
      simp only [AddressSpace.initial, Option.ite_none_right_eq_some, firstPage] at hf hpage
      omega
  · rintro (rfl | rfl)
    · exact .directory
    · exact .table (i := 0) (by simp [AddressSpace.initial])

theorem VmmStart.sound {p : Pmm} {root table : Nat} (h : VmmStart p root table) (mem : Memory) :
    (VmmClient.start p mem).Sound p 0 (.initial root table) where
  shows := vmmInit_shows h mem
  layout := h.layout
  consistent := (vmmInit_backs h mem).consistent
  limit := by rw [VmmClient.start, vmmInit_eq h mem]; rfl
  marked b := by
    rw [VmmClient.start, vmmInit_eq h mem, AddressSpace.initial_owns]
    simp only [marked_take, Bool.or_eq_true, decide_eq_true_eq]
    tauto
  zero := by
    have hlt := (mem_freeBlocks.mp h.root_free.1).1
    cases hzero : p.marked 0 with
    | true => exact .inl rfl
    | false =>
      have := h.root_free.2 0 (mem_freeBlocks.mpr ⟨by omega, hzero⟩)
      exact .inr (by simp only [AddressSpace.initial]; omega)
  counter := by rw [VmmClient.start, vmmInit_eq h mem]; rfl
  issued := by omega
  live virt := by
    simp only [VmmClient.start, Finset.notMem_empty, false_iff, not_and, ne_eq, not_not,
      AddressSpace.initial, firstPage]
    intro _ hpage
    exact if_neg (by omega)

/-! ## Steps keep the invariant -/

namespace VmmClient

/-- Whether the next allocation takes an address from the counter. -/
def taken (s : VmmClient) : Nat := if s.vmm.pmm.freeBlocks = ∅ then 0 else 1

theorem taken_le_one (s : VmmClient) : s.taken ≤ 1 := by
  unfold taken
  split_ifs <;> omega

theorem taken_of_firstFree {s : VmmClient} {f : Nat} (h : s.vmm.pmm.FirstFree f) :
    s.taken = 1 := if_neg (Finset.ne_empty_of_mem h.1)

variable {p : Pmm} {n : Nat} {s : VmmClient} {a : AddressSpace}

/-- The live addresses after the next page was mapped. -/
theorem Sound.live_insert (h : s.Sound p n a) (hn : n < 2 ^ 18) (f virt : Nat) :
    virt ∈ insert s.vmm.nextVirt s.live ↔ virt % 4096 = 0 ∧ firstPage ≤ virt / 4096 ∧
      (a.setFrame (firstPage + n) (some f)).frames (virt / 4096) ≠ none := by
  rw [Finset.mem_insert, h.live, setFrame_frames, h.nextVirt_eq hn]
  constructor
  · rintro (rfl | ⟨haligned, hpage, hmapped⟩)
    · refine ⟨by omega, by omega, ?_⟩
      rw [if_pos (by omega)]
      simp
    · refine ⟨haligned, hpage, ?_⟩
      split
      · simp
      · exact hmapped
  · rintro ⟨haligned, hpage, hmapped⟩
    split at hmapped
    · exact .inl (by omega)
    · exact .inr ⟨haligned, hpage, hmapped⟩

/-- The page of the counter is not mapped. -/
theorem Sound.nextPage_unmapped (h : s.Sound p n a) : a.frames (firstPage + n) = none := by
  cases hf : a.frames (firstPage + n) with
  | none => rfl
  | some f => exact absurd (h.layout.used (by omega) hf) (by omega)

theorem Sound.nextVirt_pos (h : s.Sound p n a) (hn : n < 2 ^ 18) : s.vmm.nextVirt ≠ 0 := by
  rw [h.nextVirt_eq hn, firstPage]
  omega

/-- The next page is mapped to a block nobody owns, perhaps in a new table: `c` is the address
space before the page was mapped. -/
theorem Sound.mapNext (h : s.Sound p n a) (hn : n < 2 ^ 18) {c : AddressSpace} {f : Nat} {w : Vmm}
    (hlayout : c.Layout p.freeBlocks n) (hroot : c.root = a.root) (hframes : c.frames = a.frames)
    (hpool : f ∈ p.freeBlocks) (hfresh : ¬ c.Owns f) (hconsistent : w.pmm.Consistent)
    (hlimit : w.pmm.pmmMaxBlocks = s.vmm.pmm.pmmMaxBlocks)
    (hmarked : ∀ b, w.pmm.marked b = true ↔ b = f ∨ p.marked b = true ∨ c.Owns b)
    (hnext : w.nextVirt = Word32.wrap (s.vmm.nextVirt + pageSize))
    (hshows : w.Shows (c.setFrame (firstPage + n) (some f))) :
    (VmmClient.mk w (insert s.vmm.nextVirt s.live)).Sound p (n + 1)
      (c.setFrame (firstPage + n) (some f)) where
  shows := hshows
  layout := hlayout.setFrame hpool hfresh
  consistent := hconsistent
  limit := hlimit.trans h.limit
  marked := by
    intro b
    rw [hmarked, AddressSpace.owns_setFrame (by omega) (hframes ▸ h.nextPage_unmapped)]
    tauto
  zero := by
    rw [setFrame_root, hroot]
    exact h.zero
  counter := hnext.trans h.counter_step
  issued := hn
  live := by
    intro virt
    rw [h.live_insert hn f, setFrame_frames, setFrame_frames, hframes]

/-- However an allocation before the wrap of the counter ends, the invariant holds again. -/
theorem Sound.alloc (h : s.Sound p n a) (hroom : s.vmm.pmm.freeBlocks ≠ ∅ → n < 2 ^ 18)
    {r : Nat} {w : Vmm} {b : AddressSpace} (ho : AllocOutcome s.vmm a r w b) :
    (VmmClient.mk w (if r = 0 then s.live else insert r s.live)).Sound p (n + s.taken) b := by
  cases ho with
  | exhausted hempty =>
    rw [if_pos rfl, taken, if_pos hempty]
    exact h
  | blockZero hzero => exact absurd rfl (h.free hzero.1).2.2
  | @mapped f t _ hf hpos ht hpmm hnext hshows =>
    have hn := hroom (Finset.ne_empty_of_mem hf.1)
    obtain ⟨hpool, hfresh, -⟩ := h.free hf.1
    rw [if_neg (h.nextVirt_pos hn), taken_of_firstFree hf]
    rw [h.nextPage_eq hn] at hshows ⊢
    refine h.mapNext hn h.layout rfl rfl hpool hfresh ?_ ?_ (fun b => ?_) hnext hshows
    · rw [hpmm]
      exact h.consistent.take
    · rw [hpmm]
      rfl
    · rw [hpmm, marked_take, Bool.or_eq_true, h.marked, decide_eq_true_eq]
  | @noTable f _ hf hpos ht hempty hpmm hnext hshows =>
    have hn := hroom (Finset.ne_empty_of_mem hf.1)
    have hclear := (mem_freeBlocks.mp hf.1).2
    rw [if_pos rfl, taken_of_firstFree hf]
    exact {
      shows := hshows
      layout := { h.layout with used := fun hpage hf => (h.layout.used hpage hf).trans (by omega) }
      consistent := by rw [hpmm]; exact h.consistent.take.give
      limit := by rw [hpmm]; exact h.limit
      marked := by
        intro b
        rw [hpmm, marked_give, marked_take, ← h.marked]
        by_cases heq : b = f
        · simp [heq, hclear]
        · simp [heq]
      zero := h.zero
      counter := hnext.trans h.counter_step
      issued := hn
      live := h.live }
  | @newTable f t _ hf hpos hnone ht hpmm hnext hshows =>
    have hn := hroom (Finset.ne_empty_of_mem hf.1)
    obtain ⟨hpool, hfresh, -⟩ := h.free hf.1
    have hlater := hf.lt_second ht
    have htfree := ht.1
    rw [freeBlocks_take] at htfree
    obtain ⟨htpool, htfresh, -⟩ := h.free (Finset.mem_of_mem_erase htfree)
    have hunowned : ¬ (a.setTable (pdIndex s.vmm.nextVirt) t).Owns f := by
      rw [AddressSpace.owns_setTable hnone]
      exact not_or.mpr ⟨hfresh, by omega⟩
    rw [if_neg (h.nextVirt_pos hn), taken_of_firstFree hf]
    rw [h.nextPage_eq hn] at hshows ⊢
    refine h.mapNext hn (h.layout.setTable hnone htpool htfresh) rfl rfl hpool hunowned ?_ ?_
      (fun b => ?_) hnext hshows
    · rw [hpmm]
      exact h.consistent.take.take
    · rw [hpmm]
      rfl
    · rw [hpmm, marked_take, marked_take, Bool.or_eq_true, Bool.or_eq_true, h.marked,
        AddressSpace.owns_setTable hnone, decide_eq_true_eq, decide_eq_true_eq]
      tauto

/-- A live page is mapped, and its frame is in use. -/
theorem Sound.mapped (h : s.Sound p n a) {virt : Nat} (hlive : virt ∈ s.live) :
    virt < 2 ^ 32 ∧ ∃ f, a.frames (virt / 4096) = some f ∧ s.vmm.pmm.InUse f := by
  obtain ⟨haligned, hpage, hmapped⟩ := (h.live virt).mp hlive
  obtain ⟨f, hf⟩ := Option.ne_none_iff_exists'.mp hmapped
  have hlt := h.page_lt hpage hf
  exact ⟨by omega, f, hf, h.inUse (.frame hpage hf)⟩

/-- Freeing a live page gives its frame back and keeps the invariant. -/
theorem Sound.freePage (h : s.Sound p n a) {virt : Nat} (hlive : virt ∈ s.live) :
    ∃ f, a.frames (virt / 4096) = some f ∧ (vmmFreePage s.vmm virt).pmm = s.vmm.pmm.give f ∧
      (VmmClient.mk (vmmFreePage s.vmm virt) (s.live.erase virt)).Sound p n
        (a.setFrame (virt / 4096) none) := by
  obtain ⟨haligned, hpage, -⟩ := (h.live virt).mp hlive
  obtain ⟨hvirt, f, hf, hinUse⟩ := h.mapped hlive
  obtain ⟨b, ho⟩ := vmmFreePage_outcome h.shows hvirt
  generalize vmmFreePage s.vmm virt = w at ho ⊢
  cases ho with
  | noTable ht => simp [h.shows.frames_of_no_table hvirt ht] at hf
  | unmapped ht hnone => simp [hnone] at hf
  | @mapped t g _ ht hg hpmm hnext hshows =>
    obtain rfl := Option.some.inj (hf.symm.trans hg)
    have hgive : w.pmm = s.vmm.pmm.give f := by
      rw [hpmm, pmmFreePage_of_marked] <;> rw [Nat.mul_div_cancel_left f (by omega)]
      · exact hinUse.lt
      · exact hinUse.marked
    have hclear := (mem_freeBlocks.mp (h.layout.owned (.frame hpage hf))).2
    refine ⟨f, hf, hgive, ?_⟩
    exact {
      shows := hshows
      layout := h.layout.clearFrame hpage
      consistent := by rw [hgive]; exact h.consistent.give
      limit := by rw [hgive]; exact h.limit
      marked := by
        intro b
        rw [hgive, marked_give, Bool.and_eq_true, h.marked, h.layout.owns_clearFrame hpage hf]
        by_cases heq : b = f
        · simp [heq, hclear]
        · simp [heq]
      zero := h.zero
      counter := hnext.trans h.counter
      issued := h.issued
      live := by
        intro other
        rw [Finset.mem_erase, h.live, setFrame_frames]
        constructor
        · rintro ⟨hne, hother, hrange, hmapped⟩
          refine ⟨hother, hrange, ?_⟩
          rwa [if_neg (by omega)]
        · rintro ⟨hother, hrange, hmapped⟩
          split at hmapped
          · simp at hmapped
          · exact ⟨by rintro rfl; omega, hother, hrange, hmapped⟩ }

/-- One step of a client before the wrap of the counter. -/
theorem Sound.step {t : VmmClient} {op : VmmOp} (h : s.Sound p n a) (hstep : s.Step op t)
    (hroom : ∀ flags, op = .allocPage flags → s.vmm.pmm.freeBlocks ≠ ∅ → n < 2 ^ 18) :
    ∃ m b, t.Sound p m b ∧ m ≤ n + op.allocs := by
  obtain ⟨hallowed, rfl⟩ := hstep
  cases op with
  | allocPage flags =>
    obtain ⟨b, ho⟩ := vmmAllocPage_outcome h.shows h.backs h.nextVirt_lt hallowed
    have htaken := s.taken_le_one
    exact ⟨_, b, h.alloc (hroom flags rfl) ho, by simp only [VmmOp.allocs]; omega⟩
  | freePage virt =>
    obtain ⟨f, -, -, hsound⟩ := h.freePage hallowed
    exact ⟨n, _, hsound, by omega⟩

/-- Every state reached with fewer than `2^18` allocation calls satisfies the invariant. -/
theorem Sound.of_run {root table : Nat} (h : VmmStart p root table) {mem : Memory}
    {ops : List VmmOp} (hrun : Run Step (start p mem) ops s) (hcalls : allocCalls ops < 2 ^ 18) :
    ∃ n a, s.Sound p n a ∧ n ≤ allocCalls ops := by
  refine hrun.history (I := fun ops s => allocCalls ops < 2 ^ 18 →
    ∃ n a, s.Sound p n a ∧ n ≤ allocCalls ops) ?_ ?_ hcalls
  · exact fun _ => ⟨0, _, h.sound mem, by omega⟩
  · intro ops t op u ih hstep hlt
    rw [allocCalls_snoc] at hlt ⊢
    obtain ⟨n, a, hsound, hn⟩ := ih (by omega)
    obtain ⟨m, b, hsound', hm⟩ := hsound.step hstep (fun _ _ _ => by omega)
    exact ⟨m, b, hsound', by omega⟩

end VmmClient

/-- A manager of six blocks of which blocks 1 to 5 are free. -/
def sixBlocks : Pmm := ⟨fun _ => 0xFFFFFFC1#32, 0, 1, 6, 1⟩

theorem sixBlocks_consistent : sixBlocks.Consistent := ⟨by simp [sixBlocks], by simp [sixBlocks]⟩

end HolyOs.Mm
