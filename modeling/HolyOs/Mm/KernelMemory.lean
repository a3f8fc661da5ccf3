import HolyOs.Mm.HeapPages
import HolyOs.Mm.Mmu
import HolyOs.Mm.PmmBitmap

/-!
# The memory of the kernel

`kmain` starts the physical manager, the virtual manager and the heap one after the other. From then
on the clients of the heap take turns with other callers of `vmm_alloc_page` and `vmm_free_page`.
Every byte that one of them holds is a byte of RAM of its own. The bitmap of the physical manager
lies in the same RAM, where nobody else writes.
-/
namespace HolyOs.Mm

open ByteMemory HolyOs.Lib BlockList Transition

/-- The heap with its clients, and the pages that the other callers hold. -/
structure KernelMemory where
  heap : SharedHeap
  others : Finset Nat

inductive MemoryOp
  | heap (op : HeapOp)
  | allocPage (flags : Nat)
  | freePage (virt : Nat)

/-- The counter has not wrapped, or there is no free block and it is not used. -/
def Vmm.CounterRoom (v : Vmm) : Prop := v.pmm.freeBlocks ≠ ∅ → 0xC0000000 ≤ v.nextVirt

/-- The next `n` calls of `heap_expand` all find it so. -/
def Vmm.CounterRoomFor : Nat → Vmm → Prop
  | 0, _ => True
  | n + 1, v =>
    let r := vmmAllocPage v (pagePresent ||| pageWrite)
    v.CounterRoom ∧ (r.1 ≠ 0 → CounterRoomFor n r.2)

/-- Somebody who holds bytes. -/
inductive Holder
  | block (a : Allocation)
  | page (virt : Nat)

namespace KernelMemory

variable (s : KernelMemory)

def vmm : Vmm := s.heap.vmm

/-- What `kmain` starts after `pmm_init`, which left `p` and the physical memory `ram`. -/
def start (p : Pmm) (ram mem : Memory) : KernelMemory := ⟨.start p ram [] mem, ∅⟩

def allocPage (flags : Nat) : KernelMemory :=
  let r := (vmmAllocPage s.vmm flags).1
  ⟨s.heap.allocPage flags, if r = 0 then s.others else insert r s.others⟩

def freePage (virt : Nat) : KernelMemory where
  heap := { s.heap with
    heap := { s.heap.heap with
      pages := { s.heap.heap.pages with source := vmmFreePage s.vmm virt } } }
  others := s.others.erase virt

def Step : MemoryOp → KernelMemory → Prop
  | .heap op, t => HeapClient.Step HeapClient.Legal s.heap op t.heap ∧ t.others = s.others
  | .allocPage flags, t => flags < pageSize ∧ t = s.allocPage flags
  | .freePage virt, t => virt ∈ s.others ∧ t = s.freePage virt

/-- `merge_blocks` joins only blocks that touch, the counter has not wrapped, and writes go to live
allocations. -/
def Careful : MemoryOp → Prop
  | .heap (.call c) => s.heap.JoinsTouching c ∧ s.vmm.CounterRoomFor (s.heap.heap.asks c)
  | .heap (.write addr _) => ∃ a ∈ s.heap.live, a.ptr ≤ addr ∧ addr < a.ptr + a.size
  | .allocPage _ => s.vmm.CounterRoom
  | .freePage _ => True

def CarefulStep (op : MemoryOp) (t : KernelMemory) : Prop := s.Careful op ∧ s.Step op t

/-- The addresses of a holder: the block of an allocation, or a page. -/
def Holds : Holder → Nat → Prop
  | .block a, x => a ∈ s.heap.live ∧ a.ptr ≤ x ∧
      x < a.ptr + blockSize s.heap.heap.mem (Word32.sub a.ptr heapBlockSize)
  | .page virt, x => virt ∈ s.others ∧ virt ≤ x ∧ x < virt + pageSize

end KernelMemory

/-! ## The pages -/

section Pages

variable {p : Pmm} {before : Memory} {s : Logged Vmm} {others : Finset Nat}

/-- A block that was not free at the start is none of the manager's. -/
theorem VmmClient.Sound.spares {n : Nat} {c : VmmClient} {a : AddressSpace} (h : c.Sound p n a)
    {b : Nat} (hb : b ∉ p.freeBlocks) : c.vmm.Spares a b where
  root heq := hb (heq ▸ h.layout.owned .directory)
  table _ ht := hb (h.layout.owned (.table ht))
  used hfree := hb (h.free hfree).1

theorem VmmClient.Sound.alloc_page {v : Vmm} {live : Finset Nat} {n : Nat} {a : AddressSpace}
    (h : VmmClient.Sound p n ⟨v, live⟩ a) (hroom : v.CounterRoom) {flags : Nat}
    (hflags : flags < pageSize) :
    let r := vmmAllocPage v flags
    (∃ m b, VmmClient.Sound p m ⟨r.2, if r.1 = 0 then live else insert r.1 live⟩ b) ∧
      (r.1 ≠ 0 → r.1 ∉ live) := by
  obtain ⟨b, ho⟩ := vmmAllocPage_outcome h.shows h.backs h.nextVirt_lt hflags
  have hfresh := h.freshResult hflags hroom
  exact ⟨⟨_, b, h.alloc (fun hfree => h.counter_lt (hroom hfree)) ho⟩,
    fun hne => (hfresh.unmapped hne).1⟩

/-- The heap has its pages, the other callers have theirs, and together they are the live pages.
Only blocks that were free at the start are written. -/
structure Pages (p : Pmm) (before : Memory) (s : Logged Vmm) (others : Finset Nat) : Prop where
  sound : ∃ n a, VmmClient.Sound p n ⟨s.source, s.returned.toFinset ∪ others⟩ a
  apart : ∀ page ∈ s.returned, page ∉ others
  outside : ∀ b, b ∉ p.freeBlocks → SameBlock before s.source.mem b

theorem Pages.counterAbove (h : Pages p before s others) (hroom : s.source.CounterRoom) :
    s.CounterAbove := by
  intro hfree page hpage
  obtain ⟨n, a, hsound⟩ := h.sound
  have hn := hsound.counter_lt (hroom hfree)
  have hlive : page ∈ s.returned.toFinset ∪ others := by simp [hpage]
  obtain ⟨haligned, hfirst, hframe⟩ := (hsound.live page).mp hlive
  obtain ⟨f, hf⟩ := Option.ne_none_iff_exists'.mp hframe
  have hused := hsound.layout.used hfirst hf
  have hnext : s.source.nextVirt = 4096 * (firstPage + n) := hsound.nextVirt_eq hn
  omega

theorem Pages.aligned (h : Pages p before s others) : s.source.CounterAligned := by
  obtain ⟨n, a, hsound⟩ := h.sound
  have hcounter : s.source.nextVirt = Word32.wrap (0xC0000000 + 4096 * n) := hsound.counter
  rw [Vmm.CounterAligned, hcounter, Word32.wrap]
  omega

theorem Pages.allocHeap (h : Pages p before s others) (hroom : s.source.CounterRoom) :
    Pages p before (PageSource.vmmAllocPage s (pagePresent ||| pageWrite)).2 others := by
  obtain ⟨n, a, hsound⟩ := h.sound
  have hflags : pagePresent ||| pageWrite < pageSize := by simp
  have houtside : ∀ b, b ∉ p.freeBlocks →
      SameBlock before (vmmAllocPage s.source (pagePresent ||| pageWrite)).2.mem b := fun b hb =>
    (h.outside b hb).trans (vmmAllocPage_sameBlock hsound.shows hsound.backs (hsound.spares hb)
      hflags)
  obtain ⟨⟨m, b, hsound'⟩, hfresh⟩ :=
    hsound.alloc_page hroom hflags
  cases hres : PageSource.vmmAllocPage s (pagePresent ||| pageWrite) with
  | mk r t =>
    obtain ⟨hfst, hsource, hreturned⟩ := Logged.alloc_eq hres
    rw [hfst, ← hsource] at hsound'
    rw [hfst] at hfresh
    rw [← hsource] at houtside
    by_cases hr : r = 0
    · rw [if_pos hr] at hsound' hreturned
      exact ⟨⟨m, b, hreturned ▸ hsound'⟩, hreturned ▸ h.apart, houtside⟩
    · rw [if_neg hr] at hsound' hreturned
      refine ⟨⟨m, b, ?_⟩, ?_, houtside⟩
      · rw [hreturned, List.toFinset_cons, Finset.insert_union]
        exact hsound'
      · rw [hreturned]
        intro page hpage hother
        obtain rfl | hpage := List.mem_cons.mp hpage
        · exact hfresh hr (Finset.mem_union_right _ hother)
        · exact h.apart page hpage hother

theorem Pages.allocOther (h : Pages p before s others) (hroom : s.source.CounterRoom) {flags : Nat}
    (hflags : flags < pageSize) :
    let r := vmmAllocPage s.source flags
    Pages p before { s with source := r.2 } (if r.1 = 0 then others else insert r.1 others) := by
  obtain ⟨n, a, hsound⟩ := h.sound
  have houtside : ∀ b, b ∉ p.freeBlocks → SameBlock before (vmmAllocPage s.source flags).2.mem b :=
    fun b hb => (h.outside b hb).trans (vmmAllocPage_sameBlock hsound.shows hsound.backs
      (hsound.spares hb) hflags)
  obtain ⟨⟨m, b, hsound'⟩, hfresh⟩ := hsound.alloc_page hroom hflags
  dsimp only
  generalize vmmAllocPage s.source flags = r at hsound' hfresh houtside ⊢
  split_ifs at hsound' ⊢ with hr
  · exact ⟨⟨m, b, hsound'⟩, h.apart, houtside⟩
  · refine ⟨⟨m, b, ?_⟩, fun page hpage hother => ?_, houtside⟩
    · rw [Finset.union_insert]
      exact hsound'
    · obtain rfl | hother := Finset.mem_insert.mp hother
      · exact hfresh hr (Finset.mem_union_left _ (List.mem_toFinset.mpr hpage))
      · exact h.apart page hpage hother

theorem Pages.freeOther (h : Pages p before s others) {virt : Nat} (hvirt : virt ∈ others) :
    Pages p before { s with source := vmmFreePage s.source virt } (others.erase virt) := by
  obtain ⟨n, a, hsound⟩ := h.sound
  obtain ⟨f, -, -, hsound'⟩ := hsound.freePage (Finset.mem_union_right _ hvirt)
  refine ⟨⟨n, a.setFrame (virt / 4096) none, ?_⟩,
    fun page hpage hother => h.apart page hpage (Finset.mem_of_mem_erase hother),
    fun b hb => (h.outside b hb).trans (vmmFreePage_sameBlock hsound.shows (hsound.spares hb) virt)⟩
  have hkept : (s.returned.toFinset ∪ others).erase virt =
      s.returned.toFinset ∪ others.erase virt := by
    rw [Finset.erase_union_distrib, Finset.erase_eq_of_notMem]
    exact fun hmem => h.apart virt (List.mem_toFinset.mp hmem) hvirt
  rw [← hkept]
  exact hsound'

/-- The pages that a call takes are above the pages of the heap. -/
theorem Pages.take {k : Nat} (h : Pages p before s others) (hroom : s.source.CounterRoomFor k) :
    Pages p before (takePages k s).2 others ∧ s.CounterAboveFor k := by
  induction k generalizing s with
  | zero => exact ⟨h, trivial⟩
  | succ k ih =>
    obtain ⟨hroom, hrest⟩ := hroom
    have hpage := h.allocHeap hroom
    rw [takePages]
    dsimp only
    split_ifs with hr
    · exact ⟨hpage, h.counterAbove hroom, fun hne => absurd hr hne⟩
    · obtain ⟨htaken, habove⟩ := ih hpage (hrest hr)
      exact ⟨htaken, h.counterAbove hroom, fun _ => habove⟩

end Pages

/-! ## Runs -/

section Heap

variable {s : SharedHeap} {top : Nat} {l : List Block}

/-- A call takes as many pages as it asks for. -/
theorem SharedHeap.pages_of_call {c : HeapCall} {t : SharedHeap}
    (h : (∃ top l, s.Kept top l) ∨ s.heap.heapStart = 0 ∧ s.live = []) (haccepts : s.Accepts c)
    (habove : s.heap.pages.CounterAboveFor (s.heap.asks c)) (hcall : s.call c = some t) :
    t.heap.pages = (takePages (s.heap.asks c) s.heap.pages).2 := by
  rw [HeapClient.call_eq] at hcall
  obtain ⟨⟨r, h'⟩, hexec, rfl⟩ := Option.map_eq_some_iff.mp hcall
  rcases h with ⟨top, l, hkept⟩ | ⟨hstart, hlive⟩
  · obtain ⟨-, h'', hexec', hpages, -⟩ := hkept.toPaged.call haccepts habove
    rw [hkept.shows.asks_eq (hkept.toTracks.blockAt haccepts)]
    obtain ⟨-, rfl⟩ := Prod.mk.inj (Option.some.inj (hexec.symm.trans hexec'))
    exact hpages
  · obtain ⟨h'', hexec', -, hpages⟩ :=
      HeapCall.exec_of_empty hstart (haccepts.resolve_right (by simp [hlive]))
    obtain ⟨-, rfl⟩ := Prod.mk.inj (Option.some.inj (hexec.symm.trans hexec'))
    exact hpages

/-- The list does not change when the virtual manager does. -/
theorem SharedHeap.Kept.withSource (h : s.Kept top l) {v : Vmm} (hv : v.CounterAligned) :
    SharedHeap.Kept { s with heap := { s.heap with pages := { s.heap.pages with source := v } } }
      top l :=
  ⟨⟨⟨h.shows.write (fun _ _ => rfl) rfl rfl rfl, h.distinct, h.holds⟩, h.ends, hv⟩, h.inside⟩

end Heap

namespace KernelMemory

variable {p : Pmm} {before : Memory} {s t : KernelMemory}

/-- The invariant. -/
structure Sound (p : Pmm) (before : Memory) (s : KernelMemory) : Prop where
  heap : (∃ top l, s.heap.Kept top l) ∨ s.heap.heap.heapStart = 0 ∧ s.heap.live = []
  pages : Pages p before s.heap.heap.pages s.others

theorem Sound.withSource (h : s.Sound p before) {v : Vmm} {others : Finset Nat}
    (hpages : Pages p before { s.heap.heap.pages with source := v } others) :
    Sound p before ⟨{ s.heap with heap := { s.heap.heap with
      pages := { s.heap.heap.pages with source := v } } }, others⟩ where
  heap := h.heap.imp_left fun ⟨top, l, hkept⟩ => ⟨top, l, hkept.withSource hpages.aligned⟩
  pages := hpages

theorem Sound.call (h : s.Sound p before) {c : HeapCall} (hlegal : s.heap.Legal (.call c))
    (hcareful : s.Careful (.heap (.call c))) {heap : SharedHeap}
    (hcall : s.heap.call c = some heap) : Sound p before ⟨heap, s.others⟩ := by
  obtain ⟨htouching, hroom⟩ := hcareful
  obtain ⟨htaken, habove⟩ := h.pages.take hroom
  have hpages := SharedHeap.pages_of_call h.heap hlegal.1 habove hcall
  refine ⟨?_, ?_⟩
  · rcases h.heap with ⟨top, l, hkept⟩ | ⟨hstart, hlive⟩
    · obtain ⟨t, top', l', hcall', hkept'⟩ := hkept.call hlegal.1 htouching habove
      obtain rfl := Option.some.inj (hcall.symm.trans hcall')
      exact .inl ⟨top', l', hkept'⟩
    · exact .inr (HeapClient.enter_of_empty hstart hlive hlegal hcall)
  · rw [hpages]
    exact htaken

theorem Sound.write (h : s.Sound p before) {addr : Nat} {value : UInt8}
    (hlegal : s.heap.Legal (.write addr value)) : Sound p before ⟨{ s.heap with
      heap := { s.heap.heap with mem := store8 s.heap.heap.mem addr value } }, s.others⟩ where
  heap := h.heap.imp_left fun ⟨top, l, hkept⟩ =>
    ⟨top, l, hkept.toPaged.write hlegal, hkept.inside⟩
  pages := h.pages

theorem Sound.step (h : s.Sound p before) {op : MemoryOp} (hstep : s.CarefulStep op t) :
    t.Sound p before := by
  obtain ⟨hcareful, hstep⟩ := hstep
  cases op with
  | allocPage flags =>
    obtain ⟨hflags, rfl⟩ := hstep
    exact h.withSource (h.pages.allocOther hcareful hflags)
  | freePage virt =>
    obtain ⟨hvirt, rfl⟩ := hstep
    exact h.withSource (h.pages.freeOther hvirt)
  | heap op =>
    obtain ⟨heap, others⟩ := t
    obtain ⟨⟨hlegal, henter⟩, rfl⟩ := hstep
    cases op with
    | write addr value =>
      obtain rfl := Option.some.inj henter
      exact h.write hlegal
    | call c => exact h.call hlegal hcareful henter

theorem Sound.init {root table : Nat} (h : VmmStart p root table) (ram mem : Memory) :
    (start p ram mem).Sound p ram := by
  have hfirst : Pages p ram ⟨vmmInit p ram, []⟩ ∅ :=
    ⟨⟨0, _, h.sound ram⟩, by simp, fun b hb => vmmInit_sameBlock h ram hb⟩
  have hroom : (vmmInit p ram).CounterRoom := fun _ => Nat.le_refl _
  refine ⟨SharedHeap.Kept.init rfl (SharedHeap.counterAligned_vmmAfter p ram []), ?_⟩
  have hpages := hfirst.allocHeap hroom
  cases hres : PageSource.vmmAllocPage (Logged.mk (vmmInit p ram) [])
      (pagePresent ||| pageWrite) with
  | mk page t =>
    rw [hres] at hpages
    have hstart : (start p ram mem).heap.heap.pages = t := pages_heapInit hres
    rw [hstart]
    exact hpages

theorem Sound.run {root table : Nat} (h : VmmStart p root table) {ram mem : Memory}
    {ops : List MemoryOp} (hrun : Run CarefulStep (start p ram mem) ops s) : s.Sound p ram :=
  hrun.invariant (Sound.init h ram mem) fun _ _ _ hsound hstep => hsound.step hstep

/-! ## The bytes -/

/-- Every byte that is held is in a live page. -/
theorem Sound.page (h : s.Sound p before) {o : Holder} {x : Nat} (hx : s.Holds o x) :
    ∃ page ∈ s.heap.heap.pages.returned.toFinset ∪ s.others, page ≤ x ∧ x < page + pageSize ∧
      (∀ a, o = .block a → page ∈ s.heap.heap.pages.returned) ∧
      ∀ virt, o = .page virt → page = virt := by
  cases o with
  | page virt => exact ⟨virt, Finset.mem_union_right _ hx.1, hx.2.1, hx.2.2, by simp, by simp⟩
  | block a =>
    obtain ⟨ha, hlo, hhi⟩ := hx
    rcases h.heap with ⟨top, l, hkept⟩ | ⟨-, hlive⟩
    · obtain ⟨page, hpage, hx⟩ := hkept.staysInside a ha x hlo hhi
      exact ⟨page, Finset.mem_union_left _ (List.mem_toFinset.mpr hpage), hx.1, hx.2,
        fun _ _ => hpage, by simp⟩
    · simp [hlive] at ha

/-- A byte that is held is in a page of the allocation range that is mapped to a block. -/
theorem Sound.frame (h : s.Sound p before) {n : Nat} {a : AddressSpace}
    (hsound : VmmClient.Sound p n
      ⟨s.heap.heap.pages.source, s.heap.heap.pages.returned.toFinset ∪ s.others⟩ a)
    {o : Holder} {x : Nat} (hx : s.Holds o x) : firstPage ≤ x / 4096 ∧
      ∃ f, a.frames (x / 4096) = some f ∧ s.vmm.translate x = some (4096 * f + x % 4096) := by
  obtain ⟨page, hpage, hlo, hhi, -⟩ := h.page hx
  obtain ⟨haligned, hfirst, hframe⟩ := (hsound.live page).mp hpage
  obtain ⟨f, hf⟩ := Option.ne_none_iff_exists'.mp hframe
  have hlt := hsound.page_lt hfirst hf
  have hdiv : x / 4096 = page / 4096 := by
    simp only [pageSize] at hhi
    omega
  have htranslate : s.vmm.translate x = (a.frames (x / 4096)).map fun f => 4096 * f + x % 4096 :=
    hsound.shows.translate_eq (by omega)
  rw [htranslate, hdiv, hf]
  exact ⟨hfirst, f, rfl, rfl⟩

end KernelMemory

end HolyOs.Mm
