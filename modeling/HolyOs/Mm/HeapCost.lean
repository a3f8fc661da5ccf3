import HolyOs.Mm.HeapFresh
import HolyOs.Mm.HeapRequests
import HolyOs.Mm.VmmFailure

/-!
# What a failing request costs

`kmalloc` searches the list, adds pages, and searches again. When the second search fails, the pages
stay on the list, and nobody gives back a block that `vmm_alloc_page` took for a page it did not
return.
-/
namespace HolyOs.Mm

open ByteMemory HolyOs.Lib BlockList Transition

/-- The counters, the list and the free blocks are the same in both. -/
structure Heap.SameAs (h h' : Heap (Logged Vmm)) : Prop where
  heapSize : getHeapSize h' = getHeapSize h
  allocated : getAllocatedMemory h' = getAllocatedMemory h
  free : getFreeMemory h' = getFreeMemory h
  start : h'.heapStart = h.heapStart
  last : h'.heapEnd = h.heapEnd
  headers : ∀ block, h.Node block → SameOn h.mem h'.mem block (block + heapBlockSize)
  blocks : h'.pages.source.pmm.freeBlocks = h.pages.source.pmm.freeBlocks

/-- A `kmalloc` that returns 0 changes none of these. -/
def Heap.FailsForFree (h : Heap (Logged Vmm)) (size : Nat) : Prop :=
  ∀ h', kmalloc h size = some (0, h') → h.SameAs h'

/-- The next page is there, with a flag of 0, and `size` bytes fit on it. -/
def Heap.PageServes {σ : Type*} [PageSource σ] (h : Heap σ) (size : Nat) : Prop :=
  pageResult 0 h.pages ≠ 0 ∧ size ≤ pageSize - heapBlockSize ∧
    blockUsed h.mem (pageResult 0 h.pages) = 0

/-- No page is asked for, or there is none, or the block of the first one is large enough. -/
def Heap.NoPageInVain (h : Heap (Logged Vmm)) (size : Nat) : Prop :=
  size = 0 ∨ h.HasFree (alignSize size) ∨
    expandPages (Word32.wrap (alignSize size + heapBlockSize)) = 0 ∨ h.pages.source.OutOfPages ∨
      h.heapStart ≠ 0 ∧ h.PageServes (alignSize size)

namespace SharedHeap

variable (s : SharedHeap)

/-- The heap gets its pages from a counter above the pages it has. -/
def PagesClimb : SharedOp → Prop
  | .heap (.call c) => s.heap.pages.CounterAboveFor (s.heap.asks c)
  | _ => True

def ClimbingStep (op : SharedOp) (t : SharedHeap) : Prop := s.PagesClimb op ∧ s.Step op t

end SharedHeap

/-! ## A search without success -/

section Search

variable {σ : Type*} [PageSource σ] {h : Heap σ} {n : Nat}

omit [PageSource σ] in
theorem asksFor_ne_zero (hasks : h.asksFor n ≠ 0) :
    n ≠ 0 ∧ findFreeBlock h (alignSize n) = some 0 := by
  unfold Heap.asksFor at hasks
  split_ifs at hasks with hcond
  · exact absurd rfl hasks
  · simpa using hcond

/-- What `kmalloc` does when the first search fails. -/
theorem kmalloc_of_full (hn : n ≠ 0) (hfull : findFreeBlock h (alignSize n) = some 0) :
    kmalloc h n =
      (findFreeBlock (heapExpandLoop (h.asksFor n) h) (alignSize n)).map fun block =>
        if block = 0 then (0, heapExpandLoop (h.asksFor n) h)
        else takeBlock (heapExpandLoop (h.asksFor n) h) block (alignSize n) := by
  have hasks : h.asksFor n = expandPages (Word32.wrap (alignSize n + heapBlockSize)) := by
    rw [Heap.asksFor, if_neg (by simp [hn, hfull])]
  rw [kmalloc, if_neg hn, hasks]
  simp only [hfull, ne_eq, not_true, if_false]
  rw [show heapExpand h (Word32.wrap (alignSize n + heapBlockSize)) =
    heapExpandLoop (expandPages (Word32.wrap (alignSize n + heapBlockSize))) h from rfl]
  generalize heapExpandLoop (expandPages (Word32.wrap (alignSize n + heapBlockSize))) h = h'
  cases findFreeBlock h' (alignSize n) with
  | none => rfl
  | some block =>
    simp only [Option.map_some]
    split_ifs <;> rfl

/-- Without a first page the heap stays as it is. -/
theorem heapExpandLoop_of_none (hnone : pageResult 0 h.pages = 0) :
    heapExpandLoop n h = { h with pages := (takePages n h.pages).2 } := by
  cases n with
  | zero => rfl
  | succ n =>
    have hres : (PageSource.vmmAllocPage h.pages (pagePresent ||| pageWrite)).1 = 0 := hnone
    rw [heapExpandLoop, takePages]
    simp only [hres, if_true]

theorem kmalloc_of_no_page (hn : n ≠ 0) (hfull : findFreeBlock h (alignSize n) = some 0)
    (hnone : h.asksFor n = 0 ∨ pageResult 0 h.pages = 0) :
    kmalloc h n = some (0, { h with pages := (takePages (h.asksFor n) h.pages).2 }) := by
  have hloop : heapExpandLoop (h.asksFor n) h =
      { h with pages := (takePages (h.asksFor n) h.pages).2 } := by
    rcases hnone with hzero | hnone
    · rw [hzero]
      rfl
    · exact heapExpandLoop_of_none hnone
  rw [kmalloc_of_full hn hfull, hloop]
  change Option.map _ (findFreeBlock h (alignSize n)) = _
  rw [hfull]
  rfl

theorem length_takePages_le (n : Nat) (s : σ) : (takePages n s).1.length ≤ n := by
  induction n generalizing s with
  | zero => exact Nat.le_refl 0
  | succ n ih =>
    rw [takePages]
    dsimp only
    split_ifs
    · exact Nat.zero_le _
    · exact Nat.succ_le_succ (ih _)

/-- Every page counts in `heap_size`. -/
theorem heapSize_heapExpandLoop (n : Nat) (h : Heap σ) : (heapExpandLoop n h).heapSize % 2 ^ 32 =
    (h.heapSize + pageSize * (takePages n h.pages).1.length) % 2 ^ 32 := by
  induction n generalizing h with
  | zero => rfl
  | succ n ih =>
    rw [heapExpandLoop, takePages]
    dsimp only
    split_ifs
    · rfl
    · rw [ih]
      simp only [heapAppend, Word32.wrap, pageSize, List.length_cons]
      omega

omit [PageSource σ] in
theorem heapSize_takeBlock (h : Heap σ) (block size : Nat) :
    (takeBlock h block size).2.heapSize = h.heapSize := by
  rw [takeBlock, trimBlock]
  dsimp only
  split_ifs <;> rfl

omit [PageSource σ] in
theorem asksFor_lt (h : Heap σ) (n : Nat) : h.asksFor n < 2 ^ 16 := by
  unfold Heap.asksFor expandPages heapExpandSize
  split_ifs
  · exact Nat.two_pow_pos 16
  · have := Word32.wrap_lt (Word32.wrap
      (Word32.wrap (alignSize n + heapBlockSize) + heapBlockSize) + 0x10000 - 1)
    omega

/-- A page that was added in vain is part of the heap. -/
theorem heapSize_of_kmalloc_zero {h' : Heap σ} (hasks : h.asksFor n ≠ 0)
    (hpage : pageResult 0 h.pages ≠ 0) (hcall : kmalloc h n = some (0, h')) :
    h'.heapSize ≠ h.heapSize := by
  obtain ⟨hn, hfull⟩ := asksFor_ne_zero hasks
  rw [kmalloc_of_full hn hfull] at hcall
  obtain ⟨block, -, hresult⟩ := Option.map_eq_some_iff.mp hcall
  have hloop : h'.heapSize = (heapExpandLoop (h.asksFor n) h).heapSize := by
    split_ifs at hresult
    · rw [← (Prod.mk.inj hresult).2]
    · have htaken := heapSize_takeBlock (heapExpandLoop (h.asksFor n) h) block (alignSize n)
      rwa [hresult] at htaken
  have hsize := heapSize_heapExpandLoop (h.asksFor n) h
  have hle := length_takePages_le (h.asksFor n) h.pages
  have hmax := asksFor_lt h n
  have hpos : 0 < (takePages (h.asksFor n) h.pages).1.length := by
    obtain ⟨k, hk⟩ := Nat.exists_eq_succ_of_ne_zero hasks
    have hfirst : (PageSource.vmmAllocPage h.pages (pagePresent ||| pageWrite)).1 ≠ 0 := hpage
    rw [hk, takePages]
    dsimp only
    rw [if_neg hfirst]
    exact Nat.succ_pos _
  rw [hloop]
  simp only [pageSize] at hsize
  omega

end Search

/-! ## What is the same -/

section Same

variable {h : Heap (Logged Vmm)} {n : Nat}

/-- Where only the page source has changed, only its free blocks can differ. -/
theorem Heap.sameAs_pages_iff (t : Logged Vmm) :
    h.SameAs { h with pages := t } ↔ t.source.pmm.freeBlocks = h.pages.source.pmm.freeBlocks :=
  ⟨fun hsame => hsame.blocks,
    fun hblocks => ⟨rfl, rfl, rfl, rfl, rfl, fun _ _ => .refl _ _ _, hblocks⟩⟩

theorem Heap.failsForFree_iff {r : Nat} {h' : Heap (Logged Vmm)}
    (hcall : kmalloc h n = some (r, h')) : h.FailsForFree n ↔ (r = 0 → h.SameAs h') := by
  unfold Heap.FailsForFree
  rw [hcall]
  simp only [Option.some.injEq, Prod.mk.injEq]
  grind

/-- A call whose first page is not there costs the block that was taken for it, if any. -/
theorem Heap.failsForFree_of_no_page (hp : h.pages.source.pmm.Consistent)
    (hasks : h.asksFor n ≠ 0) (hnone : pageResult 0 h.pages = 0) :
    h.FailsForFree n ↔ h.pages.source.OutOfPages := by
  obtain ⟨hn, hfull⟩ := asksFor_ne_zero hasks
  rw [Heap.failsForFree_iff (kmalloc_of_no_page hn hfull (.inr hnone)), Heap.sameAs_pages_iff,
    ← vmmAllocPage_outOfPages_iff hp (pagePresent ||| pageWrite)]
  obtain ⟨k, hk⟩ := Nat.exists_eq_succ_of_ne_zero hasks
  have hzero : (vmmAllocPage h.pages.source (pagePresent ||| pageWrite)).1 = 0 := hnone
  have hpages : (takePages (h.asksFor n) h.pages).2.source =
      (vmmAllocPage h.pages.source (pagePresent ||| pageWrite)).2 := by
    rw [takePages_logged, hk, takePages]
    simp only [PageSource.vmmAllocPage, hzero, if_true]
  simp only [hpages, hzero, true_and, true_imp_iff]

/-- A call that gets a page costs that page. -/
theorem Heap.failsForFree_of_page (hasks : h.asksFor n ≠ 0) (hpage : pageResult 0 h.pages ≠ 0)
    {r : Nat} {h' : Heap (Logged Vmm)} (hcall : kmalloc h n = some (r, h')) :
    h.FailsForFree n ↔ r ≠ 0 := by
  rw [Heap.failsForFree_iff hcall]
  refine ⟨fun hsame hr => ?_, fun hr hzero => absurd hzero hr⟩
  subst hr
  exact heapSize_of_kmalloc_zero hasks hpage hcall (hsame rfl).heapSize

end Same

/-! ## What is found -/

section Found

variable {h : Heap (Logged Vmm)} {top n : Nat} {l : List Block}

/-- A search of the list finds a block exactly where a free one is large enough. -/
def Heap.SearchesFree {σ : Type*} (h : Heap σ) : Prop :=
  ∀ size, findFreeBlock h size = some 0 ↔ ¬ h.HasFree size

theorem Heap.Shows.searchesFree (hs : h.Shows top l) : h.SearchesFree := by
  intro size
  rw [hs.findFreeBlock, ← hs.room_iff]
  rcases BlockHeap.firstFit_cases l size with ⟨b, hb, hfree, hsize, hfit⟩ | ⟨hfit, hfull⟩
  · rw [hfit]
    exact iff_of_false (by simpa using hs.pos b hb) fun hfull => hfull ⟨b, hb, hfree, hsize⟩
  · rw [hfit]
    exact iff_of_true rfl hfull

theorem Heap.searchesFree_of_empty (hstart : h.heapStart = 0) : h.SearchesFree := by
  intro size
  refine iff_of_true (findFreeBlock_of_empty hstart size) ?_
  rintro ⟨block, hnode, -⟩
  exact hnode.heapStart_ne hstart

theorem Heap.SearchesFree.asksFor_eq_zero_iff (hsearch : h.SearchesFree) (n : Nat) :
    h.asksFor n = 0 ↔ n = 0 ∨ h.HasFree (alignSize n) ∨
      expandPages (Word32.wrap (alignSize n + heapBlockSize)) = 0 := by
  have hfree := hsearch (alignSize n)
  unfold Heap.asksFor
  split_ifs <;> grind

/-- The pages of a call climb, so a search finds a block exactly where the list has one or the first
page is one. -/
theorem Heap.Shows.kmalloc_ne_zero_iff (hs : h.Shows top l)
    (hclimbs : Climbs top (takePages (h.asksFor n) h.pages).1) :
    ∃ r h', Mm.kmalloc h n = some (r, h') ∧
      (r ≠ 0 ↔ n ≠ 0 ∧ (h.HasFree (alignSize n) ∨ h.PageServes (alignSize n))) := by
  by_cases hn : n = 0
  · exact ⟨0, h, by rw [Mm.kmalloc, if_pos hn], by simp [hn]⟩
  · rw [hs.asksFor_eq] at hclimbs
    obtain ⟨h', hcall, -⟩ := hs.kmalloc n hclimbs
    have hresult := hs.kmalloc_result n hclimbs
    refine ⟨_, h', hcall, ?_⟩
    rw [Heap.PageServes, ← room_newBlocks_iff, ← hs.room_iff, ← room_append]
    rcases hresult with ⟨hzero, hnone⟩ | ⟨hroom, -, c, hc⟩
    · exact iff_of_false (not_not.mpr hzero) fun h => hnone.resolve_left hn h.2
    · have hptr := hc.ptr
      exact iff_of_true (by omega) ⟨hn, hroom⟩

theorem Heap.Shows.heapStart_ne (hs : h.Shows top l) : h.heapStart ≠ 0 := by
  obtain ⟨b, l, rfl⟩ := List.exists_cons_of_ne_nil hs.nonempty
  rw [hs.start, firstAddr_cons]
  exact hs.pos b (by simp)

end Found

/-! ## Runs -/

namespace SharedHeap

variable {s t : SharedHeap}

/-- The heap keeps a list whose pages climb, or found no page for it. -/
structure Stocked (s : SharedHeap) : Prop where
  listed : (∃ top l, s.Paged top l) ∨ s.heap.heapStart = 0 ∧ s.live = []
  consistent : s.vmm.pmm.Consistent

/-- The blocks of a call come from the same manager. -/
theorem Stocked.consistent_takePages (h : s.Stocked) (n : Nat) :
    (takePages n s.heap.pages).2.source.pmm.Consistent :=
  takePages_invariant (I := fun s : Logged Vmm => s.source.pmm.Consistent)
    (fun _ hs => vmmAllocPage_consistent hs _) n h.consistent

theorem Stocked.call (h : s.Stocked) {c : HeapCall} (hlegal : s.Legal (.call c))
    (habove : s.heap.pages.CounterAboveFor (s.heap.asks c)) (hcall : s.call c = some t) :
    t.Stocked := by
  have hnext := h.consistent_takePages (s.heap.asks c)
  rcases h.listed with ⟨top, l, hpaged⟩ | ⟨hstart, hlive⟩
  · rw [hpaged.shows.asks_eq (hpaged.toTracks.blockAt hlegal.1)] at hnext
    obtain ⟨-, h', hexec, hpages, hpaged'⟩ := hpaged.call hlegal.1 habove
    rw [HeapClient.call_eq, hexec] at hcall
    obtain rfl := Option.some.inj hcall
    refine ⟨.inl ⟨_, _, hpaged'⟩, ?_⟩
    rw [vmm, hpages]
    exact hnext
  · obtain hempty := HeapClient.enter_of_empty hstart hlive hlegal hcall
    have hpassed : c.passed = 0 := hlegal.1.resolve_right (by simp [hlive])
    obtain ⟨h', hexec, -, hpages⟩ := HeapCall.exec_of_empty hstart hpassed
    rw [HeapClient.call_eq, hexec] at hcall
    obtain rfl := Option.some.inj hcall
    refine ⟨.inr hempty, ?_⟩
    rw [vmm, hpages]
    exact hnext

theorem Stocked.step (h : s.Stocked) {op : SharedOp} (hstep : s.ClimbingStep op t) :
    t.Stocked := by
  obtain ⟨habove, hstep⟩ := hstep
  cases op with
  | allocPage flags =>
    obtain rfl : t = s.allocPage flags := hstep
    exact ⟨h.listed.imp_left fun ⟨top, l, hpaged⟩ => ⟨top, l, hpaged.allocPage flags⟩,
      vmmAllocPage_consistent h.consistent flags⟩
  | heap op =>
    obtain ⟨hlegal, henter⟩ := hstep
    cases op with
    | write addr value =>
      obtain rfl := Option.some.inj henter
      exact ⟨h.listed.imp_left fun ⟨top, l, hpaged⟩ => ⟨top, l, hpaged.write hlegal⟩,
        h.consistent⟩
    | call c => exact h.call hlegal habove henter

theorem consistent_vmmAfter {p : Pmm} (hp : p.Consistent) (ram : Memory) (before : List Nat) :
    (vmmAfter p ram before).pmm.Consistent := by
  unfold vmmAfter
  refine List.foldlRecOn (motive := fun v : Vmm => v.pmm.Consistent) before _ ?_
    fun v hv flags _ => vmmAllocPage_consistent hv flags
  exact hp.alloc.alloc

theorem stocked {p : Pmm} (hp : p.Consistent) {ram mem : Memory} {before : List Nat}
    {ops : List SharedOp} (hrun : Run ClimbingStep (start p ram before mem) ops s) :
    s.Stocked := by
  refine hrun.invariant (I := Stocked) ⟨?_, ?_⟩ fun _ _ _ hs hstep => hs.step hstep
  · rcases Paged.init (h := fresh p ram before mem) rfl (counterAligned_vmmAfter p ram before)
      with ⟨page, hpaged, -⟩ | hempty
    · exact .inl ⟨_, _, hpaged⟩
    · exact .inr hempty
  · change (heapInit (fresh p ram before mem)).pages.source.pmm.Consistent
    rw [pages_heapInit rfl]
    exact vmmAllocPage_consistent (consistent_vmmAfter hp ram before) _

theorem Stocked.searchesFree (h : s.Stocked) : s.heap.SearchesFree := by
  rcases h.listed with ⟨top, l, hpaged⟩ | ⟨hstart, -⟩
  · exact hpaged.shows.searchesFree
  · exact Heap.searchesFree_of_empty hstart

/-- A call returns a block where the list has one, or the first page is one. -/
theorem Stocked.kmalloc_ne_zero_iff (h : s.Stocked) {size : Nat}
    (habove : s.heap.pages.CounterAboveFor (s.heap.asksFor size)) :
    ∃ r h', kmalloc s.heap size = some (r, h') ∧ (r ≠ 0 ↔ size ≠ 0 ∧ s.heap.heapStart ≠ 0 ∧
      (s.heap.HasFree (alignSize size) ∨ s.heap.PageServes (alignSize size))) := by
  rcases h.listed with ⟨top, l, hpaged⟩ | ⟨hstart, -⟩
  · obtain ⟨r, h', hcall, hne⟩ :=
      hpaged.shows.kmalloc_ne_zero_iff (habove.climbs hpaged.ends hpaged.aligned).1
    exact ⟨r, h', hcall, by simpa [hpaged.shows.heapStart_ne] using hne⟩
  · obtain ⟨h', hcall, -⟩ := kmalloc_of_empty hstart size
    exact ⟨0, h', hcall, by simp [hstart]⟩

/-- A call that asks for no page. -/
theorem Stocked.failsForFree_of_asks_none (h : s.Stocked) {size : Nat}
    (habove : s.heap.pages.CounterAboveFor (s.heap.asksFor size))
    (hasks : s.heap.asksFor size = 0) : s.heap.FailsForFree size := by
  obtain ⟨r, h', hcall, hne⟩ := h.kmalloc_ne_zero_iff habove
  by_cases hn : size = 0
  · rw [Heap.failsForFree_iff (by rw [kmalloc, if_pos hn])]
    exact fun _ => (Heap.sameAs_pages_iff _).mpr rfl
  · by_cases hfree : s.heap.HasFree (alignSize size)
    · rw [Heap.failsForFree_iff hcall]
      have hstart : s.heap.heapStart ≠ 0 := hfree.choose_spec.1.heapStart_ne
      exact fun hzero => absurd hzero (hne.mpr ⟨hn, hstart, .inl hfree⟩)
    · have hfull := (h.searchesFree _).mpr hfree
      rw [Heap.failsForFree_iff (kmalloc_of_no_page hn hfull (.inl hasks)), hasks]
      exact fun _ => (Heap.sameAs_pages_iff _).mpr rfl

end SharedHeap

/-- In every run in which the heap gets its pages from a counter above the pages it has, a `kmalloc`
that returns 0 leaves the counters, the list and the free blocks as they were exactly if it asks for
no page, or there is none, or the first one serves the request and it does not return 0. -/
theorem kmalloc_fails_for_free_iff {p : Pmm} (hp : p.Consistent) {ram mem : Memory}
    {before : List Nat} {ops : List SharedOp} {s : SharedHeap}
    (hrun : Run SharedHeap.ClimbingStep (.start p ram before mem) ops s) {size : Nat}
    (hclimb : s.PagesClimb (.heap (.call (.kmalloc size)))) :
    s.heap.FailsForFree size ↔ s.heap.NoPageInVain size := by
  have hs := SharedHeap.stocked hp hrun
  obtain ⟨r, h', hcall, hne⟩ := hs.kmalloc_ne_zero_iff hclimb
  have hasks := hs.searchesFree.asksFor_eq_zero_iff size
  by_cases hzero : s.heap.asksFor size = 0
  · have hvain : s.heap.NoPageInVain size := by
      have := hasks.mp hzero
      unfold Heap.NoPageInVain
      grind
    exact iff_of_true (hs.failsForFree_of_asks_none hclimb hzero) hvain
  · obtain ⟨hn, hfull⟩ := asksFor_ne_zero hzero
    have hnone : s.heap.NoPageInVain size ↔ s.heap.pages.source.OutOfPages ∨
        s.heap.heapStart ≠ 0 ∧ s.heap.PageServes (alignSize size) := by
      unfold Heap.NoPageInVain
      grind
    rw [hnone]
    by_cases hpage : pageResult 0 s.heap.pages = 0
    · rw [Heap.failsForFree_of_no_page hs.consistent hzero hpage]
      simp [Heap.PageServes, hpage]
    · have hsome : ¬ s.heap.pages.source.OutOfPages := fun hout =>
        hpage ((vmmAllocPage_outOfPages_iff hs.consistent _).mpr hout).1
      rw [Heap.failsForFree_of_page hzero hpage hcall, hne]
      have hfree : ¬ s.heap.HasFree (alignSize size) := (hs.searchesFree _).mp hfull
      simp [hsome, hn, hfree]

/-! ## A page that is kept -/

theorem eightBlocks_consistent : eightBlocks.Consistent :=
  ⟨by simp [eightBlocks], by simp [eightBlocks]⟩

theorem SharedHeap.pagesClimb_of_asks_none {s : SharedHeap} {size : Nat}
    (h : s.heap.asksFor size = 0) : s.PagesClimb (.heap (.call (.kmalloc size))) := by
  change Logged.CounterAboveFor (s.heap.asksFor size) _
  rw [h]
  trivial

/-- With the first page full a request for 5000 bytes takes one more, and returns 0. -/
theorem kmalloc_fails_for_free_iff_eightBlocks : ∃ s h',
    Run SharedHeap.ClimbingStep eightBlocksStart [.heap (.call (.kmalloc 4080))] s ∧
      kmalloc s.heap 5000 = some (0, h') ∧
        (s.heap.FailsForFree 5000 ↔ s.heap.NoPageInVain 5000) := by
  obtain ⟨p, hcalls, hasks, habove, hzero⟩ : ∃ p : SharedHeap × Nat × Heap (Logged Vmm),
      ((eightBlocksStart.call (.kmalloc 4080)).bind fun s =>
        (kmalloc s.heap 5000).map fun q => (s, q)) = some p ∧
      p.1.heap.asksFor 5000 = 1 ∧
      (∀ page ∈ p.1.heap.pages.returned, page < p.1.heap.pages.source.nextVirt) ∧
      p.2.1 = 0 := by
    unfold eightBlocksStart SharedHeap.start
    simp only [SharedHeap.fresh_eightBlocks]
    exact exists_some (by decide +kernel)
  have hnone : eightBlocksStart.heap.asksFor 4080 = 0 := by
    unfold eightBlocksStart SharedHeap.start
    simp only [SharedHeap.fresh_eightBlocks]
    decide +kernel
  obtain ⟨s, hfull, hlast⟩ := Option.bind_eq_some_iff.mp hcalls
  obtain ⟨⟨r, h'⟩, hfails, rfl⟩ := Option.map_eq_some_iff.mp hlast
  dsimp only at hasks habove hzero
  subst hzero
  have hclimb : SharedHeap.PagesClimb s (.heap (.call (.kmalloc 5000))) := by
    change Logged.CounterAboveFor (s.heap.asksFor 5000) _
    rw [hasks]
    exact Logged.counterAboveFor_one habove
  have hstep : ∀ start : SharedHeap, start.heap.asksFor 4080 = 0 →
      start.call (.kmalloc 4080) = some s →
        SharedHeap.ClimbingStep start (.heap (.call (.kmalloc 4080))) s :=
    fun start hstart hcall =>
      ⟨SharedHeap.pagesClimb_of_asks_none hstart, ⟨.inl rfl, by decide⟩, hcall⟩
  have hrun : Run SharedHeap.ClimbingStep eightBlocksStart [.heap (.call (.kmalloc 4080))] s :=
    .single (hstep _ hnone hfull)
  exact ⟨s, h', hrun, hfails, kmalloc_fails_for_free_iff eightBlocks_consistent hrun hclimb⟩

/-- After `heap_init` a request for 5000 bytes adds a page, and returns 0. -/
theorem kmalloc_keeps_page : ¬ ∀ (s : SharedHeap) (ops : List SharedOp) (size : Nat),
    Run SharedHeap.Step eightBlocksStart ops s → s.heap.FailsForFree size := by
  intro hclaim
  obtain ⟨p, hcall, hr, hsize⟩ : ∃ p : Nat × Heap (Logged Vmm),
      kmalloc eightBlocksStart.heap 5000 = some p ∧ p.1 = 0 ∧
        getHeapSize p.2 ≠ getHeapSize eightBlocksStart.heap := by
    unfold eightBlocksStart SharedHeap.start
    simp only [SharedHeap.fresh_eightBlocks]
    exact exists_some (by decide +kernel)
  have hsame := hclaim eightBlocksStart [] 5000 .nil p.2 (hr ▸ hcall)
  exact hsize hsame.heapSize

end HolyOs.Mm
