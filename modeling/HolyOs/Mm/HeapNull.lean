import HolyOs.Mm.HeapCost

/-!
# Null pointers of the heap

`heap_init` leaves `heap_start` and `heap_end` at 0 when it gets no page. The loops over the list
test `heap_start` before they follow it. `heap_expand` follows `heap_end` without a test, so the
first page that a later `kmalloc` gets is linked behind a null pointer.
-/
namespace HolyOs.Mm

open ByteMemory HolyOs.Lib BlockList Transition

section Derefs

variable {σ : Type*} [PageSource σ]

/-! ## The pointers that are followed

Each definition lists the values of `heap_start` and `heap_end` through which the function of that
name reads or writes, in order. -/

/-- `heap_end->next = new_block`, once for each page. -/
def heapExpandLoopDerefs : Nat → Heap σ → List Nat
  | 0, _ => []
  | pages + 1, h =>
    let newMem := PageSource.vmmAllocPage h.pages (pagePresent ||| pageWrite)
    let h := { h with pages := newMem.2 }
    if newMem.1 = 0 then []
    else h.heapEnd :: heapExpandLoopDerefs pages (heapAppend h newMem.1)

def heapExpandDerefs (h : Heap σ) (size : Nat) : List Nat :=
  let requiredSize := Word32.wrap (size + heapBlockSize)
  let pages := Word32.wrap (requiredSize + heapExpandSize - 1) / heapExpandSize
  heapExpandLoopDerefs pages h

omit [PageSource σ] in
/-- The first iteration of a loop over the list, whose condition tests `heap_start`. -/
def listLoopDerefs (h : Heap σ) : List Nat := if h.heapStart = 0 then [] else [h.heapStart]

/-- The four fields of the first block and the two that are logged, behind the test of
`heap_start`. -/
def heapInitDerefs (h : Heap σ) : List Nat :=
  let page := PageSource.vmmAllocPage h.pages (pagePresent ||| pageWrite)
  if page.1 = 0 then [] else List.replicate 6 page.1

def kmallocDerefs (h : Heap σ) (size : Nat) : List Nat :=
  if size = 0 then []
  else
    let size := alignSize size
    listLoopDerefs h ++
      if findFreeBlock h size = some 0 then
        let size' := Word32.wrap (size + heapBlockSize)
        heapExpandDerefs h size' ++ listLoopDerefs (heapExpand h size')
      else []

omit [PageSource σ] in
def releaseBlockDerefs (h : Heap σ) (block : Nat) : List Nat :=
  listLoopDerefs { h with mem := setUsed h.mem block 0 }

omit [PageSource σ] in
def kfreeDerefs (h : Heap σ) (ptr : Nat) : List Nat :=
  if ptr = 0 then []
  else
    let block := Word32.sub ptr heapBlockSize
    if blockMagic h.mem block ≠ heapMagic then [] else releaseBlockDerefs h block

def kreallocDerefs (h : Heap σ) (ptr size : Nat) : List Nat :=
  if ptr = 0 then kmallocDerefs h size
  else if size = 0 then kfreeDerefs h ptr
  else
    let block := Word32.sub ptr heapBlockSize
    if blockMagic h.mem block ≠ heapMagic then []
    else
      let size := alignSize size
      if size ≤ blockSize h.mem block then []
      else
        kmallocDerefs h size ++
          match kmalloc h size with
          | none => []
          | some (newPtr, h) => if newPtr = 0 then [] else releaseBlockDerefs h block

def HeapCall.derefs (h : Heap σ) : HeapCall → List Nat
  | .kmalloc size => kmallocDerefs h size
  | .kfree ptr => kfreeDerefs h ptr
  | .krealloc ptr size => kreallocDerefs h ptr size

end Derefs

/-! ## What the callers rely on -/

/-- The static variables before `heap_init`. -/
def Heap.unset {σ : Type*} (mem : Memory) (pages : σ) : Heap σ := ⟨mem, 0, 0, 0, pages⟩

/-- The pointer of a used block on the list with a header that `kfree` accepts, and with the bytes
that the requested size is rounded up to. -/
structure Heap.ValidBlock {σ : Type*} (h : Heap σ) (ptr size : Nat) : Prop where
  node : h.Node (Word32.sub ptr heapBlockSize)
  magic : blockMagic h.mem (Word32.sub ptr heapBlockSize) = heapMagic
  provides : h.Provides ptr (alignSize size)

/-- The call asks for pages and gets one. -/
def Heap.GetsPage {σ : Type*} [PageSource σ] (h : Heap σ) (c : HeapCall) : Prop :=
  h.asks c ≠ 0 ∧ pageResult 0 h.pages ≠ 0

namespace HeapClient

variable {σ : Type*} [PageSource σ]

/-- `kmalloc` returns 0 or a valid block that nobody else holds. -/
def Answers (s : HeapClient σ) : HeapCall → Prop
  | .kmalloc size => ∃ r h, kmalloc s.heap size = some (r, h) ∧
      (r = 0 ∨ h.ValidBlock r size ∧ ∀ a ∈ s.live, a.ptr ≠ r)
  | _ => True

/-- No null pointer is followed, and the result is one that the caller can use. -/
structure Survives (s : HeapClient σ) (c : HeapCall) : Prop where
  nonnull : 0 ∉ c.derefs s.heap
  answers : s.Answers c

/-- `P` holds of every call of the operations that start with `heap_init`, in the state before
it. -/
def EveryCall (h : Heap σ) (ops : List HeapOp) (P : HeapClient σ → HeapCall → Prop) : Prop :=
  ∀ before c after s, ops = before ++ .call c :: after → Run (Step Legal) (start h) before s →
    P s c

omit [PageSource σ] in
/-- No page since `heap_init` failed. -/
structure Unset (s : HeapClient σ) : Prop where
  start : s.heap.heapStart = 0
  last : s.heap.heapEnd = 0
  live : s.live = []

end HeapClient

/-! ## The null pointers among them -/

section Null

variable {σ : Type*} {h : Heap σ} {n : Nat}

theorem zero_notMem_listLoopDerefs (h : Heap σ) : 0 ∉ listLoopDerefs h := by
  unfold listLoopDerefs
  split_ifs with hstart
  · exact List.not_mem_nil
  · simpa using Ne.symm hstart

theorem zero_notMem_kfreeDerefs (h : Heap σ) (ptr : Nat) : 0 ∉ kfreeDerefs h ptr := by
  unfold kfreeDerefs
  dsimp only
  split_ifs
  · exact List.not_mem_nil
  · exact List.not_mem_nil
  · exact zero_notMem_listLoopDerefs _

variable [PageSource σ]

theorem zero_notMem_heapInitDerefs (h : Heap σ) : 0 ∉ heapInitDerefs h := by
  unfold heapInitDerefs
  dsimp only
  split_ifs with hpage
  · exact List.not_mem_nil
  · simpa using Ne.symm hpage

/-- A page that has been linked is not null, so only the first link can be. -/
theorem zero_notMem_heapExpandLoopDerefs (hlast : h.heapEnd ≠ 0) :
    0 ∉ heapExpandLoopDerefs n h := by
  induction n generalizing h with
  | zero => exact List.not_mem_nil
  | succ n ih =>
    unfold heapExpandLoopDerefs
    dsimp only
    split_ifs with hpage
    · exact List.not_mem_nil
    · apply List.not_mem_cons_of_ne_of_not_mem hlast.symm
      apply ih
      exact hpage

theorem zero_mem_heapExpandLoopDerefs_iff :
    0 ∈ heapExpandLoopDerefs n h ↔ h.heapEnd = 0 ∧ n ≠ 0 ∧ pageResult 0 h.pages ≠ 0 := by
  by_cases hlast : h.heapEnd = 0
  · cases n with
    | zero => simp [heapExpandLoopDerefs]
    | succ n =>
      unfold heapExpandLoopDerefs pageResult
      dsimp only
      split_ifs with hpage
      · exact iff_of_false List.not_mem_nil fun h => h.2.2 hpage
      · exact iff_of_true (hlast ▸ List.mem_cons_self) ⟨hlast, n.succ_ne_zero, hpage⟩
  · exact iff_of_false (zero_notMem_heapExpandLoopDerefs hlast) fun h => hlast h.1

theorem zero_mem_kmallocDerefs_iff (size : Nat) : 0 ∈ kmallocDerefs h size ↔
    h.heapEnd = 0 ∧ h.asksFor size ≠ 0 ∧ pageResult 0 h.pages ≠ 0 := by
  unfold kmallocDerefs Heap.asksFor
  dsimp only
  by_cases hsize : size = 0
  · simp [hsize]
  · by_cases hfull : findFreeBlock h (alignSize size) = some 0
    · rw [if_neg hsize, if_pos hfull, if_neg (by simp [hsize, hfull])]
      simp only [List.mem_append, zero_notMem_listLoopDerefs, false_or, or_false]
      exact zero_mem_heapExpandLoopDerefs_iff
    · simp [hsize, hfull, zero_notMem_listLoopDerefs]

/-- Where `krealloc` does not move the block it frees it or leaves it. -/
theorem zero_notMem_kreallocDerefs {ptr : Nat} (hptr : ptr ≠ 0) (hgrows : ¬ h.Grows ptr n) :
    0 ∉ kreallocDerefs h ptr n := by
  unfold kreallocDerefs
  dsimp only
  rw [if_neg hptr]
  split_ifs with hsize hmagic hfits
  · exact zero_notMem_kfreeDerefs h ptr
  · exact List.not_mem_nil
  · exact List.not_mem_nil
  · exact absurd ⟨hptr, hsize, not_not.mp hmagic, Nat.lt_of_not_le hfits⟩ hgrows

theorem zero_mem_kreallocDerefs_iff {ptr : Nat} (hgrows : h.Grows ptr n) :
    0 ∈ kreallocDerefs h ptr n ↔ 0 ∈ kmallocDerefs h (alignSize n) := by
  obtain ⟨hptr, hsize, hmagic, hfits⟩ := hgrows
  unfold kreallocDerefs
  dsimp only
  rw [if_neg hptr, if_neg hsize, if_neg (not_not.mpr hmagic), if_neg (Nat.not_le_of_lt hfits),
    List.mem_append]
  refine or_iff_left ?_
  split
  · exact List.not_mem_nil
  · split_ifs
    · exact List.not_mem_nil
    · exact zero_notMem_listLoopDerefs _

/-- A null pointer is followed exactly where a page is linked behind one. -/
theorem zero_mem_derefs_iff (c : HeapCall) :
    0 ∈ c.derefs h ↔ h.heapEnd = 0 ∧ h.GetsPage c := by
  unfold Heap.GetsPage
  cases c with
  | kmalloc size => exact zero_mem_kmallocDerefs_iff size
  | kfree ptr => exact iff_of_false (zero_notMem_kfreeDerefs h ptr) fun hgets => hgets.2.1 rfl
  | krealloc ptr size =>
    unfold HeapCall.derefs Heap.asks
    dsimp only
    split_ifs with hptr hgrows
    · rw [kreallocDerefs, if_pos hptr]
      exact zero_mem_kmallocDerefs_iff size
    · rw [zero_mem_kreallocDerefs_iff hgrows]
      exact zero_mem_kmallocDerefs_iff _
    · exact iff_of_false (zero_notMem_kreallocDerefs hptr hgrows) fun hgets => hgets.2.1 rfl

end Null

/-! ## A call in each kind of state -/

namespace HeapClient

variable {σ : Type*} [PageSource σ] {s t : HeapClient σ} {top : Nat} {l : List Block}
  {c : HeapCall}

/-- A heap with blocks has a last one, and `kmalloc` returns what the list has. -/
theorem Sound.survives (hs : s.Sound top l) (c : HeapCall) : s.Survives c where
  nonnull := by
    rw [zero_mem_derefs_iff, hs.shows.last]
    rintro ⟨hlast, -⟩
    obtain ⟨init, b, rfl, hb⟩ := exists_last hs.shows.nonempty
    apply hs.shows.pos b (by simp)
    rw [← hb, hlast]
  answers := by
    cases c with
    | kmalloc size =>
      obtain ⟨r, h', top', l', hcall, hs', -, -, hresult⟩ :=
        kmalloc_spec hs.shows hs.supplies size
      refine ⟨r, h', hcall, ?_⟩
      rcases hresult with ⟨hzero, -⟩ | ⟨-, hfresh, b, hb⟩
      · exact .inl hzero
      · obtain ⟨-, hblock, hmagic, -⟩ := hs'.block_of_ptr hb.blockAt
        refine .inr ⟨⟨?_, ?_, ?_⟩, hs.tracks.ne_of_fresh hfresh⟩
        · rw [hblock]
          exact (hs'.node_iff _).mpr ⟨b, hb.mem, rfl⟩
        · rw [hblock]
          exact hmagic
        · exact (hs'.provides_iff hb.toHolds).mpr hb.size
    | kfree ptr => trivial
    | krealloc ptr size => trivial

/-- Without a block `kmalloc` returns 0. -/
theorem Unset.survives_iff (hs : s.Unset) (c : HeapCall) :
    s.Survives c ↔ ¬ s.heap.GetsPage c := by
  have hnull : 0 ∈ c.derefs s.heap ↔ s.heap.GetsPage c := by
    rw [zero_mem_derefs_iff]
    exact and_iff_right hs.last
  refine ⟨fun h => hnull.not.mp h.nonnull, fun h => ⟨hnull.not.mpr h, ?_⟩⟩
  cases c with
  | kmalloc size =>
    obtain ⟨h', hcall, -, -⟩ := kmalloc_of_empty hs.start size
    exact ⟨0, h', hcall, .inl rfl⟩
  | kfree ptr => trivial
  | krealloc ptr size => trivial

/-- A call that is passed 0 and gets no page leaves `heap_end` as it is. -/
theorem exec_of_no_page {h : Heap σ} (hstart : h.heapStart = 0) (hpassed : c.passed = 0)
    (hpage : ¬ h.GetsPage c) : ∃ h', c.exec h = some (0, h') ∧ h'.heapEnd = h.heapEnd := by
  have hmalloc : ∀ size, ¬ (h.asksFor size ≠ 0 ∧ pageResult 0 h.pages ≠ 0) →
      ∃ h', kmalloc h size = some (0, h') ∧ h'.heapEnd = h.heapEnd := by
    intro size hnone
    by_cases hsize : size = 0
    · exact ⟨h, by rw [kmalloc, if_pos hsize], rfl⟩
    · refine ⟨_, kmalloc_of_no_page hsize (findFreeBlock_of_empty hstart _) ?_, rfl⟩
      simpa [or_iff_not_imp_left] using hnone
  cases c with
  | kmalloc size => exact hmalloc size hpage
  | kfree ptr =>
    obtain rfl : ptr = 0 := hpassed
    exact ⟨h, rfl, rfl⟩
  | krealloc ptr size =>
    obtain rfl : ptr = 0 := hpassed
    unfold Heap.GetsPage at hpage
    rw [asks_krealloc_zero] at hpage
    obtain ⟨h', hcall, hlast⟩ := hmalloc size hpage
    refine ⟨h', ?_, hlast⟩
    rw [HeapCall.exec, krealloc, if_pos rfl, hcall]

/-- A call that gets no page leaves the heap without blocks. -/
theorem Unset.enter (hs : s.Unset) {op : HeapOp} (hstep : Step Legal s op t)
    (hpage : ∀ c, op = .call c → ¬ s.heap.GetsPage c) : t.Unset := by
  obtain ⟨hlegal, henter⟩ := hstep
  obtain ⟨hstart, hlive⟩ := enter_of_empty hs.start hs.live hlegal henter
  refine ⟨hstart, ?_, hlive⟩
  cases op with
  | write addr value =>
    obtain rfl := Option.some.inj henter
    exact hs.last
  | call c =>
    have hpassed : c.passed = 0 := hlegal.1.resolve_right (by simp [hs.live])
    obtain ⟨h', hexec, hlast⟩ := exec_of_no_page hs.start hpassed (hpage c rfl)
    have hcall : s.call c = some t := henter
    rw [call_eq, hexec] at hcall
    obtain rfl := Option.some.inj hcall
    exact hlast.trans hs.last

/-! ## Runs -/

section Runs

variable {h : Heap σ} {ops : List HeapOp} {P Q : HeapClient σ → HeapCall → Prop}

theorem EveryCall.of_append {op : HeapOp} (hevery : EveryCall h (ops ++ [op]) P) :
    EveryCall h ops P := by
  intro before c after s hops hrun
  exact hevery before c (after ++ [op]) s (by simp [hops]) hrun

/-- While the calls get no page the heap stays without blocks. -/
theorem Unset.of_run (hstart : (HeapClient.start h).Unset)
    (hrun : Run (Step Legal) (HeapClient.start h) ops s) (hevery : EveryCall h ops P)
    (hP : ∀ {s c}, s.Unset → P s c → ¬ s.heap.GetsPage c) : s.Unset := by
  induction hrun with
  | nil => exact hstart
  | @snoc ops t u op hrun hstep ih =>
    have ht := ih hevery.of_append
    apply ht.enter hstep
    rintro c rfl
    exact hP ht (hevery ops c [] t rfl hrun)

/-- What says the same of a call to a heap without blocks, and that it gets no page, says the same
of a run from one. -/
theorem EveryCall.of_unset (hstart : (start h).Unset) (hevery : EveryCall h ops P)
    (hP : ∀ {s c}, s.Unset → P s c → ¬ s.heap.GetsPage c)
    (hQ : ∀ {s c}, s.Unset → P s c → Q s c) : EveryCall h ops Q := by
  intro before c after s hops hrun
  have hbefore : EveryCall h before P := by
    intro before' c' after' s' hops' hrun'
    exact hevery before' c' (after' ++ .call c :: after) s' (by simp [hops, hops']) hrun'
  have hs := Unset.of_run hstart hrun hbefore hP
  exact hQ hs (hevery before c after s hops hrun)

end Runs

end HeapClient

/-- In every run the heap follows no null pointer, and `kmalloc` returns 0 or a valid block,
exactly when `heap_init` gets its page or no later call gets one. -/
theorem heap_survives_iff {σ : Type*} [PageSource σ] (mem : Memory) {pages : σ}
    (hsupply : Supplies 0 pages) {ops : List HeapOp} :
    (0 ∉ heapInitDerefs (.unset mem pages) ∧
        HeapClient.EveryCall (.unset mem pages) ops fun s c => s.Survives c) ↔
      pageResult 0 pages ≠ 0 ∨
        HeapClient.EveryCall (.unset mem pages) ops fun s c => ¬ s.heap.GetsPage c := by
  rw [and_iff_right (zero_notMem_heapInitDerefs _)]
  have hinit : (heapInit (.unset mem pages)).heapStart = pageResult 0 pages :=
    heapStart_heapInit rfl
  by_cases hpage : pageResult 0 pages = 0
  · have hstart : (HeapClient.start (.unset mem pages)).Unset := by
      refine ⟨hinit.trans hpage, ?_, rfl⟩
      unfold HeapClient.start heapInit
      exact congrArg Heap.heapEnd (if_pos hpage)
    rw [or_iff_right (not_not.mpr hpage)]
    constructor
    · intro hevery
      exact hevery.of_unset hstart (fun hs h => (hs.survives_iff _).mp h)
        fun hs h => (hs.survives_iff _).mp h
    · intro hevery
      exact hevery.of_unset hstart (fun _ h => h) fun hs h => (hs.survives_iff _).mpr h
  · refine iff_of_true (fun before c after s _ hrun => ?_) (.inl hpage)
    obtain ⟨top, l, hs⟩ := HeapClient.exists_sound hsupply (hinit ▸ hpage) hrun
    exact hs.survives c

/-- Requests with a page, without one, and with one again. -/
theorem heap_survives_scripted :
    HeapClient.EveryCall (.unset (fun _ => 0) PageScript.scripted.pages)
      [.call (.kmalloc 4000), .call (.kmalloc 4000), .call (.kfree 0xC0000010),
        .call (.kmalloc 100), .call (.kmalloc 4000)] fun s c => s.Survives c :=
  ((heap_survives_iff _ PageScript.scripted_supplies).mpr (.inl (by decide))).2

/-- A page source that fails in `heap_init` and has a page after that. -/
def PageScript.late : PageScript := ⟨[0, 0xC0000000]⟩

/-- The first request links its page behind a null pointer. -/
theorem heap_follows_null : Supplies 0 PageScript.late ∧
    (HeapClient.start (.unset (fun _ => 0) PageScript.late)).Legal (.call (.kmalloc 100)) ∧
      ¬ HeapClient.EveryCall (.unset (fun _ => 0) PageScript.late) [.call (.kmalloc 100)]
        fun s c => s.Survives c := by
  refine ⟨PageScript.supplies (by decide) (by decide), ⟨.inl rfl, by decide⟩, fun hevery => ?_⟩
  have hsurvives := hevery [] (.kmalloc 100) [] _ rfl .nil
  apply hsurvives.nonnull
  exact (zero_mem_derefs_iff _).mpr ⟨rfl, by decide +kernel, by decide⟩

end HolyOs.Mm
