import HolyOs.Mm.HeapLock
import HolyOs.Mm.VmmOutcome

/-!
# The pages of the heap

The heap over the virtual memory manager, with other callers of `vmm_alloc_page` between its
calls. A record beside the manager keeps the pages that were returned to the heap itself.

`merge_blocks` joins free blocks that follow each other on the list, wherever they are in memory,
and a page of another caller may lie between them. While it joins only blocks that touch, and the
heap gets no page below its others, every byte it hands out is in one of its own pages.
-/
namespace HolyOs.Mm

open ByteMemory HolyOs.Lib BlockList Transition

/-- A page source with the pages it returned, the last one first. -/
structure Logged (σ : Type) where
  source : σ
  returned : List Nat

instance {σ : Type} [PageSource σ] : PageSource (Logged σ) where
  vmmAllocPage s flags :=
    let r := PageSource.vmmAllocPage s.source flags
    (r.1, ⟨r.2, if r.1 = 0 then s.returned else r.1 :: s.returned⟩)

/-- The address is in one of the pages. -/
def InPages (pages : List Nat) (x : Nat) : Prop :=
  ∃ page ∈ pages, page ≤ x ∧ x < page + pageSize

/-- Free blocks that follow each other on the list follow each other in memory. -/
def Heap.FreeTouching {σ : Type*} (h : Heap σ) : Prop :=
  ∀ block, h.Node block → blockUsed h.mem block = 0 → blockNext h.mem block ≠ 0 →
    blockUsed h.mem (blockNext h.mem block) = 0 →
      blockNext h.mem block = block + heapBlockSize + blockSize h.mem block

/-- The blocks that `merge_blocks` joins when the block of `ptr` is released touch. -/
def Heap.JoinsTouching {σ : Type*} (h : Heap σ) (ptr : Nat) : Prop :=
  Heap.FreeTouching { h with mem := setUsed h.mem (Word32.sub ptr heapBlockSize) 0 }

/-- The number of pages that `kmalloc` asks for. -/
def Heap.asksFor {σ : Type*} (h : Heap σ) (n : Nat) : Nat :=
  if n = 0 ∨ findFreeBlock h (alignSize n) ≠ some 0 then 0
  else expandPages (Word32.wrap (alignSize n + heapBlockSize))

def Heap.asks {σ : Type*} (h : Heap σ) : HeapCall → Nat
  | .kmalloc n => h.asksFor n
  | .kfree _ => 0
  | .krealloc ptr n =>
    if ptr = 0 then h.asksFor n else if h.Grows ptr n then h.asksFor (alignSize n) else 0

/-- `next_virt` is above the pages of the heap, or there is no free block and it is not used. -/
def Logged.CounterAbove (s : Logged Vmm) : Prop :=
  s.source.pmm.freeBlocks ≠ ∅ → ∀ page ∈ s.returned, page < s.source.nextVirt

/-- The next `n` calls of `heap_expand` all find the counter so. -/
def Logged.CounterAboveFor : Nat → Logged Vmm → Prop
  | 0, _ => True
  | n + 1, s =>
    let r := PageSource.vmmAllocPage s (pagePresent ||| pageWrite)
    s.CounterAbove ∧ (r.1 ≠ 0 → CounterAboveFor n r.2)

/-- The heap and its clients over the virtual memory manager. -/
abbrev SharedHeap := HeapClient (Logged Vmm)

/-- An operation of a client of the heap, or a call of `vmm_alloc_page` by somebody else. -/
inductive SharedOp
  | heap (op : HeapOp)
  | allocPage (flags : Nat)

/-- The heap after another caller's `vmm_alloc_page`. The page is not recorded. -/
def Heap.allocElsewhere (h : Heap (Logged Vmm)) (flags : Nat) : Heap (Logged Vmm) :=
  { h with pages := { h.pages with source := (vmmAllocPage h.pages.source flags).2 } }

namespace SharedHeap

/-- The virtual memory manager after `vmm_init` and calls of `vmm_alloc_page`. -/
def vmmAfter (p : Pmm) (ram : Memory) (before : List Nat) : Vmm :=
  before.foldl (fun v flags => (vmmAllocPage v flags).2) (vmmInit p ram)

/-- The heap before `heap_init`, with calls of others before it. -/
def fresh (p : Pmm) (ram : Memory) (before : List Nat) (mem : Memory) : Heap (Logged Vmm) :=
  ⟨mem, 0, 0, 0, ⟨vmmAfter p ram before, []⟩⟩

def start (p : Pmm) (ram : Memory) (before : List Nat) (mem : Memory) : SharedHeap :=
  HeapClient.start (fresh p ram before mem)

variable (s : SharedHeap)

def vmm : Vmm := s.heap.pages.source

def allocPage (flags : Nat) : SharedHeap := { s with heap := s.heap.allocElsewhere flags }

def Step : SharedOp → SharedHeap → Prop
  | .heap op, t => HeapClient.Step HeapClient.Legal s op t
  | .allocPage flags, t => t = s.allocPage flags

/-- The call releases no block, or joins blocks that touch. A `krealloc` that moves its block
releases it after its `kmalloc`. -/
def JoinsTouching : HeapCall → Prop
  | .kmalloc _ => True
  | .kfree ptr => ptr ≠ 0 → s.heap.JoinsTouching ptr
  | .krealloc ptr n => (ptr ≠ 0 → n = 0 → s.heap.JoinsTouching ptr) ∧
      (s.heap.Grows ptr n → ∀ r h, kmalloc s.heap (alignSize n) = some (r, h) → r ≠ 0 →
        h.JoinsTouching ptr)

/-- No block is joined with one it does not touch, and no page is below an earlier one. -/
def Careful : SharedOp → Prop
  | .heap (.call c) => s.JoinsTouching c ∧ s.heap.pages.CounterAboveFor (s.heap.asks c)
  | .heap (.write _ _) => True
  | .allocPage _ => True

def CarefulStep (op : SharedOp) (t : SharedHeap) : Prop := s.Careful op ∧ s.Step op t

/-- Every byte of the block of a live allocation is in a page of the heap. -/
def StaysInside : Prop := ∀ a ∈ s.live, ∀ x, a.ptr ≤ x →
  x < a.ptr + blockSize s.heap.mem (Word32.sub a.ptr heapBlockSize) →
    InPages s.heap.pages.returned x

end SharedHeap

/-! ## The pages taken -/

section Taken

/-- The pages a call takes are recorded. -/
theorem takePages_logged {σ : Type} [PageSource σ] (n : Nat) (s : Logged σ) :
    takePages n s = ((takePages n s.source).1,
      ⟨(takePages n s.source).2, (takePages n s.source).1.reverse ++ s.returned⟩) := by
  induction n generalizing s with
  | zero => rfl
  | succ n ih =>
    rw [takePages, takePages]
    dsimp only [PageSource.vmmAllocPage]
    split_ifs with hr
    · rfl
    · rw [ih]
      simp

/-- The counter is the address of a page. -/
def Vmm.CounterAligned (v : Vmm) : Prop := v.nextVirt % 4096 = 0 ∧ v.nextVirt < 2 ^ 32

theorem Vmm.CounterAligned.alloc {v : Vmm} (h : v.CounterAligned) (flags : Nat) :
    (vmmAllocPage v flags).2.CounterAligned := by
  obtain ⟨hmod, hlt⟩ := h
  unfold Vmm.CounterAligned
  rcases vmmAllocPage_counter v flags with ⟨-, hnext⟩ | ⟨-, hnext, -⟩
  · rw [hnext]
    exact ⟨hmod, hlt⟩
  · rw [hnext, Word32.wrap]
    omega

theorem Vmm.CounterAligned.page {v : Vmm} (h : v.CounterAligned) {flags : Nat}
    (hne : (vmmAllocPage v flags).1 ≠ 0) :
    (vmmAllocPage v flags).1 % 4096 = 0 ∧ (vmmAllocPage v flags).1 < 2 ^ 32 := by
  rcases vmmAllocPage_counter v flags with ⟨hzero, -⟩ | ⟨-, -, hzero | hcounter⟩
  · exact absurd hzero hne
  · exact absurd hzero hne
  · rw [hcounter]
    exact h

theorem SharedHeap.counterAligned_vmmAfter (p : Pmm) (ram : Memory) (before : List Nat) :
    (vmmAfter p ram before).CounterAligned := by
  unfold vmmAfter
  refine List.foldlRecOn before _ ?_ fun v hv flags _ => hv.alloc flags
  have hnext : (vmmInit p ram).nextVirt = 0xC0000000 := rfl
  unfold Vmm.CounterAligned
  rw [hnext]
  decide

/-- `top` is the end of a page of the heap. -/
def Logged.EndsAt (s : Logged Vmm) (top : Nat) : Prop :=
  ∃ page ∈ s.returned, page % 4096 = 0 ∧ top = page + 4096

theorem Logged.alloc_eq {s t : Logged Vmm} {r flags : Nat}
    (hres : PageSource.vmmAllocPage s flags = (r, t)) :
    (vmmAllocPage s.source flags).1 = r ∧ t.source = (vmmAllocPage s.source flags).2 ∧
      t.returned = if r = 0 then s.returned else r :: s.returned := by
  obtain ⟨rfl, rfl⟩ := Prod.mk.inj hres
  exact ⟨rfl, rfl, rfl⟩

/-- A page that the heap gets from a counter above its pages is above them. -/
theorem Logged.CounterAbove.page {s : Logged Vmm} {top r : Nat} {t : Logged Vmm}
    (h : s.CounterAbove) (hend : s.EndsAt top) (haligned : s.source.CounterAligned)
    (hres : PageSource.vmmAllocPage s (pagePresent ||| pageWrite) = (r, t)) (hr : r ≠ 0) :
    r % 4096 = 0 ∧ top ≤ r ∧ r < 2 ^ 32 ∧ t.EndsAt (r + 4096) := by
  obtain ⟨page, hpage, hmod, rfl⟩ := hend
  obtain ⟨haligned, hlt⟩ := haligned
  obtain ⟨hfst, -, hreturned⟩ := Logged.alloc_eq hres
  rw [if_neg hr] at hreturned
  rcases vmmAllocPage_counter s.source (pagePresent ||| pageWrite) with
    ⟨hzero, -⟩ | ⟨hfree, -, hzero | hcounter⟩
  · exact absurd (hfst.symm.trans hzero) hr
  · exact absurd (hfst.symm.trans hzero) hr
  · have habove := h hfree page hpage
    rw [hfst] at hcounter
    exact ⟨by omega, by omega, by omega, r, by simp [hreturned], by omega, rfl⟩

/-- What `vmm_alloc_page` keeps, taking pages keeps. -/
theorem takePages_invariant {σ : Type*} [PageSource σ] {I : σ → Prop}
    (preserved : ∀ s, I s → I (PageSource.vmmAllocPage s (pagePresent ||| pageWrite)).2) (n : Nat)
    {s : σ} (hs : I s) : I (takePages n s).2 := by
  induction n generalizing s with
  | zero => exact hs
  | succ n ih =>
    rw [takePages]
    dsimp only
    split_ifs
    · exact preserved s hs
    · exact ih (preserved s hs)

theorem Vmm.CounterAligned.takePages {n : Nat} {s : Logged Vmm} (h : s.source.CounterAligned) :
    (takePages n s).2.source.CounterAligned :=
  takePages_invariant (I := fun s : Logged Vmm => s.source.CounterAligned)
    (fun _ hs => hs.alloc _) n h

/-- The pages of a call climb. -/
theorem Logged.CounterAboveFor.climbs {n top : Nat} {s : Logged Vmm} (h : s.CounterAboveFor n)
    (hend : s.EndsAt top) (haligned : s.source.CounterAligned) :
    Climbs top (takePages n s).1 ∧
      (takePages n s).2.EndsAt (topAfter top (takePages n s).1) := by
  induction n generalizing s top with
  | zero => exact ⟨trivial, hend⟩
  | succ n ih =>
    obtain ⟨habove, hrest⟩ := h
    have haligned' := haligned.alloc (pagePresent ||| pageWrite)
    cases hres : PageSource.vmmAllocPage s (pagePresent ||| pageWrite) with
    | mk r t =>
      obtain ⟨-, hsource, hreturned⟩ := Logged.alloc_eq hres
      rw [← hsource] at haligned'
      rw [hres] at hrest
      rw [takePages, hres]
      dsimp only
      by_cases hr : r = 0
      · rw [if_pos hr] at hreturned ⊢
        obtain ⟨page, hpage, hend⟩ := hend
        exact ⟨trivial, page, hreturned ▸ hpage, hend⟩
      · obtain ⟨hmod, htop, hlt, hend'⟩ := habove.page hend haligned hres hr
        obtain ⟨hclimbs, hafter⟩ := ih (hrest hr) hend' haligned'
        rw [if_neg hr]
        exact ⟨⟨hmod, htop, hlt, hclimbs⟩, hafter⟩

end Taken

/-! ## What the code looks at -/

section Looks

variable {σ : Type*} {h : Heap σ} {top n ptr : Nat} {l : List Block}

theorem Segment.freeTouch {m : Memory} (hseg : Segment m l 0) (hpos : ∀ b ∈ l, b.addr ≠ 0)
    (h : ∀ b ∈ l, blockUsed m b.addr = 0 → blockNext m b.addr ≠ 0 →
      blockUsed m (blockNext m b.addr) = 0 →
        blockNext m b.addr = b.addr + heapBlockSize + blockSize m b.addr) :
    FreeTouch 16 l := by
  induction l with
  | nil => exact .nil
  | cons b l ih =>
    cases l with
    | nil => exact .singleton b
    | cons c l =>
      have hrest := ih hseg.2 (fun d hd => hpos d (by simp [hd])) fun d hd => h d (by simp [hd])
      refine List.isChain_cons_cons.mpr ⟨fun hb hc => ?_, hrest⟩
      have hnext : blockNext m b.addr = c.addr := hseg.1.next
      have htouch := h b (by simp) (hseg.1.used_iff.mpr hb) (by rw [hnext]; exact hpos c (by simp))
        (by rw [hnext]; exact hseg.2.1.used_iff.mpr hc)
      rw [hnext, hseg.1.size, heapBlockSize] at htouch
      exact htouch.symm

theorem Heap.FreeTouching.freeTouch (ht : h.FreeTouching) (hs : h.Shows top l) :
    FreeTouch 16 l :=
  hs.segment.freeTouch hs.pos fun b hb => ht b.addr ((hs.node_iff _).mpr ⟨b, hb, rfl⟩)

/-- The blocks that are joined when a block of the list is released touch. -/
theorem Heap.JoinsTouching.freeTouch (ht : h.JoinsTouching ptr) (hs : h.Shows top l) {b : Block}
    (hb : Holds l ptr n b) :
    FreeTouch 16 (editAt (ptr - 16) (fun b => [{ b with used := false }]) l) := by
  obtain ⟨-, hblock, -, -⟩ := hs.block_of_ptr hb.blockAt
  have haddr : ptr - 16 = b.addr := by
    have := hb.ptr
    omega
  obtain ⟨l₁, l₂, rfl⟩ := List.append_of_mem hb.mem
  unfold Heap.JoinsTouching at ht
  rw [hblock] at ht
  rw [haddr, hs.ordered.editAt_eq (by omega)]
  exact ht.freeTouch (hs.mark 0)

/-- `kmalloc` asks for the pages that its list wants. -/
theorem Heap.Shows.asksFor_eq (hs : h.Shows top l) (n : Nat) :
    h.asksFor n = BlockHeap.wantedPages l n := by
  unfold Heap.asksFor BlockHeap.wantedPages
  rw [hs.findFreeBlock]
  rcases BlockHeap.firstFit_cases l (alignSize n) with ⟨b, hb, -, -, hfit⟩ | ⟨hfit, -⟩
  · simp [hfit, hs.pos b hb]
  · simp [hfit]

theorem Heap.Shows.grows_iff (hs : h.Shows top l) {b : Block} (hb : BlockAt l ptr b) :
    h.Grows ptr n ↔ n ≠ 0 ∧ BlockHeap.sizeAt l (ptr - 16) < alignSize n := by
  obtain ⟨hne, hblock, hmagic, hsize⟩ := hs.block_of_ptr hb
  have haddr : ptr - 16 = b.addr := by
    have := hb.ptr
    omega
  rw [Heap.Grows, hblock, haddr, BlockHeap.sizeAt_eq hs.ordered hb.mem, hsize]
  simp only [hne, hmagic, ne_eq, not_false_eq_true, true_and]

theorem Heap.Shows.asks_eq (hs : h.Shows top l) {c : HeapCall}
    (hpassed : c.passed = 0 ∨ ∃ b, BlockAt l c.passed b) : h.asks c = BlockHeap.wanted l c := by
  cases c with
  | kmalloc n => exact hs.asksFor_eq n
  | kfree ptr => rfl
  | krealloc ptr n =>
    unfold Heap.asks BlockHeap.wanted
    dsimp only
    split_ifs with hptr hgrows
    · exact hs.asksFor_eq n
    · obtain ⟨b, hb⟩ : ∃ b, BlockAt l ptr b := hpassed.resolve_left hptr
      obtain ⟨hn, hlt⟩ := (hs.grows_iff hb).mp hgrows
      rw [BlockHeap.wantedToMove, if_neg (by omega), hs.asksFor_eq]
    · obtain ⟨b, hb⟩ : ∃ b, BlockAt l ptr b := hpassed.resolve_left hptr
      rw [hs.grows_iff hb] at hgrows
      rw [BlockHeap.wantedToMove, if_pos (by omega)]

theorem HeapClient.Tracks.blockAt {s : HeapClient σ} (h : s.Tracks top l) {c : HeapCall}
    (haccepts : s.Accepts c) : c.passed = 0 ∨ ∃ b, BlockAt l c.passed b := by
  rcases haccepts with hzero | ⟨a, ha, hptr⟩
  · exact .inl hzero
  · obtain ⟨b, hb⟩ := h.holds a ha
    exact .inr ⟨b, hptr ▸ hb.blockAt⟩

end Looks

/-! ## A heap without blocks -/

section Empty

variable {σ : Type*} [PageSource σ] {h : Heap σ}

theorem heapStart_heapExpandLoop (n : Nat) (h : Heap σ) :
    (heapExpandLoop n h).heapStart = h.heapStart := by
  induction n generalizing h with
  | zero => rfl
  | succ n ih =>
    unfold heapExpandLoop
    dsimp only
    split_ifs
    · rfl
    · exact ih _

theorem pages_heapExpandLoop (n : Nat) (h : Heap σ) :
    (heapExpandLoop n h).pages = (takePages n h.pages).2 := by
  induction n generalizing h with
  | zero => rfl
  | succ n ih =>
    unfold heapExpandLoop takePages
    dsimp only
    split_ifs
    · rfl
    · exact ih _

omit [PageSource σ] in
theorem findFreeBlock_of_empty (hstart : h.heapStart = 0) (size : Nat) :
    findFreeBlock h size = some 0 := by
  obtain ⟨fuel, hfuel⟩ := loopFuel_eq_succ
  rw [findFreeBlock, hfuel, findLoop, if_pos hstart]

omit [PageSource σ] in
theorem asksFor_of_empty (hstart : h.heapStart = 0) (n : Nat) : h.asksFor n =
    if n = 0 then 0 else expandPages (Word32.wrap (alignSize n + heapBlockSize)) := by
  rw [Heap.asksFor, findFreeBlock_of_empty hstart]
  simp

/-- After `heap_init` has failed `kmalloc` finds no block, whatever pages it gets. -/
theorem kmalloc_of_empty (hstart : h.heapStart = 0) (n : Nat) :
    ∃ h', kmalloc h n = some (0, h') ∧ h'.heapStart = 0 ∧
      h'.pages = (takePages (h.asksFor n) h.pages).2 := by
  rw [asksFor_of_empty hstart]
  unfold kmalloc
  split_ifs
  · exact ⟨h, rfl, hstart, rfl⟩
  · have hexpanded : (heapExpand h (Word32.wrap (alignSize n + heapBlockSize))).heapStart = 0 :=
      (heapStart_heapExpandLoop _ h).trans hstart
    simp only [findFreeBlock_of_empty hstart, findFreeBlock_of_empty hexpanded, ne_eq, not_true,
      if_false, if_true]
    exact ⟨_, rfl, hexpanded, pages_heapExpandLoop _ h⟩

omit [PageSource σ] in
theorem asks_krealloc_zero (h : Heap σ) (n : Nat) : h.asks (.krealloc 0 n) = h.asksFor n := by
  unfold Heap.asks
  exact if_pos rfl

/-- A call that is passed 0 gets its pages in vain. -/
theorem HeapCall.exec_of_empty (hstart : h.heapStart = 0) {c : HeapCall}
    (hpassed : c.passed = 0) : ∃ h', c.exec h = some (0, h') ∧ h'.heapStart = 0 ∧
      h'.pages = (takePages (h.asks c) h.pages).2 := by
  cases c with
  | kmalloc n => exact kmalloc_of_empty hstart n
  | kfree ptr =>
    obtain rfl : ptr = 0 := hpassed
    exact ⟨h, rfl, hstart, rfl⟩
  | krealloc ptr n =>
    obtain rfl : ptr = 0 := hpassed
    obtain ⟨h', hcall, hrest⟩ := kmalloc_of_empty hstart n
    refine ⟨h', ?_, asks_krealloc_zero h n ▸ hrest⟩
    rw [exec, Mm.krealloc, if_pos rfl, hcall]

theorem liveAfter_nil (c : HeapCall) : c.liveAfter [] 0 = [] := by
  cases c <;> simp [HeapCall.liveAfter, grant, dropPtr]

/-- A client of such a heap gets no allocation. -/
theorem HeapClient.enter_of_empty {s t : HeapClient σ} {op : HeapOp} (hstart : s.heap.heapStart = 0)
    (hlive : s.live = []) (hlegal : s.Legal op) (henter : s.enter op = some t) :
    t.heap.heapStart = 0 ∧ t.live = [] := by
  cases op with
  | write addr value =>
    obtain rfl := Option.some.inj henter
    exact ⟨hstart, hlive⟩
  | call c =>
    have hpassed : c.passed = 0 := hlegal.1.resolve_right (by simp [hlive])
    obtain ⟨h', hexec, hstart', -⟩ := HeapCall.exec_of_empty hstart hpassed
    have hcall : s.call c = some t := henter
    rw [HeapClient.call_eq, hexec, hlive] at hcall
    obtain rfl := Option.some.inj hcall
    exact ⟨hstart', liveAfter_nil c⟩

/-- An invariant of the clients of a heap with blocks. Where `heap_init` found no page there are no
allocations. -/
theorem HeapClient.invariant_or_empty {step : HeapClient σ → HeapOp → HeapClient σ → Prop}
    {I : HeapClient σ → Prop} {h : Heap σ} {ops : List HeapOp} {s : HeapClient σ}
    (hrun : Run step (start h) ops s) (hlegal : ∀ s op t, step s op t → Step Legal s op t)
    (init : (heapInit h).heapStart ≠ 0 → I (start h))
    (preserved : ∀ s op t, I s → step s op t → I t) :
    I s ∨ s.heap.heapStart = 0 ∧ s.live = [] := by
  refine hrun.invariant (I := fun s => I s ∨ s.heap.heapStart = 0 ∧ s.live = []) ?_ ?_
  · by_cases hstart : (heapInit h).heapStart = 0
    · exact .inr ⟨hstart, rfl⟩
    · exact .inl (init hstart)
  · rintro s op t (hs | ⟨hstart, hlive⟩) hstep
    · exact .inl (preserved s op t hs hstep)
    · obtain ⟨hop, henter⟩ := hlegal s op t hstep
      exact .inr (enter_of_empty hstart hlive hop henter)

end Empty

/-! ## Runs -/

namespace SharedHeap

variable {s t : SharedHeap} {top top' : Nat} {l l' : List Block}

/-- The clients hold used blocks of a list that ends below the pages to come. -/
structure Paged (s : SharedHeap) (top : Nat) (l : List Block) : Prop extends s.Tracks top l where
  ends : s.heap.pages.EndsAt top
  aligned : s.vmm.CounterAligned

/-- The blocks of the list are made of the pages of the heap. -/
structure Kept (s : SharedHeap) (top : Nat) (l : List Block) : Prop extends s.Paged top l where
  inside : LiesIn 16 (InPages s.heap.pages.returned) l

/-- An accepted call does what it does on the list, with pages above those the heap has. -/
theorem Paged.call (h : s.Paged top l) {c : HeapCall} (haccepts : s.Accepts c)
    (habove : s.heap.pages.CounterAboveFor (s.heap.asks c)) :
    let pages := takePages (BlockHeap.wanted l c) s.heap.pages
    let r := BlockHeap.call l (pages.1.map (pageBlock s.heap.mem)) c
    Climbs top pages.1 ∧ ∃ h', c.exec s.heap = some (r.1, h') ∧ h'.pages = pages.2 ∧
      Paged ⟨h', c.liveAfter s.live r.1⟩ (topAfter top pages.1) r.2 := by
  rw [h.shows.asks_eq (h.toTracks.blockAt haccepts)] at habove
  obtain ⟨hclimbs, hends⟩ := habove.climbs h.ends h.aligned
  obtain ⟨h', hexec, hpages, htracks, -⟩ := h.toTracks.call haccepts hclimbs
  refine ⟨hclimbs, h', hexec, hpages, htracks, ?_, ?_⟩
  · rw [hpages]
    exact hends
  · unfold vmm
    rw [hpages]
    exact h.aligned.takePages

theorem Paged.write (h : s.Paged top l) {addr : Nat} {value : UInt8}
    (hlegal : s.Legal (.write addr value)) :
    Paged { s with heap := { s.heap with mem := store8 s.heap.mem addr value } } top l :=
  ⟨h.toTracks.write (h.toTracks.not_inHeaders hlegal) value, h.ends, h.aligned⟩

theorem Paged.allocPage (h : s.Paged top l) (flags : Nat) : (s.allocPage flags).Paged top l :=
  ⟨⟨h.shows.write (fun _ _ => rfl) rfl rfl rfl, h.distinct, h.holds⟩, h.ends,
    h.aligned.alloc flags⟩

/-- `heap_init` makes its page the only block, or leaves a heap without blocks. -/
theorem Paged.init {h : Heap (Logged Vmm)} (hnone : h.pages.returned = [])
    (haligned : h.pages.source.CounterAligned) :
    (∃ page, Paged (HeapClient.start h) (page + 4096) [⟨page, pageSize - heapBlockSize, false⟩] ∧
      (HeapClient.start h).heap.pages.returned = [page]) ∨
      (HeapClient.start h).heap.heapStart = 0 ∧ (HeapClient.start h).live = [] := by
  cases hres : PageSource.vmmAllocPage h.pages (pagePresent ||| pageWrite) with
  | mk page t =>
    obtain ⟨hfst, hsource, hreturned⟩ := Logged.alloc_eq hres
    by_cases hpage : page = 0
    · exact .inr ⟨(heapStart_heapInit hres).trans hpage, rfl⟩
    · obtain ⟨hmod, hlt⟩ := hfst ▸ haligned.page (hfst ▸ hpage)
      obtain ⟨hs, hpages⟩ := Heap.Shows.init hres hpage hmod hlt
      rw [if_neg hpage, hnone] at hreturned
      have hlogged : (HeapClient.start h).heap.pages = t := hpages
      refine .inl ⟨page, ⟨⟨hs, .nil, by simp [HeapClient.start]⟩, ?_, ?_⟩, ?_⟩
      · rw [hlogged]
        exact ⟨page, by simp [hreturned], hmod, rfl⟩
      · rw [vmm, hlogged, hsource]
        exact haligned.alloc _
      · rw [hlogged, hreturned]

theorem Kept.staysInside (h : s.Kept top l) : s.StaysInside := by
  intro a ha x hlo hhi
  obtain ⟨b, hb⟩ := h.holds a ha
  obtain ⟨-, hblock, -, hsize⟩ := h.shows.block_of_ptr hb.blockAt
  have hptr := hb.ptr
  rw [hblock, hsize] at hhi
  exact h.inside b hb.mem x (by omega) (by rw [Block.finish]; omega)

/-- The blocks that are made of new pages are inside them. -/
theorem liesIn_pageBlocks (m : Memory) {pages all : List Nat} (hsub : pages ⊆ all) :
    LiesIn 16 (InPages all) (pages.map (pageBlock m)) := by
  intro b hb x hlo hhi
  obtain ⟨page, hpage, rfl⟩ := List.mem_map.mp hb
  simp only [pageBlock, Block.finish, pageSize, heapBlockSize] at hlo hhi
  exact ⟨page, hsub hpage, hlo, by rw [pageSize]; omega⟩

/-- The bytes of the list after a careful call. -/
theorem Kept.liesIn (h : s.Kept top l) {c : HeapCall} (haccepts : s.Accepts c)
    (htouching : s.JoinsTouching c) {P : Nat → Prop} {new : List Block}
    (hclimbs : Climbs top (takePages (BlockHeap.wanted l c) s.heap.pages).1)
    (hnew : new = (takePages (BlockHeap.wanted l c) s.heap.pages).1.map (pageBlock s.heap.mem))
    (hl : LiesIn 16 P l) (hnewP : LiesIn 16 P new) : LiesIn 16 P (BlockHeap.call l new c).2 := by
  cases c with
  | kmalloc n => exact BlockHeap.liesIn_kmalloc hl hnewP n
  | kfree ptr =>
    refine BlockHeap.liesIn_kfree hl fun hptr => ?_
    obtain ⟨a, ha, rfl⟩ := haccepts.resolve_left hptr
    obtain ⟨b, hb⟩ := h.holds a ha
    exact (htouching hptr).freeTouch h.shows hb
  | krealloc ptr n =>
    refine BlockHeap.liesIn_krealloc hl hnewP (fun hptr hn => ?_) fun hptr hn hlt hr => ?_
    · obtain ⟨a, ha, rfl⟩ := haccepts.resolve_left hptr
      obtain ⟨b, hb⟩ := h.holds a ha
      exact (htouching.1 hptr hn).freeTouch h.shows hb
    · obtain ⟨a, ha, rfl⟩ := haccepts.resolve_left hptr
      obtain ⟨b, hb⟩ := h.holds a ha
      have hgrows := (h.shows.grows_iff hb.blockAt).mpr ⟨hn, hlt⟩
      have hwanted : BlockHeap.wanted l (.krealloc a.ptr n) =
          BlockHeap.wantedPages l (alignSize n) := by
        rw [BlockHeap.wanted, if_neg hptr, BlockHeap.wantedToMove, if_neg (by omega)]
      rw [hwanted] at hclimbs hnew
      obtain ⟨h', hmalloc, hs', -, hkeeps⟩ := h.shows.kmalloc (alignSize n) hclimbs
      rw [← hnew] at hmalloc hs' hkeeps
      have hb' : Holds _ a.ptr _ b := { hb with mem := (hkeeps b hb.mem hb.used (by simp)).1 }
      exact (htouching.2 hgrows _ h' hmalloc hr).freeTouch hs' hb'

theorem Kept.call (h : s.Kept top l) {c : HeapCall} (haccepts : s.Accepts c)
    (htouching : s.JoinsTouching c) (habove : s.heap.pages.CounterAboveFor (s.heap.asks c)) :
    ∃ t top' l', s.call c = some t ∧ Kept t top' l' := by
  obtain ⟨hclimbs, h', hexec, hpages, hpaged⟩ := h.toPaged.call haccepts habove
  have hreturned : h'.pages.returned =
      (takePages (BlockHeap.wanted l c) s.heap.pages).1.reverse ++ s.heap.pages.returned := by
    rw [hpages, takePages_logged]
  refine ⟨_, _, _, by rw [HeapClient.call_eq, hexec]; rfl, hpaged, ?_⟩
  refine h.liesIn haccepts htouching hclimbs rfl (h.inside.mono ?_) (liesIn_pageBlocks _ ?_)
  · rintro x ⟨page, hpage, hx⟩
    exact ⟨page, by rw [hreturned]; exact List.mem_append_right _ hpage, hx⟩
  · intro page hpage
    rw [hreturned]
    exact List.mem_append_left _ (List.mem_reverse.mpr hpage)

theorem Kept.step (h : s.Kept top l) {op : SharedOp} (hstep : s.CarefulStep op t) :
    ∃ top' l', Kept t top' l' := by
  obtain ⟨hcareful, hstep⟩ := hstep
  cases op with
  | allocPage flags =>
    obtain rfl : t = s.allocPage flags := hstep
    exact ⟨top, l, h.toPaged.allocPage flags, h.inside⟩
  | heap op =>
    obtain ⟨hlegal, henter⟩ := hstep
    cases op with
    | write addr value =>
      obtain rfl := Option.some.inj henter
      exact ⟨top, l, h.toPaged.write hlegal, h.inside⟩
    | call c =>
      obtain ⟨t', top', l', hcall, h'⟩ := h.call hlegal.1 hcareful.1 hcareful.2
      obtain rfl := Option.some.inj (henter.symm.trans hcall)
      exact ⟨top', l', h'⟩

theorem Kept.init {h : Heap (Logged Vmm)} (hnone : h.pages.returned = [])
    (haligned : h.pages.source.CounterAligned) :
    (∃ top l, Kept (HeapClient.start h) top l) ∨
      (HeapClient.start h).heap.heapStart = 0 ∧ (HeapClient.start h).live = [] := by
  rcases Paged.init hnone haligned with ⟨page, hpaged, hreturned⟩ | hempty
  · refine .inl ⟨_, _, hpaged, fun b hb x hlo hhi => ?_⟩
    obtain rfl := List.mem_singleton.mp hb
    simp only [Block.finish, pageSize, heapBlockSize] at hlo hhi
    rw [hreturned]
    exact ⟨page, List.mem_singleton_self _, hlo, by rw [pageSize]; omega⟩
  · exact .inr hempty

theorem exists_kept {p : Pmm} {ram mem : Memory} {before : List Nat} {ops : List SharedOp}
    (hrun : Run CarefulStep (start p ram before mem) ops s) :
    (∃ top l, s.Kept top l) ∨ s.heap.heapStart = 0 ∧ s.live = [] := by
  refine hrun.invariant (I := fun s => (∃ top l, s.Kept top l) ∨
    s.heap.heapStart = 0 ∧ s.live = [])
    (Kept.init rfl (counterAligned_vmmAfter p ram before)) ?_
  rintro s op t (⟨top, l, h⟩ | ⟨hstart, hlive⟩) hstep
  · exact .inl (h.step hstep)
  · refine .inr ?_
    cases op with
    | heap op => exact HeapClient.enter_of_empty hstart hlive hstep.2.1 hstep.2.2
    | allocPage flags =>
      obtain rfl : t = s.allocPage flags := hstep.2
      exact ⟨hstart, hlive⟩

end SharedHeap

/-- In every run in which `merge_blocks` joins only blocks that touch, and the heap gets its pages
from a counter above the pages it has, the live allocations stay inside the pages of the heap. -/
theorem heap_stays_inside {p : Pmm} {ram mem : Memory} {before : List Nat} {ops : List SharedOp}
    {s : SharedHeap} (hrun : Run SharedHeap.CarefulStep (.start p ram before mem) ops s) :
    s.StaysInside := by
  rcases SharedHeap.exists_kept hrun with ⟨top, l, h⟩ | ⟨-, hlive⟩
  · exact h.staysInside
  · simp [SharedHeap.StaysInside, hlive]

/-! ## A page of another caller -/

section EightBlocks

/-- A manager of eight blocks of which blocks 1 to 7 are free. -/
def eightBlocks : Pmm := ⟨fun _ => 0xFFFFFF01#32, 0, 1, 8, 1⟩

/-- The heap on these blocks before `heap_init`: the directory and the identity mapping are in
memory that was filled with zeros. -/
theorem SharedHeap.fresh_eightBlocks (mem : Memory) : fresh eightBlocks (fun _ => 0) [] mem =
    ⟨mem, 0, 0, 0,
      { source :=
          { pmm := (pmmAllocPageAligned (pmmAllocPageAligned eightBlocks).2).2
            mem := store32 (storeWords (fun _ => 0) 0x2000
              (fun i => Word32.wrap (i * pageSize) ||| pagePresent ||| pageWrite) 1024) 0x1000
              (0x2000 ||| pagePresent ||| pageWrite)
            currentPageDirectory := 0x1000
            nextVirt := 0xC0000000 }
        returned := [] }⟩ := by
  have hdirectory : (pmmAllocPageAligned eightBlocks).1 = 0x1000 := by decide +kernel
  have htable : (pmmAllocPageAligned (pmmAllocPageAligned eightBlocks).2).1 = 0x2000 := by
    decide +kernel
  unfold fresh vmmAfter vmmInit
  simp only [List.foldl_nil, hdirectory, htable]
  rw [memset_of_same (by simp) fun _ _ _ => rfl, memset_of_same (by simp) fun _ _ _ => rfl]

/-- The heap on these blocks. -/
def eightBlocksStart : SharedHeap := .start eightBlocks (fun _ => 0) [] fun _ => 0

/-- A call of the heap that is accepted, or a call of somebody else. -/
def SharedHeap.attempt (s : SharedHeap) : SharedOp → Option SharedHeap
  | .heap (.call c) => if s.Legal (.call c) then s.call c else none
  | .heap (.write _ _) => none
  | .allocPage flags => some (s.allocPage flags)

theorem SharedHeap.step_of_attempt {s t : SharedHeap} {op : SharedOp}
    (h : s.attempt op = some t) : s.Step op t := by
  cases op with
  | allocPage flags => exact (Option.some.inj h).symm
  | heap op =>
    cases op with
    | write => cases h
    | call c =>
      dsimp only [attempt] at h
      split_ifs at h with hlegal
      exact ⟨hlegal, h⟩

/-- The headers of the list are in `headers`, and the free ones that follow each other touch. -/
def Heap.TouchOn {σ : Type*} (h : Heap σ) (headers : List Nat) : Prop :=
  h.heapStart ∈ headers ∧ ∀ block ∈ headers, blockNext h.mem block ≠ 0 →
    blockNext h.mem block ∈ headers ∧
      (blockUsed h.mem block = 0 → blockUsed h.mem (blockNext h.mem block) = 0 →
        blockNext h.mem block = block + heapBlockSize + blockSize h.mem block)

instance decidableTouchOn {σ : Type*} (h : Heap σ) (headers : List Nat) :
    Decidable (h.TouchOn headers) := inferInstanceAs (Decidable (_ ∧ _))

theorem Heap.TouchOn.freeTouching {σ : Type*} {h : Heap σ} {headers : List Nat}
    (ht : h.TouchOn headers) : h.FreeTouching := by
  intro block hnode hfree hnext hnextFree
  have hmem : block ∈ headers := by
    clear hfree hnext hnextFree
    induction hnode with
    | start => exact ht.1
    | next _ hne ih => exact (ht.2 _ ih hne).1
  exact (ht.2 block hmem hnext).2 hfree hnextFree

/-- The counter is above the pages of the heap when it gets its next one. -/
theorem Logged.counterAboveFor_one {s : Logged Vmm}
    (h : ∀ page ∈ s.returned, page < s.source.nextVirt) : s.CounterAboveFor 1 :=
  ⟨fun _ => h, fun _ => trivial⟩

/-- A block is released, with a page of another caller between it and a new page of the heap. -/
theorem heap_stays_inside_eightBlocks : ∃ s, Run SharedHeap.CarefulStep eightBlocksStart
    [.allocPage 3, .heap (.call (.kmalloc 4080)), .heap (.call (.kmalloc 100)),
      .heap (.call (.kfree 0xC0000010))] s ∧
      s.heap.pages.returned = [0xC0002000, 0xC0000000] ∧ s.live = [⟨0xC0002010, 100⟩] ∧
        s.StaysInside := by
  obtain ⟨p, hcalls, hasks, habove, hheld, htouch, hreturned, hlive⟩ :
      ∃ p : SharedHeap × SharedHeap × SharedHeap,
        (((eightBlocksStart.allocPage 3).call (.kmalloc 4080)).bind fun full =>
          (full.call (.kmalloc 100)).bind fun grown =>
            (grown.call (.kfree 0xC0000010)).map fun s => (full, grown, s)) = some p ∧
        p.1.heap.asks (.kmalloc 100) = 1 ∧
        (∀ page ∈ p.1.heap.pages.returned, page < p.1.heap.pages.source.nextVirt) ∧
        ⟨0xC0000010, 4080⟩ ∈ p.2.1.live ∧
        Heap.TouchOn { p.2.1.heap with mem := setUsed p.2.1.heap.mem 0xC0000000 0 }
          [0xC0000000, 0xC0002000, 0xC0002080] ∧
        p.2.2.heap.pages.returned = [0xC0002000, 0xC0000000] ∧
        p.2.2.live = [⟨0xC0002010, 100⟩] := by
    unfold eightBlocksStart SharedHeap.start
    simp only [SharedHeap.fresh_eightBlocks]
    exact exists_some (by decide +kernel)
  have hnone : (eightBlocksStart.allocPage 3).heap.asks (.kmalloc 4080) = 0 := by
    unfold eightBlocksStart SharedHeap.start
    simp only [SharedHeap.fresh_eightBlocks]
    decide +kernel
  obtain ⟨full, hfull, hrest⟩ := Option.bind_eq_some_iff.mp hcalls
  obtain ⟨grown, hgrown, hlast⟩ := Option.bind_eq_some_iff.mp hrest
  obtain ⟨s, hfreed, rfl⟩ := Option.map_eq_some_iff.mp hlast
  dsimp only at hasks habove hheld htouch hreturned hlive
  have hcareful : (eightBlocksStart.allocPage 3).Careful (.heap (.call (.kmalloc 4080))) := by
    refine ⟨trivial, ?_⟩
    rw [hnone]
    trivial
  have hexpands : SharedHeap.Careful full (.heap (.call (.kmalloc 100))) := by
    refine ⟨trivial, ?_⟩
    rw [hasks]
    exact Logged.counterAboveFor_one habove
  have hreleases : SharedHeap.Careful grown (.heap (.call (.kfree 0xC0000010))) :=
    ⟨fun _ => htouch.freeTouching, trivial⟩
  have hrun : Run SharedHeap.CarefulStep eightBlocksStart
      [.allocPage 3, .heap (.call (.kmalloc 4080)), .heap (.call (.kmalloc 100)),
        .heap (.call (.kfree 0xC0000010))] s :=
    .cons ⟨trivial, rfl⟩ (.cons ⟨hcareful, ⟨.inl rfl, by decide⟩, hfull⟩
      (.cons ⟨hexpands, ⟨.inl rfl, by decide⟩, hgrown⟩
        (.single ⟨hreleases, ⟨.inr ⟨_, hheld, rfl⟩, by decide⟩, hfreed⟩)))
  exact ⟨s, hrun, hreturned, hlive, heap_stays_inside hrun⟩
/-- Two blocks on either side of another caller's page are joined when both are free, and the next
allocation has that page in it. -/
theorem heap_leaves_pages : ∃ ops s, Run SharedHeap.Step eightBlocksStart ops s ∧
    ¬ s.StaysInside := by
  obtain ⟨s, hops, hpages, hlive, hsize⟩ : ∃ s, [SharedOp.heap (.call (.kmalloc 4080)),
      .allocPage 3, .heap (.call (.kmalloc 4080)), .heap (.call (.kfree 0xC0000010)),
      .heap (.call (.kfree 0xC0002010)), .heap (.call (.kmalloc 8176))].foldlM
        SharedHeap.attempt eightBlocksStart = some s ∧
      s.heap.pages.returned = [0xC0002000, 0xC0000000] ∧ s.live = [⟨0xC0000010, 8176⟩] ∧
      blockSize s.heap.mem 0xC0000000 = 8176 := by
    unfold eightBlocksStart SharedHeap.start
    simp only [SharedHeap.fresh_eightBlocks]
    exact exists_some (by decide +kernel)
  refine ⟨_, s, .of_foldlM SharedHeap.step_of_attempt hops, fun hinside => ?_⟩
  obtain ⟨page, hpage, hlo, hhi⟩ := hinside ⟨0xC0000010, 8176⟩ (by simp [hlive]) 0xC0001000
    (by simp) (by
      have hblock : Word32.sub 0xC0000010 heapBlockSize = 0xC0000000 := by decide
      rw [hblock, hsize]
      decide)
  rw [hpages] at hpage
  simp only [List.mem_cons, List.not_mem_nil, or_false] at hpage
  rw [pageSize] at hhi
  omega

end EightBlocks

end HolyOs.Mm
