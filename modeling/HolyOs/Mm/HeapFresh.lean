import HolyOs.Mm.HeapAccounting
import HolyOs.Mm.HeapPages

/-!
# Fresh pages

Two runs of the heap over the same physical memory manager, which differ in what the memory of
the heap holds at the start. `heap_expand` writes the magic number, the size and the link of a new
block, and takes its `used` flag as the page has it; `kfree` and `krealloc` believe any pointer
with the magic number below it. Where the two runs have the same flags and believe the same
pointers, the callers see the same.
-/
namespace HolyOs.Mm

open ByteMemory HolyOs.Lib BlockList Transition

/-- What the caller of a call sees: its result, then the counts of `get_allocated_memory` and
`get_free_memory`. -/
structure Answer where
  result : Nat
  allocated : Option Nat
  free : Option Nat
deriving DecidableEq

/-- A heap and the answers it gave, the last one first. -/
structure Observed where
  heap : Heap (Logged Vmm)
  answers : List Answer

def Observed.enter (s : Observed) : SharedOp → Option Observed
  | .heap (.call c) => (c.exec s.heap).map fun (r, h) =>
      ⟨h, ⟨r, getAllocatedMemory h, getFreeMemory h⟩ :: s.answers⟩
  | .heap (.write addr value) =>
      some { s with heap := { s.heap with mem := store8 s.heap.mem addr value } }
  | .allocPage flags => some { s with heap := s.heap.allocElsewhere flags }

theorem Observed.enter_call {s : Observed} {c : HeapCall} {r : Nat} {h : Heap (Logged Vmm)}
    (hexec : c.exec s.heap = some (r, h)) : s.enter (.heap (.call c)) =
      some ⟨h, ⟨r, getAllocatedMemory h, getFreeMemory h⟩ :: s.answers⟩ :=
  congrArg (Option.map _) hexec

/-- Two runs side by side. -/
structure TwoRuns where
  one : Observed
  two : Observed

section Pointers

variable {σ : Type*} (h : Heap σ) (ptr : Nat)

/-- The pointer belongs to a header on the list. -/
def Heap.Heads : Prop := ∃ block, h.Node block ∧ block + heapBlockSize = ptr

/-- There is no magic number below the pointer. -/
def Heap.Rejects : Prop := blockMagic h.mem (Word32.sub ptr heapBlockSize) ≠ heapMagic

/-- An address in no header on the list. -/
def Heap.OffHeaders (addr : Nat) : Prop :=
  ∀ block, h.Node block → addr < block ∨ block + heapBlockSize ≤ addr

/-- There is a magic number below the pointer, and the byte that `kfree` writes is in no header on
the list. -/
def Heap.Strays : Prop := blockMagic h.mem (Word32.sub ptr heapBlockSize) = heapMagic ∧
  h.OffHeaders (Word32.sub ptr heapBlockSize + 12)

/-- The call releases its pointer and returns. -/
def HeapCall.Frees : HeapCall → Prop
  | .kmalloc _ => False
  | .kfree _ => True
  | .krealloc _ n => n = 0

end Pointers

/-- Both heaps believe the pointer that is passed, or both reject it. -/
def HeapCall.Trusted {σ : Type*} (c : HeapCall) (g h : Heap σ) : Prop :=
  (c.passed = 0 ∨ g.Heads c.passed) ∨ g.Rejects c.passed ∧ h.Rejects c.passed ∨
    c.Frees ∧ g.Strays c.passed ∧ h.Strays c.passed

/-- The next `n` pages have a zero where the `used` flag will be in both memories, or in
neither. -/
def Heap.FlagsAgree {σ : Type*} [PageSource σ] (g h : Heap σ) (n : Nat) : Prop :=
  ∀ page ∈ (takePages n g.pages).1, blockUsed g.mem page = 0 ↔ blockUsed h.mem page = 0

namespace TwoRuns

/-- The two runs after `heap_init`. -/
def start (p : Pmm) (ram : Memory) (before : List Nat) (mem₁ mem₂ : Memory) : TwoRuns :=
  ⟨⟨heapInit (SharedHeap.fresh p ram before mem₁), []⟩,
    ⟨heapInit (SharedHeap.fresh p ram before mem₂), []⟩⟩

variable (s : TwoRuns)

def enter (op : SharedOp) : Option TwoRuns := do
  return ⟨← s.one.enter op, ← s.two.enter op⟩

def Step (op : SharedOp) (t : TwoRuns) : Prop := s.enter op = some t

/-- The two runs get the same flags and believe the same pointers, no page is below an earlier
one, and no header on the list is written to. -/
def Careful : SharedOp → Prop
  | .heap (.call c) => c.Trusted s.one.heap s.two.heap ∧
      s.one.heap.FlagsAgree s.two.heap (s.one.heap.asks c) ∧
      s.one.heap.pages.CounterAboveFor (s.one.heap.asks c)
  | .heap (.write addr _) => s.one.heap.OffHeaders addr
  | .allocPage _ => True

def CarefulStep (op : SharedOp) (t : TwoRuns) : Prop := s.Careful op ∧ s.Step op t

end TwoRuns

/-! ## One call -/

section Calls

variable {σ : Type*} [PageSource σ] {g h : Heap σ} {top ptr : Nat} {l : List Block} {c : HeapCall}

/-- A rejected pointer changes nothing. -/
theorem HeapCall.exec_of_rejects (hne : c.passed ≠ 0) (hrejects : h.Rejects c.passed) :
    c.exec h = some (0, h) := by
  have hkfree : Mm.kfree h c.passed = some h := by
    rw [Mm.kfree, if_neg hne]
    exact if_pos hrejects
  cases c with
  | kmalloc n => exact absurd rfl hne
  | kfree ptr => exact congrArg (Option.map _) hkfree
  | krealloc ptr n =>
    unfold exec Mm.krealloc
    refine (if_neg hne).trans ?_
    split_ifs
    · exact congrArg (Option.map _) hkfree
    · exact if_pos hrejects

/-- A call that releases a pointer with the magic number below it. -/
theorem HeapCall.exec_of_frees (hne : c.passed ≠ 0) (hfrees : c.Frees)
    (hmagic : blockMagic h.mem (Word32.sub c.passed heapBlockSize) = heapMagic) : c.exec h =
      (releaseBlock h (Word32.sub c.passed heapBlockSize)).map fun h => (0, h) := by
  have hkfree : Mm.kfree h c.passed =
      releaseBlock h (Word32.sub c.passed heapBlockSize) := by
    rw [Mm.kfree, if_neg hne, if_neg (not_not.mpr hmagic)]
  cases c with
  | kmalloc n => cases hfrees
  | kfree ptr => exact congrArg (Option.map _) hkfree
  | krealloc ptr n =>
    unfold exec Mm.krealloc
    refine (if_neg hne).trans ((if_pos hfrees).trans ?_)
    exact congrArg (Option.map _) hkfree

omit [PageSource σ] in
theorem Heap.Shows.heads_iff (hs : h.Shows top l) : h.Heads ptr ↔ ∃ b, BlockAt l ptr b := by
  constructor
  · rintro ⟨block, hnode, hptr⟩
    obtain ⟨b, hb, rfl⟩ := (hs.node_iff _).mp hnode
    exact ⟨b, hb, hptr⟩
  · rintro ⟨b, hb⟩
    exact ⟨b.addr, (hs.node_iff _).mpr ⟨b, hb.mem, rfl⟩, hb.ptr⟩

omit [PageSource σ] in
theorem Heap.Shows.offHeaders_iff (hs : h.Shows top l) (addr : Nat) :
    h.OffHeaders addr ↔ ¬ InHeaders l addr := by
  rw [hs.inHeaders_iff]
  constructor
  · rintro hoff ⟨block, hnode, hlo, hhi⟩
    have := hoff block hnode
    simp only [heapBlockSize] at this
    omega
  · intro hout block hnode
    by_contra hin
    simp only [heapBlockSize] at hin
    exact hout ⟨block, hnode, by omega, by omega⟩

omit [PageSource σ] in
/-- Releasing a header that is not on the list coalesces the list. -/
theorem Heap.Shows.releaseStray (hs : h.Shows top l) {block : Nat}
    (hoff : h.OffHeaders (block + 12)) : ∃ h', releaseBlock h block = some h' ∧
      h'.Shows top (coalesce 16 l) ∧ h'.pages = h.pages := by
  have hmarked : Heap.Shows { h with mem := setUsed h.mem block 0 } top l := by
    refine hs.write (fun x hx => ?_) rfl rfl rfl
    exact if_neg (by rintro rfl; exact (hs.offHeaders_iff _).mp hoff hx)
  obtain ⟨h', hmerge, hs', hpages, -⟩ := hmarked.merge
  exact ⟨h', hmerge, hs', hpages⟩

/-- A call that is passed 0 or the pointer of a block does what it does on the list. -/
theorem Heap.Shows.exec (hs : h.Shows top l) (hpassed : c.passed = 0 ∨ ∃ b, BlockAt l c.passed b)
    (hclimbs : Climbs top (takePages (BlockHeap.wanted l c) h.pages).1) :
    let pages := takePages (BlockHeap.wanted l c) h.pages
    let r := BlockHeap.call l (pages.1.map (pageBlock h.mem)) c
    ∃ h', c.exec h = some (r.1, h') ∧ h'.Shows (topAfter top pages.1) r.2 ∧
      h'.pages = pages.2 := by
  cases c with
  | kmalloc n =>
    obtain ⟨h', hcall, hs', hpages, -⟩ := hs.kmalloc n hclimbs
    exact ⟨h', hcall, hs', hpages⟩
  | kfree ptr =>
    rcases hpassed with hzero | ⟨b, hb⟩
    · obtain rfl : ptr = 0 := hzero
      exact ⟨h, rfl, hs, rfl⟩
    · obtain ⟨h', hcall, hs', hpages, -⟩ := hs.kfree hb
      exact ⟨h', congrArg (Option.map _) hcall, hs', hpages⟩
  | krealloc ptr n =>
    unfold BlockHeap.wanted at hclimbs
    unfold BlockHeap.wanted BlockHeap.call HeapCall.exec
    dsimp only at hclimbs ⊢
    split_ifs at hclimbs ⊢ with hptr
    · obtain ⟨h', hcall, hs', hpages, -⟩ := hs.kmalloc n hclimbs
      rw [BlockHeap.krealloc, if_pos hptr, Mm.krealloc, if_pos hptr]
      exact ⟨h', hcall, hs', hpages⟩
    · obtain ⟨b, hb⟩ : ∃ b, BlockAt l ptr b := hpassed.resolve_left hptr
      obtain ⟨h', hcall, hs', hpages, -⟩ := hs.krealloc hb n hclimbs
      exact ⟨h', hcall, hs', hpages⟩

/-- Pages with the same flags become the same blocks. -/
theorem Heap.FlagsAgree.blocks {n : Nat} (hflags : g.FlagsAgree h n) :
    (takePages n g.pages).1.map (pageBlock g.mem) =
      (takePages n g.pages).1.map (pageBlock h.mem) := by
  refine List.map_congr_left fun page hpage => ?_
  rw [pageBlock, pageBlock, decide_eq_decide.mpr (hflags page hpage).not]

end Calls

/-! ## A heap without blocks -/

section Empty

variable {σ : Type*} {h : Heap σ}

theorem Heap.Node.heapStart_ne {block : Nat} (hnode : h.Node block) : h.heapStart ≠ 0 := by
  induction hnode with
  | start hne => exact hne
  | next _ _ ih => exact ih

theorem releaseBlock_of_empty (hstart : h.heapStart = 0) (block : Nat) :
    releaseBlock h block = some { h with mem := setUsed h.mem block 0 } := by
  apply mergeBlocks_of_empty
  exact hstart

theorem counted_of_empty (hstart : h.heapStart = 0) :
    getAllocatedMemory h = some 0 ∧ getFreeMemory h = some 0 := by
  obtain ⟨fuel, hfuel⟩ := loopFuel_eq_succ
  rw [getAllocatedMemory, getFreeMemory, hfuel, sumLoop, sumLoop]
  exact ⟨if_pos hstart, if_pos hstart⟩

theorem asks_of_empty {g : Heap σ} (hg : g.heapStart = 0) (hh : h.heapStart = 0) {c : HeapCall}
    (hpassed : c.passed = 0) : g.asks c = h.asks c := by
  cases c with
  | kmalloc n =>
    unfold Heap.asks
    dsimp only
    rw [asksFor_of_empty hg, asksFor_of_empty hh]
  | kfree ptr => rfl
  | krealloc ptr n =>
    obtain rfl : ptr = 0 := hpassed
    rw [asks_krealloc_zero, asks_krealloc_zero, asksFor_of_empty hg, asksFor_of_empty hh]

end Empty

/-! ## Two runs -/

section Twins

variable {g h : Heap (Logged Vmm)}

/-- Two heaps that keep the same list, or have no blocks, over the same pages. -/
structure Heap.Twins (g h : Heap (Logged Vmm)) : Prop where
  shows : (∃ top l, g.Shows top l ∧ h.Shows top l ∧ g.pages.EndsAt top) ∨
    g.heapStart = 0 ∧ h.heapStart = 0
  pages : g.pages = h.pages
  aligned : g.pages.source.CounterAligned

theorem Heap.Twins.counted (ht : g.Twins h) :
    getAllocatedMemory g = getAllocatedMemory h ∧ getFreeMemory g = getFreeMemory h := by
  rcases ht.shows with ⟨top, l, hg, hh, -⟩ | ⟨hg, hh⟩
  · exact ⟨hg.counted.1.trans hh.counted.1.symm, hg.counted.2.trans hh.counted.2.symm⟩
  · obtain ⟨hgone, hgtwo⟩ := counted_of_empty hg
    obtain ⟨hhone, hhtwo⟩ := counted_of_empty hh
    exact ⟨hgone.trans hhone.symm, hgtwo.trans hhtwo.symm⟩

/-- A call that is passed 0 or the pointer of a block, with the same flags on its pages. -/
theorem Heap.Twins.exec_of_heads (ht : g.Twins h) {c : HeapCall}
    (hpassed : c.passed = 0 ∨ g.Heads c.passed) (hflags : g.FlagsAgree h (g.asks c))
    (habove : g.pages.CounterAboveFor (g.asks c)) :
    ∃ r g' h', c.exec g = some (r, g') ∧ c.exec h = some (r, h') ∧ g'.Twins h' := by
  have haligned := ht.aligned.takePages (n := g.asks c)
  rcases ht.shows with ⟨top, l, hg, hh, hends⟩ | ⟨hg, hh⟩
  · have hblock : c.passed = 0 ∨ ∃ b, BlockAt l c.passed b := hpassed.imp_right hg.heads_iff.mp
    rw [hg.asks_eq hblock] at hflags habove haligned
    obtain ⟨hclimbs, hends'⟩ := habove.climbs hends ht.aligned
    obtain ⟨g', hgcall, hg', hgpages⟩ := hg.exec hblock hclimbs
    obtain ⟨h', hhcall, hh', hhpages⟩ := hh.exec hblock (ht.pages ▸ hclimbs)
    rw [← ht.pages, ← hflags.blocks] at hhcall hh'
    rw [← ht.pages] at hhpages
    refine ⟨_, g', h', hgcall, hhcall, .inl ⟨_, _, hg', hh', ?_⟩, hgpages.trans hhpages.symm, ?_⟩
    · rw [hgpages]
      exact hends'
    · rw [hgpages]
      exact haligned
  · have hzero : c.passed = 0 := hpassed.resolve_right fun ⟨_, hnode, _⟩ => hnode.heapStart_ne hg
    obtain ⟨g', hgcall, hg', hgpages⟩ := HeapCall.exec_of_empty hg hzero
    obtain ⟨h', hhcall, hh', hhpages⟩ := HeapCall.exec_of_empty hh hzero
    rw [← ht.pages, ← asks_of_empty hg hh hzero] at hhpages
    refine ⟨0, g', h', hgcall, hhcall, .inr ⟨hg', hh'⟩, hgpages.trans hhpages.symm, ?_⟩
    rw [hgpages]
    exact haligned

/-- A call that releases a header which is not on the list. -/
theorem Heap.Twins.exec_of_strays (ht : g.Twins h) {c : HeapCall} (hne : c.passed ≠ 0)
    (hfrees : c.Frees) (hgstray : g.Strays c.passed) (hhstray : h.Strays c.passed) :
    ∃ r g' h', c.exec g = some (r, g') ∧ c.exec h = some (r, h') ∧ g'.Twins h' := by
  have hgexec := HeapCall.exec_of_frees hne hfrees hgstray.1
  have hhexec := HeapCall.exec_of_frees hne hfrees hhstray.1
  rcases ht.shows with ⟨top, l, hg, hh, hends⟩ | ⟨hg, hh⟩
  · obtain ⟨g', hgcall, hg', hgpages⟩ := hg.releaseStray hgstray.2
    obtain ⟨h', hhcall, hh', hhpages⟩ := hh.releaseStray hhstray.2
    rw [hgcall] at hgexec
    rw [hhcall] at hhexec
    refine ⟨0, g', h', hgexec, hhexec, .inl ⟨top, _, hg', hh', hgpages ▸ hends⟩, ?_, ?_⟩
    · rw [hgpages, hhpages, ht.pages]
    · rw [hgpages]
      exact ht.aligned
  · rw [releaseBlock_of_empty hg] at hgexec
    rw [releaseBlock_of_empty hh] at hhexec
    exact ⟨0, _, _, hgexec, hhexec, .inr ⟨hg, hh⟩, ht.pages, ht.aligned⟩

theorem Heap.Twins.exec (ht : g.Twins h) {c : HeapCall} (htrusted : c.Trusted g h)
    (hflags : g.FlagsAgree h (g.asks c)) (habove : g.pages.CounterAboveFor (g.asks c)) :
    ∃ r g' h', c.exec g = some (r, g') ∧ c.exec h = some (r, h') ∧ g'.Twins h' := by
  by_cases hzero : c.passed = 0
  · exact ht.exec_of_heads (.inl hzero) hflags habove
  · rcases htrusted with hheads | ⟨hgrejects, hhrejects⟩ | ⟨hfrees, hgstray, hhstray⟩
    · exact ht.exec_of_heads hheads hflags habove
    · exact ⟨0, g, h, HeapCall.exec_of_rejects hzero hgrejects,
        HeapCall.exec_of_rejects hzero hhrejects, ht⟩
    · exact ht.exec_of_strays hzero hfrees hgstray hhstray

theorem Heap.Twins.write (ht : g.Twins h) {addr : Nat} (hoff : g.OffHeaders addr) (value : UInt8) :
    Twins { g with mem := store8 g.mem addr value } { h with mem := store8 h.mem addr value } where
  shows := by
    rcases ht.shows with ⟨top, l, hg, hh, hends⟩ | hnone
    · rw [hg.offHeaders_iff] at hoff
      have hsame : ∀ (m : Memory) x, InHeaders l x → store8 m addr value x = m x :=
        fun m x hx => if_neg (by rintro rfl; exact hoff hx)
      exact .inl ⟨top, l, hg.write (hsame g.mem) rfl rfl rfl, hh.write (hsame h.mem) rfl rfl rfl,
        hends⟩
    · exact .inr hnone
  pages := ht.pages
  aligned := ht.aligned

theorem Heap.Twins.allocElsewhere (ht : g.Twins h) (flags : Nat) :
    (g.allocElsewhere flags).Twins (h.allocElsewhere flags) where
  shows := by
    rcases ht.shows with ⟨top, l, hg, hh, hends⟩ | hnone
    · exact .inl ⟨top, l, hg.write (fun _ _ => rfl) rfl rfl rfl,
        hh.write (fun _ _ => rfl) rfl rfl rfl, hends⟩
    · exact .inr hnone
  pages := by
    unfold Heap.allocElsewhere
    dsimp only
    rw [ht.pages]
  aligned := ht.aligned.alloc flags

/-- `heap_init` does not depend on what the memory holds. -/
theorem Heap.Twins.init (hpages : g.pages = h.pages) (haligned : g.pages.source.CounterAligned) :
    (heapInit g).Twins (heapInit h) := by
  cases hres : PageSource.vmmAllocPage g.pages (pagePresent ||| pageWrite) with
  | mk page t =>
    have hres' := hpages ▸ hres
    obtain ⟨hfst, hsource, hreturned⟩ := Logged.alloc_eq hres
    refine ⟨?_, ?_, ?_⟩
    · by_cases hpage : page = 0
      · exact .inr ⟨(heapStart_heapInit hres).trans hpage, (heapStart_heapInit hres').trans hpage⟩
      · obtain ⟨hmod, hlt⟩ := hfst ▸ haligned.page (hfst ▸ hpage)
        refine .inl ⟨_, _, (Heap.Shows.init hres hpage hmod hlt).1,
          (Heap.Shows.init hres' hpage hmod hlt).1, page, ?_, hmod, rfl⟩
        rw [pages_heapInit hres, hreturned, if_neg hpage]
        exact List.mem_cons_self
    · rw [pages_heapInit hres, pages_heapInit hres']
    · rw [pages_heapInit hres, hsource]
      exact haligned.alloc _

end Twins

namespace TwoRuns

variable {s t : TwoRuns}

/-- The invariant: the runs have the same list and gave the same answers. -/
structure Alike (s : TwoRuns) : Prop where
  heaps : s.one.heap.Twins s.two.heap
  answers : s.one.answers = s.two.answers

theorem Alike.enter (h : s.Alike) {op : SharedOp} (hcareful : s.Careful op) :
    ∃ t, s.enter op = some t ∧ t.Alike := by
  cases op with
  | allocPage flags =>
    exact ⟨_, rfl, h.heaps.allocElsewhere flags, h.answers⟩
  | heap op =>
    cases op with
    | write addr value => exact ⟨_, rfl, h.heaps.write hcareful value, h.answers⟩
    | call c =>
      obtain ⟨r, g', h', hg, hh, htwins⟩ := h.heaps.exec hcareful.1 hcareful.2.1 hcareful.2.2
      obtain ⟨hallocated, hfree⟩ := htwins.counted
      refine ⟨_, by rw [TwoRuns.enter, Observed.enter_call hg, Observed.enter_call hh]; rfl,
        htwins, ?_⟩
      simp only [h.answers, hallocated, hfree]

theorem alike {p : Pmm} {ram mem₁ mem₂ : Memory} {before : List Nat} {ops : List SharedOp}
    (hrun : Run CarefulStep (start p ram before mem₁ mem₂) ops s) : s.Alike := by
  refine hrun.invariant (I := Alike) ?_ ?_
  · exact ⟨.init rfl (SharedHeap.counterAligned_vmmAfter p ram before), rfl⟩
  · rintro s op t hs ⟨hcareful, hstep⟩
    obtain ⟨t', hstep', ht⟩ := hs.enter hcareful
    obtain rfl := Option.some.inj (hstep.symm.trans hstep')
    exact ht

end TwoRuns

/-- In every pair of runs over the same physical memory manager, with the same flags on the pages
the heap gets and the same pointers believed, the answers are the same after every call, and every
call returns in both. -/
theorem heap_ignores_page_contents {p : Pmm} {ram mem₁ mem₂ : Memory} {before : List Nat}
    {ops : List SharedOp} {s : TwoRuns}
    (hrun : Run TwoRuns.CarefulStep (.start p ram before mem₁ mem₂) ops s) :
    s.one.answers = s.two.answers ∧ ∀ op, s.Careful op → ∃ t, s.Step op t := by
  have halike := TwoRuns.alike hrun
  refine ⟨halike.answers, fun op hcareful => ?_⟩
  obtain ⟨t, hstep, -⟩ := halike.enter hcareful
  exact ⟨t, hstep⟩

/-! ## A flag that is set -/

section EightBlocks

/-- Memory that holds 1 at one address, and 0 elsewhere. -/
def oneAt (addr : Nat) : Memory := fun x => if x = addr then 1 else 0

/-- Two runs over memory that differs at one address. -/
def TwoRuns.eightBlocksStart (addr : Nat) : TwoRuns :=
  .start eightBlocks (fun _ => 0) [] (fun _ => 0) (oneAt addr)

/-- The page that `heap_expand` takes differs in its payload. -/
theorem heap_ignores_page_contents_eightBlocks : ∃ s, Run TwoRuns.CarefulStep
    (.eightBlocksStart 0xC0001020)
      [.heap (.call (.kmalloc 4080)), .heap (.call (.kmalloc 100))] s ∧
      s.one.heap.pages.returned = [0xC0001000, 0xC0000000] ∧
      s.one.answers = [⟨0xC0001010, some 4192, some 3952⟩, ⟨0xC0000010, some 4080, some 0⟩] ∧
      s.one.answers = s.two.answers ∧ ∀ op, s.Careful op → ∃ t, s.Step op t := by
  obtain ⟨p, hcalls, hasks, habove, hflags, hreturned, hanswers⟩ : ∃ p : TwoRuns × TwoRuns,
      (((TwoRuns.eightBlocksStart 0xC0001020).enter (.heap (.call (.kmalloc 4080)))).bind
        fun full => (full.enter (.heap (.call (.kmalloc 100)))).map fun s => (full, s)) = some p ∧
      p.1.one.heap.asks (.kmalloc 100) = 1 ∧
      (∀ page ∈ p.1.one.heap.pages.returned, page < p.1.one.heap.pages.source.nextVirt) ∧
      (∀ page ∈ (takePages 1 p.1.one.heap.pages).1,
        blockUsed p.1.one.heap.mem page = 0 ↔ blockUsed p.1.two.heap.mem page = 0) ∧
      p.2.one.heap.pages.returned = [0xC0001000, 0xC0000000] ∧
      p.2.one.answers =
        [⟨0xC0001010, some 4192, some 3952⟩, ⟨0xC0000010, some 4080, some 0⟩] := by
    unfold TwoRuns.eightBlocksStart TwoRuns.start
    simp only [SharedHeap.fresh_eightBlocks]
    exact exists_some (by decide +kernel)
  have hnone : (TwoRuns.eightBlocksStart 0xC0001020).one.heap.asks (.kmalloc 4080) = 0 := by
    unfold TwoRuns.eightBlocksStart TwoRuns.start
    simp only [SharedHeap.fresh_eightBlocks]
    decide +kernel
  obtain ⟨full, hfull, hlast⟩ := Option.bind_eq_some_iff.mp hcalls
  obtain ⟨s, hgrown, rfl⟩ := Option.map_eq_some_iff.mp hlast
  dsimp only at hasks habove hflags hreturned hanswers
  have hcareful : (TwoRuns.eightBlocksStart 0xC0001020).Careful
      (.heap (.call (.kmalloc 4080))) := by
    refine ⟨.inl (.inl rfl), ?_⟩
    rw [hnone]
    exact ⟨by simp [Heap.FlagsAgree, takePages], trivial⟩
  have hexpands : full.Careful (.heap (.call (.kmalloc 100))) := by
    refine ⟨.inl (.inl rfl), ?_⟩
    rw [hasks]
    exact ⟨hflags, Logged.counterAboveFor_one habove⟩
  have hrun : Run TwoRuns.CarefulStep (.eightBlocksStart 0xC0001020)
      [.heap (.call (.kmalloc 4080)), .heap (.call (.kmalloc 100))] s :=
    .cons ⟨hcareful, hfull⟩ (.single ⟨hexpands, hgrown⟩)
  exact ⟨s, hrun, hreturned, hanswers, heap_ignores_page_contents hrun⟩

/-- The second page holds 1 where its `used` flag will be: `kmalloc` gets the page and finds no
block. -/
theorem heap_believes_page_contents : ∃ ops s,
    Run TwoRuns.Step (.eightBlocksStart 0xC000100C) ops s ∧
      s.one.heap.pages.returned = [0xC0001000, 0xC0000000] ∧
      s.two.heap.pages.returned = [0xC0001000, 0xC0000000] ∧
      s.one.answers ≠ s.two.answers := by
  obtain ⟨s, hops, hone, htwo, hne⟩ : ∃ s, [SharedOp.heap (.call (.kmalloc 4080)),
      .heap (.call (.kmalloc 16))].foldlM TwoRuns.enter (.eightBlocksStart 0xC000100C) = some s ∧
        s.one.heap.pages.returned = [0xC0001000, 0xC0000000] ∧
        s.two.heap.pages.returned = [0xC0001000, 0xC0000000] ∧
        s.one.answers ≠ s.two.answers := by
    unfold TwoRuns.eightBlocksStart TwoRuns.start
    simp only [SharedHeap.fresh_eightBlocks]
    exact exists_some (by decide +kernel)
  exact ⟨_, s, .of_foldlM id hops, hone, htwo, hne⟩

end EightBlocks

end HolyOs.Mm
