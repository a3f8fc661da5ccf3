import HolyOs.Mm.HeapClient

/-!
# What a request gets

Two questions about `kmalloc` and `krealloc` in any state a client reaches: whether a pointer they
return has as many bytes as were asked for, and whether `kmalloc` finds a block when there are
pages for one. Rounding a size of the last 15 gives 0, and a page is made one block of its own,
so neither is always so.
-/
namespace HolyOs.Mm

open ByteMemory HolyOs.Lib BlockList Transition

variable {σ : Type*}

/-- The block headed below the pointer is used and has at least `size` bytes. -/
structure Heap.Provides (h : Heap σ) (ptr size : Nat) : Prop where
  used : blockUsed h.mem (Word32.sub ptr heapBlockSize) ≠ 0
  size : size ≤ blockSize h.mem (Word32.sub ptr heapBlockSize)

/-- A pointer that is returned has the bytes that were asked for. -/
def Fulfilled (result : Option (Nat × Heap σ)) (size : Nat) : Prop :=
  ∀ r h, result = some (r, h) → r ≠ 0 → h.Provides r size

def HeapClient.Fulfils [PageSource σ] (s : HeapClient σ) : HeapCall → Prop
  | .kmalloc size => Fulfilled (kmalloc s.heap size) size
  | .krealloc ptr size => Fulfilled (krealloc s.heap ptr size) size
  | .kfree _ => True

/-- No block is free, and the next page does not bring a free one. -/
structure Heap.Exhausted [PageSource σ] (h : Heap σ) : Prop where
  used : ∀ block, h.Node block → blockUsed h.mem block ≠ 0
  page : pageResult 0 h.pages = 0 ∨ blockUsed h.mem (pageResult 0 h.pages) ≠ 0

/-- The next `n` pages are there, filled with zeros. -/
def Heap.PagesReady [PageSource σ] (h : Heap σ) (n : Nat) : Prop :=
  ∀ i < n, pageResult i h.pages ≠ 0 ∧
    ∀ x, pageResult i h.pages ≤ x → x < pageResult i h.pages + pageSize → h.mem x = 0

/-- The pages that hold `size` bytes and 32 more. -/
def neededPages (size : Nat) : Nat := (size + 32 + pageSize - 1) / pageSize

/-- A free block of the heap has at least `size` bytes. -/
def Heap.HasFree (h : Heap σ) (size : Nat) : Prop :=
  ∃ block, h.Node block ∧ blockUsed h.mem block = 0 ∧ size ≤ blockSize h.mem block

/-! ## Room on the list -/

section Room

variable {h : Heap σ} {top size : Nat} {l l' : List Block}

theorem room_append : Room (l ++ l') size ↔ Room l size ∨ Room l' size := by
  simp only [Room, List.mem_append]
  grind

theorem Heap.Shows.header_of_mem (hs : h.Shows top l) {b : Block} (hb : b ∈ l) :
    ∃ next, HeaderAt h.mem b next := by
  obtain ⟨l₁, l₂, rfl⟩ := List.append_of_mem hb
  exact ⟨_, hs.header⟩

theorem Heap.Shows.room_iff (hs : h.Shows top l) : Room l size ↔ h.HasFree size := by
  constructor
  · rintro ⟨b, hb, hfree, hsize⟩
    obtain ⟨next, hheader⟩ := hs.header_of_mem hb
    exact ⟨b.addr, (hs.node_iff _).mpr ⟨b, hb, rfl⟩, hheader.used_iff.mpr hfree,
      hheader.size ▸ hsize⟩
  · rintro ⟨block, hnode, hfree, hsize⟩
    obtain ⟨b, hb, rfl⟩ := (hs.node_iff _).mp hnode
    obtain ⟨next, hheader⟩ := hs.header_of_mem hb
    exact ⟨b, hb, hheader.used_iff.mp hfree, hheader.size ▸ hsize⟩

theorem Heap.Shows.provides_iff {ptr n : Nat} {c : Block} (hs : h.Shows top l)
    (hc : Holds l ptr n c) : h.Provides ptr size ↔ size ≤ c.size := by
  obtain ⟨-, hblock, -, hsize⟩ := hs.block_of_ptr hc.blockAt
  obtain ⟨next, hheader⟩ := hs.header_of_mem hc.mem
  have hused : blockUsed h.mem c.addr ≠ 0 := by
    rw [ne_eq, hheader.used_iff, hc.used]
    simp
  constructor
  · intro hprovides
    rw [← hsize, ← hblock]
    exact hprovides.size
  · intro hle
    exact ⟨by rwa [hblock], by rwa [hblock, hsize]⟩

end Room

/-! ## The new blocks -/

section NewBlocks

variable [PageSource σ] {h : Heap σ} {size : Nat}

theorem size_of_mem_pageBlocks {n : Nat} {b : Block} (hb : b ∈ pageBlocks n h) :
    b.size = pageSize - heapBlockSize := by
  induction n generalizing h with
  | zero => cases hb
  | succ n ih =>
    rw [pageBlocks] at hb
    split_ifs at hb with hpage
    · cases hb
    · rcases List.mem_cons.mp hb with rfl | hb
      · rfl
      · exact ih hb

theorem expandPages_eq (hsize : size + 2 ^ 17 < 2 ^ 32) :
    expandPages size = (size + 16 + 65535) / 65536 := by
  simp only [expandPages, heapBlockSize, heapExpandSize]
  rw [Word32.wrap_of_lt (show size + 16 < 2 ^ 32 by omega),
    Word32.wrap_of_lt (show size + 16 + 65536 - 1 < 2 ^ 32 by omega)]
  rfl

theorem pageBlocks_one : pageBlocks 1 h =
    if pageResult 0 h.pages = 0 then [] else [pageBlock h.mem (pageResult 0 h.pages)] := rfl

/-- A size fits on a new block where it fits on one page, and the next page is there with a flag
of 0. -/
theorem room_newBlocks_iff : Room (newBlocks h size) size ↔ pageResult 0 h.pages ≠ 0 ∧
    size ≤ pageSize - heapBlockSize ∧ blockUsed h.mem (pageResult 0 h.pages) = 0 := by
  by_cases hsize : size ≤ pageSize - heapBlockSize
  · have hone : newBlocks h size = pageBlocks 1 h := by
      have hle : size ≤ 4080 := hsize
      have hpages : expandPages (size + 16) = 1 := by
        rw [expandPages_eq (by omega)]
        omega
      rw [newBlocks, heapBlockSize, Word32.wrap_of_lt (by omega), hpages]
    rw [hone, pageBlocks_one]
    split_ifs with hpage
    · simp [Room, hpage]
    · simp [Room, hpage, pageBlock, and_comm]
  · refine iff_of_false ?_ fun hroom => hsize hroom.2.1
    rintro ⟨b, hb, -, hle⟩
    rw [size_of_mem_pageBlocks hb] at hle
    exact hsize hle

end NewBlocks

/-! ## Sizes -/

/-- The sizes that cannot be rounded up. -/
theorem alignSize_eq_zero {n : Nat} (hlow : 0xFFFFFFF0 < n) (hhigh : n < 2 ^ 32) :
    alignSize n = 0 := by
  rw [alignSize_eq, Word32.wrap]
  omega

theorem Heap.Shows.exhausted_iff [PageSource σ] {h : Heap σ} {top : Nat} {l : List Block}
    (hs : h.Shows top l) : h.Exhausted ↔ ¬ Room (l ++ newBlocks h 0) 0 := by
  rw [room_append, hs.room_iff, room_newBlocks_iff]
  constructor
  · rintro ⟨hused, hpage⟩ (⟨block, hnode, hfree, -⟩ | ⟨hne, -, hzero⟩)
    · exact hused block hnode hfree
    · rcases hpage with hpage | hpage
      · exact hne hpage
      · exact hpage hzero
  · intro hnone
    refine ⟨fun block hnode hfree => hnone (.inl ⟨block, hnode, hfree, Nat.zero_le _⟩), ?_⟩
    by_contra hpage
    exact hnone (.inr (by simpa using hpage))

theorem fulfilled_some {r size : Nat} {h : Heap σ} :
    Fulfilled (some (r, h)) size ↔ (r ≠ 0 → h.Provides r size) := by
  constructor
  · intro hf
    exact hf r h rfl
  · rintro hprovides _ _ ⟨⟩
    exact hprovides

namespace HeapClient

variable [PageSource σ] {s : HeapClient σ} {top : Nat} {l : List Block} {size : Nat}

omit [PageSource σ] in
/-- What a call that served the request returned is large enough exactly when the size could be
rounded up. -/
theorem provides_iff_of_serves {h : Heap σ} {r : Nat} {c : Block} (hs : h.Shows top l)
    (hc : Serves l r (alignSize size) c) (hpos : 0 < size) (hlt : size < 2 ^ 32) :
    h.Provides r size ↔ size ≤ 0xFFFFFFF0 := by
  rw [hs.provides_iff hc.toHolds]
  have hsize := hc.size
  have htight := hc.tight
  by_cases hround : size ≤ 0xFFFFFFF0
  · have := le_alignSize hround
    omega
  · rw [alignSize_eq_zero (by omega) hlt] at htight
    omega

theorem Sound.fulfils_kmalloc (hs : s.Sound top l) (hpos : 0 < size) (hlt : size < 2 ^ 32) :
    s.Fulfils (.kmalloc size) ↔ size ≤ 0xFFFFFFF0 ∨ s.heap.Exhausted := by
  obtain ⟨r, h', top', l', hcall, hs', -, -, hresult⟩ := kmalloc_spec hs.shows hs.supplies size
  rw [Fulfils, hcall, fulfilled_some, hs.shows.exhausted_iff]
  by_cases hround : size ≤ 0xFFFFFFF0
  · refine iff_of_true (fun hr => ?_) (.inl hround)
    obtain ⟨-, -, c, hc⟩ := hresult.resolve_left fun hnull => hr hnull.1
    exact (provides_iff_of_serves hs' hc hpos hlt).mpr hround
  · rw [alignSize_eq_zero (by omega) hlt] at hresult
    rcases hresult with ⟨rfl, hnone⟩ | ⟨hroom, -, c, hc⟩
    · exact iff_of_true (fun hr => absurd rfl hr) (.inr (hnone.resolve_left (by omega)))
    · have hr : r ≠ 0 := (hs'.block_of_ptr hc.blockAt).1
      rw [← alignSize_eq_zero (by omega) hlt] at hc
      refine iff_of_false (fun hprovides => ?_) (fun hcond => hcond.resolve_left hround hroom)
      exact hround ((provides_iff_of_serves hs' hc hpos hlt).mp (hprovides hr))

/-- A size that rounds to 0 fits where the block is. -/
theorem Sound.fulfils_krealloc (hs : s.Sound top l) {a : Allocation} (ha : a ∈ s.live)
    (hpos : 0 < size) (hlt : size < 2 ^ 32) :
    s.Fulfils (.krealloc a.ptr size) ↔ size ≤ 0xFFFFFFF0 := by
  obtain ⟨b, hb⟩ := hs.holds a ha
  obtain ⟨r, h', top', l', hcall, hs', -, -, hresult⟩ := krealloc_spec hs.shows hs.supplies hb size
  have hserved : r ≠ 0 → ∃ c, Serves l' r (alignSize size) c := fun hr =>
    (hresult.resolve_left fun hnull => hr hnull.1).2
  rw [Fulfils, hcall, fulfilled_some]
  constructor
  · intro hprovides
    by_contra hround
    have hzero := alignSize_eq_zero (by omega) hlt
    have hplace := krealloc_of_fits hs.shows hb.blockAt (n := size) (by omega) (by omega)
    obtain ⟨rfl, -⟩ := Prod.mk.inj (Option.some.inj (hcall.symm.trans hplace))
    obtain ⟨c, hc⟩ := hserved (hs.ptr_ne_zero ha)
    exact hround ((provides_iff_of_serves hs' hc hpos hlt).mp (hprovides (hs.ptr_ne_zero ha)))
  · intro hround hr
    obtain ⟨c, hc⟩ := hserved hr
    exact (provides_iff_of_serves hs' hc hpos hlt).mpr hround

end HeapClient

/-- In every run after a successful `heap_init`, with any page source that returns increasing
page addresses or fails, a request for `size` bytes is fulfilled exactly when `size` can be rounded
up, or `kmalloc` has no block at all to return. -/
theorem heap_request_fulfilled_iff [PageSource σ] {h : Heap σ} (hsupply : Supplies 0 h.pages)
    (hinit : (heapInit h).heapStart ≠ 0) {ops : List HeapOp} {s : HeapClient σ}
    (hrun : Run (HeapClient.Step HeapClient.Legal) (HeapClient.start h) ops s) {c : HeapCall}
    (hlegal : s.Legal (.call c)) (hpos : 0 < c.size) :
    s.Fulfils c ↔ c.size ≤ 0xFFFFFFF0 ∨ c.passed = 0 ∧ s.heap.Exhausted := by
  obtain ⟨top, l, hs⟩ := HeapClient.exists_sound hsupply hinit hrun
  obtain ⟨haccepts, hlt⟩ := hlegal
  cases c with
  | kmalloc size =>
    dsimp only [HeapCall.size, HeapCall.passed] at *
    simpa using hs.fulfils_kmalloc hpos hlt
  | kfree ptr => exact absurd hpos (lt_irrefl 0)
  | krealloc ptr size =>
    dsimp only [HeapCall.size, HeapCall.passed] at *
    rcases haccepts with hzero | ⟨a, ha, rfl⟩
    · obtain rfl : ptr = 0 := hzero
      have hsame : s.Fulfils (.krealloc 0 size) ↔ s.Fulfils (.kmalloc size) := by
        simp only [HeapClient.Fulfils, krealloc, if_true]
      simpa [hsame] using hs.fulfils_kmalloc hpos hlt
    · simpa [HeapCall.passed, hs.ptr_ne_zero ha] using hs.fulfils_krealloc ha hpos hlt

/-- A block that is to grow, on a page that came after a failure. -/
theorem heap_request_fulfilled_iff_scripted : ∃ s : HeapClient PageScript,
    s.live = [⟨0xC0002010, 100⟩, ⟨0xC0000010, 4080⟩] ∧
      (s.Fulfils (.krealloc 0xC0002010 300) ↔
        300 ≤ 0xFFFFFFF0 ∨ 0xC0002010 = 0 ∧ s.heap.Exhausted) := by
  obtain ⟨s, hops, hlive⟩ : ∃ s, [HeapOp.call (.kmalloc 4080), .call (.kmalloc 100),
      .call (.kmalloc 100)].foldlM HeapClient.attempt (HeapClient.start PageScript.scripted) =
        some s ∧ s.live = [⟨0xC0002010, 100⟩, ⟨0xC0000010, 4080⟩] :=
    exists_some (by decide +kernel)
  refine ⟨s, hlive, heap_request_fulfilled_iff PageScript.scripted_supplies (by decide +kernel)
    (Run.of_foldlM HeapClient.step_of_attempt hops) (c := .krealloc 0xC0002010 300)
    ⟨.inr ⟨⟨0xC0002010, 100⟩, by simp [hlive], rfl⟩, by decide⟩ (by decide)⟩

/-- The largest size gets a block of no bytes. -/
theorem heap_request_unfulfilled :
    let s := HeapClient.start PageScript.scripted
    s.Legal (.call (.kmalloc 0xFFFFFFFF)) ∧ ¬ s.Fulfils (.kmalloc 0xFFFFFFFF) := by
  refine ⟨⟨.inl rfl, by decide⟩, fun hfulfils => ?_⟩
  obtain ⟨⟨r, h⟩, hcall, hr, hsize⟩ : ∃ p : Nat × Heap PageScript,
      kmalloc (heapInit PageScript.scripted) 0xFFFFFFFF = some p ∧ p.1 ≠ 0 ∧
        blockSize p.2.mem (Word32.sub p.1 heapBlockSize) = 0 := exists_some (by decide +kernel)
  have := (hfulfils r h hcall hr).size
  dsimp only at hsize
  omega

/-! ## Requests that pages could serve -/

section Contiguous

/-- `heap_init` writes to the header of its block only. -/
theorem onlyHeader_heapInit [PageSource σ] (h : Heap σ) :
    OnlyHeader (heapInit h).heapStart h.mem (heapInit h).mem := by
  unfold heapInit
  dsimp only
  split_ifs with hpage
  · exact fun _ _ => rfl
  · exact ((((onlyHeader_setMagic _).trans (onlyHeader_setSize _)).trans
      (onlyHeader_setNext _)).trans (onlyHeader_setUsed _))

/-- A heap on blank memory that gets one page after the other. -/
def PageScript.contiguous : Heap PageScript :=
  ⟨fun _ => 0, 0, 0, 0, ⟨[0xC0000000, 0xC0001000, 0xC0002000]⟩⟩

theorem PageScript.contiguous_supplies : Supplies 0 contiguous.pages :=
  supplies (by decide) (by decide)

theorem PageScript.contiguous_pageResult : ∀ i < 2,
    pageResult i (heapInit contiguous).pages = 0xC0000000 + pageSize * (i + 1) := by
  decide +kernel

theorem PageScript.contiguous_ready {n : Nat} (hn : n ≤ 2) :
    (heapInit contiguous).PagesReady n := by
  intro i hi
  rw [contiguous_pageResult i (by omega)]
  have hstart : (heapInit contiguous).heapStart = 0xC0000000 := rfl
  refine ⟨by omega, fun x hlo _ => ?_⟩
  simp only [pageSize] at hlo
  exact onlyHeader_heapInit contiguous x (by omega)

end Contiguous

/-- In every run after a successful `heap_init`, when the pages for `size` bytes and 32 more are
there, `kmalloc` returns a block exactly when a free one is large enough or the size fits on one
page: however many pages it adds, each is a block of its own. -/
theorem kmalloc_returns_block_iff [PageSource σ] {h : Heap σ} (hsupply : Supplies 0 h.pages)
    (hinit : (heapInit h).heapStart ≠ 0) {ops : List HeapOp} {s : HeapClient σ}
    (hrun : Run (HeapClient.Step HeapClient.Legal) (HeapClient.start h) ops s) {size : Nat}
    (hpos : 1 ≤ size) (hmax : size ≤ 2 ^ 20) (hready : s.heap.PagesReady (neededPages size)) :
    (∃ r h', kmalloc s.heap size = some (r, h') ∧ r ≠ 0) ↔
      s.heap.HasFree (alignSize size) ∨ alignSize size ≤ pageSize - heapBlockSize := by
  obtain ⟨top, l, hs⟩ := HeapClient.exists_sound hsupply hinit hrun
  obtain ⟨r, h', top', l', hcall, hs', -, -, hresult⟩ := kmalloc_spec hs.shows hs.supplies size
  have hneeded : 0 < neededPages size := by
    simp only [neededPages, pageSize]
    omega
  obtain ⟨hpage, hzero⟩ := hready 0 hneeded
  have hflag : blockUsed s.heap.mem (pageResult 0 s.heap.pages) = 0 :=
    hzero _ (by omega) (by simp only [pageSize]; omega)
  have hround : alignSize size < size + 16 := by
    rw [alignSize_eq, Word32.wrap_of_lt (by omega)]
    omega
  have hnew : alignSize size ≤ pageSize - heapBlockSize ↔
      Room (newBlocks s.heap (alignSize size)) (alignSize size) := by
    rw [room_newBlocks_iff]
    exact ⟨fun hle => ⟨hpage, hle, hflag⟩, fun h => h.2.1⟩
  rw [← hs.shows.room_iff, hnew, ← room_append]
  constructor
  · rintro ⟨r₂, h₂, hcall₂, hr⟩
    obtain ⟨rfl, rfl⟩ := Prod.mk.inj (Option.some.inj (hcall.symm.trans hcall₂))
    exact (hresult.resolve_left fun hnull => hr hnull.1).1
  · intro hroom
    rcases hresult with ⟨-, hzero | hnone⟩ | ⟨-, -, c, hc⟩
    · omega
    · exact absurd hroom hnone
    · exact ⟨r, h', hcall, (hs'.block_of_ptr hc.blockAt).1⟩

/-- Two pages are full, and the third is still to be asked for. -/
theorem kmalloc_returns_block_iff_contiguous : ∃ s : HeapClient PageScript,
    s.live = [⟨0xC0001010, 4080⟩, ⟨0xC0000010, 4080⟩] ∧
      ((∃ r h', kmalloc s.heap 100 = some (r, h') ∧ r ≠ 0) ↔
        s.heap.HasFree (alignSize 100) ∨ alignSize 100 ≤ pageSize - heapBlockSize) := by
  obtain ⟨s, hops, hlive, hpage, hzero⟩ : ∃ s, [HeapOp.call (.kmalloc 4080),
      .call (.kmalloc 4080)].foldlM HeapClient.attempt (HeapClient.start PageScript.contiguous) =
        some s ∧ s.live = [⟨0xC0001010, 4080⟩, ⟨0xC0000010, 4080⟩] ∧
          pageResult 0 s.heap.pages = 0xC0002000 ∧
            (List.range 4096).all (fun i => s.heap.mem (0xC0002000 + i) == 0) = true :=
    exists_some (by decide +kernel)
  have hready : s.heap.PagesReady (neededPages 100) := by
    intro i hi
    obtain rfl : i = 0 := Nat.lt_one_iff.mp hi
    rw [hpage]
    refine ⟨by decide, fun x hlo hhi => ?_⟩
    have hx := List.all_eq_true.mp hzero (x - 0xC0002000)
      (List.mem_range.mpr (by rw [pageSize] at hhi; omega))
    rwa [Nat.add_sub_cancel' hlo, beq_iff_eq] at hx
  exact ⟨s, hlive, kmalloc_returns_block_iff PageScript.contiguous_supplies (by decide +kernel)
    (.of_foldlM HeapClient.step_of_attempt hops) (by decide) (by decide) hready⟩

/-- 5000 bytes and 32 more fit on two pages, which are there, one after the other. -/
theorem kmalloc_returns_null :
    let s := HeapClient.start PageScript.contiguous
    (∀ i < neededPages 5000,
        pageResult i s.heap.pages = s.heap.heapStart + pageSize * (i + 1)) ∧
      s.heap.PagesReady (neededPages 5000) ∧ ∃ h', kmalloc s.heap 5000 = some (0, h') := by
  refine ⟨PageScript.contiguous_pageResult, PageScript.contiguous_ready (by decide), ?_⟩
  obtain ⟨⟨r, h'⟩, hcall, rfl⟩ : ∃ p : Nat × Heap PageScript,
      kmalloc (heapInit PageScript.contiguous) 5000 = some p ∧ p.1 = 0 :=
    exists_some (by decide +kernel)
  exact ⟨h', hcall⟩

end HolyOs.Mm
