import HolyOs.Mm.BlockHeap
import HolyOs.Mm.HeapMerge

/-!
# The calls of the heap

Specifications of `heap_expand`, `kmalloc`, `kfree` and `krealloc` over the block list, for a
page source that returns increasing page addresses or fails. Every call returns.
-/
namespace HolyOs.Mm

open ByteMemory HolyOs.Lib BlockList

variable {σ : Type*} [PageSource σ]

/-- The result of the heap's call number `n` to the page source. -/
def pageResult : Nat → σ → Nat
  | 0, s => (PageSource.vmmAllocPage s (pagePresent ||| pageWrite)).1
  | n + 1, s => pageResult n (PageSource.vmmAllocPage s (pagePresent ||| pageWrite)).2

/-- Results other than 0 are pages from `top` on, each one above those before it. -/
structure Supplies (top : Nat) (s : σ) : Prop where
  page : ∀ n, pageResult n s ≠ 0 →
    pageResult n s % 4096 = 0 ∧ top ≤ pageResult n s ∧ pageResult n s < 2 ^ 32
  increasing : ∀ {m n}, m < n → pageResult m s ≠ 0 → pageResult n s ≠ 0 →
    pageResult m s < pageResult n s

section Source

variable {top : Nat} {s : σ}

/-- After a failing call the source is as good as before. -/
theorem Supplies.failed (h : Supplies top s) :
    Supplies top (PageSource.vmmAllocPage s (pagePresent ||| pageWrite)).2 :=
  ⟨fun n => h.page (n + 1), fun hlt => h.increasing (Nat.add_lt_add_right hlt 1)⟩

/-- A page is above the earlier ones, and later pages do not overlap it. -/
theorem Supplies.next (h : Supplies top s) {r : Nat} {t : σ}
    (hres : PageSource.vmmAllocPage s (pagePresent ||| pageWrite) = (r, t)) (hr : r ≠ 0) :
    r % 4096 = 0 ∧ top ≤ r ∧ r < 2 ^ 32 ∧ Supplies (r + 4096) t := by
  have hzero : pageResult 0 s = r := congrArg Prod.fst hres
  have hsucc : ∀ n, pageResult (n + 1) s = pageResult n t := fun n => by
    rw [pageResult, hres]
  obtain ⟨hmod, htop, hlt⟩ := h.page 0 (by rwa [hzero])
  rw [hzero] at hmod htop hlt
  refine ⟨hmod, htop, hlt, fun n hn => ?_, fun {m n} hmn hm hn => ?_⟩
  · rw [← hsucc] at hn ⊢
    obtain ⟨hmod', -, hlt'⟩ := h.page (n + 1) hn
    have habove := h.increasing (show 0 < n + 1 by omega) (by rwa [hzero]) hn
    rw [hzero] at habove
    omega
  · rw [← hsucc] at hm hn ⊢
    rw [← hsucc]
    exact h.increasing (Nat.add_lt_add_right hmn 1) hm hn

end Source

/-- The pages that the next `n` calls return, up to the first that fails, and the source after
them. -/
def takePages : Nat → σ → List Nat × σ
  | 0, s => ([], s)
  | n + 1, s =>
    let r := PageSource.vmmAllocPage s (pagePresent ||| pageWrite)
    if r.1 = 0 then ([], r.2)
    else
      let rest := takePages n r.2
      (r.1 :: rest.1, rest.2)

/-- Pages from `top` on, each one above those before it. -/
def Climbs : Nat → List Nat → Prop
  | _, [] => True
  | top, page :: pages =>
    page % 4096 = 0 ∧ top ≤ page ∧ page < 2 ^ 32 ∧ Climbs (page + 4096) pages

/-- The end of the last page, or `top` if there is none. -/
def topAfter : Nat → List Nat → Nat
  | top, [] => top
  | _, page :: pages => topAfter (page + 4096) pages

theorem Supplies.climbs {top : Nat} {s : σ} (h : Supplies top s) (n : Nat) :
    Climbs top (takePages n s).1 ∧ Supplies (topAfter top (takePages n s).1) (takePages n s).2 := by
  induction n generalizing top s with
  | zero => exact ⟨trivial, h⟩
  | succ n ih =>
    cases hres : PageSource.vmmAllocPage s (pagePresent ||| pageWrite) with
    | mk r t =>
      rw [takePages, hres]
      dsimp only
      by_cases hr : r = 0
      · have hfailed := h.failed
        rw [hres] at hfailed
        rw [if_pos hr]
        exact ⟨trivial, hfailed⟩
      · obtain ⟨hmod, htop, hlt, hnext⟩ := h.next hres hr
        rw [if_neg hr]
        exact ⟨⟨hmod, htop, hlt, (ih hnext).1⟩, (ih hnext).2⟩

/-- Elements other than a replaced one stay. -/
theorem mem_replaced {α : Type*} (new : List α) {l₁ l₂ : List α} {b c : α}
    (hc : c ∈ l₁ ++ b :: l₂) (hne : c ≠ b) : c ∈ l₁ ++ (new ++ l₂) := by
  simp only [List.mem_append, List.mem_cons] at hc ⊢
  grind

/-! ## Merging -/

section Merge

omit [PageSource σ]

variable {h : Heap σ} {top : Nat} {l l₁ l₂ : List Block} {b : Block}

/-- `merge_blocks` coalesces the list, and writes no flag. -/
theorem Heap.Shows.merge (hs : h.Shows top l) : ∃ h', mergeBlocks h = some h' ∧
    h'.Shows top (coalesce 16 l) ∧ h'.pages = h.pages ∧
      (∀ x, ¬ InHeaders l x → h'.mem x = h.mem x) ∧
      ∀ b ∈ l, blockUsed h'.mem b.addr = blockUsed h.mem b.addr := by
  cases l with
  | nil => exact absurd rfl hs.nonempty
  | cons b l =>
    have htotal := hs.total_lt
    have htop := hs.top_le
    have hlength := hs.length_lt
    rw [List.length_cons] at hlength
    obtain ⟨m, hmerge, hseg, hframe, hflags⟩ := mergeLoop_eq hs.segment hs.pos hs.ordered.apart
      (by omega) hs.last (show l.length < loopFuel by omega)
    refine ⟨_, (mergeBlocks_eq_loop hs.start).trans hmerge, ?_, rfl, hframe, hflags⟩
    exact {
      nonempty := coalesceFrom_ne_nil
      start := by rw [coalesce, firstAddr_coalesceFrom]; exact hs.start
      last := rfl
      segment := hseg
      ordered := ordered_coalesceFrom hs.ordered
      fits := by
        refine forall_coalesceFrom (P := Fits top) (fun {x y} hx hy hle => ?_) hs.ordered hs.fits
        obtain ⟨hxaddr, hxsize, hxlow, hxlt, -⟩ := hx
        obtain ⟨-, hysize, -, -, hyhigh⟩ := hy
        simp only [Block.finish] at hle hyhigh
        refine ⟨hxaddr, ?_, hxlow, hxlt, ?_⟩ <;> simp only [Block.finish] <;> omega
      top_le := htop
      size := by rw [coalesce, total_coalesceFrom]; exact hs.size }

/-- Releasing a block marks it free and coalesces the list. -/
theorem Heap.Shows.release (hs : h.Shows top (l₁ ++ b :: l₂)) : ∃ h',
    releaseBlock h b.addr = some h' ∧
      h'.Shows top (coalesce 16 (l₁ ++ { b with used := false } :: l₂)) ∧ h'.pages = h.pages ∧
      Keeps h.mem h'.mem (l₁ ++ b :: l₂) (coalesce 16 (l₁ ++ { b with used := false } :: l₂))
        {b.addr} ∧ blockUsed h'.mem b.addr = 0 := by
  have hmark := hs.mark 0
  obtain ⟨h', hmerge, hs', hpages, hframe, hflags⟩ := hmark.merge
  have hflag := (hflags { b with used := false } (by simp)).trans (blockUsed_setUsed _ _ 0)
  refine ⟨h', hmerge, hs', hpages, .of_headers hs.ordered hs'.ordered ?_ ?_, hflag⟩
  · intro c hc hused hne
    have hmem : c ∈ l₁ ++ ([{ b with used := false }] ++ l₂) :=
      mem_replaced _ hc fun heq => hne (by rw [heq]; rfl)
    exact (mem_coalesce_of_used hused).mpr hmem
  · intro x hx _
    have hheaders : ¬ InHeaders (l₁ ++ { b with used := decide ((0 : UInt8) ≠ 0) } :: l₂) x := by
      rintro ⟨c, hc, hin⟩
      rcases List.mem_append.mp hc with hc | hc
      · exact hx ⟨c, List.mem_append_left _ hc, hin⟩
      · rcases List.mem_cons.mp hc with rfl | hc
        · exact hx ⟨b, by simp, hin⟩
        · exact hx ⟨c, List.mem_append_right _ (List.mem_cons_of_mem _ hc), hin⟩
    refine (hframe x hheaders).trans (onlyHeader_setUsed 0 x ?_)
    by_contra hin
    exact hx ⟨b, by simp, by omega⟩

end Merge

/-! ## Expansion -/

section Expand

variable {h : Heap σ} {top : Nat} {l : List Block}

/-- The block `heap_expand` makes of a page. Its flag is the byte the page has there. -/
def pageBlock (m : Memory) (page : Nat) : Block :=
  ⟨page, pageSize - heapBlockSize, decide (blockUsed m page ≠ 0)⟩

omit [PageSource σ] in
/-- What the loop body of `heap_expand` writes behind the last block `b`: the header of the new
block, then the link of `b`. -/
theorem heapAppend_eq {b : Block} {page : Nat} (hb : HeaderAt h.mem b 0)
    (hend : h.heapEnd = b.addr) (hapart : b.addr + 16 ≤ page) (hlt : page < 2 ^ 32) :
    ∃ m, heapAppend h page = { h with
        mem := m, heapEnd := page, heapSize := Word32.wrap (h.heapSize + pageSize) } ∧
      HeaderAt m b page ∧ HeaderAt m (pageBlock h.mem page) 0 ∧
      ∀ x, (x < b.addr ∨ b.addr + 16 ≤ x) → (x < page ∨ page + 16 ≤ x) → m x = h.mem x := by
  have hnew : HeaderAt _ (pageBlock h.mem page) 0 :=
    headerAt_fresh h.mem page (show pageSize - heapBlockSize < 2 ^ 32 by simp) (by omega)
  have honly : OnlyHeader page h.mem _ := ((onlyHeader_setMagic heapMagic).trans
    (onlyHeader_setSize (pageSize - heapBlockSize))).trans (onlyHeader_setNext 0)
  have hlink := (hb.congr (honly.sameOn (by omega))).setNext hlt
  generalize hm : setNext (setSize (setMagic h.mem page heapMagic) page
    (pageSize - heapBlockSize)) page 0 = m at hnew honly hlink
  have honly' : OnlyHeader b.addr m (setNext m b.addr page) := onlyHeader_setNext page
  refine ⟨_, ?_, hlink, hnew.congr (honly'.sameOn (by simp only [pageBlock]; omega)), ?_⟩
  · rw [heapAppend, hm, hend]
  · exact fun x hx hx' => (honly' x hx).trans (honly x hx')

omit [PageSource σ] in
/-- A new page becomes the last block. -/
theorem Heap.Shows.append (hs : h.Shows top l) {page : Nat} (hmod : page % 4096 = 0)
    (htop : top ≤ page) (hlt : page < 2 ^ 32) :
    (heapAppend h page).Shows (page + 4096) (l ++ [pageBlock h.mem page]) ∧
      ∀ x, ¬ InHeaders (l ++ [pageBlock h.mem page]) x → (heapAppend h page).mem x = h.mem x := by
  have htotal := hs.total_lt
  obtain ⟨init, b, rfl, hlast⟩ := exists_last hs.nonempty
  have hfits := hs.block_fits
  have hbelow : ∀ d ∈ init ++ [b], d.finish 16 ≤ page := fun d hd => (hs.fits d hd).high.trans htop
  have hb := hbelow b (by simp)
  rw [Block.finish] at hb
  obtain ⟨m, heq, hlink, hnew, hframe⟩ :=
    heapAppend_eq hs.header (hs.last.trans hlast) (by omega) hlt
  have hsame : ∀ c, c ∈ init ∨ c ∈ ([] : List Block) →
      SameOn h.mem m c.addr (c.addr + 16) := by
    rintro c (hc | hc) x hlo hhi
    · have hcb := (List.pairwise_append.mp hs.ordered).2.2 c hc b (by simp)
      rw [Block.finish] at hcb
      exact hframe x (by omega) (by omega)
    · cases hc
  have hseg := Segment.replace [b] [b, pageBlock h.mem page] hs.segment (fun _ => rfl)
    ⟨hlink, hnew, trivial⟩ hsame
  have hwrap : Word32.wrap (h.heapSize + pageSize) = h.heapSize + 4096 :=
    Word32.wrap_of_lt (by rw [hs.size, pageSize]; omega)
  rw [heq, hwrap]
  refine ⟨?_, fun x hx => hframe x ?_ ?_⟩
  · exact {
      nonempty := by simp
      start := by
        refine hs.start.trans ?_
        rw [firstAddr_append, firstAddr_append, firstAddr_append]
        rfl
      last := by rw [lastAddr_append (by simp)]; rfl
      segment := by rw [List.append_assoc]; exact hseg
      ordered := by
        refine List.pairwise_append.mpr ⟨hs.ordered, by simp, ?_⟩
        intro d hd c hc
        obtain rfl := List.mem_singleton.mp hc
        exact hbelow d hd
      fits := by
        intro d hd
        rcases List.mem_append.mp hd with hd | hd
        · exact { hs.fits d hd with high := (hbelow d hd).trans (Nat.le_add_right _ _) }
        · obtain rfl := List.mem_singleton.mp hd
          have hlow := hfits.low
          refine ⟨?_, ?_, ?_, ?_, ?_⟩ <;> simp [pageBlock, Block.finish] <;> omega
      top_le := by omega
      size := by
        have hadded : total 16 (init ++ [b] ++ [pageBlock h.mem page]) =
            total 16 (init ++ [b]) + 4096 := total_append
        rw [hadded, ← hs.size] }
  · by_contra hin
    exact hx ⟨b, by simp, by omega⟩
  · by_contra hin
    exact hx ⟨pageBlock h.mem page, by simp, by simp only [pageBlock]; omega⟩

/-- The blocks of the pages that the loop of `heap_expand` gets. -/
def pageBlocks : Nat → Heap σ → List Block
  | 0, _ => []
  | n + 1, h =>
    let newMem := PageSource.vmmAllocPage h.pages (pagePresent ||| pageWrite)
    if newMem.1 = 0 then []
    else pageBlock h.mem newMem.1 :: pageBlocks n (heapAppend { h with pages := newMem.2 } newMem.1)

omit [PageSource σ] in
/-- The flag a page brings is not written before the page is. -/
theorem pageBlock_append (hs : h.Shows top l) {page other : Nat} (hmod : page % 4096 = 0)
    (htop : top ≤ page) (hlt : page < 2 ^ 32) (hother : page + 4096 ≤ other) :
    pageBlock (heapAppend h page).mem other = pageBlock h.mem other := by
  have hsame : (heapAppend h page).mem (other + 12) = h.mem (other + 12) := by
    refine (hs.append hmod htop hlt).2 _ ?_
    rintro ⟨b, hb, hlo, hhi⟩
    rcases List.mem_append.mp hb with hb | hb
    · have hhigh := (hs.fits b hb).high
      rw [Block.finish] at hhigh
      omega
    · obtain rfl := List.mem_singleton.mp hb
      simp only [pageBlock] at hhi
      omega
  rw [pageBlock, pageBlock, blockUsed, blockUsed, hsame]

theorem Climbs.le {pages : List Nat} (h : Climbs top pages) : ∀ page ∈ pages, top ≤ page := by
  induction pages generalizing top with
  | nil => simp
  | cons page pages ih =>
    obtain ⟨-, htop, -, hrest⟩ := h
    intro other hother
    rcases List.mem_cons.mp hother with rfl | hother
    · exact htop
    · have := ih hrest other hother
      omega

/-- The loop of `heap_expand` appends the blocks of its pages. -/
theorem Heap.Shows.expandLoop (hs : h.Shows top l) (n : Nat)
    (hclimbs : Climbs top (takePages n h.pages).1) :
    let pages := takePages n h.pages
    (heapExpandLoop n h).Shows (topAfter top pages.1) (l ++ pages.1.map (pageBlock h.mem)) ∧
      (heapExpandLoop n h).pages = pages.2 ∧ pageBlocks n h = pages.1.map (pageBlock h.mem) ∧
      Keeps h.mem (heapExpandLoop n h).mem l (l ++ pages.1.map (pageBlock h.mem)) ∅ := by
  induction n generalizing h top l with
  | zero =>
    simp only [takePages, List.map_nil, List.append_nil]
    exact ⟨hs, rfl, rfl, .refl _ _ _⟩
  | succ n ih =>
    cases hres : PageSource.vmmAllocPage h.pages (pagePresent ||| pageWrite) with
    | mk r t =>
      rw [takePages, hres] at hclimbs
      rw [heapExpandLoop, takePages, pageBlocks, hres]
      dsimp only at hclimbs ⊢
      by_cases hr : r = 0
      · simp only [if_pos hr, List.map_nil, List.append_nil]
        exact ⟨hs.write (fun _ _ => rfl) rfl rfl rfl, trivial, trivial, .refl _ _ _⟩
      · rw [if_neg hr] at hclimbs
        obtain ⟨hmod, htop, hlt, hrest⟩ := hclimbs
        have hsame : Heap.Shows { h with pages := t } top l :=
          hs.write (fun _ _ => rfl) rfl rfl rfl
        obtain ⟨hs', hframe⟩ := hsame.append hmod htop hlt
        obtain ⟨hs'', hpages, hblocks, hkeeps⟩ := ih hs' hrest
        have hflags : (takePages n t).1.map (pageBlock (heapAppend { h with pages := t } r).mem) =
            (takePages n t).1.map (pageBlock h.mem) :=
          List.map_congr_left fun other hother =>
            pageBlock_append hsame hmod htop hlt (hrest.le other hother)
        have hpages' : (heapAppend { h with pages := t } r).pages = t := rfl
        rw [hpages', hflags, List.append_assoc] at hs''
        rw [hpages', hflags] at hblocks
        rw [hpages', hflags, List.append_assoc] at hkeeps
        simp only [if_neg hr, List.map_cons]
        refine ⟨hs'', hpages, congrArg (_ :: ·) hblocks,
          .trans (.of_headers hs.ordered hs'.ordered ?_ ?_) hkeeps⟩
        · exact fun b hb _ _ => List.mem_append_left _ hb
        · exact fun x _ hx => hframe x hx

/-- The blocks that `kmalloc` adds to the list when it finds none of the rounded size. -/
def newBlocks (h : Heap σ) (size : Nat) : List Block :=
  pageBlocks (expandPages (Word32.wrap (size + heapBlockSize))) h

end Expand

/-! ## Allocation and release -/

theorem alignSize_eq (n : Nat) : alignSize n = Word32.wrap (n + 15) / 16 * 16 :=
  Word32.and_not_mask (k := 4) (Word32.wrap_lt _) (by omega)

theorem alignSize_mod (n : Nat) : alignSize n % 16 = 0 := by
  rw [alignSize_eq, Nat.mul_mod_left]

/-- Up to the last multiple of 16, sizes are rounded up. -/
theorem le_alignSize {n : Nat} (h : n ≤ 0xFFFFFFF0) : n ≤ alignSize n := by
  rw [alignSize_eq, Word32.wrap_of_lt (by omega)]
  omega

section Calls

variable {h : Heap σ} {top : Nat} {l l₁ l₂ : List Block} {b : Block}

omit [PageSource σ] in
/-- Taking a free block. -/
theorem Heap.Shows.take (hs : h.Shows top l) (hb : b ∈ l) (hfree : b.used = false) {size : Nat}
    (hmod : size % 16 = 0) (hsize : size ≤ b.size) :
    ∃ h', takeBlock h b.addr size = (b.addr + 16, h') ∧
      h'.Shows top (editAt b.addr (claim · size) l) ∧ h'.pages = h.pages ∧
      Keeps h.mem h'.mem l (editAt b.addr (claim · size) l) ∅ := by
  obtain ⟨l₁, l₂, rfl⟩ := List.append_of_mem hb
  obtain ⟨hs', hpages, hframe⟩ := hs.trim hmod hsize
  obtain ⟨s, rest, htrim, hclaim, -, -, -⟩ := BlockHeap.claim_eq_cons hsize
  rw [htrim] at hs' hframe
  have hmarked := Heap.Shows.mark (b := { b with size := s }) hs' 1
  have hwrap : Word32.wrap (b.addr + heapBlockSize) = b.addr + 16 :=
    Word32.wrap_of_lt hs.block_fits.addr_lt
  rw [hs.ordered.editAt_eq (by omega), hclaim]
  refine ⟨_, by rw [takeBlock, hwrap], hmarked, hpages,
    .of_headers hs.ordered hmarked.ordered ?_ ?_⟩
  · intro c hc hused _
    exact mem_replaced (_ :: rest) hc fun heq => by simp [heq, hfree] at hused
  · intro x _ hx
    rw [← hframe x ?_]
    · have hout : x < b.addr ∨ b.addr + 16 ≤ x := by
        by_contra hin
        exact hx ⟨{ b with size := s, used := true }, by simp, by simp only; omega⟩
      exact onlyHeader_setUsed 1 x hout
    · rintro ⟨c, hc, hin⟩
      rcases List.mem_cons.mp hc with rfl | hc
      · exact hx ⟨{ b with size := s, used := true }, by simp, hin⟩
      · exact hx ⟨c, by simp [hc], hin⟩

omit [PageSource σ] in
theorem Heap.Shows.findFreeBlock (hs : h.Shows top l) (size : Nat) :
    Mm.findFreeBlock h size = some ((BlockHeap.firstFit l size).elim 0 Block.addr) := by
  rw [Mm.findFreeBlock, hs.start]
  exact findLoop_eq hs.segment hs.pos size hs.length_lt

/-- `kmalloc` does what it does on the list, with the blocks of its pages. -/
theorem Heap.Shows.kmalloc (hs : h.Shows top l) (n : Nat)
    (hclimbs : Climbs top (takePages (BlockHeap.wantedPages l n) h.pages).1) :
    let pages := takePages (BlockHeap.wantedPages l n) h.pages
    let r := BlockHeap.kmalloc l (pages.1.map (pageBlock h.mem)) n
    ∃ h', Mm.kmalloc h n = some (r.1, h') ∧ h'.Shows (topAfter top pages.1) r.2 ∧
      h'.pages = pages.2 ∧ Keeps h.mem h'.mem l r.2 ∅ := by
  unfold Mm.kmalloc BlockHeap.kmalloc BlockHeap.wantedPages BlockHeap.claimFirst
  unfold BlockHeap.wantedPages at hclimbs
  by_cases hn : n = 0
  · simp only [hn, if_true, true_or, takePages]
    exact ⟨h, rfl, hs, rfl, .refl _ _ _⟩
  · simp only [hn, if_false, false_or] at hclimbs ⊢
    rw [hs.findFreeBlock]
    rcases BlockHeap.firstFit_cases l (alignSize n) with ⟨b, hb, hfree, hsize, hfit⟩ | ⟨hfit, -⟩
    · obtain ⟨h', htake, hs', hpages, hkeeps⟩ := hs.take hb hfree (alignSize_mod n) hsize
      simp only [hfit, Option.isSome_some, if_true, Option.elim_some, Option.map_some, takePages,
        ne_eq, hs.pos b hb, not_false_eq_true, htake]
      exact ⟨h', rfl, hs', hpages, hkeeps⟩
    · simp only [hfit, Option.isSome_none, Bool.false_eq_true, if_false, Option.elim_none,
        Option.map_none, ne_eq, not_true] at hclimbs ⊢
      obtain ⟨hs', hpages, -, hkeeps⟩ := hs.expandLoop _ hclimbs
      rw [show heapExpand h (Word32.wrap (alignSize n + heapBlockSize)) =
        heapExpandLoop (expandPages (Word32.wrap (alignSize n + heapBlockSize))) h from rfl,
        hs'.findFreeBlock]
      generalize heapExpandLoop (expandPages (Word32.wrap (alignSize n + heapBlockSize))) h = h₁
        at hs' hpages hkeeps ⊢
      generalize takePages (expandPages (Word32.wrap (alignSize n + heapBlockSize))) h.pages =
        pages at hs' hpages hkeeps ⊢
      generalize l ++ pages.1.map (pageBlock h.mem) = l₁ at hs' hkeeps ⊢
      rcases BlockHeap.firstFit_cases l₁ (alignSize n) with
        ⟨b, hb, hfree, hsize, hfit'⟩ | ⟨hfit', -⟩
      · obtain ⟨h', htake, hs'', hpages', hkeeps'⟩ := hs'.take hb hfree (alignSize_mod n) hsize
        simp only [hfit', Option.elim_some, hs'.pos b hb, if_false, htake, Option.map_some,
          Option.getD_some]
        exact ⟨h', rfl, hs'', hpages'.trans hpages, hkeeps.trans hkeeps'⟩
      · simp only [hfit', Option.elim_none, if_true, Option.map_none, Option.getD_none]
        exact ⟨h₁, rfl, hs', hpages, hkeeps⟩

/-- A result of `kmalloc` other than 0 is the pointer of a used block that no used block had
before. There is one when the list has room, or the pages it adds have. -/
theorem Heap.Shows.kmalloc_result (hs : h.Shows top l) (n : Nat)
    (hclimbs : Climbs top (takePages (BlockHeap.wantedPages l n) h.pages).1) :
    let r := BlockHeap.kmalloc l ((takePages (BlockHeap.wantedPages l n) h.pages).1.map
      (pageBlock h.mem)) n
    r.1 = 0 ∧ (n = 0 ∨ ¬ Room (l ++ newBlocks h (alignSize n)) (alignSize n)) ∨
      Room (l ++ newBlocks h (alignSize n)) (alignSize n) ∧
        Fresh l r.1 ∧ ∃ c, Serves r.2 r.1 (alignSize n) c := by
  rcases BlockHeap.kmalloc_cases l ((takePages (BlockHeap.wantedPages l n) h.pages).1.map
    (pageBlock h.mem)) n with ⟨hn, hr⟩ | ⟨hn, k, hk, hresult⟩
  · rw [hr]
    exact .inl ⟨rfl, .inl hn⟩
  · -- `k` is the list that was searched last; it has room if the list with the new blocks has
    have hsearched : Ordered 16 k ∧ l ⊆ k ∧
        (Room k (alignSize n) ↔ Room (l ++ newBlocks h (alignSize n)) (alignSize n)) := by
      rcases hk with ⟨rfl, hroom⟩ | ⟨rfl, hfull⟩
      · exact ⟨hs.ordered, fun c hc => hc,
          iff_of_true hroom (hroom.mono (List.subset_append_left _ _))⟩
      · rw [BlockHeap.wantedPages_of_full hn hfull] at hclimbs ⊢
        obtain ⟨hs₁, -, hblocks, -⟩ := hs.expandLoop _ hclimbs
        rw [newBlocks, hblocks]
        exact ⟨hs₁.ordered, List.subset_append_left _ _, .rfl⟩
    obtain ⟨hordered, hsub, hroom⟩ := hsearched
    rcases hresult with ⟨b, hb, hfree, hsize, hr⟩ | ⟨hfull, hr⟩
    · rw [hr]
      refine .inr ⟨hroom.mp ⟨b, hb, hfree, hsize⟩, ?_, BlockHeap.serves_claim hb hsize⟩
      exact fun c hc => BlockHeap.fresh_of_free hordered hb hfree c (hsub hc)
    · rw [hr]
      exact .inl ⟨rfl, .inr (hroom.not.mp hfull)⟩

/-- `kmalloc` returns and keeps the used blocks. -/
theorem kmalloc_spec (hs : h.Shows top l) (hsupply : Supplies top h.pages) (n : Nat) :
    ∃ r h' top' l', kmalloc h n = some (r, h') ∧ h'.Shows top' l' ∧ Supplies top' h'.pages ∧
      Keeps h.mem h'.mem l l' ∅ ∧
      (r = 0 ∧ (n = 0 ∨ ¬ Room (l ++ newBlocks h (alignSize n)) (alignSize n)) ∨
        Room (l ++ newBlocks h (alignSize n)) (alignSize n) ∧
          Fresh l r ∧ ∃ c, Serves l' r (alignSize n) c) := by
  obtain ⟨hclimbs, hsupply'⟩ := hsupply.climbs (BlockHeap.wantedPages l n)
  obtain ⟨h', hcall, hs', hpages, hkeeps⟩ := hs.kmalloc n hclimbs
  exact ⟨_, h', _, _, hcall, hs', hpages ▸ hsupply', hkeeps, hs.kmalloc_result n hclimbs⟩

omit [PageSource σ] in
/-- The pointer of a block leads back to its header. -/
theorem Heap.Shows.block_of_ptr (hs : h.Shows top l) {ptr : Nat} (hb : BlockAt l ptr b) :
    ptr ≠ 0 ∧ Word32.sub ptr heapBlockSize = b.addr ∧
      blockMagic h.mem b.addr = heapMagic ∧ blockSize h.mem b.addr = b.size := by
  have hfits := hs.fits b hb.mem
  have hlow := hfits.low
  have hlt := hfits.addr_lt
  have hptr := hb.ptr
  obtain ⟨l₁, l₂, rfl⟩ := List.append_of_mem hb.mem
  refine ⟨by omega, ?_, hs.header.magic, hs.header.size⟩
  rw [heapBlockSize, Word32.sub_of_le (by omega) (by omega)]
  omega

omit [PageSource σ] in
/-- `kfree` of the pointer of a block returns and keeps the other used blocks. -/
theorem Heap.Shows.kfree (hs : h.Shows top l) {ptr : Nat} (hb : BlockAt l ptr b) :
    ∃ h', Mm.kfree h ptr = some h' ∧ h'.Shows top (BlockHeap.kfree l ptr) ∧ h'.pages = h.pages ∧
      Keeps h.mem h'.mem l (BlockHeap.kfree l ptr) {b.addr} := by
  obtain ⟨hne, hblock, hmagic, -⟩ := hs.block_of_ptr hb
  have haddr : ptr - 16 = b.addr := by
    have := hb.ptr
    omega
  obtain ⟨l₁, l₂, rfl⟩ := List.append_of_mem hb.mem
  obtain ⟨h', hrelease, hs', hpages, hkeeps, -⟩ := hs.release
  rw [BlockHeap.kfree, if_neg hne, haddr, hs.ordered.editAt_eq (by omega)]
  refine ⟨h', ?_, hs', hpages, hkeeps⟩
  rw [Mm.kfree, if_neg hne, hblock, if_neg (not_not.mpr hmagic), hrelease]

omit [PageSource σ] in
/-- A block gets smaller in place. -/
theorem Heap.Shows.shrink (hs : h.Shows top l) {ptr size : Nat} (hb : BlockAt l ptr b)
    (hmod : size % 16 = 0) (hsize : size ≤ b.size) :
    (trimBlock h b.addr size).Shows top (editAt b.addr (Mm.trim · size) l) ∧
      (trimBlock h b.addr size).pages = h.pages ∧
      Keeps h.mem (trimBlock h b.addr size).mem l (editAt b.addr (Mm.trim · size) l) {b.addr} ∧
      SameOn h.mem (trimBlock h b.addr size).mem ptr (ptr + size) ∧
      (b.used = true → ∃ c, Serves (editAt b.addr (Mm.trim · size) l) ptr size c) := by
  obtain ⟨l₁, l₂, rfl⟩ := List.append_of_mem hb.mem
  obtain ⟨hs', hpages, hframe⟩ := hs.trim hmod hsize
  obtain ⟨s, rest, htrim, -, hle, htight, -⟩ := BlockHeap.claim_eq_cons hsize
  rw [hs.ordered.editAt_eq (by omega)]
  refine ⟨hs', hpages, .of_headers hs.ordered hs'.ordered ?_ ?_, fun x hlo hhi => hframe x ?_,
    fun hused => ⟨{ b with size := s }, ⟨by simp [htrim], hused, hb.ptr, hle⟩, htight⟩⟩
  · exact fun c hc _ hne => mem_replaced _ hc fun heq => hne (by rw [heq]; rfl)
  · exact fun x _ hx => hframe x fun ⟨c, hc, hin⟩ => hx ⟨c, by simp [hc], hin⟩
  · have hptr := hb.ptr
    rintro ⟨c, hc, hin⟩
    unfold Mm.trim at hc
    split_ifs at hc
    · simp only [split, List.mem_cons, List.not_mem_nil, or_false] at hc
      rcases hc with rfl | rfl <;> dsimp only at hin <;> omega
    · obtain rfl := List.mem_singleton.mp hc
      omega

omit [PageSource σ] in
/-- Copying into the payload of a block changes no header and no other payload. -/
theorem Heap.Shows.copy (hs : h.Shows top l) {ptr size n : Nat} (hb : Holds l ptr size b)
    (hn : n ≤ size) (src : Nat) :
    Heap.Shows { h with mem := memcpy h.mem ptr src n } top l ∧
      Keeps h.mem (memcpy h.mem ptr src n) l l {b.addr} := by
  have hhigh := (hs.fits b hb.mem).high
  have htop := hs.top_le
  have hptr := hb.ptr
  have hsize := hb.size
  have hout : ∀ x, x < b.addr + 16 ∨ b.finish 16 ≤ x → memcpy h.mem ptr src n x = h.mem x := by
    intro x hx
    rw [Block.finish] at hx hhigh
    exact memcpy_outside _ _ (by omega) (by omega)
  refine ⟨hs.write (fun x hx => hout x ?_) rfl rfl rfl, fun c hc _ hne => ⟨hc, fun x hlo hhi => ?_⟩⟩
  · by_contra hin
    exact payload_not_inHeaders hs.ordered hb.mem (by omega) (by omega) hx
  · apply hout
    rcases hs.ordered.disjoint hb.mem hc with rfl | hle | hle
    · exact absurd rfl hne
    · omega
    · rw [Block.finish] at hhi hle
      omega

omit [PageSource σ] in
/-- The moving part of `krealloc`: the contents are copied while both blocks are on the list, then
the old one is released. What was copied stays. -/
theorem Heap.Shows.move (hs : h.Shows top l) {ptr dest n : Nat} {c : Block}
    (hb : BlockAt l ptr b) (hc : Holds l dest n c) (hne : c.addr ≠ b.addr) (hn : b.size ≤ n) :
    ∃ h', releaseBlock { h with mem := memcpy h.mem dest ptr b.size } b.addr = some h' ∧
      h'.Shows top (BlockHeap.kfree l ptr) ∧ h'.pages = h.pages ∧
      Keeps h.mem h'.mem l (BlockHeap.kfree l ptr) {b.addr, c.addr} ∧
      Holds (BlockHeap.kfree l ptr) dest n c ∧
      (∀ i < b.size, h'.mem (dest + i) = h.mem (ptr + i)) ∧ blockUsed h'.mem b.addr = 0 := by
  obtain ⟨hs', hcopied⟩ := hs.copy hc hn ptr
  have hptr := hb.ptr
  have haddr : ptr - 16 = b.addr := by omega
  have hcopy : ∀ i < b.size, memcpy h.mem dest ptr b.size (dest + i) = h.mem (ptr + i) := by
    intro i hi
    have hbhigh := (hs.fits b hb.mem).high
    have hchigh := (hs.fits c hc.mem).high
    have htop := hs.top_le
    have hdest := hc.ptr
    have hsize := hc.size
    rw [Block.finish] at hbhigh hchigh
    refine memcpy_inside _ (by omega) (by omega) ?_ hi
    rcases hs.ordered.disjoint hc.mem hb.mem with rfl | hle | hle
    · exact absurd rfl hne
    · rw [Block.finish] at hle
      omega
    · rw [Block.finish] at hle
      omega
  obtain ⟨l₁, l₂, rfl⟩ := List.append_of_mem hb.mem
  obtain ⟨h', hrelease, hs'', hpages, hreleased, hflag⟩ := hs'.release
  obtain ⟨hkept, hsame⟩ := hreleased c hc.mem hc.used hne
  rw [BlockHeap.kfree, if_neg (by omega), haddr, hs.ordered.editAt_eq (by omega)]
  refine ⟨h', hrelease, hs'', hpages, ?_, { hc with mem := hkept }, fun i hi => ?_, hflag⟩
  · exact (hcopied.mono (by simp)).trans (hreleased.mono (by simp))
  · have hdest := hc.ptr
    have hsize := hc.size
    exact (hsame _ (by omega) (by rw [Block.finish]; omega)).trans (hcopy i hi)

/-- Sizes that are rounded up stay the same when rounded again. -/
theorem alignSize_alignSize (n : Nat) : alignSize (alignSize n) = alignSize n := by
  have hlt := Word32.wrap_lt (n + 15)
  rw [alignSize_eq (alignSize n), alignSize_eq n, Word32.wrap_of_lt (by omega)]
  omega

/-- `krealloc` to a size that fits keeps the block where it is. -/
theorem krealloc_of_fits (hs : h.Shows top l) {ptr : Nat} (hb : BlockAt l ptr b) {n : Nat}
    (hn : n ≠ 0) (hfits : alignSize n ≤ b.size) :
    krealloc h ptr n = some (ptr, trimBlock h b.addr (alignSize n)) := by
  obtain ⟨hne, hblock, hmagic, hbsize⟩ := hs.block_of_ptr hb
  rw [krealloc, if_neg hne, if_neg hn]
  simp only [hblock, if_neg (not_not.mpr hmagic), hbsize, if_pos hfits]

/-- What is left of a block `b` after a `krealloc` to `n` bytes that returned `r`: the contents, as
far as both sizes go, are at `r`, and the flag of a block that was moved is 0. -/
structure Carried (m m' : Memory) (b : Block) (r n : Nat) : Prop where
  copied : ∀ i < b.size, i < n → m' (r + i) = m (b.addr + 16 + i)
  released : r ≠ b.addr + 16 → blockUsed m' b.addr = 0

omit [PageSource σ] in
/-- Moving to a block that `kmalloc` has returned since. -/
theorem Heap.Shows.moveNew {h' : Heap σ} {top' : Nat} {l' : List Block} (hs' : h'.Shows top' l')
    (hkeeps : Keeps h.mem h'.mem l l' ∅) {ptr r n : Nat} {c : Block} (hb : BlockAt l ptr b)
    (hb' : b ∈ l') (hfresh : Fresh l r) (hc : Serves l' r n c) (hn : b.size ≤ n) :
    ∃ h₂, releaseBlock { h' with mem := memcpy h'.mem r ptr b.size } b.addr = some h₂ ∧
      h₂.Shows top' (BlockHeap.kfree l' ptr) ∧ h₂.pages = h'.pages ∧
      Keeps h.mem h₂.mem l (BlockHeap.kfree l' ptr) {b.addr} ∧
      (b.used = true → Carried h.mem h₂.mem b r n) ∧ Serves (BlockHeap.kfree l' ptr) r n c := by
  have hptr := hb.ptr
  have hcne : ∀ d ∈ l, d.used = true → d.addr ≠ c.addr := fun d hd hused heq =>
    hfresh d hd hused (by rw [heq, hc.ptr])
  -- the new block is used, so it is not the old one if that is free
  have hcb : c.addr ≠ b.addr := by
    intro heq
    obtain rfl := hs'.ordered.eq_of_addr (by omega) hc.mem hb' heq
    exact hcne c hb.mem hc.used rfl
  obtain ⟨h₂, hrelease, hs₂, hpages, hkeeps₂, hc₂, hcopied, hflag⟩ :=
    hs'.move ⟨hb', hptr⟩ hc.toHolds hcb hn
  refine ⟨h₂, hrelease, hs₂, hpages, fun d hd hused hdne => ?_, fun hused =>
    ⟨fun i hi _ => ?_, fun _ => hflag⟩, hc₂, hc.tight⟩
  · obtain ⟨hd', hsame⟩ := hkeeps d hd hused (by simp)
    obtain ⟨hd₂, hsame₂⟩ := hkeeps₂ d hd' hused (by
      rintro (heq | heq)
      · exact hdne heq
      · exact hcne d hd hused heq)
    exact ⟨hd₂, hsame.trans hsame₂⟩
  · have hsame := (hkeeps b hb.mem hused (by simp)).2
    rw [hcopied i hi, ← hptr]
    exact hsame _ (by omega) (by rw [Block.finish]; omega)

/-- `krealloc` of the pointer of a block does what it does on the list. Unless it is asked for no
bytes, a failing call keeps a used block too, and otherwise the result for one points to a used
block with the contents and is the pointer passed or one that no used block had before. -/
theorem Heap.Shows.krealloc (hs : h.Shows top l) {ptr : Nat} (hb : BlockAt l ptr b) (n : Nat)
    (hclimbs : Climbs top (takePages (BlockHeap.wantedToMove l ptr n) h.pages).1) :
    let pages := takePages (BlockHeap.wantedToMove l ptr n) h.pages
    let r := BlockHeap.krealloc l (pages.1.map (pageBlock h.mem)) ptr n
    ∃ h', Mm.krealloc h ptr n = some (r.1, h') ∧ h'.Shows (topAfter top pages.1) r.2 ∧
      h'.pages = pages.2 ∧ Keeps h.mem h'.mem l r.2 {b.addr} ∧
      (b.used = true → r.1 = 0 ∧ (n = 0 ∨ Keeps h.mem h'.mem l r.2 ∅) ∨
        (r.1 = ptr ∨ Fresh l r.1) ∧ Carried h.mem h'.mem b r.1 (alignSize n) ∧
          ∃ c, Serves r.2 r.1 (alignSize n) c) := by
  obtain ⟨hne, hblock, hmagic, hbsize⟩ := hs.block_of_ptr hb
  have hptr := hb.ptr
  have haddr : ptr - 16 = b.addr := by omega
  have hsizeAt := BlockHeap.sizeAt_eq hs.ordered hb.mem
  unfold BlockHeap.wantedToMove at hclimbs
  unfold BlockHeap.krealloc BlockHeap.wantedToMove
  simp only [if_neg hne]
  rw [haddr, hsizeAt] at hclimbs ⊢
  by_cases hn : n = 0
  · obtain ⟨h', hfree, hs', hpages, hkeeps⟩ := hs.kfree hb
    rw [Mm.krealloc, if_neg hne, if_pos hn, hfree]
    simp only [hn, if_true, true_or, takePages]
    exact ⟨h', rfl, hs', hpages, hkeeps, fun _ => .inl ⟨trivial, trivial⟩⟩
  · by_cases hsize : alignSize n ≤ b.size
    · obtain ⟨hs', hpages, hkeeps, hsame, hserves⟩ := hs.shrink hb (alignSize_mod n) hsize
      rw [krealloc_of_fits hs hb hn hsize]
      simp only [hn, hsize, if_false, if_true, or_true, takePages]
      have hcarried : Carried h.mem (trimBlock h b.addr (alignSize n)).mem b ptr (alignSize n) :=
        ⟨fun i _ hi => hptr ▸ hsame _ (by omega) (by omega), fun hne => absurd hptr.symm hne⟩
      exact ⟨_, rfl, hs', hpages, hkeeps, fun hused =>
        .inr ⟨.inl trivial, hcarried, hserves hused⟩⟩
    · rw [Mm.krealloc, if_neg hne, if_neg hn]
      simp only [hblock, if_neg (not_not.mpr hmagic), hbsize, hsize, hn, or_self, if_false]
        at hclimbs ⊢
      obtain ⟨h', hmalloc, hs', hpages, hkeeps⟩ := hs.kmalloc (alignSize n) hclimbs
      have hresult := hs.kmalloc_result (alignSize n) hclimbs
      have hordered := (hs.expandLoop _ hclimbs).1.ordered
      have hb' := BlockHeap.mem_kmalloc_of_lt hordered hb.mem
        (show b.size < alignSize (alignSize n) by rw [alignSize_alignSize]; omega)
      generalize takePages (BlockHeap.wantedPages l (alignSize n)) h.pages = pages at *
      generalize BlockHeap.kmalloc l (pages.1.map (pageBlock h.mem)) (alignSize n) = r at *
      obtain ⟨r, l'⟩ := r
      dsimp only at *
      simp only [hmalloc]
      by_cases hr : r = 0
      · simp only [if_pos hr]
        exact ⟨h', by rw [hr], hs', hpages, hkeeps.mono (Set.empty_subset _),
          fun _ => .inl ⟨hr, .inr hkeeps⟩⟩
      · simp only [if_neg hr]
        obtain ⟨-, hfresh, c, hc⟩ := hresult.resolve_left fun hnull => hr hnull.1
        rw [alignSize_alignSize] at hc
        have hbsize' := (hs'.block_of_ptr (⟨hb', hptr⟩ : BlockAt l' ptr b)).2.2.2
        obtain ⟨h₂, hrelease, hs₂, hpages₂, hkeeps₂, hcarried, hserves⟩ :=
          hs'.moveNew hkeeps hb hb' hfresh hc (show b.size ≤ alignSize n by omega)
        simp only [hbsize', hrelease]
        exact ⟨h₂, rfl, hs₂, hpages₂.trans hpages, hkeeps₂, fun hused =>
          .inr ⟨.inr hfresh, hcarried hused, c, hserves⟩⟩

theorem krealloc_spec (hs : h.Shows top l) (hsupply : Supplies top h.pages) {ptr size : Nat}
    (hb : Holds l ptr size b) (n : Nat) :
    ∃ r h' top' l', krealloc h ptr n = some (r, h') ∧ h'.Shows top' l' ∧
      Supplies top' h'.pages ∧ Keeps h.mem h'.mem l l' {b.addr} ∧
      (r = 0 ∧ (n = 0 ∨ Keeps h.mem h'.mem l l' ∅) ∨
        (r = ptr ∨ Fresh l r) ∧ ∃ c, Serves l' r (alignSize n) c) := by
  obtain ⟨hclimbs, hsupply'⟩ := hsupply.climbs (BlockHeap.wantedToMove l ptr n)
  obtain ⟨h', hcall, hs', hpages, hkeeps, hresult⟩ := hs.krealloc hb.blockAt n hclimbs
  refine ⟨_, h', _, _, hcall, hs', hpages ▸ hsupply', hkeeps, ?_⟩
  exact (hresult hb.used).imp_right fun ⟨hplace, _, hserves⟩ => ⟨hplace, hserves⟩

end Calls

end HolyOs.Mm
