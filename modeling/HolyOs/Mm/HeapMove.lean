import HolyOs.Mm.HeapPages
import HolyOs.Mm.HeapRequests

/-!
# Moving a block

`krealloc` shrinks a block in place, moves it, or fails, and whichever it does the data of the
caller survives. The block that was moved from is coalesced with its neighbours, so it need not be
on the list any more. What is said of it is where on the list it was.
-/
namespace HolyOs.Mm

open ByteMemory HolyOs.Lib BlockList Transition

section Blocks

variable {σ : Type*}

/-- The block of `ptr` is on the list of `h'`, used, and of the size and with the contents it has in
`h`. -/
structure Heap.Retains (h h' : Heap σ) (ptr : Nat) : Prop where
  node : h'.Node (Word32.sub ptr heapBlockSize)
  used : blockUsed h'.mem (Word32.sub ptr heapBlockSize) ≠ 0
  size : blockSize h'.mem (Word32.sub ptr heapBlockSize) =
    blockSize h.mem (Word32.sub ptr heapBlockSize)
  contents : SameOn h.mem h'.mem ptr (ptr + blockSize h.mem (Word32.sub ptr heapBlockSize))

/-- The flag of the block is 0, and the list has a free block that starts no later and is followed
by none that starts before the end of the block. -/
structure Heap.Reclaims (h : Heap σ) (block size : Nat) : Prop where
  flag : blockUsed h.mem block = 0
  listed : ∃ node, h.Node node ∧ blockUsed h.mem node = 0 ∧ node ≤ block ∧
    (blockNext h.mem node = 0 ∨ block + heapBlockSize + size ≤ blockNext h.mem node)

/-- What `krealloc` of a live pointer does to the data when it returns `r`. -/
structure HeapClient.Reallocated (s : HeapClient σ) (ptr size r : Nat) (h : Heap σ) : Prop where
  others : ∀ a ∈ s.live, a.ptr ≠ ptr → s.heap.Retains h a.ptr
  failed : r = 0 → s.heap.Retains h ptr
  copied : r ≠ 0 → ∀ i < min (blockSize s.heap.mem (Word32.sub ptr heapBlockSize)) size,
    h.mem (r + i) = s.heap.mem (ptr + i)
  reclaimed : r ≠ 0 → r ≠ ptr → h.Reclaims (Word32.sub ptr heapBlockSize)
    (blockSize s.heap.mem (Word32.sub ptr heapBlockSize))

end Blocks

/-! ## The list -/

namespace BlockHeap

variable {l new : List Block} {b : Block} {ptr n : Nat}

/-- Where a released block is on the list. -/
theorem exists_free_kfree (hl : Ordered 16 l) (hb : BlockAt l ptr b) :
    ∃ l₁ c l₂, kfree l ptr = l₁ ++ c :: l₂ ∧ c.used = false ∧ c.addr ≤ b.addr ∧
      ∀ d ∈ l₂, b.finish 16 ≤ d.addr := by
  have hptr := hb.ptr
  obtain ⟨l₁, l₂, rfl⟩ := List.append_of_mem hb.mem
  have hmarked : Within 16 [{ b with used := false }] b :=
    ⟨by simp [Ordered], by simp [Block.finish]⟩
  rw [kfree, if_neg (by omega), show ptr - 16 = b.addr by omega, hl.editAt_eq (by omega)]
  exact exists_free_coalesce (x := { b with used := false }) (hl.replace hmarked) (by simp) rfl

/-- A result other than 0 and the pointer passed is that of a block for the rounded size, and the
old block is released. -/
theorem krealloc_moved (hptr : ptr ≠ 0) (hr : (krealloc l new ptr n).1 ≠ 0)
    (hne : (krealloc l new ptr n).1 ≠ ptr) : n ≠ 0 ∧ sizeAt l (ptr - 16) < alignSize n ∧
      (krealloc l new ptr n).2 = kfree (kmalloc l new (alignSize n)).2 ptr := by
  unfold krealloc at hr hne ⊢
  rw [if_neg hptr] at hr hne ⊢
  dsimp only at hr hne ⊢
  split_ifs at hr hne ⊢ with hn hfits hnull
  · exact absurd rfl hr
  · exact absurd rfl hne
  · exact absurd hnull hr
  · exact ⟨hn, by omega, rfl⟩

end BlockHeap

/-! ## The heap -/

section Heap

variable {σ : Type*} {h h' : Heap σ} {top top' ptr size : Nat} {l l' : List Block} {b : Block}
  {E : Set Nat}

theorem Keeps.retains (hkeeps : Keeps h.mem h'.mem l l' E) (hs : h.Shows top l)
    (hs' : h'.Shows top' l') (hb : Holds l ptr size b) (hE : b.addr ∉ E) : h.Retains h' ptr := by
  obtain ⟨hmem, hsame⟩ := hkeeps b hb.mem hb.used hE
  obtain ⟨-, hblock, -, hsize⟩ := hs.block_of_ptr hb.blockAt
  have hb' : BlockAt l' ptr b := ⟨hmem, hb.ptr⟩
  obtain ⟨-, -, -, hsize'⟩ := hs'.block_of_ptr hb'
  obtain ⟨next, hheader⟩ := hs'.header_of_mem hmem
  have hptr := hb.ptr
  refine ⟨?_, ?_, ?_, ?_⟩ <;> rw [hblock]
  · exact (hs'.node_iff _).mpr ⟨b, hmem, rfl⟩
  · rw [ne_eq, hheader.used_iff, hb.used]
    simp
  · rw [hsize, hsize']
  · rw [hsize]
    exact hsame.mono (by omega) (by rw [Block.finish]; omega)

/-- A free block of the list, with the blocks behind it. -/
theorem Heap.Shows.listed {l₁ l₂ : List Block} {c : Block} {start finish : Nat}
    (hs : h.Shows top (l₁ ++ c :: l₂)) (hfree : c.used = false) (hle : c.addr ≤ start)
    (hbehind : ∀ d ∈ l₂, finish ≤ d.addr) : ∃ node, h.Node node ∧ blockUsed h.mem node = 0 ∧
      node ≤ start ∧ (blockNext h.mem node = 0 ∨ finish ≤ blockNext h.mem node) := by
  refine ⟨c.addr, (hs.node_iff _).mpr ⟨c, by simp, rfl⟩, hs.header.used_iff.mpr hfree, hle, ?_⟩
  rw [hs.header.next]
  cases l₂ with
  | nil => exact .inl rfl
  | cons d l₂ => exact .inr (hbehind d (by simp))

/-- Where the block that `krealloc` moved from is on the list. -/
theorem Heap.Shows.krealloc_listed [PageSource σ] {n : Nat} (hs : h.Shows top l)
    (hb : Holds l ptr size b)
    (hclimbs : Climbs top (takePages (BlockHeap.wantedToMove l ptr n) h.pages).1)
    {r : Nat × List Block} (hr : BlockHeap.krealloc l ((takePages (BlockHeap.wantedToMove l ptr n)
      h.pages).1.map (pageBlock h.mem)) ptr n = r) (hs' : h'.Shows top' r.2) (hnull : r.1 ≠ 0)
    (hmoved : r.1 ≠ ptr) : ∃ node, h'.Node node ∧ blockUsed h'.mem node = 0 ∧ node ≤ b.addr ∧
      (blockNext h'.mem node = 0 ∨ b.finish 16 ≤ blockNext h'.mem node) := by
  subst hr
  obtain ⟨hn, hgrows, heq⟩ := BlockHeap.krealloc_moved (hs.block_of_ptr hb.blockAt).1 hnull hmoved
  have hwanted : BlockHeap.wantedToMove l ptr n = BlockHeap.wantedPages l (alignSize n) :=
    if_neg (by omega)
  rw [hwanted] at hclimbs heq hs'
  obtain ⟨h₁, -, hs₁, -, hkeeps⟩ := hs.kmalloc (alignSize n) hclimbs
  have hkept := (hkeeps b hb.mem hb.used (by simp)).1
  obtain ⟨l₁, c, l₂, hlist, hfree, hle, hbehind⟩ :=
    BlockHeap.exists_free_kfree hs₁.ordered ⟨hkept, hb.ptr⟩
  rw [heq, hlist] at hs'
  exact hs'.listed hfree hle hbehind

end Heap

namespace HeapClient

variable {σ : Type*} [PageSource σ] {s : HeapClient σ} {top size : Nat} {l : List Block}

/-- Every state a legal run reaches is sound, or has no allocations for want of a first page. -/
theorem exists_sound_or_empty {h : Heap σ} (hsupply : Supplies 0 h.pages) {ops : List HeapOp}
    (hrun : Run (Step Legal) (start h) ops s) :
    (∃ top l, s.Sound top l) ∨ s.heap.heapStart = 0 ∧ s.live = [] :=
  invariant_or_empty (I := fun s => ∃ top l, s.Sound top l) hrun (fun _ _ _ => id)
    (start_sound hsupply) fun _ _ _ ⟨_, _, hs⟩ hstep => hs.step hstep

/-- What `krealloc` of a live pointer does to the data. -/
theorem Sound.krealloc (h : s.Sound top l) {a : Allocation} (ha : a ∈ s.live)
    (hround : size ≤ alignSize size) : ∃ r h', Mm.krealloc s.heap a.ptr size = some (r, h') ∧
      (size ≠ 0 → s.Reallocated a.ptr size r h') := by
  obtain ⟨b, hb⟩ := h.holds a ha
  have hptr := hb.ptr
  obtain ⟨hne, hblock, -, hsize⟩ := h.shows.block_of_ptr hb.blockAt
  obtain ⟨hclimbs, -⟩ := h.supplies.climbs (BlockHeap.wantedToMove l a.ptr size)
  obtain ⟨h', hcall, hs, -, hkeeps, hresult⟩ := h.shows.krealloc hb.blockAt size hclimbs
  refine ⟨_, h', hcall, fun hpos => ?_⟩
  have hothers : ∀ d ∈ s.live, d.ptr ≠ a.ptr → s.heap.Retains h' d.ptr := by
    intro d hd hother
    obtain ⟨c, hc⟩ := h.holds d hd
    refine hkeeps.retains h.shows hs hc fun haddr => hother ?_
    rw [← hc.ptr, ← hptr, Set.mem_singleton_iff.mp haddr]
  rcases hresult hb.used with ⟨hzero, hkept⟩ | ⟨-, hcarried, c, hc⟩
  · have hretains := (hkept.resolve_left hpos).retains h.shows hs hb (by simp)
    exact ⟨hothers, fun _ => hretains, fun hr => absurd hzero hr, fun hr => absurd hzero hr⟩
  · have hr := (hs.block_of_ptr hc.blockAt).1
    refine ⟨hothers, fun hzero => absurd hzero hr, fun _ i hi => ?_, fun _ hmoved => ?_⟩
    · rw [hblock, hsize] at hi
      obtain ⟨hold, hnew⟩ := Nat.lt_min.mp hi
      exact hptr ▸ hcarried.copied i hold (hnew.trans_le hround)
    · rw [hblock, hsize]
      exact ⟨hcarried.released (by rwa [hptr]), h.shows.krealloc_listed hb hclimbs rfl hs hr hmoved⟩

end HeapClient

/-- In every run after `heap_init`, with any page source that returns increasing page addresses or
fails, `krealloc` of a live pointer to a size that can be rounded up returns. The contents are at
the pointer it returns, or the block is as it was, and so are the other live allocations. -/
theorem krealloc_preserves_data [PageSource σ] {h : Heap σ} (hsupply : Supplies 0 h.pages)
    {ops : List HeapOp} {s : HeapClient σ}
    (hrun : Run (HeapClient.Step HeapClient.Legal) (.start h) ops s) {a : Allocation}
    (ha : a ∈ s.live) {size : Nat} (hpos : 1 ≤ size) (hmax : size ≤ 0xFFFFFFF0) :
    ∃ r h', krealloc s.heap a.ptr size = some (r, h') ∧ s.Reallocated a.ptr size r h' := by
  rcases HeapClient.exists_sound_or_empty hsupply hrun with ⟨top, l, hs⟩ | ⟨-, hnone⟩
  · obtain ⟨r, h', hcall, hdata⟩ := hs.krealloc ha (le_alignSize hmax)
    exact ⟨r, h', hcall, hdata (by omega)⟩
  · simp [hnone] at ha

/-- A block with another one behind it, which cannot grow where it is. -/
theorem krealloc_preserves_data_contiguous : ∃ s : HeapClient PageScript,
    s.live = [⟨0xC0000090, 16⟩, ⟨0xC0000010, 100⟩] ∧
      ∃ r h', krealloc s.heap 0xC0000010 200 = some (r, h') ∧
        s.Reallocated 0xC0000010 200 r h' := by
  obtain ⟨s, hops, hlive⟩ : ∃ s, [HeapOp.call (.kmalloc 100), .call (.kmalloc 16)].foldlM
      HeapClient.attempt (.start PageScript.contiguous) = some s ∧
        s.live = [⟨0xC0000090, 16⟩, ⟨0xC0000010, 100⟩] := exists_some (by decide +kernel)
  have hrun : Run (HeapClient.Step HeapClient.Legal) (.start PageScript.contiguous) _ s :=
    .of_foldlM HeapClient.step_of_attempt hops
  exact ⟨s, hlive, krealloc_preserves_data PageScript.contiguous_supplies hrun
    (a := ⟨0xC0000010, 100⟩) (by simp [hlive]) (by decide) (by decide)⟩

end HolyOs.Mm
