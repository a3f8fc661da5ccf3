import HolyOs.Mm.HeapPages
import HolyOs.Mm.HeapRequests

/-!
# Coalescing

`kmalloc` adds pages as blocks of their own and splits blocks, and leaves the new pages on the list
when it fails. One pass of `merge_blocks` makes up for all of it, as long as every used block is a
live allocation. A page that holds a byte other than 0 where its `used` flag will be is a block
that nobody frees.
-/
namespace HolyOs.Mm

open HolyOs.Lib BlockList Transition

/-- No two neighbours on the list are both free. -/
def Heap.Coalesced {σ : Type*} (h : Heap σ) : Prop :=
  ∀ block, h.Node block → blockNext h.mem block ≠ 0 →
    blockUsed h.mem block ≠ 0 ∨ blockUsed h.mem (blockNext h.mem block) ≠ 0

/-- The list is one free block, and the rest of the heap is its header. -/
structure Heap.OneFree {σ : Type*} (h : Heap σ) : Prop where
  start : h.heapStart ≠ 0
  alone : blockNext h.mem h.heapStart = 0
  free : blockUsed h.mem h.heapStart = 0
  size : blockSize h.mem h.heapStart + heapBlockSize = getHeapSize h

/-- The next `n` pages hold a zero where the `used` flag will be. -/
def Heap.ZeroFlags {σ : Type*} [PageSource σ] (h : Heap σ) (n : Nat) : Prop :=
  ∀ page ∈ (takePages n h.pages).1, blockUsed h.mem page = 0

instance {σ : Type*} [PageSource σ] (h : Heap σ) (n : Nat) : Decidable (h.ZeroFlags n) :=
  inferInstanceAs (Decidable (∀ page ∈ _, _))

namespace HeapClient

section Guard

variable {σ : Type*} [PageSource σ] (s : HeapClient σ)

/-- The pages that a call takes become free blocks. -/
def Clears : HeapOp → Prop
  | .call c => s.heap.ZeroFlags (s.heap.asks c)
  | .write _ _ => True

instance (op : HeapOp) : Decidable (s.Clears op) :=
  match op with
  | .call c => inferInstanceAs (Decidable (s.heap.ZeroFlags (s.heap.asks c)))
  | .write _ _ => inferInstanceAs (Decidable True)

def ClearStep (op : HeapOp) (t : HeapClient σ) : Prop := s.Clears op ∧ Step Legal s op t

/-- The used blocks are the live allocations. -/
def Owns (l : List Block) : Prop :=
  ∀ b ∈ l, b.used = true → ∃ a ∈ s.live, a.ptr = b.addr + 16

end Guard

end HeapClient

/-! ## The list -/

section List

variable {σ : Type*} {h : Heap σ} {top : Nat} {l : List Block}

theorem Heap.Shows.coalesced (hs : h.Shows top l) (hl : Separated l) : h.Coalesced := by
  intro block hnode hnext
  obtain ⟨b, hb, rfl⟩ := (hs.node_iff block).mp hnode
  obtain ⟨l₁, l₂, rfl⟩ := List.append_of_mem hb
  have hright := (Segment.append.mp hs.segment).2
  rw [hright.1.next] at hnext ⊢
  cases l₂ with
  | nil => exact absurd rfl hnext
  | cons c l₂ =>
    rw [firstAddr_cons, ne_eq, ne_eq, hright.1.used_iff, hright.2.1.used_iff]
    have hneighbours : Separated (b :: c :: l₂) := hl.right_of_append
    simpa using (List.isChain_cons_cons.mp hneighbours).1

theorem Heap.Shows.oneFree (hs : h.Shows top l) (hl : Separated l)
    (hfree : ∀ b ∈ l, b.used = false) : h.OneFree := by
  obtain ⟨b, rfl⟩ := hl.eq_singleton hs.nonempty hfree
  have hheader : HeaderAt h.mem b 0 := hs.segment.1
  have hstart : h.heapStart = b.addr := hs.start
  have hsize := hs.size
  rw [total_cons, total_nil, Nat.add_zero] at hsize
  refine ⟨?_, ?_, ?_, ?_⟩ <;> rw [hstart]
  · exact hs.pos b (by simp)
  · exact hheader.next
  · exact hheader.used_iff.mpr (hfree b (by simp))
  · rw [hheader.size]
    exact hsize.symm

/-- A released block leaves the list coalesced. -/
theorem BlockHeap.separated_kfree {ptr : Nat} (hptr : ptr ≠ 0) :
    Separated (BlockHeap.kfree l ptr) := by
  rw [BlockHeap.kfree, if_neg hptr]
  exact separated_coalesce

end List

/-! ## Runs -/

namespace HeapClient

variable {σ : Type*} [PageSource σ] {s t : HeapClient σ} {top : Nat} {l : List Block}

omit [PageSource σ] in
/-- Every used block after a call is a live allocation, if the new blocks are free. -/
theorem Owns.call (h : s.Owns l) {c : HeapCall} {new : List Block} (h' : Heap σ)
    (hlow : c.passed ≠ 0 → 16 ≤ c.passed) (hnew : ∀ b ∈ new, b.used = false) :
    Owns ⟨h', c.liveAfter s.live (BlockHeap.call l new c).1⟩ (BlockHeap.call l new c).2 := by
  intro b hb hused
  rcases used_of_call s.live hlow hb hused with hlive | ⟨hl | hadded, hstays⟩
  · exact hlive
  · obtain ⟨a, ha, heq⟩ := h b hl hused
    exact ⟨a, hstays a ha heq, heq⟩
  · simp [hnew b hadded] at hused

/-- An accepted call with clear pages does what it does on the list, and the used blocks stay the
live allocations. -/
theorem Owns.step (howns : s.Owns l) (h : s.Sound top l) {c : HeapCall} (haccepts : s.Accepts c)
    (hclear : s.Clears (.call c)) : ∃ new t top', s.call c = some t ∧
      t.Sound top' (BlockHeap.call l new c).2 ∧ t.Owns (BlockHeap.call l new c).2 := by
  obtain ⟨hclimbs, hsupply⟩ := h.supplies.climbs (BlockHeap.wanted l c)
  obtain ⟨h', hexec, hpages, htracks, -⟩ := h.tracks.call haccepts hclimbs
  have hlow : c.passed ≠ 0 → 16 ≤ c.passed := by
    intro hne
    obtain ⟨b, hb⟩ := (h.tracks.blockAt haccepts).resolve_left hne
    have := hb.ptr
    omega
  have hflags : s.heap.ZeroFlags (BlockHeap.wanted l c) := by
    rw [← h.shows.asks_eq (h.tracks.blockAt haccepts)]
    exact hclear
  refine ⟨_, _, _, by rw [call_eq, hexec]; rfl, htracks.sound (hpages ▸ hsupply),
    howns.call h' hlow fun b hb => ?_⟩
  obtain ⟨page, hpage, rfl⟩ := List.mem_map.mp hb
  simp [pageBlock, hflags page hpage]

theorem exists_owns {h : Heap σ} (hsupply : Supplies 0 h.pages) {ops : List HeapOp}
    (hrun : Run ClearStep (start h) ops s) :
    (∃ top l, s.Sound top l ∧ s.Owns l) ∨ s.heap.heapStart = 0 ∧ s.live = [] := by
  refine invariant_or_empty (I := fun s => ∃ top l, s.Sound top l ∧ s.Owns l) hrun
    (fun _ _ _ hstep => hstep.2) (fun hinit => ?_) ?_
  · cases hres : PageSource.vmmAllocPage h.pages (pagePresent ||| pageWrite) with
    | mk page source =>
      rw [heapStart_heapInit hres] at hinit
      refine ⟨_, _, start_sound_of_page hsupply hres hinit, fun b hb hused => ?_⟩
      obtain rfl := List.mem_singleton.mp hb
      cases hused
  · rintro s op t ⟨top, l, h, howns⟩ ⟨hclear, hlegal, henter⟩
    cases op with
    | write addr value =>
      obtain rfl := Option.some.inj henter
      exact ⟨top, l, (h.tracks.write (h.tracks.not_inHeaders hlegal) value).sound h.supplies, howns⟩
    | call c =>
      obtain ⟨new, t', top', hcall, h', howns'⟩ := howns.step h hlegal.1 hclear
      obtain rfl := Option.some.inj (henter.symm.trans hcall)
      exact ⟨top', _, h', howns'⟩

end HeapClient

/-- In every run in which the pages the heap gets hold a zero where the `used` flag will be, with
any page source that returns increasing page addresses or fails, `kfree` of a live pointer returns
and leaves no two free neighbours on the list, and one free block when nothing is live then. -/
theorem kfree_coalesces [PageSource σ] {h : Heap σ} (hsupply : Supplies 0 h.pages)
    {ops : List HeapOp} {s : HeapClient σ} (hrun : Run HeapClient.ClearStep (.start h) ops s)
    {a : Allocation} (ha : a ∈ s.live) :
    ∃ t, s.call (.kfree a.ptr) = some t ∧ t.heap.Coalesced ∧ (t.live = [] → t.heap.OneFree) := by
  rcases HeapClient.exists_owns hsupply hrun with ⟨top, l, hs, howns⟩ | ⟨-, hnone⟩
  · have hclear : s.Clears (.call (.kfree a.ptr)) := by
      simp [HeapClient.Clears, Heap.asks, Heap.ZeroFlags, takePages]
    obtain ⟨new, t, top', hcall, hs', howns'⟩ := howns.step hs (.inr ⟨a, ha, rfl⟩) hclear
    have hsep : Separated (BlockHeap.call l new (.kfree a.ptr)).2 :=
      BlockHeap.separated_kfree (hs.ptr_ne_zero ha)
    refine ⟨t, hcall, hs'.shows.coalesced hsep, fun hlive => hs'.shows.oneFree hsep ?_⟩
    intro b hb
    by_contra hused
    obtain ⟨a, ha, -⟩ := howns' b hb (by simpa using hused)
    simp [hlive] at ha
  · simp [hnone] at ha

/-- A call that is accepted and gets clear pages. -/
def HeapClient.attemptClear (s : HeapClient PageScript) (op : HeapOp) :
    Option (HeapClient PageScript) :=
  if s.Clears op then s.attempt op else none

theorem HeapClient.clearStep_of_attempt {s t : HeapClient PageScript} {op : HeapOp}
    (h : s.attemptClear op = some t) : s.ClearStep op t := by
  unfold attemptClear at h
  split_ifs at h with hclear
  exact ⟨hclear, step_of_attempt h⟩

/-- Two pages, of which the second is freed last. -/
theorem kfree_coalesces_contiguous : ∃ s : HeapClient PageScript, s.live = [⟨0xC0001010, 100⟩] ∧
    ∃ t, s.call (.kfree 0xC0001010) = some t ∧ t.heap.Coalesced ∧
      (t.live = [] → t.heap.OneFree) := by
  obtain ⟨s, hops, hlive⟩ : ∃ s, [HeapOp.call (.kmalloc 4080), .call (.kmalloc 100),
      .call (.kfree 0xC0000010)].foldlM HeapClient.attemptClear (.start PageScript.contiguous) =
        some s ∧ s.live = [⟨0xC0001010, 100⟩] := exists_some (by decide +kernel)
  have hrun : Run HeapClient.ClearStep (.start PageScript.contiguous) _ s :=
    .of_foldlM HeapClient.clearStep_of_attempt hops
  exact ⟨s, hlive, kfree_coalesces PageScript.contiguous_supplies hrun (a := ⟨0xC0001010, 100⟩)
    (by simp [hlive])⟩

end HolyOs.Mm
