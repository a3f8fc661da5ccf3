import HolyOs.Mm.HeapPages

/-!
# Freed pointers

Clients that free a pointer again after it was freed. The magic number stays in memory when a
block is merged into the one before it, and the block that `kfree` finds below a freed pointer
need not be on the list: what it sets to 0 is then a byte of whatever is there now.

The list never changes by such a call but for merging, and the allocations are as before unless
that byte is one of theirs and not 0.
-/
namespace HolyOs.Mm

open ByteMemory HolyOs.Lib BlockList Transition

/-- The clients, and every pointer the heap returned to them. -/
structure TracedClient where
  client : SharedHeap
  returned : List Nat

/-- An operation, or `kfree` of a pointer that was freed. -/
inductive TracedOp
  | shared (op : SharedOp)
  | freeAgain (ptr : Nat)

namespace TracedClient

variable (s : TracedClient)

/-- The pointer was returned, and no live allocation has it. -/
def Freed (ptr : Nat) : Prop := ptr ∈ s.returned ∧ ∀ a ∈ s.client.live, a.ptr ≠ ptr

instance (ptr : Nat) : Decidable (s.Freed ptr) := inferInstanceAs (Decidable (_ ∧ _))

def enter : TracedOp → Option TracedClient
  | .shared (.heap op) => (s.client.enter op).map fun t =>
      ⟨t, t.live.map Allocation.ptr ++ s.returned⟩
  | .shared (.allocPage flags) => some { s with client := s.client.allocPage flags }
  | .freeAgain ptr => (kfree s.client.heap ptr).map fun h =>
      { s with client := { s.client with heap := h } }

def Allowed : TracedOp → Prop
  | .shared (.heap op) => s.client.Legal op
  | .shared (.allocPage _) => True
  | .freeAgain ptr => s.Freed ptr

/-- The heap gets its pages from a counter above the pages it has. -/
def PagesClimb : TracedOp → Prop
  | .shared (.heap (.call c)) =>
      s.client.heap.pages.CounterAboveFor (s.client.heap.asks c)
  | _ => True

def Step (op : TracedOp) (t : TracedClient) : Prop := s.Allowed op ∧ s.enter op = some t

def ClimbingStep (op : TracedOp) (t : TracedClient) : Prop := s.PagesClimb op ∧ s.Step op t

/-- The clients after `heap_init`. -/
def start (p : Pmm) (ram : Memory) (before : List Nat) (mem : Memory) : TracedClient :=
  ⟨.start p ram before mem, []⟩

/-- Every live allocation has its block, used and of the same size, and its contents in `h`. -/
def Unharmed (h : Heap (Logged Vmm)) : Prop := ∀ a ∈ s.client.live,
  let block := Word32.sub a.ptr heapBlockSize
  blockUsed h.mem block ≠ 0 ∧ blockSize h.mem block = blockSize s.client.heap.mem block ∧
    SameOn s.client.heap.mem h.mem a.ptr (a.ptr + blockSize s.client.heap.mem block)

/-- There is a magic number below the pointer, and where `used` would be a byte other than 0 of a
live allocation. -/
def Hits (ptr : Nat) : Prop :=
  let block := Word32.sub ptr heapBlockSize
  blockMagic s.client.heap.mem block = heapMagic ∧ blockUsed s.client.heap.mem block ≠ 0 ∧
    ∃ a ∈ s.client.live, a.ptr ≤ block + 12 ∧ block + 12 <
      a.ptr + blockSize s.client.heap.mem (Word32.sub a.ptr heapBlockSize)

end TracedClient

/-! ## Releasing a header -/

section Release

variable {σ : Type*} {h : Heap σ} {top ptr : Nat} {l : List Block}

/-- Clearing the flag of a free block, or of a header that is not on the list, changes no block. -/
theorem Heap.Shows.clear (hs : h.Shows top l) {block : Nat} (hmod : block % 16 = 0)
    (hfree : ∀ b ∈ l, b.addr = block → b.used = false) :
    Heap.Shows { h with mem := setUsed h.mem block 0 } top l := by
  by_cases hnode : ∃ b ∈ l, b.addr = block
  · obtain ⟨b, hb, rfl⟩ := hnode
    have hb' := hfree b hb rfl
    obtain ⟨l₁, l₂, rfl⟩ := List.append_of_mem hb
    have hmark := hs.mark 0
    rwa [show ({ b with used := decide ((0 : UInt8) ≠ 0) } : Block) = b by
      cases b
      simp_all] at hmark
  · refine hs.write (fun x hx => if_neg ?_) rfl rfl rfl
    rintro rfl
    obtain ⟨b, hb, hlo, hhi⟩ := hx
    have haddr := (hs.fits b hb).addr_mod
    exact hnode ⟨b, hb, by omega⟩

/-- `kfree` of such a pointer coalesces the list, or does nothing. Outside the headers it writes
one byte at most. -/
theorem Heap.Shows.kfree_again (hs : h.Shows top l) (hptr : ptr ≠ 0)
    (hmod : Word32.sub ptr heapBlockSize % 16 = 0)
    (hfree : ∀ b ∈ l, b.addr = Word32.sub ptr heapBlockSize → b.used = false) :
    ∃ h' l', Mm.kfree h ptr = some h' ∧ h'.Shows top l' ∧ h'.pages = h.pages ∧
      (∀ b, b.used = true → (b ∈ l' ↔ b ∈ l)) ∧
      ∀ x, ¬ InHeaders l x → h'.mem x =
        if blockMagic h.mem (Word32.sub ptr heapBlockSize) = heapMagic ∧
          x = Word32.sub ptr heapBlockSize + 12 then 0 else h.mem x := by
  rw [Mm.kfree, if_neg hptr]
  by_cases hmagic : blockMagic h.mem (Word32.sub ptr heapBlockSize) = heapMagic
  · obtain ⟨h', hmerge, hs', hpages, hframe, -⟩ := (hs.clear hmod hfree).merge
    refine ⟨h', _, (if_neg (not_not.mpr hmagic)).trans hmerge, hs', hpages,
      fun b hused => mem_coalesce_of_used hused, fun x hx => (hframe x hx).trans ?_⟩
    simp only [hmagic, true_and]
    rfl
  · refine ⟨h, l, if_pos hmagic, hs, rfl, fun _ _ => .rfl, fun x _ => ?_⟩
    rw [if_neg fun hx => hmagic hx.1]

end Release

/-! ## Runs -/

theorem Climbs.le_topAfter {top : Nat} {pages : List Nat} (h : Climbs top pages) :
    top ≤ topAfter top pages := by
  induction pages generalizing top with
  | nil => exact Nat.le_refl _
  | cons page pages ih =>
    obtain ⟨-, htop, -, hrest⟩ := h
    have := ih hrest
    rw [topAfter]
    omega

namespace TracedClient

variable {s t : TracedClient} {top top' ptr : Nat} {l l' : List Block}

/-- A pointer that the heap returned: behind a header, and below the pages to come. -/
structure InPlace (top ptr : Nat) : Prop where
  aligned : ptr % 16 = 0
  low : 4112 ≤ ptr
  below : ptr ≤ top

/-- The invariant: no used block has a freed pointer. -/
structure Kept (s : TracedClient) (top : Nat) (l : List Block) : Prop where
  paged : s.client.Paged top l
  inPlace : ∀ ptr ∈ s.returned, InPlace top ptr
  freed : ∀ ptr, s.Freed ptr → ∀ b ∈ l, b.addr + 16 = ptr → b.used = false

theorem InPlace.of_paged {u : SharedHeap} (h : u.Paged top l) {a : Allocation} (ha : a ∈ u.live) :
    InPlace top a.ptr := by
  obtain ⟨b, hb⟩ := h.holds a ha
  have hptr := hb.ptr
  have hfits := h.shows.fits b hb.mem
  have hhigh := hfits.high
  rw [Block.finish] at hhigh
  exact ⟨by have := hfits.addr_mod; omega, by have := hfits.low; omega, by omega⟩

/-- Operations that leave the allocations alone, and make no block used. -/
theorem Kept.congr (h : s.Kept top l) {u : SharedHeap} (hpaged : u.Paged top l')
    (hlive : u.live = s.client.live) (hused : ∀ b, b.used = true → b ∈ l' → b ∈ l)
    {returned : List Nat} (hreturned : ∀ ptr ∈ returned, ptr ∈ s.returned ∨
      ∃ a ∈ s.client.live, a.ptr = ptr) :
    Kept ⟨u, returned⟩ top l' where
  paged := hpaged
  inPlace ptr hptr := by
    rcases hreturned ptr hptr with hbefore | ⟨a, ha, rfl⟩
    · exact h.inPlace ptr hbefore
    · exact .of_paged h.paged ha
  freed := by
    rintro ptr ⟨hptr, hnone⟩ b hb haddr
    by_contra hfree
    rw [hlive] at hnone
    have hbefore := (hreturned ptr hptr).resolve_right fun ⟨a, ha, heq⟩ => hnone a ha heq
    have hmem := hused b (by simpa using hfree) hb
    exact hfree (h.freed ptr ⟨hbefore, hnone⟩ b hmem haddr)

theorem Kept.call (h : s.Kept top l) {c : HeapCall} (haccepts : s.client.Accepts c)
    (habove : s.client.heap.pages.CounterAboveFor (s.client.heap.asks c)) {u : SharedHeap}
    (hcall : s.client.call c = some u) :
    ∃ top' l', Kept ⟨u, u.live.map Allocation.ptr ++ s.returned⟩ top' l' := by
  obtain ⟨hclimbs, h', hexec, -, hpaged⟩ := h.paged.call haccepts habove
  rw [HeapClient.call_eq, hexec] at hcall
  obtain rfl := Option.some.inj hcall
  have htop := hclimbs.le_topAfter
  have hlow : c.passed ≠ 0 → 16 ≤ c.passed := by
    intro hne
    obtain ⟨a, ha, hptr⟩ := haccepts.resolve_left hne
    have := (InPlace.of_paged h.paged ha).low
    omega
  refine ⟨_, _, hpaged, fun ptr hptr => ?_, ?_⟩
  · rcases List.mem_append.mp hptr with hptr | hptr
    · obtain ⟨a, ha, rfl⟩ := List.mem_map.mp hptr
      exact .of_paged hpaged ha
    · exact { h.inPlace ptr hptr with below := (h.inPlace ptr hptr).below.trans htop }
  · rintro ptr ⟨hptr, hnone⟩ b hb haddr
    by_contra hused
    have hptr' : ptr ∈ s.returned := by
      refine (List.mem_append.mp hptr).resolve_left fun hlive => ?_
      obtain ⟨a, ha, heq⟩ := List.mem_map.mp hlive
      exact hnone a ha heq
    rcases used_of_call s.client.live hlow hb (by simpa using hused) with
      ⟨a, ha, heq⟩ | ⟨hl | hnew, hstays⟩
    · exact hnone a ha (heq.trans haddr)
    · -- the block was used before, so its pointer was live, and is
      have hlive : ∃ a ∈ s.client.live, a.ptr = ptr := by
        by_contra hfreed
        push Not at hfreed
        exact hused (h.freed ptr ⟨hptr', hfreed⟩ b hl haddr)
      obtain ⟨a, ha, heq⟩ := hlive
      exact hnone a (hstays a ha (heq.trans haddr.symm)) heq
    · -- new blocks are above every pointer that was returned
      obtain ⟨page, hpage, rfl⟩ := List.mem_map.mp hnew
      have hbelow := (h.inPlace ptr hptr').below
      have habove := hclimbs.le page hpage
      simp only [pageBlock] at haddr
      omega

/-- `kfree` of a freed pointer returns. The used blocks stay on the list, and their contents change
by one byte at most. -/
theorem Kept.freeAgain (h : s.Kept top l) (hfreed : s.Freed ptr) :
    ∃ h' l', kfree s.client.heap ptr = some h' ∧ h'.Shows top l' ∧
      h'.pages = s.client.heap.pages ∧ (∀ b, b.used = true → (b ∈ l' ↔ b ∈ l)) ∧
      ∀ x, ¬ InHeaders l x → h'.mem x =
        if blockMagic s.client.heap.mem (Word32.sub ptr heapBlockSize) = heapMagic ∧
          x = Word32.sub ptr heapBlockSize + 12 then 0 else s.client.heap.mem x := by
  have hplace := h.inPlace ptr hfreed.1
  have hmod := hplace.aligned
  have hlow := hplace.low
  have hbelow := hplace.below
  have htop := h.paged.shows.top_le
  -- a pointer of 4 GiB is not returned: its block would have no room below `top`
  have hblock : Word32.sub ptr heapBlockSize % 16 = 0 := by
    simp only [Word32.sub, heapBlockSize]
    omega
  refine h.paged.shows.kfree_again (by omega) hblock fun b hb haddr => ?_
  refine h.freed ptr hfreed b hb ?_
  have hlt := (h.paged.shows.fits b hb).addr_lt
  simp only [Word32.sub, heapBlockSize] at haddr
  omega

theorem Kept.step (h : s.Kept top l) {op : TracedOp} (hstep : s.ClimbingStep op t) :
    ∃ top' l', Kept t top' l' := by
  obtain ⟨hclimb, hallowed, henter⟩ := hstep
  cases op with
  | freeAgain ptr =>
    obtain ⟨h', l', hkfree, hs', hpages, hused, -⟩ := h.freeAgain hallowed
    rw [TracedClient.enter, hkfree] at henter
    obtain rfl := Option.some.inj henter
    have hpaged : SharedHeap.Paged { s.client with heap := h' } top l' := by
      refine ⟨⟨hs', h.paged.distinct, fun a ha => ?_⟩, ?_, ?_⟩
      · obtain ⟨b, hb⟩ := h.paged.holds a ha
        exact ⟨b, { hb with mem := (hused b hb.used).mpr hb.mem }⟩
      · exact hpages ▸ h.paged.ends
      · rw [SharedHeap.vmm, hpages]
        exact h.paged.aligned
    exact ⟨top, l', h.congr hpaged rfl (fun b hb => (hused b hb).mp) fun _ => .inl⟩
  | shared op =>
    cases op with
    | allocPage flags =>
      obtain rfl := Option.some.inj henter
      exact ⟨top, l, h.congr (h.paged.allocPage flags) rfl (fun _ _ => id) fun _ => .inl⟩
    | heap op =>
      obtain ⟨u, hu, rfl⟩ := Option.map_eq_some_iff.mp henter
      cases op with
      | write addr value =>
        obtain rfl := Option.some.inj hu
        refine ⟨top, l, h.congr (h.paged.write hallowed) rfl (fun _ _ => id) fun ptr hptr => ?_⟩
        exact (List.mem_append.mp hptr).symm.imp_right List.mem_map.mp
      | call c => exact h.call hallowed.1 hclimb hu

/-- Every state that is reached keeps the invariant, or has no blocks and no freed pointer. -/
theorem exists_kept {p : Pmm} {ram mem : Memory} {before : List Nat} {ops : List TracedOp}
    (hrun : Run ClimbingStep (start p ram before mem) ops s) :
    (∃ top l, s.Kept top l) ∨
      s.client.heap.heapStart = 0 ∧ s.client.live = [] ∧ s.returned = [] := by
  refine hrun.invariant (I := fun s => (∃ top l, s.Kept top l) ∨
    s.client.heap.heapStart = 0 ∧ s.client.live = [] ∧ s.returned = []) ?_ ?_
  · rcases SharedHeap.Paged.init (h := SharedHeap.fresh p ram before mem) rfl
      (SharedHeap.counterAligned_vmmAfter p ram before) with ⟨page, hpaged, -⟩ | ⟨hstart, hlive⟩
    · exact .inl ⟨_, _, hpaged, fun _ hptr => (List.not_mem_nil hptr).elim,
        fun _ hfreed => (List.not_mem_nil hfreed.1).elim⟩
    · exact .inr ⟨hstart, hlive, rfl⟩
  · rintro s op t (⟨top, l, h⟩ | ⟨hstart, hlive, hnone⟩) hstep
    · exact .inl (h.step hstep)
    · refine .inr ?_
      obtain ⟨-, hallowed, henter⟩ := hstep
      cases op with
      | freeAgain ptr => exact absurd hallowed.1 (by simp [hnone])
      | shared op =>
        cases op with
        | allocPage flags =>
          obtain rfl := Option.some.inj henter
          exact ⟨hstart, hlive, hnone⟩
        | heap op =>
          obtain ⟨u, hu, rfl⟩ := Option.map_eq_some_iff.mp henter
          obtain ⟨hstart', hlive'⟩ := HeapClient.enter_of_empty hstart hlive hallowed hu
          exact ⟨hstart', hlive', by simp [hlive', hnone]⟩

/-- What `kfree` of a freed pointer leaves unharmed. -/
theorem Kept.unharmed_iff (h : s.Kept top l) (hfreed : s.Freed ptr) :
    ∃ h', kfree s.client.heap ptr = some h' ∧ (s.Unharmed h' ↔ ¬ s.Hits ptr) := by
  obtain ⟨h', l', hkfree, hs', -, hused, hframe⟩ := h.freeAgain hfreed
  refine ⟨h', hkfree, ?_⟩
  -- an address in the block of a live allocation is in no header
  have hpayload : ∀ a ∈ s.client.live, ∀ x, a.ptr ≤ x →
      x < a.ptr + blockSize s.client.heap.mem (Word32.sub a.ptr heapBlockSize) →
        ¬ InHeaders l x := by
    intro a ha x hlo hhi
    obtain ⟨b, hb⟩ := h.paged.holds a ha
    obtain ⟨-, hblock, -, hsize⟩ := h.paged.shows.block_of_ptr hb.blockAt
    have hptr := hb.ptr
    rw [hblock, hsize] at hhi
    exact payload_not_inHeaders h.paged.shows.ordered hb.mem (by omega)
      (by rw [Block.finish]; omega)
  constructor
  · rintro hunharmed ⟨hmagic, hbyte, a, ha, hlo, hhi⟩
    have hsame := (hunharmed a ha).2.2 _ hlo hhi
    rw [hframe _ (hpayload a ha _ hlo hhi), if_pos ⟨hmagic, rfl⟩] at hsame
    exact hbyte hsame.symm
  · intro hmiss a ha
    obtain ⟨b, hb⟩ := h.paged.holds a ha
    have hb' := (hused b hb.used).mpr hb.mem
    obtain ⟨-, hblock, -, hsize⟩ := h.paged.shows.block_of_ptr hb.blockAt
    obtain ⟨-, -, -, hsize'⟩ := hs'.block_of_ptr ⟨hb', hb.ptr⟩
    have hflag : blockUsed h'.mem b.addr ≠ 0 := by
      obtain ⟨l₁, l₂, rfl⟩ := List.append_of_mem hb'
      rw [ne_eq, hs'.header.used_iff, hb.used]
      simp
    refine ⟨hblock ▸ hflag, ?_, fun x hlo hhi => ?_⟩
    · rw [hblock, hsize, hsize']
    · rw [hframe x (hpayload a ha x hlo hhi)]
      split_ifs with hhit
      · obtain ⟨hmagic, rfl⟩ := hhit
        by_contra hbyte
        exact hmiss ⟨hmagic, fun hzero => hbyte hzero.symm, a, ha, hlo, hhi⟩
      · rfl

end TracedClient

/-- In every run in which the heap gets its pages from a counter above the pages it has, `kfree` of
a freed pointer returns, and it leaves the live allocations unharmed exactly when there is no magic
number below the pointer, or the byte it clears is 0 or in no live allocation. -/
theorem heap_free_again_iff {p : Pmm} {ram mem : Memory} {before : List Nat} {ops : List TracedOp}
    {s : TracedClient} (hrun : Run TracedClient.ClimbingStep (.start p ram before mem) ops s)
    {ptr : Nat} (hfreed : s.Freed ptr) :
    ∃ h, kfree s.client.heap ptr = some h ∧ (s.Unharmed h ↔ ¬ s.Hits ptr) := by
  rcases TracedClient.exists_kept hrun with ⟨top, l, hkept⟩ | ⟨-, -, hnone⟩
  · exact hkept.unharmed_iff hfreed
  · exact absurd hfreed.1 (by simp [hnone])

/-! ## A header in a payload -/

section EightBlocks

namespace TracedClient

def eightBlocksStart : TracedClient := start eightBlocks (fun _ => 0) [] fun _ => 0

/-- A call that is accepted and asks for no page. -/
def attempt (s : TracedClient) : TracedOp → Option TracedClient
  | .shared (.heap (.call c)) =>
    if s.client.Legal (.call c) ∧ s.client.heap.asks c = 0 then
      s.enter (.shared (.heap (.call c)))
    else none
  | _ => none

theorem step_of_attempt {s t : TracedClient} {op : TracedOp} (h : s.attempt op = some t) :
    s.ClimbingStep op t := by
  cases op with
  | freeAgain => cases h
  | shared op =>
    cases op with
    | allocPage => cases h
    | heap op =>
      cases op with
      | write => cases h
      | call c =>
        dsimp only [attempt] at h
        split_ifs at h with hcall
        refine ⟨?_, hcall.1, h⟩
        rw [PagesClimb, hcall.2]
        trivial

end TracedClient

theorem heap_free_again_iff_eightBlocks : ∃ s, Run TracedClient.ClimbingStep .eightBlocksStart
    [.shared (.heap (.call (.kmalloc 16))), .shared (.heap (.call (.kfree 0xC0000010)))] s ∧
      s.Freed 0xC0000010 ∧ ∃ h, kfree s.client.heap 0xC0000010 = some h ∧
        (s.Unharmed h ↔ ¬ s.Hits 0xC0000010) := by
  obtain ⟨s, hops, hfreed⟩ : ∃ s, [TracedOp.shared (.heap (.call (.kmalloc 16))),
      .shared (.heap (.call (.kfree 0xC0000010)))].foldlM TracedClient.attempt
        .eightBlocksStart = some s ∧ s.Freed 0xC0000010 := by
    unfold TracedClient.eightBlocksStart TracedClient.start SharedHeap.start
    simp only [SharedHeap.fresh_eightBlocks]
    exact exists_some (by decide +kernel)
  have hrun : Run TracedClient.ClimbingStep _ _ s :=
    .of_foldlM TracedClient.step_of_attempt hops
  exact ⟨s, hrun, hfreed, heap_free_again_iff hrun hfreed⟩

/-- The header of the second block stays in memory when the two blocks are merged, and is in the
payload of the next allocation. A byte that is written there is cleared by the second `kfree`. -/
theorem heap_free_again_harms : ∃ ops s ptr h,
    Run TracedClient.Step .eightBlocksStart ops s ∧ s.Freed ptr ∧
      kfree s.client.heap ptr = some h ∧ ¬ s.Unharmed h := by
  obtain ⟨s, hops, hfreed, hlive, hsize, hstart, hnext, hlast, hcleared⟩ : ∃ s,
      [TracedOp.shared (.heap (.call (.kmalloc 16))), .shared (.heap (.call (.kmalloc 16))),
        .shared (.heap (.call (.kfree 0xC0000010))), .shared (.heap (.call (.kfree 0xC0000030))),
        .shared (.heap (.call (.kmalloc 200)))].foldlM TracedClient.attempt
          .eightBlocksStart = some s ∧
        s.Freed 0xC0000030 ∧ s.client.live = [⟨0xC0000010, 200⟩] ∧
        blockSize s.client.heap.mem 0xC0000000 = 208 ∧
        s.client.heap.heapStart = 0xC0000000 ∧
        blockNext s.client.heap.mem 0xC0000000 = 0xC00000E0 ∧
        blockNext s.client.heap.mem 0xC00000E0 = 0 ∧
        (kfree { s.client.heap with mem := store8 s.client.heap.mem 0xC000002C 1 }
          0xC0000030).map (fun h => h.mem 0xC000002C) = some 0 := by
    unfold TracedClient.eightBlocksStart TracedClient.start SharedHeap.start
    simp only [SharedHeap.fresh_eightBlocks]
    exact exists_some (by decide +kernel)
  have hnodes : ∀ block, s.client.heap.Node block → block = 0xC0000000 ∨ block = 0xC00000E0 := by
    intro block hnode
    induction hnode with
    | start => exact .inl hstart
    | next _ hne ih =>
      rcases ih with rfl | rfl
      · exact .inr hnext
      · exact absurd hlast hne
  have hlegal : s.client.Legal (.write 0xC000002C 1) := by
    intro block hnode
    rcases hnodes block hnode with rfl | rfl
    · exact .inr (by simp)
    · exact .inl (by omega)
  have hrun : Run TracedClient.Step .eightBlocksStart _ s :=
    .of_foldlM (fun h => (TracedClient.step_of_attempt h).2) hops
  obtain ⟨h, hkfree, hzero⟩ := Option.map_eq_some_iff.mp hcleared
  have hwrite : TracedClient.Step s (.shared (.heap (.write 0xC000002C 1))) _ := ⟨hlegal, rfl⟩
  refine ⟨_, _, 0xC0000030, h, hrun.snoc hwrite, ?_, hkfree, fun hunharmed => ?_⟩
  · exact ⟨List.mem_append_right _ hfreed.1, hfreed.2⟩
  · obtain ⟨-, -, hsame⟩ := hunharmed ⟨0xC0000010, 200⟩ (by simp [hlive])
    have hblock : Word32.sub 0xC0000010 heapBlockSize = 0xC0000000 := by decide
    have hsize' : blockSize (store8 s.client.heap.mem 0xC000002C 1) 0xC0000000 = 208 :=
      (load32_store8_of_disjoint _ _ (by omega)).trans hsize
    have hbyte : h.mem 0xC000002C = 1 :=
      hsame 0xC000002C (by simp) (by rw [hblock, hsize']; decide)
    rw [hzero] at hbyte
    cases hbyte

end EightBlocks

end HolyOs.Mm
