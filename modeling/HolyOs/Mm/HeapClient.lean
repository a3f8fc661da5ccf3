import HolyOs.Foundation.Transition
import HolyOs.Mm.HeapCalls

/-!
# Clients of the heap

A client calls the heap and writes to memory. Its state has the allocations it holds: the
pointers it got with the sizes it asked for. The invariant is that each of them is a used
block of the list, and the specifications of the calls keep it, whatever the page source does.
-/
namespace HolyOs.Mm

open ByteMemory HolyOs.Lib BlockList Transition

/-- The addresses of the headers on the list from `heap_start`. -/
inductive Heap.Node {σ : Type*} (h : Heap σ) : Nat → Prop
  | start : h.heapStart ≠ 0 → h.Node h.heapStart
  | next {block : Nat} : h.Node block → blockNext h.mem block ≠ 0 →
      h.Node (blockNext h.mem block)

/-- A pointer the heap returned, and the size that was requested. -/
structure Allocation where
  ptr : Nat
  size : Nat
deriving DecidableEq

inductive HeapCall
  | kmalloc (size : Nat)
  | kfree (ptr : Nat)
  | krealloc (ptr size : Nat)

/-- The pointer passed to a call, or 0. -/
def HeapCall.passed : HeapCall → Nat
  | .kmalloc _ => 0
  | .kfree ptr => ptr
  | .krealloc ptr _ => ptr

/-- The size passed to a call, or 0. -/
def HeapCall.size : HeapCall → Nat
  | .kmalloc size => size
  | .kfree _ => 0
  | .krealloc _ size => size

inductive HeapOp
  | call (c : HeapCall)
  | write (addr : Nat) (value : UInt8)

/-- The heap and the allocations that are live. -/
structure HeapClient (σ : Type*) where
  heap : Heap σ
  live : List Allocation

/-- The allocations after a call that returned `ptr`; 0 stands for none. -/
def grant (live : List Allocation) (ptr size : Nat) : List Allocation :=
  if ptr = 0 then live else ⟨ptr, size⟩ :: live

/-- The allocations other than the one at `ptr`. -/
def dropPtr (live : List Allocation) (ptr : Nat) : List Allocation :=
  live.filter fun a => a.ptr ≠ ptr

namespace HeapClient

section Guards

variable {σ : Type*} (s : HeapClient σ)

/-- Only 0 and live pointers are passed. -/
def Accepts (c : HeapCall) : Prop := c.passed = 0 ∨ ∃ a ∈ s.live, a.ptr = c.passed

/-- Sizes are 32-bit numbers, and writes go anywhere but to the headers on the list. -/
def Legal : HeapOp → Prop
  | .call c => s.Accepts c ∧ c.size < 2 ^ 32
  | .write addr _ => ∀ block, s.heap.Node block → addr < block ∨ block + heapBlockSize ≤ addr

instance (c : HeapCall) : Decidable (s.Accepts c) := inferInstanceAs (Decidable (_ ∨ _))

instance (c : HeapCall) : Decidable (s.Legal (.call c)) := inferInstanceAs (Decidable (_ ∧ _))

/-- Sizes can be rounded up, and writes go to live allocations. -/
def Confined : HeapOp → Prop
  | .call c => s.Accepts c ∧ c.size ≤ 0xFFFFFFF0
  | .write addr _ => ∃ a ∈ s.live, a.ptr ≤ addr ∧ addr < a.ptr + a.size

/-- The live allocations, other than the one at `ptr`, have the same contents in `m`. -/
def Preserves (m : Memory) (ptr : Nat) : Prop :=
  ∀ a ∈ s.live, a.ptr ≠ ptr → SameOn s.heap.mem m a.ptr (a.ptr + alignSize a.size)

end Guards

variable {σ : Type*} [PageSource σ]

/-- The effect of a call. A `krealloc` that fails leaves the allocation as it is. -/
def call (s : HeapClient σ) : HeapCall → Option (HeapClient σ)
  | .kmalloc size => (kmalloc s.heap size).map fun (r, h) => ⟨h, grant s.live r size⟩
  | .kfree ptr => (kfree s.heap ptr).map fun h => ⟨h, dropPtr s.live ptr⟩
  | .krealloc ptr size => (krealloc s.heap ptr size).map fun (r, h) =>
      ⟨h, if r = 0 ∧ size ≠ 0 then s.live else grant (dropPtr s.live ptr) r size⟩

def enter (s : HeapClient σ) : HeapOp → Option (HeapClient σ)
  | .call c => s.call c
  | .write addr value => some { s with heap := { s.heap with mem := store8 s.heap.mem addr value } }

/-- A step under the guard `G`. -/
def Step (G : HeapClient σ → HeapOp → Prop) (s : HeapClient σ) (op : HeapOp)
    (t : HeapClient σ) : Prop :=
  G s op ∧ s.enter op = some t

/-- The state after `heap_init`. -/
def start (h : Heap σ) : HeapClient σ := ⟨heapInit h, []⟩

/-- The invariant of clients. -/
structure Sound (s : HeapClient σ) (top : Nat) (l : List Block) : Prop where
  shows : s.heap.Shows top l
  supplies : Supplies top s.heap.pages
  distinct : s.live.Pairwise fun a b => a.ptr ≠ b.ptr
  holds : ∀ a ∈ s.live, ∃ b, Holds l a.ptr (alignSize a.size) b

omit [PageSource σ] in
/-- The part of the invariant that says nothing about the pages to come. -/
structure Tracks (s : HeapClient σ) (top : Nat) (l : List Block) : Prop where
  shows : s.heap.Shows top l
  distinct : s.live.Pairwise fun a b => a.ptr ≠ b.ptr
  holds : ∀ a ∈ s.live, ∃ b, Holds l a.ptr (alignSize a.size) b

theorem Sound.tracks {s : HeapClient σ} {top : Nat} {l : List Block} (h : s.Sound top l) :
    s.Tracks top l := { h with }

theorem Tracks.sound {s : HeapClient σ} {top : Nat} {l : List Block} (h : s.Tracks top l)
    (hsupply : Supplies top s.heap.pages) : s.Sound top l := { h with supplies := hsupply }

end HeapClient

/-! ## The calls on the list -/

/-- What a call does and returns; 0 for `kfree`. -/
def HeapCall.exec {σ : Type*} [PageSource σ] (h : Heap σ) : HeapCall → Option (Nat × Heap σ)
  | .kmalloc size => Mm.kmalloc h size
  | .kfree ptr => (Mm.kfree h ptr).map fun h => (0, h)
  | .krealloc ptr size => Mm.krealloc h ptr size

/-- The live allocations after a call that returned `r`. -/
def HeapCall.liveAfter (live : List Allocation) (r : Nat) : HeapCall → List Allocation
  | .kmalloc size => grant live r size
  | .kfree ptr => dropPtr live ptr
  | .krealloc ptr size =>
    if r = 0 ∧ size ≠ 0 then live else grant (dropPtr live ptr) r size

/-- A call on the list, with the blocks of the pages it takes. -/
def BlockHeap.call (l new : List Block) : HeapCall → Nat × List Block
  | .kmalloc n => kmalloc l new n
  | .kfree ptr => (0, kfree l ptr)
  | .krealloc ptr n => krealloc l new ptr n

/-- The number of pages that a call asks for. -/
def BlockHeap.wanted (l : List Block) : HeapCall → Nat
  | .kmalloc n => wantedPages l n
  | .kfree _ => 0
  | .krealloc ptr n => if ptr = 0 then wantedPages l n else wantedToMove l ptr n

/-! ## What stays live -/

section Live

variable {l new : List Block} {live : List Allocation} {c : HeapCall} {b : Block} {r : Nat}

theorem exists_mem_grant (live : List Allocation) {ptr : Nat} (hne : ptr ≠ 0) (size : Nat) :
    ∃ a ∈ grant live ptr size, a.ptr = ptr := by
  rw [grant, if_neg hne]
  exact ⟨⟨ptr, size⟩, by simp, rfl⟩

theorem mem_grant {a : Allocation} {ptr size : Nat} (ha : a ∈ live) :
    a ∈ grant live ptr size := by
  rw [grant]
  split_ifs
  · exact ha
  · exact List.mem_cons_of_mem _ ha

theorem mem_dropPtr {a : Allocation} {ptr : Nat} (ha : a ∈ live) (hne : a.ptr ≠ ptr) :
    a ∈ dropPtr live ptr := List.mem_filter.mpr ⟨ha, by simpa using hne⟩

/-- A used block after a call has the pointer returned, which is live then, or it is a new block
or was on the list, and its allocation stays live. -/
theorem used_of_call (live : List Allocation) (hlow : c.passed ≠ 0 → 16 ≤ c.passed)
    (hb : b ∈ (BlockHeap.call l new c).2) (hused : b.used = true) :
    (∃ a ∈ c.liveAfter live (BlockHeap.call l new c).1, a.ptr = b.addr + 16) ∨
      (b ∈ l ∨ b ∈ new) ∧ ∀ a ∈ live, a.ptr = b.addr + 16 →
        a ∈ c.liveAfter live (BlockHeap.call l new c).1 := by
  cases c with
  | kmalloc n =>
    rcases BlockHeap.used_of_kmalloc hb hused with hl | hnew | hr
    · exact .inr ⟨.inl hl, fun a ha _ => mem_grant ha⟩
    · exact .inr ⟨.inr hnew, fun a ha _ => mem_grant ha⟩
    · exact .inl (hr ▸ exists_mem_grant live (by omega) n)
  | kfree ptr =>
    obtain ⟨hl, hne⟩ := BlockHeap.used_of_kfree hb hused
    exact .inr ⟨.inl hl, fun a ha heq => mem_dropPtr ha (heq ▸ hne)⟩
  | krealloc ptr n =>
    unfold HeapCall.liveAfter
    dsimp only
    rcases BlockHeap.used_of_krealloc hlow hb hused with hr | ⟨hfrom, hstays⟩
    · refine .inl ?_
      change b.addr + 16 = (BlockHeap.call l new (.krealloc ptr n)).1 at hr
      rw [← hr, if_neg (by omega)]
      exact exists_mem_grant _ (by omega) n
    · refine .inr ⟨hfrom, fun a ha heq => ?_⟩
      split_ifs with hfailed
      · exact ha
      · rcases hstays with hne | hfailed'
        · exact mem_grant (mem_dropPtr ha (heq ▸ hne))
        · exact absurd hfailed' hfailed

end Live

/-! ## The list from `heap_start` -/

section Nodes

variable {σ : Type*} {h : Heap σ} {top : Nat} {l : List Block}

theorem Heap.Node.of_segment (hseg : Segment h.mem l 0) (hpos : ∀ b ∈ l, b.addr ≠ 0)
    (hfirst : l ≠ [] → h.Node (firstAddr l 0)) : ∀ b ∈ l, h.Node b.addr := by
  induction l with
  | nil => simp
  | cons c l ih =>
    have hc : h.Node c.addr := hfirst (by simp)
    intro b hb
    rcases List.mem_cons.mp hb with rfl | hb
    · exact hc
    · refine ih hseg.2 (fun d hd => hpos d (by simp [hd])) (fun hne => ?_) b hb
      obtain ⟨d, l, rfl⟩ := List.exists_cons_of_ne_nil hne
      have hnext : blockNext h.mem c.addr = d.addr := hseg.1.next
      rw [firstAddr_cons, ← hnext]
      exact .next hc (hnext ▸ hpos d (by simp))

/-- The nodes are the blocks of the list. -/
theorem Heap.Shows.node_iff (hs : h.Shows top l) (block : Nat) :
    h.Node block ↔ ∃ b ∈ l, b.addr = block := by
  constructor
  · intro hnode
    induction hnode with
    | start hne =>
      obtain ⟨b, l, rfl⟩ := List.exists_cons_of_ne_nil hs.nonempty
      exact ⟨b, by simp, hs.start.symm⟩
    | next _ hne ih =>
      obtain ⟨b, hb, rfl⟩ := ih
      obtain ⟨l₁, l₂, rfl⟩ := List.append_of_mem hb
      rw [hs.header.next] at hne ⊢
      cases l₂ with
      | nil => exact absurd rfl hne
      | cons c l₂ => exact ⟨c, by simp, rfl⟩
  · rintro ⟨b, hb, rfl⟩
    refine Heap.Node.of_segment hs.segment hs.pos (fun hne => ?_) b hb
    obtain ⟨c, l, rfl⟩ := List.exists_cons_of_ne_nil hne
    have hstart : h.heapStart = c.addr := hs.start
    rw [firstAddr_cons, ← hstart]
    exact .start (hstart ▸ hs.pos c (by simp))

theorem Heap.Shows.inHeaders_iff (hs : h.Shows top l) (x : Nat) :
    InHeaders l x ↔ ∃ block, h.Node block ∧ block ≤ x ∧ x < block + 16 := by
  constructor
  · rintro ⟨b, hb, hin⟩
    exact ⟨b.addr, (hs.node_iff _).mpr ⟨b, hb, rfl⟩, hin⟩
  · rintro ⟨block, hnode, hin⟩
    obtain ⟨b, hb, rfl⟩ := (hs.node_iff _).mp hnode
    exact ⟨b, hb, hin⟩

end Nodes

/-! ## The start -/

section Start

variable {σ : Type*} [PageSource σ]

/-- `heap_init` makes one free block of its page. -/
theorem Heap.Shows.init {h : Heap σ} {page : Nat} {t : σ}
    (hres : PageSource.vmmAllocPage h.pages (pagePresent ||| pageWrite) = (page, t))
    (hpage : page ≠ 0) (hmod : page % 4096 = 0) (hlt : page < 2 ^ 32) :
    (heapInit h).Shows (page + 4096) [⟨page, pageSize - heapBlockSize, false⟩] ∧
      (heapInit h).pages = t := by
  have hheader := (headerAt_fresh h.mem page (show pageSize - heapBlockSize < 2 ^ 32 by simp)
    (show 0 < 2 ^ 32 by omega)).setUsed 0
  rw [heapInit, hres]
  simp only [if_neg hpage]
  refine ⟨?_, trivial⟩
  exact {
    nonempty := by simp
    start := rfl
    last := rfl
    segment := ⟨hheader, trivial⟩
    ordered := by simp [Ordered]
    fits := by
      simp only [List.mem_singleton, forall_eq]
      refine ⟨?_, ?_, ?_, ?_, ?_⟩ <;> simp [Block.finish] <;> omega
    top_le := by omega
    size := by simp }

/-- A heap whose `heap_init` found no page has no block. -/
theorem heapStart_heapInit {h : Heap σ} {page : Nat} {t : σ}
    (hres : PageSource.vmmAllocPage h.pages (pagePresent ||| pageWrite) = (page, t)) :
    (heapInit h).heapStart = page := by
  rw [heapInit, hres]
  dsimp only
  split_ifs <;> rfl

theorem pages_heapInit {h : Heap σ} {page : Nat} {t : σ}
    (hres : PageSource.vmmAllocPage h.pages (pagePresent ||| pageWrite) = (page, t)) :
    (heapInit h).pages = t := by
  rw [heapInit, hres]
  dsimp only
  split_ifs <;> rfl

theorem HeapClient.start_sound_of_page {h : Heap σ} (hsupply : Supplies 0 h.pages) {page : Nat}
    {t : σ} (hres : PageSource.vmmAllocPage h.pages (pagePresent ||| pageWrite) = (page, t))
    (hpage : page ≠ 0) :
    (HeapClient.start h).Sound (page + 4096) [⟨page, pageSize - heapBlockSize, false⟩] := by
  obtain ⟨hmod, -, hlt, hnext⟩ := hsupply.next hres hpage
  obtain ⟨hs, hpages⟩ := Heap.Shows.init hres hpage hmod hlt
  exact ⟨hs, hpages ▸ hnext, .nil, by simp [HeapClient.start]⟩

theorem HeapClient.start_sound {h : Heap σ} (hsupply : Supplies 0 h.pages)
    (hinit : (heapInit h).heapStart ≠ 0) : ∃ top l, (HeapClient.start h).Sound top l := by
  cases hres : PageSource.vmmAllocPage h.pages (pagePresent ||| pageWrite) with
  | mk page t =>
    rw [heapStart_heapInit hres] at hinit
    exact ⟨_, _, HeapClient.start_sound_of_page hsupply hres hinit⟩

end Start

/-! ## Steps -/

section Steps

variable {m m' : Memory} {l l' : List Block} {E : Set Nat} {ptr size : Nat} {b : Block}

theorem Keeps.holds (h : Keeps m m' l l' E) (hb : Holds l ptr size b) (hE : b.addr ∉ E) :
    Holds l' ptr size b :=
  { hb with mem := (h b hb.mem hb.used hE).1 }

theorem Keeps.payload (h : Keeps m m' l l' E) (hb : Holds l ptr size b) (hE : b.addr ∉ E) :
    SameOn m m' ptr (ptr + size) := by
  refine (h b hb.mem hb.used hE).2.mono (Nat.le_of_eq hb.ptr) ?_
  rw [Block.finish, hb.ptr]
  exact Nat.add_le_add_left hb.size _

end Steps

namespace HeapClient

variable {σ : Type*} [PageSource σ] {s : HeapClient σ} {h' : Heap σ} {top top' : Nat}
  {l l' : List Block} {E : Set Nat} {ptr : Nat}

section Tracks

omit [PageSource σ]

theorem Sound.ptr_ne_zero [PageSource σ] (h : s.Sound top l) {a : Allocation} (ha : a ∈ s.live) :
    a.ptr ≠ 0 := by
  obtain ⟨b, hb⟩ := h.holds a ha
  have := hb.ptr
  omega

theorem Tracks.ptr_ne_zero (h : s.Tracks top l) {a : Allocation} (ha : a ∈ s.live) :
    a.ptr ≠ 0 := by
  obtain ⟨b, hb⟩ := h.holds a ha
  have := hb.ptr
  omega

theorem Tracks.preserves (h : s.Tracks top l) (hkeeps : Keeps s.heap.mem h'.mem l l' E)
    (hE : ∀ x ∈ E, x + 16 = ptr) : s.Preserves h'.mem ptr := by
  intro a ha hne
  obtain ⟨b, hb⟩ := h.holds a ha
  exact hkeeps.payload hb fun hmem => hne (hb.ptr.symm.trans (hE _ hmem))

/-- Allocations whose blocks are kept stay on the list. -/
theorem Tracks.kept (h : s.Tracks top l) (hs : h'.Shows top' l')
    (hkeeps : Keeps s.heap.mem h'.mem l l' E) {live : List Allocation}
    (hsub : live.Sublist s.live) (hE : ∀ a ∈ live, ∀ x ∈ E, x + 16 ≠ a.ptr) :
    Tracks ⟨h', live⟩ top' l' where
  shows := hs
  distinct := h.distinct.sublist hsub
  holds a ha := by
    obtain ⟨b, hb⟩ := h.holds a (hsub.subset ha)
    exact ⟨b, hkeeps.holds hb fun hmem => hE a ha _ hmem hb.ptr⟩

theorem Tracks.dropped (h : s.Tracks top l) (hs : h'.Shows top' l')
    (hkeeps : Keeps s.heap.mem h'.mem l l' E) (hE : ∀ x ∈ E, x + 16 = ptr) :
    Tracks ⟨h', dropPtr s.live ptr⟩ top' l' := by
  refine h.kept hs hkeeps List.filter_sublist fun a ha x hx heq => ?_
  have hne := (List.mem_filter.mp ha).2
  simp only [decide_eq_true_eq] at hne
  exact hne (heq.symm.trans (hE x hx))

/-- A used block nobody holds is a new allocation. -/
theorem Tracks.granted (h : s.Tracks top l) {b : Block} {size : Nat}
    (hb : Holds l ptr (alignSize size) b) (hfresh : ∀ a ∈ s.live, a.ptr ≠ ptr) :
    Tracks ⟨s.heap, grant s.live ptr size⟩ top l := by
  have hne : ptr ≠ 0 := by
    have := hb.ptr
    omega
  rw [grant, if_neg hne]
  refine ⟨h.shows, List.pairwise_cons.mpr ⟨fun a ha => (hfresh a ha).symm, h.distinct⟩, ?_⟩
  intro a ha
  rcases List.mem_cons.mp ha with rfl | ha
  · exact ⟨b, hb⟩
  · exact h.holds a ha

theorem Tracks.ne_of_fresh (h : s.Tracks top l) (hfresh : Fresh l ptr) :
    ∀ a ∈ s.live, a.ptr ≠ ptr := by
  intro a ha heq
  obtain ⟨b, hb⟩ := h.holds a ha
  exact hfresh b hb.mem hb.used (hb.ptr.trans heq)

theorem Tracks.dropPtr_zero (h : s.Tracks top l) : dropPtr s.live 0 = s.live :=
  List.filter_eq_self.mpr fun a ha => by simpa using h.ptr_ne_zero ha

end Tracks

/-- What an accepted call is for: it does on the list what `BlockHeap.call` says. The other
allocations have the same contents after it. -/
def Follows (s : HeapClient σ) (top : Nat) (l : List Block) (c : HeapCall) : Prop :=
  let pages := takePages (BlockHeap.wanted l c) s.heap.pages
  let r := BlockHeap.call l (pages.1.map (pageBlock s.heap.mem)) c
  ∃ h', c.exec s.heap = some (r.1, h') ∧ h'.pages = pages.2 ∧
    Tracks ⟨h', c.liveAfter s.live r.1⟩ (topAfter top pages.1) r.2 ∧ s.Preserves h'.mem c.passed

theorem Tracks.malloc (h : s.Tracks top l) (size : Nat)
    (hclimbs : Climbs top (takePages (BlockHeap.wantedPages l size) s.heap.pages).1) :
    s.Follows top l (.kmalloc size) := by
  obtain ⟨h', hcall, hs, hpages, hkeeps⟩ := h.shows.kmalloc size hclimbs
  have hresult := h.shows.kmalloc_result size hclimbs
  have hsame := h.kept hs hkeeps (.refl _) (by simp)
  unfold Follows BlockHeap.wanted BlockHeap.call HeapCall.liveAfter
  dsimp only
  generalize takePages (BlockHeap.wantedPages l size) s.heap.pages = pages at *
  generalize BlockHeap.kmalloc l (pages.1.map (pageBlock s.heap.mem)) size = r at *
  refine ⟨h', hcall, hpages, ?_, h.preserves hkeeps (by simp)⟩
  rcases hresult with ⟨hzero, -⟩ | ⟨-, hfresh, b, hb⟩
  · rw [grant, if_pos hzero]
    exact hsame
  · exact hsame.granted hb.toHolds (h.ne_of_fresh hfresh)

theorem Tracks.free (h : s.Tracks top l) {a : Allocation} (ha : a ∈ s.live) :
    s.Follows top l (.kfree a.ptr) := by
  obtain ⟨b, hb⟩ := h.holds a ha
  obtain ⟨h', hcall, hs, hpages, hkeeps⟩ := h.shows.kfree hb.blockAt
  have hE : ∀ x ∈ ({b.addr} : Set Nat), x + 16 = a.ptr := by simp [hb.ptr]
  exact ⟨h', by rw [HeapCall.exec, hcall]; rfl, hpages, h.dropped hs hkeeps hE,
    h.preserves hkeeps hE⟩

/-- `krealloc` of a live pointer, in place or to another block. -/
theorem Tracks.realloc (h : s.Tracks top l) {a : Allocation} (ha : a ∈ s.live) (size : Nat)
    (hclimbs : Climbs top (takePages (BlockHeap.wantedToMove l a.ptr size) s.heap.pages).1) :
    s.Follows top l (.krealloc a.ptr size) := by
  obtain ⟨b, hb⟩ := h.holds a ha
  have hwanted : BlockHeap.wanted l (.krealloc a.ptr size) =
      BlockHeap.wantedToMove l a.ptr size := if_neg (h.ptr_ne_zero ha)
  obtain ⟨h', hcall, hs, hpages, hkeeps, hresult⟩ := h.shows.krealloc hb.blockAt size hclimbs
  have hE : ∀ x ∈ ({b.addr} : Set Nat), x + 16 = a.ptr := by simp [hb.ptr]
  have hdropped := h.dropped hs hkeeps hE
  unfold Follows BlockHeap.call HeapCall.liveAfter
  rw [hwanted]
  dsimp only
  generalize takePages (BlockHeap.wantedToMove l a.ptr size) s.heap.pages = pages at *
  generalize BlockHeap.krealloc l (pages.1.map (pageBlock s.heap.mem)) a.ptr size = r at *
  refine ⟨h', hcall, hpages, ?_, h.preserves hkeeps hE⟩
  rcases hresult hb.used with ⟨hzero, hkept⟩ | ⟨hplace, -, c, hc⟩
  · split_ifs with hfail
    · exact h.kept hs (hkept.resolve_left hfail.2) (.refl _) (by simp)
    · rw [grant, if_pos hzero]
      exact hdropped
  · have hr : r.1 ≠ 0 := by
      have := hc.ptr
      omega
    rw [if_neg fun hfail => hr hfail.1]
    refine hdropped.granted hc.toHolds fun d hd heq => ?_
    obtain ⟨hd, hne⟩ := List.mem_filter.mp hd
    rcases hplace with hsame | hfresh
    · simp [heq, hsame] at hne
    · exact h.ne_of_fresh hfresh d hd heq

/-- Every accepted call does what it does on the list, as long as its pages climb. -/
theorem Tracks.call (h : s.Tracks top l) {c : HeapCall} (haccepts : s.Accepts c)
    (hclimbs : Climbs top (takePages (BlockHeap.wanted l c) s.heap.pages).1) :
    s.Follows top l c := by
  cases c with
  | kmalloc size => exact h.malloc size hclimbs
  | kfree ptr =>
    rcases haccepts with hzero | ⟨a, ha, hptr⟩
    · obtain rfl : ptr = 0 := hzero
      refine ⟨s.heap, rfl, rfl, ?_, h.preserves (.refl _ _ ∅) (by simp)⟩
      change Tracks ⟨s.heap, dropPtr s.live 0⟩ top l
      rw [h.dropPtr_zero]
      exact h
    · obtain rfl : a.ptr = ptr := hptr
      exact h.free ha
  | krealloc ptr size =>
    rcases haccepts with hzero | ⟨a, ha, hptr⟩
    · obtain rfl : ptr = 0 := hzero
      have hlive : ∀ r, (HeapCall.krealloc 0 size).liveAfter s.live r = grant s.live r size := by
        intro r
        rw [HeapCall.liveAfter, h.dropPtr_zero]
        split_ifs with hfail
        · rw [grant, if_pos hfail.1]
        · rfl
      have hwanted : BlockHeap.wanted l (.krealloc 0 size) = BlockHeap.wantedPages l size := by
        rw [BlockHeap.wanted, if_pos rfl]
      have hcall : ∀ new, BlockHeap.call l new (.krealloc 0 size) =
          BlockHeap.call l new (.kmalloc size) := fun new => by
        unfold BlockHeap.call BlockHeap.krealloc
        exact if_pos rfl
      have hexec : (HeapCall.krealloc 0 size).exec s.heap =
          (HeapCall.kmalloc size).exec s.heap := by
        unfold HeapCall.exec Mm.krealloc
        exact if_pos rfl
      rw [hwanted] at hclimbs
      have hmalloc := h.malloc size hclimbs
      unfold Follows at hmalloc ⊢
      simp only [hwanted, hcall, hexec, hlive]
      exact hmalloc
    · obtain rfl : a.ptr = ptr := hptr
      have hwanted : BlockHeap.wanted l (.krealloc a.ptr size) =
          BlockHeap.wantedToMove l a.ptr size := if_neg (h.ptr_ne_zero ha)
      exact h.realloc ha size (hwanted ▸ hclimbs)

theorem call_eq (s : HeapClient σ) (c : HeapCall) :
    s.call c = (c.exec s.heap).map fun (r, h) => ⟨h, c.liveAfter s.live r⟩ := by
  cases c with
  | kmalloc size => rfl
  | kfree ptr =>
    rw [HeapClient.call, HeapCall.exec, Option.map_map]
    rfl
  | krealloc ptr size => rfl

/-- Every accepted call returns, keeps the invariant and leaves the other allocations alone. -/
theorem Sound.call (h : s.Sound top l) {c : HeapCall} (haccepts : s.Accepts c) :
    ∃ t top' l', s.call c = some t ∧ t.Sound top' l' ∧ s.Preserves t.heap.mem c.passed := by
  obtain ⟨hclimbs, hsupply⟩ := h.supplies.climbs (BlockHeap.wanted l c)
  obtain ⟨h', hexec, hpages, htracks, hpreserves⟩ := h.tracks.call haccepts hclimbs
  exact ⟨_, _, _, by rw [call_eq, hexec]; rfl, htracks.sound (hpages ▸ hsupply), hpreserves⟩

omit [PageSource σ] in
/-- Writes outside the headers keep the invariant. -/
theorem Tracks.write (h : s.Tracks top l) {addr : Nat} (haddr : ¬ InHeaders l addr)
    (value : UInt8) :
    Tracks { s with heap := { s.heap with mem := store8 s.heap.mem addr value } } top l where
  shows := h.shows.write (fun x hx => if_neg (by rintro rfl; exact haddr hx)) rfl rfl rfl
  distinct := h.distinct
  holds := h.holds

omit [PageSource σ] in
theorem Tracks.not_inHeaders (h : s.Tracks top l) {addr : Nat} {value : UInt8}
    (hlegal : s.Legal (.write addr value)) : ¬ InHeaders l addr := by
  intro hin
  obtain ⟨block, hnode, hlo, hhi⟩ := (h.shows.inHeaders_iff addr).mp hin
  have := hlegal block hnode
  simp only [heapBlockSize] at this
  omega

/-- A legal operation returns and keeps the invariant. -/
theorem Sound.enter (h : s.Sound top l) {op : HeapOp} (hlegal : s.Legal op) :
    ∃ t top' l', s.enter op = some t ∧ t.Sound top' l' := by
  cases op with
  | call c =>
    obtain ⟨t, top', l', hcall, hsound, -⟩ := h.call hlegal.1
    exact ⟨t, top', l', hcall, hsound⟩
  | write addr value =>
    exact ⟨_, top, l, rfl, (h.tracks.write (h.tracks.not_inHeaders hlegal) value).sound h.supplies⟩

theorem Sound.step (h : s.Sound top l) {op : HeapOp} {t : HeapClient σ}
    (hstep : Step Legal s op t) : ∃ top' l', t.Sound top' l' := by
  obtain ⟨hop, henter⟩ := hstep
  obtain ⟨t', top', l', henter', h'⟩ := h.enter hop
  obtain rfl := Option.some.inj (henter.symm.trans henter')
  exact ⟨top', l', h'⟩

/-- Every state a legal run reaches is sound. -/
theorem exists_sound {h : Heap σ} (hsupply : Supplies 0 h.pages)
    (hinit : (heapInit h).heapStart ≠ 0) {ops : List HeapOp}
    (hrun : Run (Step Legal) (start h) ops s) : ∃ top l, s.Sound top l :=
  hrun.invariant (I := fun s => ∃ top l, s.Sound top l) (start_sound hsupply hinit)
    fun _ _ _ ⟨_, _, hs⟩ hstep => hs.step hstep

end HeapClient

/-! ## A scripted page source -/

/-- For runs on fixed inputs, which are evaluated. -/
theorem exists_some {α : Type*} {x : Option α} {P : α → Prop} [DecidablePred P]
    (h : x.map (fun a => decide (P a)) = some true) : ∃ a, x = some a ∧ P a := by
  obtain ⟨a, hx, hP⟩ := Option.map_eq_some_iff.mp h
  exact ⟨a, hx, of_decide_eq_true hP⟩

/-- A page source that returns the listed results in order, and then fails. -/
structure PageScript where
  results : List Nat

instance : PageSource PageScript where
  vmmAllocPage s _ := match s.results with
    | [] => (0, s)
    | r :: results => (r, ⟨results⟩)

namespace PageScript

theorem pageResult_eq (n : Nat) (results : List Nat) :
    pageResult n (⟨results⟩ : PageScript) = results.getD n 0 := by
  induction n generalizing results with
  | zero => cases results <;> rfl
  | succ n ih =>
    cases results with
    | nil => exact ih []
    | cons r results => exact ih results

/-- Increasing page addresses, with failures anywhere between them. -/
theorem supplies {results : List Nat} (hpage : ∀ r ∈ results, r % 4096 = 0 ∧ r < 2 ^ 32)
    (hinc : results.Pairwise fun a b => a ≠ 0 → b ≠ 0 → a < b) :
    Supplies 0 (⟨results⟩ : PageScript) := by
  have hget : ∀ n, pageResult n (⟨results⟩ : PageScript) ≠ 0 →
      ∃ hn : n < results.length, pageResult n (⟨results⟩ : PageScript) = results[n] := by
    intro n hne
    rw [pageResult_eq] at hne ⊢
    by_cases hn : n < results.length
    · exact ⟨hn, List.getD_eq_getElem _ _ hn⟩
    · exact absurd (List.getD_eq_default _ _ (Nat.le_of_not_lt hn)) hne
  refine ⟨fun n hne => ?_, fun {m n} hmn hm hn => ?_⟩
  · obtain ⟨hn, heq⟩ := hget n hne
    obtain ⟨hmod, hlt⟩ := hpage _ (List.getElem_mem hn)
    rw [heq]
    exact ⟨hmod, Nat.zero_le _, hlt⟩
  · obtain ⟨hml, hmeq⟩ := hget m hm
    obtain ⟨hnl, hneq⟩ := hget n hn
    rw [hmeq] at hm ⊢
    rw [hneq] at hn ⊢
    exact List.pairwise_iff_getElem.mp hinc m n hml hnl hmn hm hn

/-- A heap that gets one page, then fails to get one, then gets another. -/
def scripted : Heap PageScript := ⟨fun _ => 0, 0, 0, 0, ⟨[0xC0000000, 0, 0xC0002000]⟩⟩

theorem scripted_supplies : Supplies 0 scripted.pages :=
  supplies (by decide) (by decide)

end PageScript

/-- A call of a client that is accepted. -/
def HeapClient.attempt (s : HeapClient PageScript) : HeapOp → Option (HeapClient PageScript)
  | .call c => if s.Legal (.call c) then s.call c else none
  | .write _ _ => none

theorem HeapClient.step_of_attempt {s t : HeapClient PageScript} {op : HeapOp}
    (h : s.attempt op = some t) : Step Legal s op t := by
  cases op with
  | write => cases h
  | call c =>
    dsimp only [attempt] at h
    split_ifs at h with hlegal
    exact ⟨hlegal, h⟩

end HolyOs.Mm
