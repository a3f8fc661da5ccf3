import HolyOs.Mm.HeapClient

/-!
# The block list and the heap counters

Between any two calls the list from `heap_start` is ordered and ends at `heap_end`, and it
accounts for every byte of `heap_size`. Clients may write anywhere but to a header, and ask
for any size.
-/
namespace HolyOs.Mm

open ByteMemory BlockList Transition

variable {σ : Type*}

/-- `l` is the list from `heap_start`, and the static variables agree with it. -/
structure Heap.WellFormed (h : Heap σ) (l : List Block) : Prop where
  nodes : ∀ block, h.Node block ↔ block ∈ l.map Block.addr
  start : l.head?.map Block.addr = some h.heapStart
  /-- Each header has the magic value, the size and flag of its block, and the next address. -/
  linked : Segment h.mem l 0
  magic : ∀ b ∈ l, blockMagic h.mem b.addr = heapMagic
  increasing : l.Pairwise fun b c => b.addr + heapBlockSize + b.size ≤ c.addr
  size_mod : ∀ b ∈ l, b.size % 16 = 0
  last : l.getLast?.map Block.addr = some h.heapEnd
  heapSize : (l.map fun b => b.size + heapBlockSize).sum = h.heapSize
  accounted : ∃ allocated free, getAllocatedMemory h = some allocated ∧
    getFreeMemory h = some free ∧ allocated + free + 16 * l.length = getHeapSize h

theorem countedSize_add (l : List Block) :
    countedSize id l + countedSize not l + 16 * l.length = total 16 l := by
  induction l with
  | nil => rfl
  | cons b l ih =>
    rw [List.length_cons, total_cons]
    cases hb : b.used <;> simp [countedSize, hb] at ih ⊢ <;> omega

section Shows

variable {h : Heap σ} {top : Nat} {l : List Block}

theorem Segment.magic {m : Memory} {z : Nat} (hseg : Segment m l z) :
    ∀ b ∈ l, blockMagic m b.addr = heapMagic := by
  induction l with
  | nil => simp
  | cons b l ih =>
    intro c hc
    rcases List.mem_cons.mp hc with rfl | hc
    · exact hseg.1.magic
    · exact ih hseg.2 c hc

/-- Both counts end. -/
theorem Heap.Shows.counted (hs : h.Shows top l) :
    getAllocatedMemory h = some (countedSize id l) ∧
      getFreeMemory h = some (countedSize not l) := by
  have hsum := countedSize_add l
  have htotal := hs.total_lt
  have htop := hs.top_le
  have hcount : ∀ counts : Bool → Bool, countedSize counts l < 2 ^ 32 →
      sumLoop h.mem (fun used => counts (decide (used ≠ 0))) loopFuel 0 h.heapStart =
        some (countedSize counts l) := by
    intro counts hlt
    rw [hs.start, sumLoop_eq hs.segment hs.pos hs.length_lt (by omega), Nat.zero_add]
  refine ⟨hcount id (by omega), ?_⟩
  have hfree : (fun used : UInt8 => decide (used = 0)) = fun used => not (decide (used ≠ 0)) := by
    funext used
    simp
  rw [getFreeMemory, hfree]
  exact hcount not (by omega)

/-- With the headers the counts add up to `heap_size`. -/
theorem Heap.Shows.accounted (hs : h.Shows top l) : ∃ allocated free,
    getAllocatedMemory h = some allocated ∧ getFreeMemory h = some free ∧
      allocated + free + 16 * l.length = getHeapSize h :=
  ⟨_, _, hs.counted.1, hs.counted.2, by rw [getHeapSize, hs.size, countedSize_add]⟩

theorem Heap.Shows.wellFormed (hs : h.Shows top l) : h.WellFormed l where
  nodes block := by rw [hs.node_iff, List.mem_map]
  start := by
    obtain ⟨b, l, rfl⟩ := List.exists_cons_of_ne_nil hs.nonempty
    exact congrArg some hs.start.symm
  linked := hs.segment
  magic := hs.segment.magic
  increasing := hs.ordered
  size_mod b hb := (hs.fits b hb).size_mod
  last := by
    obtain ⟨init, b, rfl, hlast⟩ := exists_last hs.nonempty
    rw [List.getLast?_append, hs.last, hlast]
    rfl
  heapSize := hs.size.symm
  accounted := hs.accounted

end Shows

/-- In every run after a successful `heap_init`, with any page source that returns increasing
page addresses or fails, the heap is well formed and every operation returns. -/
theorem heap_wellFormed [PageSource σ] {h : Heap σ} (hsupply : Supplies 0 h.pages)
    (hinit : (heapInit h).heapStart ≠ 0) {ops : List HeapOp} {s : HeapClient σ}
    (hrun : Run (HeapClient.Step HeapClient.Legal) (HeapClient.start h) ops s) :
    (∃ l, s.heap.WellFormed l) ∧ ∀ op, s.Legal op → ∃ t, s.enter op = some t := by
  obtain ⟨top, l, hs⟩ := HeapClient.exists_sound hsupply hinit hrun
  refine ⟨⟨l, hs.shows.wellFormed⟩, fun op hop => ?_⟩
  obtain ⟨t, -, -, henter, -⟩ := hs.enter hop
  exact ⟨t, henter⟩

/-- A client whose size wraps when it is rounded. -/
theorem heap_wellFormed_scripted : ∃ s : HeapClient PageScript,
    s.live = [⟨0xC0000010, 0xFFFFFFFF⟩] ∧
      (∃ l, s.heap.WellFormed l) ∧ ∀ op, s.Legal op → ∃ t, s.enter op = some t := by
  obtain ⟨s, hcall, hlive⟩ : ∃ s, (HeapClient.start PageScript.scripted).call
      (.kmalloc 0xFFFFFFFF) = some s ∧ s.live = [⟨0xC0000010, 0xFFFFFFFF⟩] :=
    Option.map_eq_some_iff.mp (by decide +kernel)
  have hmalloc : HeapClient.Step HeapClient.Legal (HeapClient.start PageScript.scripted)
      (.call (.kmalloc 0xFFFFFFFF)) s := ⟨⟨.inl rfl, by decide⟩, hcall⟩
  exact ⟨s, hlive, heap_wellFormed PageScript.scripted_supplies (by decide +kernel)
    (.single hmalloc)⟩

end HolyOs.Mm
