import HolyOs.Mm.HeapClient

/-!
# Isolation of heap allocations

The allocations a client holds never overlap each other or a header, and the calls change the
contents of none but the one they are about. Sizes from `0xFFFFFFF1` on are excluded: they
are rounded to 0.
-/
namespace HolyOs.Mm

open ByteMemory BlockList Transition

variable {σ : Type*}

/-- The live allocations are apart from each other and from the headers on the list. -/
structure HeapClient.Isolated (s : HeapClient σ) : Prop where
  disjoint : s.live.Pairwise fun a b => a.ptr + a.size ≤ b.ptr ∨ b.ptr + b.size ≤ a.ptr
  headers : ∀ a ∈ s.live, ∀ block, s.heap.Node block →
    a.ptr + a.size ≤ block ∨ block + heapBlockSize ≤ a.ptr
  aligned : ∀ a ∈ s.live, a.ptr % 16 = 0
  /-- The ranges do not wrap. -/
  bounded : ∀ a ∈ s.live, a.ptr + a.size ≤ 2 ^ 32

/-- The sizes of the live allocations can be rounded up. -/
def HeapClient.Moderate (s : HeapClient σ) : Prop := ∀ a ∈ s.live, a.size ≤ 0xFFFFFFF0

namespace HeapClient

variable [PageSource σ] {s t : HeapClient σ} {top : Nat} {l : List Block}

theorem size_of_mem_grant {live : List Allocation} {ptr size : Nat} {a : Allocation}
    (ha : a ∈ grant live ptr size) : a ∈ live ∨ a.size = size := by
  rw [grant] at ha
  split at ha
  · exact .inl ha
  · rcases List.mem_cons.mp ha with rfl | ha
    · exact .inr rfl
    · exact .inl ha

/-- An allocation that is live after a call was so before, or has the size passed. -/
theorem size_of_call {c : HeapCall} (hcall : s.call c = some t) {a : Allocation}
    (ha : a ∈ t.live) : a ∈ s.live ∨ a.size = c.size := by
  have hdrop : ∀ {ptr}, a ∈ dropPtr s.live ptr → a ∈ s.live := fun h => List.mem_of_mem_filter h
  cases c with
  | kmalloc size =>
    obtain ⟨r, -, rfl⟩ := Option.map_eq_some_iff.mp hcall
    exact size_of_mem_grant ha
  | kfree ptr =>
    obtain ⟨h, -, rfl⟩ := Option.map_eq_some_iff.mp hcall
    exact .inl (hdrop ha)
  | krealloc ptr size =>
    obtain ⟨r, -, rfl⟩ := Option.map_eq_some_iff.mp hcall
    simp only at ha
    split at ha
    · exact .inl ha
    · exact (size_of_mem_grant ha).imp_left hdrop

theorem Moderate.enter (hm : s.Moderate) {op : HeapOp} (hop : s.Confined op)
    (henter : s.enter op = some t) : t.Moderate := by
  cases op with
  | call c =>
    intro a ha
    rcases size_of_call henter ha with ha | hsize
    · exact hm a ha
    · exact hsize ▸ hop.2
  | write addr value =>
    obtain rfl := Option.some.inj henter
    exact hm

/-- The range of a live allocation is in the payload of its block. -/
theorem Sound.payload (h : s.Sound top l) (hm : s.Moderate) {a : Allocation} (ha : a ∈ s.live) :
    ∃ b ∈ l, b.addr + 16 = a.ptr ∧ a.ptr + a.size ≤ b.finish 16 := by
  obtain ⟨b, hb⟩ := h.holds a ha
  have hsize := (le_alignSize (hm a ha)).trans hb.size
  refine ⟨b, hb.mem, hb.ptr, ?_⟩
  rw [Block.finish, hb.ptr]
  exact Nat.add_le_add_left hsize _

/-- Writes to live allocations do not reach a header. -/
theorem Sound.legal (h : s.Sound top l) (hm : s.Moderate) {op : HeapOp} (hop : s.Confined op) :
    s.Legal op := by
  cases op with
  | call c =>
    have hsize := hop.2
    exact ⟨hop.1, by omega⟩
  | write addr value =>
    obtain ⟨a, ha, hlo, hhi⟩ := hop
    obtain ⟨b, hb, hptr, hend⟩ := h.payload hm ha
    intro block hnode
    by_contra hin
    simp only [heapBlockSize] at hin
    exact payload_not_inHeaders h.shows.ordered hb (x := addr) (by omega) (by omega)
      ((h.shows.inHeaders_iff addr).mpr ⟨block, hnode, by omega⟩)

theorem Sound.isolated (h : s.Sound top l) (hm : s.Moderate) : s.Isolated where
  disjoint := by
    refine h.distinct.imp_of_mem fun {a b} ha hb hne => ?_
    obtain ⟨c, hc, hcptr, hcend⟩ := h.payload hm ha
    obtain ⟨d, hd, hdptr, hdend⟩ := h.payload hm hb
    rcases h.shows.ordered.disjoint hc hd with rfl | hle | hle
    · exact absurd (hcptr.symm.trans hdptr) hne
    · exact .inl (by omega)
    · exact .inr (by omega)
  headers := by
    intro a ha block hnode
    obtain ⟨c, hc, hcptr, hcend⟩ := h.payload hm ha
    obtain ⟨d, hd, rfl⟩ := (h.shows.node_iff block).mp hnode
    rw [heapBlockSize]
    rcases h.shows.ordered.disjoint hc hd with rfl | hle | hle
    · exact .inr (Nat.le_of_eq hcptr)
    · exact .inl (hcend.trans hle)
    · rw [Block.finish] at hle
      exact .inr (by omega)
  aligned := by
    intro a ha
    obtain ⟨c, hc, hcptr, -⟩ := h.payload hm ha
    have := (h.shows.fits c hc).addr_mod
    omega
  bounded := by
    intro a ha
    obtain ⟨c, hc, -, hcend⟩ := h.payload hm ha
    exact hcend.trans ((h.shows.fits c hc).high.trans h.shows.top_le)

end HeapClient

/-- In every run after a successful `heap_init`, with any page source that returns increasing
page addresses or fails, the live allocations are isolated; every call with a live pointer or 0
returns, and the contents of the other live allocations are the same after it. -/
theorem heap_isolation [PageSource σ] {h : Heap σ} (hsupply : Supplies 0 h.pages)
    (hinit : (heapInit h).heapStart ≠ 0) {ops : List HeapOp} {s : HeapClient σ}
    (hrun : Run (HeapClient.Step HeapClient.Confined) (HeapClient.start h) ops s) :
    s.Isolated ∧ ∀ c, s.Confined (.call c) → ∃ t, s.call c = some t ∧
      ∀ a ∈ s.live, a.ptr ≠ c.passed → SameOn s.heap.mem t.heap.mem a.ptr (a.ptr + a.size) := by
  obtain ⟨⟨top, l, hs⟩, hm⟩ : (∃ top l, s.Sound top l) ∧ s.Moderate := by
    refine hrun.invariant (I := fun s => (∃ top l, s.Sound top l) ∧ s.Moderate)
      ⟨HeapClient.start_sound hsupply hinit, fun a ha => by cases ha⟩ ?_
    rintro s op t ⟨⟨top, l, hs⟩, hm⟩ ⟨hop, henter⟩
    obtain ⟨t', top', l', henter', hs'⟩ := hs.enter (hs.legal hm hop)
    obtain rfl := Option.some.inj (henter.symm.trans henter')
    exact ⟨⟨top', l', hs'⟩, hm.enter hop henter⟩
  refine ⟨hs.isolated hm, fun c hc => ?_⟩
  obtain ⟨t, -, -, hcall, -, hpreserves⟩ := hs.call hc.1
  refine ⟨t, hcall, fun a ha hne => (hpreserves a ha hne).mono (Nat.le_refl _) ?_⟩
  exact Nat.add_le_add_left (le_alignSize (hm a ha)) _

/-- A client that holds two blocks and has written to one of them. -/
theorem heap_isolation_scripted : ∃ s : HeapClient PageScript,
    s.live = [⟨0xC0000090, 50⟩, ⟨0xC0000010, 100⟩] ∧
    s.Isolated ∧ ∀ c, s.Confined (.call c) → ∃ t, s.call c = some t ∧
      ∀ a ∈ s.live, a.ptr ≠ c.passed → SameOn s.heap.mem t.heap.mem a.ptr (a.ptr + a.size) := by
  obtain ⟨s, hcalls, hlive⟩ : ∃ s, ((HeapClient.start PageScript.scripted).call
      (.kmalloc 100)).bind (·.call (.kmalloc 50)) = some s ∧
        s.live = [⟨0xC0000090, 50⟩, ⟨0xC0000010, 100⟩] :=
    Option.map_eq_some_iff.mp (by decide +kernel)
  obtain ⟨first, hfirst, hsecond⟩ := Option.bind_eq_some_iff.mp hcalls
  have hstart : HeapClient.Step HeapClient.Confined (HeapClient.start PageScript.scripted)
      (.call (.kmalloc 100)) first := ⟨⟨.inl rfl, by decide⟩, hfirst⟩
  have hnext : HeapClient.Step HeapClient.Confined first (.call (.kmalloc 50)) s :=
    ⟨⟨.inl rfl, by decide⟩, hsecond⟩
  have hwrite : HeapClient.Step HeapClient.Confined s (.write 0xC0000012 7) _ :=
    ⟨⟨⟨0xC0000010, 100⟩, by simp [hlive], by decide, by decide⟩, rfl⟩
  refine ⟨_, ?_, heap_isolation PageScript.scripted_supplies (by decide +kernel)
    (((Run.single hstart).snoc hnext).snoc hwrite)⟩
  exact hlive
end HolyOs.Mm
