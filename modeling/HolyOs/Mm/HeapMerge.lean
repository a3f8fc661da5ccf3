import HolyOs.Foundation.BlockRuns
import HolyOs.Mm.HeapList

/-!
# Merging

The walk of `merge_blocks` follows and writes the sizes and the links of the blocks and reads their
flags. It stays on a block as long as that takes in its successor, so each turn makes the list
behind the current block one shorter. Nothing is asked of the order of the addresses, of the sizes
beyond their total or of the magics.
-/
namespace HolyOs.Mm

open ByteMemory HolyOs.Lib BlockList

/-- An address in the size or the link of one of the blocks. -/
def InLinks (l : List Block) (x : Nat) : Prop := ∃ b ∈ l, b.addr + 4 ≤ x ∧ x < b.addr + 12

/-- Nothing but sizes and links of the blocks differs. -/
def OnlyLinks (l : List Block) (m m' : Memory) : Prop := ∀ x, ¬ InLinks l x → m' x = m x

/-- The list of a heap: it ends after finitely many blocks, and the last one is `heap_end`. Headers
are objects of their own, so they do not overlap. -/
structure Heap.Lists {σ : Type*} (h : Heap σ) (l : List Block) : Prop where
  links : Links h.mem l 0
  start : h.heapStart = firstAddr l 0
  last : h.heapEnd = lastAddr l
  pos : ∀ b ∈ l, b.addr ≠ 0
  apart : Apart 16 l

/-- What `merge_blocks` makes of the memory when it walks the list from `b` on. -/
structure RelinkedFrom (m : Memory) (b : Block) (l : List Block) (m' : Memory) : Prop where
  links : Links m' (coalesceFrom 16 b l) 0
  frame : OnlyLinks (b :: l) m m'

/-- The same with the magics, which stay as they are like the flags. -/
structure MergedFrom (m : Memory) (b : Block) (l : List Block) (m' : Memory) : Prop where
  segment : Segment m' (coalesceFrom 16 b l) 0
  frame : ∀ x, ¬ InHeaders (b :: l) x → m' x = m x
  flags : ∀ c ∈ b :: l, blockUsed m' c.addr = blockUsed m c.addr

/-! ## Sizes and links -/

section Links

variable {m m' m'' : Memory} {l k : List Block} {b c : Block} {z : Nat}

theorem InLinks.inHeaders {x : Nat} (h : InLinks l x) : InHeaders l x := by
  obtain ⟨b, hb, hlo, hhi⟩ := h
  exact ⟨b, hb, by omega, by omega⟩

/-- The magics and the flags of a list are not among its sizes and links. -/
theorem not_inLinks (hapart : Apart 16 l) (hb : b ∈ l) {x : Nat}
    (hx : b.addr ≤ x ∧ x < b.addr + 4 ∨ b.addr + 12 ≤ x ∧ x < b.addr + 16) : ¬ InLinks l x := by
  rintro ⟨c, hc, hlo, hhi⟩
  by_cases heq : b = c
  · subst heq
    omega
  · have hor := hapart.of_mem hb hc heq
    omega

theorem OnlyLinks.mono (h : OnlyLinks l m m') (hsub : ∀ b ∈ l, ∃ c ∈ k, b.addr = c.addr) :
    OnlyLinks k m m' := by
  intro x hx
  apply h x
  rintro ⟨b, hb, hin⟩
  obtain ⟨c, hc, heq⟩ := hsub b hb
  exact hx ⟨c, hc, heq ▸ hin⟩

theorem OnlyLinks.trans (h : OnlyLinks l m m') (g : OnlyLinks l m' m'') : OnlyLinks l m m'' :=
  fun x hx => (g x hx).trans (h x hx)

/-- The header of a block apart from the list is the same. -/
theorem OnlyLinks.sameOn (h : OnlyLinks l m m')
    (hapart : ∀ c ∈ l, b.addr + 16 ≤ c.addr ∨ c.addr + 16 ≤ b.addr) :
    SameOn m m' b.addr (b.addr + 16) := by
  intro x hlo hhi
  apply h x
  rintro ⟨c, hc, hin⟩
  have hor := hapart c hc
  omega

end Links

/-! ## The walk -/

section Walk

variable {σ : Type*} {h : Heap σ} {m m₁ m' : Memory} {b c : Block} {l : List Block}

/-- One merge joins the current block with the next one. -/
theorem mergeNext_eq {next : Nat} (hb : LinkAt h.mem b c.addr) (hc : LinkAt h.mem c next)
    (hapart : b.addr + 16 ≤ c.addr ∨ c.addr + 16 ≤ b.addr)
    (hsize : b.size + (16 + c.size) < 2 ^ 32) :
    ∃ m, mergeNext h b.addr =
        { h with mem := m, heapEnd := if next = 0 then b.addr else h.heapEnd } ∧
      LinkAt m { b with size := b.size + (16 + c.size) } next ∧ OnlyLinks [b] h.mem m := by
  have hsum : Word32.wrap (blockSize h.mem b.addr + (heapBlockSize +
      blockSize h.mem (blockNext h.mem b.addr))) = b.size + (16 + c.size) := by
    rw [hb.next, hb.size, hc.size, heapBlockSize, Word32.wrap_of_lt hsize]
  have hsized : OnlyLinks [b] h.mem (setSize h.mem b.addr (b.size + (16 + c.size))) :=
    fun x hx => if_neg fun hin => hx ⟨b, by simp, by omega⟩
  have hnext : blockNext (setSize h.mem b.addr (b.size + (16 + c.size))) c.addr = next :=
    (hc.congr (hsized.sameOn (by simpa using hapart.symm))).next
  have hlt : next < 2 ^ 32 := hc.next ▸ load32_lt _ _
  refine ⟨setNext (setSize h.mem b.addr (b.size + (16 + c.size))) b.addr next, ?_,
    (hb.setSize hsize).setNext hlt,
    hsized.trans fun x hx => if_neg fun hin => hx ⟨b, by simp, by omega⟩⟩
  rw [mergeNext, hsum, blockNext_setSize, hb.next, hnext, blockNext_setNext _ _ hlt]

/-- The walk after `c` was joined with `b`. -/
theorem RelinkedFrom.absorb (hfree : b.used = false ∧ c.used = false) (honly : OnlyLinks [b] m m₁)
    (h : RelinkedFrom m₁ { b with size := b.size + (16 + c.size) } l m') :
    RelinkedFrom m b (c :: l) m' := by
  refine ⟨?_, (honly.mono (by simp)).trans (h.frame.mono fun d hd => ?_)⟩
  · rw [coalesceFrom, if_pos hfree]
    exact h.links
  · rcases List.mem_cons.mp hd with rfl | hd
    · exact ⟨b, by simp, rfl⟩
    · exact ⟨d, by simp [hd], rfl⟩

/-- The walk after `b` was left as it is. -/
theorem RelinkedFrom.skip (hlink : LinkAt m b c.addr) (hapart : Apart 16 (b :: c :: l))
    (hkeep : ¬ (b.used = false ∧ c.used = false)) (h : RelinkedFrom m c l m') :
    RelinkedFrom m b (c :: l) m' := by
  refine ⟨?_, h.frame.mono fun d hd => ⟨d, List.mem_cons_of_mem _ hd, rfl⟩⟩
  rw [coalesceFrom, if_neg hkeep]
  refine ⟨?_, h.links⟩
  rw [firstAddr_coalesceFrom]
  exact hlink.congr (h.frame.sameOn (List.pairwise_cons.mp hapart).1)

/-- `merge_blocks` from the block `b` on coalesces the list from there, and ends at its last
block. -/
theorem mergeLoop_links (hlinks : Links h.mem (b :: l) 0) (hpos : ∀ c ∈ b :: l, c.addr ≠ 0)
    (hapart : Apart 16 (b :: l)) (htotal : total 16 (b :: l) < 2 ^ 32)
    (hend : h.heapEnd = lastAddr (b :: l)) {fuel : Nat} (hfuel : l.length < fuel) :
    ∃ m, mergeLoop fuel h b.addr =
      some { h with mem := m, heapEnd := lastAddr (coalesceFrom 16 b l) } ∧
        RelinkedFrom h.mem b l m := by
  induction l generalizing b h fuel with
  | nil =>
    obtain ⟨fuel, rfl⟩ := Nat.exists_eq_add_one.mpr (Nat.zero_lt_of_lt hfuel)
    refine ⟨h.mem, ?_, hlinks, fun x _ => rfl⟩
    rw [mergeLoop, hlinks.1.next, if_pos (.inr rfl)]
    simp only [coalesceFrom, ← hend]
  | cons c l ih =>
    obtain ⟨fuel, rfl⟩ := Nat.exists_eq_add_one.mpr (Nat.zero_lt_of_lt hfuel)
    rw [List.length_cons] at hfuel
    obtain ⟨hbc, hcl⟩ := List.pairwise_cons.mp hapart
    have hne : ¬ (b.addr = 0 ∨ c.addr = 0) :=
      not_or.mpr ⟨hpos b (by simp), hpos c (by simp)⟩
    have hnext : blockNext h.mem b.addr = c.addr := hlinks.1.next
    have hsizes := htotal
    simp only [total_cons] at hsizes
    have htest : blockUsed h.mem b.addr = 0 ∧ blockUsed h.mem c.addr = 0 ↔
        b.used = false ∧ c.used = false := by rw [hlinks.1.used_iff, hlinks.2.1.used_iff]
    rw [mergeLoop, hnext, if_neg hne]
    by_cases hfree : b.used = false ∧ c.used = false
    · obtain ⟨m, hmerge, hlink, honly⟩ :=
        mergeNext_eq hlinks.1 hlinks.2.1 (hbc c (by simp)) (by omega)
      have hrest : ∀ d ∈ l, SameOn h.mem m d.addr (d.addr + 16) := fun d hd =>
        honly.sameOn (by simpa using (hbc d (by simp [hd])).symm)
      have hlast : (if firstAddr l 0 = 0 then b.addr else h.heapEnd) =
          lastAddr ({ b with size := b.size + (16 + c.size) } :: l) := by
        cases l with
        | nil => rfl
        | cons d l =>
          rw [firstAddr_cons, if_neg (hpos d (by simp)), hend]
          rfl
      have hpos' : ∀ d ∈ { b with size := b.size + (16 + c.size) } :: l, d.addr ≠ 0 := by
        intro d hd
        rcases List.mem_cons.mp hd with rfl | hd
        · exact hpos b (by simp)
        · exact hpos d (by simp [hd])
      obtain ⟨m', hloop, hrelinked⟩ := ih
        (h := { h with mem := m, heapEnd := if firstAddr l 0 = 0 then b.addr else h.heapEnd })
        ⟨hlink, hlinks.2.2.congr hrest⟩ hpos' (hapart.absorb _) (total_absorb.trans_lt htotal) hlast
        (show l.length < fuel by omega)
      rw [if_pos (htest.mpr hfree), hmerge, coalesceFrom, if_pos hfree]
      exact ⟨m', hloop, hrelinked.absorb hfree honly⟩
    · obtain ⟨m, hloop, hrelinked⟩ := ih hlinks.2 (fun d hd => hpos d (by simp [hd])) hcl
        (by simp only [total_cons]; omega) hend (show l.length < fuel by omega)
      rw [if_neg (htest.not.mpr hfree), coalesceFrom, if_neg hfree]
      refine ⟨m, ?_, hrelinked.skip hlinks.1 hapart hfree⟩
      rw [hloop, lastAddr_cons coalesceFrom_ne_nil]

theorem mergeBlocks_of_empty (hstart : h.heapStart = 0) : mergeBlocks h = some h := by
  obtain ⟨fuel, hfuel⟩ := loopFuel_eq_succ
  rw [mergeBlocks, hfuel, mergeLoop]
  exact if_pos (.inl hstart)

theorem mergeBlocks_eq_loop (hstart : h.heapStart = firstAddr (b :: l) 0) :
    mergeBlocks h = mergeLoop loopFuel h b.addr := by
  rw [mergeBlocks, hstart, firstAddr_cons]

/-- Where every block has its magic, it keeps it. -/
theorem RelinkedFrom.merged (hseg : Segment m (b :: l) 0) (hapart : Apart 16 (b :: l))
    (h : RelinkedFrom m b l m') : MergedFrom m b l m' := by
  refine ⟨segment_iff_links.mpr ⟨h.links, fun c hc => ?_⟩,
    fun x hx => h.frame x fun hin => hx hin.inHeaders,
    fun c hc => h.frame _ (not_inLinks hapart hc (by omega))⟩
  -- every block that is left starts where one of the list did
  obtain ⟨d, hd, haddr⟩ := exists_addr_of_mem_coalesce (l := b :: l) hc
  rw [← haddr, ← (segment_iff_links.mp hseg).2 d hd]
  exact load32_congr fun x hlo hhi => h.frame x (not_inLinks hapart hd (.inl ⟨hlo, hhi⟩))

theorem mergeLoop_eq (hseg : Segment h.mem (b :: l) 0) (hpos : ∀ c ∈ b :: l, c.addr ≠ 0)
    (hapart : Apart 16 (b :: l)) (htotal : total 16 (b :: l) < 2 ^ 32)
    (hend : h.heapEnd = lastAddr (b :: l)) {fuel : Nat} (hfuel : l.length < fuel) :
    ∃ m, mergeLoop fuel h b.addr =
      some { h with mem := m, heapEnd := lastAddr (coalesceFrom 16 b l) } ∧
        MergedFrom h.mem b l m := by
  obtain ⟨m, hloop, hrelinked⟩ :=
    mergeLoop_links (segment_iff_links.mp hseg).1 hpos hapart htotal hend hfuel
  exact ⟨m, hloop, hrelinked.merged hseg hapart⟩

/-- Without free neighbours there is nothing to merge. -/
theorem mergeLoop_separated (hlinks : Links h.mem (b :: l) 0) (hsep : Separated (b :: l))
    {fuel : Nat} (hfuel : l.length < fuel) : mergeLoop fuel h b.addr = some h := by
  induction l generalizing b fuel with
  | nil =>
    obtain ⟨fuel, rfl⟩ := Nat.exists_eq_add_one.mpr (Nat.zero_lt_of_lt hfuel)
    rw [mergeLoop, hlinks.1.next, if_pos (.inr rfl)]
  | cons c l ih =>
    obtain ⟨fuel, rfl⟩ := Nat.exists_eq_add_one.mpr (Nat.zero_lt_of_lt hfuel)
    rw [List.length_cons] at hfuel
    obtain ⟨hused, hrest⟩ := List.isChain_cons_cons.mp hsep
    have hnext : blockNext h.mem b.addr = c.addr := hlinks.1.next
    have hkeep : ¬ (blockUsed h.mem b.addr = 0 ∧ blockUsed h.mem c.addr = 0) := by
      rw [hlinks.1.used_iff, hlinks.2.1.used_iff]
      grind
    rw [mergeLoop, hnext, if_neg hkeep]
    split_ifs
    · rfl
    · exact ih hlinks.2 hrest (by omega)

end Walk

/-! ## The whole list -/

section Normalise

variable {σ : Type*} {h : Heap σ} {l : List Block}

theorem Heap.Lists.mergeBlocks (hl : h.Lists l) (hfits : total 16 l < 2 ^ 32) :
    ∃ h', mergeBlocks h = some h' ∧ h'.Lists (coalesce 16 l) ∧ OnlyLinks l h.mem h'.mem := by
  cases l with
  | nil => exact ⟨h, mergeBlocks_of_empty hl.start, hl, fun x _ => rfl⟩
  | cons b l =>
    obtain ⟨m, hloop, hrelinked⟩ := mergeLoop_links hl.links hl.pos hl.apart hfits hl.last
      (Nat.lt_of_succ_lt (length_lt_loopFuel hfits))
    refine ⟨{ h with mem := m, heapEnd := lastAddr (coalesceFrom 16 b l) },
      (mergeBlocks_eq_loop hl.start).trans hloop,
      ⟨hrelinked.links, ?_, rfl, fun c hc => ?_, hl.apart.of_addrs addrs_coalesce⟩,
      hrelinked.frame⟩
    · rw [coalesce, firstAddr_coalesceFrom]
      exact hl.start
    · obtain ⟨d, hd, haddr⟩ := exists_addr_of_mem_coalesce hc
      exact haddr ▸ hl.pos d hd

theorem Heap.Lists.mergeBlocks_of_separated (hl : h.Lists l) (hfits : total 16 l < 2 ^ 32)
    (hsep : Separated l) : Mm.mergeBlocks h = some h := by
  cases l with
  | nil => exact mergeBlocks_of_empty hl.start
  | cons b l =>
    rw [mergeBlocks_eq_loop hl.start]
    exact mergeLoop_separated hl.links hsep (Nat.lt_of_succ_lt (length_lt_loopFuel hfits))

/-- `merge_blocks` returns on every list whose blocks and headers fit into 32 bits, whatever the
flags, the sizes and the order of the addresses. It leaves one block for each used block and each
maximal run of free blocks, the used ones as they were and `heap_end` at the last one, and does
nothing when it is called again. -/
theorem merge_blocks_normalises (hl : h.Lists l) (hfits : total heapBlockSize l < 2 ^ 32) :
    ∃ runs h', MaximalRuns l runs ∧ mergeBlocks h = some h' ∧
      h'.Lists (runs.map (BlockRun.join heapBlockSize)) ∧
      (runs.map (BlockRun.join heapBlockSize)).filter Block.used = l.filter Block.used ∧
      OnlyLinks l h.mem h'.mem ∧ mergeBlocks h' = some h' := by
  obtain ⟨h', hmerge, hl', honly⟩ := hl.mergeBlocks hfits
  have hruns := maximalRuns_blockRuns l
  have hagain : mergeBlocks h' = some h' := by
    refine hl'.mergeBlocks_of_separated ?_ separated_coalesce
    cases l with
    | nil => simp [coalesce]
    | cons b l => exact total_coalesceFrom.trans_lt hfits
  refine ⟨blockRuns l, h', hruns, hmerge, ?_, ?_, honly, hagain⟩ <;>
    rw [heapBlockSize, ← coalesce_eq_map_join hruns]
  · exact hl'
  · exact filter_used_coalesce

end Normalise

/-- Two free blocks, the second at the lower address, and a used one. -/
def scattered : Heap Unit where
  mem := setUsed (setNext (setSize (setNext (setSize (setSize (fun _ => 0) 0x3000 8) 0x1000 16)
    0x1000 0x3000) 0x2000 32) 0x2000 0x1000) 0x3000 7
  heapStart := 0x2000
  heapEnd := 0x3000
  heapSize := 4096
  pages := ()

theorem scattered_lists :
    scattered.Lists [⟨0x2000, 32, false⟩, ⟨0x1000, 16, false⟩, ⟨0x3000, 8, true⟩] where
  links := by
    refine ⟨⟨?_, ?_, ?_⟩, ⟨?_, ?_, ?_⟩, ⟨?_, ?_, ?_⟩, trivial⟩ <;> decide +kernel
  start := rfl
  last := rfl
  pos := by simp
  apart := by simp [Apart]

theorem merge_blocks_normalises_scattered : ∃ runs h',
    MaximalRuns [⟨0x2000, 32, false⟩, ⟨0x1000, 16, false⟩, ⟨0x3000, 8, true⟩] runs ∧
      mergeBlocks scattered = some h' ∧ h'.Lists (runs.map (BlockRun.join heapBlockSize)) ∧
      (runs.map (BlockRun.join heapBlockSize)).filter Block.used = [⟨0x3000, 8, true⟩] ∧
      OnlyLinks [⟨0x2000, 32, false⟩, ⟨0x1000, 16, false⟩, ⟨0x3000, 8, true⟩] scattered.mem h'.mem ∧
      mergeBlocks h' = some h' :=
  merge_blocks_normalises scattered_lists (by decide)

end HolyOs.Mm
