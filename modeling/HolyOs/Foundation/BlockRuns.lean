import HolyOs.Foundation.BlockList

/-!
# Runs of free blocks

What coalescing is for, without a pass over the list: cut it into its used blocks and its maximal
runs of free blocks, and put one block in the place of each.
-/
namespace BlockList

/-- A used block, or a free block and the free blocks behind it that it absorbs. -/
structure BlockRun where
  first : Block
  absorbed : List Block
  free : ∀ b ∈ absorbed, first.used = false ∧ b.used = false

namespace BlockRun

def blocks (r : BlockRun) : List Block := r.first :: r.absorbed

/-- The first block with the sizes of all of them and the headers of the absorbed ones. -/
def join (hdr : Nat) (r : BlockRun) : Block :=
  { r.first with size := (r.blocks.map Block.size).sum + hdr * r.absorbed.length }

end BlockRun

/-- The list is cut into runs, and no two free ones are neighbours. -/
structure MaximalRuns (l : List Block) (runs : List BlockRun) : Prop where
  blocks : runs.flatMap BlockRun.blocks = l
  maximal : runs.IsChain fun r s => r.first.used = true ∨ s.first.used = true

/-- The runs of a list with `b` in front of it. -/
def consRun (b : Block) : List BlockRun → List BlockRun
  | [] => [⟨b, [], by simp⟩]
  | r :: runs =>
    if h : b.used = false ∧ r.first.used = false then
      ⟨b, r.blocks, by
        intro c hc
        rcases List.mem_cons.mp hc with rfl | hc
        · exact h
        · exact ⟨h.1, (r.free c hc).2⟩⟩ :: runs
    else ⟨b, [], by simp⟩ :: r :: runs

def blockRuns (l : List Block) : List BlockRun := l.foldr consRun []

section Runs

variable {hdr : Nat} {b c : Block} {l k : List Block} {runs : List BlockRun}

theorem MaximalRuns.cons (h : MaximalRuns l runs) : MaximalRuns (b :: l) (consRun b runs) := by
  obtain ⟨rfl, hmaximal⟩ := h
  cases runs with
  | nil => exact ⟨rfl, .singleton _⟩
  | cons r runs =>
    simp only [consRun]
    split_ifs with hfree
    · refine ⟨rfl, ?_⟩
      -- the longer run is free like the one it starts before
      cases runs with
      | nil => exact .singleton _
      | cons s runs =>
        obtain ⟨hrs, hrest⟩ := List.isChain_cons_cons.mp hmaximal
        refine List.isChain_cons_cons.mpr ⟨.inr ?_, hrest⟩
        simpa [hfree.2] using hrs
    · refine ⟨rfl, List.isChain_cons_cons.mpr ⟨?_, hmaximal⟩⟩
      simp only [← Bool.not_eq_true] at hfree ⊢
      tauto

theorem maximalRuns_blockRuns (l : List Block) : MaximalRuns l (blockRuns l) := by
  induction l with
  | nil => exact ⟨rfl, .nil⟩
  | cons b l ih => exact ih.cons

/-! ## Coalescing joins the runs -/

/-- The pass absorbs the free blocks behind a free one. -/
theorem coalesceFrom_append (h : ∀ c ∈ k, b.used = false ∧ c.used = false) :
    coalesceFrom hdr b (k ++ l) =
      coalesceFrom hdr { b with size := b.size + (k.map Block.size).sum + hdr * k.length } l := by
  induction k generalizing b with
  | nil => simp
  | cons c k ih =>
    obtain ⟨hc, hk⟩ := List.forall_mem_cons.mp h
    rw [List.cons_append, coalesceFrom, if_pos hc,
      ih (b := { b with size := b.size + (hdr + c.size) }) hk]
    congr 2
    simp only [List.map_cons, List.sum_cons, List.length_cons, Nat.mul_succ]
    omega

/-- The pass goes on with the next run when one of the two is used. -/
theorem coalesceFrom_of_used (h : ∀ c ∈ l.head?, b.used = true ∨ c.used = true) :
    coalesceFrom hdr b l = b :: coalesce hdr l := by
  cases l with
  | nil => rfl
  | cons c l =>
    have hkeep := h c rfl
    rw [coalesceFrom, if_neg (by grind), coalesce]

theorem coalesce_eq_map_join (h : MaximalRuns l runs) :
    coalesce hdr l = runs.map (BlockRun.join hdr) := by
  obtain ⟨rfl, hmaximal⟩ := h
  induction runs with
  | nil => rfl
  | cons r runs ih =>
    have hjoin : coalesce hdr (r.blocks ++ runs.flatMap BlockRun.blocks) =
        coalesceFrom hdr (r.join hdr) (runs.flatMap BlockRun.blocks) := by
      rw [BlockRun.blocks, List.cons_append, coalesce, coalesceFrom_append r.free]
      simp [BlockRun.join, BlockRun.blocks]
    rw [List.flatMap_cons, hjoin, List.map_cons, coalesceFrom_of_used, ih hmaximal.tail]
    cases runs with
    | nil => simp
    | cons s runs =>
      have hrs := (List.isChain_cons_cons.mp hmaximal).1
      simpa [BlockRun.blocks, BlockRun.join] using hrs

/-- The used blocks stay as they are and in their order. -/
theorem filter_used_coalesceFrom :
    (coalesceFrom hdr b l).filter Block.used = (b :: l).filter Block.used := by
  fun_induction coalesceFrom hdr b l with
  | case1 b => rfl
  | case2 b c l hfree ih => grind
  | case3 b c l hkeep ih => rw [List.filter_cons, ih, ← List.filter_cons]

theorem filter_used_coalesce : (coalesce hdr l).filter Block.used = l.filter Block.used := by
  cases l with
  | nil => rfl
  | cons b l => exact filter_used_coalesceFrom

end Runs

end BlockList
