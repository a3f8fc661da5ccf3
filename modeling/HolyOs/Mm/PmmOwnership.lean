import HolyOs.Foundation.Pool
import HolyOs.Mm.Pmm
import Mathlib.Data.Nat.ModEq

/-!
# Exclusive ownership of physical pages

A ledger runs next to the allocator and records which pages are held and which were ever
freed. Pages are freed only while held; nothing else is assumed about the callers. The
allocator then refines the abstract pool of blocks: the first clear bit is the least
available block, and the packed bitmap never aliases two of them.
-/
namespace HolyOs.Mm

open Transition

inductive PmmOp
  | allocPage
  | allocPageAligned
  | freePage (page : Nat)

/-- Execute an operation; the result of a free is not used. -/
def PmmOp.exec (p : Pmm) : PmmOp → Nat × Pmm
  | .allocPage => pmmAllocPage p
  | .allocPageAligned => pmmAllocPageAligned p
  | .freePage page => (0, pmmFreePage p page)

/-- The block an operation is about: the one returned or the one given back. -/
def PmmOp.block (p : Pmm) : PmmOp → Nat
  | .freePage page => page / 4096
  | op => (op.exec p).1 / 4096

/-- The allocator with the pages its callers hold and the pages freed so far. -/
structure Ledger where
  pmm : Pmm
  held : Finset Nat
  freed : Finset Nat

/-- Enter the outcome of an operation. A zero result is a failure and is not held. -/
def Ledger.enter (s : Ledger) : PmmOp → Ledger
  | .freePage page => ⟨pmmFreePage s.pmm page, s.held.erase page, insert page s.freed⟩
  | op =>
    let r := op.exec s.pmm
    ⟨r.2, if r.1 = 0 then s.held else insert r.1 s.held, s.freed⟩

/-- Callers free only pages they hold. -/
def Ledger.Step (s : Ledger) (op : PmmOp) (t : Ledger) : Prop :=
  (∀ page, op = .freePage page → page ∈ s.held) ∧ t = s.enter op

/-- A possible start: `held` are pages below the limit, other than page zero, that are
marked in the bitmap. -/
structure Ledger.Start (p : Pmm) (held : Finset Nat) : Prop where
  consistent : p.Consistent
  zero : 0 ∉ p.freeBlocks
  aligned : ∀ page ∈ held, page % 4096 = 0
  below : ∀ page ∈ held, 0 < page / 4096 ∧ page / 4096 < p.pmmMaxBlocks
  marked : ∀ page ∈ held, p.marked (page / 4096) = true

/-! ## Refinement of the pool of blocks -/

def PmmOp.toPool : PmmOp → Pool.Op Nat
  | .freePage page => .give (page / 4096)
  | _ => .take

/-- The ledger shows the pool `a`: free blocks are available, and pages stand for blocks.
Block zero is outside the pool. -/
structure Ledger.Shows (p : Pmm) (s : Ledger) (a : Pool.State Nat) : Prop where
  consistent : s.pmm.Consistent
  limit : s.pmm.pmmMaxBlocks = p.pmmMaxBlocks
  available : s.pmm.freeBlocks = a.available
  held : s.held = a.held.image (· * 4096)
  freed : s.freed = a.returned.image (· * 4096)
  disjoint : Disjoint a.available a.held
  inside : ∀ block ∈ a.available ∪ a.held, 0 < block ∧ block < p.pmmMaxBlocks
  reserved : ∀ block ∈ a.held, s.pmm.marked block = true

theorem mem_image_block {blocks : Finset Nat} {page : Nat} :
    page ∈ blocks.image (· * 4096) ↔ page % 4096 = 0 ∧ page / 4096 ∈ blocks := by
  simp only [Finset.mem_image]
  constructor
  · rintro ⟨block, hblock, rfl⟩
    simp [hblock]
  · rintro ⟨haligned, hblock⟩
    exact ⟨page / 4096, hblock, by omega⟩

theorem image_block_insert (blocks : Finset Nat) (block : Nat) :
    insert (block * 4096) (blocks.image (· * 4096)) = (insert block blocks).image (· * 4096) := by
  rw [Finset.image_insert]

theorem image_block_erase (blocks : Finset Nat) (block : Nat) :
    (blocks.image (· * 4096)).erase (block * 4096) = (blocks.erase block).image (· * 4096) := by
  rw [Finset.image_erase]
  intro a b h
  simpa using h

section Refinement

variable {p : Pmm} {s t : Ledger} {a : Pool.State Nat}

theorem Ledger.Start.shows {held : Finset Nat} (h : Ledger.Start p held) :
    Ledger.Shows p ⟨p, held, ∅⟩ ⟨p.freeBlocks, held.image (· / 4096), ∅⟩ where
  consistent := h.consistent
  limit := rfl
  available := rfl
  held := by
    ext page
    rw [mem_image_block, Finset.mem_image]
    constructor
    · exact fun hpage => ⟨h.aligned page hpage, page, hpage, rfl⟩
    · rintro ⟨haligned, other, hother, heq⟩
      have := h.aligned other hother
      obtain rfl : other = page := by omega
      exact hother
  freed := by simp
  disjoint := by
    rw [Finset.disjoint_right]
    intro block hblock hfree
    obtain ⟨page, hpage, rfl⟩ := Finset.mem_image.mp hblock
    simp [h.marked page hpage] at hfree
  inside := by
    intro block hblock
    rcases Finset.mem_union.mp hblock with hfree | hheld
    · refine ⟨Nat.pos_of_ne_zero ?_, (mem_freeBlocks.mp hfree).1⟩
      rintro rfl
      exact h.zero hfree
    · obtain ⟨page, hpage, rfl⟩ := Finset.mem_image.mp hheld
      exact h.below page hpage
  reserved := by
    intro block hblock
    obtain ⟨page, hpage, rfl⟩ := Finset.mem_image.mp hblock
    exact h.marked page hpage

/-- An allocation takes the least available block of the pool. -/
theorem Ledger.Shows.alloc (h : Ledger.Shows p s a) {op : PmmOp}
    (hop : op = .allocPage ∨ op = .allocPageAligned) :
    ∃ c, Pool.Step a .take c ∧ Ledger.Shows p (s.enter op) c := by
  have hexec : ∃ flag, op.exec s.pmm = pmmAllocPageInternal s.pmm flag := by
    rcases hop with rfl | rfl
    · exact ⟨false, rfl⟩
    · exact ⟨true, rfl⟩
  obtain ⟨flag, hexec⟩ := hexec
  have henter : s.enter op = ⟨(op.exec s.pmm).2, if (op.exec s.pmm).1 = 0 then s.held
      else insert (op.exec s.pmm).1 s.held, s.freed⟩ := by
    rcases hop with rfl | rfl <;> rfl
  rcases pmmAllocPageInternal_cases s.pmm flag with ⟨block, hfirst, hres⟩ | ⟨hempty, hres⟩
  · obtain ⟨hfree, hleast⟩ := hfirst
    have hmem : block ∈ a.available := h.available ▸ hfree
    obtain ⟨hpos, hlt⟩ := h.inside block (Finset.mem_union_left _ hmem)
    rw [h.consistent.wrap_block (mem_freeBlocks.mp hfree).1] at hres
    refine ⟨_, .take hmem (fun j hj => hleast j (h.available ▸ hj)), ?_⟩
    rw [henter, hexec, hres, if_neg (show block * 4096 ≠ 0 by omega)]
    exact {
      consistent := h.consistent.take
      limit := h.limit
      available := by rw [freeBlocks_take, h.available]
      held := by rw [h.held, image_block_insert]
      freed := h.freed
      disjoint := by
        rw [Finset.disjoint_left]
        intro j hj
        obtain ⟨hne, hj⟩ := Finset.mem_erase.mp hj
        simp [hne, Finset.disjoint_left.mp h.disjoint hj]
      inside := by
        intro j hj
        apply h.inside j
        simp only [Finset.mem_union, Finset.mem_erase, Finset.mem_insert] at hj ⊢
        rcases hj with hj | rfl | hj
        · exact .inl hj.2
        · exact .inl hmem
        · exact .inr hj
      reserved := by
        intro j hj
        rw [marked_take]
        rcases Finset.mem_insert.mp hj with rfl | hj
        · simp
        · simp [h.reserved j hj] }
  · refine ⟨a, .exhausted (h.available ▸ hempty), ?_⟩
    rw [henter, hexec, hres]
    exact h

/-- Freeing a held page gives its block back to the pool. -/
theorem Ledger.Shows.free (h : Ledger.Shows p s a) {page : Nat} (hpage : page ∈ s.held) :
    ∃ c, Pool.Step a (.give (page / 4096)) c ∧ Ledger.Shows p (s.enter (.freePage page)) c := by
  rw [h.held, mem_image_block] at hpage
  obtain ⟨haligned, hheld⟩ := hpage
  have hblock : page = page / 4096 * 4096 := by omega
  have hlt : page / 4096 < s.pmm.pmmMaxBlocks :=
    h.limit ▸ (h.inside _ (Finset.mem_union_right _ hheld)).2
  refine ⟨_, .give hheld, ?_⟩
  simp only [Ledger.enter, pmmFreePage_of_marked hlt (h.reserved _ hheld)]
  exact {
    consistent := h.consistent.give
    limit := h.limit
    available := by rw [freeBlocks_give hlt, h.available]
    held := by rw [h.held, ← image_block_erase, ← hblock]
    freed := by rw [h.freed, ← image_block_insert, ← hblock]
    disjoint := by
      rw [Finset.disjoint_right]
      intro j hj
      obtain ⟨hne, hj⟩ := Finset.mem_erase.mp hj
      simp [hne, Finset.disjoint_right.mp h.disjoint hj]
    inside := by
      intro j hj
      apply h.inside j
      simp only [Finset.mem_union, Finset.mem_erase, Finset.mem_insert] at hj ⊢
      rcases hj with (rfl | hj) | hj
      · exact .inr hheld
      · exact .inl hj
      · exact .inr hj.2
    reserved := by
      intro j hj
      obtain ⟨hne, hj⟩ := Finset.mem_erase.mp hj
      simp [marked_give, hne, h.reserved j hj] }

/-- The allocator refines the pool. -/
theorem Ledger.Shows.step (h : Ledger.Shows p s a) {op : PmmOp} (hstep : Ledger.Step s op t) :
    ∃ c, Pool.Step a op.toPool c ∧ Ledger.Shows p t c := by
  obtain ⟨hguard, rfl⟩ := hstep
  cases op with
  | allocPage => exact h.alloc (.inl rfl)
  | allocPageAligned => exact h.alloc (.inr rfl)
  | freePage page => exact h.free (hguard page rfl)

end Refinement

/-! ## Ownership over every history -/

/-- Every ledger reached from a start shows a balanced pool. -/
theorem Ledger.run_shows {p : Pmm} {held : Finset Nat} (hstart : Ledger.Start p held)
    {ops : List PmmOp} {s : Ledger} (h : Run Ledger.Step ⟨p, held, ∅⟩ ops s) :
    ∃ a, Ledger.Shows p s a ∧ Pool.Balanced p.freeBlocks (held.image (· / 4096)) a := by
  have hshows := hstart.shows
  obtain ⟨a, hrun, ha⟩ := h.simulates PmmOp.toPool hshows
    (fun t op u b hb hstep => hb.step hstep)
  exact ⟨a, ha, Pool.Run.balanced hshows.disjoint hrun⟩

/-- The bits an operation leaves alone, and its effect on the two counts. -/
theorem Ledger.Step.effect {s t : Ledger} {op : PmmOp} (h : s.pmm.Consistent)
    (hstep : Ledger.Step s op t) :
    (∀ j, j ≠ op.block s.pmm → t.pmm.marked j = s.pmm.marked j) ∧
      t.pmm.pmmUsedBlocks + s.pmm.markCount ≡ s.pmm.pmmUsedBlocks + t.pmm.markCount
        [MOD 2 ^ 32] := by
  obtain ⟨-, rfl⟩ := hstep
  cases op with
  | allocPage => exact pmmAllocPageInternal_effect h false
  | allocPageAligned => exact pmmAllocPageInternal_effect h true
  | freePage page => exact pmmFreePage_effect h page

/-- A successful allocation returns the first free block, which nobody holds. -/
theorem Ledger.Shows.result {p : Pmm} {s : Ledger} {a : Pool.State Nat}
    (h : Ledger.Shows p s a) {flag : Bool} (hne : (pmmAllocPageInternal s.pmm flag).1 ≠ 0) :
    (∃ block, s.pmm.FirstFree block ∧ (pmmAllocPageInternal s.pmm flag).1 = 4096 * block) ∧
      (pmmAllocPageInternal s.pmm flag).1 ∉ s.held := by
  rcases pmmAllocPageInternal_cases s.pmm flag with ⟨block, hfirst, hres⟩ | ⟨_, hres⟩
  · rw [hres, h.consistent.wrap_block (mem_freeBlocks.mp hfirst.1).1]
    refine ⟨⟨block, hfirst, Nat.mul_comm _ _⟩, ?_⟩
    rw [h.held, mem_image_block, Nat.mul_div_cancel _ (by decide)]
    rintro ⟨-, hheld⟩
    exact Finset.disjoint_left.mp h.disjoint (h.available ▸ hfirst.1) hheld
  · simp [hres] at hne

/-- Pages report as free exactly when they were free at the start or have been freed, and
are not held. -/
theorem Ledger.Shows.isPageFree {p : Pmm} {s : Ledger} {a : Pool.State Nat} {held : Finset Nat}
    (h : Ledger.Shows p s a) (hbal : Pool.Balanced p.freeBlocks held a) {page : Nat}
    (haligned : page % 4096 = 0) :
    pmmIsPageFree s.pmm page = true ↔
      (pmmIsPageFree p page = true ∨ page ∈ s.freed) ∧ page ∉ s.held := by
  rw [pmmIsPageFree_iff, pmmIsPageFree_iff, h.available, h.freed, h.held, mem_image_block,
    mem_image_block, hbal.accounted]
  simp [haligned]

/-- Exclusive ownership of physical pages. After every history in which pages are freed only
while held, starting from pages `held` that are marked (in particular from none):
free means free at the start or freed since, and not held; a non-zero result is the address
of the first free block and was held by nobody; the two allocation functions agree; and each
operation changes at most the bit of its own block, with `pmm_used_blocks` changing exactly
as the number of set bits does. -/
theorem pmm_exclusive_ownership {p : Pmm} {held : Finset Nat} (hstart : Ledger.Start p held)
    {ops : List PmmOp} {s : Ledger} (hrun : Run Ledger.Step ⟨p, held, ∅⟩ ops s) :
    (∀ page, page % 4096 = 0 → page / 4096 < p.pmmMaxBlocks →
      (pmmIsPageFree s.pmm page = true ↔
        (pmmIsPageFree p page = true ∨ page ∈ s.freed) ∧ page ∉ s.held)) ∧
    (pmmAllocPage s.pmm = pmmAllocPageAligned s.pmm) ∧
    ((pmmAllocPage s.pmm).1 ≠ 0 →
      (∃ block, s.pmm.FirstFree block ∧ (pmmAllocPage s.pmm).1 = 4096 * block) ∧
        (pmmAllocPage s.pmm).1 ∉ s.held) ∧
    ∀ op t, Ledger.Step s op t →
      (∀ j, j ≠ op.block s.pmm → t.pmm.marked j = s.pmm.marked j) ∧
      t.pmm.pmmUsedBlocks + s.pmm.markCount ≡ s.pmm.pmmUsedBlocks + t.pmm.markCount
        [MOD 2 ^ 32] := by
  obtain ⟨a, hshows, hbal⟩ := Ledger.run_shows hstart hrun
  refine ⟨fun page haligned _ => hshows.isPageFree hbal haligned,
    pmmAllocPageInternal_eq _ _ _, hshows.result, fun op t hstep => hstep.effect hshows.consistent⟩

/-- A manager of four blocks of which blocks 1 to 3 are free. -/
def fourBlocks : Pmm := ⟨fun _ => 0xFFFFFFF1#32, 0, 1, 4, 1⟩

theorem fourBlocks_consistent : fourBlocks.Consistent := ⟨by decide, by decide⟩

/-- The ledger after page 1 was allocated and freed again. -/
def fourBlocksReused : Ledger :=
  (Ledger.enter ⟨fourBlocks, ∅, ∅⟩ .allocPage).enter (.freePage 4096)

theorem pmm_exclusive_ownership_fourBlocks :
    pmmIsPageFree fourBlocksReused.pmm 4096 = true ↔
      (pmmIsPageFree fourBlocks 4096 = true ∨ 4096 ∈ fourBlocksReused.freed) ∧
        4096 ∉ fourBlocksReused.held := by
  have hstart : Ledger.Start fourBlocks ∅ := {
    consistent := fourBlocks_consistent
    zero := by decide
    aligned := by simp
    below := by simp
    marked := by simp }
  have hheld : ∀ page, PmmOp.freePage 4096 = .freePage page →
      page ∈ (Ledger.enter ⟨fourBlocks, ∅, ∅⟩ .allocPage).held := by
    rintro page ⟨⟩
    decide
  have hrun : Run Ledger.Step ⟨fourBlocks, ∅, ∅⟩ [.allocPage, .freePage 4096] fourBlocksReused :=
    (Run.single ⟨by simp, rfl⟩).snoc ⟨hheld, rfl⟩
  exact (pmm_exclusive_ownership hstart hrun).1 4096 (by decide) (by decide)

end HolyOs.Mm
