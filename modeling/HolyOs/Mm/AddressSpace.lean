import HolyOs.Mm.Vmm
import Mathlib.Logic.Function.Basic

/-!
# Address spaces and their page tables

An address space says what paging is for: a partial map from page numbers to blocks, and the
block of the table for each region of 1024 pages. `Shows v a` relates it to the words the
code keeps in physical memory. Under this relation the processor's walk computes the map,
writing one table entry updates it at one page, and installing a table changes nothing it
maps. The proofs about histories use these facts and no address arithmetic.
-/
namespace HolyOs.Mm

open ByteMemory HolyOs.Lib

/-- A directory in block `root`, tables by directory index, and frames by page number. -/
structure AddressSpace where
  root : Nat
  tables : Nat → Option Nat
  frames : Nat → Option Nat

/-- The words of physical memory encode the address space, and its tables and directory are
different blocks. -/
structure Vmm.Shows (v : Vmm) (a : AddressSpace) : Prop where
  directory : v.currentPageDirectory = 4096 * a.root
  root_lt : a.root < 2 ^ 20
  table_lt : ∀ {i t}, a.tables i = some t → i < 1024 ∧ t < 2 ^ 20
  table_ne_root : ∀ {i t}, a.tables i = some t → t ≠ a.root
  table_inj : ∀ {i j t}, a.tables i = some t → a.tables j = some t → i = j
  pde : ∀ i < 1024, Encodes (load32 v.mem (4096 * a.root + 4 * i)) (a.tables i)
  pte : ∀ i < 1024, ∀ t, a.tables i = some t → ∀ j < 1024,
    Encodes (load32 v.mem (4096 * t + 4 * j)) (a.frames (1024 * i + j))
  unmapped : ∀ i < 1024, a.tables i = none → ∀ j < 1024, a.frames (1024 * i + j) = none

/-! ## Words in different blocks -/

/-- Words of one block are outside every other block. -/
theorem word_outside {b c j : Nat} (hne : b ≠ c) (hj : j < 1024) :
    4096 * c + 4 * j + 4 ≤ 4096 * b ∨ 4096 * b + 4096 ≤ 4096 * c + 4 * j := by
  rcases Nat.lt_or_gt_of_ne hne with h | h <;> omega

/-- A store to a word of block `b` does not change the words of block `c`. -/
theorem load32_store_other {m : Memory} {b c i j v : Nat} (hne : b ≠ c) (hi : i < 1024)
    (hj : j < 1024) :
    load32 (store32 m (4096 * b + 4 * i) v) (4096 * c + 4 * j) = load32 m (4096 * c + 4 * j) := by
  apply load32_store32_of_disjoint
  have := word_outside hne hj
  omega

/-- A store to a word of a block does not change its other words. -/
theorem load32_store_word {m : Memory} {b i j v : Nat} (hne : i ≠ j) :
    load32 (store32 m (4096 * b + 4 * i) v) (4096 * b + 4 * j) = load32 m (4096 * b + 4 * j) := by
  apply load32_store32_of_disjoint
  omega

/-- Zeroing block `b` does not change the words of block `c`. -/
theorem load32_zeroed_other {m : Memory} {b c j : Nat} (hb : b < 2 ^ 20) (hne : b ≠ c)
    (hj : j < 1024) :
    load32 (memset m (4096 * b) 0 pageSize) (4096 * c + 4 * j) = load32 m (4096 * c + 4 * j) := by
  apply load32_congr
  intro x hlo hhi
  have := word_outside hne hj
  rw [memset_apply _ _ (by simp only [pageSize]; omega), if_neg]
  simp only [pageSize]
  omega

/-- Every word of a zeroed block is zero. -/
theorem load32_zeroed {m : Memory} {b j : Nat} (hb : b < 2 ^ 20) (hj : j < 1024) :
    load32 (memset m (4096 * b) 0 pageSize) (4096 * b + 4 * j) = 0 := by
  apply load32_zero
  intro x hlo hhi
  rw [memset_apply _ _ (by simp only [pageSize]; omega), if_pos]
  simp only [pageSize]
  omega

/-! ## The walk computes the map -/

section Walk

variable {v : Vmm} {a : AddressSpace}

/-- The directory entry of an address, as the abstract tables have it. -/
theorem Vmm.Shows.pde_encodes (h : v.Shows a) (virt : Nat) :
    Encodes (v.pde (pdIndex virt)) (a.tables (pdIndex virt)) := by
  rw [Vmm.pde, h.directory]
  exact h.pde _ (pdIndex_lt virt)

theorem Vmm.Shows.pde_absent (h : v.Shows a) (virt : Nat) :
    v.pde (pdIndex virt) &&& pagePresent = 0 ↔ a.tables (pdIndex virt) = none :=
  (h.pde_encodes virt).present

/-- The address of the table entry, where there is a table. -/
theorem Vmm.Shows.entryAddr_eq (h : v.Shows a) {virt t : Nat}
    (ht : a.tables (pdIndex virt) = some t) : v.entryAddr virt = 4096 * t + 4 * ptIndex virt := by
  have hpde := h.pde_encodes virt
  rw [ht] at hpde
  rw [Vmm.entryAddr, hpde.tableOf (load32_lt _ _)]

/-- The table entry of an address, as the abstract map has it. -/
theorem Vmm.Shows.pte_encodes (h : v.Shows a) {virt t : Nat} (hvirt : virt < 2 ^ 32)
    (ht : a.tables (pdIndex virt) = some t) :
    Encodes (load32 v.mem (4096 * t + 4 * ptIndex virt)) (a.frames (virt / 4096)) := by
  rw [← pageNumber_eq hvirt]
  exact h.pte _ (pdIndex_lt virt) t ht _ (ptIndex_lt virt)

/-- A page without a table is not mapped. -/
theorem Vmm.Shows.frames_of_no_table (h : v.Shows a) {virt : Nat} (hvirt : virt < 2 ^ 32)
    (ht : a.tables (pdIndex virt) = none) : a.frames (virt / 4096) = none := by
  rw [← pageNumber_eq hvirt]
  exact h.unmapped _ (pdIndex_lt virt) ht _ (ptIndex_lt virt)

theorem Vmm.Shows.translate_eq (h : v.Shows a) {virt : Nat} (hvirt : virt < 2 ^ 32) :
    v.translate virt = (a.frames (virt / 4096)).map fun f => 4096 * f + virt % 4096 := by
  have hpde := h.pde_encodes virt
  rw [Vmm.pde] at hpde
  unfold Vmm.translate HolyOs.Mm.translate walk
  cases ht : a.tables (pdIndex virt) with
  | none =>
    rw [if_pos (hpde.present.mpr ht), h.frames_of_no_table hvirt ht]
    rfl
  | some t =>
    have hpte := h.pte_encodes hvirt ht
    have hpresent : ¬ load32 v.mem (v.currentPageDirectory + 4 * pdIndex virt) &&&
        pagePresent = 0 := by
      rw [hpde.present, ht]
      simp
    rw [ht] at hpde
    rw [if_neg hpresent, hpde.tableOf (load32_lt _ _)]
    cases hf : a.frames (virt / 4096) with
    | none => rw [if_pos (hpte.present.mpr hf)]; rfl
    | some f =>
      have hmapped : ¬ load32 v.mem (4096 * t + 4 * ptIndex virt) &&& pagePresent = 0 := by
        rw [hpte.present, hf]
        simp
      rw [hf] at hpte
      rw [if_neg hmapped]
      simp [hpte.tableOf (load32_lt _ _)]

end Walk

/-! ## Writing one table entry -/

/-- Map one page to a frame, or unmap it. -/
def AddressSpace.setFrame (a : AddressSpace) (page : Nat) (o : Option Nat) : AddressSpace :=
  { a with frames := Function.update a.frames page o }

/-- Add a table. -/
def AddressSpace.setTable (a : AddressSpace) (index block : Nat) : AddressSpace :=
  { a with tables := Function.update a.tables index (some block) }

@[simp] theorem setFrame_root (a : AddressSpace) (page : Nat) (o : Option Nat) :
    (a.setFrame page o).root = a.root := rfl
@[simp] theorem setFrame_tables (a : AddressSpace) (page : Nat) (o : Option Nat) :
    (a.setFrame page o).tables = a.tables := rfl
@[simp] theorem setTable_root (a : AddressSpace) (index block : Nat) :
    (a.setTable index block).root = a.root := rfl
@[simp] theorem setTable_frames (a : AddressSpace) (index block : Nat) :
    (a.setTable index block).frames = a.frames := rfl

theorem setFrame_frames (a : AddressSpace) (page n : Nat) (o : Option Nat) :
    (a.setFrame page o).frames n = if n = page then o else a.frames n :=
  Function.update_apply a.frames page o n

theorem setFrame_frames_same (a : AddressSpace) (page : Nat) (o : Option Nat) :
    (a.setFrame page o).frames page = o := by
  rw [setFrame_frames, if_pos rfl]

theorem setTable_tables (a : AddressSpace) (index block i : Nat) :
    (a.setTable index block).tables i = if i = index then some block else a.tables i :=
  Function.update_apply a.tables index (some block) i

section Writes

variable {v : Vmm} {a : AddressSpace}

/-- Only the memory and the directory pointer matter. -/
theorem Vmm.Shows.congr {w : Vmm} (h : v.Shows a) (hmem : w.mem = v.mem)
    (hdir : w.currentPageDirectory = v.currentPageDirectory) : w.Shows a :=
  { h with
    directory := hdir.trans h.directory
    pde := hmem ▸ h.pde
    pte := hmem ▸ h.pte }

/-- Writing the entry of a page with a table updates the map at that page. -/
theorem Vmm.Shows.write {w : Vmm} (h : v.Shows a) {virt t entry : Nat} (hvirt : virt < 2 ^ 32)
    (ht : a.tables (pdIndex virt) = some t) {o : Option Nat} (hentry : Encodes entry o)
    (hlt : entry < 2 ^ 32) (hdir : w.currentPageDirectory = v.currentPageDirectory)
    (hmem : w.mem = store32 v.mem (4096 * t + 4 * ptIndex virt) entry) :
    w.Shows (a.setFrame (virt / 4096) o) where
  directory := hdir.trans h.directory
  root_lt := h.root_lt
  table_lt := h.table_lt
  table_ne_root := h.table_ne_root
  table_inj := h.table_inj
  pde i hi := by
    rw [hmem, setFrame_root, setFrame_tables,
      load32_store_other (h.table_ne_root ht) (ptIndex_lt virt) hi]
    exact h.pde i hi
  pte i hi s hs j hj := by
    rw [hmem, setFrame_frames, ← pageNumber_eq hvirt]
    have hpd := pdIndex_lt virt
    have hpt := ptIndex_lt virt
    by_cases hpage : 1024 * i + j = 1024 * pdIndex virt + ptIndex virt
    · obtain ⟨rfl, rfl⟩ : i = pdIndex virt ∧ j = ptIndex virt := by omega
      obtain rfl : t = s := Option.some.inj (ht.symm.trans hs)
      rwa [if_pos rfl, load32_store32_same _ _ hlt]
    · rw [if_neg hpage]
      by_cases hst : t = s
      · subst hst
        obtain rfl := h.table_inj ht hs
        rw [load32_store_word (by omega)]
        exact h.pte _ hi t hs j hj
      · rw [load32_store_other hst hpt hj]
        exact h.pte i hi s hs j hj
  unmapped i hi hnone j hj := by
    have hpd := pdIndex_lt virt
    have hpt := ptIndex_lt virt
    have hne : i ≠ pdIndex virt := by
      rintro rfl
      simp [ht] at hnone
    rw [setFrame_frames, if_neg (by rw [← pageNumber_eq hvirt]; omega)]
    exact h.unmapped i hi hnone j hj

/-- Installing a zeroed block as a new table changes no translation. -/
theorem Vmm.Shows.install {w : Vmm} (h : v.Shows a) {index block entry : Nat}
    (hindex : index < 1024) (hnone : a.tables index = none) (hblock : block < 2 ^ 20)
    (hroot : block ≠ a.root) (hfresh : ∀ i, a.tables i ≠ some block)
    (hentry : Encodes entry (some block)) (hlt : entry < 2 ^ 32)
    (hdir : w.currentPageDirectory = v.currentPageDirectory)
    (hmem : w.mem = store32 (memset v.mem (4096 * block) 0 pageSize)
      (4096 * a.root + 4 * index) entry) :
    w.Shows (a.setTable index block) where
  directory := hdir.trans h.directory
  root_lt := h.root_lt
  table_lt := by
    intro i t ht
    rw [setTable_tables] at ht
    split at ht
    · obtain rfl := Option.some.inj ht
      exact ⟨by omega, hblock⟩
    · exact h.table_lt ht
  table_ne_root := by
    intro i t ht
    rw [setTable_tables] at ht
    split at ht
    · obtain rfl := Option.some.inj ht
      exact hroot
    · exact h.table_ne_root ht
  table_inj := by
    intro i j t hi hj
    rw [setTable_tables] at hi hj
    split at hi <;> split at hj
    · omega
    · exact absurd (hj.trans hi.symm) (hfresh j)
    · exact absurd (hi.trans hj.symm) (hfresh i)
    · exact h.table_inj hi hj
  pde i hi := by
    rw [hmem, setTable_root, setTable_tables]
    by_cases heq : i = index
    · subst heq
      rwa [if_pos rfl, load32_store32_same _ _ hlt]
    · rw [if_neg heq, load32_store_word (Ne.symm heq), load32_zeroed_other hblock hroot hi]
      exact h.pde i hi
  pte i hi t ht j hj := by
    rw [hmem, setTable_frames]
    rw [setTable_tables] at ht
    split at ht
    · rename_i heq
      subst heq
      obtain rfl := Option.some.inj ht
      rw [load32_store_other (Ne.symm hroot) hi hj, load32_zeroed hblock hj,
        h.unmapped i hi hnone j hj]
      rfl
    · have htroot := h.table_ne_root ht
      have htblock : block ≠ t := fun heq => hfresh i (heq ▸ ht)
      rw [load32_store_other (Ne.symm htroot) hindex hj, load32_zeroed_other hblock htblock hj]
      exact h.pte i hi t ht j hj
  unmapped i hi ht j hj := by
    rw [setTable_tables] at ht
    split at ht
    · cases ht
    · exact h.unmapped i hi ht j hj

end Writes

end HolyOs.Mm
