import HolyOs.Lib.String
import HolyOs.Mm.Pmm

/-!
# The virtual memory manager

Shallow model of `kernel/mm/vmm.c` over the physical memory manager. The page directory and
the page tables are words of physical memory; the bitmap of the physical manager is separate
state. Loading the directory, enabling paging and flushing the TLB have no effect on this
state. `walk` and `translate` are the processor's two-level walk over the same words.
-/
namespace HolyOs.Mm

open ByteMemory HolyOs.Lib

@[simp] def pagePresent : Nat := 0x01
@[simp] def pageWrite : Nat := 0x02
@[simp] def pageSize : Nat := 4096

/-- The static variables of `vmm.c`, the physical memory and the manager below. `nextVirt`
is the counter of `vmm_alloc_page`. -/
structure Vmm where
  pmm : Pmm
  mem : Memory
  currentPageDirectory : Nat
  nextVirt : Nat

def pdIndex (virt : Nat) : Nat := (virt >>> 22) &&& 0x3FF
def ptIndex (virt : Nat) : Nat := (virt >>> 12) &&& 0x3FF

/-- `current_page_directory[index]`. -/
def Vmm.pde (v : Vmm) (index : Nat) : Nat := load32 v.mem (v.currentPageDirectory + 4 * index)

/-- The table a directory entry points to: `entry & ~0xFFF`. -/
def tableOf (entry : Nat) : Nat := entry &&& Word32.not 0xFFF

def vmmInit (p : Pmm) (mem : Memory) : Vmm :=
  let directory := pmmAllocPageAligned p
  let mem := memset mem directory.1 0 pageSize
  let table := pmmAllocPageAligned directory.2
  let mem := memset mem table.1 0 pageSize
  let mem := storeWords mem table.1
    (fun i => Word32.wrap (i * pageSize) ||| pagePresent ||| pageWrite) 1024
  let mem := store32 mem directory.1 (table.1 ||| pagePresent ||| pageWrite)
  { pmm := table.2, mem := mem, currentPageDirectory := directory.1, nextVirt := 0xC0000000 }

/-- The first half of `vmm_map_page`: make sure the directory entry has a table. -/
def vmmEnsureTable (v : Vmm) (virt flags : Nat) : Bool × Vmm :=
  if v.pde (pdIndex virt) &&& pagePresent = 0 then
    let newTable := pmmAllocPageAligned v.pmm
    if newTable.1 = 0 then (false, { v with pmm := newTable.2 })
    else
      let mem := memset v.mem newTable.1 0 pageSize
      let mem := store32 mem (v.currentPageDirectory + 4 * pdIndex virt)
        (newTable.1 ||| flags ||| pagePresent)
      (true, { v with pmm := newTable.2, mem := mem })
  else (true, v)

/-- `&page_table[pt_index]` for the table the directory holds. -/
def Vmm.entryAddr (v : Vmm) (virt : Nat) : Nat := tableOf (v.pde (pdIndex virt)) + 4 * ptIndex virt

/-- The second half of `vmm_map_page`: write the table entry. -/
def vmmSetEntry (v : Vmm) (virt phys flags : Nat) : Vmm :=
  { v with mem := store32 v.mem (v.entryAddr virt) (phys ||| flags ||| pagePresent) }

def vmmMapPage (v : Vmm) (virt phys flags : Nat) : Bool × Vmm :=
  let r := vmmEnsureTable v virt flags
  if r.1 then (true, vmmSetEntry r.2 virt phys flags) else (false, r.2)

def vmmAllocPage (v : Vmm) (flags : Nat) : Nat × Vmm :=
  let phys := pmmAllocPageAligned v.pmm
  if phys.1 = 0 then (0, { v with pmm := phys.2 })
  else
    let virt := v.nextVirt
    let r := vmmMapPage
      { v with pmm := phys.2, nextVirt := Word32.wrap (v.nextVirt + pageSize) } virt phys.1 flags
    if r.1 then (virt, r.2) else (0, { r.2 with pmm := pmmFreePage r.2.pmm phys.1 })

def vmmFreePage (v : Vmm) (virt : Nat) : Vmm :=
  if v.pde (pdIndex virt) &&& pagePresent = 0 then v
  else
    let phys := load32 v.mem (v.entryAddr virt) &&& Word32.not 0xFFF
    { v with
      pmm := pmmFreePage v.pmm phys
      mem := store32 v.mem (v.entryAddr virt) 0 }

/-! ## The processor's view -/

/-- The table entry a walk of `virt` from `directory` ends at, if both levels are present. -/
def walk (mem : Memory) (directory virt : Nat) : Option Nat :=
  let pde := load32 mem (directory + 4 * pdIndex virt)
  if pde &&& pagePresent = 0 then none
  else
    let pte := load32 mem (tableOf pde + 4 * ptIndex virt)
    if pte &&& pagePresent = 0 then none else some pte

/-- The physical address `virt` is translated to. -/
def translate (mem : Memory) (directory virt : Nat) : Option Nat :=
  (walk mem directory virt).map fun pte => tableOf pte + virt % pageSize

def Vmm.translate (v : Vmm) (virt : Nat) : Option Nat :=
  HolyOs.Mm.translate v.mem v.currentPageDirectory virt

theorem pdIndex_eq (virt : Nat) : pdIndex virt = virt / 4096 / 1024 % 1024 := by
  have hmask : (virt >>> 22) &&& 0x3FF = (virt >>> 22) % 1024 :=
    Nat.and_two_pow_sub_one_eq_mod _ 10
  rw [pdIndex, hmask, Nat.shiftRight_eq_div_pow, Nat.div_div_eq_div_mul]

theorem ptIndex_eq (virt : Nat) : ptIndex virt = virt / 4096 % 1024 := by
  have hmask : (virt >>> 12) &&& 0x3FF = (virt >>> 12) % 1024 :=
    Nat.and_two_pow_sub_one_eq_mod _ 10
  rw [ptIndex, hmask, Nat.shiftRight_eq_div_pow]

theorem pdIndex_lt (virt : Nat) : pdIndex virt < 1024 := by
  rw [pdIndex_eq]
  omega

theorem ptIndex_lt (virt : Nat) : ptIndex virt < 1024 := by
  rw [ptIndex_eq]
  omega

/-- The two indices are the digits of the page number. -/
theorem pageNumber_eq {virt : Nat} (h : virt < 2 ^ 32) :
    1024 * pdIndex virt + ptIndex virt = virt / 4096 := by
  rw [pdIndex_eq, ptIndex_eq]
  omega

/-! ## Entries -/

/-- A table or directory entry as a word: empty, or a block with flag bits, the present bit
among them. -/
def Encodes (entry : Nat) : Option Nat → Prop
  | none => entry = 0
  | some block => ∃ bits < 4096, bits % 2 = 1 ∧ entry = 4096 * block + bits

theorem Encodes.present {entry : Nat} {o : Option Nat} (h : Encodes entry o) :
    entry &&& pagePresent = 0 ↔ o = none := by
  rw [pagePresent, Nat.and_one_is_mod]
  cases o with
  | none => simp_all [Encodes]
  | some block =>
    obtain ⟨bits, -, hodd, rfl⟩ := h
    simp
    omega

theorem tableOf_eq {entry : Nat} (h : entry < 2 ^ 32) : tableOf entry = entry / 4096 * 4096 :=
  Word32.and_not_mask h (k := 12) (by omega)

theorem Encodes.tableOf {entry block : Nat} (h : Encodes entry (some block))
    (hlt : entry < 2 ^ 32) : tableOf entry = 4096 * block := by
  obtain ⟨bits, hbits, -, rfl⟩ := h
  rw [tableOf_eq hlt]
  omega

/-- The entry the code writes for a page-aligned address and flags below the page size. -/
theorem entry_eq {block flags : Nat} (hflags : flags < 4096) :
    4096 * block ||| flags ||| pagePresent = 4096 * block + (flags ||| 1) := by
  have hbits : flags ||| 1 < 2 ^ 12 := Nat.or_lt_two_pow hflags (by omega)
  rw [Nat.or_assoc, pagePresent, Word32.or_flags (k := 12) (by omega) hbits]

theorem encodes_entry {block flags : Nat} (hflags : flags < 4096) :
    Encodes (4096 * block ||| flags ||| pagePresent) (some block) := by
  refine ⟨flags ||| 1, Nat.or_lt_two_pow (n := 12) hflags (by omega), ?_, entry_eq hflags⟩
  rw [← Nat.and_one_is_mod, Word32.or_one_and_one]

theorem entry_lt {block flags : Nat} (hblock : block < 2 ^ 20) (hflags : flags < 4096) :
    4096 * block ||| flags ||| pagePresent < 2 ^ 32 := by
  have hbits : flags ||| 1 < 2 ^ 12 := Nat.or_lt_two_pow hflags (by omega)
  rw [entry_eq hflags]
  omega

end HolyOs.Mm
