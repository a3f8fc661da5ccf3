import HolyOs.Mm.VmmClient

/-!
# Ownership of virtual memory

Between any two calls of a client, every block the virtual memory manager has taken from the
physical manager has exactly one use: the directory, one table, or the frame of one live page.
The statement reads the directory and table words and the processor's translation; its proof
reads the abstract address space of the client's invariant.
-/
namespace HolyOs.Mm

open ByteMemory Transition

/-- The frame an address is translated into. -/
def Vmm.frameOf (v : Vmm) (virt : Nat) : Option Nat := (v.translate virt).map (· / 4096)

/-- Directory entry `i` is present and points at the table in block `t`. -/
structure Vmm.HasTable (v : Vmm) (i t : Nat) : Prop where
  index : i < 1024
  present : v.pde i &&& pagePresent ≠ 0
  block : tableOf (v.pde i) = 4096 * t

section Shows

variable {v : Vmm} {a : AddressSpace}

theorem Vmm.Shows.frameOf_eq (h : v.Shows a) {virt : Nat} (hvirt : virt < 2 ^ 32) :
    v.frameOf virt = a.frames (virt / 4096) := by
  rw [Vmm.frameOf, h.translate_eq hvirt, Option.map_map]
  cases a.frames (virt / 4096) with
  | none => rfl
  | some f =>
    simp only [Option.map_some, Function.comp_apply, Option.some.injEq]
    omega

theorem Vmm.Shows.pde_index (h : v.Shows a) {i : Nat} (hi : i < 1024) :
    Encodes (v.pde i) (a.tables i) := by
  rw [Vmm.pde, h.directory]
  exact h.pde i hi

theorem Vmm.Shows.hasTable_iff (h : v.Shows a) {i t : Nat} :
    v.HasTable i t ↔ a.tables i = some t := by
  constructor
  · rintro ⟨hi, hpresent, hblock⟩
    have hpde := h.pde_index hi
    rw [Ne, hpde.present] at hpresent
    obtain ⟨s, hs⟩ := Option.ne_none_iff_exists'.mp hpresent
    rw [hs] at hpde ⊢
    rw [hpde.tableOf (load32_lt _ _)] at hblock
    exact congrArg some (by omega)
  · intro ht
    obtain ⟨hi, -⟩ := h.table_lt ht
    have hpde := h.pde_index hi
    rw [ht] at hpde
    refine ⟨hi, ?_, hpde.tableOf (load32_lt _ _)⟩
    rw [Ne, hpde.present]
    simp

end Shows

/-- Every block has one use. The pages meant are those of the allocation range, and `p` is
the physical manager before `vmm_init`. -/
structure VmmClient.Exclusive (p : Pmm) (s : VmmClient) : Prop where
  /-- Two pages are never in one frame. -/
  frame_inj : ∀ {x y f}, 0xC0000000 ≤ x → x < 2 ^ 32 → 0xC0000000 ≤ y → y < 2 ^ 32 →
    s.vmm.frameOf x = some f → s.vmm.frameOf y = some f → x / 4096 = y / 4096
  frame_ne_directory : ∀ {x f}, 0xC0000000 ≤ x → x < 2 ^ 32 → s.vmm.frameOf x = some f →
    s.vmm.currentPageDirectory ≠ 4096 * f
  frame_ne_table : ∀ {x f i}, 0xC0000000 ≤ x → x < 2 ^ 32 → s.vmm.frameOf x = some f →
    ¬ s.vmm.HasTable i f
  table_inj : ∀ {i j t}, s.vmm.HasTable i t → s.vmm.HasTable j t → i = j
  /-- The blocks marked since the start are the directory, the tables and the live frames. -/
  used : ∀ b, s.vmm.pmm.marked b = true ∧ p.marked b = false ↔
    s.vmm.currentPageDirectory = 4096 * b ∨ (∃ i, s.vmm.HasTable i b) ∨
      ∃ virt ∈ s.live, s.vmm.frameOf virt = some b
  /-- No block marked at the start was released. -/
  kept : ∀ b, p.marked b = true → s.vmm.pmm.marked b = true
  /-- The live addresses are those of the mapped pages. -/
  live : ∀ virt, virt ∈ s.live ↔ virt % 4096 = 0 ∧ 0xC0000000 ≤ virt ∧ virt < 2 ^ 32 ∧
    s.vmm.frameOf virt ≠ none

section Ownership

variable {p : Pmm} {n : Nat} {s : VmmClient} {a : AddressSpace}

/-- The owned blocks are in use for the client, and for nothing else. -/
theorem VmmClient.Sound.owns_iff (h : s.Sound p n a) (b : Nat) :
    a.Owns b ↔ s.vmm.currentPageDirectory = 4096 * b ∨ (∃ i, s.vmm.HasTable i b) ∨
      ∃ virt ∈ s.live, s.vmm.frameOf virt = some b := by
  rw [h.shows.directory]
  constructor
  · intro hb
    cases hb with
    | directory => exact .inl rfl
    | table ht => exact .inr (.inl ⟨_, h.shows.hasTable_iff.mpr ht⟩)
    | @frame page _ hpage hf =>
      have hlt := h.page_lt hpage hf
      have hdiv : 4096 * page / 4096 = page := Nat.mul_div_cancel_left page (by omega)
      have hlive : 4096 * page ∈ s.live := by
        rw [h.live, hdiv]
        exact ⟨by omega, hpage, by simp [hf]⟩
      refine .inr (.inr ⟨4096 * page, hlive, ?_⟩)
      rw [h.shows.frameOf_eq (by omega), hdiv, hf]
  · rintro (hroot | ⟨i, ht⟩ | ⟨virt, hvirt, hf⟩)
    · obtain rfl : a.root = b := by omega
      exact .directory
    · exact .table (h.shows.hasTable_iff.mp ht)
    · rw [h.shows.frameOf_eq (h.mapped hvirt).1] at hf
      exact .frame ((h.live virt).mp hvirt).2.1 hf

theorem VmmClient.Sound.exclusive (h : s.Sound p n a) : s.Exclusive p where
  frame_inj hx hx' hy hy' hfx hfy := by
    rw [h.shows.frameOf_eq hx'] at hfx
    rw [h.shows.frameOf_eq hy'] at hfy
    exact h.layout.frame_inj (by simp only [firstPage]; omega) (by simp only [firstPage]; omega)
      hfx hfy
  frame_ne_directory hx hx' hf hdir := by
    rw [h.shows.frameOf_eq hx'] at hf
    rw [h.shows.directory] at hdir
    exact h.layout.frame_ne_root (by simp only [firstPage]; omega) hf (by omega)
  frame_ne_table hx hx' hf ht := by
    rw [h.shows.frameOf_eq hx'] at hf
    exact h.layout.frame_ne_table (by simp only [firstPage]; omega) hf (h.shows.hasTable_iff.mp ht)
  table_inj hi hj :=
    h.shows.table_inj (h.shows.hasTable_iff.mp hi) (h.shows.hasTable_iff.mp hj)
  used b := by
    rw [h.marked, ← h.owns_iff]
    constructor
    · rintro ⟨hmarked | howns, hclear⟩
      · simp [hmarked] at hclear
      · exact howns
    · exact fun howns => ⟨.inr howns, (mem_freeBlocks.mp (h.layout.owned howns)).2⟩
  kept b hb := (h.marked b).mpr (.inl hb)
  live virt := by
    constructor
    · intro hlive
      obtain ⟨haligned, hpage, hmapped⟩ := (h.live virt).mp hlive
      have hlt := (h.mapped hlive).1
      simp only [firstPage] at hpage
      exact ⟨haligned, by omega, hlt, by rwa [h.shows.frameOf_eq hlt]⟩
    · rintro ⟨haligned, hlow, hlt, hmapped⟩
      rw [h.shows.frameOf_eq hlt] at hmapped
      exact (h.live virt).mpr ⟨haligned, by simp only [firstPage]; omega, hmapped⟩

end Ownership

/-- Ownership over every history of fewer than `2^18` allocation calls after a `vmm_init`
whose two page allocations succeeded. -/
theorem vmm_exclusive_ownership {p : Pmm} (hp : p.Consistent)
    (hroot : (pmmAllocPageAligned p).1 ≠ 0)
    (htable : (pmmAllocPageAligned (pmmAllocPageAligned p).2).1 ≠ 0) {mem : Memory}
    {ops : List VmmOp} {s : VmmClient} (hrun : Run VmmClient.Step (.start p mem) ops s)
    (hcalls : allocCalls ops < 2 ^ 18) : s.Exclusive p := by
  obtain ⟨root, table, hstart⟩ := exists_vmmStart hp hroot htable
  obtain ⟨n, a, hsound, -⟩ := VmmClient.Sound.of_run hstart hrun hcalls
  exact hsound.exclusive

theorem vmm_exclusive_ownership_sixBlocks :
    ((VmmClient.start sixBlocks fun _ => 0).enter (.allocPage 3)).Exclusive sixBlocks := by
  have hrun : Run VmmClient.Step (.start sixBlocks fun _ => 0) [.allocPage 3]
      ((VmmClient.start sixBlocks fun _ => 0).enter (.allocPage 3)) :=
    .single ⟨by simp [VmmClient.Allowed], rfl⟩
  exact vmm_exclusive_ownership sixBlocks_consistent (by decide) (by decide) hrun
    (by simp [allocCalls, VmmOp.allocs])

end HolyOs.Mm
