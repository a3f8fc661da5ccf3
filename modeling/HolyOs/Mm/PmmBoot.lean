import HolyOs.Foundation.Transition
import HolyOs.Mm.PmmStartup
import HolyOs.Mm.PmmOwnership

/-!
# What start-up leaves in the free map

Three questions about `pmm_init` over all memory maps: whether its marks stay inside the
bitmap, whether a clear bit really means available memory, and whether the allocator can
return a page of the kernel image. None holds for every map. Each theorem gives the exact
class of maps for which it does, in terms of the entries of the map and of those that the third
walk reads.
-/
namespace HolyOs.Mm

open ByteMemory Transition

/-! ## Marks and the extent of the bitmap -/

/-- The bits that the third walk passes to `pmm_clear_bit` at the first `fuel` entries. -/
def markingBits (bitmap mmapEnd : Nat) : Nat → Nat → Memory → List Nat
  | 0, _, _ => []
  | fuel + 1, mmap, m =>
    if mmap < mmapEnd then
      let entry := mmapEntryAt m mmap
      let cleared := clearEntry bitmap m entry
      (if entry.available then entry.blocks else []) ++
        markingBits bitmap mmapEnd fuel (mmapNext cleared mmap) cleared
    else []

/-- `pmm_bitmap_size`, and the bits passed to `pmm_clear_bit` and `pmm_set_bit`, with the third walk
observed for `fuel` entries; none if the first walk does not end within so many. -/
def pmmInitBits (l : BootLayout) (fuel : Nat) (m : Memory) : Option (Nat × List Nat) :=
  let mmapEnd := l.mmapEnd m
  (mmapWalk m mmapEnd fuel (l.mmapAddr m)).map fun mmap =>
    let bitmap := pmmInitBitmapAddr mmap
    let filled := filledBitmap m mmap
    let mmapAddr := l.mmapAddr filled
    let sets :=
      if (markingWalk bitmap mmapEnd fuel mmapAddr filled).isSome then pmmInitSets mmap else []
    (pmmInitBitmapSize mmap, markingBits bitmap mmapEnd fuel mmapAddr filled ++ sets)

/-- `pmm_init` never passes a bit that the bitmap does not have. -/
def BootLayout.MarksInside (l : BootLayout) (m : Memory) : Prop :=
  ∀ fuel size bits, pmmInitBits l fuel m = some (size, bits) → ∀ bit ∈ bits, bit < size * 32

theorem le_bitmapWords {mmap : List MmapEntry} {n : Nat} (hn : 0 < n) :
    n ≤ bitmapWords mmap ↔
      ∃ e ∈ mmap, e.available = true ∧ n ≤ (e.endAddr / 4096 + 31) / 32 := by
  rw [bitmapWords, le_foldr_max _ hn]
  simp [and_assoc]

/-- An AVAILABLE entry with a block to free ends, in blocks, below some 32-bit AVAILABLE end of the
map rounded up to a whole bitmap word. -/
def EntryFits (mmap : List MmapEntry) (e : MmapEntry) : Prop :=
  e.available = true → e.startBlock < e.endBlock →
    ∃ f ∈ mmap, f.available = true ∧ e.endBlock ≤ (f.endAddr / 4096 + 31) / 32 * 32

/-- The last block reserved for the bitmap has a bit in it. -/
def BitmapFits (mmap : List MmapEntry) : Prop :=
  bitmapHome mmap / 4096 + 4 * bitmapWords mmap / 4096 < 32 * bitmapWords mmap

instance (mmap : List MmapEntry) : Decidable (BitmapFits mmap) :=
  inferInstanceAs (Decidable (_ < _))

section Marks

variable {l : BootLayout} {m : Memory} {mmap : List MmapEntry} {bitmap mmapEnd a : Nat}

theorem entryFits_iff {e : MmapEntry} :
    EntryFits mmap e ↔ ∀ bit ∈ pmmInitClears [e], bit < 32 * bitmapWords mmap := by
  constructor
  · intro h bit hbit
    obtain ⟨f, hf, havail, hstart, hend⟩ := mem_pmmInitClears.mp hbit
    obtain rfl := List.mem_singleton.mp hf
    obtain ⟨g, hg, hgavail, hle⟩ := h havail (by omega)
    have hwords : (g.endAddr / 4096 + 31) / 32 ≤ bitmapWords mmap :=
      (le_bitmapWords (by omega)).mpr ⟨g, hg, hgavail, Nat.le_refl _⟩
    omega
  · intro h havail hlt
    have hlast := h (e.endBlock - 1)
      (mem_pmmInitClears.mpr ⟨e, List.mem_singleton_self e, havail, by omega, by omega⟩)
    have hwords : (e.endBlock + 31) / 32 ≤ bitmapWords mmap := by omega
    obtain ⟨f, hf, hfavail, hle⟩ := (le_bitmapWords (by omega)).mp hwords
    exact ⟨f, hf, hfavail, by omega⟩

theorem bitmapFits_iff :
    BitmapFits mmap ↔ ∀ bit ∈ pmmInitSets mmap, bit < 32 * bitmapWords mmap := by
  simp only [BitmapFits, mem_pmmInitSets, bitmapBlocks, Finset.mem_Icc]
  constructor
  · intro h bit hbit
    omega
  · intro h
    exact h _ ⟨Nat.le_add_right _ _, Nat.le_refl _⟩

/-- The bits that are passed to `pmm_clear_bit` are those of the entries that the walk reads. -/
theorem mem_markingBits {bit : Nat} : (∃ fuel, bit ∈ markingBits bitmap mmapEnd fuel a m) ↔
    ∃ e, MarkingReads bitmap mmapEnd a m e ∧ bit ∈ pmmInitClears [e] := by
  have hclears : ∀ e : MmapEntry, pmmInitClears [e] = if e.available then e.blocks else [] :=
    fun e => by simp [pmmInitClears]
  constructor
  · rintro ⟨fuel, hbit⟩
    induction fuel generalizing a m with
    | zero => simp [markingBits] at hbit
    | succ fuel ih =>
      unfold markingBits at hbit
      split_ifs at hbit with hlt
      · rcases List.mem_append.mp hbit with hfirst | hlater
        · exact ⟨_, .first hlt, hclears _ ▸ hfirst⟩
        · obtain ⟨e, he, hmem⟩ := ih hlater
          exact ⟨e, .later hlt he, hmem⟩
      · cases hbit
  · rintro ⟨e, he, hbit⟩
    induction he with
    | first hlt =>
      refine ⟨1, ?_⟩
      rw [markingBits, if_pos hlt]
      exact List.mem_append_left _ (hclears _ ▸ hbit)
    | later hlt _ ih =>
      obtain ⟨fuel, hmem⟩ := ih hbit
      refine ⟨fuel + 1, ?_⟩
      rw [markingBits, if_pos hlt]
      exact List.mem_append_right _ hmem

/-- A prefix of the clears is a prefix of any longer one. -/
theorem markingBits_mono {bit fuel fuel' : Nat} (hle : fuel ≤ fuel')
    (hbit : bit ∈ markingBits bitmap mmapEnd fuel a m) :
    bit ∈ markingBits bitmap mmapEnd fuel' a m := by
  induction fuel generalizing fuel' a m with
  | zero => simp [markingBits] at hbit
  | succ fuel ih =>
    obtain ⟨rest, rfl⟩ := Nat.exists_eq_add_of_le' (Nat.lt_of_lt_of_le (Nat.succ_pos _) hle)
    unfold markingBits at hbit ⊢
    split_ifs at hbit ⊢ with hlt
    · rcases List.mem_append.mp hbit with hfirst | hlater
      · exact List.mem_append_left _ hfirst
      · exact List.mem_append_right _ (ih (by omega) hlater)
    · cases hbit

/-- The bits are known once the first walk ends. -/
theorem BootLayout.Holds.pmmInitBits_eq_some_iff (hholds : l.Holds m mmap) {fuel size : Nat}
    {bits : List Nat} : pmmInitBits l fuel m = some (size, bits) ↔
      mmap.length < fuel ∧ size = pmmInitBitmapSize mmap ∧
        bits = markingBits (pmmInitBitmapAddr mmap) (l.mmapEnd m) fuel
          (l.mmapAddr (filledBitmap m mmap)) (filledBitmap m mmap) ++
            if (markingWalk (pmmInitBitmapAddr mmap) (l.mmapEnd m) fuel
              (l.mmapAddr (filledBitmap m mmap)) (filledBitmap m mmap)).isSome
            then pmmInitSets mmap else [] := by
  unfold pmmInitBits
  rw [Option.map_eq_some_iff]
  constructor
  · rintro ⟨mmap', hwalk, heq⟩
    obtain ⟨hfrom, hlength⟩ := mmapWalk_eq_some_iff.mp hwalk
    obtain rfl := hfrom.unique hholds.entriesFrom
    obtain ⟨rfl, rfl⟩ := Prod.mk.inj heq
    exact ⟨hlength, rfl, rfl⟩
  · rintro ⟨hlength, rfl, rfl⟩
    exact ⟨mmap, mmapWalk_eq_some_iff.mpr ⟨hholds.entriesFrom, hlength⟩, rfl⟩

/-- The clears are inside when each entry that the third walk reads fits, and the sets, which are
made when it has ended, when the bitmap fits. -/
theorem BootLayout.Holds.marksInside_iff (hholds : l.Holds m mmap) : l.MarksInside m ↔
    (∀ e, l.Rereads m mmap e → EntryFits mmap e) ∧
      ((∃ marked, l.Marks m mmap marked) → BitmapFits mmap) := by
  have hsize : ∀ {bit : Nat}, bit < pmmInitBitmapSize mmap * 32 ↔ bit < 32 * bitmapWords mmap := by
    intro bit
    rw [pmmInitBitmapSize_eq, Nat.mul_comm]
  constructor
  · intro h
    refine ⟨fun e he => entryFits_iff.mpr fun bit hbit => ?_, ?_⟩
    · obtain ⟨fuel, hmem⟩ := mem_markingBits.mpr ⟨e, he, hbit⟩
      have hmem' := markingBits_mono (Nat.le_max_right (mmap.length + 1) fuel) hmem
      have hinside := h _ _ _ (hholds.pmmInitBits_eq_some_iff.mpr ⟨by grind, rfl, rfl⟩) bit
        (List.mem_append_left _ hmem')
      exact hsize.mp hinside
    · rintro ⟨marked, hmarks⟩
      refine bitmapFits_iff.mpr fun bit hbit => hsize.mp ?_
      refine h (max mmap.length marked.length + 1) _ _
        (hholds.pmmInitBits_eq_some_iff.mpr ⟨by grind, rfl, rfl⟩) bit ?_
      rw [markingWalk_eq_some_iff.mpr ⟨hmarks, by grind, rfl⟩]
      exact List.mem_append_right _ hbit
  · rintro ⟨hentries, hbitmap⟩ fuel size bits hbits bit hbit
    obtain ⟨-, rfl, rfl⟩ := hholds.pmmInitBits_eq_some_iff.mp hbits
    rw [hsize]
    rcases List.mem_append.mp hbit with hclear | hset
    · obtain ⟨e, he, hmem⟩ := mem_markingBits.mp ⟨fuel, hclear⟩
      exact entryFits_iff.mp (hentries e he) bit hmem
    · split_ifs at hset with hends
      · obtain ⟨⟨marked, last⟩, hwalk⟩ := Option.isSome_iff_exists.mp hends
        exact bitmapFits_iff.mp
          (hbitmap ⟨marked, (markingWalk_eq_some_iff.mp hwalk).1⟩) bit hset
      · cases hset

/-- With the bitmap apart, a map that fits is read again, and so is one of which all that is read
fits. -/
theorem BootLayout.Apart.marksInside_iff (hapart : l.Apart m mmap) (hholds : l.Holds m mmap) :
    l.MarksInside m ↔ (∀ e ∈ mmap, EntryFits mmap e) ∧ BitmapFits mmap := by
  have hreads : l.Marks m mmap mmap → ∀ e, l.Rereads m mmap e ↔ e ∈ mmap :=
    fun hmarks _ => MarkedFrom.reads hmarks
  rw [hholds.marksInside_iff]
  constructor
  · rintro ⟨hentries, hbitmap⟩
    have hmarks : l.Marks m mmap mmap := hapart.marks_of_rereads hholds fun e _ he =>
      entryFits_iff.mp (hentries e he)
    exact ⟨fun e he => hentries e ((hreads hmarks e).mpr he), hbitmap ⟨mmap, hmarks⟩⟩
  · rintro ⟨hentries, hbitmap⟩
    have hmarks : l.Marks m mmap mmap := hapart.marks_of_rereads hholds fun e he _ =>
      entryFits_iff.mp (hentries e he)
    exact ⟨fun e he => hentries e ((hreads hmarks e).mp he), fun _ => hbitmap⟩

end Marks

/-- `pmm_init` marks inside the bitmap it allocated exactly when each entry that the third walk
reads fits and, if the walk ends, the bitmap does. With the bitmap apart this is said of the map. -/
theorem pmm_init_marks_inside_iff {l : BootLayout} {m : Memory} {mmap : List MmapEntry}
    (hholds : l.Holds m mmap) :
    (l.MarksInside m ↔ (∀ e, l.Rereads m mmap e → EntryFits mmap e) ∧
      ((∃ marked, l.Marks m mmap marked) → BitmapFits mmap)) ∧
    (l.Apart m mmap →
      (l.MarksInside m ↔ (∀ e ∈ mmap, EntryFits mmap e) ∧ BitmapFits mmap)) :=
  ⟨hholds.marksInside_iff, fun hapart => hapart.marksInside_iff hholds⟩

/-- With low boot data the marks of the map of a machine with 128 MiB are inside. -/
theorem pmm_init_marks_inside_lowHighMap : (pcLayout 0x9000).MarksInside (lowBoot lowHighMap) := by
  have hapart := lowBoot_apart lowHighMap (by decide) (by decide) (.inl (by decide))
  refine ((pmm_init_marks_inside_iff (lowBoot_holds (by decide))).2 hapart).mpr ⟨?_, by decide⟩
  exact fun e he => entryFits_iff.mpr fun bit hbit =>
    lowHighMap_below.clears bit (pmmInitClears_of_mem he hbit)

/-- One MiB of low memory and one above 4 GiB. -/
def highMap : List MmapEntry := [⟨0, 0x100000, 1⟩, ⟨0x100000000, 0x100000, 1⟩]

/-- The region above 4 GiB is cleared from bit `0x100000` on in a bitmap of 256 bits, which is apart
from the map. -/
theorem pmm_init_marks_outside_highMap :
    (pcLayout 0x9000).Holds (lowBoot highMap) highMap ∧
      (pcLayout 0x9000).Apart (lowBoot highMap) highMap ∧
      ¬ (pcLayout 0x9000).MarksInside (lowBoot highMap) := by
  have hholds : (pcLayout 0x9000).Holds (lowBoot highMap) highMap := lowBoot_holds (by decide)
  have hapart := lowBoot_apart highMap (by decide) (by decide) (.inl (by decide))
  refine ⟨hholds, hapart, fun h => ?_⟩
  obtain ⟨hentries, -⟩ := (hapart.marksInside_iff hholds).mp h
  have hfits := entryFits_iff.mp (hentries _ (by simp [highMap])) 0x100000
    (mem_pmmInitClears.mpr ⟨⟨0x100000000, 0x100000, 1⟩, List.mem_singleton_self _, by decide⟩)
  revert hfits
  decide

/-! ## Soundness of the free map -/

/-- Every byte of a free block is available memory and nothing else. -/
def FreeMapSound (mmap : List MmapEntry) (p : Pmm) : Prop :=
  ∀ block < p.pmmMaxBlocks, p.marked block = false →
    ∀ x, block * 4096 ≤ x → x < (block + 1) * 4096 → Covered mmap x ∧ ¬ Claimed mmap x

/-- Every byte of a block in the range of an AVAILABLE entry that was read is available memory in
the map and nothing else, if the block ends at or below some AVAILABLE end of the map and is not
reserved for the bitmap. -/
def BlocksExact (mmap marked : List MmapEntry) : Prop :=
  ∀ e ∈ marked, e.available = true → ∀ block, e.startBlock ≤ block → block < e.endBlock →
    (∃ f ∈ mmap, f.available = true ∧ (block + 1) * 4096 ≤ f.endAddr) →
    block ∉ bitmapBlocks mmap →
    ∀ x, block * 4096 ≤ x → x < (block + 1) * 4096 → Covered mmap x ∧ ¬ Claimed mmap x

/-- For each AVAILABLE region that reaches beyond the block it starts in: the bytes before
its start in that block are available as well, and no other entry describes a byte of the
blocks it reaches. Blocks reserved for the bitmap are exempt. -/
def RegionsExact (mmap : List MmapEntry) : Prop :=
  ∀ e ∈ mmap, e.available = true →
    e.addr.toNat / 4096 < (e.addr.toNat + e.len.toNat) / 4096 →
    (e.addr.toNat / 4096 ∉ bitmapBlocks mmap →
      ∀ x, e.addr.toNat / 4096 * 4096 ≤ x → x < e.addr.toNat → Covered mmap x) ∧
    ∀ x, e.addr.toNat / 4096 * 4096 ≤ x →
      x < (e.addr.toNat + e.len.toNat) / 4096 * 4096 → Claimed mmap x →
      x / 4096 ∈ bitmapBlocks mmap

section Sound

variable {mmap marked : List MmapEntry}

/-- The free blocks are those of the entries that were read. -/
theorem Started.freeMapSound_iff {p : Pmm} (hp : Started mmap marked p) :
    FreeMapSound mmap p ↔ BlocksExact mmap marked := by
  have hfree : ∀ block, block < p.pmmMaxBlocks ∧ p.marked block = false ↔
      (∃ f ∈ mmap, f.available = true ∧ (block + 1) * 4096 ≤ f.endAddr) ∧
        block ∉ bitmapBlocks mmap ∧
          ∃ e ∈ marked, e.available = true ∧ e.startBlock ≤ block ∧ block < e.endBlock := by
    intro block
    rw [← mem_freeBlocks, hp.free, lt_pmmInitMaxBlocks]
  constructor
  · intro h e he havail block hstart hend hbelow hbitmap
    obtain ⟨hlt, hclear⟩ := (hfree block).mpr ⟨hbelow, hbitmap, e, he, havail, hstart, hend⟩
    exact h block hlt hclear
  · intro h block hlt hclear
    obtain ⟨hbelow, hbitmap, e, he, havail, hstart, hend⟩ := (hfree block).mp ⟨hlt, hclear⟩
    exact h e he havail block hstart hend hbelow hbitmap

theorem RegionsExact.blocks (hbelow : RegionsBelow mmap) (h : RegionsExact mmap) :
    BlocksExact mmap mmap := by
  intro e he havail block hstart hend _ hbitmap x hlow hhigh
  obtain ⟨hs, ht, -⟩ := MmapEntry.exact (hbelow e he havail)
  rw [hs] at hstart
  rw [ht] at hend
  obtain ⟨hbefore, hother⟩ := h e he havail (by omega)
  have hblock : x / 4096 = block := by omega
  constructor
  · by_cases hx : e.addr.toNat ≤ x
    · exact ⟨e, he, havail, hx, by omega⟩
    · obtain rfl : block = e.addr.toNat / 4096 := by omega
      exact hbefore hbitmap x hlow (Nat.lt_of_not_le hx)
  · have hx : e.addr.toNat / 4096 * 4096 ≤ x := (Nat.mul_le_mul_right 4096 hstart).trans hlow
    have hx' : x < (e.addr.toNat + e.len.toNat) / 4096 * 4096 :=
      hhigh.trans_le (Nat.mul_le_mul_right 4096 hend)
    exact fun hclaimed => hbitmap (hblock ▸ hother x hx hx' hclaimed)

theorem BlocksExact.regions (hbelow : RegionsBelow mmap) (h : BlocksExact mmap mmap) :
    RegionsExact mmap := by
  intro e he havail hreach
  obtain ⟨hs, ht, hr⟩ := MmapEntry.exact (hbelow e he havail)
  have hinside : ∀ block, e.addr.toNat / 4096 ≤ block →
      block < (e.addr.toNat + e.len.toNat) / 4096 → block ∉ bitmapBlocks mmap →
      ∀ x, block * 4096 ≤ x → x < (block + 1) * 4096 → Covered mmap x ∧ ¬ Claimed mmap x :=
    fun block hstart hend => h e he havail block (by omega) (by omega) ⟨e, he, havail, by omega⟩
  constructor
  · intro hbitmap x hlow hx
    exact (hinside _ (Nat.le_refl _) hreach hbitmap x hlow (by omega)).1
  · intro x hlow hx hclaimed
    have hstart : e.addr.toNat / 4096 ≤ x / 4096 := (Nat.le_div_iff_mul_le (by decide)).mpr hlow
    have hend : x / 4096 < (e.addr.toNat + e.len.toNat) / 4096 :=
      (Nat.div_lt_iff_lt_mul (by decide)).mpr hx
    have hx' : x < (x / 4096 + 1) * 4096 := Nat.lt_mul_of_div_lt (Nat.lt_succ_self _) (by decide)
    by_contra hbitmap
    exact (hinside (x / 4096) hstart hend hbitmap x (Nat.div_mul_le_self x 4096) hx').2 hclaimed

end Sound

/-- For maps whose AVAILABLE regions end below 4 GiB the free map is sound exactly when the blocks
of the entries that the third walk reads are exact. With the bitmap apart, this is when the regions
of the map are. -/
theorem pmm_init_free_map_sound_iff {l : BootLayout} {m : Memory} {mmap : List MmapEntry}
    (hholds : l.Holds m mmap) (hbelow : RegionsBelow mmap) :
    l.DecidedBy m mmap (FreeMapSound mmap) (BlocksExact mmap) ∧
      (l.Apart m mmap → HasBlock mmap → (l.Boots m (FreeMapSound mmap) ↔ RegionsExact mmap)) := by
  have hdecided : l.DecidedBy m mmap (FreeMapSound mmap) (BlocksExact mmap) :=
    hholds.decidedBy fun _ _ hp => hp.freeMapSound_iff
  refine ⟨hdecided, fun hapart hblock => ?_⟩
  rw [hdecided.apart hapart hbelow.clears hblock]
  exact ⟨fun h => h.regions hbelow, fun h => h.blocks hbelow⟩

/-- With low boot data the free map of a machine with 128 MiB is sound. -/
theorem pmm_init_free_map_sound_lowHighMap :
    (pcLayout 0x9000).Boots (lowBoot lowHighMap) (FreeMapSound lowHighMap) := by
  have hapart := lowBoot_apart lowHighMap (by decide) (by decide) (.inl (by decide))
  refine ((pmm_init_free_map_sound_iff (lowBoot_holds (by decide)) lowHighMap_below).2 hapart
    lowHighMap_hasBlock).mpr fun e he havail _ => ⟨fun _ x hlow hx => ?_, fun x _ _ hclaimed => ?_⟩
  · simp only [lowHighMap, List.mem_cons, List.not_mem_nil, or_false] at he
    rcases he with rfl | rfl
    · simp at hx
    · simp at hlow hx
      omega
  · obtain ⟨f, hf, hother, -⟩ := hclaimed
    simp only [lowHighMap, List.mem_cons, List.not_mem_nil, or_false] at hf
    rcases hf with rfl | rfl <;> simp [MmapEntry.available] at hother

/-- Low memory, and a second region that starts in the middle of block 5. -/
def unalignedMap : List MmapEntry := [⟨0, 0x4000, 1⟩, ⟨0x5800, 0x2800, 1⟩]

theorem unalignedMap_below : RegionsBelow unalignedMap := by decide

theorem unalignedMap_not_covered : ¬ Covered unalignedMap 0x5000 := by
  simp [Covered, unalignedMap, MmapEntry.Holds]

/-- Block 5 is free although its first half is not described by any entry. -/
theorem pmm_init_free_map_unsound :
    (pcLayout 0x9000).Holds (lowBoot unalignedMap) unalignedMap ∧ RegionsBelow unalignedMap ∧
      (pcLayout 0x9000).Boots (lowBoot unalignedMap) fun p => ¬ FreeMapSound unalignedMap p := by
  obtain ⟨p, hp, hstarted⟩ := exists_started_lowBoot (by decide) unalignedMap_below (by decide)
    (.inl (by decide))
  refine ⟨lowBoot_holds (by decide), unalignedMap_below, p, hp, fun h => ?_⟩
  have hfree : 5 ∈ p.freeBlocks := hstarted.free_of_region unalignedMap_below
    (e := ⟨0x5800, 0x2800, 1⟩) (by simp [unalignedMap])
    (by decide) (by decide) (by decide) (by decide)
  obtain ⟨hlt, hclear⟩ := mem_freeBlocks.mp hfree
  exact unalignedMap_not_covered (h 5 hlt hclear 0x5000 (by decide) (by decide)).1

/-! ## The kernel image -/

/-- `. = 2M` in the linker script: where the image starts. -/
def kernelStart : Nat := 0x200000

/-- The allocator with every page it has returned so far. -/
structure Issued where
  pmm : Pmm
  returned : Finset Nat

/-- Execute an operation; a non-zero result is a page that was returned. -/
def Issued.enter (s : Issued) (op : PmmOp) : Issued :=
  let r := op.exec s.pmm
  ⟨r.2, if r.1 = 0 then s.returned else insert r.1 s.returned⟩

/-- Callers free only pages that some earlier call returned. -/
def Issued.Step (s : Issued) (op : PmmOp) (t : Issued) : Prop :=
  (∀ page, op = .freePage page → page ∈ s.returned) ∧ t = s.enter op

/-- In every history from here on, no returned page overlaps the kernel image. -/
def ImageProtected (endkernel : Nat) (p : Pmm) : Prop :=
  ∀ ops s, Run Issued.Step ⟨p, ∅⟩ ops s →
    ∀ page ∈ s.returned, ¬ (page < endkernel ∧ kernelStart < page + 4096)

/-- Returned pages and free blocks were free at the start. -/
structure Issued.Within (p : Pmm) (s : Issued) : Prop where
  consistent : s.pmm.Consistent
  limit : s.pmm.pmmMaxBlocks = p.pmmMaxBlocks
  free : s.pmm.freeBlocks ⊆ p.freeBlocks
  returned : ∀ page ∈ s.returned, ∃ block ∈ p.freeBlocks, block ≠ 0 ∧ page = block * 4096

theorem Issued.Within.init {p : Pmm} (h : p.Consistent) : Issued.Within p ⟨p, ∅⟩ :=
  ⟨h, rfl, subset_rfl, by simp⟩

theorem Issued.enter_free (s : Issued) (page : Nat) :
    s.enter (.freePage page) = ⟨pmmFreePage s.pmm page, s.returned⟩ := rfl

/-- Both allocation operations take the first free block. -/
theorem Issued.enter_alloc (s : Issued) (flag : Bool) :
    s.enter (if flag then .allocPageAligned else .allocPage) =
      ⟨(pmmAllocPageInternal s.pmm flag).2, if (pmmAllocPageInternal s.pmm flag).1 = 0
        then s.returned else insert (pmmAllocPageInternal s.pmm flag).1 s.returned⟩ := by
  cases flag <;> rfl

theorem Issued.Within.alloc {p : Pmm} {s : Issued} (h : Issued.Within p s) (flag : Bool) :
    Issued.Within p (s.enter (if flag then .allocPageAligned else .allocPage)) := by
  rw [Issued.enter_alloc]
  rcases pmmAllocPageInternal_cases s.pmm flag with ⟨block, hfirst, hres⟩ | ⟨_, hres⟩
  · rw [h.consistent.wrap_block (mem_freeBlocks.mp hfirst.1).1] at hres
    rw [hres]
    refine ⟨h.consistent.take, h.limit, ?_, ?_⟩
    · rw [freeBlocks_take]
      exact (Finset.erase_subset _ _).trans h.free
    · intro page hpage
      dsimp only at hpage
      split at hpage
      · exact h.returned page hpage
      · rcases Finset.mem_insert.mp hpage with rfl | hpage
        · exact ⟨block, h.free hfirst.1, by omega, rfl⟩
        · exact h.returned page hpage
  · rw [hres]
    exact h

theorem Issued.Within.step {p : Pmm} {s t : Issued} {op : PmmOp} (h : Issued.Within p s)
    (hstep : Issued.Step s op t) : Issued.Within p t := by
  obtain ⟨hguard, rfl⟩ := hstep
  cases op with
  | allocPage => exact h.alloc false
  | allocPageAligned => exact h.alloc true
  | freePage page =>
    obtain ⟨block, hblock, -, rfl⟩ := h.returned page (hguard page rfl)
    have hlt : block < s.pmm.pmmMaxBlocks := h.limit ▸ (mem_freeBlocks.mp hblock).1
    rw [Issued.enter_free]
    by_cases hmark : s.pmm.marked block = true
    · rw [pmmFreePage_of_marked (by simpa using hlt) (by simpa using hmark),
        Nat.mul_div_cancel _ (by decide)]
      refine ⟨h.consistent.give, h.limit, ?_, h.returned⟩
      rw [freeBlocks_give hlt]
      exact Finset.insert_subset hblock h.free
    · rw [pmmFreePage_of_not_marked (.inr (by simpa using hmark))]
      exact h

/-- Both allocation operations enter the same outcome. -/
theorem Ledger.enter_allocPage (s : Ledger) :
    s.enter .allocPage = ⟨(pmmAllocPageInternal s.pmm false).2,
      if (pmmAllocPageInternal s.pmm false).1 = 0 then s.held
        else insert (pmmAllocPageInternal s.pmm false).1 s.held, s.freed⟩ := rfl

/-- Every free block other than block zero is held after some sequence of allocations: each one
takes a lower block until none is left. -/
theorem exists_run_holding {block : Nat} (hne : block ≠ 0) (s : Ledger)
    (h : s.pmm.Consistent) (hfree : block ∈ s.pmm.freeBlocks) :
    ∃ ops t, Run Ledger.Step s ops t ∧ block * 4096 ∈ t.held := by
  induction hn : (s.pmm.freeBlocks.filter (· < block)).card using Nat.strong_induction_on
    generalizing s with
  | _ n ih =>
    obtain ⟨first, hfirst⟩ := exists_firstFree ⟨block, hfree⟩
    have hres := pmmAllocPageInternal_of_firstFree hfirst false
    rw [h.wrap_block (mem_freeBlocks.mp hfirst.1).1] at hres
    have hstep : Ledger.Step s .allocPage (s.enter .allocPage) := ⟨by simp, rfl⟩
    have henter := s.enter_allocPage
    simp only [hres] at henter
    by_cases heq : first = block
    · subst heq
      refine ⟨_, _, Run.single hstep, ?_⟩
      rw [henter, if_neg (by omega)]
      exact Finset.mem_insert_self _ _
    · have hlt : first < block := lt_of_le_of_ne (hfirst.2 block hfree) heq
      have hpmm : (s.enter .allocPage).pmm = s.pmm.take first := by rw [henter]
      have hsmaller : ((s.enter .allocPage).pmm.freeBlocks.filter (· < block)).card < n := by
        rw [hpmm, freeBlocks_take, ← hn, Finset.filter_erase]
        exact Finset.card_erase_lt_of_mem (Finset.mem_filter.mpr ⟨hfirst.1, hlt⟩)
      obtain ⟨ops, t, hrun, ht⟩ := ih _ hsmaller (s.enter .allocPage) (hpmm ▸ h.take)
        (by rw [hpmm, freeBlocks_take]; exact Finset.mem_erase.mpr ⟨Ne.symm heq, hfree⟩) rfl
      exact ⟨_, t, (Run.single hstep).append hrun, ht⟩

/-- What a ledger holds was returned, in a history with the same operations. -/
def Ledger.Within (s : Ledger) (u : Issued) : Prop := s.pmm = u.pmm ∧ s.held ⊆ u.returned

theorem Ledger.Within.step {s t : Ledger} {u : Issued} {op : PmmOp} (h : Ledger.Within s u)
    (hstep : Ledger.Step s op t) : ∃ v, Issued.Step u op v ∧ Ledger.Within t v := by
  obtain ⟨hguard, rfl⟩ := hstep
  obtain ⟨p, returned⟩ := u
  obtain ⟨rfl, hsub⟩ := h
  refine ⟨_, ⟨fun page hop => hsub (hguard page hop), rfl⟩, ?_⟩
  have hheld : ∀ page, (if page = 0 then s.held else insert page s.held) ⊆
      if page = 0 then returned else insert page returned := by
    intro page
    split_ifs
    · exact hsub
    · exact Finset.insert_subset_insert page hsub
  cases op with
  | allocPage => exact ⟨rfl, hheld _⟩
  | allocPageAligned => exact ⟨rfl, hheld _⟩
  | freePage page => exact ⟨rfl, (Finset.erase_subset page s.held).trans hsub⟩

theorem Ledger.Within.run {s t : Ledger} {u : Issued} {ops : List PmmOp} (h : Ledger.Within s u)
    (hrun : Run Ledger.Step s ops t) : ∃ v, Run Issued.Step u ops v ∧ Ledger.Within t v := by
  obtain ⟨v, hv, ht⟩ := hrun.simulates id h fun _ _ _ _ hw hstep => hw.step hstep
  exact ⟨v, by simpa using hv, ht⟩

/-- Every free block other than block zero is returned by some sequence of allocations. -/
theorem exists_run_returning {block : Nat} (hne : block ≠ 0) (s : Issued)
    (h : s.pmm.Consistent) (hfree : block ∈ s.pmm.freeBlocks) :
    ∃ ops t, Run Issued.Step s ops t ∧ block * 4096 ∈ t.returned := by
  obtain ⟨ops, t, hrun, hheld⟩ := exists_run_holding hne ⟨s.pmm, s.returned, ∅⟩ h hfree
  obtain ⟨v, hv, ht⟩ := Ledger.Within.run (u := s) ⟨rfl, subset_rfl⟩ hrun
  exact ⟨ops, v, hv, ht.2 hheld⟩

/-- A held page is a block other than block zero that was free at the start. -/
theorem held_was_free {p : Pmm} (h : p.Consistent) {ops : List PmmOp} {s : Ledger}
    (hrun : Run Ledger.Step ⟨p, ∅, ∅⟩ ops s) {page : Nat} (hpage : page ∈ s.held) :
    ∃ block ∈ p.freeBlocks, block ≠ 0 ∧ page = block * 4096 := by
  obtain ⟨u, hu, hs⟩ := Ledger.Within.run (u := ⟨p, ∅⟩) ⟨rfl, subset_rfl⟩ hrun
  have hwithin : Issued.Within p u := hu.invariant (.init h) fun _ _ _ hw => hw.step
  exact hwithin.returned page (hs.2 hpage)

/-- The image is protected exactly when none of its blocks is free. -/
theorem Pmm.Consistent.imageProtected_iff {p : Pmm} (h : p.Consistent) {endkernel : Nat} :
    ImageProtected endkernel p ↔ ∀ block, block * 4096 < endkernel →
      kernelStart < (block + 1) * 4096 → block ∉ p.freeBlocks := by
  constructor
  · intro hprotected block hlow hhigh hfree
    obtain ⟨ops, s, hrun, hpage⟩ := exists_run_returning
      (by rintro rfl; simp [kernelStart] at hhigh) ⟨p, ∅⟩ h hfree
    exact hprotected ops s hrun _ hpage ⟨hlow, by omega⟩
  · intro hblocks ops s hrun page hpage hover
    have hwithin : Issued.Within p s := hrun.invariant (.init h) fun _ _ _ hw => hw.step
    obtain ⟨block, hfree, -, rfl⟩ := hwithin.returned page hpage
    exact hblocks block hover.1 (by omega) hfree

/-- Every block that overlaps the image, is in the block range of an AVAILABLE entry that was read
and ends at or below some AVAILABLE end of the map is one of the blocks reserved for the bitmap. -/
def ImageReserved (endkernel : Nat) (mmap marked : List MmapEntry) : Prop :=
  ∀ block, block * 4096 < endkernel → kernelStart < (block + 1) * 4096 →
    (∃ e ∈ marked, e.available = true ∧ e.startBlock ≤ block ∧ block < e.endBlock) →
    (∃ e ∈ mmap, e.available = true ∧ (block + 1) * 4096 ≤ e.endAddr) →
    block ∈ bitmapBlocks mmap

/-- No history returns a page of the kernel image exactly when each of its blocks that the third
walk clears is reserved for the bitmap. -/
theorem pmm_image_protected_iff {l : BootLayout} {m : Memory} {mmap : List MmapEntry}
    (hholds : l.Holds m mmap) (endkernel : Nat) :
    l.DecidedBy m mmap (ImageProtected endkernel) (ImageReserved endkernel mmap) := by
  refine hholds.decidedBy fun marked p hp => ?_
  rw [hp.consistent.imageProtected_iff]
  refine forall_congr' fun block => ?_
  rw [hp.free, lt_pmmInitMaxBlocks]
  constructor
  · intro h hlow hhigh hfreed hbelow
    by_contra hbitmap
    exact h hlow hhigh ⟨hbelow, hbitmap, hfreed⟩
  · rintro h hlow hhigh ⟨hbelow, hbitmap, hfreed⟩
    exact hbitmap (h hlow hhigh hfreed hbelow)

/-- The memory map of a machine with 128 MiB, as an emulator's firmware reports it. -/
def pcMap : List MmapEntry :=
  [⟨0, 0x9FC00, 1⟩, ⟨0x9FC00, 0x400, 2⟩, ⟨0xF0000, 0x10000, 2⟩,
    ⟨0x100000, 0x7EE0000, 1⟩, ⟨0x7FE0000, 0x20000, 2⟩, ⟨0xFFFC0000, 0x40000, 2⟩]

theorem pcMap_below : RegionsBelow pcMap := by decide

/-- With low boot data `pmm_init` returns on such a machine. -/
theorem exists_started_pcMap :
    ∃ p, (pcLayout 0x9000).Starts (lowBoot pcMap) p ∧ Started pcMap pcMap p :=
  exists_started_lowBoot (by decide) pcMap_below (by decide) (.inl (by decide))

/-- Memory whose firmware keeps the second to the fourth MiB for itself. -/
def heldImageMap : List MmapEntry :=
  [⟨0, 0x9FC00, 1⟩, ⟨0x100000, 0x300000, 2⟩, ⟨0x400000, 0x7C00000, 1⟩]

theorem heldImageMap_below : RegionsBelow heldImageMap := by decide

/-- An image at 2 MiB in memory that is not AVAILABLE is not handed out. -/
theorem pmm_image_protected_heldImageMap :
    (pcLayout 0x9000).Boots (lowBoot heldImageMap) (ImageProtected 0x210000) := by
  have hapart := lowBoot_apart heldImageMap (by decide) (by decide) (.inl (by decide))
  refine ((pmm_image_protected_iff (lowBoot_holds (by decide)) 0x210000).apart hapart
    heldImageMap_below.clears (by decide)).mpr ?_
  rintro block hlow hhigh ⟨e, he, havail, hstart, hend⟩ -
  obtain ⟨hs, ht, -⟩ := MmapEntry.exact (heldImageMap_below e he havail)
  rw [hs] at hstart
  rw [ht] at hend
  simp only [kernelStart] at hhigh
  simp only [heldImageMap, List.mem_cons, List.not_mem_nil, or_false] at he
  rcases he with rfl | rfl | rfl
  · simp at hend
    omega
  · simp [MmapEntry.available] at havail
  · simp at hstart
    omega

/-- The image of 64 KiB at 2 MiB lies in AVAILABLE memory, and its pages are handed out. -/
theorem pmm_image_unprotected_pcMap :
    (pcLayout 0x9000).Holds (lowBoot pcMap) pcMap ∧
      (∀ x, kernelStart ≤ x → x < 0x210000 → Covered pcMap x) ∧
      (pcLayout 0x9000).Boots (lowBoot pcMap) fun p => ¬ ImageProtected 0x210000 p := by
  refine ⟨lowBoot_holds (by decide), fun x hlow hhigh => ?_, ?_⟩
  · refine ⟨⟨0x100000, 0x7EE0000, 1⟩, by simp [pcMap], by decide, ?_, ?_⟩
    · simp only [kernelStart] at hlow
      simp
      omega
    · simp
      omega
  · obtain ⟨p, hp, hstarted⟩ := exists_started_pcMap
    refine ⟨p, hp, fun h => ?_⟩
    refine hstarted.consistent.imageProtected_iff.mp h 512 (by decide) (by decide) ?_
    exact hstarted.free_of_region pcMap_below (e := ⟨0x100000, 0x7EE0000, 1⟩)
      (by simp [pcMap]) (by decide) (by decide) (by decide) (by decide)

end HolyOs.Mm
