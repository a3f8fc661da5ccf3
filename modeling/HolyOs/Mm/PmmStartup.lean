import HolyOs.Mm.BootMemory

/-!
# Start-up in memory

`pmm_init` on one memory that holds the `multiboot_info_t`, the map buffer and the bitmap. The first
two walks read the map that the boot loader left; the third one reads what is left of it after the
fill. These two lists of entries say which blocks are free in the end.

## Main definitions

* `pmmInitAt`: the three walks, the fill and the marks as loads and stores.
* `ShowsWords`: the words of the bitmap in memory are those of an array.
* `BootLayout.Boots`: what holds after `pmm_init`.

## Main results

* `pmmInitAt_eq_some_iff`: when `pmm_init` returns, and what it leaves.
* `BootLayout.Holds.boots_iff`: a property of the started manager, by the entries that were read.
-/
namespace HolyOs.Mm

open ByteMemory HolyOs.Lib PackedBits

/-- `pmm_set_bit` on the bitmap in memory. -/
def setBitAt (bitmap : Nat) (m : Memory) (bit : Nat) : Memory :=
  let word := bitmap + 4 * (bit / pmmBitsPerEntry)
  storeWord m word (loadWord m word ||| 1 <<< (bit % pmmBitsPerEntry))

/-- `pmm_bitmap[i]`. -/
def wordAt (bitmap : Nat) (m : Memory) (i : Nat) : BitVec 32 :=
  BitVec.ofNat 32 (loadWord m (bitmap + 4 * i))

/-- The memory and the static variables after `pmm_init`; none when a walk does not end within the
given number of entries, and when the processor faults. -/
def pmmInitAt (l : BootLayout) (fuel : Nat) (m : Memory) : Option (Memory × Pmm) :=
  let mmapEnd := l.mmapEnd m
  -- nothing is stored before the second walk, which reads a part of the same entries
  (mmapWalk m mmapEnd fuel (l.mmapAddr m)).bind fun mmap =>
    let bitmap := pmmInitBitmapAddr mmap
    let filled := filledBitmap m mmap
    (markingWalk bitmap mmapEnd fuel (l.mmapAddr filled) filled).bind fun (_, marked) =>
      let mem := (pmmInitSets mmap).foldl (setBitAt bitmap) marked
      -- the last log line divides by `pmm_max_blocks`
      if pmmInitMaxBlocks mmap = 0 then none else some (mem,
        { pmmBitmap := wordAt bitmap mem
          pmmBitmapAddr := bitmap
          pmmBitmapSize := pmmInitBitmapSize mmap
          pmmMaxBlocks := pmmInitMaxBlocks mmap
          pmmUsedBlocks := (pmmInitSets mmap).foldl (fun used _ => Word32.wrap (used + 1)) 0 })

/-- `pmm_init` returns, and leaves these static variables. -/
def BootLayout.Starts (l : BootLayout) (m : Memory) (p : Pmm) : Prop :=
  ∃ fuel mem, pmmInitAt l fuel m = some (mem, p)

/-- `pmm_init` returns, and what it leaves has the property. -/
def BootLayout.Boots (l : BootLayout) (m : Memory) (P : Pmm → Prop) : Prop :=
  ∃ p, l.Starts m p ∧ P p

/-- The property of what `pmm_init` leaves is decided by the entries that its third walk reads.
These are the entries of the map itself if the bitmap is apart and no block is cleared beyond it. -/
structure BootLayout.DecidedBy (l : BootLayout) (m : Memory) (mmap : List MmapEntry)
    (P : Pmm → Prop) (Q : List MmapEntry → Prop) : Prop where
  boots : l.Boots m P ↔ HasBlock mmap ∧ ∃ marked, l.Marks m mmap marked ∧ Q marked
  always : (∀ p, l.Starts m p → P p) ↔ HasBlock mmap → ∀ marked, l.Marks m mmap marked → Q marked
  apart : l.Apart m mmap → (∀ bit ∈ pmmInitClears mmap, bit < 32 * bitmapWords mmap) →
    HasBlock mmap → (l.Boots m P ↔ Q mmap)

/-! ## The words of the bitmap -/

/-- The first `2 ^ 29` words from `bitmap` on are those of the array. -/
def ShowsWords (bitmap : Nat) (m : Memory) (ws : Nat → BitVec 32) : Prop :=
  ∀ i < 2 ^ 29, wordAt bitmap m i = ws i

section Words

variable {bitmap : Nat} {m : Memory} {ws : Nat → BitVec 32}

theorem wordAt_eq (bitmap : Nat) (m : Memory) (i : Nat) :
    wordAt bitmap m i = BitVec.ofNat 32 (load32 (window m bitmap) (4 * i)) := by
  rw [wordAt, load32_window]

/-- Different words do not overlap, also where the addresses wrap. -/
theorem wordAt_storeWord (m : Memory) (bitmap : Nat) {i j v : Nat} (hi : i < 2 ^ 29)
    (hj : j < 2 ^ 29) (hv : v < 2 ^ 32) : wordAt bitmap (storeWord m (bitmap + 4 * j) v) i =
      if i = j then BitVec.ofNat 32 v else wordAt bitmap m i := by
  have hsame : load32 (window (storeWord m (bitmap + 4 * j) v) bitmap) (4 * i) =
      load32 (store32 (window m bitmap) (4 * j) v) (4 * i) :=
    load32_congr ((window_storeWord m bitmap v (by omega)).mono (Nat.zero_le _) (by omega))
  rw [wordAt_eq, wordAt_eq, hsame]
  split_ifs with hne
  · rw [hne, load32_store32_same _ _ hv]
  · rw [load32_store32_of_disjoint _ _ (by omega)]

/-- One word is replaced, in memory and in the array. -/
theorem ShowsWords.store (h : ShowsWords bitmap m ws) {j v : Nat} (hj : j < 2 ^ 29)
    (hv : v < 2 ^ 32) : ShowsWords bitmap (storeWord m (bitmap + 4 * j) v)
      (Function.update ws j (BitVec.ofNat 32 v)) := by
  intro i hi
  rw [wordAt_storeWord m bitmap hi hj hv, Function.update_apply, h i hi]

theorem ofNat_mask (k : Nat) : BitVec.ofNat 32 (1 <<< k) = 1#32 <<< k := by
  apply BitVec.eq_of_toNat_eq
  simp [BitVec.toNat_shiftLeft]

theorem ofNat_not {n : Nat} (hn : n < 2 ^ 32) :
    BitVec.ofNat 32 (Word32.not n) = ~~~BitVec.ofNat 32 n := by
  apply BitVec.eq_of_toNat_eq
  rw [BitVec.toNat_not, BitVec.toNat_ofNat, BitVec.toNat_ofNat, Nat.mod_eq_of_lt hn, Word32.not]
  omega

theorem mask_lt (bit : Nat) : 1 <<< (bit % 32) < 2 ^ 32 := by
  rw [Nat.one_shiftLeft]
  exact Nat.pow_lt_pow_right (by decide) (Nat.mod_lt _ (by decide))

theorem not_lt_two_pow (n : Nat) : Word32.not n < 2 ^ 32 := by
  unfold Word32.not
  omega

theorem ShowsWords.clear (h : ShowsWords bitmap m ws) {bit : Nat} (hbit : bit < 2 ^ 34) :
    ShowsWords bitmap (clearBitAt bitmap m bit) (clearBit ws bit) := by
  have hword : bit / 32 < 2 ^ 29 := by omega
  have hold := h (bit / 32) hword
  have hvalue : BitVec.ofNat 32 (loadWord m (bitmap + 4 * (bit / 32)) &&&
      Word32.not (1 <<< (bit % 32))) = ws (bit / 32) &&& ~~~(1#32 <<< (bit % 32)) := by
    rw [← hold, BitVec.ofNat_and, ofNat_not (mask_lt bit), ofNat_mask, wordAt]
  rw [clearBit, ← hvalue]
  exact h.store hword (Nat.and_lt_two_pow _ (not_lt_two_pow _))

theorem ShowsWords.set (h : ShowsWords bitmap m ws) {bit : Nat} (hbit : bit < 2 ^ 34) :
    ShowsWords bitmap (setBitAt bitmap m bit) (setBit ws bit) := by
  have hword : bit / 32 < 2 ^ 29 := by omega
  have hold := h (bit / 32) hword
  have hvalue : BitVec.ofNat 32 (loadWord m (bitmap + 4 * (bit / 32)) ||| 1 <<< (bit % 32)) =
      ws (bit / 32) ||| 1#32 <<< (bit % 32) := by
    rw [← hold, BitVec.ofNat_or, ofNat_mask, wordAt]
  rw [setBit, ← hvalue]
  exact h.store hword (Nat.or_lt_two_pow (loadWord_lt _ _) (mask_lt bit))

theorem ShowsWords.foldl_clear (h : ShowsWords bitmap m ws) {bits : List Nat}
    (hbits : ∀ bit ∈ bits, bit < 2 ^ 34) :
    ShowsWords bitmap (bits.foldl (clearBitAt bitmap) m) (bits.foldl clearBit ws) :=
  List.foldl_rel h fun bit hbit _ _ hstep => hstep.clear (hbits bit hbit)

theorem ShowsWords.foldl_set (h : ShowsWords bitmap m ws) {bits : List Nat}
    (hbits : ∀ bit ∈ bits, bit < 2 ^ 34) :
    ShowsWords bitmap (bits.foldl (setBitAt bitmap) m) (bits.foldl setBit ws) :=
  List.foldl_rel h fun bit hbit _ _ hstep => hstep.set (hbits bit hbit)

/-- The fill sets the words of the bitmap and no others. -/
theorem showsWords_fill (m : Memory) {bitmap size : Nat} (hbitmap : bitmap < 2 ^ 32)
    (hsize : size < 2 ^ 16) : ShowsWords bitmap (memset m bitmap 0xFF (4 * size))
      fun i => if i < size then 0xFFFFFFFF#32 else wordAt bitmap m i := by
  intro i hi
  have hbyte : ∀ x < 2 ^ 32, window (memset m bitmap 0xFF (4 * size)) bitmap x =
      if x < 4 * size then 0xFF else window m bitmap x := by
    intro x hx
    have hfilled := window_memset m bitmap 0xFF (show 0 + 4 * size ≤ 2 ^ 32 by omega) hx
    rw [Nat.add_zero, Word32.wrap_of_lt hbitmap] at hfilled
    simpa using hfilled
  dsimp only
  rw [wordAt_eq, wordAt_eq]
  split_ifs with hin
  · rw [load32, hbyte _ (by omega), hbyte _ (by omega), hbyte _ (by omega), hbyte _ (by omega),
      if_pos (by omega), if_pos (by omega), if_pos (by omega), if_pos (by omega)]
    rfl
  · rw [load32_congr]
    intro x hlo hhi
    rw [hbyte x (by omega), if_neg (by omega)]

end Words

/-! ## What `pmm_init` leaves -/

section Startup

variable {l : BootLayout} {m : Memory} {mmap marked : List MmapEntry}

/-- The memory after the fill and the marks. -/
def startedMemory (m : Memory) (mmap marked : List MmapEntry) : Memory :=
  (pmmInitSets mmap).foldl (setBitAt (pmmInitBitmapAddr mmap))
    ((pmmInitClears marked).foldl (clearBitAt (pmmInitBitmapAddr mmap)) (filledBitmap m mmap))

/-- The static variables that `pmm_init` leaves. -/
def startedPmm (m : Memory) (mmap marked : List MmapEntry) : Pmm where
  pmmBitmap := wordAt (pmmInitBitmapAddr mmap) (startedMemory m mmap marked)
  pmmBitmapAddr := pmmInitBitmapAddr mmap
  pmmBitmapSize := pmmInitBitmapSize mmap
  pmmMaxBlocks := pmmInitMaxBlocks mmap
  pmmUsedBlocks := (pmmInitSets mmap).foldl (fun used _ => Word32.wrap (used + 1)) 0

/-- The words in memory are those of the array that is filled, cleared and marked. -/
theorem startedMemory_shows (m : Memory) (mmap marked : List MmapEntry) :
    ShowsWords (pmmInitBitmapAddr mmap) (startedMemory m mmap marked)
      (startedWords mmap marked (wordAt (pmmInitBitmapAddr mmap) m)) :=
  ((showsWords_fill m (pmmInitBitmapAddr_lt mmap) (bitmapSize_lt mmap)).foldl_clear
    fun _ => pmmInitClears_lt).foldl_set fun _ => pmmInitSets_lt

theorem startedPmm_started (m : Memory) {mmap : List MmapEntry} (marked : List MmapEntry)
    (hblock : HasBlock mmap) : Started mmap marked (startedPmm m mmap marked) where
  blocks := hblock
  address := pmmInitBitmapAddr_eq mmap
  size := pmmInitBitmapSize_eq mmap
  limit := rfl
  used := by
    have hlength := length_pmmInitSets mmap
    have hcard := card_bitmapBlocks_lt mmap
    rw [startedPmm, foldl_used _ (by omega), Nat.zero_add, hlength]
  free block := by
    rw [mem_freeBlocks]
    refine and_congr_right fun hlt => ?_
    have hlt' : block < pmmInitMaxBlocks mmap := hlt
    have hmax := pmmInitMaxBlocks_lt mmap
    have hword := startedMemory_shows m mmap marked (block / 32) (by omega)
    rw [← getBit_startedWords marked (wordAt (pmmInitBitmapAddr mmap) m) hlt', getBit, ← hword]
    rfl

/-- `pmm_init` returns when the third walk ends and there are blocks, and leaves what the entries
that were read make of the memory. -/
theorem pmmInitAt_eq_some_iff (hholds : l.Holds m mmap) {fuel : Nat} {mem : Memory} {p : Pmm} :
    pmmInitAt l fuel m = some (mem, p) ↔ HasBlock mmap ∧ mmap.length < fuel ∧
      ∃ marked, l.Marks m mmap marked ∧ marked.length < fuel ∧
        mem = startedMemory m mmap marked ∧ p = startedPmm m mmap marked := by
  unfold pmmInitAt
  rw [Option.bind_eq_some_iff, hasBlock_iff]
  constructor
  · rintro ⟨mmap', hwalk, hmark⟩
    obtain ⟨hfrom, hlength⟩ := mmapWalk_eq_some_iff.mp hwalk
    obtain rfl := hfrom.unique hholds.entriesFrom
    obtain ⟨⟨marked, last⟩, hmarking, hreturn⟩ := Option.bind_eq_some_iff.mp hmark
    obtain ⟨hmarks, hlength', rfl⟩ := markingWalk_eq_some_iff.mp hmarking
    obtain ⟨hblock, heq⟩ := Option.ite_none_left_eq_some.mp hreturn
    obtain ⟨rfl, rfl⟩ := Prod.mk.inj (Option.some.inj heq)
    exact ⟨hblock, hlength, marked, hmarks, hlength', rfl, rfl⟩
  · rintro ⟨hblock, hlength, marked, hmarks, hlength', rfl, rfl⟩
    refine ⟨mmap, mmapWalk_eq_some_iff.mpr ⟨hholds.entriesFrom, hlength⟩, ?_⟩
    dsimp only
    rw [markingWalk_eq_some_iff.mpr ⟨hmarks, hlength', rfl⟩, Option.bind_some, if_neg hblock]
    rfl

/-- `pmm_init` leaves one state at most, and one when its third walk ends and there are blocks. -/
theorem BootLayout.Holds.starts_iff (hholds : l.Holds m mmap) {p : Pmm} : l.Starts m p ↔
    HasBlock mmap ∧ ∃ marked, l.Marks m mmap marked ∧ p = startedPmm m mmap marked := by
  constructor
  · rintro ⟨fuel, mem, hcall⟩
    obtain ⟨hblock, -, marked, hmarks, -, -, hp⟩ := (pmmInitAt_eq_some_iff hholds).mp hcall
    exact ⟨hblock, marked, hmarks, hp⟩
  · rintro ⟨hblock, marked, hmarks, hp⟩
    exact ⟨max mmap.length marked.length + 1, _, (pmmInitAt_eq_some_iff hholds).mpr
      ⟨hblock, by grind, marked, hmarks, by grind, rfl, hp⟩⟩

/-- What `pmm_init` leaves, in terms of the entries that were read. -/
theorem BootLayout.Holds.started (hholds : l.Holds m mmap) {p : Pmm} (hstart : l.Starts m p) :
    ∃ marked, l.Marks m mmap marked ∧ Started mmap marked p := by
  obtain ⟨hblock, marked, hmarks, rfl⟩ := hholds.starts_iff.mp hstart
  exact ⟨marked, hmarks, startedPmm_started m marked hblock⟩

theorem BootLayout.Holds.exists_started (hholds : l.Holds m mmap) (hblock : HasBlock mmap)
    (hmarks : l.Marks m mmap marked) : ∃ p, l.Starts m p ∧ Started mmap marked p :=
  ⟨_, hholds.starts_iff.mpr ⟨hblock, _, hmarks, rfl⟩, startedPmm_started m _ hblock⟩

/-- A property of the started manager is decided by what it comes down to for the entries. -/
theorem BootLayout.Holds.decidedBy (hholds : l.Holds m mmap) {P : Pmm → Prop}
    {Q : List MmapEntry → Prop} (hspec : ∀ marked p, Started mmap marked p → (P p ↔ Q marked)) :
    l.DecidedBy m mmap P Q := by
  have hboots : l.Boots m P ↔ HasBlock mmap ∧ ∃ marked, l.Marks m mmap marked ∧ Q marked := by
    constructor
    · rintro ⟨p, hp, hP⟩
      obtain ⟨marked, hmarks, hstarted⟩ := hholds.started hp
      exact ⟨hstarted.blocks, marked, hmarks, (hspec marked p hstarted).mp hP⟩
    · rintro ⟨hblock, marked, hmarks, hQ⟩
      obtain ⟨p, hp, hstarted⟩ := hholds.exists_started hblock hmarks
      exact ⟨p, hp, (hspec marked p hstarted).mpr hQ⟩
  refine ⟨hboots, ⟨fun h hblock marked hmarks => ?_, fun h p hp => ?_⟩,
    fun hapart hbits hblock => ?_⟩
  · obtain ⟨p, hp, hstarted⟩ := hholds.exists_started hblock hmarks
    exact (hspec marked p hstarted).mp (h p hp)
  · obtain ⟨marked, hmarks, hstarted⟩ := hholds.started hp
    exact (hspec marked p hstarted).mpr (h hstarted.blocks marked hmarks)
  · rw [hboots]
    constructor
    · rintro ⟨-, marked, hmarks, hQ⟩
      rwa [← (hapart.marks_iff hholds hbits).mp hmarks]
    · exact fun hQ => ⟨hblock, mmap, hapart.marks hholds hbits, hQ⟩

/-! ## Regions below 4 GiB -/

theorem RegionsBelow.fits (h : RegionsBelow mmap) :
    bitmapHome mmap + 4 * bitmapWords mmap ≤ 2 ^ 32 := by
  have hsize := bitmapSize_lt mmap
  rw [← pmmInitBitmapAddr_eq, ← pmmInitBitmapSize_eq, pmmInitBitmapAddr]
  split
  · next e he =>
    have htest := List.find?_some he
    simp only [Bool.and_eq_true, decide_eq_true_eq] at htest
    have hregion := h e (List.mem_of_find?_eq_some he) htest.1
    rw [Word32.wrap_of_lt (by omega)]
    omega
  · omega

end Startup

/-- With low boot data and the bitmap elsewhere `pmm_init` returns, and has read the map again. -/
theorem exists_started_lowBoot {mmap : List MmapEntry} (hlen : mmap.length ≤ 100)
    (hbelow : RegionsBelow mmap) (hblock : HasBlock mmap)
    (hhome : bitmapHome mmap + 4 * bitmapWords mmap ≤ 0x9000 ∨ 0xA000 ≤ bitmapHome mmap) :
    ∃ p, (pcLayout 0x9000).Starts (lowBoot mmap) p ∧ Started mmap mmap p :=
  (lowBoot_holds hlen).exists_started hblock
    ((lowBoot_apart mmap hlen hbelow.fits hhome).marks (lowBoot_holds hlen) hbelow.clears)

/-- Every block inside one AVAILABLE region is below the limit and free, unless it is one of the
blocks reserved for the bitmap. -/
def RegionsFreed (mmap : List MmapEntry) (p : Pmm) : Prop :=
  ∀ e ∈ mmap, e.available = true → ∀ block, e.addr.toNat ≤ block * 4096 →
    (block + 1) * 4096 ≤ e.addr.toNat + e.len.toNat →
    block < p.pmmMaxBlocks ∧
      (pmmTestBit p block = 0#32 ∨ p.pmmBitmapAddr / 4096 ≤ block ∧
        block ≤ p.pmmBitmapAddr / 4096 + 4 * p.pmmBitmapSize / 4096)

/-- Every block inside one AVAILABLE region of the map, those reserved for the bitmap aside, is in
the block range of an AVAILABLE entry that the third walk reads. -/
def RegionsMarked (mmap marked : List MmapEntry) : Prop :=
  ∀ e ∈ mmap, e.available = true → ∀ block, e.addr.toNat ≤ block * 4096 →
    (block + 1) * 4096 ≤ e.addr.toNat + e.len.toNat → block ∉ bitmapBlocks mmap →
    ∃ f ∈ marked, f.available = true ∧ f.startBlock ≤ block ∧ block < f.endBlock

theorem Started.regionsFreed_iff {mmap marked : List MmapEntry} {p : Pmm}
    (hp : Started mmap marked p) (hbelow : RegionsBelow mmap) :
    RegionsFreed mmap p ↔ RegionsMarked mmap marked := by
  have hlimit : ∀ e ∈ mmap, e.available = true → ∀ block,
      (block + 1) * 4096 ≤ e.addr.toNat + e.len.toNat → block < pmmInitMaxBlocks mmap := by
    intro e he havail block hend
    obtain ⟨-, -, hr⟩ := MmapEntry.exact (hbelow e he havail)
    exact lt_pmmInitMaxBlocks.mpr ⟨e, he, havail, by omega⟩
  have hreserved : ∀ block, (p.pmmBitmapAddr / 4096 ≤ block ∧
      block ≤ p.pmmBitmapAddr / 4096 + 4 * p.pmmBitmapSize / 4096) ↔
        block ∈ bitmapBlocks mmap := by
    intro block
    rw [hp.address, hp.size, bitmapBlocks, Finset.mem_Icc]
  refine forall_congr' fun e => forall₂_congr fun he havail => forall_congr' fun block =>
    forall₂_congr fun hstart hend => ?_
  have hlt := hlimit e he havail block hend
  have hfree := hp.free block
  rw [mem_freeBlocks, hp.limit] at hfree
  rw [hp.limit, pmmTestBit_eq_zero, hreserved]
  constructor
  · rintro ⟨-, hclear | hbitmap⟩ hnot
    · exact (hfree.mp ⟨hlt, hclear⟩).2.2
    · exact absurd hbitmap hnot
  · intro h
    refine ⟨hlt, or_iff_not_imp_right.mpr fun hnot => ?_⟩
    exact (hfree.mpr ⟨hlt, hnot, h hnot⟩).2

/-- For a map whose AVAILABLE regions end below 4 GiB, and with the bitmap apart from the map, no
RAM is lost exactly when the third walk reads entries that cover the regions of the map. It reads
the map if the bitmap is also apart from the field with the address of the map. -/
theorem pmm_init_frees_regions_iff {l : BootLayout} {m : Memory} {mmap : List MmapEntry}
    (hholds : l.Holds m mmap) (hbelow : RegionsBelow mmap)
    (hbuffer : RangesApart (bitmapHome mmap) (bitmapHome mmap + 4 * bitmapWords mmap)
      (l.mmapAddr m) (l.mmapAddr m + l.mmapLength m)) :
    l.DecidedBy m mmap (RegionsFreed mmap) (RegionsMarked mmap) ∧
    (RangesApart (bitmapHome mmap) (bitmapHome mmap + 4 * bitmapWords mmap) (l.mbInfo + 48)
        (l.mbInfo + 52) →
      (∀ p, l.Starts m p → RegionsFreed mmap p) ∧
        (HasBlock mmap → l.Boots m (RegionsFreed mmap))) := by
  have hdecided : l.DecidedBy m mmap (RegionsFreed mmap) (RegionsMarked mmap) :=
    hholds.decidedBy fun _ _ hp => hp.regionsFreed_iff hbelow
  have hself : RegionsMarked mmap mmap := by
    intro e he havail block hstart hend _
    obtain ⟨hs, ht, -⟩ := MmapEntry.exact (hbelow e he havail)
    exact ⟨e, he, havail, by omega, by omega⟩
  refine ⟨hdecided, fun hinfo => ?_⟩
  have hapart : l.Apart m mmap := ⟨hbelow.fits, hinfo, hbuffer⟩
  refine ⟨hdecided.always.mpr fun _ marked hmarks => ?_, fun hblock =>
    (hdecided.apart hapart hbelow.clears hblock).mpr hself⟩
  rwa [(hapart.marks_iff hholds hbelow.clears).mp hmarks]

theorem lowHighMap_below : RegionsBelow lowHighMap := by decide

theorem lowHighMap_hasBlock : HasBlock lowHighMap := by decide

/-- With the `multiboot_info_t` and the map at 0x9000 no RAM is lost on a machine with 128 MiB. -/
theorem pmm_init_frees_regions_lowHighMap :
    (pcLayout 0x9000).Boots (lowBoot lowHighMap) (RegionsFreed lowHighMap) := by
  have hholds : (pcLayout 0x9000).Holds (lowBoot lowHighMap) lowHighMap := lowBoot_holds (by decide)
  have hapart := lowBoot_apart lowHighMap (by decide) (by decide) (.inl (by decide))
  exact ((pmm_init_frees_regions_iff hholds lowHighMap_below hapart.buffer).2 hapart.info).2
    lowHighMap_hasBlock

/-- With the `multiboot_info_t` at 0x500, under the bitmap, the third walk reads no entry, and
`pmm_init` returns without a free block. -/
theorem pmm_init_loses_regions_lowHighMap :
    let m := bootMemory 0x500 0x9000 lowHighMap
    (pcLayout 0x500).Holds m lowHighMap ∧ RegionsBelow lowHighMap ∧
      RangesApart (bitmapHome lowHighMap) (bitmapHome lowHighMap + 4 * bitmapWords lowHighMap)
        ((pcLayout 0x500).mmapAddr m)
        ((pcLayout 0x500).mmapAddr m + (pcLayout 0x500).mmapLength m) ∧
      (pcLayout 0x500).Boots m fun p => p.freeBlocks = ∅ ∧ ¬ RegionsFreed lowHighMap p := by
  obtain ⟨hholds, haddr, hlength⟩ := bootMemory_holds (pcLayout 0x500) lowHighMap (by decide)
    (show 0x9000 + 24 * 2 < 2 ^ 32 by decide) (.inl (by decide))
  have hbuffer : RangesApart (bitmapHome lowHighMap)
      (bitmapHome lowHighMap + 4 * bitmapWords lowHighMap)
      ((pcLayout 0x500).mmapAddr (bootMemory 0x500 0x9000 lowHighMap))
      ((pcLayout 0x500).mmapAddr (bootMemory 0x500 0x9000 lowHighMap) +
        (pcLayout 0x500).mmapLength (bootMemory 0x500 0x9000 lowHighMap)) :=
    rangesApart_iff.mpr (.inr (.inr (.inl (le_of_le_of_eq (by decide) haddr.symm))))
  have hnone : (pcLayout 0x500).Marks (bootMemory 0x500 0x9000 lowHighMap) lowHighMap [] :=
    marks_covered (by decide) (by decide) (by decide)
  obtain ⟨p, hp, hstarted⟩ := hholds.exists_started lowHighMap_hasBlock hnone
  refine ⟨hholds, lowHighMap_below, hbuffer, p, hp, ?_, fun hfreed => ?_⟩
  · refine Finset.eq_empty_of_forall_notMem fun block hfree => ?_
    obtain ⟨-, -, e, he, -⟩ := (hstarted.free block).mp hfree
    cases he
  · have hall := (hstarted.regionsFreed_iff lowHighMap_below).mp hfreed
    obtain ⟨f, hf, -⟩ := hall ⟨0x100000, 0x7EE0000, 1⟩ (by simp [lowHighMap]) (by decide) 512
      (by decide) (by decide) (by decide)
    cases hf

end HolyOs.Mm
