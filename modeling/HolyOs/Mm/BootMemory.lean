import HolyOs.Mm.PmmMap

/-!
# Memory with a boot map

What a boot loader leaves for `pmm_init`: a `multiboot_info_t` and a buffer of entries, each of
which is six words with the size of the other five in the first one. Every map can be left in
memory, and is read back as it was.

## Main results

* `bootMemory_holds`: what is written is what the walks read.
-/
namespace HolyOs.Mm

open ByteMemory

/-- The words of an entry. Its `size` counts the words behind it. -/
def MmapEntry.words (e : MmapEntry) : List Nat :=
  [20, e.addr.toNat % 2 ^ 32, e.addr.toNat / 2 ^ 32, e.len.toNat % 2 ^ 32, e.len.toNat / 2 ^ 32,
    e.type.toNat]

def mmapWords (mmap : List MmapEntry) : List Nat := mmap.flatMap MmapEntry.words

/-- The map in a buffer at `buffer`, and the fields of the `multiboot_info_t` at `mbInfo` that lead
to it. -/
def bootMemory (mbInfo buffer : Nat) (mmap : List MmapEntry) : Memory :=
  let m := storeWords (fun _ => 0) buffer (fun i => (mmapWords mmap).getD i 0)
    (mmapWords mmap).length
  store32 (store32 m (mbInfo + 44) (24 * mmap.length)) (mbInfo + 48) buffer

theorem length_words (e : MmapEntry) : e.words.length = 6 := rfl

theorem length_mmapWords (mmap : List MmapEntry) : (mmapWords mmap).length = 6 * mmap.length := by
  induction mmap with
  | nil => rfl
  | cons e mmap ih =>
    rw [mmapWords, List.flatMap_cons, List.length_append, ← mmapWords, ih, length_words,
      List.length_cons]
    omega

theorem mmapWords_lt {mmap : List MmapEntry} {w : Nat} (hw : w ∈ mmapWords mmap) : w < 2 ^ 32 := by
  obtain ⟨e, -, hw⟩ := List.mem_flatMap.mp hw
  have haddr := e.addr.isLt
  have hlen := e.len.isLt
  have htype := e.type.isLt
  simp only [MmapEntry.words, List.mem_cons, List.not_mem_nil, or_false] at hw
  omega

/-- From `a` on the memory holds these words. -/
def HoldsWords (m : Memory) (a : Nat) (words : List Nat) : Prop :=
  ∀ i (hi : i < words.length), load32 m (a + 4 * i) = words[i]

section Reading

variable {m : Memory} {lo hi a : Nat}

theorem HoldsWords.tail {first rest : List Nat} (h : HoldsWords m a (first ++ rest)) :
    HoldsWords m (a + 4 * first.length) rest := by
  intro i hi
  have hword := h (first.length + i) (by rw [List.length_append]; omega)
  rw [List.getElem_append_right (Nat.le_add_right _ _)] at hword
  simp only [Nat.add_sub_cancel_left] at hword
  rw [← hword]
  congr 1
  omega

/-- A 64-bit field is put together from its halves. -/
theorem ofNat_halves (v : BitVec 64) :
    BitVec.ofNat 64 (v.toNat % 2 ^ 32 + 2 ^ 32 * (v.toNat / 2 ^ 32)) = v := by
  rw [Nat.mod_add_div, BitVec.ofNat_toNat, BitVec.setWidth_eq]

/-- The fields of an entry are read back. -/
theorem HoldsWords.entry {e : MmapEntry} {rest : List Nat} (h : HoldsWords m a (e.words ++ rest))
    (ha : a + 24 < 2 ^ 32) : mmapEntryAt m a = e ∧ mmapNext m a = a + 24 := by
  have hword : ∀ i (hi : i < 6), loadWord m (a + 4 * i) = e.words[i] := by
    intro i hi
    have hlength : i < (e.words ++ rest).length := by
      rw [List.length_append, length_words]
      omega
    rw [loadWord_eq (by omega), h i hlength, List.getElem_append_left hi]
  have hsize : loadWord m a = 20 := hword 0 (by omega)
  have haddr : load64 m (a + 4) = e.addr.toNat % 2 ^ 32 + 2 ^ 32 * (e.addr.toNat / 2 ^ 32) := by
    rw [load64, Nat.add_assoc, hword 1 (by omega), hword 2 (by omega)]
    rfl
  have hlen : load64 m (a + 12) = e.len.toNat % 2 ^ 32 + 2 ^ 32 * (e.len.toNat / 2 ^ 32) := by
    rw [load64, Nat.add_assoc, hword 3 (by omega), hword 4 (by omega)]
    rfl
  have htype : loadWord m (a + 20) = e.type.toNat := hword 5 (by omega)
  constructor
  · rw [mmapEntryAt, haddr, hlen, htype, ofNat_halves, ofNat_halves, BitVec.ofNat_toNat,
      BitVec.setWidth_eq]
  · rw [mmapNext, hsize, Word32.wrap_of_lt (by omega)]

/-- The words of a map are read as the map. -/
theorem HoldsWords.buffer {mmap : List MmapEntry} (h : HoldsWords m a (mmapWords mmap))
    (hlo : lo ≤ a) (hhi : a + 24 * mmap.length = hi) (hbounded : hi < 2 ^ 32) :
    MmapBuffer m lo hi a mmap := by
  induction mmap generalizing a with
  | nil => exact .done (by simpa using hhi.ge)
  | cons e mmap ih =>
    rw [List.length_cons] at hhi
    obtain ⟨hentry, hnext⟩ := HoldsWords.entry (e := e) h (by omega)
    refine .entry hlo (by omega) hentry ?_
    rw [hnext]
    have htail : HoldsWords m (a + 4 * e.words.length) (mmapWords mmap) := HoldsWords.tail h
    exact ih htail (by omega) (by omega)

end Reading

section Layout

variable (l : BootLayout) (mmap : List MmapEntry) {buffer : Nat}

/-- Every map can be left in memory. -/
theorem bootMemory_holds (hinfo : l.mbInfo + 52 ≤ 2 ^ 32)
    (hbuffer : buffer + 24 * mmap.length < 2 ^ 32)
    (hapart : l.mbInfo + 52 ≤ buffer ∨ buffer + 24 * mmap.length ≤ l.mbInfo + 44) :
    l.Holds (bootMemory l.mbInfo buffer mmap) mmap ∧
      l.mmapAddr (bootMemory l.mbInfo buffer mmap) = buffer ∧
      l.mmapLength (bootMemory l.mbInfo buffer mmap) = 24 * mmap.length := by
  have haddr : l.mmapAddr (bootMemory l.mbInfo buffer mmap) = buffer := by
    rw [BootLayout.mmapAddr, loadWord_eq (by omega), bootMemory,
      load32_store32_same _ _ (by omega)]
  have hlength : l.mmapLength (bootMemory l.mbInfo buffer mmap) = 24 * mmap.length := by
    rw [BootLayout.mmapLength, loadWord_eq (by omega), bootMemory,
      load32_store32_of_disjoint _ _ (by omega), load32_store32_same _ _ (by omega)]
  have hwords : HoldsWords (bootMemory l.mbInfo buffer mmap) buffer (mmapWords mmap) := by
    intro i hi
    have hi' := hi
    rw [length_mmapWords] at hi'
    have hvalue : (mmapWords mmap).getD i 0 = (mmapWords mmap)[i] := by simp [hi]
    rw [bootMemory, load32_store32_of_disjoint _ _ (by omega),
      load32_store32_of_disjoint _ _ (by omega), load32_storeWords _ _ hi, hvalue]
    rw [hvalue]
    exact mmapWords_lt (List.getElem_mem hi)
  refine ⟨⟨hinfo, ?_, ?_⟩, haddr, hlength⟩
  · rw [haddr, hlength]
    exact hbuffer
  · rw [haddr, hlength]
    exact hwords.buffer (Nat.le_refl _) rfl hbuffer

/-- The bitmap is apart if it ends before the field and the map or starts behind them. -/
theorem bootMemory_apart (hinfo : l.mbInfo + 52 ≤ 2 ^ 32)
    (hbuffer : buffer + 24 * mmap.length < 2 ^ 32)
    (hapart : l.mbInfo + 52 ≤ buffer ∨ buffer + 24 * mmap.length ≤ l.mbInfo + 44)
    (hfits : bitmapHome mmap + 4 * bitmapWords mmap ≤ 2 ^ 32)
    (hfield : bitmapHome mmap + 4 * bitmapWords mmap ≤ l.mbInfo + 48 ∨
      l.mbInfo + 52 ≤ bitmapHome mmap)
    (hmap : bitmapHome mmap + 4 * bitmapWords mmap ≤ buffer ∨
      buffer + 24 * mmap.length ≤ bitmapHome mmap) :
    l.Apart (bootMemory l.mbInfo buffer mmap) mmap := by
  obtain ⟨-, haddr, hlength⟩ := bootMemory_holds l mmap hinfo hbuffer hapart
  refine ⟨hfits, rangesApart_iff.mpr (by omega), rangesApart_iff.mpr ?_⟩
  rw [haddr, hlength]
  omega

end Layout

/-- The `multiboot_info_t` is at `mbInfo`, the image in 64 KiB at 2 MiB. -/
def pcLayout (mbInfo : Nat) : BootLayout := ⟨mbInfo, 0x200000, 0x210000⟩

/-- The `multiboot_info_t` at 0x9000 and the map behind it. -/
def lowBoot (mmap : List MmapEntry) : Memory := bootMemory 0x9000 0x9080 mmap

theorem lowBoot_holds {mmap : List MmapEntry} (hlen : mmap.length ≤ 100) :
    (pcLayout 0x9000).Holds (lowBoot mmap) mmap :=
  (bootMemory_holds (pcLayout 0x9000) mmap (by decide) (by omega) (.inl (by decide))).1

theorem lowBoot_apart (mmap : List MmapEntry) (hlen : mmap.length ≤ 100)
    (hfits : bitmapHome mmap + 4 * bitmapWords mmap ≤ 2 ^ 32)
    (hhome : bitmapHome mmap + 4 * bitmapWords mmap ≤ 0x9000 ∨ 0xA000 ≤ bitmapHome mmap) :
    (pcLayout 0x9000).Apart (lowBoot mmap) mmap :=
  bootMemory_apart (pcLayout 0x9000) mmap (by decide) (by omega) (.inl (by decide)) hfits
    (by simp only [pcLayout]; omega) (by omega)

/-- Low memory and the memory above the first MiB of a machine with 128 MiB. -/
def lowHighMap : List MmapEntry := [⟨0, 0x9FC00, 1⟩, ⟨0x100000, 0x7EE0000, 1⟩]

end HolyOs.Mm
