import HolyOs.Lib.String
import HolyOs.Mm.PmmInit

/-!
# The memory map in memory

`pmm_init` walks over the map buffer three times, and between the second and the third walk it
fills the bitmap. The buffer lies in memory, and so does the `multiboot_info_t` that says where it
is and that is read again before each walk; the fill can reach both. The code, the stack and the
static variables of the kernel are not in this memory.

## Main definitions

* `mmapWalk`, `markingWalk`: the walks over the map.
* `BootLayout.Holds`: the boot loader left a map.
* `BootLayout.Marks`: the entries that the marking walk reads.
* `BootLayout.Apart`: the bitmap is apart from what the marking walk reads.
-/
namespace HolyOs.Mm

open ByteMemory HolyOs.Lib

/-- A 64-bit field, least significant word first. -/
def load64 (m : Memory) (a : Nat) : Nat := loadWord m a + 2 ^ 32 * loadWord m (a + 4)

/-- The fields of the `multiboot_memory_map_t` at an address, without `size`. -/
def mmapEntryAt (m : Memory) (mmap : Nat) : MmapEntry :=
  ⟨BitVec.ofNat 64 (load64 m (mmap + 4)), BitVec.ofNat 64 (load64 m (mmap + 12)),
    BitVec.ofNat 32 (loadWord m (mmap + 20))⟩

/-- `(uint32_t)mmap + mmap->size + sizeof(mmap->size)`. -/
def mmapNext (m : Memory) (mmap : Nat) : Nat := Word32.wrap (mmap + loadWord m mmap + 4)

/-- The entries a walk visits from `mmap` to `mmap_end`; none when it does not end within the
given number of entries. -/
def mmapWalk (m : Memory) (mmapEnd : Nat) : Nat → Nat → Option (List MmapEntry)
  | 0, _ => none
  | fuel + 1, mmap =>
    if mmap < mmapEnd then
      (mmapWalk m mmapEnd fuel (mmapNext m mmap)).map (mmapEntryAt m mmap :: ·)
    else some []

/-- `pmm_clear_bit` on the bitmap in memory. -/
def clearBitAt (bitmap : Nat) (m : Memory) (bit : Nat) : Memory :=
  let word := bitmap + 4 * (bit / pmmBitsPerEntry)
  storeWord m word (loadWord m word &&& Word32.not (1 <<< (bit % pmmBitsPerEntry)))

/-- The loop over the blocks of an AVAILABLE entry. -/
def clearEntry (bitmap : Nat) (m : Memory) (e : MmapEntry) : Memory :=
  if e.available then e.blocks.foldl (clearBitAt bitmap) m else m

/-- The entries that the marking walk reads, while it clears the bits of their blocks, and the
memory that it leaves. -/
def markingWalk (bitmap mmapEnd : Nat) : Nat → Nat → Memory → Option (List MmapEntry × Memory)
  | 0, _, _ => none
  | fuel + 1, mmap, m =>
    if mmap < mmapEnd then
      let entry := mmapEntryAt m mmap
      let cleared := clearEntry bitmap m entry
      (markingWalk bitmap mmapEnd fuel (mmapNext cleared mmap) cleared).map
        fun (entries, marked) => (entry :: entries, marked)
    else some ([], m)

/-- Where the boot loader put the `multiboot_info_t` and the image. -/
structure BootLayout where
  mbInfo : Nat
  imageStart : Nat
  imageEnd : Nat

namespace BootLayout

/-- `mb_info->mmap_length`. -/
def mmapLength (l : BootLayout) (m : Memory) : Nat := loadWord m (l.mbInfo + 44)

/-- `mb_info->mmap_addr`. -/
def mmapAddr (l : BootLayout) (m : Memory) : Nat := loadWord m (l.mbInfo + 48)

/-- `mmap_end`, a local variable of `pmm_init` from its start on. -/
def mmapEnd (l : BootLayout) (m : Memory) : Nat := Word32.wrap (l.mmapAddr m + l.mmapLength m)

end BootLayout

/-- From `a` on the bytes below `hi` hold these entries, each of them within `[lo, hi)`. -/
inductive MmapBuffer (m : Memory) (lo hi : Nat) : Nat → List MmapEntry → Prop
  | done {a : Nat} : hi ≤ a → MmapBuffer m lo hi a []
  | entry {a : Nat} {e : MmapEntry} {es : List MmapEntry} : lo ≤ a → a + 24 ≤ hi →
      mmapEntryAt m a = e → MmapBuffer m lo hi (mmapNext m a) es → MmapBuffer m lo hi a (e :: es)

/-- The `multiboot_info_t` leads to a buffer that holds the map, and neither of them wraps. -/
structure BootLayout.Holds (l : BootLayout) (m : Memory) (mmap : List MmapEntry) : Prop where
  info : l.mbInfo + 52 ≤ 2 ^ 32
  bounded : l.mmapAddr m + l.mmapLength m < 2 ^ 32
  entries : MmapBuffer m (l.mmapAddr m) (l.mmapAddr m + l.mmapLength m) (l.mmapAddr m) mmap

/-- No byte is in both ranges. -/
def RangesApart (lo hi lo' hi' : Nat) : Prop := ∀ x, lo ≤ x → x < hi → ¬ (lo' ≤ x ∧ x < hi')

/-- The memory after the `memset` of `pmm_init`. -/
def filledBitmap (m : Memory) (mmap : List MmapEntry) : Memory :=
  memset m (pmmInitBitmapAddr mmap) 0xFF (4 * pmmInitBitmapSize mmap)

/-- From `a` on a walk reads these entries. -/
inductive EntriesFrom (m : Memory) (mmapEnd : Nat) : Nat → List MmapEntry → Prop
  | done {a : Nat} : mmapEnd ≤ a → EntriesFrom m mmapEnd a []
  | entry {a : Nat} {es : List MmapEntry} : a < mmapEnd →
      EntriesFrom m mmapEnd (mmapNext m a) es → EntriesFrom m mmapEnd a (mmapEntryAt m a :: es)

/-- From `a` on a walk reads these entries when the bits of each AVAILABLE one are cleared before
its size field is followed. -/
inductive MarkedFrom (bitmap mmapEnd : Nat) : Nat → Memory → List MmapEntry → Prop
  | done {a : Nat} {m : Memory} : mmapEnd ≤ a → MarkedFrom bitmap mmapEnd a m []
  | entry {a : Nat} {m : Memory} {es : List MmapEntry} : a < mmapEnd →
      MarkedFrom bitmap mmapEnd (mmapNext (clearEntry bitmap m (mmapEntryAt m a)) a)
        (clearEntry bitmap m (mmapEntryAt m a)) es →
      MarkedFrom bitmap mmapEnd a m (mmapEntryAt m a :: es)

/-- The entries that the marking walk reads: in the memory in which the bitmap for the map was
filled, from the address on that the `multiboot_info_t` then gives. -/
def BootLayout.Marks (l : BootLayout) (m : Memory) (mmap marked : List MmapEntry) : Prop :=
  let filled := filledBitmap m mmap
  MarkedFrom (pmmInitBitmapAddr mmap) (l.mmapEnd m) (l.mmapAddr filled) filled marked

/-- From `a` on the marking walk reads this entry, whether or not it ends. -/
inductive MarkingReads (bitmap mmapEnd : Nat) : Nat → Memory → MmapEntry → Prop
  | first {a : Nat} {m : Memory} : a < mmapEnd → MarkingReads bitmap mmapEnd a m (mmapEntryAt m a)
  | later {a : Nat} {m : Memory} {e : MmapEntry} : a < mmapEnd →
      MarkingReads bitmap mmapEnd (mmapNext (clearEntry bitmap m (mmapEntryAt m a)) a)
        (clearEntry bitmap m (mmapEntryAt m a)) e →
      MarkingReads bitmap mmapEnd a m e

/-- An entry that the marking walk reads. -/
def BootLayout.Rereads (l : BootLayout) (m : Memory) (mmap : List MmapEntry) (e : MmapEntry) :
    Prop :=
  let filled := filledBitmap m mmap
  MarkingReads (pmmInitBitmapAddr mmap) (l.mmapEnd m) (l.mmapAddr filled) filled e

/-- The bitmap does not wrap, and it is apart from the field that the marking walk starts from and
from the map buffer. -/
structure BootLayout.Apart (l : BootLayout) (m : Memory) (mmap : List MmapEntry) : Prop where
  fits : bitmapHome mmap + 4 * bitmapWords mmap ≤ 2 ^ 32
  info : RangesApart (bitmapHome mmap) (bitmapHome mmap + 4 * bitmapWords mmap) (l.mbInfo + 48)
    (l.mbInfo + 52)
  buffer : RangesApart (bitmapHome mmap) (bitmapHome mmap + 4 * bitmapWords mmap) (l.mmapAddr m)
    (l.mmapAddr m + l.mmapLength m)

theorem rangesApart_iff {lo hi lo' hi' : Nat} :
    RangesApart lo hi lo' hi' ↔ hi ≤ lo ∨ hi' ≤ lo' ∨ hi ≤ lo' ∨ hi' ≤ lo := by
  unfold RangesApart
  constructor
  · intro h
    have := h (max lo lo')
    omega
  · intro h x
    omega

/-! ## The walks -/

section Walks

variable {m m' : Memory} {lo hi a : Nat} {es : List MmapEntry}

theorem mmapEntryAt_congr (ha : a + 24 ≤ 2 ^ 32) (h : SameOn m m' a (a + 24)) :
    mmapEntryAt m' a = mmapEntryAt m a := by
  have hword : ∀ k, k + 4 ≤ 24 → loadWord m' (a + k) = loadWord m (a + k) := fun k hk =>
    loadWord_congr (by omega) (h.mono (by omega) (by omega))
  simp only [mmapEntryAt, load64, Nat.add_assoc, Nat.reduceAdd, hword 4 (by omega),
    hword 8 (by omega), hword 12 (by omega), hword 16 (by omega), hword 20 (by omega)]

theorem mmapNext_congr (ha : a + 24 ≤ 2 ^ 32) (h : SameOn m m' a (a + 24)) :
    mmapNext m' a = mmapNext m a := by
  rw [mmapNext, mmapNext, loadWord_congr (by omega) (h.mono (by omega) (by omega))]

/-- A buffer that is not written to holds the same map. -/
theorem MmapBuffer.congr (h : MmapBuffer m lo hi a es) (hhi : hi ≤ 2 ^ 32)
    (hsame : SameOn m m' lo hi) : MmapBuffer m' lo hi a es := by
  induction h with
  | done hle => exact .done hle
  | @entry a e es hlo hlast he _ ih =>
    have hfields : SameOn m m' a (a + 24) := hsame.mono hlo hlast
    refine .entry hlo hlast ((mmapEntryAt_congr (by omega) hfields).trans he) ?_
    rw [mmapNext_congr (by omega) hfields]
    exact ih

theorem MmapBuffer.entriesFrom (h : MmapBuffer m lo hi a es) : EntriesFrom m hi a es := by
  induction h with
  | done hle => exact .done hle
  | entry _ hhi he _ ih => exact he ▸ .entry (by omega) ih

/-- With enough fuel a walk reads its entries. -/
theorem mmapWalk_eq_some_iff {fuel : Nat} :
    mmapWalk m hi fuel a = some es ↔ EntriesFrom m hi a es ∧ es.length < fuel := by
  induction fuel generalizing a es with
  | zero => simp [mmapWalk]
  | succ fuel ih =>
    unfold mmapWalk
    split_ifs with hlt
    · rw [Option.map_eq_some_iff]
      constructor
      · rintro ⟨rest, hrest, rfl⟩
        obtain ⟨hfrom, hlength⟩ := ih.mp hrest
        exact ⟨.entry hlt hfrom, Nat.succ_lt_succ hlength⟩
      · rintro ⟨hfrom, hlength⟩
        cases hfrom with
        | done hle => exact absurd hlt (Nat.not_lt.mpr hle)
        | entry _ hrest => exact ⟨_, ih.mpr ⟨hrest, Nat.lt_of_succ_lt_succ hlength⟩, rfl⟩
    · constructor
      · rintro h
        obtain rfl := Option.some.inj h
        exact ⟨.done (Nat.le_of_not_lt hlt), Nat.succ_pos _⟩
      · rintro ⟨hfrom, -⟩
        cases hfrom with
        | done => rfl
        | entry hlt' => exact absurd hlt' hlt

theorem EntriesFrom.unique {es' : List MmapEntry} (h : EntriesFrom m hi a es)
    (h' : EntriesFrom m hi a es') : es = es' := by
  induction h generalizing es' with
  | done hle =>
    cases h' with
    | done => rfl
    | entry hlt => omega
  | entry hlt _ ih =>
    cases h' with
    | done hle => omega
    | entry _ hrest => rw [ih hrest]

theorem exists_mmapWalk_iff : (∃ fuel, mmapWalk m hi fuel a = some es) ↔ EntriesFrom m hi a es := by
  constructor
  · rintro ⟨fuel, hwalk⟩
    exact (mmapWalk_eq_some_iff.mp hwalk).1
  · exact fun h => ⟨_, mmapWalk_eq_some_iff.mpr ⟨h, Nat.lt_succ_self _⟩⟩

/-! ## The marking walk -/

variable {bitmap mmapEnd : Nat}

theorem MarkedFrom.unique {es' : List MmapEntry} (h : MarkedFrom bitmap mmapEnd a m es)
    (h' : MarkedFrom bitmap mmapEnd a m es') : es = es' := by
  induction h generalizing es' with
  | done hle =>
    cases h' with
    | done => rfl
    | entry hlt => omega
  | entry hlt _ ih =>
    cases h' with
    | done hle => omega
    | entry _ hrest => rw [ih hrest]

theorem clearEntry_eq (bitmap : Nat) (m : Memory) (e : MmapEntry) :
    clearEntry bitmap m e = (pmmInitClears [e]).foldl (clearBitAt bitmap) m := by
  simp only [clearEntry, pmmInitClears, List.flatMap_cons, List.flatMap_nil, List.append_nil]
  split_ifs <;> rfl

theorem pmmInitClears_cons (e : MmapEntry) (es : List MmapEntry) :
    pmmInitClears (e :: es) = pmmInitClears [e] ++ pmmInitClears es := by
  simp [pmmInitClears]

/-- The marking walk clears the blocks of the entries that it reads. -/
theorem markingWalk_eq_some_iff {fuel : Nat} {marked : Memory} :
    markingWalk bitmap mmapEnd fuel a m = some (es, marked) ↔
      MarkedFrom bitmap mmapEnd a m es ∧ es.length < fuel ∧
        marked = (pmmInitClears es).foldl (clearBitAt bitmap) m := by
  induction fuel generalizing a m es marked with
  | zero => simp [markingWalk]
  | succ fuel ih =>
    unfold markingWalk
    split_ifs with hlt
    · simp only [Option.map_eq_some_iff, Prod.exists, Prod.mk.injEq]
      constructor
      · rintro ⟨rest, last, hrest, rfl, rfl⟩
        obtain ⟨hfrom, hlength, rfl⟩ := ih.mp hrest
        refine ⟨.entry hlt hfrom, Nat.succ_lt_succ hlength, ?_⟩
        rw [pmmInitClears_cons, List.foldl_append, ← clearEntry_eq]
      · rintro ⟨hfrom, hlength, rfl⟩
        cases hfrom with
        | done hle => exact absurd hlt (Nat.not_lt.mpr hle)
        | entry _ hrest =>
          refine ⟨_, _, ih.mpr ⟨hrest, Nat.lt_of_succ_lt_succ hlength, rfl⟩, rfl, ?_⟩
          rw [pmmInitClears_cons, List.foldl_append, ← clearEntry_eq]
    · constructor
      · intro h
        obtain ⟨rfl, rfl⟩ := Prod.mk.inj (Option.some.inj h)
        exact ⟨.done (Nat.le_of_not_lt hlt), Nat.succ_pos _, rfl⟩
      · rintro ⟨hfrom, -, rfl⟩
        cases hfrom with
        | done => rfl
        | entry hlt' => exact absurd hlt' hlt

/-- A bit of the bitmap is cleared within the bitmap. -/
theorem sameOn_clearBitAt {words bit : Nat} (hbound : bitmap + 4 * words ≤ 2 ^ 32)
    (hbit : bit < 32 * words) (hapart : RangesApart bitmap (bitmap + 4 * words) lo hi) :
    SameOn m (clearBitAt bitmap m bit) lo hi := by
  have hword : bitmap + 4 * (bit / 32) + 4 ≤ bitmap + 4 * words := by omega
  intro x hlow hhigh
  have hx := hapart x
  have hbyte : SameOn m (clearBitAt bitmap m bit) x (x + 1) := by
    rw [clearBitAt, pmmBitsPerEntry]
    exact sameOn_storeWord m _ (by omega) (by omega)
  exact hbyte x (Nat.le_refl x) (Nat.lt_succ_self x)

theorem sameOn_foldl_clearBitAt {words : Nat} (hbound : bitmap + 4 * words ≤ 2 ^ 32)
    (hapart : RangesApart bitmap (bitmap + 4 * words) lo hi) {bits : List Nat}
    (hbits : ∀ bit ∈ bits, bit < 32 * words) :
    SameOn m (bits.foldl (clearBitAt bitmap) m) lo hi := by
  induction bits generalizing m with
  | nil => exact .refl m lo hi
  | cons bit bits ih =>
    exact (sameOn_clearBitAt hbound (hbits bit (by simp)) hapart).trans
      (ih fun bit hbit => hbits bit (by simp [hbit]))

/-- An entry is read as it was at the start, and clearing the bits of its blocks, within a bitmap
apart from the buffer, leaves the later entries alone. -/
theorem MmapBuffer.cleared {words : Nat} {e : MmapEntry} (h : MmapBuffer m lo hi a (e :: es))
    (hhi : hi ≤ 2 ^ 32) (hbound : bitmap + 4 * words ≤ 2 ^ 32)
    (hapart : RangesApart bitmap (bitmap + 4 * words) lo hi)
    (hbits : ∀ bit ∈ pmmInitClears [e], bit < 32 * words) :
    a < hi ∧ mmapEntryAt m a = e ∧
      MmapBuffer (clearEntry bitmap m e) lo hi (mmapNext (clearEntry bitmap m e) a) es := by
  cases h with
  | entry hlo hlast he hrest =>
    have hsame := sameOn_foldl_clearBitAt (m := m) hbound hapart hbits
    rw [← clearEntry_eq] at hsame
    refine ⟨by omega, he, ?_⟩
    rw [mmapNext_congr (by omega) (hsame.mono hlo hlast)]
    exact hrest.congr hhi hsame

/-- The marking walk reads what the buffer held at its start, as long as the bits of what it reads
are bits of the bitmap. -/
theorem MmapBuffer.markedFrom {words : Nat} (h : MmapBuffer m lo hi a es) (hhi : hi ≤ 2 ^ 32)
    (hbound : bitmap + 4 * words ≤ 2 ^ 32) (hapart : RangesApart bitmap (bitmap + 4 * words) lo hi)
    (hbits : ∀ e ∈ es, MarkingReads bitmap hi a m e → ∀ bit ∈ pmmInitClears [e], bit < 32 * words) :
    MarkedFrom bitmap hi a m es := by
  induction es generalizing m a with
  | nil =>
    cases h with
    | done hle => exact .done hle
  | cons e es ih =>
    obtain ⟨hlt, rfl⟩ : a < hi ∧ mmapEntryAt m a = e := by
      cases h with
      | entry _ hlast he _ => exact ⟨by omega, he⟩
    have hfirst := hbits _ (List.mem_cons_self ..) (.first hlt)
    obtain ⟨-, -, hrest⟩ := h.cleared hhi hbound hapart hfirst
    refine .entry hlt (ih hrest fun f hf hreads => ?_)
    exact hbits f (List.mem_cons_of_mem _ hf) (.later hlt hreads)

theorem MarkedFrom.reads (h : MarkedFrom bitmap mmapEnd a m es) {e : MmapEntry} :
    MarkingReads bitmap mmapEnd a m e ↔ e ∈ es := by
  induction h with
  | done hle =>
    refine iff_of_false (fun hreads => ?_) List.not_mem_nil
    cases hreads <;> omega
  | entry hlt _ ih =>
    rw [List.mem_cons, ← ih]
    constructor
    · intro hreads
      cases hreads with
      | first => exact .inl rfl
      | later _ hlater => exact .inr hlater
    · rintro (rfl | hlater)
      · exact .first hlt
      · exact .later hlt hlater

end Walks

/-- The fill of a bitmap apart from a range leaves the range alone. -/
theorem sameOn_filledBitmap {m : Memory} {mmap : List MmapEntry} {lo hi : Nat}
    (hbelow : bitmapHome mmap + 4 * bitmapWords mmap ≤ 2 ^ 32)
    (hapart : RangesApart (bitmapHome mmap) (bitmapHome mmap + 4 * bitmapWords mmap) lo hi) :
    SameOn m (filledBitmap m mmap) lo hi := by
  intro x hlow hhigh
  rw [filledBitmap, pmmInitBitmapAddr_eq, pmmInitBitmapSize_eq, memset_apply _ _ hbelow, if_neg]
  intro hx
  exact hapart x hx.1 hx.2 ⟨hlow, hhigh⟩

/-- A word of bytes that are all ones. -/
theorem loadWord_ones {m : Memory} {a : Nat} (ha : a + 4 ≤ 2 ^ 32)
    (h : ∀ x, a ≤ x → x < a + 4 → m x = 0xFF) : loadWord m a = 0xFFFFFFFF := by
  rw [loadWord_eq ha, load32, h a (by omega) (by omega), h (a + 1) (by omega) (by omega),
    h (a + 2) (by omega) (by omega), h (a + 3) (by omega) (by omega)]
  rfl

theorem filledBitmap_ones {m : Memory} {mmap : List MmapEntry} {x : Nat}
    (hbelow : bitmapHome mmap + 4 * bitmapWords mmap ≤ 2 ^ 32) (hlow : bitmapHome mmap ≤ x)
    (hhigh : x < bitmapHome mmap + 4 * bitmapWords mmap) : filledBitmap m mmap x = 0xFF := by
  rw [filledBitmap, pmmInitBitmapAddr_eq, pmmInitBitmapSize_eq, memset_apply _ _ hbelow,
    if_pos ⟨hlow, hhigh⟩]

section Apart

variable {l : BootLayout} {m : Memory} {mmap marked : List MmapEntry}

theorem BootLayout.Holds.mmapEnd (h : l.Holds m mmap) :
    l.mmapEnd m = l.mmapAddr m + l.mmapLength m := Word32.wrap_of_lt h.bounded

/-- The first walk reads the map. -/
theorem BootLayout.Holds.entriesFrom (h : l.Holds m mmap) :
    EntriesFrom m (l.mmapEnd m) (l.mmapAddr m) mmap := by
  rw [h.mmapEnd]
  exact h.entries.entriesFrom

/-- Apart from the bitmap, the address of the map is read again as it was. -/
theorem BootLayout.Holds.mmapAddr_filled (h : l.Holds m mmap)
    (hfits : bitmapHome mmap + 4 * bitmapWords mmap ≤ 2 ^ 32)
    (hinfo : RangesApart (bitmapHome mmap) (bitmapHome mmap + 4 * bitmapWords mmap)
      (l.mbInfo + 48) (l.mbInfo + 52)) : l.mmapAddr (filledBitmap m mmap) = l.mmapAddr m := by
  have hfield := h.info
  exact loadWord_congr (by omega) (sameOn_filledBitmap hfits hinfo)

/-- With the bitmap apart, the marking walk reads the map, as long as the bits of what it reads are
bits of the bitmap. -/
theorem BootLayout.Apart.marks_of_rereads (hapart : l.Apart m mmap) (h : l.Holds m mmap)
    (hbits : ∀ e ∈ mmap, l.Rereads m mmap e → ∀ bit ∈ pmmInitClears [e],
      bit < 32 * bitmapWords mmap) : l.Marks m mmap mmap := by
  have hbounded := h.bounded
  have hsame := sameOn_filledBitmap (m := m) hapart.fits hapart.buffer
  unfold BootLayout.Rereads at hbits
  unfold BootLayout.Marks
  dsimp only at hbits ⊢
  rw [h.mmapAddr_filled hapart.fits hapart.info, h.mmapEnd, pmmInitBitmapAddr_eq] at hbits ⊢
  exact (h.entries.congr (by omega) hsame).markedFrom (by omega) hapart.fits hapart.buffer hbits

theorem pmmInitClears_of_mem {e : MmapEntry} (he : e ∈ mmap) {bit : Nat}
    (hbit : bit ∈ pmmInitClears [e]) : bit ∈ pmmInitClears mmap := by
  obtain ⟨f, hf, hclears⟩ := mem_pmmInitClears.mp hbit
  exact mem_pmmInitClears.mpr ⟨f, List.mem_singleton.mp hf ▸ he, hclears⟩

theorem BootLayout.Apart.marks (hapart : l.Apart m mmap) (h : l.Holds m mmap)
    (hbits : ∀ bit ∈ pmmInitClears mmap, bit < 32 * bitmapWords mmap) : l.Marks m mmap mmap :=
  hapart.marks_of_rereads h fun _ he _ bit hbit => hbits bit (pmmInitClears_of_mem he hbit)

theorem BootLayout.Apart.marks_iff (hapart : l.Apart m mmap) (h : l.Holds m mmap)
    (hbits : ∀ bit ∈ pmmInitClears mmap, bit < 32 * bitmapWords mmap) :
    l.Marks m mmap marked ↔ marked = mmap := by
  have hmarks := hapart.marks h hbits
  exact ⟨fun hmarked => hmarked.unique hmarks, fun heq => heq ▸ hmarks⟩

/-- Below the bitmap, the address of the map is read as the last one of all. -/
theorem mmapAddr_covered (hfits : bitmapHome mmap + 4 * bitmapWords mmap ≤ 2 ^ 32)
    (hlow : bitmapHome mmap ≤ l.mbInfo + 48)
    (hhigh : l.mbInfo + 52 ≤ bitmapHome mmap + 4 * bitmapWords mmap) :
    l.mmapAddr (filledBitmap m mmap) = 0xFFFFFFFF :=
  loadWord_ones (by omega) fun _ hx hx' => filledBitmap_ones hfits (by omega) (by omega)

theorem mmapEnd_le (l : BootLayout) (m : Memory) : l.mmapEnd m ≤ 0xFFFFFFFF :=
  Nat.le_of_lt_succ (Word32.wrap_lt _)

/-- From there no entry is read. -/
theorem marks_covered (hfits : bitmapHome mmap + 4 * bitmapWords mmap ≤ 2 ^ 32)
    (hlow : bitmapHome mmap ≤ l.mbInfo + 48)
    (hhigh : l.mbInfo + 52 ≤ bitmapHome mmap + 4 * bitmapWords mmap) : l.Marks m mmap [] := by
  unfold BootLayout.Marks
  dsimp only
  rw [mmapAddr_covered hfits hlow hhigh]
  exact .done (mmapEnd_le l m)

end Apart

end HolyOs.Mm
