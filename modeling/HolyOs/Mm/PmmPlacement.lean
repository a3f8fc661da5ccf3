import HolyOs.Mm.BootMemory

/-!
# The place of the bitmap

The bitmap goes to the first AVAILABLE region that is large enough, wherever that is. The conditions
under which this leaves the buffer, the way to it and the kernel image alone are conditions on that
region.
-/
namespace HolyOs.Mm

open ByteMemory

/-- The bitmap lies in one AVAILABLE region below 4 GiB, apart from the map buffer and the image,
and after the fill the same entries are read again. -/
structure BitmapApart (l : BootLayout) (m : Memory) (mmap : List MmapEntry) : Prop where
  inside : ∃ e ∈ mmap, e.available = true ∧ e.addr.toNat ≤ pmmInitBitmapAddr mmap ∧
    pmmInitBitmapAddr mmap + 4 * pmmInitBitmapSize mmap ≤ e.addr.toNat + e.len.toNat
  below : pmmInitBitmapAddr mmap + 4 * pmmInitBitmapSize mmap ≤ 2 ^ 32
  buffer : RangesApart (pmmInitBitmapAddr mmap)
    (pmmInitBitmapAddr mmap + 4 * pmmInitBitmapSize mmap) (l.mmapAddr m)
    (l.mmapAddr m + l.mmapLength m)
  image : RangesApart (pmmInitBitmapAddr mmap)
    (pmmInitBitmapAddr mmap + 4 * pmmInitBitmapSize mmap) l.imageStart l.imageEnd
  entries : ∃ fuel, mmapWalk (filledBitmap m mmap) (l.mmapEnd m) fuel
    (l.mmapAddr (filledBitmap m mmap)) = some mmap

/-! ## The condition on the map -/

/-- The first AVAILABLE region with room for the bitmap. -/
def FirstRoom (mmap : List MmapEntry) (e : MmapEntry) : Prop :=
  ∃ before after, mmap = before ++ e :: after ∧
    (e.available = true ∧ 4 * bitmapWords mmap ≤ e.len.toNat) ∧
    ∀ f ∈ before, ¬ (f.available = true ∧ 4 * bitmapWords mmap ≤ f.len.toNat)

/-- Some AVAILABLE region has room for the bitmap. Of the first one, the bytes that the bitmap
takes, from its start modulo `2 ^ 32` on, end below 4 GiB; they lie in the region itself, or in
another AVAILABLE one if the region starts at or beyond 4 GiB; they end before the map buffer,
before the image and before the field with the address of the map, or start behind them, as far as
these are not empty. A field that they cover may also lead to the same entries by chance. -/
def HomeApart (l : BootLayout) (m : Memory) (mmap : List MmapEntry) : Prop :=
  ∃ e, FirstRoom mmap e ∧
    let home := e.addr.toNat % 2 ^ 32
    let homeEnd := home + 4 * bitmapWords mmap
    homeEnd ≤ 2 ^ 32 ∧
    (e.addr.toNat < 2 ^ 32 ∨ ∃ f ∈ mmap, f.available = true ∧ f.addr.toNat ≤ home ∧
      homeEnd ≤ f.addr.toNat + f.len.toNat) ∧
    (bitmapWords mmap = 0 ∨ l.mmapLength m = 0 ∨ homeEnd ≤ l.mmapAddr m ∨
      l.mmapAddr m + l.mmapLength m ≤ home) ∧
    (bitmapWords mmap = 0 ∨ l.imageEnd ≤ l.imageStart ∨ homeEnd ≤ l.imageStart ∨
      l.imageEnd ≤ home) ∧
    (bitmapWords mmap = 0 ∨ homeEnd ≤ l.mbInfo + 48 ∨ l.mbInfo + 52 ≤ home ∨
      EntriesFrom (filledBitmap m mmap) (l.mmapEnd m) (l.mmapAddr (filledBitmap m mmap)) mmap)

theorem firstRoom_iff {mmap : List MmapEntry} {e : MmapEntry} : FirstRoom mmap e ↔
    (mmap.filter (·.available)).find? (fun e => 4 * bitmapWords mmap ≤ e.len.toNat) = some e := by
  rw [List.find?_filter, List.find?_eq_some_iff_append]
  simp only [FirstRoom]
  grind

/-- The bitmap is put at the start of the first region with room. -/
theorem FirstRoom.home {mmap : List MmapEntry} {e : MmapEntry} (h : FirstRoom mmap e) :
    bitmapHome mmap = e.addr.toNat % 2 ^ 32 := by
  rw [bitmapHome, firstRoom_iff.mp h]
  rfl

theorem FirstRoom.exists {mmap : List MmapEntry} {f : MmapEntry} (hf : f ∈ mmap)
    (havail : f.available = true) (hroom : 4 * bitmapWords mmap ≤ f.len.toNat) :
    ∃ e, FirstRoom mmap e := by
  have hsome : ((mmap.filter (·.available)).find?
      fun e => 4 * bitmapWords mmap ≤ e.len.toNat).isSome := by
    rw [List.find?_isSome]
    exact ⟨f, by simp [hf, havail], by simpa using hroom⟩
  obtain ⟨e, he⟩ := Option.isSome_iff_exists.mp hsome
  exact ⟨e, firstRoom_iff.mpr he⟩

section Placement

variable {l : BootLayout} {m : Memory} {mmap : List MmapEntry}

/-- A bitmap in its place shows that the first region with room is apart. -/
theorem BitmapApart.home (h : BitmapApart l m mmap) : HomeApart l m mmap := by
  obtain ⟨f, hf, havail, hlow, hhigh⟩ := h.inside
  have hbuffer := rangesApart_iff.mp h.buffer
  have himage := rangesApart_iff.mp h.image
  have hbelow := h.below
  have hentries := exists_mmapWalk_iff.mp h.entries
  rw [pmmInitBitmapAddr_eq, pmmInitBitmapSize_eq] at *
  obtain ⟨e, he⟩ := FirstRoom.exists hf havail (by omega)
  rw [he.home] at *
  exact ⟨e, he, hbelow, .inr ⟨f, hf, havail, hlow, hhigh⟩, by omega, by omega,
    .inr (.inr (.inr hentries))⟩

theorem HomeApart.place (h : HomeApart l m mmap) (hholds : l.Holds m mmap) :
    BitmapApart l m mmap := by
  obtain ⟨e, he, hbelow, hinside, hmap, himage, hinfo⟩ := h
  have haddr := he.home
  have hbounded := hholds.bounded
  have hfits : bitmapHome mmap + 4 * bitmapWords mmap ≤ 2 ^ 32 := haddr ▸ hbelow
  have hbuffer : RangesApart (bitmapHome mmap) (bitmapHome mmap + 4 * bitmapWords mmap)
      (l.mmapAddr m) (l.mmapAddr m + l.mmapLength m) := by
    rw [rangesApart_iff, haddr]
    omega
  refine ⟨?_, ?_, ?_, ?_, exists_mmapWalk_iff.mpr ?_⟩
  · obtain ⟨before, after, hsplit, ⟨havail, hroom⟩, -⟩ := he
    rw [pmmInitBitmapAddr_eq, pmmInitBitmapSize_eq, haddr]
    rcases hinside with hlow | hother
    · exact ⟨e, by simp [hsplit], havail, by omega, by omega⟩
    · exact hother
  · rwa [pmmInitBitmapAddr_eq, pmmInitBitmapSize_eq]
  · rwa [pmmInitBitmapAddr_eq, pmmInitBitmapSize_eq]
  · rw [pmmInitBitmapAddr_eq, pmmInitBitmapSize_eq, rangesApart_iff, haddr]
    omega
  · by_cases hchance : EntriesFrom (filledBitmap m mmap) (l.mmapEnd m)
        (l.mmapAddr (filledBitmap m mmap)) mmap
    · exact hchance
    · have hfield : RangesApart (bitmapHome mmap) (bitmapHome mmap + 4 * bitmapWords mmap)
          (l.mbInfo + 48) (l.mbInfo + 52) := by
        rw [rangesApart_iff, haddr]
        simp only [hchance, or_false] at hinfo
        omega
      rw [hholds.mmapAddr_filled hfits hfield, hholds.mmapEnd]
      exact (hholds.entries.congr (by omega) (sameOn_filledBitmap hfits hbuffer)).entriesFrom

end Placement

end HolyOs.Mm
