import HolyOs.Foundation.Loop
import HolyOs.Mm.PmmStartup

/-!
# The reads of the walks over the memory map

`pmm_init` compares the start of an entry with the end of the buffer and then reads all of it, and
the next entry is wherever the size field says. So the walks end within the buffer exactly when the
size fields lead through entries that lie in it, none of them twice. The walk that marks blocks
reads the address of the buffer again and follows the size fields after the bitmap was filled, which
may lie on the buffer and on that address.

## Main definitions

* `MmapWalk`: what one of the three walks reads and does at an entry.
* `pmmInitReads`: the fields that `pmm_init` reads, in order.
* `BootLayout.LinksInside`: the size fields lead through entries in the buffer.
-/
namespace HolyOs.Mm

open ByteMemory HolyOs.Lib Relation

/-- The fields of a `multiboot_memory_map_t`. -/
inductive MmapField
  | size
  | addr
  | len
  | type

def MmapField.offset : MmapField → Nat
  | .size => 0
  | .addr => 4
  | .len => 12
  | .type => 20

def MmapField.width : MmapField → Nat
  | .size => 4
  | .addr => 8
  | .len => 8
  | .type => 4

/-- A read of a field of the entry at an address. -/
structure MmapRead where
  mmap : Nat
  field : MmapField

/-- The buffer has all bytes of the field. -/
def BootLayout.Contains (l : BootLayout) (m : Memory) (r : MmapRead) : Prop :=
  l.mmapAddr m ≤ r.mmap + r.field.offset ∧
    r.mmap + r.field.offset + r.field.width ≤ l.mmapAddr m + l.mmapLength m

/-- The buffer has all bytes of the entry. -/
def BootLayout.HasEntry (l : BootLayout) (m : Memory) (mmap : Nat) : Prop :=
  l.mmapAddr m ≤ mmap ∧ mmap + 24 ≤ l.mmapAddr m + l.mmapLength m

/-- The pointer of a walk and the memory. -/
structure WalkState where
  mmap : Nat
  mem : Memory

def WalkState.entry (s : WalkState) : MmapEntry := mmapEntryAt s.mem s.mmap

/-- The body of a loop `while (mmap < mmap_end)`, without the line that advances `mmap`: the fields
of an entry that it reads, whether it leaves the loop there, and what it does to the memory. -/
structure MmapWalk where
  fields : MmapEntry → List MmapField
  stops : MmapEntry → Bool
  effect : Memory → MmapEntry → Memory

namespace MmapWalk

variable (w : MmapWalk)

/-- The state at the next entry. Its address is read after the body is done. -/
def next (s : WalkState) : WalkState :=
  let mem := w.effect s.mem s.entry
  ⟨mmapNext mem s.mmap, mem⟩

/-- The fields that the walk reads, in order; none when it does not end within the given number of
entries. -/
def reads (mmapEnd : Nat) : Nat → WalkState → Option (List MmapRead)
  | 0, _ => none
  | fuel + 1, s =>
    if s.mmap < mmapEnd then
      let fields := (w.fields s.entry).map (MmapRead.mk s.mmap)
      if w.stops s.entry then some fields
      else (reads mmapEnd fuel (w.next s)).map (fields ++ ⟨s.mmap, .size⟩ :: ·)
    else some []

/-- The first walk: the type, the end of an AVAILABLE region and its length, and what is logged of
every entry. -/
def sizing : MmapWalk where
  fields entry := .type :: .type :: (if entry.available then [.addr, .len, .len] else []) ++
    [.addr, .addr, .len, .type, .len]
  stops _ := false
  effect m _ := m

/-- The second walk, which ends at the first region with room for the bitmap. -/
def placing (bitmapSize : Nat) : MmapWalk where
  fields entry := .type :: (if entry.available then
    .len :: (if entry.len.toNat ≥ bitmapSize * 4 then [.addr] else []) else [])
  stops entry := entry.available && decide (entry.len.toNat ≥ bitmapSize * 4)
  effect m _ := m

/-- The third walk, which clears the bits of the blocks of AVAILABLE regions. -/
def clearing (bitmap : Nat) : MmapWalk where
  fields entry := .type :: (if entry.available then [.addr, .addr, .len] else [])
  stops _ := false
  effect m entry := clearEntry bitmap m entry

/-- The loop of a walk that does not stop before `mmap_end`. -/
def loop (mmapEnd : Nat) : WhileLoop WalkState := ⟨fun s => s.mmap < mmapEnd, w.next⟩

instance (mmapEnd : Nat) : DecidablePred (w.loop mmapEnd).runs :=
  fun s => inferInstanceAs (Decidable (s.mmap < mmapEnd))

/-- The fields that an iteration reads. -/
def readsAt (s : WalkState) : List MmapRead :=
  (w.fields s.entry ++ [MmapField.size]).map (MmapRead.mk s.mmap)

end MmapWalk

/-- The fields of map entries that `pmm_init` reads; none when a walk does not end within the given
number of entries. -/
def pmmInitReads (l : BootLayout) (fuel : Nat) (m : Memory) : Option (List MmapRead) := do
  let mmapEnd := l.mmapEnd m
  let start : WalkState := ⟨l.mmapAddr m, m⟩
  let mmap ← mmapWalk m mmapEnd fuel (l.mmapAddr m)
  let first ← MmapWalk.sizing.reads mmapEnd fuel start
  let second ← (MmapWalk.placing (pmmInitBitmapSize mmap)).reads mmapEnd fuel start
  let filled := filledBitmap m mmap
  let third ← (MmapWalk.clearing (pmmInitBitmapAddr mmap)).reads mmapEnd fuel
    ⟨l.mmapAddr filled, filled⟩
  return first ++ second ++ third

/-- The three walks end, and read no field outside the buffer. -/
def BootLayout.WalksStay (l : BootLayout) (m : Memory) : Prop :=
  ∃ fuel reads, pmmInitReads l fuel m = some reads ∧ ∀ r ∈ reads, l.Contains m r

/-- The size field of the entry at `a` leads to the one at `mmapNext m a`, up to `mmap_end`. -/
def mmapLinks (m : Memory) (mmapEnd : Nat) : WhileLoop Nat := ⟨fun a => a < mmapEnd, mmapNext m⟩

instance (m : Memory) (mmapEnd : Nat) : DecidablePred (mmapLinks m mmapEnd).runs :=
  fun a => inferInstanceAs (Decidable (a < mmapEnd))

/-- From the start of the buffer, as long as an entry starts below `mmap_end`, the size fields lead
through entries that the buffer has all bytes of, and none leads back to itself. That is so in the
memory as loaded, and again when the bitmap for these entries is filled, from the address on that
`mmap_addr` then holds, with the bits of each AVAILABLE entry cleared before its size field is
followed. -/
structure BootLayout.LinksInside (l : BootLayout) (m : Memory) : Prop where
  loaded : (mmapLinks m (l.mmapEnd m)).Advances (l.HasEntry m) (l.mmapAddr m)
  filled : ∀ as, (mmapLinks m (l.mmapEnd m)).Visits (l.mmapAddr m) as →
    let mmap := as.map (mmapEntryAt m)
    let filled := filledBitmap m mmap
    ((MmapWalk.clearing (pmmInitBitmapAddr mmap)).loop (l.mmapEnd m)).Advances
      (fun t => l.HasEntry m t.mmap) ⟨l.mmapAddr filled, filled⟩

/-! ## The fields of an entry -/

section Fields

variable {l : BootLayout} {m : Memory} {a : Nat}

/-- The first and the last field of an entry lie in the buffer when the entry does. -/
theorem hasEntry_iff {fields : List MmapField} (htype : MmapField.type ∈ fields) :
    (∀ f ∈ fields ++ [.size], l.Contains m ⟨a, f⟩) ↔ l.HasEntry m a := by
  unfold BootLayout.HasEntry
  constructor
  · intro h
    have hlast := h .type (List.mem_append_left _ htype)
    have hfirst := h .size (by simp)
    simp only [BootLayout.Contains, MmapField.offset, MmapField.width] at hlast hfirst
    omega
  · rintro ⟨hlo, hhi⟩ f -
    cases f <;> simp only [BootLayout.Contains, MmapField.offset, MmapField.width] <;> omega

theorem BootLayout.HasEntry.contains (h : l.HasEntry m a) (f : MmapField) :
    l.Contains m ⟨a, f⟩ := by
  have hfields : MmapField.type ∈ [MmapField.type, f] := List.mem_cons_self
  exact (hasEntry_iff hfields).mpr h f (by simp)

end Fields

/-! ## The walks as loops -/

namespace MmapWalk

variable {w : MmapWalk} {l : BootLayout} {mmapEnd fuel : Nat} {s : WalkState} {m : Memory}

/-- The first two walks leave the memory as it is, and follow the links. -/
theorem visits_sizing_iff {a : Nat} {ts : List WalkState} :
    (sizing.loop mmapEnd).Visits ⟨a, m⟩ ts ↔
      ∃ as, (mmapLinks m mmapEnd).Visits a as ∧ ts = as.map (WalkState.mk · m) := by
  constructor
  · intro h
    generalize hs : WalkState.mk a m = s at h
    induction h generalizing a with
    | done hend =>
      subst hs
      exact ⟨[], .done hend, rfl⟩
    | step hruns _ ih =>
      subst hs
      obtain ⟨as, hvisits, rfl⟩ := ih rfl
      exact ⟨a :: as, .step hruns hvisits, rfl⟩
  · rintro ⟨as, hvisits, rfl⟩
    induction hvisits with
    | done hend => exact .done hend
    | step hruns _ ih => exact .step hruns ih

theorem mmapWalk_eq (a : Nat) : mmapWalk m mmapEnd fuel a =
    (mmapLinks m mmapEnd).collect (fun a => [mmapEntryAt m a]) fuel a := by
  induction fuel generalizing a with
  | zero => rfl
  | succ fuel ih =>
    unfold mmapWalk WhileLoop.collect
    rw [ih]
    rfl

/-- A walk that does not stop before `mmap_end` reads the fields of every entry. -/
theorem reads_eq (hstops : ∀ e, w.stops e = false) (s : WalkState) :
    w.reads mmapEnd fuel s = (w.loop mmapEnd).collect w.readsAt fuel s := by
  induction fuel generalizing s with
  | zero => rfl
  | succ fuel ih =>
    have hjoin : ∀ rest, (w.fields s.entry).map (MmapRead.mk s.mmap) ++ ⟨s.mmap, .size⟩ :: rest =
        w.readsAt s ++ rest := by simp [readsAt]
    unfold MmapWalk.reads WhileLoop.collect
    simp only [hstops, ih, hjoin, Bool.false_eq_true, if_false]
    rfl

theorem mmapWalk_eq_some_iff {a : Nat} {es : List MmapEntry} :
    mmapWalk m mmapEnd fuel a = some es ↔
      ∃ as, (mmapLinks m mmapEnd).Visits a as ∧ as.length < fuel ∧
        es = as.map (mmapEntryAt m) := by
  rw [mmapWalk_eq, WhileLoop.collect_eq_some_iff]
  simp only [List.map_eq_flatMap]

/-- A walk that reads the type of each entry reads in the buffer when each entry lies there. -/
theorem contains_reads_iff (htype : ∀ e, MmapField.type ∈ w.fields e) {ts : List WalkState} :
    (∀ r ∈ ts.flatMap w.readsAt, l.Contains m r) ↔ ∀ t ∈ ts, l.HasEntry m t.mmap := by
  have hentry : ∀ t : WalkState, (∀ r ∈ w.readsAt t, l.Contains m r) ↔ l.HasEntry m t.mmap := by
    intro t
    rw [← hasEntry_iff (htype t.entry), readsAt, List.forall_mem_map]
  simp only [List.mem_flatMap, ← hentry]
  grind

/-- The second walk reads a part of what the first one reads. -/
theorem reads_placing {n : Nat} {ts : List WalkState}
    (hvisits : (sizing.loop mmapEnd).Visits s ts) (hentries : ∀ t ∈ ts, l.HasEntry m t.mmap)
    (hfuel : ts.length < fuel) :
    ∃ reads, (placing n).reads mmapEnd fuel s = some reads ∧ ∀ r ∈ reads, l.Contains m r := by
  induction hvisits generalizing fuel with
  | @done s hend =>
    obtain ⟨fuel, rfl⟩ := Nat.exists_eq_add_one.mpr (Nat.zero_lt_of_lt hfuel)
    exact ⟨[], if_neg hend, by simp⟩
  | @step s ts hruns _ ih =>
    obtain ⟨fuel, rfl⟩ := Nat.exists_eq_add_one.mpr (Nat.zero_lt_of_lt hfuel)
    have hentry := hentries s (by simp)
    obtain ⟨rest, hrest, hcontains⟩ := ih (fun t ht => hentries t (by simp [ht]))
      (Nat.lt_of_succ_lt_succ hfuel)
    have hfields : ∀ r ∈ ((placing n).fields s.entry).map (MmapRead.mk s.mmap), l.Contains m r := by
      rw [List.forall_mem_map]
      exact fun f _ => hentry.contains f
    have hlt : s.mmap < mmapEnd := hruns
    unfold MmapWalk.reads
    rw [if_pos hlt]
    dsimp only
    split_ifs with hstop
    · exact ⟨_, rfl, hfields⟩
    · change (placing n).reads mmapEnd fuel ((placing n).next s) = some rest at hrest
      refine ⟨_, by rw [hrest]; rfl, fun r hr => ?_⟩
      rcases List.mem_append.mp hr with hr | hr
      · exact hfields r hr
      · rcases List.mem_cons.mp hr with rfl | hr
        · exact hentry.contains _
        · exact hcontains r hr

end MmapWalk

/-! ## The states of a walk -/

/-- The pointer is below the bound, and there is nothing but the 32-bit addresses to change. -/
def WalkState.Confined (m : Memory) (bound : Nat) (s : WalkState) : Prop :=
  s.mmap < bound ∧ ∀ x, 2 ^ 32 ≤ x → s.mem x = m x

/-- There are finitely many pointers and contents of the memory. -/
instance finite_confined (m : Memory) (bound : Nat) :
    Finite {s // WalkState.Confined m bound s} := by
  apply Finite.of_injective fun s : {s // WalkState.Confined m bound s} =>
    ((⟨s.1.mmap, s.2.1⟩ : Fin bound), fun x : Fin (2 ^ 32) => (s.1.mem x).toFin)
  rintro ⟨⟨a, mem⟩, ha, hmem⟩ ⟨⟨a', mem'⟩, ha', hmem'⟩ heq
  obtain ⟨hpointer, hbytes⟩ := Prod.mk.inj heq
  obtain rfl : a = a' := congrArg Fin.val hpointer
  obtain rfl : mem = mem' := by
    funext x
    by_cases hx : x < 2 ^ 32
    · exact UInt8.toFin_inj.mp (congrFun hbytes ⟨x, hx⟩)
    · exact (hmem x (by omega)).trans (hmem' x (by omega)).symm
  rfl

namespace MmapWalk

variable {w : MmapWalk} {l : BootLayout} {m : Memory}

/-- The third walk changes words only. -/
theorem clearEntry_far (bitmap : Nat) (m : Memory) (e : MmapEntry) {x : Nat} (hx : 2 ^ 32 ≤ x) :
    clearEntry bitmap m e x = m x := by
  rw [clearEntry_eq]
  induction pmmInitClears [e] generalizing m with
  | nil => rfl
  | cons bit bits ih =>
    rw [List.foldl_cons, ih]
    exact storeWord_far m _ _ hx

/-- The third walk ends in the buffer exactly when its states advance through it. -/
theorem exists_visits_clearing_iff (bitmap mmapEnd : Nat) (s : WalkState) :
    (∃ us, ((clearing bitmap).loop mmapEnd).Visits s us ∧ ∀ u ∈ us, l.HasEntry m u.mmap) ↔
      ((clearing bitmap).loop mmapEnd).Advances (fun u => l.HasEntry m u.mmap) s := by
  apply WhileLoop.exists_visits_iff (I := WalkState.Confined s.mem (s.mmap + 2 ^ 32))
  · rintro t ⟨-, hfar⟩ -
    have hnext : (((clearing bitmap).loop mmapEnd).body t).mmap < 2 ^ 32 := Word32.wrap_lt _
    refine ⟨by omega, fun x hx => ?_⟩
    exact (clearEntry_far bitmap _ _ hx).trans (hfar x hx)
  · exact ⟨by omega, fun _ _ => rfl⟩

/-- The links end in the buffer exactly when they advance through it. -/
theorem exists_visits_links_iff (m : Memory) (mmapEnd a : Nat) :
    (∃ as, (mmapLinks m mmapEnd).Visits a as ∧ ∀ b ∈ as, l.HasEntry m b) ↔
      (mmapLinks m mmapEnd).Advances (l.HasEntry m) a := by
  have hfinite : Finite {b // b < a + 2 ^ 32} := Finite.of_equiv _ Fin.equivSubtype
  apply WhileLoop.exists_visits_iff (I := (· < a + 2 ^ 32))
  · intro b _ _
    have hnext : mmapNext m b < 2 ^ 32 := Word32.wrap_lt _
    change mmapNext m b < a + 2 ^ 32
    omega
  · omega

/-- What a walk reads, by the states that it visits. -/
theorem reads_eq_some_iff (hstops : ∀ e, w.stops e = false) {mmapEnd fuel : Nat} {s : WalkState}
    {reads : List MmapRead} : w.reads mmapEnd fuel s = some reads ↔
      ∃ ts, (w.loop mmapEnd).Visits s ts ∧ ts.length < fuel ∧ reads = ts.flatMap w.readsAt := by
  rw [reads_eq hstops, WhileLoop.collect_eq_some_iff]

end MmapWalk

/-! ## The three walks -/

section Walks

variable {l : BootLayout} {m : Memory}

theorem sizing_type (e : MmapEntry) : MmapField.type ∈ MmapWalk.sizing.fields e :=
  List.mem_cons_self

theorem clearing_type (bitmap : Nat) (e : MmapEntry) :
    MmapField.type ∈ (MmapWalk.clearing bitmap).fields e := List.mem_cons_self

theorem pmmInitReads_eq_some_iff {fuel : Nat} {reads : List MmapRead} :
    pmmInitReads l fuel m = some reads ↔ ∃ mmap first second third,
      mmapWalk m (l.mmapEnd m) fuel (l.mmapAddr m) = some mmap ∧
      MmapWalk.sizing.reads (l.mmapEnd m) fuel ⟨l.mmapAddr m, m⟩ = some first ∧
      (MmapWalk.placing (pmmInitBitmapSize mmap)).reads (l.mmapEnd m) fuel ⟨l.mmapAddr m, m⟩ =
        some second ∧
      (MmapWalk.clearing (pmmInitBitmapAddr mmap)).reads (l.mmapEnd m) fuel
        ⟨l.mmapAddr (filledBitmap m mmap), filledBitmap m mmap⟩ = some third ∧
      reads = first ++ second ++ third := by
  simp only [pmmInitReads, Option.bind_eq_bind, Option.bind_eq_some_iff, Option.pure_def,
    Option.some.injEq, exists_and_left, eq_comm (b := reads)]

/-- The walks stay in the buffer when the links and the third walk go through entries there. -/
theorem walksStay_iff_visits : l.WalksStay m ↔ ∃ as,
    ((mmapLinks m (l.mmapEnd m)).Visits (l.mmapAddr m) as ∧ ∀ a ∈ as, l.HasEntry m a) ∧
    let mmap := as.map (mmapEntryAt m)
    let filled := filledBitmap m mmap
    ∃ us, ((MmapWalk.clearing (pmmInitBitmapAddr mmap)).loop (l.mmapEnd m)).Visits
        ⟨l.mmapAddr filled, filled⟩ us ∧ ∀ u ∈ us, l.HasEntry m u.mmap := by
  unfold BootLayout.WalksStay
  constructor
  · rintro ⟨fuel, reads, hreads, hcontains⟩
    obtain ⟨mmap, first, second, third, hmmap, hfirst, -, hthird, rfl⟩ :=
      pmmInitReads_eq_some_iff.mp hreads
    simp only [List.forall_mem_append] at hcontains
    obtain ⟨as, hvisits, -, rfl⟩ := MmapWalk.mmapWalk_eq_some_iff.mp hmmap
    obtain ⟨ts, hts, -, rfl⟩ := (MmapWalk.reads_eq_some_iff fun _ => rfl).mp hfirst
    obtain ⟨as', hvisits', rfl⟩ := MmapWalk.visits_sizing_iff.mp hts
    obtain rfl := hvisits.unique hvisits'
    obtain ⟨us, hus, -, rfl⟩ := (MmapWalk.reads_eq_some_iff fun _ => rfl).mp hthird
    have hentries := (MmapWalk.contains_reads_iff sizing_type).mp hcontains.1.1
    rw [List.forall_mem_map] at hentries
    exact ⟨as, ⟨hvisits, hentries⟩, us, hus,
      (MmapWalk.contains_reads_iff (clearing_type _)).mp hcontains.2⟩
  · rintro ⟨as, ⟨hvisits, hentries⟩, us, hus, husentries⟩
    -- one bound on the entries serves all three walks
    let fuel := max as.length us.length + 1
    have hfuel : as.length < fuel := by grind
    have husfuel : us.length < fuel := by grind
    let ts := as.map (WalkState.mk · m)
    have hts : (MmapWalk.sizing.loop (l.mmapEnd m)).Visits ⟨l.mmapAddr m, m⟩ ts :=
      MmapWalk.visits_sizing_iff.mpr ⟨as, hvisits, rfl⟩
    have htsentries : ∀ t ∈ ts, l.HasEntry m t.mmap := List.forall_mem_map.mpr hentries
    have htsfuel : ts.length < fuel := by
      rw [List.length_map]
      exact hfuel
    obtain ⟨second, hsecond, hcontains⟩ := MmapWalk.reads_placing
      (n := pmmInitBitmapSize (as.map (mmapEntryAt m))) hts htsentries htsfuel
    refine ⟨fuel, _, pmmInitReads_eq_some_iff.mpr ⟨_, _, second, _,
      MmapWalk.mmapWalk_eq_some_iff.mpr ⟨as, hvisits, hfuel, rfl⟩,
      (MmapWalk.reads_eq_some_iff fun _ => rfl).mpr ⟨ts, hts, htsfuel, rfl⟩, hsecond,
      (MmapWalk.reads_eq_some_iff fun _ => rfl).mpr ⟨us, hus, husfuel, rfl⟩, rfl⟩, ?_⟩
    simp only [List.forall_mem_append]
    exact ⟨⟨(MmapWalk.contains_reads_iff sizing_type).mpr htsentries, hcontains⟩,
      (MmapWalk.contains_reads_iff (clearing_type _)).mpr husentries⟩

theorem BootLayout.WalksStay.linksInside (h : l.WalksStay m) : l.LinksInside m := by
  obtain ⟨as, has, hus⟩ := walksStay_iff_visits.mp h
  refine ⟨(MmapWalk.exists_visits_links_iff _ _ _).mp ⟨as, has⟩, fun as' hvisits => ?_⟩
  obtain rfl := has.1.unique hvisits
  exact (MmapWalk.exists_visits_clearing_iff _ _ _).mp hus

theorem BootLayout.LinksInside.walksStay (h : l.LinksInside m) : l.WalksStay m := by
  obtain ⟨as, has⟩ := (MmapWalk.exists_visits_links_iff _ _ _).mpr h.loaded
  rw [walksStay_iff_visits]
  exact ⟨as, has, (MmapWalk.exists_visits_clearing_iff _ _ _).mpr (h.filled as has.1)⟩

end Walks

/-! ## A map apart from the bitmap -/

section Apart

variable {l : BootLayout} {m : Memory} {lo hi a : Nat} {es : List MmapEntry}

theorem MmapBuffer.visits (h : MmapBuffer m lo hi a es) :
    ∃ as, (mmapLinks m hi).Visits a as ∧ as.map (mmapEntryAt m) = es ∧
      ∀ b ∈ as, lo ≤ b ∧ b + 24 ≤ hi := by
  induction h with
  | @done a hend => exact ⟨[], .done (Nat.not_lt.mpr hend), rfl, by simp⟩
  | @entry a e es hlo hhi he _ ih =>
    obtain ⟨as, hvisits, hes, hentries⟩ := ih
    have hruns : a < hi := by omega
    refine ⟨a :: as, .step hruns hvisits, ?_, ?_⟩
    · rw [List.map_cons, hes, he]
    · rw [List.forall_mem_cons]
      exact ⟨⟨hlo, hhi⟩, hentries⟩

/-- What is cleared in a bitmap apart from the buffer does not change the entries. -/
theorem MmapBuffer.visits_clearing {bitmap words : Nat} (h : MmapBuffer m lo hi a es)
    (hhi : hi ≤ 2 ^ 32) (hbound : bitmap + 4 * words ≤ 2 ^ 32)
    (hapart : RangesApart bitmap (bitmap + 4 * words) lo hi)
    (hbits : ∀ bit ∈ pmmInitClears es, bit < 32 * words) :
    ∃ us, ((MmapWalk.clearing bitmap).loop hi).Visits ⟨a, m⟩ us ∧
      ∀ u ∈ us, lo ≤ u.mmap ∧ u.mmap + 24 ≤ hi := by
  induction es generalizing m a with
  | nil =>
    cases h with
    | done hend => exact ⟨[], .done (Nat.not_lt.mpr hend), by simp⟩
  | cons e es ih =>
    rw [pmmInitClears_cons, List.forall_mem_append] at hbits
    obtain ⟨hruns, he, hrest⟩ := h.cleared hhi hbound hapart hbits.1
    have hinside : lo ≤ a ∧ a + 24 ≤ hi := by
      cases h with
      | entry hlo hlast => exact ⟨hlo, hlast⟩
    obtain ⟨us, hvisits, hentries⟩ := ih hrest hbits.2
    subst he
    exact ⟨⟨a, m⟩ :: us, .step hruns hvisits, List.forall_mem_cons.mpr ⟨hinside, hentries⟩⟩

theorem BootLayout.Holds.visits {mmap : List MmapEntry} (h : l.Holds m mmap) :
    ∃ as, (mmapLinks m (l.mmapEnd m)).Visits (l.mmapAddr m) as ∧ as.map (mmapEntryAt m) = mmap ∧
      ∀ a ∈ as, l.HasEntry m a := by
  rw [h.mmapEnd]
  exact h.entries.visits

/-- If the buffer holds a map, and the bitmap and the bits that are cleared are apart from it and
from its address, the walks end in the buffer. -/
theorem BootLayout.Apart.walksStay {mmap : List MmapEntry} (hapart : l.Apart m mmap)
    (h : l.Holds m mmap) (hbits : ∀ bit ∈ pmmInitClears mmap, bit < 32 * bitmapWords mmap) :
    l.WalksStay m := by
  obtain ⟨as, hvisits, rfl, hentries⟩ := h.visits
  have hbounded := h.bounded
  have hfilled := h.entries.congr (by omega) (sameOn_filledBitmap hapart.fits hapart.buffer)
  refine walksStay_iff_visits.mpr ⟨as, ⟨hvisits, hentries⟩, ?_⟩
  dsimp only
  rw [h.mmapAddr_filled hapart.fits hapart.info, h.mmapEnd, pmmInitBitmapAddr_eq]
  exact hfilled.visits_clearing (by omega) hapart.fits hapart.buffer hbits

end Apart

/-! ## A map below the bitmap -/

section Covered

variable {l : BootLayout} {m : Memory} {lo hi a : Nat}

/-- Where the memory is all ones, the next entry is three bytes behind. -/
theorem clearing_next_ones {bitmap : Nat} (ha : a + 24 ≤ 2 ^ 32)
    (hones : ∀ x, a ≤ x → x < a + 24 → m x = 0xFF) :
    (MmapWalk.clearing bitmap).next ⟨a, m⟩ = ⟨a + 3, m⟩ := by
  have htype : loadWord m (a + 20) = 0xFFFFFFFF :=
    loadWord_ones (by omega) fun x hlo hhi => hones x (by omega) (by omega)
  have hsize : loadWord m a = 0xFFFFFFFF :=
    loadWord_ones (by omega) fun x hlo hhi => hones x (by omega) (by omega)
  have hother : (mmapEntryAt m a).available = false := by
    rw [mmapEntryAt, htype]
    rfl
  have heffect : clearEntry bitmap m (mmapEntryAt m a) = m := by
    rw [clearEntry, hother]
    rfl
  have hnext : mmapNext m a = a + 3 := by
    rw [mmapNext, hsize, Word32.wrap]
    omega
  change WalkState.mk (mmapNext (clearEntry bitmap m (mmapEntryAt m a)) a)
    (clearEntry bitmap m (mmapEntryAt m a)) = _
  rw [heffect, hnext]

/-- Three bytes at a time the third walk comes to an entry across the end of the buffer. -/
theorem clearing_leaves_ones {bitmap : Nat} (hpos : lo < hi) (hhi : hi < 2 ^ 32)
    (hones : ∀ x, lo ≤ x → x < hi → m x = 0xFF) :
    ¬ ((MmapWalk.clearing bitmap).loop hi).Advances (fun t => lo ≤ t.mmap ∧ t.mmap + 24 ≤ hi)
      ⟨lo, m⟩ := by
  intro hadvances
  have hentry : ∀ k, lo + 3 * k < hi →
      ReflTransGen ((MmapWalk.clearing bitmap).loop hi).Iterates ⟨lo, m⟩ ⟨lo + 3 * k, m⟩ →
      lo + 3 * k + 24 ≤ hi := fun k hk hreach => (hadvances _ hreach hk).1.2
  have hreach : ∀ k, lo + 3 * k < hi →
      ReflTransGen ((MmapWalk.clearing bitmap).loop hi).Iterates ⟨lo, m⟩ ⟨lo + 3 * k, m⟩ := by
    intro k hk
    induction k with
    | zero => exact .refl
    | succ k ih =>
      have hbefore := ih (by omega)
      have hinside := hentry k (by omega) hbefore
      have hbytes : ∀ x, lo + 3 * k ≤ x → x < lo + 3 * k + 24 → m x = 0xFF :=
        fun x hx hx' => hones x (by omega) (by omega)
      have hruns : lo + 3 * k < hi := by omega
      exact hbefore.tail ⟨hruns, (clearing_next_ones (by omega) hbytes).symm⟩
  have hlast : lo + 3 * ((hi - lo - 1) / 3) < hi := by omega
  have hinside := hentry _ hlast (hreach _ hlast)
  omega

/-- If the bitmap is put on a map, but not on its address, the third walk does not stay in the
buffer. -/
theorem BootLayout.Holds.not_walksStay {mmap : List MmapEntry} (h : l.Holds m mmap)
    (hpos : 0 < l.mmapLength m)
    (hfits : bitmapHome mmap + 4 * bitmapWords mmap ≤ 2 ^ 32)
    (hinfo : RangesApart (bitmapHome mmap) (bitmapHome mmap + 4 * bitmapWords mmap)
      (l.mbInfo + 48) (l.mbInfo + 52))
    (hlow : bitmapHome mmap ≤ l.mmapAddr m)
    (hhigh : l.mmapAddr m + l.mmapLength m ≤ bitmapHome mmap + 4 * bitmapWords mmap) :
    ¬ l.WalksStay m := by
  intro hstay
  obtain ⟨as, hvisits, rfl, -⟩ := h.visits
  have hadvances := hstay.linksInside.filled as hvisits
  dsimp only at hadvances
  rw [h.mmapAddr_filled hfits hinfo, h.mmapEnd] at hadvances
  exact clearing_leaves_ones (by omega) h.bounded
    (fun x hx hx' => filledBitmap_ones hfits (by omega) (by omega)) hadvances

end Covered

/-- The three walks of `pmm_init` end and read fields in the buffer only exactly when the size
fields lead through entries in the buffer that do not lead back to themselves, as loaded and after
the bitmap was filled. -/
theorem pmm_walks_stay_iff (l : BootLayout) (m : Memory) : l.WalksStay m ↔ l.LinksInside m :=
  ⟨fun h => h.linksInside, fun h => h.walksStay⟩

/-- An entry whose size field leads back to it. -/
def circularMemory : Memory := store32 (lowBoot [⟨0, 0, 0⟩]) 0x9080 0xFFFFFFFC

/-- The third walk leaves a map that the bitmap was put on, and the first walk does not end on an
entry that leads back to itself. -/
theorem pmm_walks_leave_buffer :
    ((pcLayout 0x9000).Holds (bootMemory 0x9000 0x800 lowHighMap) lowHighMap ∧
      ¬ (pcLayout 0x9000).WalksStay (bootMemory 0x9000 0x800 lowHighMap)) ∧
      ¬ (pcLayout 0x9000).WalksStay circularMemory := by
  obtain ⟨hholds, haddr, hlength⟩ := bootMemory_holds (pcLayout 0x9000) lowHighMap
    (by decide) (show 0x800 + 24 * 2 < 2 ^ 32 by decide) (.inr (by decide))
  refine ⟨⟨hholds, ?_⟩, fun h => ?_⟩
  · refine hholds.not_walksStay ?_ (by decide)
      (rangesApart_iff.mpr (.inr (.inr (.inl (by decide))))) ?_ ?_
    · rw [hlength]
      decide
    · rw [haddr]
      decide
    · rw [haddr, hlength]
      decide
  · have haddr : (pcLayout 0x9000).mmapAddr circularMemory = 0x9080 := by decide +kernel
    have hend : (pcLayout 0x9000).mmapEnd circularMemory = 0x9098 := by decide +kernel
    have hnext : mmapNext circularMemory 0x9080 = 0x9080 := by decide +kernel
    have hadvances := h.linksInside.loaded
    rw [haddr, hend] at hadvances
    have hback : (mmapLinks circularMemory 0x9098).Iterates 0x9080 0x9080 :=
      ⟨by decide, hnext.symm⟩
    exact (hadvances _ .refl hback.1).2 (.single hback)

end HolyOs.Mm
