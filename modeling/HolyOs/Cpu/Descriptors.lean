import HolyOs.Foundation.Processor
import HolyOs.Lib.String

/-!
# The descriptor tables

Shallow model of `kernel/cpu/gdt.c` and `idt.c`: the tables are arrays of packed structures in
memory, filled field by field. The processor reads an entry as two words; what it finds there is
what was set.
-/
namespace HolyOs.Cpu

open ByteMemory Processor HolyOs.Lib

/-! ## The global table -/

/-- The fields of `gdt_entries[i]`, `entries` being the address of the array. -/
def gdtSetEntry (m : Memory) (entries i base limit : Nat) (access flags : UInt8) : Memory :=
  let entry := entries + 8 * i
  let m := store16 m entry (UInt16.ofNat (limit &&& 0xFFFF))
  let m := store16 m (entry + 2) (UInt16.ofNat (base &&& 0xFFFF))
  let m := store8 m (entry + 4) (UInt8.ofNat ((base >>> 16) &&& 0xFF))
  let m := store8 m (entry + 5) access
  let m := store8 m (entry + 6) (flags ||| UInt8.ofNat ((limit >>> 16) &&& 0x0F))
  store8 m (entry + 7) (UInt8.ofNat ((base >>> 24) &&& 0xFF))

/-- One round of the loop that counts the entries. -/
def countEntry (m : Memory) (entries numEntries i : Nat) : Nat :=
  if m (entries + 8 * i + 5) ≠ 0 ∨ m (entries + 8 * i + 6) ≠ 0 then i + 1 else numEntries

/-- The entries that `gdt_init` counts in an array of `n`. -/
def numEntries (m : Memory) (entries n : Nat) : Nat :=
  (List.range n).foldl (countEntry m entries) 0

/-- The table, and the pointer that `gdt_flush` loads. -/
def gdtInit (m : Memory) (entries : Nat) : Memory × TableRegister :=
  let m := memset m entries 0 8
  let m := gdtSetEntry m entries 1 0 0xFFFFF 0x9A 0xC0
  let m := gdtSetEntry m entries 2 0 0xFFFFF 0x92 0xC0
  let m := gdtSetEntry m entries 3 0 0xFFFFF 0xFA 0xC0
  let m := gdtSetEntry m entries 4 0 0xFFFFF 0xF2 0xC0
  (m, ⟨UInt16.ofNat (Word32.sub (8 * numEntries m entries 6) 1), entries⟩)

/-! ## The interrupt table -/

def idtSetEntry (m : Memory) (entries i base : Nat) (sel : UInt16) (flags : UInt8) : Memory :=
  let entry := entries + 8 * i
  let m := store16 m entry (UInt16.ofNat (base &&& 0xFFFF))
  let m := store16 m (entry + 2) sel
  let m := store8 m (entry + 4) 0
  let m := store8 m (entry + 5) (flags ||| 0x60)
  store16 m (entry + 6) (UInt16.ofNat ((base >>> 16) &&& 0xFFFF))

/-- The loop that sets the entries from `first` on. -/
def idtSetEntries (m : Memory) (entries first n : Nat) (stubTable : Nat → Nat) : Memory :=
  (List.range n).foldl
    (fun m i => idtSetEntry m entries (first + i) (stubTable i) 0x08 0x8E) m

/-- The table, and the pointer that `idt_load` loads. -/
def idtInit (m : Memory) (entries : Nat) (isrStubTable irqStubTable : Nat → Nat) :
    Memory × TableRegister :=
  let m := memset m entries 0 8
  let m := idtSetEntries m entries 0 32 isrStubTable
  let m := idtSetEntries m entries 32 16 irqStubTable
  (m, ⟨8 * 256 - 1, entries⟩)

/-! ## What the processor reads back -/

theorem and_0xFFFF (n : Nat) : n &&& 0xFFFF = n % 65536 := Nat.and_two_pow_sub_one_eq_mod n 16

theorem and_0xFF (n : Nat) : n &&& 0xFF = n % 256 := Nat.and_two_pow_sub_one_eq_mod n 8

theorem and_0x0F (n : Nat) : n &&& 0x0F = n % 16 := Nat.and_two_pow_sub_one_eq_mod n 4

theorem sameOn_gdtSetEntry (m : Memory) {entries i lo hi : Nat} (base limit : Nat)
    (access flags : UInt8) (h : hi ≤ entries + 8 * i ∨ entries + 8 * (i + 1) ≤ lo) :
    SameOn m (gdtSetEntry m entries i base limit access flags) lo hi := by
  intro x hlo hhi
  simp only [gdtSetEntry, store8, store16_apply]
  iterate 8 rw [if_neg (by omega)]

theorem gdtSetEntry_words (m : Memory) (entries i limit : Nat) {base : Nat} (access flags : UInt8)
    (hbase : base < 2 ^ 32) :
    let m' := gdtSetEntry m entries i base limit access flags
    load32 m' (entries + 8 * i) = limit % 2 ^ 16 + base % 2 ^ 16 * 2 ^ 16 ∧
      load32 m' (entries + 8 * i + 4) = base / 2 ^ 16 % 2 ^ 8 + access.toNat * 2 ^ 8 +
        (flags.toNat ||| limit / 2 ^ 16 % 16) * 2 ^ 16 + base / 2 ^ 24 * 2 ^ 24 := by
  have hnibble : limit / 65536 % 16 % 256 = limit / 65536 % 16 := Nat.mod_eq_of_lt (by omega)
  unfold gdtSetEntry
  generalize entries + 8 * i = a
  constructor
  · simp [load32, store16_apply, store8, Nat.add_assoc, and_0xFFFF, Nat.shiftRight_eq_div_pow]
    omega
  · simp [load32, store8, Nat.add_assoc, and_0xFF, and_0x0F, Nat.shiftRight_eq_div_pow, hnibble]
    omega

/-- The four fields of the upper word. -/
theorem upper_fields {mid access nibble flags top word : Nat} (hmid : mid < 256)
    (haccess : access < 256) (hnibble : nibble < 16) (hflags : flags < 16)
    (hword : word = mid + access * 2 ^ 8 + (16 * flags + nibble) * 2 ^ 16 + top * 2 ^ 24) :
    word % 2 ^ 8 = mid ∧ word / 2 ^ 24 = top ∧ word / 2 ^ 16 % 16 = nibble ∧
      word / 2 ^ 8 % 2 ^ 8 = access ∧ word / 2 ^ 20 % 16 = flags := by
  omega

/-- A descriptor of a present segment is read back as it was set, if its limit has 20 bits and the
flags leave room for the upper four of them. -/
theorem segmentAt_gdtSetEntry (m : Memory) (t : TableRegister) {i base limit selector : Nat}
    (access : UInt8) {flags : UInt8} (hbase : base < 2 ^ 32) (hlimit : limit < 2 ^ 20)
    (hflags : flags.toNat % 16 = 0) (hselector : selector / 4 % 2 = 0 ∧ selector / 8 = i)
    (hi : i ≠ 0 ∧ 8 * i + 7 ≤ t.limit.toNat)
    (hkind : access.toNat / 2 ^ 7 = 1 ∧ access.toNat / 2 ^ 4 % 2 = 1) :
    segmentAt (gdtSetEntry m t.base i base limit access flags) t selector =
      some ⟨base, limit, access.toNat, flags.toNat / 16⟩ := by
  obtain ⟨hlo, hhi⟩ := gdtSetEntry_words m t.base i limit access flags hbase
  have hflags' := flags.toNat_lt
  have hupper : limit / 2 ^ 16 % 16 < 2 ^ 4 := Nat.mod_lt _ (by decide)
  have hor : flags.toNat ||| limit / 2 ^ 16 % 16 =
      16 * (flags.toNat / 16) + limit / 2 ^ 16 % 16 := by
    rw [Word32.or_flags hflags hupper]
    omega
  rw [hor] at hhi
  obtain ⟨hmid, htop, hnibble, haccess, hfour⟩ := upper_fields (Nat.mod_lt _ (by decide))
    access.toNat_lt (Nat.mod_lt _ (by decide)) (by omega) hhi
  have hbits : ∀ word, word / 2 ^ 8 % 2 ^ 8 = access.toNat →
      word / 2 ^ 15 % 2 = 1 ∧ word / 2 ^ 12 % 2 = 1 := by omega
  obtain ⟨hpresent, hordinary⟩ := hbits _ haccess
  rw [segmentAt, hselector.2]
  simp only [hlo, hmid, htop, hnibble, haccess, hfour]
  rw [if_pos ⟨hselector.1, hi.1, hi.2, hpresent, hordinary⟩]
  simp only [Option.some.injEq, Segment.mk.injEq, and_true]
  omega

/-- Reading a descriptor depends on its eight bytes only. -/
theorem segmentAt_congr {m m' : Memory} {t : TableRegister} {selector : Nat}
    (h : SameOn m m' (t.base + 8 * (selector / 8)) (t.base + 8 * (selector / 8) + 8)) :
    segmentAt m' t selector = segmentAt m t selector := by
  have hlo : load32 m' (t.base + 8 * (selector / 8)) = load32 m (t.base + 8 * (selector / 8)) :=
    load32_congr (h.mono (by omega) (by omega))
  have hhi : load32 m' (t.base + 8 * (selector / 8) + 4) =
      load32 m (t.base + 8 * (selector / 8) + 4) := load32_congr (h.mono (by omega) (by omega))
  simp only [segmentAt, hlo, hhi]

/-! ## The count of the entries -/

/-- What the loop takes an entry for. -/
def Vacant (m : Memory) (entries i : Nat) : Prop :=
  m (entries + 8 * i + 5) = 0 ∧ m (entries + 8 * i + 6) = 0

theorem countEntry_eq (m : Memory) (entries count i : Nat) :
    (Vacant m entries i ∧ countEntry m entries count i = count) ∨
      (¬ Vacant m entries i ∧ countEntry m entries count i = i + 1) := by
  unfold countEntry Vacant
  grind

/-- The count ends behind the last entry that is not vacant. -/
theorem numEntries_spec (m : Memory) (entries n : Nat) :
    numEntries m entries n ≤ n ∧
      (∀ i < n, numEntries m entries n ≤ i → Vacant m entries i) ∧
      (∀ i, numEntries m entries n = i + 1 → ¬ Vacant m entries i) := by
  induction n with
  | zero => exact ⟨Nat.le_refl 0, fun i hi => absurd hi (Nat.not_lt_zero i), fun i hi => nomatch hi⟩
  | succ n ih =>
    obtain ⟨hle, hbehind, hlast⟩ := ih
    have hstep : numEntries m entries (n + 1) =
        countEntry m entries (numEntries m entries n) n := by
      simp [numEntries, List.range_succ]
    rw [hstep]
    obtain ⟨hvacant, hcount⟩ | ⟨hused, hcount⟩ := countEntry_eq m entries (numEntries m entries n) n
    · rw [hcount]
      refine ⟨by omega, fun i hi hge => ?_, hlast⟩
      by_cases heq : i = n
      · rw [heq]
        exact hvacant
      · exact hbehind i (by omega) hge
    · rw [hcount]
      refine ⟨Nat.le_refl _, fun i hi hge => by omega, fun i hi => ?_⟩
      rw [← Nat.succ.inj hi]
      exact hused

/-! ## The segments of the kernel -/

/-- The segment from address 0 to the last address. -/
def flat (access : Nat) : Segment := ⟨0, 0xFFFFF, access, 0xC⟩

theorem flat_last (access : Nat) : (flat access).last = 0xFFFFF * 4096 + 4095  := by
  unfold Segment.last
  exact if_pos (by simp [flat])

theorem flat_linear {access offset : Nat} (hup : access / 2 ^ 2 % 2 = 0) (h : offset < 2 ^ 32) :
    (flat access).linear offset = some offset := by
  have hnot : ¬ (flat access).Downward := fun hdown => by
    have hone := hdown.2
    simp only [flat] at hone
    omega
  have hcontains : (flat access).Contains offset := .inl ⟨hnot, by rw [flat_last]; omega⟩
  unfold Segment.linear
  rw [if_pos hcontains]
  show some ((0 + offset) % 2 ^ 32) = some offset
  rw [Nat.zero_add, Nat.mod_eq_of_lt h]

/-- The access byte of an entry that `gdt_init` sets. -/
def gdtAccess : Nat → Option UInt8
  | 1 => some 0x9A
  | 2 => some 0x92
  | 3 => some 0xFA
  | 4 => some 0xF2
  | _ => none

theorem gdtAccess_eq_some {i : Nat} {access : UInt8} (h : gdtAccess i = some access) :
    1 ≤ i ∧ i ≤ 4 := by
  unfold gdtAccess at h
  grind

/-- The entries are present, of code or data, that can be read or written, and neither conforming
nor growing downwards. -/
theorem gdtAccess_bits {i : Nat} {access : UInt8} (h : gdtAccess i = some access) :
    access.toNat / 2 ^ 7 = 1 ∧ access.toNat / 2 ^ 4 % 2 = 1 ∧ access.toNat / 2 ^ 2 % 2 = 0 ∧
      access.toNat / 2 % 2 = 1 := by
  unfold gdtAccess at h
  split at h <;> cases h <;> decide

/-- Each entry keeps what it was set to. -/
theorem gdtInit_entry (m : Memory) (entries : Nat) {i : Nat} {access : UInt8}
    (h : gdtAccess i = some access) :
    ∃ m₀, SameOn (gdtSetEntry m₀ entries i 0 0xFFFFF access 0xC0) (gdtInit m entries).1
      (entries + 8 * i) (entries + 8 * i + 8) := by
  have hlater : ∀ (m : Memory) (k : Nat) (access : UInt8), i < k →
      SameOn m (gdtSetEntry m entries k 0 0xFFFFF access 0xC0) (entries + 8 * i)
        (entries + 8 * i + 8) :=
    fun m k access hk => sameOn_gdtSetEntry m _ _ _ _ (.inl (by omega))
  unfold gdtAccess at h
  split at h <;> cases h
  · exact ⟨_, ((hlater _ 2 0x92 (by decide)).trans (hlater _ 3 0xFA (by decide))).trans
      (hlater _ 4 0xF2 (by decide))⟩
  · exact ⟨_, (hlater _ 3 0xFA (by decide)).trans (hlater _ 4 0xF2 (by decide))⟩
  · exact ⟨_, hlater _ 4 0xF2 (by decide)⟩
  · exact ⟨_, .refl _ _ _⟩

/-- Entry 5 is never set. -/
theorem gdtInit_outside (m : Memory) {entries : Nat} (hfit : entries + 48 ≤ 2 ^ 32) :
    SameOn m (gdtInit m entries).1 (entries + 40) (entries + 48) := by
  have hset : ∀ (m : Memory) (k : Nat) (access : UInt8), k < 5 →
      SameOn m (gdtSetEntry m entries k 0 0xFFFFF access 0xC0) (entries + 40) (entries + 48) :=
    fun m k access hk => sameOn_gdtSetEntry m _ _ _ _ (.inr (by omega))
  have hfirst : SameOn m (memset m entries 0 8) (entries + 40) (entries + 48) := by
    intro x hlo hhi
    rw [memset_apply _ _ (by omega), if_neg (by omega)]
  exact (((hfirst.trans (hset _ 1 0x9A (by decide))).trans (hset _ 2 0x92 (by decide))).trans
    (hset _ 3 0xFA (by decide))).trans (hset _ 4 0xF2 (by decide))

theorem gdtInit_numEntries {m : Memory} {entries : Nat} (hfit : entries + 48 ≤ 2 ^ 32)
    (hzero : ∀ x, entries ≤ x → x < entries + 48 → m x = 0) :
    numEntries (gdtInit m entries).1 entries 6 = 5 := by
  obtain ⟨hle, hbehind, hlast⟩ := numEntries_spec (gdtInit m entries).1 entries 6
  have hfive : Vacant (gdtInit m entries).1 entries 5 := by
    have hsame := gdtInit_outside m hfit
    constructor
    · rw [hsame _ (by omega) (by omega), hzero _ (by omega) (by omega)]
    · rw [hsame _ (by omega) (by omega), hzero _ (by omega) (by omega)]
  have hfour : ¬ Vacant (gdtInit m entries).1 entries 4 := by
    obtain ⟨m₀, hsame⟩ := gdtInit_entry m entries (i := 4) rfl
    intro hvacant
    have haccess := (hsame (entries + 8 * 4 + 5) (by omega) (by omega)).symm.trans hvacant.1
    simp [gdtSetEntry, store8] at haccess
  by_contra hne
  rcases Nat.lt_or_gt_of_ne hne with hlt | hgt
  · exact hfour (hbehind 4 (by decide) (by omega))
  · exact hlast 5 (by omega) hfive

/-- The table as a whole: which selectors name a segment, and what the segments are. -/
theorem gdtInit_segmentAt {m : Memory} {entries : Nat} (hfit : entries + 48 ≤ 2 ^ 32)
    (hzero : ∀ x, entries ≤ x → x < entries + 48 → m x = 0) (selector : Nat) :
    segmentAt (gdtInit m entries).1 (gdtInit m entries).2 selector =
      if selector / 4 % 2 = 0 then
        (gdtAccess (selector / 8)).map fun access => flat access.toNat
      else none := by
  have hcount := gdtInit_numEntries hfit hzero
  have hlimit : (gdtInit m entries).2.limit.toNat = 39 := by
    have heq : (gdtInit m entries).2.limit =
        UInt16.ofNat (Word32.sub (8 * numEntries (gdtInit m entries).1 entries 6) 1) := rfl
    rw [heq, hcount]
    rfl
  by_cases hlocal : selector / 4 % 2 = 0
  · rw [if_pos hlocal]
    cases haccess : gdtAccess (selector / 8) with
    | none =>
      have hrange : selector / 8 = 0 ∨ 5 ≤ selector / 8 := by
        unfold gdtAccess at haccess
        grind
      exact if_neg (by rw [hlimit]; omega)
    | some access =>
      obtain ⟨hone, hfour⟩ := gdtAccess_eq_some haccess
      obtain ⟨hpresent, hordinary, -, -⟩ := gdtAccess_bits haccess
      obtain ⟨m₀, hsame⟩ := gdtInit_entry m entries haccess
      rw [segmentAt_congr hsame]
      exact segmentAt_gdtSetEntry m₀ (gdtInit m entries).2 access (by decide) (by decide)
        (by decide) ⟨hlocal, rfl⟩ ⟨by omega, by rw [hlimit]; omega⟩ ⟨hpresent, hordinary⟩
  · rw [if_neg hlocal]
    exact if_neg fun h => hlocal h.1

/-- The selectors 8, 16, 24 and 32, at any requested level, name segments in which an offset is the
address itself: code and data of the kernel, then code and data of programs. The code may be read
and the data written, and neither is conforming nor growing downwards. -/
structure FlatTable (m : Memory) (t : TableRegister) : Prop where
  named : ∀ selector, (segmentAt m t selector).isSome ↔
    selector / 4 % 2 = 0 ∧ 1 ≤ selector / 8 ∧ selector / 8 ≤ 4
  identity : ∀ selector s, segmentAt m t selector = some s →
    ∀ offset < 2 ^ 32, s.linear offset = some offset
  level : ∀ selector s, segmentAt m t selector = some s →
    s.access / 2 ^ 5 % 4 = if selector / 8 ≤ 2 then 0 else 3
  executable : ∀ selector s, segmentAt m t selector = some s →
    (s.access / 2 ^ 3 % 2 = 1 ↔ selector / 8 % 2 = 1)
  present : ∀ selector s, segmentAt m t selector = some s →
    s.access / 2 ^ 7 = 1 ∧ s.access / 2 ^ 4 % 2 = 1
  upward : ∀ selector s, segmentAt m t selector = some s → s.access / 2 ^ 2 % 2 = 0
  accessible : ∀ selector s, segmentAt m t selector = some s → s.access / 2 % 2 = 1

/-- After `gdt_init` segmentation is out of the way, and the limit is behind the last entry. -/
theorem gdt_flat {m : Memory} {entries : Nat} (hfit : entries + 48 ≤ 2 ^ 32)
    (hzero : ∀ x, entries ≤ x → x < entries + 48 → m x = 0) :
    FlatTable (gdtInit m entries).1 (gdtInit m entries).2 := by
  have hsegment : ∀ selector s,
      segmentAt (gdtInit m entries).1 (gdtInit m entries).2 selector = some s →
        ∃ access, gdtAccess (selector / 8) = some access ∧ s = flat access.toNat := by
    intro selector s hs
    rw [gdtInit_segmentAt hfit hzero] at hs
    split at hs
    · obtain ⟨access, haccess, rfl⟩ := Option.map_eq_some_iff.mp hs
      exact ⟨access, haccess, rfl⟩
    · cases hs
  constructor
  case named =>
    intro selector
    rw [gdtInit_segmentAt hfit hzero]
    unfold gdtAccess
    grind
  case identity =>
    intro selector s hs offset hoffset
    obtain ⟨access, haccess, rfl⟩ := hsegment selector s hs
    exact flat_linear (gdtAccess_bits haccess).2.2.1 hoffset
  case level =>
    intro selector s hs
    obtain ⟨access, haccess, rfl⟩ := hsegment selector s hs
    unfold gdtAccess at haccess
    split at haccess <;> cases haccess <;> simp_all [flat]
  case executable =>
    intro selector s hs
    obtain ⟨access, haccess, rfl⟩ := hsegment selector s hs
    unfold gdtAccess at haccess
    split at haccess <;> cases haccess <;> simp_all [flat]
  case present =>
    intro selector s hs
    obtain ⟨access, haccess, rfl⟩ := hsegment selector s hs
    obtain ⟨hpresent, hordinary, -, -⟩ := gdtAccess_bits haccess
    exact ⟨hpresent, hordinary⟩
  case upward =>
    intro selector s hs
    obtain ⟨access, haccess, rfl⟩ := hsegment selector s hs
    exact (gdtAccess_bits haccess).2.2.1
  case accessible =>
    intro selector s hs
    obtain ⟨access, haccess, rfl⟩ := hsegment selector s hs
    exact (gdtAccess_bits haccess).2.2.2

theorem gdt_flat_bss :
    FlatTable (gdtInit (fun _ => 0) 0x100000).1 (gdtInit (fun _ => 0) 0x100000).2 :=
  gdt_flat (by decide) fun _ _ _ => rfl

/-! ## The gates of the kernel -/

theorem sameOn_idtSetEntry (m : Memory) {entries i lo hi : Nat} (base : Nat) (sel : UInt16)
    (flags : UInt8) (h : hi ≤ entries + 8 * i ∨ entries + 8 * (i + 1) ≤ lo) :
    SameOn m (idtSetEntry m entries i base sel flags) lo hi := by
  intro x hlo hhi
  simp only [idtSetEntry, store8, store16_apply]
  iterate 8 rw [if_neg (by omega)]

theorem idtSetEntry_words (m : Memory) (entries i : Nat) {base : Nat} (sel : UInt16)
    (flags : UInt8) (hbase : base < 2 ^ 32) :
    let m' := idtSetEntry m entries i base sel flags
    load32 m' (entries + 8 * i) = base % 2 ^ 16 + sel.toNat * 2 ^ 16 ∧
      load32 m' (entries + 8 * i + 4) =
        (flags ||| 0x60).toNat * 2 ^ 8 + base / 2 ^ 16 * 2 ^ 16 := by
  have hsel := sel.toNat_lt
  unfold idtSetEntry
  generalize entries + 8 * i = a
  constructor
  · simp [load32, store16_apply, store8, Nat.add_assoc, and_0xFFFF, Nat.shiftRight_eq_div_pow]
    omega
  · simp [load32, store16_apply, store8, Nat.add_assoc, and_0xFFFF, Nat.shiftRight_eq_div_pow]
    omega

/-- Reading a gate depends on its eight bytes only. -/
theorem gateAt_congr {m m' : Memory} {t : TableRegister} {vector : Nat}
    (h : SameOn m m' (t.base + 8 * vector) (t.base + 8 * vector + 8)) :
    gateAt m' t vector = gateAt m t vector := by
  have hlo : load32 m' (t.base + 8 * vector) = load32 m (t.base + 8 * vector) :=
    load32_congr (h.mono (by omega) (by omega))
  have hhi : load32 m' (t.base + 8 * vector + 4) = load32 m (t.base + 8 * vector + 4) :=
    load32_congr (h.mono (by omega) (by omega))
  simp only [gateAt, hlo, hhi]

/-- An entry as `idt_init` sets it is a present interrupt gate, which programs may raise. -/
theorem gateAt_idtSetEntry (m : Memory) (t : TableRegister) {i base : Nat} (hbase : base < 2 ^ 32)
    (hi : 8 * i + 7 ≤ t.limit.toNat) :
    gateAt (idtSetEntry m t.base i base 0x08 0x8E) t i =
      some ⟨BitVec.ofNat 32 base, 0x08, 3⟩ := by
  obtain ⟨hlo, hhi⟩ := idtSetEntry_words m t.base i 0x08 0x8E hbase
  have hflags : ((0x8E : UInt8) ||| 0x60).toNat = 0xEE := rfl
  have hsel : (0x08 : UInt16).toNat = 8 := rfl
  rw [hflags] at hhi
  rw [hsel] at hlo
  unfold gateAt
  simp only [hlo, hhi]
  rw [if_pos ⟨hi, by omega, by omega⟩]
  have hoffset : (base % 2 ^ 16 + 8 * 2 ^ 16) % 2 ^ 16 +
      (0xEE * 2 ^ 8 + base / 2 ^ 16 * 2 ^ 16) / 2 ^ 16 * 2 ^ 16 = base := by omega
  have hselector : (base % 2 ^ 16 + 8 * 2 ^ 16) / 2 ^ 16 = 8 := by omega
  have hlevel : (0xEE * 2 ^ 8 + base / 2 ^ 16 * 2 ^ 16) / 2 ^ 13 % 4 = 3 := by omega
  rw [hoffset, hselector, hlevel]
  rfl

/-- A loop sets its entries and leaves the others. -/
theorem idtSetEntries_gates (m : Memory) (t : TableRegister) (first : Nat) {n : Nat}
    {stubTable : Nat → Nat}
    (hstubs : ∀ i < n, stubTable i < 2 ^ 32) (hlimit : 8 * (first + n) ≤ t.limit.toNat + 1) :
    (∀ i < n, gateAt (idtSetEntries m t.base first n stubTable) t (first + i) =
      some ⟨BitVec.ofNat 32 (stubTable i), 0x08, 3⟩) ∧
    ∀ lo hi, hi ≤ t.base + 8 * first ∨ t.base + 8 * (first + n) ≤ lo →
      SameOn m (idtSetEntries m t.base first n stubTable) lo hi := by
  induction n with
  | zero => exact ⟨fun i hi => absurd hi (Nat.not_lt_zero i), fun lo hi _ => .refl m lo hi⟩
  | succ n ih =>
    obtain ⟨hgates, houtside⟩ := ih (fun i hi => hstubs i (by omega)) (by omega)
    have hstep : idtSetEntries m t.base first (n + 1) stubTable =
        idtSetEntry (idtSetEntries m t.base first n stubTable) t.base (first + n) (stubTable n)
          0x08 0x8E := by
      simp [idtSetEntries, List.range_succ]
    rw [hstep]
    constructor
    · intro i hi
      by_cases heq : i = n
      · rw [heq]
        exact gateAt_idtSetEntry _ t (hstubs n (by omega)) (by omega)
      · rw [← hgates i (by omega)]
        exact gateAt_congr (sameOn_idtSetEntry _ _ _ _ (.inl (by omega)))
    · intro lo hi h
      exact (houtside lo hi (by omega)).trans (sameOn_idtSetEntry _ _ _ _ (by omega))

/-- After `idt_init` the first 48 vectors lead to their stubs, and no other vector has a gate. -/
theorem idtInit_gateAt {m : Memory} {entries : Nat} {isrStubTable irqStubTable : Nat → Nat}
    (hfit : entries + 2048 ≤ 2 ^ 32) (hzero : ∀ x, entries ≤ x → x < entries + 2048 → m x = 0)
    (hisr : ∀ i < 32, isrStubTable i < 2 ^ 32) (hirq : ∀ i < 16, irqStubTable i < 2 ^ 32)
    (vector : Nat) :
    gateAt (idtInit m entries isrStubTable irqStubTable).1
        (idtInit m entries isrStubTable irqStubTable).2 vector =
      if vector < 32 then some ⟨BitVec.ofNat 32 (isrStubTable vector), 0x08, 3⟩
      else if vector < 48 then some ⟨BitVec.ofNat 32 (irqStubTable (vector - 32)), 0x08, 3⟩
      else none := by
  let t : TableRegister := ⟨8 * 256 - 1, entries⟩
  have hlimit : t.limit.toNat = 2047 := rfl
  have hbase : t.base = entries := rfl
  let m₀ := memset m entries 0 8
  let m₁ := idtSetEntries m₀ t.base 0 32 isrStubTable
  obtain ⟨hfirst, hfirstOut⟩ := idtSetEntries_gates m₀ t 0 hisr (by omega)
  obtain ⟨hsecond, hsecondOut⟩ := idtSetEntries_gates m₁ t 32 hirq (by omega)
  show gateAt (idtSetEntries m₁ t.base 32 16 irqStubTable) t vector = _
  split_ifs with hlow hmid
  · rw [gateAt_congr (hsecondOut _ _ (.inl (by omega)))]
    simpa using hfirst vector hlow
  · simpa [show 32 + (vector - 32) = vector by omega] using hsecond (vector - 32) (by omega)
  · by_cases hbig : vector < 256
    · have hword : load32 (idtSetEntries m₁ t.base 32 16 irqStubTable)
          (t.base + 8 * vector + 4) = 0 := by
        apply load32_zero
        intro x hlo hhi
        have hsecondKeeps := hsecondOut x (x + 1) (.inr (by omega)) x (by omega) (by omega)
        have hfirstKeeps := hfirstOut x (x + 1) (.inr (by omega)) x (by omega) (by omega)
        have hcleared : m₀ x = m x :=
          (memset_apply m 0 (by omega) x).trans (if_neg (by omega))
        exact ((hsecondKeeps.trans hfirstKeeps).trans hcleared).trans
          (hzero x (by omega) (by omega))
      unfold gateAt
      simp only [hword]
      exact if_neg (by omega)
    · exact if_neg (by rw [hlimit]; omega)

end HolyOs.Cpu
