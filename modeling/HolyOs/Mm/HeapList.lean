import HolyOs.Foundation.BlockList
import HolyOs.Mm.Heap

/-!
# The block list in memory

`Segment m l z` says that the headers of the blocks `l` are in memory and linked to each
other, the last one to `z`. Every write of the heap is to one header, so the operations are
followed by showing the headers they write and that the others are out of the way. The
specifications of the loops that only read the list end the file.
-/
namespace HolyOs.Mm

open ByteMemory HolyOs.Lib BlockList

/-- The header of a block, with the address of the next block. -/
structure HeaderAt (m : Memory) (b : Block) (next : Nat) : Prop where
  magic : blockMagic m b.addr = heapMagic
  size : blockSize m b.addr = b.size
  next : blockNext m b.addr = next
  used : b.used = decide (blockUsed m b.addr ≠ 0)

/-- The header of a block, whatever its magic. -/
structure LinkAt (m : Memory) (b : Block) (next : Nat) : Prop where
  size : blockSize m b.addr = b.size
  next : blockNext m b.addr = next
  used : b.used = decide (blockUsed m b.addr ≠ 0)

/-- Linked headers of the blocks of a list. -/
def Segment (m : Memory) : List Block → Nat → Prop
  | [], _ => True
  | b :: l, z => HeaderAt m b (firstAddr l z) ∧ Segment m l z

/-- Linked headers with any magics. -/
def Links (m : Memory) : List Block → Nat → Prop
  | [], _ => True
  | b :: l, z => LinkAt m b (firstAddr l z) ∧ Links m l z

/-- Nothing outside the header at `block` differs. -/
def OnlyHeader (block : Nat) (m m' : Memory) : Prop :=
  ∀ x, x < block ∨ block + 16 ≤ x → m' x = m x

/-- An address in one of the headers. -/
def InHeaders (l : List Block) (x : Nat) : Prop := ∃ b ∈ l, b.addr ≤ x ∧ x < b.addr + 16

/-! ## Writing one header -/

section Fields

variable (m : Memory) (block : Nat) {value : Nat} (flag : UInt8)

theorem blockMagic_setMagic (h : value < 2 ^ 32) :
    blockMagic (setMagic m block value) block = value := load32_store32_same _ _ h

@[simp] theorem blockMagic_setSize :
    blockMagic (setSize m block value) block = blockMagic m block :=
  load32_store32_of_disjoint _ _ (by omega)

@[simp] theorem blockMagic_setNext :
    blockMagic (setNext m block value) block = blockMagic m block :=
  load32_store32_of_disjoint _ _ (by omega)

@[simp] theorem blockMagic_setUsed : blockMagic (setUsed m block flag) block = blockMagic m block :=
  load32_store8_of_disjoint _ _ (by omega)

theorem blockSize_setSize (h : value < 2 ^ 32) :
    blockSize (setSize m block value) block = value := load32_store32_same _ _ h

@[simp] theorem blockSize_setNext : blockSize (setNext m block value) block = blockSize m block :=
  load32_store32_of_disjoint _ _ (by omega)

@[simp] theorem blockSize_setUsed : blockSize (setUsed m block flag) block = blockSize m block :=
  load32_store8_of_disjoint _ _ (by omega)

@[simp] theorem blockNext_setSize : blockNext (setSize m block value) block = blockNext m block :=
  load32_store32_of_disjoint _ _ (by omega)

theorem blockNext_setNext (h : value < 2 ^ 32) :
    blockNext (setNext m block value) block = value := load32_store32_same _ _ h

@[simp] theorem blockNext_setUsed : blockNext (setUsed m block flag) block = blockNext m block :=
  load32_store8_of_disjoint _ _ (by omega)

@[simp] theorem blockUsed_setMagic : blockUsed (setMagic m block value) block = blockUsed m block :=
  if_neg (by omega)

@[simp] theorem blockUsed_setSize : blockUsed (setSize m block value) block = blockUsed m block :=
  if_neg (by omega)

@[simp] theorem blockUsed_setNext : blockUsed (setNext m block value) block = blockUsed m block :=
  if_neg (by omega)

@[simp] theorem blockUsed_setUsed : blockUsed (setUsed m block flag) block = flag :=
  store8_same _ _ _

end Fields

section Header

variable {m m' m'' : Memory} {b : Block} {block next : Nat}

theorem OnlyHeader.trans (h : OnlyHeader block m m') (g : OnlyHeader block m' m'') :
    OnlyHeader block m m'' := fun x hx => (g x hx).trans (h x hx)

theorem onlyHeader_setMagic (value : Nat) : OnlyHeader block m (setMagic m block value) :=
  fun x _ => if_neg (by omega)

theorem onlyHeader_setSize (value : Nat) : OnlyHeader block m (setSize m block value) :=
  fun x _ => if_neg (by omega)

theorem onlyHeader_setNext (value : Nat) : OnlyHeader block m (setNext m block value) :=
  fun x _ => if_neg (by omega)

theorem onlyHeader_setUsed (value : UInt8) : OnlyHeader block m (setUsed m block value) :=
  fun x _ => if_neg (by omega)

/-- A range apart from the header is the same. -/
theorem OnlyHeader.sameOn (h : OnlyHeader block m m') {lo hi : Nat}
    (hapart : hi ≤ block ∨ block + 16 ≤ lo) : SameOn m m' lo hi :=
  fun x hlo hhi => h x (by omega)

theorem HeaderAt.link (h : HeaderAt m b next) : LinkAt m b next := ⟨h.size, h.next, h.used⟩

theorem LinkAt.header (h : LinkAt m b next) (hmagic : blockMagic m b.addr = heapMagic) :
    HeaderAt m b next := ⟨hmagic, h.size, h.next, h.used⟩

theorem LinkAt.used_iff (h : LinkAt m b next) : blockUsed m b.addr = 0 ↔ b.used = false := by
  rw [h.used]
  simp

theorem LinkAt.congr (h : LinkAt m b next) (hsame : SameOn m m' b.addr (b.addr + 16)) :
    LinkAt m' b next where
  size := (load32_congr (hsame.mono (by omega) (by omega))).trans h.size
  next := (load32_congr (hsame.mono (by omega) (by omega))).trans h.next
  used := by
    rw [h.used, blockUsed, blockUsed, hsame _ (by omega) (by omega)]

theorem LinkAt.setSize (h : LinkAt m b next) {value : Nat} (hv : value < 2 ^ 32) :
    LinkAt (setSize m b.addr value) { b with size := value } next where
  size := blockSize_setSize m b.addr hv
  next := by simp [h.next]
  used := by simp [h.used]

theorem LinkAt.setNext (h : LinkAt m b next) {value : Nat} (hv : value < 2 ^ 32) :
    LinkAt (setNext m b.addr value) b value where
  size := by simp [h.size]
  next := blockNext_setNext m b.addr hv
  used := by simp [h.used]

theorem HeaderAt.congr (h : HeaderAt m b next) (hsame : SameOn m m' b.addr (b.addr + 16)) :
    HeaderAt m' b next :=
  (h.link.congr hsame).header
    ((load32_congr (hsame.mono (by omega) (by omega))).trans h.magic)

theorem HeaderAt.setSize (h : HeaderAt m b next) {value : Nat} (hv : value < 2 ^ 32) :
    HeaderAt (setSize m b.addr value) { b with size := value } next :=
  (h.link.setSize hv).header (by simp [h.magic])

theorem HeaderAt.setNext (h : HeaderAt m b next) {value : Nat} (hv : value < 2 ^ 32) :
    HeaderAt (setNext m b.addr value) b value :=
  (h.link.setNext hv).header (by simp [h.magic])

theorem HeaderAt.setUsed (h : HeaderAt m b next) (value : UInt8) :
    HeaderAt (setUsed m b.addr value) { b with used := decide (value ≠ 0) } next where
  magic := by simp [h.magic]
  size := by simp [h.size]
  next := by simp [h.next]
  used := by simp

/-- A header written from scratch, up to its `used` flag. -/
theorem headerAt_fresh (m : Memory) (block : Nat) {size next : Nat} (hsize : size < 2 ^ 32)
    (hnext : next < 2 ^ 32) :
    HeaderAt (Mm.setNext (Mm.setSize (setMagic m block heapMagic) block size) block next)
      ⟨block, size, decide (blockUsed m block ≠ 0)⟩ next where
  magic := by simpa using blockMagic_setMagic m block (show heapMagic < 2 ^ 32 by simp)
  size := (blockSize_setNext _ _).trans (blockSize_setSize _ _ hsize)
  next := blockNext_setNext _ _ hnext
  used := by simp

end Header

/-! ## Segments -/

section Segment

variable {m m' : Memory} {l l₁ l₂ : List Block} {z : Nat}

/-- A segment is its links and its magics. -/
theorem segment_iff_links : Segment m l z ↔
    Links m l z ∧ ∀ b ∈ l, blockMagic m b.addr = heapMagic := by
  induction l with
  | nil => simp [Segment, Links]
  | cons b l ih =>
    rw [Segment, Links, ih, List.forall_mem_cons]
    constructor
    · rintro ⟨hb, hl, hmagics⟩
      exact ⟨⟨hb.link, hl⟩, hb.magic, hmagics⟩
    · rintro ⟨⟨hb, hl⟩, hmagic, hmagics⟩
      exact ⟨hb.header hmagic, hl, hmagics⟩

theorem Links.congr (h : Links m l z)
    (hsame : ∀ b ∈ l, SameOn m m' b.addr (b.addr + 16)) : Links m' l z := by
  induction l with
  | nil => trivial
  | cons b l ih =>
    exact ⟨h.1.congr (hsame b (by simp)), ih h.2 fun c hc => hsame c (by simp [hc])⟩

theorem Segment.append : Segment m (l₁ ++ l₂) z ↔
    Segment m l₁ (firstAddr l₂ z) ∧ Segment m l₂ z := by
  induction l₁ with
  | nil => simp [Segment]
  | cons b l₁ ih => rw [List.cons_append, Segment, Segment, ih, firstAddr_append, and_assoc]

theorem Segment.congr (h : Segment m l z)
    (hsame : ∀ b ∈ l, SameOn m m' b.addr (b.addr + 16)) : Segment m' l z := by
  obtain ⟨hlinks, hmagics⟩ := segment_iff_links.mp h
  refine segment_iff_links.mpr ⟨hlinks.congr hsame, fun b hb => ?_⟩
  exact (load32_congr ((hsame b hb).mono (by omega) (by omega))).trans (hmagics b hb)

/-- A middle part is rewritten, keeping its first address, and the other headers stay. -/
theorem Segment.replace (old new : List Block) (h : Segment m (l₁ ++ (old ++ l₂)) z)
    (hfirst : ∀ n, firstAddr new n = firstAddr old n)
    (hnew : Segment m' new (firstAddr l₂ z))
    (hsame : ∀ b, b ∈ l₁ ∨ b ∈ l₂ → SameOn m m' b.addr (b.addr + 16)) :
    Segment m' (l₁ ++ (new ++ l₂)) z := by
  simp only [Segment.append, firstAddr_append] at h ⊢
  obtain ⟨hleft, -, hright⟩ := h
  rw [hfirst]
  exact ⟨hleft.congr fun b hb => hsame b (.inl hb), hnew,
    hright.congr fun b hb => hsame b (.inr hb)⟩

end Segment

/-! ## Following the `next` pointers -/

section Loops

variable {m : Memory} {l : List Block}

theorem loopFuel_eq_succ : ∃ fuel, loopFuel = fuel + 1 := ⟨2 ^ 32 - 1, rfl⟩

/-- There is fuel for every list that fits into 32 bits. -/
theorem length_lt_loopFuel (hfits : total 16 l < 2 ^ 32) : l.length < loopFuel := by
  have hlength := length_le_total 16 l
  rw [loopFuel]
  omega

theorem HeaderAt.used_iff {b : Block} {next : Nat} (h : HeaderAt m b next) :
    blockUsed m b.addr = 0 ↔ b.used = false :=
  h.link.used_iff

/-- `find_free_block` returns the first block that is free and large enough. -/
theorem findLoop_eq (h : Segment m l 0) (hpos : ∀ b ∈ l, b.addr ≠ 0) (size : Nat) {fuel : Nat}
    (hfuel : l.length < fuel) : findLoop m size fuel (firstAddr l 0) =
      some ((l.find? fun b => !b.used && decide (size ≤ b.size)).elim 0 Block.addr) := by
  induction l generalizing fuel with
  | nil =>
    obtain ⟨fuel, rfl⟩ := Nat.exists_eq_add_of_lt hfuel
    rfl
  | cons b l ih =>
    obtain ⟨fuel, rfl⟩ := Nat.exists_eq_add_one.mpr (Nat.zero_lt_of_lt hfuel)
    rw [List.length_cons] at hfuel
    have htest : blockUsed m b.addr = 0 ∧ size ≤ blockSize m b.addr ↔
        b.used = false ∧ size ≤ b.size := by rw [h.1.used_iff, h.1.size]
    rw [firstAddr_cons, findLoop, if_neg (hpos b (by simp)), h.1.next]
    by_cases hfits : b.used = false ∧ size ≤ b.size
    · rw [if_pos (htest.mpr hfits), List.find?_cons_of_pos (by simpa using hfits)]
      rfl
    · rw [if_neg (htest.not.mpr hfits), List.find?_cons_of_neg (by simpa using hfits)]
      exact ih h.2 (fun c hc => hpos c (by simp [hc])) (by omega)

/-- The sum of the sizes of the counted blocks. -/
def countedSize (counts : Bool → Bool) (l : List Block) : Nat :=
  ((l.filter fun b => counts b.used).map Block.size).sum

theorem sumLoop_eq {counts : Bool → Bool} (h : Segment m l 0) (hpos : ∀ b ∈ l, b.addr ≠ 0)
    {fuel total : Nat} (hfuel : l.length < fuel) (hsum : total + countedSize counts l < 2 ^ 32) :
    sumLoop m (fun used => counts (decide (used ≠ 0))) fuel total (firstAddr l 0) =
      some (total + countedSize counts l) := by
  induction l generalizing fuel total with
  | nil =>
    obtain ⟨fuel, rfl⟩ := Nat.exists_eq_add_of_lt hfuel
    rfl
  | cons b l ih =>
    obtain ⟨fuel, rfl⟩ := Nat.exists_eq_add_one.mpr (Nat.zero_lt_of_lt hfuel)
    rw [List.length_cons] at hfuel
    have hrest : ∀ t, t + countedSize counts l < 2 ^ 32 →
        sumLoop m (fun used => counts (decide (used ≠ 0))) fuel t (firstAddr l 0) =
          some (t + countedSize counts l) := fun t =>
      ih h.2 (fun c hc => hpos c (by simp [hc])) (by omega)
    rw [firstAddr_cons, sumLoop, if_neg (hpos b (by simp)), h.1.size, h.1.next]
    simp only [← h.1.used]
    cases hc : counts b.used with
    | true =>
      have hcount : countedSize counts (b :: l) = b.size + countedSize counts l := by
        simp [countedSize, hc]
      rw [hcount] at hsum ⊢
      rw [if_pos rfl, Word32.wrap_of_lt (by omega), hrest _ (by omega), Nat.add_assoc]
    | false =>
      have hcount : countedSize counts (b :: l) = countedSize counts l := by
        simp [countedSize, hc]
      rw [hcount] at hsum ⊢
      exact hrest _ hsum

end Loops

end HolyOs.Mm
