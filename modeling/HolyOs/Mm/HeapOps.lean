import HolyOs.Mm.HeapList
import Mathlib.Data.Set.Insert

/-!
# The heap operations on the block list

`Shows h top l` says that the heap `h` keeps the block list `l` and that no block reaches
beyond `top`, where the next page starts at the earliest. Each operation has one
specification: the list after it, and `Keeps`, by which used blocks other than the one it is
about stay on the list with the same payload. Histories of calls use nothing else.
-/
namespace HolyOs.Mm

open ByteMemory HolyOs.Lib BlockList

variable {σ : Type*}

/-- Alignment and place of a block. The first page is never in use. -/
structure Fits (top : Nat) (b : Block) : Prop where
  addr_mod : b.addr % 16 = 0
  size_mod : b.size % 16 = 0
  low : 4096 ≤ b.addr
  addr_lt : b.addr + 16 < 2 ^ 32
  high : b.finish 16 ≤ top

/-- The heap keeps the list `l`, below `top`. -/
structure Heap.Shows (h : Heap σ) (top : Nat) (l : List Block) : Prop where
  nonempty : l ≠ []
  start : h.heapStart = firstAddr l 0
  last : h.heapEnd = lastAddr l
  segment : Segment h.mem l 0
  ordered : Ordered 16 l
  fits : ∀ b ∈ l, Fits top b
  top_le : top ≤ 2 ^ 32
  size : h.heapSize = total 16 l

/-- Used blocks outside `E` stay on the list, and their payload is the same. -/
def Keeps (m m' : Memory) (l l' : List Block) (E : Set Nat) : Prop :=
  ∀ b ∈ l, b.used = true → b.addr ∉ E → b ∈ l' ∧ SameOn m m' (b.addr + 16) (b.finish 16)

/-- A free block of the list has at least the given size. -/
def Room (l : List Block) (size : Nat) : Prop := ∃ b ∈ l, b.used = false ∧ size ≤ b.size

theorem Room.mono {l l' : List Block} {size : Nat} (h : Room l size) (hsub : l ⊆ l') :
    Room l' size := by
  obtain ⟨b, hb, hfree, hsize⟩ := h
  exact ⟨b, hsub hb, hfree, hsize⟩

theorem Keeps.refl (m : Memory) (l : List Block) (E : Set Nat) : Keeps m m l l E :=
  fun _ hb _ _ => ⟨hb, .refl m _ _⟩

theorem Keeps.trans {m₁ m₂ m₃ : Memory} {l₁ l₂ l₃ : List Block} {E : Set Nat}
    (h : Keeps m₁ m₂ l₁ l₂ E) (g : Keeps m₂ m₃ l₂ l₃ E) : Keeps m₁ m₃ l₁ l₃ E := by
  intro b hb hused hE
  obtain ⟨hb₂, hsame₂⟩ := h b hb hused hE
  obtain ⟨hb₃, hsame₃⟩ := g b hb₂ hused hE
  exact ⟨hb₃, hsame₂.trans hsame₃⟩

theorem Keeps.mono {m m' : Memory} {l l' : List Block} {E F : Set Nat} (h : Keeps m m' l l' E)
    (hEF : E ⊆ F) : Keeps m m' l l' F :=
  fun b hb hused hF => h b hb hused fun hE => hF (hEF hE)

/-- A payload does not meet the headers of an ordered list. -/
theorem payload_not_inHeaders {l : List Block} (h : Ordered 16 l) {b : Block} (hb : b ∈ l) {x : Nat}
    (hlo : b.addr + 16 ≤ x) (hhi : x < b.finish 16) : ¬ InHeaders l x := by
  rintro ⟨c, hc, hlo', hhi'⟩
  rcases h.disjoint hb hc with rfl | hle | hle
  · omega
  · omega
  · rw [Block.finish] at hle
    omega

/-- Writes to headers keep the payloads. -/
theorem Keeps.of_headers {m m' : Memory} {l l' : List Block} {E : Set Nat} (hl : Ordered 16 l)
    (hl' : Ordered 16 l') (hkept : ∀ b ∈ l, b.used = true → b.addr ∉ E → b ∈ l')
    (hframe : ∀ x, ¬ InHeaders l x → ¬ InHeaders l' x → m' x = m x) : Keeps m m' l l' E := by
  intro b hb hused hE
  have hb' := hkept b hb hused hE
  exact ⟨hb', fun x hlo hhi => hframe x (payload_not_inHeaders hl hb hlo hhi)
    (payload_not_inHeaders hl' hb' hlo hhi)⟩

namespace Heap.Shows

variable {h : Heap σ} {top : Nat} {l : List Block}

theorem pos (hs : h.Shows top l) : ∀ b ∈ l, b.addr ≠ 0 := fun b hb => by
  have := (hs.fits b hb).low
  omega

theorem total_lt (hs : h.Shows top l) : total 16 l + 4096 ≤ top := by
  have hne := hs.nonempty
  cases l with
  | nil => exact absurd rfl hne
  | cons b l =>
    have := hs.ordered.total_le fun c hc => (hs.fits c hc).high
    have := (hs.fits b (by simp)).low
    omega

theorem length_lt (hs : h.Shows top l) : l.length < loopFuel := by
  have htotal := hs.total_lt
  have htop := hs.top_le
  apply length_lt_loopFuel
  omega

/-- Writes outside the headers do not matter, nor does the page source. -/
theorem write {h' : Heap σ} (hs : h.Shows top l) (hmem : ∀ x, InHeaders l x → h'.mem x = h.mem x)
    (hstart : h'.heapStart = h.heapStart) (hend : h'.heapEnd = h.heapEnd)
    (hsize : h'.heapSize = h.heapSize) : h'.Shows top l :=
  { hs with
    start := hstart.trans hs.start
    last := hend.trans hs.last
    segment := hs.segment.congr fun b hb x hlo hhi => hmem x ⟨b, hb, hlo, hhi⟩
    size := hsize.trans hs.size }

/-- The last block is the one no other block follows. -/
theorem eq_last_iff {l₁ l₂ : List Block} {b : Block} (hs : h.Shows top (l₁ ++ b :: l₂)) :
    b.addr = h.heapEnd ↔ l₂ = [] := by
  rw [hs.last, lastAddr_append (by simp)]
  constructor
  · intro heq
    by_contra hne
    obtain ⟨init, c, rfl, hlast⟩ := exists_last hne
    rw [lastAddr_cons hne, hlast] at heq
    have hright := (List.pairwise_append.mp hs.ordered).2.1
    have hle := Ordered.head_le hright (c := c) (by simp)
    rw [Block.finish] at hle
    omega
  · rintro rfl
    rfl

/-- The block `b` is replaced by the blocks `new` in its place. -/
theorem edit {h' : Heap σ} {l₁ l₂ : List Block} {b : Block} (new : List Block)
    (hs : h.Shows top (l₁ ++ b :: l₂)) (hnew : Within 16 new b) (hne : new ≠ [])
    (hfirst : ∀ n, firstAddr new n = b.addr) (hfits : ∀ c ∈ new, Fits top c)
    (htotal : total 16 new = b.size + 16) (hstart : h'.heapStart = h.heapStart)
    (hend : h'.heapEnd = if l₂ = [] then lastAddr new else h.heapEnd)
    (hsize : h'.heapSize = h.heapSize) (hsegment : Segment h'.mem new (firstAddr l₂ 0))
    (hframe : ∀ x, ¬ InHeaders new x → h'.mem x = h.mem x) :
    h'.Shows top (l₁ ++ (new ++ l₂)) := by
  have hordered := hs.ordered.replace hnew
  obtain ⟨-, hright, hcross⟩ := List.pairwise_append.mp hs.ordered
  have hinside : ∀ x, x < b.addr ∨ b.finish 16 ≤ x → ¬ InHeaders new x := by
    rintro x hx ⟨c, hc, hlo, hhi⟩
    have := hnew.inside c hc
    rw [Block.finish] at this
    omega
  have hsame : ∀ c, c ∈ l₁ ∨ c ∈ l₂ → SameOn h.mem h'.mem c.addr (c.addr + 16) := by
    intro c hc x hlo hhi
    apply hframe x
    apply hinside
    rcases hc with hc | hc
    · have := hcross c hc b (by simp)
      rw [Block.finish] at this
      omega
    · have := Ordered.head_le hright hc
      omega
  exact {
    nonempty := by simp [hne]
    start := by
      rw [hstart, hs.start, firstAddr_append, firstAddr_append, firstAddr_append, hfirst]
      rfl
    last := by
      rw [hend, ← List.append_assoc]
      cases l₂ with
      | nil => rw [if_pos rfl, List.append_nil, lastAddr_append hne]
      | cons c l₂ =>
        rw [if_neg (by simp), hs.last, lastAddr_append (by simp), lastAddr_append (by simp)]
        rfl
    segment := Segment.replace [b] new hs.segment hfirst hsegment hsame
    ordered := hordered
    fits := by
      intro c hc
      simp only [List.mem_append] at hc
      rcases hc with hc | hc | hc
      · exact hs.fits c (by simp [hc])
      · exact hfits c hc
      · exact hs.fits c (by simp [hc])
    top_le := hs.top_le
    size := by
      rw [hsize, hs.size]
      simp only [total_append, total_cons, htotal] }

end Heap.Shows

/-! ## One block: marking and splitting -/

section Blocks

variable {h : Heap σ} {top : Nat} {l₁ l₂ : List Block} {b : Block}

theorem Heap.Shows.header (hs : h.Shows top (l₁ ++ b :: l₂)) :
    HeaderAt h.mem b (firstAddr l₂ 0) := (Segment.append.mp hs.segment).2.1

theorem Heap.Shows.block_fits (hs : h.Shows top (l₁ ++ b :: l₂)) : Fits top b :=
  hs.fits b (by simp)

/-- Setting the flag of a block. -/
theorem Heap.Shows.mark (hs : h.Shows top (l₁ ++ b :: l₂)) (flag : UInt8) :
    Heap.Shows { h with mem := setUsed h.mem b.addr flag } top
      (l₁ ++ { b with used := decide (flag ≠ 0) } :: l₂) := by
  have hfits := hs.block_fits
  have hheader := hs.header.setUsed flag
  refine Heap.Shows.edit [{ b with used := decide (flag ≠ 0) }] hs ?_ (by simp) (fun _ => rfl) ?_
    (by simp) rfl ?_ rfl ⟨hheader, trivial⟩ ?_
  · exact ⟨by simp [Ordered], by simp [Block.finish]⟩
  · simp only [List.mem_singleton, forall_eq]
    exact ⟨hfits.addr_mod, hfits.size_mod, hfits.low, hfits.addr_lt, hfits.high⟩
  · split
    · exact (hs.eq_last_iff.mpr ‹_›).symm
    · rfl
  · intro x hx
    refine onlyHeader_setUsed flag x ?_
    by_contra hin
    exact hx ⟨_, List.mem_singleton_self _, by simp only; omega⟩

/-- What `split_block` writes: the header of the new block behind the first `size` bytes of
the payload, then the size and the link of the old one. -/
theorem splitBlock_eq {next size a : Nat} (hb : HeaderAt h.mem b next) (ha : b.addr + 16 + size = a)
    (hroom : size + 32 ≤ b.size) (hbound : b.finish 16 ≤ 2 ^ 32) :
    ∃ m, splitBlock h b.addr size =
        { h with mem := m, heapEnd := if b.addr = h.heapEnd then a else h.heapEnd } ∧
      HeaderAt m { b with size := size } a ∧ HeaderAt m ⟨a, b.size - size - 16, false⟩ next ∧
      ∀ x, (x < b.addr ∨ b.addr + 16 ≤ x) → (x < a ∨ a + 16 ≤ x) → m x = h.mem x := by
  rw [Block.finish] at hbound
  have hlt : next < 2 ^ 32 := hb.next ▸ load32_lt _ _
  have hmagic : OnlyHeader a h.mem (setMagic h.mem a heapMagic) := onlyHeader_setMagic _
  have hrest : Word32.sub (Word32.sub (blockSize (setMagic h.mem a heapMagic) b.addr) size)
      heapBlockSize = b.size - size - 16 := by
    rw [(hb.congr (hmagic.sameOn (by omega))).size,
      Word32.sub_of_le (show size ≤ b.size by omega) (by omega), heapBlockSize,
      Word32.sub_of_le (by omega) (by omega)]
  have hsized := hmagic.trans (onlyHeader_setSize (b.size - size - 16))
  have hlink := (hb.congr (hsized.sameOn (by omega))).next
  have hnew := (headerAt_fresh h.mem a (show b.size - size - 16 < 2 ^ 32 by omega) hlt).setUsed 0
  have honly := (hsized.trans (onlyHeader_setNext next)).trans (onlyHeader_setUsed 0)
  have hold := ((hb.congr (honly.sameOn (by omega))).setSize (show size < 2 ^ 32 by omega)).setNext
    (show a < 2 ^ 32 by omega)
  generalize hm : setUsed (setNext (setSize (setMagic h.mem a heapMagic) a (b.size - size - 16)) a
    next) a 0 = m at hnew honly hold
  have honly' : OnlyHeader b.addr m (setNext (setSize m b.addr size) b.addr a) :=
    (onlyHeader_setSize size).trans (onlyHeader_setNext a)
  refine ⟨_, ?_, hold, hnew.congr (honly'.sameOn (by simp only; omega)), ?_⟩
  · have hwrap : Word32.wrap (b.addr + heapBlockSize + size) = a := by
      rw [heapBlockSize, ha, Word32.wrap_of_lt (by omega)]
    rw [splitBlock, hwrap, hrest, hlink, hm]
  · exact fun x hx hx' => (honly' x hx).trans (honly x hx')

/-- The blocks after the rest of a block has been split off where it is large enough. -/
def trim (b : Block) (size : Nat) : List Block :=
  if size + 32 ≤ b.size then split 16 b size else [b]

/-- A block handed out for `size` bytes: it is trimmed, and the part in front is in use. -/
def claim (b : Block) (size : Nat) : List Block :=
  (trim b size).modifyHead fun c => { c with used := true }

/-- Splitting a block, or leaving it where the rest is too small. -/
theorem Heap.Shows.trim (hs : h.Shows top (l₁ ++ b :: l₂)) {size : Nat} (hmod : size % 16 = 0)
    (hsize : size ≤ b.size) :
    (trimBlock h b.addr size).Shows top (l₁ ++ (trim b size ++ l₂)) ∧
      (trimBlock h b.addr size).pages = h.pages ∧
      ∀ x, ¬ InHeaders (Mm.trim b size) x → (trimBlock h b.addr size).mem x = h.mem x := by
  have hfits := hs.block_fits
  have htop := hs.top_le
  have hhigh := hfits.high
  have hlow := hfits.low
  have haddr := hfits.addr_mod
  have hbmod := hfits.size_mod
  rw [Block.finish] at hhigh
  have hwrap : Word32.wrap (size + heapBlockSize + heapAlignment) = size + 32 :=
    Word32.wrap_of_lt (by simp only [heapBlockSize, heapAlignment]; omega)
  rw [trimBlock, hwrap, hs.header.size, Mm.trim]
  by_cases hroom : size + 32 ≤ b.size
  · rw [if_pos hroom, if_pos hroom]
    obtain ⟨m, heq, hold, hnew, hframe⟩ := splitBlock_eq hs.header rfl hroom
      (by rw [Block.finish]; omega)
    rw [heq]
    have hmem : ∀ x, ¬ InHeaders (split 16 b size) x → m x = h.mem x := by
      intro x hx
      apply hframe
      · by_contra hin
        exact hx ⟨{ b with size := size }, by simp [split], by simp only; omega⟩
      · by_contra hin
        exact hx ⟨⟨b.addr + 16 + size, b.size - size - 16, false⟩, by simp [split],
          by simp only; omega⟩
    refine ⟨Heap.Shows.edit _ hs (split_within (by omega)) (by simp [split]) (fun _ => rfl) ?_
      (total_split (by omega)) rfl ?_ rfl ⟨hold, hnew, trivial⟩ hmem, rfl, hmem⟩
    · simp only [split, List.mem_cons, List.not_mem_nil, or_false, forall_eq_or_imp, forall_eq]
      refine ⟨⟨haddr, hmod, hlow, hfits.addr_lt, ?_⟩, ⟨?_, ?_, ?_, ?_, ?_⟩⟩ <;>
        simp only [Block.finish] <;> omega
    · simp only [hs.eq_last_iff]
      rfl
  · rw [if_neg hroom, if_neg hroom]
    exact ⟨hs, rfl, fun _ _ => rfl⟩

end Blocks

end HolyOs.Mm
