import HolyOs.Mm.HeapOps

/-!
# The heap as a list of blocks

What the calls of the heap are for, on the block list alone: a request takes the first free
block that is large enough, after new blocks have been added behind the others if there is
none; a released block is coalesced with its neighbours; a block shrinks in place, or moves.
Nothing here reads memory, so the list after a call and its result depend on the list before it
and on the new blocks only.

The calls on memory do the same; their specifications say so.
-/
namespace HolyOs.Mm

open BlockList HolyOs.Lib

/-- The number of pages that `heap_expand` asks for. -/
def expandPages (size : Nat) : Nat :=
  Word32.wrap (Word32.wrap (size + heapBlockSize) + heapExpandSize - 1) / heapExpandSize

/-- A pointer that no used block of the list has. -/
def Fresh (l : List Block) (ptr : Nat) : Prop := ∀ b ∈ l, b.used = true → b.addr + 16 ≠ ptr

/-- The block of the list with the pointer `ptr`. -/
structure BlockAt (l : List Block) (ptr : Nat) (b : Block) : Prop where
  mem : b ∈ l
  ptr : b.addr + 16 = ptr

/-- A used block of at least the given size with the pointer `ptr`. -/
structure Holds (l : List Block) (ptr size : Nat) (b : Block) : Prop where
  mem : b ∈ l
  used : b.used = true
  ptr : b.addr + 16 = ptr
  size : size ≤ b.size

theorem Holds.blockAt {l : List Block} {ptr size : Nat} {b : Block} (h : Holds l ptr size b) :
    BlockAt l ptr b := { h with }

/-- A block handed out for `n` bytes. The rest of it was too small to be split off. -/
structure Serves (l : List Block) (ptr n : Nat) (b : Block) : Prop extends Holds l ptr n b where
  tight : b.size < n + 32

namespace BlockHeap

/-- The first free block of at least `size` bytes. -/
def firstFit (l : List Block) (size : Nat) : Option Block :=
  l.find? fun b => !b.used && decide (size ≤ b.size)

/-- The pointer of the first fitting block, and the list with this block claimed. -/
def claimFirst (l : List Block) (size : Nat) : Option (Nat × List Block) :=
  (firstFit l size).map fun b => (b.addr + 16, editAt b.addr (claim · size) l)

/-- `kmalloc`, with the blocks it adds when the list has no room. -/
def kmalloc (l new : List Block) (n : Nat) : Nat × List Block :=
  if n = 0 then (0, l)
  else
    match claimFirst l (alignSize n) with
    | some r => r
    | none => (claimFirst (l ++ new) (alignSize n)).getD (0, l ++ new)

def kfree (l : List Block) (ptr : Nat) : List Block :=
  if ptr = 0 then l
  else coalesce 16 (editAt (ptr - 16) (fun b => [{ b with used := false }]) l)

/-- The size of the block at an address. -/
def sizeAt (l : List Block) (addr : Nat) : Nat :=
  ((l.find? fun b => b.addr = addr).map Block.size).getD 0

def krealloc (l new : List Block) (ptr n : Nat) : Nat × List Block :=
  if ptr = 0 then kmalloc l new n
  else if n = 0 then (0, kfree l ptr)
  else if alignSize n ≤ sizeAt l (ptr - 16) then
    (ptr, editAt (ptr - 16) (trim · (alignSize n)) l)
  else
    let r := kmalloc l new (alignSize n)
    if r.1 = 0 then r else (r.1, kfree r.2 ptr)

/-- The number of pages that `kmalloc` asks for: none if the list has room. -/
def wantedPages (l : List Block) (n : Nat) : Nat :=
  if n = 0 ∨ (firstFit l (alignSize n)).isSome then 0
  else expandPages (Word32.wrap (alignSize n + heapBlockSize))

/-- The number of pages that `krealloc` of a block asks for. -/
def wantedToMove (l : List Block) (ptr n : Nat) : Nat :=
  if n = 0 ∨ alignSize n ≤ sizeAt l (ptr - 16) then 0 else wantedPages l (alignSize n)

/-! ## Claiming -/

section Claim

variable {l new : List Block} {b c : Block} {size n : Nat}

theorem firstFit_cases (l : List Block) (size : Nat) :
    (∃ b ∈ l, b.used = false ∧ size ≤ b.size ∧ firstFit l size = some b) ∨
      firstFit l size = none ∧ ¬ Room l size := by
  cases hfind : firstFit l size with
  | none =>
    refine .inr ⟨rfl, ?_⟩
    rintro ⟨b, hb, hfree, hsize⟩
    exact List.find?_eq_none.mp hfind b hb (by simp [hfree, hsize])
  | some b =>
    have htest := List.find?_some hfind
    simp only [Bool.and_eq_true, Bool.not_eq_true', decide_eq_true_eq] at htest
    exact .inl ⟨b, List.mem_of_find?_eq_some hfind, htest.1, htest.2, rfl⟩

/-- The front part of a claimed block serves the request. -/
theorem claim_eq_cons (h : size ≤ b.size) : ∃ s rest,
    trim b size = { b with size := s } :: rest ∧
      claim b size = { b with size := s, used := true } :: rest ∧ size ≤ s ∧ s < size + 32 ∧
      ∀ c ∈ rest, c.used = false := by
  rw [claim, trim]
  split
  · exact ⟨size, _, rfl, rfl, Nat.le_refl _, by omega, by simp⟩
  · exact ⟨b.size, [], rfl, rfl, h, by omega, by simp⟩

theorem trim_inside :
    ∀ c ∈ trim b size, b.addr ≤ c.addr ∧ c.finish 16 ≤ b.finish 16 := by
  rw [trim]
  split
  · exact (split_within (by omega)).inside
  · simp

theorem claim_inside :
    ∀ c ∈ claim b size, b.addr ≤ c.addr ∧ c.finish 16 ≤ b.finish 16 := by
  have hin : ∀ c ∈ trim b size, b.addr ≤ c.addr ∧ c.finish 16 ≤ b.finish 16 := trim_inside
  rw [claim]
  cases htrim : trim b size with
  | nil => simp
  | cons d rest =>
    rw [htrim] at hin
    rw [List.modifyHead_cons]
    intro c hc
    rcases List.mem_cons.mp hc with rfl | hc
    · exact hin d (by simp)
    · exact hin c (by simp [hc])

/-- What a successful search makes of the list: a free block is claimed. -/
theorem claimFirst_cases (l : List Block) (size : Nat) :
    (∃ b ∈ l, b.used = false ∧ size ≤ b.size ∧
      claimFirst l size = some (b.addr + 16, editAt b.addr (claim · size) l)) ∨
      claimFirst l size = none ∧ ¬ Room l size := by
  unfold claimFirst
  rcases firstFit_cases l size with ⟨b, hb, hfree, hsize, hfit⟩ | ⟨hfit, hfull⟩
  · exact .inl ⟨b, hb, hfree, hsize, by rw [hfit]; rfl⟩
  · exact .inr ⟨by rw [hfit]; rfl, hfull⟩

/-- What `kmalloc` makes of the list: nothing, or a free block is claimed, or the new blocks are
added and there is no room, or one of the blocks is claimed then. -/
theorem kmalloc_cases (l new : List Block) (n : Nat) :
    (n = 0 ∧ kmalloc l new n = (0, l)) ∨
    (n ≠ 0 ∧ ∃ k, (k = l ∧ Room l (alignSize n) ∨ k = l ++ new ∧ ¬ Room l (alignSize n)) ∧
      ((∃ b ∈ k, b.used = false ∧ alignSize n ≤ b.size ∧
        kmalloc l new n = (b.addr + 16, editAt b.addr (claim · (alignSize n)) k)) ∨
        ¬ Room k (alignSize n) ∧ kmalloc l new n = (0, k))) := by
  unfold kmalloc
  by_cases hn : n = 0
  · exact .inl ⟨hn, if_pos hn⟩
  · rw [if_neg hn]
    refine .inr ⟨hn, ?_⟩
    rcases claimFirst_cases l (alignSize n) with ⟨b, hb, hfree, hsize, hclaim⟩ | ⟨hclaim, hfull⟩
    · rw [hclaim]
      exact ⟨l, .inl ⟨rfl, b, hb, hfree, hsize⟩, .inl ⟨b, hb, hfree, hsize, rfl⟩⟩
    · rw [hclaim]
      refine ⟨l ++ new, .inr ⟨rfl, hfull⟩, ?_⟩
      rcases claimFirst_cases (l ++ new) (alignSize n) with
        ⟨b, hb, hfree, hsize, hclaim'⟩ | ⟨hclaim', hfull'⟩
      · exact .inl ⟨b, hb, hfree, hsize, by rw [hclaim']; rfl⟩
      · exact .inr ⟨hfull', by rw [hclaim']; rfl⟩

/-- A block that is too small for the request is not claimed. -/
theorem mem_kmalloc_of_lt (hordered : Ordered 16 (l ++ new)) (hb : b ∈ l)
    (hsize : b.size < alignSize n) : b ∈ (kmalloc l new n).2 := by
  rcases kmalloc_cases l new n with ⟨-, hr⟩ | ⟨-, k, hk, hresult⟩
  · rw [hr]
    exact hb
  · have hsearched : Ordered 16 k ∧ b ∈ k := by
      rcases hk with ⟨rfl, -⟩ | ⟨rfl, -⟩
      · exact ⟨(List.pairwise_append.mp hordered).1, hb⟩
      · exact ⟨hordered, List.mem_append_left _ hb⟩
    rcases hresult with ⟨c, hc, -, hlarge, hr⟩ | ⟨-, hr⟩
    · rw [hr]
      refine mem_editAt.mpr (.inl ⟨hsearched.2, fun haddr => ?_⟩)
      obtain rfl := hsearched.1.eq_of_addr (by omega) hsearched.2 hc haddr
      omega
    · rw [hr]
      exact hsearched.2

theorem serves_claim (hb : b ∈ l) (hsize : size ≤ b.size) :
    ∃ c, Serves (editAt b.addr (claim · size) l) (b.addr + 16) size c := by
  obtain ⟨s, rest, -, hclaim, hle, htight, -⟩ := claim_eq_cons hsize
  refine ⟨{ b with size := s, used := true }, ⟨?_, rfl, rfl, hle⟩, htight⟩
  exact mem_editAt.mpr (.inr ⟨b, hb, rfl, by simp [hclaim]⟩)

theorem fresh_of_free (hl : Ordered 16 l) (hb : b ∈ l) (hfree : b.used = false) :
    Fresh l (b.addr + 16) := by
  intro c hc hused heq
  obtain rfl := hl.eq_of_addr (by omega) hc hb (by omega)
  simp [hfree] at hused

theorem sizeAt_eq (hl : Ordered 16 l) (hb : b ∈ l) : sizeAt l b.addr = b.size := by
  cases hfind : l.find? fun c => c.addr = b.addr with
  | none =>
    have hother := List.find?_eq_none.mp hfind b hb
    simp at hother
  | some c =>
    have haddr : c.addr = b.addr := by simpa using List.find?_some hfind
    obtain rfl := hl.eq_of_addr (by omega) (List.mem_of_find?_eq_some hfind) hb haddr
    rw [sizeAt, hfind]
    rfl

/-- What the calls make of a list whose bytes, those of the new blocks included, satisfy `P`. -/
theorem liesIn_kmalloc {P : Nat → Prop} (hl : LiesIn 16 P l) (hnew : LiesIn 16 P new) (n : Nat) :
    LiesIn 16 P (kmalloc l new n).2 := by
  rcases kmalloc_cases l new n with ⟨-, hr⟩ | ⟨-, k, hk, hresult⟩
  · rw [hr]
    exact hl
  · have hlies : LiesIn 16 P k := by
      rcases hk with ⟨rfl, -⟩ | ⟨rfl, -⟩
      · exact hl
      · exact hl.append hnew
    rcases hresult with ⟨b, -, -, -, hr⟩ | ⟨-, hr⟩
    · rw [hr]
      exact hlies.editAt fun _ _ _ => claim_inside
    · rw [hr]
      exact hlies

theorem liesIn_kfree {P : Nat → Prop} (hl : LiesIn 16 P l) {ptr : Nat}
    (htouch : ptr ≠ 0 → FreeTouch 16 (editAt (ptr - 16) (fun b => [{ b with used := false }]) l)) :
    LiesIn 16 P (kfree l ptr) := by
  unfold kfree
  split_ifs with hptr
  · exact hl
  · refine (hl.editAt fun b _ _ c hc => ?_).coalesce (htouch hptr)
    obtain rfl := List.mem_singleton.mp hc
    exact ⟨Nat.le_refl _, Nat.le_refl _⟩

theorem liesIn_krealloc {P : Nat → Prop} (hl : LiesIn 16 P l) (hnew : LiesIn 16 P new)
    {ptr : Nat} (hfree : ptr ≠ 0 → n = 0 →
      FreeTouch 16 (editAt (ptr - 16) (fun b => [{ b with used := false }]) l))
    (hmove : ptr ≠ 0 → n ≠ 0 → sizeAt l (ptr - 16) < alignSize n →
      (kmalloc l new (alignSize n)).1 ≠ 0 → FreeTouch 16
        (editAt (ptr - 16) (fun b => [{ b with used := false }]) (kmalloc l new (alignSize n)).2)) :
    LiesIn 16 P (krealloc l new ptr n).2 := by
  unfold krealloc
  dsimp only
  split_ifs with hptr hn hfits hr
  · exact liesIn_kmalloc hl hnew n
  · exact liesIn_kfree hl fun _ => hfree hptr hn
  · exact hl.editAt fun _ _ _ => trim_inside
  · exact liesIn_kmalloc hl hnew _
  · exact liesIn_kfree (liesIn_kmalloc hl hnew _) fun _ => hmove hptr hn (by omega) hr

/-! ## Where used blocks come from -/

theorem used_of_trim (hc : c ∈ trim b size) (hused : c.used = true) : c.addr = b.addr := by
  rw [trim] at hc
  split_ifs at hc
  · simp only [split, List.mem_cons, List.not_mem_nil, or_false] at hc
    rcases hc with rfl | rfl
    · rfl
    · cases hused
  · rw [List.mem_singleton.mp hc]

theorem used_of_claim (hc : c ∈ claim b size) (hused : c.used = true) : c.addr = b.addr := by
  rw [claim, trim] at hc
  split_ifs at hc
  · simp only [split, List.modifyHead_cons, List.mem_cons, List.not_mem_nil, or_false] at hc
    rcases hc with rfl | rfl
    · rfl
    · cases hused
  · rw [List.modifyHead_cons] at hc
    rw [List.mem_singleton.mp hc]

theorem used_of_kmalloc (hc : c ∈ (kmalloc l new n).2) (hused : c.used = true) :
    c ∈ l ∨ c ∈ new ∨ c.addr + 16 = (kmalloc l new n).1 := by
  rcases kmalloc_cases l new n with ⟨-, hr⟩ | ⟨-, k, hk, hresult⟩
  · rw [hr] at hc
    exact .inl hc
  · have hsearched : c ∈ k → c ∈ l ∨ c ∈ new := by
      rcases hk with ⟨rfl, -⟩ | ⟨rfl, -⟩
      · exact .inl
      · exact List.mem_append.mp
    rcases hresult with ⟨b, -, -, -, hr⟩ | ⟨-, hr⟩
    · rw [hr] at hc ⊢
      rcases mem_editAt.mp hc with ⟨hc, -⟩ | ⟨d, -, haddr, hc⟩
      · exact (hsearched hc).imp_right .inl
      · exact .inr (.inr (by rw [used_of_claim hc hused, haddr]))
    · rw [hr] at hc
      exact (hsearched hc).imp_right .inl

theorem used_of_kfree {ptr : Nat} (hc : c ∈ kfree l ptr) (hused : c.used = true) :
    c ∈ l ∧ c.addr + 16 ≠ ptr := by
  unfold kfree at hc
  split_ifs at hc with hptr
  · exact ⟨hc, by omega⟩
  · rw [mem_coalesce_of_used hused] at hc
    rcases mem_editAt.mp hc with ⟨hc, haddr⟩ | ⟨d, -, -, hc⟩
    · exact ⟨hc, by omega⟩
    · obtain rfl := List.mem_singleton.mp hc
      cases hused

/-- A used block was on the list or is new, or has the pointer that is returned. -/
theorem used_of_krealloc {ptr : Nat} (hlow : ptr ≠ 0 → 16 ≤ ptr) (hc : c ∈ (krealloc l new ptr n).2)
    (hused : c.used = true) : c.addr + 16 = (krealloc l new ptr n).1 ∨
      (c ∈ l ∨ c ∈ new) ∧
        (c.addr + 16 ≠ ptr ∨ (krealloc l new ptr n).1 = 0 ∧ n ≠ 0) := by
  unfold krealloc at hc ⊢
  dsimp only at hc ⊢
  split_ifs at hc ⊢ with hptr hn hfits hr
  · rcases used_of_kmalloc hc hused with hc | hc | hc
    · exact .inr ⟨.inl hc, .inl (by omega)⟩
    · exact .inr ⟨.inr hc, .inl (by omega)⟩
    · exact .inl hc
  · obtain ⟨hc, hne⟩ := used_of_kfree hc hused
    exact .inr ⟨.inl hc, .inl hne⟩
  · have hlow := hlow hptr
    rcases mem_editAt.mp hc with ⟨hc, haddr⟩ | ⟨d, -, haddr, hc⟩
    · exact .inr ⟨.inl hc, .inl (by omega)⟩
    · exact .inl (by rw [used_of_trim hc hused]; omega)
  · rcases used_of_kmalloc hc hused with hc | hc | hc
    · exact .inr ⟨.inl hc, .inr ⟨hr, hn⟩⟩
    · exact .inr ⟨.inr hc, .inr ⟨hr, hn⟩⟩
    · exact .inl hc
  · obtain ⟨hc, hne⟩ := used_of_kfree hc hused
    rcases used_of_kmalloc hc hused with hc | hc | hc
    · exact .inr ⟨.inl hc, .inl hne⟩
    · exact .inr ⟨.inr hc, .inl hne⟩
    · exact .inl hc

theorem wantedPages_of_full (hn : n ≠ 0) (hfull : ¬ Room l (alignSize n)) :
    wantedPages l n = expandPages (Word32.wrap (alignSize n + heapBlockSize)) := by
  rcases firstFit_cases l (alignSize n) with ⟨b, hb, hfree, hsize, -⟩ | ⟨hfit, -⟩
  · exact absurd ⟨b, hb, hfree, hsize⟩ hfull
  · simp [wantedPages, hn, hfit]

end Claim

end BlockHeap

end HolyOs.Mm
