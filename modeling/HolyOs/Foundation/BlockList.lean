import Mathlib.Algebra.GroupWithZero.Nat
import Mathlib.Algebra.Order.BigOperators.Group.List
import Mathlib.Data.List.Chain

/-!
# Lists of memory blocks

A block is a header of a fixed length followed by its payload. A heap is a list of blocks in
the order of their addresses, possibly with gaps. This file has the operations an allocator
makes on such a list: replacing one block by several in its place, and coalescing adjacent
free blocks. Each of them keeps the order, the total length and the used blocks.
-/
namespace BlockList

structure Block where
  addr : Nat
  size : Nat
  used : Bool
deriving DecidableEq, Repr

/-- The first address after a block with a header of length `hdr`. -/
def Block.finish (hdr : Nat) (b : Block) : Nat := b.addr + hdr + b.size

/-- The blocks follow each other without overlap. -/
def Ordered (hdr : Nat) (l : List Block) : Prop := l.Pairwise fun a b => a.finish hdr ≤ b.addr

/-- The headers do not overlap; nothing is said about the order. -/
def Apart (hdr : Nat) (l : List Block) : Prop :=
  l.Pairwise fun a b => a.addr + hdr ≤ b.addr ∨ b.addr + hdr ≤ a.addr

/-- The length of all headers and payloads. -/
def total (hdr : Nat) (l : List Block) : Nat := (l.map fun b => b.size + hdr).sum

/-- The address of the first block, or `z` if there is none. -/
def firstAddr : List Block → Nat → Nat
  | [], z => z
  | b :: _, _ => b.addr

/-- The address of the last block. -/
def lastAddr : List Block → Nat
  | [] => 0
  | [b] => b.addr
  | _ :: c :: l => lastAddr (c :: l)

section Basic

variable {hdr : Nat} {b c : Block} {l l₁ l₂ : List Block}

@[simp] theorem total_nil : total hdr [] = 0 := rfl

@[simp] theorem total_cons : total hdr (b :: l) = b.size + hdr + total hdr l := by
  simp [total]

@[simp] theorem total_append : total hdr (l₁ ++ l₂) = total hdr l₁ + total hdr l₂ := by
  simp [total]

/-- The headers alone fit into the total. -/
theorem length_le_total (hdr : Nat) (l : List Block) : hdr * l.length ≤ total hdr l := by
  induction l with
  | nil => simp
  | cons b l ih =>
    rw [List.length_cons, Nat.mul_succ, total_cons]
    omega

@[simp] theorem firstAddr_nil (z : Nat) : firstAddr [] z = z := rfl

@[simp] theorem firstAddr_cons (z : Nat) : firstAddr (b :: l) z = b.addr := rfl

theorem firstAddr_append (z : Nat) :
    firstAddr (l₁ ++ l₂) z = firstAddr l₁ (firstAddr l₂ z) := by
  cases l₁ <;> rfl

@[simp] theorem lastAddr_singleton : lastAddr [b] = b.addr := rfl

theorem lastAddr_append (h : l₂ ≠ []) : lastAddr (l₁ ++ l₂) = lastAddr l₂ := by
  induction l₁ with
  | nil => rfl
  | cons b l₁ ih =>
    cases hl : l₁ ++ l₂ with
    | nil => simp_all
    | cons c l => rw [List.cons_append, hl, lastAddr, ← hl, ih]

theorem lastAddr_cons (h : l ≠ []) : lastAddr (b :: l) = lastAddr l := by
  cases l with
  | nil => exact absurd rfl h
  | cons c l => rfl

theorem exists_last (h : l ≠ []) : ∃ init b, l = init ++ [b] ∧ lastAddr l = b.addr := by
  refine ⟨l.dropLast, l.getLast h, (List.dropLast_append_getLast h).symm, ?_⟩
  conv_lhs => rw [← List.dropLast_append_getLast h]
  rw [lastAddr_append (by simp), lastAddr_singleton]

theorem Ordered.tail (h : Ordered hdr (b :: l)) : Ordered hdr l := (List.pairwise_cons.mp h).2

theorem Ordered.head_le (h : Ordered hdr (b :: l)) (hc : c ∈ l) : b.finish hdr ≤ c.addr :=
  (List.pairwise_cons.mp h).1 c hc

theorem Ordered.apart (h : Ordered hdr l) : Apart hdr l :=
  h.imp fun hle => .inl (by rw [Block.finish] at hle; omega)

/-- Any two blocks of the list are apart, whichever comes first. -/
theorem Apart.of_mem (h : Apart hdr l) (hb : b ∈ l) (hc : c ∈ l) (hne : b ≠ c) :
    b.addr + hdr ≤ c.addr ∨ c.addr + hdr ≤ b.addr := by
  have hsymm : Std.Symm fun a b : Block => a.addr + hdr ≤ b.addr ∨ b.addr + hdr ≤ a.addr :=
    ⟨fun _ _ => Or.symm⟩
  exact List.Pairwise.forall h hb hc hne

/-- Only the addresses matter. -/
theorem Apart.of_addrs {k : List Block} (h : Apart hdr l)
    (hsub : (k.map Block.addr).Sublist (l.map Block.addr)) : Apart hdr k := by
  have haddrs : (l.map Block.addr).Pairwise fun a b => a + hdr ≤ b ∨ b + hdr ≤ a :=
    List.pairwise_map.mpr h
  exact List.pairwise_map.mp (haddrs.sublist hsub)

/-- Two blocks of an ordered list are the same or do not overlap. -/
theorem Ordered.disjoint (h : Ordered hdr l) (hb : b ∈ l) (hc : c ∈ l) :
    b = c ∨ b.finish hdr ≤ c.addr ∨ c.finish hdr ≤ b.addr := by
  induction l with
  | nil => cases hb
  | cons d l ih =>
    rcases List.mem_cons.mp hb with rfl | hb' <;> rcases List.mem_cons.mp hc with rfl | hc'
    · exact .inl rfl
    · exact .inr (.inl (h.head_le hc'))
    · exact .inr (.inr (h.head_le hb'))
    · exact ih h.tail hb' hc'

/-- Blocks are determined by their addresses. -/
theorem Ordered.eq_of_addr (h : Ordered hdr l) (hpos : 0 < hdr) (hb : b ∈ l) (hc : c ∈ l)
    (heq : b.addr = c.addr) : b = c := by
  rcases h.disjoint hb hc with hsame | hle | hle
  · exact hsame
  · rw [Block.finish] at hle
    omega
  · rw [Block.finish] at hle
    omega

/-- An ordered list fits between its first address and any bound on its ends. -/
theorem Ordered.total_le {top : Nat} (h : Ordered hdr (b :: l))
    (htop : ∀ c ∈ b :: l, c.finish hdr ≤ top) : b.addr + total hdr (b :: l) ≤ top := by
  induction l generalizing b with
  | nil =>
    have := htop b (by simp)
    simp only [Block.finish, total_cons, total_nil] at this ⊢
    omega
  | cons c l ih =>
    have hrest := ih h.tail fun d hd => htop d (List.mem_cons_of_mem _ hd)
    have hnext := h.head_le (List.mem_cons_self (a := c) (l := l))
    rw [total_cons]
    rw [Block.finish] at hnext
    omega

end Basic

/-! ## Replacing a block in place -/

section Replace

variable {hdr : Nat} {b : Block} {l₁ l₂ new : List Block}

/-- Blocks in the place of `b`: ordered, and inside the range of `b`. -/
structure Within (hdr : Nat) (new : List Block) (b : Block) : Prop where
  ordered : Ordered hdr new
  inside : ∀ c ∈ new, b.addr ≤ c.addr ∧ c.finish hdr ≤ b.finish hdr

theorem Ordered.replace (h : Ordered hdr (l₁ ++ b :: l₂)) (hnew : Within hdr new b) :
    Ordered hdr (l₁ ++ (new ++ l₂)) := by
  obtain ⟨hleft, hright, hcross⟩ := List.pairwise_append.mp h
  obtain ⟨hafter, hrest⟩ := List.pairwise_cons.mp hright
  refine List.pairwise_append.mpr ⟨hleft, List.pairwise_append.mpr ⟨hnew.ordered, hrest, ?_⟩, ?_⟩
  · intro c hc d hd
    exact (hnew.inside c hc).2.trans (hafter d hd)
  · intro c hc d hd
    rcases List.mem_append.mp hd with hd | hd
    · exact (hcross c hc b (by simp)).trans (hnew.inside d hd).1
    · exact hcross c hc d (by simp [hd])

/-- The two blocks a block is split into, the first of the given size. -/
def split (hdr : Nat) (b : Block) (size : Nat) : List Block :=
  [{ b with size := size }, ⟨b.addr + hdr + size, b.size - size - hdr, false⟩]

theorem split_within {size : Nat} (h : size + hdr ≤ b.size) : Within hdr (split hdr b size) b where
  ordered := by
    simp [Ordered, split, Block.finish]
  inside := by
    simp only [split, List.mem_cons, List.not_mem_nil, or_false, forall_eq_or_imp, forall_eq,
      Block.finish]
    omega

theorem total_split {size : Nat} (h : size + hdr ≤ b.size) :
    total hdr (split hdr b size) = b.size + hdr := by
  simp only [split, total_cons, total_nil]
  omega

end Replace

/-! ## Coalescing -/

/-- Absorb free blocks into the free block before them, in one pass with current block `b`. -/
def coalesceFrom (hdr : Nat) (b : Block) : List Block → List Block
  | [] => [b]
  | c :: l =>
    if b.used = false ∧ c.used = false then
      coalesceFrom hdr { b with size := b.size + (hdr + c.size) } l
    else b :: coalesceFrom hdr c l

def coalesce (hdr : Nat) : List Block → List Block
  | [] => []
  | b :: l => coalesceFrom hdr b l

section Coalesce

variable {hdr : Nat} {b c : Block} {l : List Block}

/-- Absorbing the next block keeps the order. -/
theorem Ordered.absorb (h : Ordered hdr (b :: c :: l)) :
    Ordered hdr ({ b with size := b.size + (hdr + c.size) } :: l) := by
  have hnext := h.head_le (List.mem_cons_self (a := c) (l := l))
  refine List.pairwise_cons.mpr ⟨fun d hd => ?_, h.tail.tail⟩
  have hd' := h.tail.head_le hd
  simp only [Block.finish] at hnext hd' ⊢
  omega

theorem Apart.absorb (h : Apart hdr (b :: c :: l)) (size : Nat) :
    Apart hdr ({ b with size := size } :: l) :=
  h.of_addrs (.cons_cons _ (.cons _ (.refl _)))

theorem total_absorb : total hdr ({ b with size := b.size + (hdr + c.size) } :: l) =
    total hdr (b :: c :: l) := by
  simp only [total_cons]
  omega

/-- The current block stays in front and takes in what is absorbed. The blocks behind it start where
blocks of the list did. -/
theorem coalesceFrom_eq_cons (hdr : Nat) (b : Block) (l : List Block) :
    ∃ size rest, coalesceFrom hdr b l = { b with size := size } :: rest ∧
      ∀ c ∈ rest, ∃ d ∈ l, c.addr = d.addr := by
  fun_induction coalesceFrom hdr b l with
  | case1 b => exact ⟨b.size, [], rfl, by simp⟩
  | case2 b c l hfree ih =>
    obtain ⟨size, rest, heq, hrest⟩ := ih
    exact ⟨size, rest, heq, by grind⟩
  | case3 b c l hfree ih =>
    obtain ⟨size, rest, heq, hrest⟩ := ih
    exact ⟨b.size, _, rfl, by grind⟩

/-- The blocks that are left start where they did, in the same order. -/
theorem addrs_coalesceFrom :
    ((coalesceFrom hdr b l).map Block.addr).Sublist ((b :: l).map Block.addr) := by
  fun_induction coalesceFrom hdr b l with
  | case1 b => exact .refl _
  | case2 b c l hfree ih => exact ih.trans (.cons_cons _ (.cons _ (.refl _)))
  | case3 b c l hkeep ih => exact .cons_cons _ ih

theorem addrs_coalesce : ((coalesce hdr l).map Block.addr).Sublist (l.map Block.addr) := by
  cases l with
  | nil => exact .refl _
  | cons b l => exact addrs_coalesceFrom

theorem exists_addr_of_mem_coalesce (hc : c ∈ coalesce hdr l) : ∃ d ∈ l, d.addr = c.addr :=
  List.mem_map.mp (addrs_coalesce.subset (List.mem_map_of_mem hc))

theorem coalesceFrom_ne_nil : coalesceFrom hdr b l ≠ [] := by
  obtain ⟨size, rest, heq, -⟩ := coalesceFrom_eq_cons hdr b l
  simp [heq]

@[simp] theorem firstAddr_coalesceFrom (z : Nat) :
    firstAddr (coalesceFrom hdr b l) z = b.addr := by
  obtain ⟨size, rest, heq, -⟩ := coalesceFrom_eq_cons hdr b l
  rw [heq, firstAddr_cons]

theorem total_coalesceFrom : total hdr (coalesceFrom hdr b l) = total hdr (b :: l) := by
  induction l generalizing b with
  | nil => rfl
  | cons c l ih =>
    rw [coalesceFrom]
    split
    · rw [ih, total_absorb]
    · rw [total_cons, ih]
      simp only [total_cons]

/-- A property of blocks that merging keeps holds after coalescing. -/
theorem forall_coalesceFrom {P : Block → Prop}
    (hmerge : ∀ {x y : Block}, P x → P y → x.finish hdr ≤ y.addr →
      P { x with size := x.size + (hdr + y.size) })
    (hord : Ordered hdr (b :: l)) (h : ∀ c ∈ b :: l, P c) : ∀ c ∈ coalesceFrom hdr b l, P c := by
  induction l generalizing b with
  | nil => exact h
  | cons c l ih =>
    have hnext := hord.head_le (List.mem_cons_self (a := c) (l := l))
    rw [coalesceFrom]
    split
    · apply ih hord.absorb
      · intro d hd
        rcases List.mem_cons.mp hd with rfl | hd
        · exact hmerge (h b (by simp)) (h c (by simp)) hnext
        · exact h d (by simp [hd])
    · intro d hd
      rcases List.mem_cons.mp hd with rfl | hd
      · exact h d (by simp)
      · exact ih hord.tail (fun e he => h e (by simp [he])) d hd

theorem ordered_coalesceFrom (h : Ordered hdr (b :: l)) : Ordered hdr (coalesceFrom hdr b l) := by
  induction l generalizing b with
  | nil => exact h
  | cons c l ih =>
    have hnext := h.head_le (List.mem_cons_self (a := c) (l := l))
    rw [coalesceFrom]
    split
    · exact ih h.absorb
    · refine List.pairwise_cons.mpr ⟨?_, ih h.tail⟩
      have hlow : ∀ d ∈ coalesceFrom hdr c l, c.addr ≤ d.addr := by
        refine forall_coalesceFrom (P := fun d => c.addr ≤ d.addr) (fun hx _ _ => hx) h.tail ?_
        intro d hd
        rcases List.mem_cons.mp hd with rfl | hd
        · exact Nat.le_refl _
        · have hd' := h.tail.head_le hd
          simp only [Block.finish] at hd'
          omega
      exact fun d hd => hnext.trans (hlow d hd)

/-- Coalescing keeps the used blocks as they are. -/
theorem mem_coalesceFrom_of_used {x : Block} (hx : x.used = true) :
    x ∈ coalesceFrom hdr b l ↔ x ∈ b :: l := by
  induction l generalizing b with
  | nil => rfl
  | cons c l ih =>
    rw [coalesceFrom]
    split
    · rename_i hfree
      rw [ih]
      simp only [List.mem_cons]
      constructor
      · rintro (rfl | hmem)
        · simp [hfree.1] at hx
        · exact .inr (.inr hmem)
      · rintro (rfl | rfl | hmem)
        · simp [hfree.1] at hx
        · simp [hfree.2] at hx
        · exact .inr hmem
    · simp only [List.mem_cons, ih]

theorem mem_coalesce_of_used {x : Block} (hx : x.used = true) : x ∈ coalesce hdr l ↔ x ∈ l := by
  cases l with
  | nil => rfl
  | cons b l => exact mem_coalesceFrom_of_used hx

/-- A free block in front stays free and in front, whatever it absorbs. -/
theorem exists_free_of_front {start finish : Nat} (hfree : b.used = false) (hle : b.addr ≤ start)
    (hbehind : ∀ d ∈ l, finish ≤ d.addr) : ∃ l₁ c l₂, coalesceFrom hdr b l = l₁ ++ c :: l₂ ∧
      c.used = false ∧ c.addr ≤ start ∧ ∀ d ∈ l₂, finish ≤ d.addr := by
  obtain ⟨size, rest, heq, hrest⟩ := coalesceFrom_eq_cons hdr b l
  refine ⟨[], _, rest, heq, hfree, hle, fun d hd => ?_⟩
  obtain ⟨e, he, haddr⟩ := hrest d hd
  exact haddr ▸ hbehind e he

/-- A free block of the list ends up between a free block that starts no later and the ones behind
that. Where free blocks touch, this is the block it is a part of. -/
theorem exists_free_coalesceFrom (h : Ordered hdr (b :: l)) {x : Block} (hx : x ∈ b :: l)
    (hfree : x.used = false) : ∃ l₁ c l₂, coalesceFrom hdr b l = l₁ ++ c :: l₂ ∧
      c.used = false ∧ c.addr ≤ x.addr ∧ ∀ d ∈ l₂, x.finish hdr ≤ d.addr := by
  induction l generalizing b with
  | nil =>
    obtain rfl := List.mem_singleton.mp hx
    exact exists_free_of_front hfree (Nat.le_refl _) (by simp)
  | cons c l ih =>
    have hnext := h.head_le (List.mem_cons_self (a := c) (l := l))
    have hle : b.addr ≤ c.addr := by
      rw [Block.finish] at hnext
      omega
    rcases List.mem_cons.mp hx with rfl | hx
    · exact exists_free_of_front hfree (Nat.le_refl _) fun d hd => h.head_le hd
    · rw [coalesceFrom]
      split_ifs with hmerge
      · rcases List.mem_cons.mp hx with rfl | hx
        · exact exists_free_of_front hmerge.1 hle fun d hd => h.tail.head_le hd
        · exact ih h.absorb (List.mem_cons_of_mem _ hx)
      · obtain ⟨l₁, d, l₂, heq, hrest⟩ := ih h.tail hx
        rw [heq]
        exact ⟨b :: l₁, d, l₂, rfl, hrest⟩

theorem exists_free_coalesce (h : Ordered hdr l) {x : Block} (hx : x ∈ l)
    (hfree : x.used = false) : ∃ l₁ c l₂, coalesce hdr l = l₁ ++ c :: l₂ ∧
      c.used = false ∧ c.addr ≤ x.addr ∧ ∀ d ∈ l₂, x.finish hdr ≤ d.addr := by
  cases l with
  | nil => cases hx
  | cons b l => exact exists_free_coalesceFrom h hx hfree

end Coalesce

/-! ## Free neighbours -/

/-- No two neighbours are both free. -/
def Separated (l : List Block) : Prop := l.IsChain fun b c => b.used = true ∨ c.used = true

section Separated

variable {hdr : Nat} {b : Block} {l : List Block}

theorem separated_coalesceFrom : Separated (coalesceFrom hdr b l) := by
  induction l generalizing b with
  | nil => exact .singleton b
  | cons c l ih =>
    rw [coalesceFrom]
    split
    · exact ih
    · rename_i hused
      obtain ⟨size, rest, heq, -⟩ := coalesceFrom_eq_cons hdr c l
      have hrest := ih (b := c)
      rw [heq] at hrest ⊢
      refine List.isChain_cons_cons.mpr ⟨?_, hrest⟩
      simp only [← Bool.not_eq_true] at hused ⊢
      tauto

theorem separated_coalesce : Separated (coalesce hdr l) := by
  cases l with
  | nil => exact .nil
  | cons b l => exact separated_coalesceFrom

/-- Only one block is left where none is in use. -/
theorem Separated.eq_singleton (h : Separated l) (hne : l ≠ []) (hfree : ∀ b ∈ l, b.used = false) :
    ∃ b, l = [b] := by
  match l, hne with
  | [b], _ => exact ⟨b, rfl⟩
  | b :: c :: l, _ =>
    rcases (List.isChain_cons_cons.mp h).1 with hused | hused
    · simp [hfree b (by simp)] at hused
    · simp [hfree c (by simp)] at hused

end Separated

/-! ## Editing the block at an address -/

section Edit

variable {hdr addr : Nat} {f : Block → List Block} {b c : Block} {l l₁ l₂ : List Block}

/-- The blocks `f b` in the place of a block `b` at `addr`. -/
def editAt (addr : Nat) (f : Block → List Block) (l : List Block) : List Block :=
  l.flatMap fun b => if b.addr = addr then f b else [b]

theorem mem_editAt : c ∈ editAt addr f l ↔
    (c ∈ l ∧ c.addr ≠ addr) ∨ ∃ b ∈ l, b.addr = addr ∧ c ∈ f b := by
  simp only [editAt, List.mem_flatMap]
  constructor
  · rintro ⟨b, hb, hc⟩
    split_ifs at hc with haddr
    · exact .inr ⟨b, hb, haddr, hc⟩
    · obtain rfl := List.mem_singleton.mp hc
      exact .inl ⟨hb, haddr⟩
  · rintro (⟨hc, haddr⟩ | ⟨b, hb, haddr, hc⟩)
    · exact ⟨c, hc, by simp [haddr]⟩
    · exact ⟨b, hb, by simpa [haddr] using hc⟩

theorem editAt_of_ne (h : ∀ c ∈ l, c.addr ≠ addr) : editAt addr f l = l := by
  induction l with
  | nil => rfl
  | cons b l ih =>
    rw [editAt, List.flatMap_cons, if_neg (h b (by simp))]
    exact congrArg (b :: ·) (ih fun c hc => h c (by simp [hc]))

/-- In an ordered list one block is edited. -/
theorem Ordered.editAt_eq (h : Ordered hdr (l₁ ++ b :: l₂)) (hpos : 0 < hdr) :
    editAt b.addr f (l₁ ++ b :: l₂) = l₁ ++ (f b ++ l₂) := by
  obtain ⟨-, hright, hcross⟩ := List.pairwise_append.mp h
  have hleft : editAt b.addr f l₁ = l₁ := by
    refine editAt_of_ne fun c hc => ?_
    have hlt := hcross c hc b (by simp)
    rw [Block.finish] at hlt
    omega
  have hafter : editAt b.addr f l₂ = l₂ := by
    refine editAt_of_ne fun c hc => ?_
    have hlt := Ordered.head_le hright hc
    rw [Block.finish] at hlt
    omega
  have happend : editAt b.addr f (l₁ ++ b :: l₂) =
      editAt b.addr f l₁ ++ (f b ++ editAt b.addr f l₂) := by
    simp [editAt]
  rw [happend, hleft, hafter]

end Edit

/-! ## The bytes of the blocks -/

section LiesIn

variable {hdr : Nat} {P : Nat → Prop} {b : Block} {l : List Block}

/-- Every byte of the blocks, headers included, satisfies `P`. -/
def LiesIn (hdr : Nat) (P : Nat → Prop) (l : List Block) : Prop :=
  ∀ b ∈ l, ∀ x, b.addr ≤ x → x < b.finish hdr → P x

/-- A free block ends where the next one starts, if that is free, too. -/
def FreeTouch (hdr : Nat) (l : List Block) : Prop :=
  l.IsChain fun b c => b.used = false → c.used = false → b.finish hdr = c.addr

theorem LiesIn.mono {Q : Nat → Prop} (h : LiesIn hdr P l) (hPQ : ∀ x, P x → Q x) :
    LiesIn hdr Q l := fun b hb x hlo hhi => hPQ x (h b hb x hlo hhi)

theorem LiesIn.append {k : List Block} (hl : LiesIn hdr P l) (hk : LiesIn hdr P k) :
    LiesIn hdr P (l ++ k) := fun b hb =>
  (List.mem_append.mp hb).elim (hl b) (hk b)

theorem LiesIn.editAt {addr : Nat} {f : Block → List Block} (h : LiesIn hdr P l)
    (hf : ∀ b ∈ l, b.addr = addr → ∀ c ∈ f b, b.addr ≤ c.addr ∧ c.finish hdr ≤ b.finish hdr) :
    LiesIn hdr P (editAt addr f l) := by
  intro c hc x hlo hhi
  rcases mem_editAt.mp hc with ⟨hc, -⟩ | ⟨b, hb, haddr, hc⟩
  · exact h c hc x hlo hhi
  · obtain ⟨hstart, hend⟩ := hf b hb haddr c hc
    exact h b hb x (hstart.trans hlo) (hhi.trans_le hend)

/-- Coalescing free blocks that touch takes in no other bytes. -/
theorem LiesIn.coalesceFrom (h : LiesIn hdr P (b :: l)) (htouch : FreeTouch hdr (b :: l)) :
    LiesIn hdr P (coalesceFrom hdr b l) := by
  induction l generalizing b with
  | nil => exact h
  | cons c l ih =>
    obtain ⟨hbc, hrest⟩ := List.isChain_cons_cons.mp htouch
    rw [BlockList.coalesceFrom]
    split_ifs with hfree
    · have hmeet := hbc hfree.1 hfree.2
      refine ih ?_ ?_
      · intro d hd x hlo hhi
        rcases List.mem_cons.mp hd with rfl | hd
        · simp only [Block.finish] at hlo hhi hmeet
          by_cases hx : x < c.addr
          · exact h b (by simp) x hlo (by rw [Block.finish]; omega)
          · exact h c (by simp) x (by omega) (by rw [Block.finish]; omega)
        · exact h d (by simp [hd]) x hlo hhi
      · cases l with
        | nil => exact .singleton _
        | cons d l =>
          obtain ⟨hcd, hrest⟩ := List.isChain_cons_cons.mp hrest
          refine List.isChain_cons_cons.mpr ⟨fun _ hd => ?_, hrest⟩
          rw [← hcd hfree.2 hd]
          simp only [Block.finish] at hmeet ⊢
          omega
    · intro d hd
      rcases List.mem_cons.mp hd with rfl | hd
      · exact h d (by simp)
      · exact ih (fun e he => h e (by simp [he])) hrest d hd

theorem LiesIn.coalesce (h : LiesIn hdr P l) (htouch : FreeTouch hdr l) :
    LiesIn hdr P (coalesce hdr l) := by
  cases l with
  | nil => exact h
  | cons b l => exact h.coalesceFrom htouch

end LiesIn

end BlockList
