import Mathlib.Algebra.GroupWithZero.Nat
import Mathlib.Data.Finset.Card
import Mathlib.Logic.Function.Basic

/-!
# Bit arrays packed into words

Bit `i` of an array of `w`-bit words is bit `i % w` of word `i / w`. The array is a total
function from word indices, so a write past the end of the allocated words is an ordinary
update and not an error. Setting and clearing act on the single addressed bit; the
population count of a prefix changes by exactly that bit.
-/
namespace PackedBits

variable {w : Nat}

def getBit (ws : Nat → BitVec w) (i : Nat) : Bool := (ws (i / w)).getLsbD (i % w)

def setBit (ws : Nat → BitVec w) (i : Nat) : Nat → BitVec w :=
  Function.update ws (i / w) (ws (i / w) ||| 1#w <<< (i % w))

def clearBit (ws : Nat → BitVec w) (i : Nat) : Nat → BitVec w :=
  Function.update ws (i / w) (ws (i / w) &&& ~~~(1#w <<< (i % w)))

theorem getLsbD_mask {k j : Nat} (hj : j < w) : (1#w <<< k).getLsbD j = decide (j = k) := by
  rw [BitVec.getLsbD_shiftLeft, BitVec.getLsbD_one]
  by_cases h : j = k
  · subst h
    simp [hj]
    omega
  · by_cases hlt : j < k <;> simp [hj, h, hlt]
    omega

/-- Indices into one word differ exactly when their offsets do. -/
theorem decide_index {i j : Nat} (hword : j / w = i / w) :
    decide (j = i) = decide (j % w = i % w) := by
  have hj := Nat.div_add_mod j w
  have hi := Nat.div_add_mod i w
  have hiff : j = i ↔ j % w = i % w := by
    constructor
    · rintro rfl
      rfl
    · intro hoff
      rw [← hj, ← hi, hword, hoff]
  exact decide_eq_decide.mpr hiff

/-- An index into another word is another index. -/
theorem ne_of_word {i j : Nat} (hword : j / w ≠ i / w) : j ≠ i := fun h => hword (h ▸ rfl)

variable [NeZero w]

theorem getBit_setBit (ws : Nat → BitVec w) (i j : Nat) :
    getBit (setBit ws i) j = (decide (j = i) || getBit ws j) := by
  have hj : j % w < w := Nat.mod_lt _ (Nat.pos_of_neZero w)
  by_cases hword : j / w = i / w
  · rw [decide_index hword, getBit, getBit, setBit, hword, Function.update_self,
      BitVec.getLsbD_or, getLsbD_mask hj, Bool.or_comm]
  · simp [getBit, setBit, Function.update_of_ne hword, ne_of_word hword]

theorem getBit_clearBit (ws : Nat → BitVec w) (i j : Nat) :
    getBit (clearBit ws i) j = (!decide (j = i) && getBit ws j) := by
  have hj : j % w < w := Nat.mod_lt _ (Nat.pos_of_neZero w)
  by_cases hword : j / w = i / w
  · rw [decide_index hword, getBit, getBit, clearBit, hword, Function.update_self,
      BitVec.getLsbD_and, BitVec.getLsbD_not, getLsbD_mask hj, Bool.and_comm]
    simp [hj]
  · simp [getBit, clearBit, Function.update_of_ne hword, ne_of_word hword]

theorem getBit_foldl_setBit (is : List Nat) (ws : Nat → BitVec w) (j : Nat) :
    getBit (is.foldl setBit ws) j = (decide (j ∈ is) || getBit ws j) := by
  induction is generalizing ws with
  | nil => simp
  | cons i is ih =>
    rw [List.foldl_cons, ih, getBit_setBit, ← Bool.or_assoc]
    simp [Bool.or_comm]

theorem getBit_foldl_clearBit (is : List Nat) (ws : Nat → BitVec w) (j : Nat) :
    getBit (is.foldl clearBit ws) j = (!decide (j ∈ is) && getBit ws j) := by
  induction is generalizing ws with
  | nil => simp
  | cons i is ih =>
    rw [List.foldl_cons, ih, getBit_clearBit, ← Bool.and_assoc]
    simp [Bool.and_comm]

/-! ## Population count of a prefix -/

/-- The set bits among the first `n`. -/
def bitsBelow (ws : Nat → BitVec w) (n : Nat) : Finset Nat :=
  (Finset.range n).filter fun i => getBit ws i

omit [NeZero w] in
@[simp] theorem mem_bitsBelow {ws : Nat → BitVec w} {n i : Nat} :
    i ∈ bitsBelow ws n ↔ i < n ∧ getBit ws i = true := by
  simp [bitsBelow]

theorem bitsBelow_setBit {ws : Nat → BitVec w} {n i : Nat} (hi : i < n) :
    bitsBelow (setBit ws i) n = insert i (bitsBelow ws n) := by
  ext j
  simp only [mem_bitsBelow, getBit_setBit, Finset.mem_insert, Bool.or_eq_true, decide_eq_true_eq]
  constructor
  · tauto
  · rintro (rfl | h)
    · exact ⟨hi, .inl rfl⟩
    · exact ⟨h.1, .inr h.2⟩

theorem bitsBelow_clearBit (ws : Nat → BitVec w) (n i : Nat) :
    bitsBelow (clearBit ws i) n = (bitsBelow ws n).erase i := by
  ext j
  simp only [mem_bitsBelow, getBit_clearBit, Finset.mem_erase, Bool.and_eq_true,
    Bool.not_eq_true', decide_eq_false_iff_not]
  tauto

theorem card_bitsBelow_setBit {ws : Nat → BitVec w} {n i : Nat} (hi : i < n)
    (hclear : getBit ws i = false) :
    (bitsBelow (setBit ws i) n).card = (bitsBelow ws n).card + 1 := by
  rw [bitsBelow_setBit hi, Finset.card_insert_of_notMem (by simp [hclear])]

theorem card_bitsBelow_clearBit {ws : Nat → BitVec w} {n i : Nat} (hi : i < n)
    (hset : getBit ws i = true) :
    (bitsBelow (clearBit ws i) n).card + 1 = (bitsBelow ws n).card := by
  rw [bitsBelow_clearBit, Finset.card_erase_add_one (by simp [hi, hset])]

end PackedBits
