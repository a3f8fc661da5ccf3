import HolyOs.Foundation.ByteMemory
import HolyOs.Foundation.Word

/-!
# Memory with 32-bit addresses

A 32-bit pointer counts modulo `2 ^ 32`, so an array near the end of the address space goes on at
its start. Seen through a window, from its first byte on, such an array is an ordinary one.
-/
namespace ByteMemory

/-- The memory from `base` on. -/
def window (m : Memory) (base : Nat) : Memory := fun x => m (Word32.wrap (base + x))

/-- A word of which every byte has a 32-bit address. -/
def loadWord (m : Memory) (a : Nat) : Nat := load32 (window m a) 0

def storeWord (m : Memory) (a v : Nat) : Memory :=
  (List.range 4).foldl
    (fun m k => store8 m (Word32.wrap (a + k)) (UInt8.ofNat (v / 256 ^ k))) m

variable {m m' : Memory} {a b base d lo hi x : Nat}

theorem loadWord_lt (m : Memory) (a : Nat) : loadWord m a < 2 ^ 32 := load32_lt _ _

theorem load32_window (m : Memory) (base d : Nat) :
    load32 (window m base) d = loadWord m (base + d) := by
  simp only [loadWord, load32, window, Nat.add_assoc, Nat.zero_add, Nat.add_zero]

/-- Below the end of the address space a word is four consecutive bytes. -/
theorem loadWord_eq (ha : a + 4 ≤ 2 ^ 32) : loadWord m a = load32 m a := by
  have hbyte : ∀ k < 4, window m a k = m (a + k) := fun k hk =>
    congrArg m (Word32.wrap_of_lt (by omega))
  simp only [loadWord, load32, Nat.zero_add, hbyte 0 (by omega), hbyte 1 (by omega),
    hbyte 2 (by omega), hbyte 3 (by omega), Nat.add_zero]

theorem loadWord_congr (ha : a + 4 ≤ 2 ^ 32) (h : SameOn m m' a (a + 4)) :
    loadWord m' a = loadWord m a := by
  rw [loadWord_eq ha, loadWord_eq ha, load32_congr h]

/-- The bytes of a stored word. -/
theorem storeWord_apply (m : Memory) (a v x : Nat) : storeWord m a v x =
    if x = Word32.wrap (a + 3) then UInt8.ofNat (v / 256 ^ 3)
    else if x = Word32.wrap (a + 2) then UInt8.ofNat (v / 256 ^ 2)
    else if x = Word32.wrap (a + 1) then UInt8.ofNat (v / 256)
    else if x = Word32.wrap a then UInt8.ofNat v else m x := by
  simp only [storeWord, List.range, List.range.loop, List.foldl_cons, List.foldl_nil, store8,
    Nat.add_zero, pow_zero, Nat.div_one, pow_one]

/-- In a window a word is stored like any other. -/
theorem window_storeWord (m : Memory) (base v : Nat) (hd : d + 4 ≤ 2 ^ 32) :
    SameOn (store32 (window m base) d v) (window (storeWord m (base + d) v) base) 0 (2 ^ 32) := by
  intro x _ hx
  have hat : ∀ k < 4, Word32.wrap (base + x) = Word32.wrap (base + d + k) ↔ x = d + k := by
    intro k hk
    unfold Word32.wrap
    omega
  have hfirst : Word32.wrap (base + x) = Word32.wrap (base + d) ↔ x = d := hat 0 (by omega)
  simp only [window, storeWord_apply, store32, hfirst, hat 1 (by omega), hat 2 (by omega),
    hat 3 (by omega)]
  by_cases hin : d ≤ x ∧ x < d + 4
  · obtain h | h | h | h : x = d ∨ x = d + 1 ∨ x = d + 2 ∨ x = d + 3 := by omega
    all_goals simp [h]
  · rw [if_neg (by omega), if_neg (by omega), if_neg (by omega), if_neg (by omega), if_neg hin]

/-- A word is stored below the end of the address space. -/
theorem storeWord_far (m : Memory) (a v : Nat) (hx : 2 ^ 32 ≤ x) : storeWord m a v x = m x := by
  have hne : ∀ k, x ≠ Word32.wrap (a + k) := fun k => by
    have := Word32.wrap_lt (a + k)
    omega
  rw [storeWord_apply, if_neg (hne 3), if_neg (hne 2), if_neg (hne 1)]
  exact if_neg (hne 0)

/-- A word apart from a range, of which no byte wraps. -/
theorem sameOn_storeWord (m : Memory) (v : Nat) (ha : a + 4 ≤ 2 ^ 32) (h : hi ≤ a ∨ a + 4 ≤ lo) :
    SameOn m (storeWord m a v) lo hi := by
  intro x hlo hhi
  have hne : ∀ k < 4, x ≠ Word32.wrap (a + k) := fun k hk => by
    rw [Word32.wrap_of_lt (by omega)]
    omega
  rw [storeWord_apply, if_neg (hne 3 (by omega)), if_neg (hne 2 (by omega)),
    if_neg (hne 1 (by omega))]
  exact if_neg (hne 0 (by omega))

end ByteMemory
