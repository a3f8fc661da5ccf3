import HolyOs.Foundation.Window

/-!
# Memory functions of `lib/string.c`

`memset`, `memset16` and `memcpy` are the loops of the library, with the pointers advancing modulo
`2 ^ 32`. For ranges that do not wrap they fill and copy as expected.
-/
namespace HolyOs.Lib

open ByteMemory

/-- `while (size--) *buf++ = value`. -/
def memset (m : Memory) (buf : Nat) (value : UInt8) : Nat → Memory
  | 0 => m
  | size + 1 => memset (store8 m buf value) (Word32.wrap (buf + 1)) value size

/-- `while (size--) *buf++ = value`, two bytes at a time. -/
def memset16 (m : Memory) (buf : Nat) (value : UInt16) : Nat → Memory
  | 0 => m
  | size + 1 => memset16 (store16 m buf value) (Word32.wrap (buf + 2)) value size

/-- `while (size--) *dest++ = *src++`. -/
def memcpy (m : Memory) (dest src : Nat) : Nat → Memory
  | 0 => m
  | size + 1 => memcpy (store8 m dest (m src)) (Word32.wrap (dest + 1)) (Word32.wrap (src + 1)) size

/-- A pointer inside a range that ends at or below 4 GiB advances without wrapping, or the
range is exhausted. -/
theorem wrap_succ {p size : Nat} (h : p + (size + 1) ≤ 2 ^ 32) :
    Word32.wrap (p + 1) = p + 1 ∨ size = 0 := by
  rcases Nat.eq_zero_or_pos size with hz | hpos
  · exact .inr hz
  · exact .inl (Word32.wrap_of_lt (by omega))

theorem memset_apply (m : Memory) (value : UInt8) {buf size : Nat} (h : buf + size ≤ 2 ^ 32)
    (x : Nat) : memset m buf value size x = if buf ≤ x ∧ x < buf + size then value else m x := by
  induction size generalizing m buf with
  | zero => exact (if_neg (by omega)).symm
  | succ size ih =>
    have hbyte : store8 m buf value x = if x = buf then value else m x := rfl
    rcases wrap_succ h with hwrap | rfl
    · rw [memset, hwrap, ih _ (by omega), hbyte]
      split_ifs <;> first | rfl | omega
    · rw [memset, memset, hbyte]
      split_ifs <;> first | rfl | omega

/-- Seen from its start, a range is filled also where its addresses wrap. -/
theorem window_memset (m : Memory) (base : Nat) (value : UInt8) {d size x : Nat}
    (hsize : d + size ≤ 2 ^ 32) (hx : x < 2 ^ 32) :
    window (memset m (Word32.wrap (base + d)) value size) base x =
      if d ≤ x ∧ x < d + size then value else window m base x := by
  induction size generalizing m d with
  | zero => exact (if_neg (by omega)).symm
  | succ size ih =>
    have hnext : Word32.wrap (Word32.wrap (base + d) + 1) = Word32.wrap (base + (d + 1)) := by
      unfold Word32.wrap
      omega
    have hat : Word32.wrap (base + x) = Word32.wrap (base + d) ↔ x = d := by
      unfold Word32.wrap
      omega
    rw [memset, hnext, ih _ (by omega)]
    simp only [window, store8, hat]
    split_ifs <;> first | rfl | omega

/-- Bytes that have the value already are not changed. -/
theorem memset_of_same {m : Memory} {value : UInt8} {buf size : Nat} (h : buf + size ≤ 2 ^ 32)
    (hsame : ∀ x, buf ≤ x → x < buf + size → m x = value) : memset m buf value size = m := by
  funext x
  rw [memset_apply _ _ h]
  split_ifs with hx
  · exact (hsame x hx.1 hx.2).symm
  · rfl

/-- The words that `memset16` writes. -/
theorem memset16_apply (m : Memory) (value : UInt16) {buf size : Nat} (h : buf + 2 * size ≤ 2 ^ 32)
    (x : Nat) : memset16 m buf value size x =
      if buf ≤ x ∧ x < buf + 2 * size then
        if (x - buf) % 2 = 0 then value.toUInt8 else (value >>> 8).toUInt8
      else m x := by
  induction size generalizing m buf with
  | zero => exact (if_neg (by omega)).symm
  | succ size ih =>
    have hwrap : Word32.wrap (buf + 2) = buf + 2 ∨ size = 0 := by
      rcases Nat.eq_zero_or_pos size with hz | hpos
      · exact .inr hz
      · exact .inl (Word32.wrap_of_lt (by omega))
    rcases hwrap with hwrap | rfl
    · rw [memset16, hwrap, ih _ (by omega), store16_apply]
      split_ifs <;> first | rfl | omega
    · rw [memset16, memset16, store16_apply]
      split_ifs <;> first | rfl | omega

/-- Copying changes only the destination. -/
theorem memcpy_outside (m : Memory) {dest size : Nat} (src : Nat) (h : dest + size ≤ 2 ^ 32)
    {x : Nat} (hx : x < dest ∨ dest + size ≤ x) : memcpy m dest src size x = m x := by
  induction size generalizing m dest src with
  | zero => rfl
  | succ size ih =>
    have hbyte : store8 m dest (m src) x = m x := if_neg (by omega)
    rcases wrap_succ h with hwrap | rfl
    · rw [memcpy, hwrap, ih _ _ (by omega) (by omega), hbyte]
    · rw [memcpy, memcpy, hbyte]

/-- A copy to a place that is not ahead of it in the source reproduces the source, whether or not
the ranges overlap. -/
theorem memcpy_inside (m : Memory) {dest src size : Nat} (hd : dest + size ≤ 2 ^ 32)
    (hs : src + size ≤ 2 ^ 32) (hbehind : dest ≤ src ∨ src + size ≤ dest) {i : Nat}
    (hi : i < size) : memcpy m dest src size (dest + i) = m (src + i) := by
  induction size generalizing m dest src i with
  | zero => omega
  | succ size ih =>
    have hsrc : ∀ j ≤ size, 0 < j → store8 m dest (m src) (src + j) = m (src + j) := fun j hj _ =>
      if_neg (by omega)
    cases i with
    | zero =>
      rcases wrap_succ hd with hwrap | rfl
      · rw [memcpy, hwrap, memcpy_outside _ _ (by omega) (by omega), Nat.add_zero, store8_same,
          Nat.add_zero]
      · rw [memcpy, memcpy, Nat.add_zero, store8_same, Nat.add_zero]
    | succ i =>
      rw [memcpy, Word32.wrap_of_lt (show dest + 1 < 2 ^ 32 by omega),
        Word32.wrap_of_lt (show src + 1 < 2 ^ 32 by omega), Nat.add_comm i 1, ← Nat.add_assoc,
        ih _ (by omega) (by omega) (by omega) (by omega), Nat.add_assoc,
        hsrc (1 + i) (by omega) (by omega)]

end HolyOs.Lib
