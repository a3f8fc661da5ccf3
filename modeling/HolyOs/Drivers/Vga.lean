import HolyOs.Lib.String
import Mathlib.Tactic.IntervalCases

/-!
# The VGA text driver

Shallow model of the drawing functions of `drivers/video/vga.c`. A cell of the screen is a word
of the buffer at `0xB8000`: the character, then its attribute.
-/
namespace HolyOs.Drivers

open ByteMemory HolyOs.Lib

structure VideoColor where
  r : UInt8
  g : UInt8
  b : UInt8
deriving DecidableEq

@[simp] def vgaBuffer : Nat := 0xB8000
@[simp] def vgaXres : Nat := 80
@[simp] def vgaYres : Nat := 25

/-- `(color << 8) | c`, where `char` is signed. -/
def vgaCell (color c : UInt8) : UInt16 := color.toUInt16 <<< 8 ||| c.toInt8.toInt16.toUInt16

def vgaWrite (m : Memory) (c : UInt8) (x y : Nat) (fg bg : VideoColor) : Memory :=
  if vgaXres ≤ x ∨ vgaYres ≤ y then m
  else
    let color := (bg.r &&& 0x1) <<< 4 ||| (fg.r &&& 0x7)
    store16 m (vgaBuffer + 2 * (y * vgaXres + x)) (vgaCell color c)

def vgaClear (m : Memory) (color : VideoColor) : Memory :=
  let blank := (0x20 : UInt16) ||| (color.r &&& 0x7).toUInt16 <<< 8
  memset16 m vgaBuffer blank (vgaXres * vgaYres)

def vgaScroll (m : Memory) : Memory :=
  let m := memcpy m vgaBuffer (vgaBuffer + 2 * vgaXres) (vgaXres * (vgaYres - 1) * 2)
  memset16 m (vgaBuffer + 2 * (vgaXres * (vgaYres - 1))) ((0x20 : UInt16) ||| (0x07 : UInt16) <<< 8)
    vgaXres

/-! ## The characters on the screen -/

/-- The character byte of a cell. -/
def vgaChar (m : Memory) (x y : Nat) : UInt8 := m (vgaBuffer + 2 * (y * vgaXres + x))

theorem vgaCell_char (color c : UInt8) : (vgaCell color c).toUInt8 = c := by
  unfold vgaCell
  apply UInt8.toBitVec_inj.mp
  apply BitVec.eq_of_getLsbD_eq
  intro i hi
  interval_cases i <;> simp [BitVec.getElem_signExtend]

theorem vgaChar_write (m : Memory) (c : UInt8) {x y : Nat} (fg bg : VideoColor) (hx : x < vgaXres)
    (hy : y < vgaYres) {x' y' : Nat} (hx' : x' < vgaXres) :
    vgaChar (vgaWrite m c x y fg bg) x' y' = if x' = x ∧ y' = y then c else vgaChar m x' y' := by
  simp only [vgaXres, vgaYres] at hx hy hx'
  rw [vgaWrite, if_neg (by simp only [vgaXres, vgaYres]; omega)]
  simp only [vgaChar, store16_apply, vgaCell_char, vgaBuffer, vgaXres]
  split_ifs <;> first | rfl | omega

theorem vgaChar_clear (m : Memory) (color : VideoColor) {x y : Nat} (hx : x < vgaXres)
    (hy : y < vgaYres) : vgaChar (vgaClear m color) x y = 0x20 := by
  simp only [vgaXres, vgaYres] at hx hy
  have hblank : ((0x20 : UInt16) ||| (color.r &&& 0x7).toUInt16 <<< 8).toUInt8 = 0x20 := by
    apply UInt8.toBitVec_inj.mp
    apply BitVec.eq_of_getLsbD_eq
    intro i hi
    interval_cases i <;> simp
  simp only [vgaChar, vgaClear, vgaBuffer, vgaXres, vgaYres]
  rw [memset16_apply _ _ (by omega), if_pos (by omega), if_pos (by omega), hblank]

/-- Scrolling moves the rows up. -/
theorem vgaChar_scroll (m : Memory) {x y : Nat} (hx : x < vgaXres) (hy : y + 1 < vgaYres) :
    vgaChar (vgaScroll m) x y = vgaChar m x (y + 1) := by
  simp only [vgaXres, vgaYres] at hx hy
  simp only [vgaChar, vgaScroll, vgaBuffer, vgaXres, vgaYres]
  have hcell : 2 * (y * 80 + x) < 80 * (25 - 1) * 2 := by omega
  rw [memset16_apply _ _ (by omega), if_neg (by omega),
    memcpy_inside m (by omega) (by omega) (by omega) hcell]
  congr 1
  omega

/-- Scrolling blanks the last row. -/
theorem vgaChar_scroll_last (m : Memory) {x : Nat} (hx : x < vgaXres) :
    vgaChar (vgaScroll m) x (vgaYres - 1) = 0x20 := by
  simp only [vgaXres] at hx
  simp only [vgaChar, vgaScroll, vgaBuffer, vgaXres, vgaYres]
  rw [memset16_apply _ _ (by omega), if_pos (by omega), if_pos (by omega)]
  rfl

/-! ## The attributes on the screen -/

/-- The attribute byte of a cell. -/
def vgaAttribute (m : Memory) (x y : Nat) : UInt8 := m (vgaBuffer + 2 * (y * vgaXres + x) + 1)

/-- The attribute of a character, in the low byte of a cell. -/
def vgaColor (fg bg : VideoColor) : UInt8 := (bg.r &&& 0x1) <<< 4 ||| (fg.r &&& 0x7)

theorem vgaColor_ne (fg bg : VideoColor) : vgaColor fg bg ≠ 0xFF := by
  intro heq
  have hbit := congrArg (fun color => color.toBitVec.getLsbD 7) heq
  simp [vgaColor] at hbit

theorem msb_eq (c : UInt8) : c.toBitVec.msb = decide (0x80 ≤ c) := by
  rw [BitVec.msb_eq_decide]
  rfl

/-- The sign of the character is in all bits of the attribute. -/
theorem vgaCell_attribute (color c : UInt8) :
    (vgaCell color c >>> 8).toUInt8 = if c < 0x80 then color else 0xFF := by
  have hsign := msb_eq c
  unfold vgaCell
  apply UInt8.toBitVec_inj.mp
  apply BitVec.eq_of_getLsbD_eq
  intro i hi
  split_ifs with hc
  · have hlow : ¬ 0x80 ≤ c := UInt8.not_le.mpr hc
    interval_cases i <;> simp [BitVec.getElem_signExtend, hsign, hlow]
  · have hhigh : 0x80 ≤ c := UInt8.not_lt.mp hc
    interval_cases i <;> simp [BitVec.getElem_signExtend, hsign, hhigh]

theorem vgaAttribute_write (m : Memory) (c : UInt8) {x y : Nat} (fg bg : VideoColor)
    (hx : x < vgaXres) (hy : y < vgaYres) {x' y' : Nat} (hx' : x' < vgaXres) :
    vgaAttribute (vgaWrite m c x y fg bg) x' y' =
      if x' = x ∧ y' = y then if c < 0x80 then vgaColor fg bg else 0xFF
      else vgaAttribute m x' y' := by
  simp only [vgaXres, vgaYres] at hx hy hx'
  rw [vgaWrite, if_neg (by simp only [vgaXres, vgaYres]; omega)]
  simp only [vgaAttribute, store16_apply, vgaCell_attribute, vgaBuffer, vgaXres, vgaColor]
  split_ifs <;> first | rfl | omega

theorem vgaWrite_outside (m : Memory) (c : UInt8) {x y : Nat} (fg bg : VideoColor)
    (h : vgaXres ≤ x ∨ vgaYres ≤ y) : vgaWrite m c x y fg bg = m := if_pos h

theorem vgaAttribute_scroll (m : Memory) {x y : Nat} (hx : x < vgaXres) (hy : y < vgaYres) :
    vgaAttribute (vgaScroll m) x y =
      if y + 1 < vgaYres then vgaAttribute m x (y + 1) else 0x07 := by
  by_cases hrow : y + 1 < vgaYres
  · rw [if_pos hrow]
    simp only [vgaXres, vgaYres] at hx hrow
    simp only [vgaAttribute, vgaScroll, vgaBuffer, vgaXres, vgaYres]
    have hcell : 2 * (y * 80 + x) + 1 < 80 * (25 - 1) * 2 := by omega
    have haddr : 0xB8000 + 2 * (y * 80 + x) + 1 = 0xB8000 + (2 * (y * 80 + x) + 1) :=
      Nat.add_assoc _ _ _
    rw [memset16_apply _ _ (by omega), if_neg (by omega), haddr,
      memcpy_inside m (by omega) (by omega) (by omega) hcell]
    congr 1
    omega
  · rw [if_neg hrow]
    simp only [vgaXres, vgaYres] at hx hy hrow
    simp only [vgaAttribute, vgaScroll, vgaBuffer, vgaXres, vgaYres]
    rw [memset16_apply _ _ (by omega), if_pos (by omega), if_neg (by omega)]
    rfl

end HolyOs.Drivers
