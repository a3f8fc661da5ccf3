import Mathlib.Data.List.Induction
import Mathlib.Tactic.SplitIfs

/-!
# Pages without end

A page has a fixed number of columns and as many rows as it needs. Characters are laid out from
the cursor on; the control characters move the cursor. Nothing is ever scrolled away, so a page is
what a screen of any height shows a part of.
-/

/-- The characters by row and column, and the cursor. -/
structure Page where
  cell : Nat → Nat → UInt8
  row : Nat
  col : Nat

namespace Page

def nul : UInt8 := 0x00
def backspace : UInt8 := 0x08
def tab : UInt8 := 0x09
def newline : UInt8 := 0x0A
def carriageReturn : UInt8 := 0x0D
def space : UInt8 := 0x20

/-- No character was laid out. -/
def blank : Page := ⟨fun _ _ => space, 0, 0⟩

def write (p : Page) (c : UInt8) : Page :=
  { p with cell := fun row col => if row = p.row ∧ col = p.col then c else p.cell row col }

/-- The start of the next row. -/
def feed (p : Page) : Page := { p with row := p.row + 1, col := 0 }

/-- Back by one column, erasing it; not beyond the start of the row. -/
def erase (p : Page) : Page :=
  if p.col = 0 then p else write { p with col := p.col - 1 } space

/-- To the next multiple of 4. -/
def tabulate (p : Page) : Page := { p with col := (p.col / 4 + 1) * 4 }

/-- What a character does before the end of the row is looked at. -/
def place (p : Page) (c : UInt8) : Page :=
  if c = newline then p.feed
  else if c = backspace then p.erase
  else if c = tab then p.tabulate
  else if c = carriageReturn then { p with col := 0 }
  else { p.write c with col := p.col + 1 }

/-- The row ends after `width` columns. -/
def wrap (width : Nat) (p : Page) : Page := if width ≤ p.col then p.feed else p

def put (width : Nat) (p : Page) (c : UInt8) : Page :=
  if c = nul then p else (p.place c).wrap width

/-- The rows below the cursor are blank. -/
def BlankBelow (p : Page) : Prop := ∀ row col, p.row < row → p.cell row col = space

theorem blank_blankBelow : blank.BlankBelow := fun _ _ _ => rfl

theorem BlankBelow.write {p : Page} (h : p.BlankBelow) (c : UInt8) : (p.write c).BlankBelow := by
  intro row col hrow
  have hne : ¬ (row = p.row ∧ col = p.col) := fun heq => by
    have : p.row < row := hrow
    omega
  exact (if_neg hne).trans (h row col hrow)

/-- After a feed the row of the cursor is blank too. -/
theorem BlankBelow.feed {p : Page} (h : p.BlankBelow) :
    p.feed.BlankBelow ∧ ∀ col, p.feed.cell p.feed.row col = space :=
  ⟨fun row col hrow => h row col (Nat.lt_of_succ_lt hrow), fun col => h _ col (Nat.lt_succ_self _)⟩

/-! ## Text on a blank area -/

/-- A character that is written at the cursor. -/
def Plain (c : UInt8) : Prop :=
  c ≠ nul ∧ c ≠ newline ∧ c ≠ backspace ∧ c ≠ tab ∧ c ≠ carriageReturn

instance (c : UInt8) : Decidable (Plain c) := inferInstanceAs (Decidable (_ ∧ _))

/-- Nothing stands at the cursor, behind it in its row, or below. -/
structure Clear (p : Page) : Prop where
  ahead : ∀ col, p.col ≤ col → p.cell p.row col = space
  below : p.BlankBelow

/-- The cursor as a position in the text, counted from the start of the page. -/
def pos (width : Nat) (p : Page) : Nat := p.row * width + p.col

variable {p : Page} {width : Nat} {c : UInt8}

theorem put_plain (hc : Plain c) :
    p.put width c = wrap width { p.write c with col := p.col + 1 } := by
  obtain ⟨hnul, hnewline, hback, htab, hreturn⟩ := hc
  unfold put place
  grind

/-- The character that is put last does not end the row, or it does. -/
theorem put_plain_cases (hc : Plain c) (hcol : p.col < width) :
    (p.col + 1 < width ∧ p.put width c = { p.write c with col := p.col + 1 }) ∨
      (p.col + 1 = width ∧ p.put width c = (p.write c).feed) := by
  rw [put_plain hc]
  unfold wrap
  by_cases hlast : p.col + 1 < width
  · exact .inl ⟨hlast, if_neg (Nat.not_le.mpr hlast)⟩
  · exact .inr ⟨by omega, if_pos (Nat.le_of_not_lt hlast)⟩

/-- A plain character moves the cursor on by one position. -/
theorem pos_put (hc : Plain c) (hcol : p.col < width) :
    (p.put width c).pos width = p.pos width + 1 ∧ (p.put width c).col < width := by
  rcases put_plain_cases hc hcol with ⟨hlast, hput⟩ | ⟨hlast, hput⟩
  · rw [hput]
    exact ⟨rfl, hlast⟩
  · rw [hput]
    refine ⟨?_, by simp only [feed]; omega⟩
    simp only [pos, feed, write, Nat.add_mul, Nat.one_mul]
    omega

theorem Clear.put (h : p.Clear) (hc : Plain c) (hcol : p.col < width) :
    (p.put width c).Clear := by
  have hbelow := h.below.write c
  rcases put_plain_cases hc hcol with ⟨-, hput⟩ | ⟨-, hput⟩
  · rw [hput]
    refine ⟨fun col hle => ?_, hbelow⟩
    have hle' : p.col + 1 ≤ col := hle
    exact (if_neg (by omega)).trans (h.ahead col (by omega))
  · rw [hput]
    exact ⟨fun col _ => hbelow.feed.2 col, hbelow.feed.1⟩

/-- An erasure in the row of a character takes it back. -/
theorem put_backspace (h : p.Clear) (hc : Plain c) (hcol : p.col + 1 < width) :
    (p.put width c).put width backspace = p := by
  obtain ⟨-, hput⟩ | ⟨hlast, -⟩ := put_plain_cases hc (show p.col < width by omega)
  · have hblank := h.ahead p.col (Nat.le_refl _)
    have hcell : (fun row col => if row = p.row ∧ col = p.col then space
        else if row = p.row ∧ col = p.col then c else p.cell row col) = p.cell := by
      funext row col
      grind
    rw [hput, put, if_neg (by decide), place, if_neg (by decide), if_pos rfl]
    simp only [erase, write, Nat.add_eq_zero_iff, Nat.one_ne_zero, and_false, if_false,
      Nat.add_sub_cancel, hcell]
    exact if_neg (by simp only; omega)
  · omega

/-- At the start of a row an erasure does nothing. -/
theorem put_backspace_of_col_zero (hcol : p.col = 0) (hwidth : 0 < width) :
    p.put width backspace = p := by
  rw [put, if_neg (by decide), place, if_neg (by decide), if_pos rfl, erase, if_pos hcol]
  exact if_neg (by omega)

/-- An erasure moves the cursor back by at most one position. -/
theorem pos_put_backspace (hcol : p.col < width) :
    p.pos width ≤ (p.put width backspace).pos width + 1 ∧ (p.put width backspace).col < width := by
  by_cases hzero : p.col = 0
  · rw [put_backspace_of_col_zero hzero (by omega)]
    exact ⟨Nat.le_succ _, hcol⟩
  · have hput : p.put width backspace = write { p with col := p.col - 1 } space := by
      rw [put, if_neg (by decide), place, if_neg (by decide), if_pos rfl, erase, if_neg hzero]
      exact if_neg (by simp only [write]; omega)
    rw [hput]
    simp only [pos, write]
    omega

/-- Text put on a page. -/
def putAll (width : Nat) (p : Page) (text : List UInt8) : Page := text.foldl (put width) p

theorem putAll_concat (width : Nat) (p : Page) (text : List UInt8) (c : UInt8) :
    p.putAll width (text ++ [c]) = (p.putAll width text).put width c := by
  simp [putAll]

/-- Plain text moves the cursor on by its length and leaves what follows clear. -/
theorem Clear.putAll (h : p.Clear) (hcol : p.col < width) {text : List UInt8}
    (htext : ∀ c ∈ text, Plain c) : (p.putAll width text).Clear ∧
      (p.putAll width text).pos width = p.pos width + text.length ∧
      (p.putAll width text).col < width := by
  induction text using List.reverseRecOn with
  | nil => exact ⟨h, rfl, hcol⟩
  | append_singleton text c ih =>
    obtain ⟨hclear, hpos, hlt⟩ := ih fun b hb => htext b (by simp [hb])
    have hc := htext c (by simp)
    obtain ⟨hpos', hlt'⟩ := pos_put hc hlt
    rw [putAll_concat, hpos', hpos]
    exact ⟨hclear.put hc hlt, by simp [Nat.add_assoc], hlt'⟩

end Page
