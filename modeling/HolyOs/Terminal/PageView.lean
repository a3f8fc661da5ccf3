import HolyOs.Terminal.Tty

/-!
# The terminal shows the tail of a page

Every character that is put on the terminal is also put on a page without end, and the screen
always shows the last rows of the page. Scrolling moves the view down by one row.

## Main definitions

* `Shows t p offset`: the screen shows the page from row `offset` on.
* `Display`: the terminal, the page, and the number of scrolls since the page was blank.
-/
namespace HolyOs.Terminal

open HolyOs.Drivers Page

/-- The screen shows the page from row `offset` on, and the cursors are at the same place. -/
structure Shows (t : Tty) (p : Page) (offset : Nat) : Prop where
  width : t.width = vgaXres
  height : t.height = vgaYres
  col : t.xpos = p.col
  row : t.ypos + offset = p.row
  cells : ∀ x y, x < vgaXres → y < vgaYres → vgaChar t.screen x y = p.cell (y + offset) x
  below : p.BlankBelow

variable {t : Tty} {p : Page} {offset : Nat}

/-! ## Characters that stay on the row -/

theorem Shows.moveTo (h : Shows t p offset) (col : Nat) :
    Shows { t with xpos := col } { p with col := col } offset :=
  { h with col := rfl }

theorem Shows.videoWrite (h : Shows t p offset) (hx : t.xpos < vgaXres) (hy : t.ypos < vgaYres)
    (c : UInt8) : Shows (videoWrite t c) (p.write c) offset where
  width := h.width
  height := h.height
  col := h.col
  row := h.row
  below := h.below.write c
  cells x y hx' hy' := by
    simp only [Terminal.videoWrite, Page.write, vgaChar_write _ _ _ _ hx hy hx',
      h.cells x y hx' hy', ← h.col, ← h.row]
    grind

theorem tab_stop {x : Nat} (hx : x < vgaXres) :
    ((x + 4) &&& Word32.not 3) % 2 ^ 16 = (x / 4 + 1) * 4 := by
  simp only [vgaXres] at hx
  have hmask : (x + 4) &&& Word32.not (2 ^ 2 - 1) = (x + 4) / 2 ^ 2 * 2 ^ 2 :=
    Word32.and_not_mask (by omega) (by omega)
  rw [show Word32.not 3 = Word32.not (2 ^ 2 - 1) from rfl, hmask]
  omega

theorem Shows.place (h : Shows t p offset) (hx : t.xpos < vgaXres) (hy : t.ypos < vgaYres)
    {c : UInt8} (hc : c ≠ newline) :
    Shows (ttyPlace t c) (p.place c) offset ∧ (ttyPlace t c).ypos = t.ypos ∧
      (ttyPlace t c).xpos ≤ vgaXres := by
  have hcol := h.col
  unfold ttyPlace Page.place
  rw [if_neg hc, if_neg hc]
  split_ifs with hback hpos htab hreturn
  · have hmoved := h.moveTo (t.xpos - 1)
    unfold Page.erase
    rw [if_neg (by omega), ← hcol]
    exact ⟨hmoved.videoWrite (show t.xpos - 1 < vgaXres by omega) hy space, rfl,
      show t.xpos - 1 ≤ vgaXres by omega⟩
  · unfold Page.erase
    rw [if_pos (by omega)]
    exact ⟨h, rfl, hx.le⟩
  · have hmoved := h.moveTo ((t.xpos / 4 + 1) * 4)
    rw [tab_stop hx]
    refine ⟨?_, rfl, ?_⟩
    · unfold Page.tabulate
      rw [← hcol]
      exact hmoved
    · simp only [vgaXres] at hx ⊢
      omega
  · exact ⟨h.moveTo 0, rfl, Nat.zero_le _⟩
  · have hnext : (t.xpos + 1) % 2 ^ 16 = t.xpos + 1 := by
      simp only [vgaXres] at hx
      omega
    rw [hnext, ← hcol]
    exact ⟨(h.videoWrite hx hy c).moveTo (t.xpos + 1), rfl, hx⟩

/-! ## The next row -/

/-- The number of scrolls that a row takes. -/
def rowScrolls (t : Tty) : Nat := if t.height ≤ t.ypos then 1 else 0

/-- The cursor goes to the start of the next row, and the screen scrolls when that is below it. -/
theorem Shows.feed (h : Shows t p offset) (hy : t.ypos < vgaYres) :
    Shows (ttyScroll (ttyFeed t)) p.feed (offset + rowScrolls (ttyFeed t)) ∧
      (ttyScroll (ttyFeed t)).ypos < vgaYres := by
  obtain ⟨hbelow, hrow⟩ := h.below.feed
  have hwidth := h.width
  have hheight := h.height
  have hcursor := h.row
  simp only [vgaXres, vgaYres] at hwidth hheight hy
  have hnext : (t.ypos + 1) % 2 ^ 16 = t.ypos + 1 := by omega
  by_cases hlast : t.ypos + 1 < 25
  · have hstay : ¬ (ttyFeed t).height ≤ (ttyFeed t).ypos := by
      simp only [ttyFeed, hnext]
      omega
    rw [ttyScroll, rowScrolls, if_neg hstay, if_neg hstay]
    refine ⟨⟨h.width, h.height, rfl, ?_, h.cells, hbelow⟩, ?_⟩ <;>
      simp only [ttyFeed, Page.feed, vgaYres, hnext] <;> omega
  · have hscroll : (ttyFeed t).height ≤ (ttyFeed t).ypos := by
      simp only [ttyFeed, hnext]
      omega
    rw [ttyScroll, rowScrolls, if_pos hscroll, if_pos hscroll]
    refine ⟨⟨h.width, h.height, rfl, ?_, fun x y hx hy' => ?_, hbelow⟩, ?_⟩
    · simp only [ttyFeed, Page.feed]
      omega
    · by_cases hmoved : y + 1 < vgaYres
      · have hcell := h.cells x (y + 1) hx hmoved
        rw [Nat.add_assoc, Nat.add_comm 1 offset] at hcell
        exact (vgaChar_scroll t.screen hx hmoved).trans hcell
      · simp only [vgaYres] at hy' hmoved
        obtain rfl : y = 24 := by omega
        have hblank := hrow x
        have hbottom : p.feed.row = 24 + (offset + 1) := by
          simp only [Page.feed]
          omega
        rw [hbottom] at hblank
        exact (vgaChar_scroll_last t.screen hx).trans hblank.symm
    · simp only [ttyFeed, vgaYres]
      omega

@[simp] theorem ttyScroll_xpos (t : Tty) : (ttyScroll t).xpos = t.xpos := by
  unfold ttyScroll
  split_ifs <;> rfl

/-- The end of `tty_putchar`. -/
theorem Shows.wrap (h : Shows t p offset) (hy : t.ypos < vgaYres) (hx : t.xpos ≤ vgaXres) :
    Shows (ttyScroll (ttyWrap t)) (p.wrap vgaXres) (offset + rowScrolls (ttyWrap t)) ∧
      (ttyScroll (ttyWrap t)).xpos < vgaXres ∧ (ttyScroll (ttyWrap t)).ypos < vgaYres := by
  have hwidth := h.width
  have hheight := h.height
  have hcol := h.col
  unfold ttyWrap Page.wrap
  split_ifs with hfull hfull'
  · obtain ⟨hshows, hrow⟩ := h.feed hy
    refine ⟨hshows, ?_, hrow⟩
    rw [ttyScroll_xpos]
    exact Nat.zero_lt_succ 79
  · omega
  · omega
  · have hstay : ¬ t.height ≤ t.ypos := by omega
    rw [ttyScroll, rowScrolls, if_neg hstay, if_neg hstay]
    exact ⟨h, by omega, hy⟩

/-! ## Calls -/

theorem Shows.putchar (h : Shows t p offset) (hx : t.xpos < vgaXres) (hy : t.ypos < vgaYres)
    (c : UInt8) : Shows (ttyPutchar t c) (p.put vgaXres c) (offset + ttyScrolls t c) ∧
      (ttyPutchar t c).xpos < vgaXres ∧ (ttyPutchar t c).ypos < vgaYres := by
  unfold ttyPutchar Page.put ttyScrolls
  split_ifs with hnul
  · exact ⟨h, hx, hy⟩
  · by_cases hnewline : c = newline
    · subst hnewline
      have hwidth := h.width
      have hstay : ¬ (ttyFeed t).width ≤ (ttyFeed t).xpos := by
        simp only [ttyFeed, hwidth, vgaXres]
        omega
      have hplace : ttyWrap (ttyPlace t newline) = ttyFeed t := if_neg hstay
      have hpage : (p.place newline).wrap vgaXres = p.feed := rfl
      obtain ⟨hshows, hrow⟩ := h.feed hy
      rw [hplace, hpage]
      refine ⟨hshows, ?_, hrow⟩
      rw [ttyScroll_xpos]
      exact Nat.zero_lt_succ 79
    · obtain ⟨hplaced, hrow, hcol⟩ := h.place hx hy hnewline
      exact hplaced.wrap (hrow ▸ hy) hcol

theorem shows_clear (hwidth : t.width = vgaXres) (hheight : t.height = vgaYres) :
    Shows (ttyClear t) Page.blank 0 where
  width := hwidth
  height := hheight
  col := rfl
  row := rfl
  cells _ _ hx hy := by
    simp only [ttyClear, vgaChar_clear t.screen t.bg hx hy]
    rfl
  below := Page.blank_blankBelow

inductive TtyOp
  | putchar (c : UInt8)
  | clear

/-- The terminal, the page with the same characters, and the scrolls since both were cleared. -/
structure Display where
  tty : Tty
  page : Page
  scrolls : Nat

def Display.enter (s : Display) : TtyOp → Display
  | .putchar c => ⟨ttyPutchar s.tty c, s.page.put vgaXres c, s.scrolls + ttyScrolls s.tty c⟩
  | .clear => ⟨ttyClear s.tty, Page.blank, 0⟩

/-- The cleared terminal. -/
def Display.start (t : Tty) : Display := ⟨ttyClear t, Page.blank, 0⟩

/-- The terminal shows the page from the row on that is the number of scrolls. -/
structure Display.ShowsTail (s : Display) : Prop where
  cells : ∀ x y, x < vgaXres → y < vgaYres →
    vgaChar s.tty.screen x y = s.page.cell (y + s.scrolls) x
  xpos : s.tty.xpos = s.page.col
  ypos : s.tty.ypos + s.scrolls = s.page.row
  xpos_lt : s.tty.xpos < vgaXres
  ypos_lt : s.tty.ypos < vgaYres

/-- The invariant of the calls. -/
structure Display.Sound (s : Display) : Prop where
  shows : Shows s.tty s.page s.scrolls
  xpos_lt : s.tty.xpos < vgaXres
  ypos_lt : s.tty.ypos < vgaYres

theorem Display.Sound.cleared (hwidth : t.width = vgaXres) (hheight : t.height = vgaYres) :
    (Display.start t).Sound where
  shows := shows_clear hwidth hheight
  xpos_lt := Nat.zero_lt_succ 79
  ypos_lt := Nat.zero_lt_succ 24

theorem Display.Sound.enter {s : Display} (h : s.Sound) (op : TtyOp) : (s.enter op).Sound := by
  cases op with
  | putchar c =>
    obtain ⟨hshows, hx, hy⟩ := h.shows.putchar h.xpos_lt h.ypos_lt c
    exact ⟨hshows, hx, hy⟩
  | clear => exact .cleared h.shows.width h.shows.height

theorem Display.Sound.run {s : Display} (h : s.Sound) (ops : List TtyOp) :
    (ops.foldl Display.enter s).Sound := by
  induction ops generalizing s with
  | nil => exact h
  | cons op ops ih => exact ih (h.enter op)

/-- After any calls on a cleared terminal of 80 columns and 25 rows, the screen shows the tail of
the page that has the same characters. -/
theorem tty_shows_page_tail (hwidth : t.width = vgaXres) (hheight : t.height = vgaYres)
    (ops : List TtyOp) : (ops.foldl Display.enter (.start t)).ShowsTail := by
  have hs := (Display.Sound.cleared hwidth hheight).run ops
  exact ⟨hs.shows.cells, hs.shows.col, hs.shows.row, hs.xpos_lt, hs.ypos_lt⟩

/-- A tab and a letter. -/
theorem tty_shows_page_tail_letter :
    let t : Tty := ⟨fun _ => 0, 80, 25, ⟨255, 255, 255⟩, ⟨0, 0, 0⟩, 3, 7, fun _ => 0⟩
    (([.putchar tab, .putchar 65] : List TtyOp).foldl Display.enter (.start t)).ShowsTail :=
  tty_shows_page_tail rfl rfl _

end HolyOs.Terminal
