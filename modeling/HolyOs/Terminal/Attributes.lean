import HolyOs.Terminal.Line
import Mathlib.Data.List.Forall2

/-!
# The attributes of the screen

What is put on the terminal reaches the screen by calls of the video driver. On the attribute bytes
a call paints one color or moves the rows, whatever the character is, as long as its `char` value is
not negative.

## Main definitions

* `VideoCall`: a call of `video_write` or `video_scroll`, made by `tty_putchar`.
* `VideoCall.paint`: its effect on a plane of attributes.
* `AttributesRight`: every cell drawn so far has the attribute of the terminal, at any time.
-/
namespace HolyOs.Terminal

open ByteMemory HolyOs.Drivers Page

/-! ## Calls of the video driver -/

inductive VideoCall where
  | write (c : UInt8) (x y : Nat)
  | scroll

/-- The call in the cases of `tty_putchar`. -/
def placeCalls (t : Tty) (c : UInt8) : List VideoCall :=
  if c = newline then []
  else if c = backspace then
    if 0 < t.xpos then [.write space (t.xpos - 1) t.ypos] else []
  else if c = tab then []
  else if c = carriageReturn then []
  else [.write c t.xpos t.ypos]

/-- The calls of `tty_putchar`. -/
def putcharCalls (t : Tty) (c : UInt8) : List VideoCall :=
  if c = nul then [] else placeCalls t c ++ List.replicate (ttyScrolls t c) .scroll

/-- The calls for a sequence of characters. -/
def writeCalls : Tty → List UInt8 → List VideoCall
  | _, [] => []
  | t, c :: str => putcharCalls t c ++ writeCalls (ttyPutchar t c) str

namespace VideoCall

/-- The driver, on its buffer. -/
def draw (fg bg : VideoColor) (m : Memory) : VideoCall → Memory
  | write c x y => vgaWrite m c x y fg bg
  | scroll => vgaScroll m

/-- The cells whose content was last written by `vga_write`. -/
def mark (drawn : Nat → Nat → Prop) : VideoCall → Nat → Nat → Prop
  | write _ x y => fun x' y' => (x' = x ∧ y' = y) ∨ drawn x' y'
  | scroll => fun x y => y + 1 < vgaYres ∧ drawn x (y + 1)

/-- The attributes, when every character gets the color. -/
def paint (color : UInt8) (plane : Nat → Nat → UInt8) : VideoCall → Nat → Nat → UInt8
  | write _ x y => fun x' y' => if x' = x ∧ y' = y then color else plane x' y'
  | scroll => fun x y => if y + 1 < vgaYres then plane x (y + 1) else 0x07

/-- Where it writes. -/
def place : VideoCall → Option (Nat × Nat)
  | write _ x y => some (x, y)
  | scroll => none

/-- The character is not negative. -/
def Ascii : VideoCall → Prop
  | write c _ _ => c < 0x80
  | scroll => True

end VideoCall

/-- The cells drawn in a sequence of characters. -/
def Drawn (t : Tty) (str : List UInt8) : Nat → Nat → Prop :=
  (writeCalls t str).foldl VideoCall.mark fun _ _ => False

/-! ## The plane of attributes -/

/-- The attribute bytes of the screen. -/
def HasAttributes (m : Memory) (plane : Nat → Nat → UInt8) : Prop :=
  ∀ x y, x < vgaXres → y < vgaYres → vgaAttribute m x y = plane x y

variable {m : Memory} {plane : Nat → Nat → UInt8} {fg bg : VideoColor}

theorem HasAttributes.draw (h : HasAttributes m plane) {call : VideoCall} (hcall : call.Ascii) :
    HasAttributes (call.draw fg bg m) (call.paint (vgaColor fg bg) plane) := by
  intro x' y' hx' hy'
  cases call with
  | write c x y =>
    have hc : c < 0x80 := hcall
    simp only [VideoCall.draw, VideoCall.paint]
    by_cases hinside : x < vgaXres ∧ y < vgaYres
    · rw [vgaAttribute_write m c fg bg hinside.1 hinside.2 hx', if_pos hc, h x' y' hx' hy']
    · rw [vgaWrite_outside m c fg bg (by omega), h x' y' hx' hy', if_neg (by omega)]
  | scroll =>
    simp only [VideoCall.draw, VideoCall.paint]
    rw [vgaAttribute_scroll m hx' hy']
    split_ifs with hrow
    · exact h x' (y' + 1) hx' hrow
    · rfl

theorem HasAttributes.run (h : HasAttributes m plane) {calls : List VideoCall}
    (hcalls : ∀ call ∈ calls, call.Ascii) :
    HasAttributes (calls.foldl (VideoCall.draw fg bg) m)
      (calls.foldl (VideoCall.paint (vgaColor fg bg)) plane) := by
  induction calls generalizing m plane with
  | nil => exact h
  | cons call calls ih =>
    obtain ⟨hcall, hcalls⟩ := List.forall_mem_cons.mp hcalls
    exact ih (h.draw hcall) hcalls

/-- A drawn cell has the color. -/
theorem paint_of_mark {color : UInt8} {drawn : Nat → Nat → Prop} (calls : List VideoCall)
    (h : ∀ x y, drawn x y → plane x y = color) :
    ∀ x y, calls.foldl VideoCall.mark drawn x y →
      calls.foldl (VideoCall.paint color) plane x y = color := by
  induction calls generalizing drawn plane with
  | nil => exact h
  | cons call calls ih =>
    apply ih
    intro x' y' hdrawn
    cases call <;> grind [VideoCall.mark, VideoCall.paint]

/-- The characters do not matter. -/
theorem paint_congr {color : UInt8} {calls calls' : List VideoCall}
    (h : calls.map VideoCall.place = calls'.map VideoCall.place) :
    calls.foldl (VideoCall.paint color) plane = calls'.foldl (VideoCall.paint color) plane := by
  induction calls generalizing calls' plane with
  | nil =>
    rw [List.map_nil, eq_comm, List.map_eq_nil_iff] at h
    rw [h]
  | cons call calls ih =>
    obtain ⟨call', calls', rfl⟩ : ∃ call' rest, calls' = call' :: rest := by
      cases calls' with
      | nil => cases h
      | cons call' rest => exact ⟨call', rest, rfl⟩
    simp only [List.map_cons, List.cons.injEq] at h
    have hpaint : VideoCall.paint color plane call = VideoCall.paint color plane call' := by
      have hplace := h.1
      cases call <;> cases call' <;> grind [VideoCall.place, VideoCall.paint]
    rw [List.foldl_cons, List.foldl_cons, hpaint]
    exact ih h.2

/-! ## The terminal makes the calls -/

/-- What no character changes: the colors and the size. -/
structure SameFrame (t t' : Tty) : Prop where
  fg : t'.fg = t.fg
  bg : t'.bg = t.bg
  width : t'.width = t.width
  height : t'.height = t.height

theorem SameFrame.trans {t u v : Tty} (h : SameFrame t u) (h' : SameFrame u v) : SameFrame t v :=
  ⟨h'.fg.trans h.fg, h'.bg.trans h.bg, h'.width.trans h.width, h'.height.trans h.height⟩

section Calls

variable (t : Tty) (c : UInt8)

theorem sameFrame_place : SameFrame t (ttyPlace t c) := by
  unfold ttyPlace
  split_ifs <;> exact ⟨rfl, rfl, rfl, rfl⟩

theorem sameFrame_wrap : SameFrame t (ttyWrap t) := by
  unfold ttyWrap
  split_ifs <;> exact ⟨rfl, rfl, rfl, rfl⟩

theorem sameFrame_scroll : SameFrame t (ttyScroll t) := by
  unfold ttyScroll
  split_ifs <;> exact ⟨rfl, rfl, rfl, rfl⟩

theorem sameFrame_putchar : SameFrame t (ttyPutchar t c) := by
  unfold ttyPutchar
  split_ifs
  · exact ⟨rfl, rfl, rfl, rfl⟩
  · exact ((sameFrame_place t c).trans (sameFrame_wrap _)).trans (sameFrame_scroll _)

theorem ttyPlace_screen :
    (ttyPlace t c).screen = (placeCalls t c).foldl (VideoCall.draw t.fg t.bg) t.screen := by
  unfold ttyPlace placeCalls
  split_ifs <;> rfl

theorem ttyWrap_screen : (ttyWrap t).screen = t.screen := by
  unfold ttyWrap
  split_ifs <;> rfl

theorem ttyPutchar_screen :
    (ttyPutchar t c).screen = (putcharCalls t c).foldl (VideoCall.draw t.fg t.bg) t.screen := by
  unfold ttyPutchar putcharCalls ttyScrolls
  split_ifs with hnul
  · rfl
  · rw [List.foldl_append, ← ttyPlace_screen, ttyScroll]
    split_ifs with hscroll
    · simp [VideoCall.draw, ttyWrap_screen, hscroll]
    · simp [ttyWrap_screen, hscroll]

theorem ttyWrite_screen (str : List UInt8) :
    (ttyWrite t str).screen = (writeCalls t str).foldl (VideoCall.draw t.fg t.bg) t.screen := by
  induction str generalizing t with
  | nil => rfl
  | cons c str ih =>
    have hframe := sameFrame_putchar t c
    have hrest := ih (ttyPutchar t c)
    rw [hframe.fg, hframe.bg, ttyPutchar_screen] at hrest
    rw [writeCalls, List.foldl_append]
    exact hrest

theorem putcharCalls_ascii (hc : c < 0x80) : ∀ call ∈ putcharCalls t c, call.Ascii := by
  have hspace : space < 0x80 := by decide
  intro call hcall
  unfold putcharCalls placeCalls at hcall
  cases call <;> grind [VideoCall.Ascii]

theorem writeCalls_ascii {str : List UInt8} (hstr : ∀ c ∈ str, c < 0x80) :
    ∀ call ∈ writeCalls t str, call.Ascii := by
  induction str generalizing t with
  | nil => exact nofun
  | cons c str ih =>
    obtain ⟨hc, hstr⟩ := List.forall_mem_cons.mp hstr
    intro call hcall
    rcases List.mem_append.mp hcall with hcall | hcall
    · exact putcharCalls_ascii t c hc call hcall
    · exact ih (ttyPutchar t c) hstr call hcall

theorem writeCalls_append (str rest : List UInt8) :
    writeCalls t (str ++ rest) = writeCalls t str ++ writeCalls (ttyWrite t str) rest := by
  induction str generalizing t with
  | nil => rfl
  | cons c str ih =>
    rw [List.cons_append, writeCalls, writeCalls, ih, List.append_assoc]
    rfl

end Calls

/-! ## Only the control characters move the cursor differently -/

/-- The two characters are the same control character, or none of them is one. -/
def SameKind (c d : UInt8) : Prop :=
  ∀ k ∈ [nul, newline, backspace, tab, carriageReturn], d = k ↔ c = k

structure SameCursor (t u : Tty) : Prop where
  width : u.width = t.width
  height : u.height = t.height
  xpos : u.xpos = t.xpos
  ypos : u.ypos = t.ypos

section Cursor

variable {t u : Tty} {c d : UInt8}

theorem SameCursor.place (h : SameCursor t u) (hkind : SameKind c d) :
    SameCursor (ttyPlace t c) (ttyPlace u d) ∧
      (placeCalls t c).map VideoCall.place = (placeCalls u d).map VideoCall.place := by
  obtain ⟨hwidth, hheight, hxpos, hypos⟩ := h
  simp only [SameKind, List.forall_mem_cons, List.not_mem_nil, false_imp_iff, implies_true,
    and_true] at hkind
  obtain ⟨-, hnewline, hbackspace, htab, hreturn⟩ := hkind
  unfold ttyPlace placeCalls
  simp only [hnewline, hbackspace, htab, hreturn, hxpos]
  constructor
  · split_ifs <;> constructor <;> simp [ttyFeed, videoWrite, hwidth, hheight, hxpos, hypos]
  · split_ifs <;> simp [VideoCall.place, hypos]

theorem SameCursor.wrap (h : SameCursor t u) : SameCursor (ttyWrap t) (ttyWrap u) := by
  obtain ⟨hwidth, hheight, hxpos, hypos⟩ := h
  unfold ttyWrap ttyFeed
  rw [hwidth, hxpos]
  split_ifs <;> constructor <;> simp [hwidth, hheight, hxpos, hypos]

theorem SameCursor.scroll (h : SameCursor t u) : SameCursor (ttyScroll t) (ttyScroll u) := by
  obtain ⟨hwidth, hheight, hxpos, hypos⟩ := h
  unfold ttyScroll
  rw [hheight, hypos]
  split_ifs <;> constructor <;> simp [hwidth, hheight, hxpos, hypos]

theorem SameCursor.putchar (h : SameCursor t u) (hkind : SameKind c d) :
    SameCursor (ttyPutchar t c) (ttyPutchar u d) ∧
      (putcharCalls t c).map VideoCall.place = (putcharCalls u d).map VideoCall.place := by
  obtain ⟨hplace, hcalls⟩ := h.place hkind
  have hnul : d = nul ↔ c = nul := hkind nul (by simp)
  have hrow := hplace.wrap
  by_cases hzero : c = nul
  · simpa [ttyPutchar, putcharCalls, hnul, hzero] using h
  · simp only [ttyPutchar, putcharCalls, ttyScrolls, hnul, hzero, if_false, List.map_append,
      List.map_replicate, hcalls, hrow.height, hrow.ypos, and_true]
    exact hrow.scroll

theorem SameCursor.write (h : SameCursor t u) {str str' : List UInt8}
    (hkinds : List.Forall₂ SameKind str str') :
    (writeCalls t str).map VideoCall.place = (writeCalls u str').map VideoCall.place := by
  induction hkinds generalizing t u with
  | nil => rfl
  | cons hkind _ ih =>
    obtain ⟨hcursor, hcalls⟩ := h.putchar hkind
    rw [writeCalls, writeCalls, List.map_append, List.map_append, hcalls, ih hcursor]

end Cursor

/-! ## The cursor is on the screen -/

/-- The terminal has the size of the screen, and its cursor is on it. -/
structure OnScreen (t : Tty) : Prop where
  width : t.width = vgaXres
  height : t.height = vgaYres
  xpos_lt : t.xpos < vgaXres
  ypos_lt : t.ypos < vgaYres

section OnScreen

variable {t : Tty} {c : UInt8}

/-- A character leaves the cursor in its row, or puts it at the start of the next one. -/
theorem OnScreen.place (h : OnScreen t) (c : UInt8) :
    (ttyPlace t c).ypos = t.ypos ∨
      (ttyPlace t c).ypos = t.ypos + 1 ∧ (ttyPlace t c).xpos = 0 := by
  have hrow := h.ypos_lt
  simp only [vgaYres] at hrow
  unfold ttyPlace ttyFeed videoWrite
  split_ifs <;> simp
  omega

theorem OnScreen.wrap (h : OnScreen t) (c : UInt8) : (ttyWrap (ttyPlace t c)).xpos < vgaXres ∧
    (ttyWrap (ttyPlace t c)).ypos ≤ t.ypos + 1 := by
  have hplace := h.place c
  have hrow := h.ypos_lt
  have hwidth := (sameFrame_place t c).width.trans h.width
  simp only [vgaXres, vgaYres] at *
  unfold ttyWrap ttyFeed
  split_ifs <;> grind

theorem OnScreen.putchar (h : OnScreen t) (c : UInt8) : OnScreen (ttyPutchar t c) := by
  obtain ⟨-, -, hwidth, hheight⟩ := sameFrame_putchar t c
  obtain ⟨hx, hy⟩ := h.wrap c
  have hframe := (sameFrame_place t c).trans (sameFrame_wrap (ttyPlace t c))
  have hrows := hframe.height.trans h.height
  have hxpos := h.xpos_lt
  have hypos := h.ypos_lt
  refine ⟨hwidth.trans h.width, hheight.trans h.height, ?_, ?_⟩
  · unfold ttyPutchar ttyScroll
    split_ifs <;> assumption
  · unfold ttyPutchar ttyScroll
    split_ifs
    · assumption
    · simp [hrows]
    · omega

theorem OnScreen.write (h : OnScreen t) (str : List UInt8) : OnScreen (ttyWrite t str) := by
  unfold ttyWrite
  induction str generalizing t with
  | nil => exact h
  | cons c str ih => exact ih (h.putchar c)

theorem onScreen_ttyInit (screen : Memory) : OnScreen (ttyInit screen) := by
  apply OnScreen.write
  constructor <;> simp

/-- A negative character leaves a wrong attribute, at the cursor or in the row above it. -/
theorem OnScreen.leak (h : OnScreen t) (hc : 0x80 ≤ c) (drawn : Nat → Nat → Prop) :
    ∃ x y, x < vgaXres ∧ y < vgaYres ∧ (putcharCalls t c).foldl VideoCall.mark drawn x y ∧
      vgaAttribute (ttyPutchar t c).screen x y = 0xFF := by
  have hcontrol : c ≠ nul ∧ c ≠ newline ∧ c ≠ backspace ∧ c ≠ tab ∧ c ≠ carriageReturn := by
    refine ⟨?_, ?_, ?_, ?_, ?_⟩ <;> rintro rfl <;> exact absurd hc (by decide)
  obtain ⟨hnul, hnewline, hbackspace, htab, hreturn⟩ := hcontrol
  have hcalls : putcharCalls t c =
      .write c t.xpos t.ypos :: List.replicate (ttyScrolls t c) .scroll := by
    simp [putcharCalls, placeCalls, hnul, hnewline, hbackspace, htab, hreturn]
  have hattribute : vgaAttribute (vgaWrite t.screen c t.xpos t.ypos t.fg t.bg) t.xpos t.ypos =
      0xFF := by
    rw [vgaAttribute_write _ _ _ _ h.xpos_lt h.ypos_lt h.xpos_lt, if_pos ⟨rfl, rfl⟩,
      if_neg (UInt8.not_lt.mpr hc)]
  rw [ttyPutchar_screen, hcalls]
  have hrows := (((sameFrame_place t c).trans (sameFrame_wrap _)).height).trans h.height
  by_cases hscroll : vgaYres ≤ (ttyWrap (ttyPlace t c)).ypos
  · have hlast : t.ypos - 1 + 1 = t.ypos := by
      have hbelow := (h.wrap c).2
      simp only [vgaYres] at hscroll
      omega
    have hscrolls : ttyScrolls t c = 1 := by
      simp only [ttyScrolls, hnul, if_false, hrows, if_pos hscroll]
    have hrow := h.ypos_lt
    refine ⟨t.xpos, t.ypos - 1, h.xpos_lt, by omega, ?_, ?_⟩
    · rw [hscrolls]
      simpa [VideoCall.mark, hlast] using hrow
    · rw [hscrolls]
      simp only [List.replicate_one, List.foldl_cons, List.foldl_nil, VideoCall.draw]
      rw [vgaAttribute_scroll _ h.xpos_lt (by omega), hlast, if_pos hrow, hattribute]
  · have hscrolls : ttyScrolls t c = 0 := by
      simp only [ttyScrolls, hnul, if_false, hrows, if_neg hscroll]
    refine ⟨t.xpos, t.ypos, h.xpos_lt, h.ypos_lt, ?_, ?_⟩
    · rw [hscrolls]
      simp [VideoCall.mark]
    · rw [hscrolls]
      exact hattribute

end OnScreen

/-! ## Text and colors -/

/-- At any time in the sequence, the cells drawn so far have the attribute of the terminal. -/
def AttributesRight (t : Tty) (str : List UInt8) : Prop :=
  ∀ before, before <+: str → ∀ x y, x < vgaXres → y < vgaYres → Drawn t before x y →
    vgaAttribute (ttyWrite t before).screen x y = vgaColor t.fg t.bg

/-- The screens agree on all attribute bytes. -/
def SameAttributes (m m' : Memory) : Prop :=
  ∀ x y, x < vgaXres → y < vgaYres → vgaAttribute m x y = vgaAttribute m' x y

theorem hasAttributes_write (t : Tty) {str : List UInt8} (hstr : ∀ c ∈ str, c < 0x80) :
    HasAttributes (ttyWrite t str).screen ((writeCalls t str).foldl
      (VideoCall.paint (vgaColor t.fg t.bg)) (vgaAttribute t.screen)) := by
  rw [ttyWrite_screen]
  apply HasAttributes.run
  · exact fun _ _ _ _ => rfl
  · exact writeCalls_ascii t hstr

theorem attributesRight_iff {t : Tty} (h : OnScreen t) (str : List UInt8) :
    AttributesRight t str ↔ ∀ c ∈ str, c < 0x80 := by
  constructor
  · intro hright c hc
    by_contra hhigh
    obtain ⟨before, after, rfl⟩ := List.append_of_mem hc
    obtain ⟨x, y, hx, hy, hdrawn, hleak⟩ :=
      (h.write before).leak (UInt8.not_lt.mp hhigh) (Drawn t before)
    have hcalls : Drawn t (before ++ [c]) x y := by
      rw [Drawn, writeCalls_append, List.foldl_append]
      simpa [writeCalls, Drawn] using hdrawn
    have hafter : ttyWrite t (before ++ [c]) = ttyPutchar (ttyWrite t before) c := by
      simp [ttyWrite]
    have hattribute := hright (before ++ [c]) (by simp) x y hx hy hcalls
    rw [hafter, hleak] at hattribute
    exact vgaColor_ne t.fg t.bg hattribute.symm
  · intro hstr before hbefore x y hx hy hdrawn
    rw [hasAttributes_write t (fun c hc => hstr c (hbefore.subset hc)) x y hx hy]
    exact paint_of_mark _ (fun _ _ hnone => absurd hnone id) x y hdrawn

theorem sameAttributes_of_sameKind {t : Tty} {str str' : List UInt8}
    (hstr : ∀ c ∈ str, c < 0x80) (hstr' : ∀ c ∈ str', c < 0x80)
    (hkinds : List.Forall₂ SameKind str str') :
    SameAttributes (ttyWrite t str).screen (ttyWrite t str').screen := by
  have hcursor : SameCursor t t := ⟨rfl, rfl, rfl, rfl⟩
  intro x y hx hy
  rw [hasAttributes_write t hstr x y hx hy, hasAttributes_write t hstr' x y hx hy,
    paint_congr (hcursor.write hkinds)]

/-- The text of two sequences stays out of the colors exactly when no character of them is
negative. -/
theorem text_in_colors_iff {t : Tty} (h : OnScreen t) (str str' : List UInt8) :
    (AttributesRight t str ∧ AttributesRight t str' ∧ (List.Forall₂ SameKind str str' →
        SameAttributes (ttyWrite t str).screen (ttyWrite t str').screen)) ↔
      ∀ c ∈ str ++ str', c < 0x80 := by
  rw [attributesRight_iff h, attributesRight_iff h, List.forall_mem_append]
  constructor
  · rintro ⟨hstr, hstr', -⟩
    exact ⟨hstr, hstr'⟩
  · rintro ⟨hstr, hstr'⟩
    exact ⟨hstr, hstr', sameAttributes_of_sameKind hstr hstr'⟩

theorem text_in_colors_iff_letters :
    (AttributesRight (ttyInit fun _ => 0) [0x61] ∧ AttributesRight (ttyInit fun _ => 0) [0x62] ∧
        (List.Forall₂ SameKind [0x61] [0x62] →
          SameAttributes (ttyWrite (ttyInit fun _ => 0) [0x61]).screen
            (ttyWrite (ttyInit fun _ => 0) [0x62]).screen)) ↔
      ∀ c ∈ [(0x61 : UInt8)] ++ [0x62], c < 0x80 :=
  text_in_colors_iff (onScreen_ttyInit fun _ => 0) [0x61] [0x62]

/-- A single character with the top bit. -/
theorem text_leaks_into_colors : ¬ ∀ (t : Tty) (str str' : List UInt8), OnScreen t →
    AttributesRight t str ∧ (List.Forall₂ SameKind str str' →
      SameAttributes (ttyWrite t str).screen (ttyWrite t str').screen) := by
  intro h
  have hright := (h (ttyInit fun _ => 0) [0x80] [] (onScreen_ttyInit _)).1
  rw [attributesRight_iff (onScreen_ttyInit _)] at hright
  exact absurd (hright 0x80 (by simp)) (by decide)

end HolyOs.Terminal
