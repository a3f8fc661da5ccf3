import HolyOs.Terminal.Command
import HolyOs.Terminal.PageView

/-!
# What is typed and what is seen

A key press changes the line and the screen by different code. Next to the terminal runs the page
of everything that was put on it. As long as no erasure meets the cursor at the start of a row,
the page is the prompt and the line and nothing else; after that the cursor is ahead of the line
for good.
-/
namespace HolyOs.Terminal

open ByteMemory HolyOs.Drivers HolyOs.Lib LineEditor Page

/-- The number of calls of `video_scroll` in `tty_write`. -/
def ttyWriteScrolls : Tty → List UInt8 → Nat
  | _, [] => 0
  | t, c :: str => ttyScrolls t c + ttyWriteScrolls (ttyPutchar t c) str

/-- The number of calls of `video_scroll` in `tty_handle_keypress`, for a key other than enter. -/
def keypressScrolls (t : Tty) (event : KeyEvent) : Nat :=
  let ascii := event.ascii
  if ascii = nul then 0
  else if ascii = backspace then
    if 0 < bufPos t then ttyScrolls (setBufPos t (bufPos t - 1)) backspace else 0
  else if bufPos t < ttyBufferSize then
    ttyScrolls (setBufPos (storeChar t ascii) (bufPos t + 1)) ascii
  else 0

/-- The terminal after these keys, and how far they scrolled it. -/
def ttyType (junk : Memory) (t : Tty) : List KeyEvent → Except FormatFault (Tty × Nat)
  | [] => .ok (t, 0)
  | event :: events =>
    match ttyHandleKeypress junk t event with
    | .error fault => .error fault
    | .ok (t', _) =>
      match ttyType junk t' events with
      | .error fault => .error fault
      | .ok (t'', scrolls) => .ok (t'', keypressScrolls t event + scrolls)

def promptText : List UInt8 := (CString.ascii "$ ").bytes

/-- The contents of the line buffer. -/
def lineText (t : Tty) : List UInt8 := readBytes t.line 0 (bufPos t)

/-- A printable character or a backspace. -/
def Typed (event : KeyEvent) : Prop :=
  event.ascii = backspace ∨ (0x20 ≤ event.ascii ∧ event.ascii ≤ 0x7E)

/-- From the row of the prompt on, `t` shows what `start` shows after the prompt and the line of
`t` are printed, when `t` was scrolled `scrolls` times since then. Rows that `t` shows below the
other screen are blank. -/
structure MirrorsLine (start t : Tty) (scrolls : Nat) : Prop where
  col : t.xpos = (ttyWrite start (promptText ++ lineText t)).xpos
  row : t.ypos + scrolls = (ttyWrite start (promptText ++ lineText t)).ypos +
    ttyWriteScrolls start (promptText ++ lineText t)
  text : ∀ x y y', x < vgaXres → y < vgaYres → y' < vgaYres →
    y + scrolls = y' + ttyWriteScrolls start (promptText ++ lineText t) →
    start.ypos ≤ y + scrolls →
    vgaChar t.screen x y = vgaChar (ttyWrite start (promptText ++ lineText t)).screen x y'
  blank : ∀ x y, x < vgaXres → y < vgaYres →
    vgaYres + ttyWriteScrolls start (promptText ++ lineText t) ≤ y + scrolls →
    vgaChar t.screen x y = space

/-- No key erases the character behind which the row of the prompt is full: with the prompt it is
the 78th one of the line. -/
def ErasesInRow : List UInt8 → List (Key UInt8) → Prop
  | _, [] => True
  | line, k :: ks =>
    (k = .erase → line.length ≠ vgaXres - 2) ∧ ErasesInRow (edit ttyBufferSize line k) ks

instance decidableErasesInRow : ∀ line ks, Decidable (ErasesInRow line ks)
  | _, [] => inferInstanceAs (Decidable True)
  | line, k :: ks =>
    have := decidableErasesInRow (edit ttyBufferSize line k) ks
    inferInstanceAs (Decidable (_ ∧ _))

/-! ## The screen after a call -/

/-- The terminal shows a page, with the cursor on the screen. -/
structure ShowsPage (t : Tty) (p : Page) (offset : Nat) : Prop extends Shows t p offset where
  xpos_lt : t.xpos < vgaXres
  ypos_lt : t.ypos < vgaYres

variable {t : Tty} {p : Page} {offset : Nat}

theorem ShowsPage.putchar (h : ShowsPage t p offset) (c : UInt8) :
    ShowsPage (ttyPutchar t c) (p.put vgaXres c) (offset + ttyScrolls t c) := by
  obtain ⟨hshows, hx, hy⟩ := h.toShows.putchar h.xpos_lt h.ypos_lt c
  exact ⟨hshows, hx, hy⟩

theorem ShowsPage.write (h : ShowsPage t p offset) (str : List UInt8) :
    ShowsPage (ttyWrite t str) (p.putAll vgaXres str) (offset + ttyWriteScrolls t str) := by
  induction str generalizing t p offset with
  | nil => exact h
  | cons c str ih =>
    rw [ttyWriteScrolls, ← Nat.add_assoc]
    exact ih (h.putchar c)

/-- The line is not on the screen. -/
theorem ShowsPage.withLine (h : ShowsPage t p offset) (line : Memory) :
    ShowsPage { t with line := line } p offset :=
  ⟨⟨h.width, h.height, h.col, h.row, h.cells, h.below⟩, h.xpos_lt, h.ypos_lt⟩

theorem ShowsPage.col_lt (h : ShowsPage t p offset) : p.col < vgaXres := h.col ▸ h.xpos_lt

/-! ## The start of a prompt -/

/-- The cursor is at the start of a blank row with blank rows below. -/
def FreshRow (t : Tty) : Prop := ∃ p offset, ShowsPage t p offset ∧ p.col = 0 ∧ p.Clear

/-- What the terminal is like before it shows the prompt. -/
structure AtPrompt (t : Tty) : Prop where
  line : HoldsLine t []
  fresh : FreshRow t

theorem ShowsPage.putNewline (h : ShowsPage t p offset) : FreshRow (ttyPutchar t newline) :=
  ⟨p.feed, _, h.putchar newline, rfl, fun col _ => h.below.feed.2 col, h.below.feed.1⟩

/-- Text that ends in a newline. -/
theorem ShowsPage.writeLine (h : ShowsPage t p offset) {str : List UInt8}
    (hstr : str.getLast? = some newline) : FreshRow (ttyWrite t str) := by
  obtain ⟨text, rfl⟩ := List.getLast?_eq_some_iff.mp hstr
  have hconcat : ttyWrite t (text ++ [newline]) = ttyPutchar (ttyWrite t text) newline := by
    simp [ttyWrite]
  rw [hconcat]
  exact (h.write text).putNewline

theorem ShowsPage.cleared (h : ShowsPage t p offset) : FreshRow (ttyClear t) :=
  ⟨Page.blank, 0, ⟨shows_clear h.width h.height, Nat.zero_lt_succ 79, Nat.zero_lt_succ 24⟩, rfl,
    fun _ _ => rfl, Page.blank_blankBelow⟩

theorem FreshRow.withLine (h : FreshRow t) (line : Memory) : FreshRow { t with line := line } := by
  obtain ⟨p, offset, hshows, hfresh⟩ := h
  exact ⟨p, offset, hshows.withLine line, hfresh⟩

/-- Every command ends with the cursor at the start of a row. A message about an unknown command is
written as a whole. -/
theorem FreshRow.execute (h : FreshRow t) (junk : Memory) {cmd : CString}
    (hlength : cmd.bytes.length ≤ 4000) :
    ∃ t', ttyExecuteCommand junk t cmd = .ok t' ∧ FreshRow t' := by
  obtain ⟨p, offset, hshows, -, -⟩ := h
  refine ⟨_, ttyExecuteCommand_eq junk t cmd, ?_⟩
  cases dispatch cmd with
  | help => exact hshows.writeLine (by decide)
  | clear => exact hshows.cleared
  | echo args => exact hshows.writeLine (by simp)
  | unknown =>
    have hfits : (unknownText cmd).length ≤ 4095 := by
      have hintro : (CString.ascii "unknown command: '").bytes.length = 18 := by decide
      simp only [unknownText, List.length_append, hintro, List.length_cons, List.length_nil]
      omega
    rw [Command.effect, List.take_of_length_le hfits]
    apply hshows.writeLine
    simp [unknownText]
    rfl

/-! ## Key presses -/

/-- What a key puts on the page. -/
def echo (p : Page) (line : List UInt8) : Key UInt8 → Page
  | .char a => if line.length < ttyBufferSize then p.put vgaXres a else p
  | .erase => if line = [] then p else p.put vgaXres backspace
  | _ => p

variable {line : List UInt8}

theorem echo_char (p : Page) (a : UInt8) :
    echo p line (.char a) = if line.length < ttyBufferSize then p.put vgaXres a else p := rfl

theorem echo_erase (p : Page) :
    echo p line .erase = if line = [] then p else p.put vgaXres backspace := rfl

/-- The keys other than enter change the screen by their echo. -/
theorem ShowsPage.keypress (h : ShowsPage t p offset) (hline : HoldsLine t line) (junk : Memory)
    {event : KeyEvent} (henter : event.ascii ≠ newline) :
    ∃ t' actions, ttyHandleKeypress junk t event = .ok (t', actions) ∧
      HoldsLine t' (edit ttyBufferSize line (keyOf event.ascii)) ∧
      ShowsPage t' (echo p line (keyOf event.ascii)) (offset + keypressScrolls t event) := by
  obtain ⟨t', actions, hrun, hline', -⟩ := hline.keypress junk henter
  refine ⟨t', actions, hrun, hline', ?_⟩
  have hpos := hline.pos
  unfold ttyHandleKeypress at hrun
  unfold keypressScrolls keyOf
  simp only [if_neg henter, hpos] at hrun ⊢
  split_ifs at hrun ⊢ with hnul hback hsome hroom
  · obtain ⟨rfl, -⟩ := Prod.mk.inj (Except.ok.inj hrun)
    exact h
  · obtain ⟨rfl, -⟩ := Prod.mk.inj (Except.ok.inj hrun)
    rw [echo_erase, if_neg (by rintro rfl; simp at hsome)]
    exact (h.withLine _).putchar backspace
  · obtain ⟨rfl, -⟩ := Prod.mk.inj (Except.ok.inj hrun)
    rw [echo_erase, if_pos (List.eq_nil_of_length_eq_zero (by omega))]
    exact h
  · obtain ⟨rfl, -⟩ := Prod.mk.inj (Except.ok.inj hrun)
    rw [echo_char, if_pos hroom]
    exact (h.withLine _).putchar event.ascii
  · obtain ⟨rfl, -⟩ := Prod.mk.inj (Except.ok.inj hrun)
    rw [echo_char, if_neg hroom]
    exact h

theorem length_ofBytes_le (bytes : List UInt8) :
    (CString.ofBytes bytes).bytes.length ≤ bytes.length :=
  (List.takeWhile_prefix _).length_le

/-- The enter key leads to the next prompt. -/
theorem ShowsPage.enter (h : ShowsPage t p offset) (junk : Memory) {event : KeyEvent}
    (henter : event.ascii = newline) :
    ∃ start actions, ttyHandleKeypress junk t event = .ok (ttyShowPrompt start, actions) ∧
      AtPrompt start := by
  have hfresh : FreshRow (storeChar (ttyPutchar t newline) 0) := h.putNewline.withLine _
  unfold ttyHandleKeypress
  simp only [henter, if_neg (show newline ≠ nul by decide), if_true]
  split_ifs
  · have hlength : (CString.ofBytes (readBytes (storeChar (ttyPutchar t newline) 0).line 0
        (ttyBufferSize + 4))).bytes.length ≤ 4000 :=
      (length_ofBytes_le _).trans (by simp [readBytes])
    obtain ⟨t', hrun, hfresh'⟩ := hfresh.execute junk hlength
    rw [hrun]
    exact ⟨_, _, rfl, holdsLine_reset t', hfresh'.withLine _⟩
  · exact ⟨_, _, rfl, holdsLine_reset _, hfresh.withLine _⟩

/-- The terminal in `tty_init` before it shows the first prompt. -/
def ttyBare (screen : Memory) : Tty :=
  { line := fun _ => 0, width := vgaXres, height := vgaYres, fg := ⟨255, 255, 255⟩,
    bg := ⟨0, 0, 0⟩, xpos := 0, ypos := 0, screen := vgaClear screen ⟨0, 0, 0⟩ }

theorem ttyInit_eq (screen : Memory) : ttyInit screen = ttyShowPrompt (ttyBare screen) := rfl

theorem atPrompt_bare (screen : Memory) : AtPrompt (ttyBare screen) where
  line := ⟨rfl, Nat.zero_le _, rfl, by simp⟩
  fresh := by
    have hshows : Shows (ttyBare screen) Page.blank 0 :=
      shows_clear (t := ⟨fun _ => 0, vgaXres, vgaYres, ⟨255, 255, 255⟩, ⟨0, 0, 0⟩, 0, 0, screen⟩)
        rfl rfl
    exact ⟨_, 0, ⟨hshows, Nat.zero_lt_succ 79, Nat.zero_lt_succ 24⟩, rfl, fun _ _ => rfl,
      Page.blank_blankBelow⟩

theorem AtPrompt.shows (h : AtPrompt t) : ∃ p offset, ShowsPage (ttyShowPrompt t) p offset := by
  obtain ⟨p, offset, hshows, -⟩ := h.fresh
  exact ⟨_, _, hshows.write promptText⟩

/-- Key presses of which the last one is an enter end at a prompt. -/
theorem prompt_of_run (junk : Memory) {events : List KeyEvent} {t' : Tty}
    {trace : List (List LineAction)} (hline : HoldsLine t line) (hshows : ShowsPage t p offset)
    (hstart : events = [] → ∃ start, t = ttyShowPrompt start ∧ AtPrompt start)
    (hlast : ∀ e, events.getLast? = some e → e.ascii = newline)
    (hrun : ttyHandleKeypresses junk t events = .ok (t', trace)) :
    ∃ start, t' = ttyShowPrompt start ∧ AtPrompt start := by
  induction events generalizing t line p offset trace with
  | nil =>
    obtain ⟨rfl, -⟩ := Prod.mk.inj (Except.ok.inj hrun)
    exact hstart rfl
  | cons event events ih =>
    have hlast' : ∀ e, events.getLast? = some e → e.ascii = newline := fun e he =>
      hlast e (by rw [List.getLast?_cons, he]; rfl)
    by_cases henter : event.ascii = newline
    · obtain ⟨start, actions, hstep, hprompt⟩ := hshows.enter junk henter
      obtain ⟨p', offset', hshows'⟩ := hprompt.shows
      simp only [ttyHandleKeypresses, hstep] at hrun
      split at hrun
      · cases hrun
      · rename_i heq
        obtain ⟨rfl, -⟩ := Prod.mk.inj (Except.ok.inj hrun)
        exact ih (hprompt.line.congr (ttyWrite_line _ _)) hshows'
          (fun _ => ⟨start, rfl, hprompt⟩) hlast' heq
    · have hne : events ≠ [] := by
        rintro rfl
        exact henter (hlast event rfl)
      obtain ⟨u, actions, hstep, hline', hshows'⟩ := hshows.keypress hline junk henter
      simp only [ttyHandleKeypresses, hstep] at hrun
      split at hrun
      · cases hrun
      · rename_i heq
        obtain ⟨rfl, -⟩ := Prod.mk.inj (Except.ok.inj hrun)
        exact ih hline' hshows' (fun hnil => absurd hnil hne) hlast' heq

/-! ## Typing at the prompt -/

/-- The page with the prompt and a line on it. -/
def layOut (p : Page) (line : List UInt8) : Page := p.putAll vgaXres (promptText ++ line)

/-- The cursor is further than the prompt and the line reach. -/
def AheadOf (start p : Page) (line : List UInt8) : Prop :=
  start.pos vgaXres + promptText.length + line.length < p.pos vgaXres

theorem promptText_plain : ∀ c ∈ promptText, Plain c := by decide +kernel

/-- A typed key is a plain character or an erasure. -/
theorem Typed.keyOf {event : KeyEvent} (h : Typed event) : keyOf event.ascii = .erase ∨
    ∃ a, keyOf event.ascii = .char a ∧ Plain a := by
  unfold Terminal.keyOf
  rcases h with hback | ⟨hlow, hhigh⟩
  · exact .inl (by rw [hback]; rfl)
  · have hplain : Plain event.ascii := by
      have hbyte := UInt8.le_iff_toNat_le.mp hlow
      refine ⟨?_, ?_, ?_, ?_, ?_⟩ <;>
        (intro heq; rw [heq] at hbyte; exact absurd hbyte (by decide))
    refine .inr ⟨event.ascii, ?_, hplain⟩
    rw [if_neg hplain.1, if_neg hplain.2.1, if_neg hplain.2.2.1]

section Typing

variable {start : Page}

theorem layOut_clear (hclear : start.Clear) (hcol : start.col = 0) (hline : ∀ c ∈ line, Plain c) :
    (layOut start line).Clear ∧
      (layOut start line).pos vgaXres =
        start.pos vgaXres + promptText.length + line.length ∧
      (layOut start line).col < vgaXres := by
  have htext : ∀ c ∈ promptText ++ line, Plain c := by
    intro c hc
    rcases List.mem_append.mp hc with hc | hc
    · exact promptText_plain c hc
    · exact hline c hc
  have hstart : start.col < vgaXres := by
    rw [hcol]
    decide
  obtain ⟨h, hpos, hlt⟩ := hclear.putAll hstart htext
  exact ⟨h, by rw [layOut, hpos, List.length_append, Nat.add_assoc], hlt⟩

/-- A character joins the page and the line. -/
theorem layOut_char {a : UInt8} :
    echo (layOut start line) line (.char a) = layOut start (edit ttyBufferSize line (.char a)) := by
  simp only [echo_char, edit]
  split_ifs with hroom
  · rw [layOut, layOut, ← List.append_assoc, putAll_concat]
  · rfl

/-- An erasure takes the last character from both, unless that character filled its row. Then it
stays on the page, and the cursor is ahead. -/
theorem layOut_erase (hclear : start.Clear) (hcol : start.col = 0) (hline : ∀ c ∈ line, Plain c)
    (hfits : line.length ≤ ttyBufferSize) :
    (line.length = vgaXres - 2 →
      AheadOf start (echo (layOut start line) line .erase) line.dropLast) ∧
    (line.length ≠ vgaXres - 2 →
      echo (layOut start line) line .erase = layOut start line.dropLast) := by
  rcases List.eq_nil_or_concat line with rfl | ⟨init, c, rfl⟩
  · exact ⟨nofun, fun _ => rfl⟩
  · simp only [List.concat_eq_append] at *
    have hinit : ∀ b ∈ init, Plain b := fun b hb => hline b (by simp [hb])
    have hc : Plain c := hline c (by simp)
    obtain ⟨hbefore, hpos, hlt⟩ := layOut_clear hclear hcol hinit
    have hlast : layOut start (init ++ [c]) = (layOut start init).put vgaXres c := by
      rw [layOut, layOut, ← List.append_assoc, putAll_concat]
    have hechoed : echo (layOut start (init ++ [c])) (init ++ [c]) .erase =
        ((layOut start init).put vgaXres c).put vgaXres backspace := by
      rw [echo_erase, if_neg (by simp), hlast]
    have hprompt : promptText.length = 2 := by decide
    rw [hechoed, List.dropLast_concat]
    simp only [List.length_append, List.length_singleton, ttyBufferSize, vgaXres] at *
    simp only [Page.pos, hcol] at hpos
    constructor
    · intro hfull
      rcases put_plain_cases hc hlt with ⟨hroom, -⟩ | ⟨-, hput⟩
      · omega
      · rw [hput, put_backspace_of_col_zero rfl (by decide)]
        simp only [AheadOf, Page.pos, feed, Page.write, hcol, hprompt, vgaXres]
        omega
    · intro hroom
      exact put_backspace hbefore hc (by omega)

/-- A cursor that is ahead stays ahead. -/
theorem AheadOf.echo (h : AheadOf start p line) (hcol : p.col < vgaXres) {k : Key UInt8}
    (hk : k = .erase ∨ ∃ a, k = .char a ∧ Plain a) :
    AheadOf start (echo p line k) (edit ttyBufferSize line k) := by
  unfold AheadOf at *
  rcases hk with rfl | ⟨a, rfl, ha⟩
  · have hback := (pos_put_backspace hcol).1
    simp only [echo_erase, edit]
    split_ifs with hempty
    · simpa [hempty] using h
    · have hlength := List.length_pos_iff.mpr hempty
      rw [List.length_dropLast]
      omega
  · have hput := (pos_put ha hcol).1
    simp only [echo_char, edit]
    split_ifs
    · rw [List.length_append, List.length_singleton]
      omega
    · exact h

theorem plain_edit (hline : ∀ c ∈ line, Plain c) {k : Key UInt8}
    (hk : k = .erase ∨ ∃ a, k = .char a ∧ Plain a) :
    ∀ c ∈ edit ttyBufferSize line k, Plain c := by
  rcases hk with rfl | ⟨a, rfl, ha⟩
  · exact fun c hc => hline c (List.dropLast_subset line hc)
  · simp only [edit]
    split_ifs
    · simpa [or_imp, forall_and] using ⟨hline, ha⟩
    · exact hline

/-- Typed keys keep the page and the line together as long as they erase in the row, and part them
for good at the first one that does not. -/
theorem ShowsPage.typed (hclear : start.Clear) (hcol : start.col = 0) (junk : Memory)
    {events : List KeyEvent} (htyped : ∀ e ∈ events, Typed e) (h : ShowsPage t p offset)
    (hholds : HoldsLine t line) (hline : ∀ c ∈ line, Plain c) :
    ∃ t' scrolls line' p', ttyType junk t events = .ok (t', scrolls) ∧ HoldsLine t' line' ∧
      ShowsPage t' p' (offset + scrolls) ∧ (∀ c ∈ line', Plain c) ∧
      (p = layOut start line → (ErasesInRow line (keysOf events) → p' = layOut start line') ∧
        (¬ ErasesInRow line (keysOf events) → AheadOf start p' line')) ∧
      (AheadOf start p line → AheadOf start p' line') := by
  induction events generalizing t p offset line with
  | nil => exact ⟨t, 0, line, p, rfl, hholds, h, hline, 
      fun hp => ⟨fun _ => hp, fun hrow => absurd trivial hrow⟩, id⟩
  | cons event events ih =>
    have hkey := (htyped event (by simp)).keyOf
    have henter : event.ascii ≠ newline := by
      intro henter
      rw [henter] at hkey
      rcases hkey with hkey | ⟨a, hkey, -⟩ <;> cases hkey
    obtain ⟨u, actions, hstep, hholds', hshows'⟩ := h.keypress hholds junk henter
    obtain ⟨t', scrolls, line', p', hrun, hline', hshows'', hplain, htogether, happart⟩ :=
      ih (fun e he => htyped e (by simp [he])) hshows' hholds' (plain_edit hline hkey)
    rw [Nat.add_assoc] at hshows''
    refine ⟨t', keypressScrolls t event + scrolls, line', p', by simp [ttyType, hstep, hrun],
      hline', hshows'', hplain, ?_, fun hahead => happart (hahead.echo h.col_lt hkey)⟩
    rintro rfl
    have hkeys : keysOf (event :: events) = keyOf event.ascii :: keysOf events := rfl
    simp only [hkeys, ErasesInRow]
    rcases hkey with hkey | ⟨a, hkey, -⟩
    · have herase := layOut_erase hclear hcol hline hholds.fits
      rw [hkey] at htogether happart ⊢
      by_cases hfull : line.length = vgaXres - 2
      · exact ⟨fun hrow => absurd hfull (hrow.1 rfl), fun _ => happart (herase.1 hfull)⟩
      · obtain ⟨htrue, hfalse⟩ := htogether (herase.2 hfull)
        exact ⟨fun hrow => htrue hrow.2, fun hrow => hfalse fun hrest =>
          hrow ⟨fun _ => hfull, hrest⟩⟩
    · rw [hkey] at htogether ⊢
      obtain ⟨htrue, hfalse⟩ := htogether layOut_char
      exact ⟨fun hrow => htrue hrow.2, fun hrow => hfalse fun hrest => hrow ⟨nofun, hrest⟩⟩

end Typing

/-! ## The two screens -/

section Mirror

variable {start : Page} {scrolls : Nat} {first : Tty}

/-- The same page gives the same screen, up to scrolling. -/
theorem ShowsPage.mirrors (hfirst : ShowsPage first start offset) (hholds : HoldsLine t line)
    (h : ShowsPage t (layOut start line) (offset + scrolls)) : MirrorsLine first t scrolls := by
  have hline : lineText t = line := by rw [lineText, hholds.pos, hholds.text]
  have hshown := hfirst.write (promptText ++ line)
  have hrow := h.row
  have hrow' := hshown.row
  have hcells := hshown.cells
  rw [← layOut] at hrow' hcells
  refine ⟨?_, ?_, fun x y y' hx hy hy' hsame _ => ?_, fun x y hx hy hbelow => ?_⟩
  · rw [hline, h.col, hshown.col, layOut]
  · rw [hline]
    omega
  · rw [hline] at hsame ⊢
    rw [h.cells x y hx hy, hcells x y' hx hy']
    congr 1
    omega
  · rw [hline] at hbelow
    have hlast := hshown.ypos_lt
    rw [h.cells x y hx hy]
    exact h.below _ _ (by omega)

/-- A cursor that is ahead is seen on the screen. -/
theorem ShowsPage.not_mirrors (hfirst : ShowsPage first start offset) (hclear : start.Clear)
    (hcol : start.col = 0) (hholds : HoldsLine t line) (hline : ∀ c ∈ line, Plain c)
    (h : ShowsPage t p (offset + scrolls)) (hahead : AheadOf start p line) :
    ¬ MirrorsLine first t scrolls := by
  intro hmirrors
  have htext : lineText t = line := by rw [lineText, hholds.pos, hholds.text]
  have hshown := hfirst.write (promptText ++ line)
  have hpos := (layOut_clear hclear hcol hline).2.1
  have hxpos := hmirrors.col
  have hypos := hmirrors.row
  rw [htext] at hxpos hypos
  have hrow := h.row
  have hrow' := hshown.row
  have hsame : p.col = (layOut start line).col := by rw [← h.col, hxpos, hshown.col, layOut]
  have hsame' : p.row = (layOut start line).row := by
    rw [layOut]
    omega
  unfold AheadOf at hahead
  rw [← hpos] at hahead
  simp only [Page.pos, hsame, hsame', lt_irrefl] at hahead

end Mirror

theorem AtPrompt.typed {first : Tty} (h : AtPrompt first) (junk : Memory) {keys : List KeyEvent}
    (hkeys : ∀ e ∈ keys, Typed e) :
    ∃ t' scrolls, ttyType junk (ttyShowPrompt first) keys = .ok (t', scrolls) ∧
      (MirrorsLine first t' (ttyWriteScrolls first promptText + scrolls) ↔
        ErasesInRow [] (keysOf keys)) := by
  obtain ⟨start, offset, hshows, hcol, hclear⟩ := h.fresh
  obtain ⟨t', scrolls, line', p', htype, hline', hshows', hplain, htogether, -⟩ :=
    (hshows.write promptText).typed hclear hcol junk hkeys
      (h.line.congr (ttyWrite_line _ _)) (by simp)
  obtain ⟨htrue, hfalse⟩ := htogether (by simp [layOut])
  rw [Nat.add_assoc] at hshows'
  refine ⟨t', scrolls, htype, ?_⟩
  by_cases hrow : ErasesInRow [] (keysOf keys)
  · have hpage := htrue hrow
    subst hpage
    exact iff_of_true (hshows.mirrors hline' hshows') hrow
  · exact iff_of_false (hshows.not_mirrors hclear hcol hline' hplain hshows' (hfalse hrow)) hrow

/-- At every prompt, and for every sequence of printable characters and backspaces, the screen
mirrors the line exactly when no backspace erases the character that filled the row of the
prompt. -/
theorem typed_line_on_screen_iff (junk screen : Memory) (events keys : List KeyEvent) (t : Tty)
    (trace : List (List LineAction))
    (hrun : ttyHandleKeypresses junk (ttyInit screen) events = .ok (t, trace))
    (hlast : ∀ e, events.getLast? = some e → e.ascii = newline) (hkeys : ∀ e ∈ keys, Typed e) :
    ∃ first, t = ttyShowPrompt first ∧ AtPrompt first ∧ ∃ t' scrolls,
      ttyType junk t keys = .ok (t', scrolls) ∧
        (MirrorsLine first t' (ttyWriteScrolls first promptText + scrolls) ↔
          ErasesInRow [] (keysOf keys)) := by
  obtain ⟨p, offset, hshows⟩ := (atPrompt_bare screen).shows
  rw [ttyInit_eq] at hrun
  obtain ⟨first, rfl, hprompt⟩ := prompt_of_run junk
    ((atPrompt_bare screen).line.congr (ttyWrite_line _ _)) hshows
    (fun _ => ⟨_, rfl, atPrompt_bare screen⟩) hlast hrun
  exact ⟨first, rfl, hprompt, hprompt.typed junk hkeys⟩

/-- A letter is erased, and 79 letters after it go on in the next row. -/
theorem typed_line_on_screen_letters :
    let keys := [⟨.keyPressed, 0x1E, 0x61⟩, ⟨.keyPressed, 0x0E, backspace⟩] ++
      List.replicate 79 ⟨.keyPressed, 0x30, 0x62⟩
    ∃ first, ttyInit (fun _ => 0) = ttyShowPrompt first ∧ AtPrompt first ∧ ∃ t' scrolls,
      ttyType (fun _ => 0) (ttyInit fun _ => 0) keys = .ok (t', scrolls) ∧
        MirrorsLine first t' (ttyWriteScrolls first promptText + scrolls) := by
  intro keys
  have hkeys : ∀ e ∈ keys, Typed e := by
    intro e he
    rcases List.mem_append.mp he with he | he
    · rcases List.mem_pair.mp he with rfl | rfl
      · exact .inr (by decide)
      · exact .inl rfl
    · rw [List.eq_of_mem_replicate he]
      exact .inr (by decide)
  have hinRow : ErasesInRow [] (keysOf keys) := by decide +kernel
  obtain ⟨first, hfirst, hprompt, t', scrolls, htype, hmirrors⟩ :=
    typed_line_on_screen_iff (fun _ => 0) (fun _ => 0) [] keys _ [] rfl (by simp) hkeys
  exact ⟨first, hfirst, hprompt, t', scrolls, htype, hmirrors.mpr hinRow⟩

/-- 78 letters fill the row of the prompt, and a backspace leaves the last one on the screen. -/
theorem erased_letter_on_screen :
    let keys := List.replicate 78 ⟨.keyPressed, 0x1E, 0x61⟩ ++ [⟨.keyPressed, 0x0E, backspace⟩]
    (∀ e ∈ keys, Typed e) ∧ ∃ t' scrolls,
      ttyType (fun _ => 0) (ttyInit fun _ => 0) keys = .ok (t', scrolls) ∧
        ¬ MirrorsLine (ttyBare fun _ => 0) t'
          (ttyWriteScrolls (ttyBare fun _ => 0) promptText + scrolls) := by
  intro keys
  have hkeys : ∀ e ∈ keys, Typed e := by
    intro e he
    rcases List.mem_append.mp he with he | he
    · rw [List.eq_of_mem_replicate he]
      exact .inr (by decide)
    · rw [List.mem_singleton.mp he]
      exact .inl rfl
  obtain ⟨t', scrolls, htype, hmirrors⟩ := (atPrompt_bare fun _ => 0).typed (fun _ => 0) hkeys
  have hcrossed : ¬ ErasesInRow [] (keysOf keys) := by decide +kernel
  exact ⟨hkeys, t', scrolls, htype, hmirrors.not.mpr hcrossed⟩

end HolyOs.Terminal
