import HolyOs.Drivers.Input
import HolyOs.Foundation.LineEditor
import HolyOs.Lib.Sprintf
import HolyOs.Terminal.Tty

/-!
# The line of the terminal

`tty_init`, `tty_handle_keypress` and `tty_execute_command` of `kernel/tty/tty.c`. The line is
`current_tty.buffer`, 128 bytes, with `buf_pos` in the four bytes behind it. A key press also gives
the stores to the buffer and the calls of `tty_execute_command` that it makes, in order.

`line_discipline_iff` says when the calls are those of a line editor with room for 127 characters.
-/
namespace HolyOs.Terminal

open ByteMemory HolyOs.Drivers HolyOs.Lib LineEditor Page

@[simp] def ttyBufferSize : Nat := 128

/-! ## Commands -/

def bufPos (t : Tty) : Nat := load32 t.line ttyBufferSize

def setBufPos (t : Tty) (pos : Nat) : Tty := { t with line := store32 t.line ttyBufferSize pos }

/-- `current_tty.buffer[current_tty.buf_pos] = c`. -/
def storeChar (t : Tty) (c : UInt8) : Tty := { t with line := store8 t.line (bufPos t) c }

/-- `vsnprintf` to a local buffer of 4096 bytes, which is then written to the terminal. -/
def ttyPrintf (junk : Memory) (t : Tty) (fmt : CString) (args : List VaArg) :
    Except FormatFault Tty :=
  match vsnprintf junk junk 0 4096 fmt.raw args with
  | .error fault => .error fault
  | .ok (buf, _) => .ok (ttyWrite t (CString.ofBytes (readBytes buf 0 4096)).bytes)

def cmdHelp (t : Tty) : Tty :=
  let t := ttyWrite t (CString.ascii "available commands:\n").bytes
  let t := ttyWrite t (CString.ascii "\thelp \t- Show this help\n").bytes
  let t := ttyWrite t (CString.ascii "\tclear \t- Clear the screen\n").bytes
  ttyWrite t (CString.ascii "\techo \t- Print arguments\n").bytes

def cmdEcho (t : Tty) (args : List UInt8) : Tty := ttyPutchar (ttyWrite t args) newline

def ttyExecuteCommand (junk : Memory) (t : Tty) (cmd : CString) : Except FormatFault Tty :=
  if strcmp cmd.raw (CString.ascii "help").raw = some 0 then .ok (cmdHelp t)
  else if strcmp cmd.raw (CString.ascii "clear").raw = some 0 then .ok (ttyClear t)
  else if strncmp cmd.raw (CString.ascii "echo ").raw 5 = some 0 then
    .ok (cmdEcho t (cmd.bytes.drop 5))
  else ttyPrintf junk t (CString.ascii "unknown command: '%s'\n") [.string (some cmd)]

/-! ## Key presses -/

inductive LineAction where
  /-- A store to `buffer` at the index. -/
  | write (index : Nat)
  /-- A call of `tty_execute_command`. -/
  | execute (cmd : CString)

def ttyResetLine (t : Tty) : Tty :=
  let t := setBufPos t 0
  { t with line := memset t.line 0 0 ttyBufferSize }

/-- The stores of `tty_reset_line`. -/
def resetActions : List LineAction := (List.range ttyBufferSize).map .write

def ttyShowPrompt (t : Tty) : Tty := ttyWrite t (CString.ascii "$ ").bytes

def ttyInit (screen : Memory) : Tty :=
  let t : Tty :=
    { line := fun _ => 0, width := vgaXres, height := vgaYres, fg := ⟨255, 255, 255⟩,
      bg := ⟨0, 0, 0⟩, xpos := 0, ypos := 0, screen := screen }
  ttyShowPrompt { t with screen := vgaClear t.screen t.bg }

def ttyHandleKeypress (junk : Memory) (t : Tty) (event : KeyEvent) :
    Except FormatFault (Tty × List LineAction) :=
  let ascii := event.ascii
  if ascii = nul then .ok (t, [])
  else if ascii = newline then
    let t := ttyPutchar t newline
    let pos := bufPos t
    let t := storeChar t 0
    if 0 < bufPos t then
      -- the string ends at the NUL just stored, in the buffer or in `buf_pos`
      let cmd := CString.ofBytes (readBytes t.line 0 (ttyBufferSize + 4))
      match ttyExecuteCommand junk t cmd with
      | .error fault => .error fault
      | .ok t => .ok (ttyShowPrompt (ttyResetLine t), .write pos :: .execute cmd :: resetActions)
    else .ok (ttyShowPrompt (ttyResetLine t), .write pos :: resetActions)
  else if ascii = backspace then
    if 0 < bufPos t then .ok (ttyPutchar (setBufPos t (bufPos t - 1)) backspace, [])
    else .ok (t, [])
  else if bufPos t < ttyBufferSize then
    let pos := bufPos t
    .ok (ttyPutchar (setBufPos (storeChar t ascii) (pos + 1)) ascii, [.write pos])
  else .ok (t, [])

/-- The terminal after a sequence of key events, and what each of them did. -/
def ttyHandleKeypresses (junk : Memory) (t : Tty) :
    List KeyEvent → Except FormatFault (Tty × List (List LineAction))
  | [] => .ok (t, [])
  | event :: events =>
    match ttyHandleKeypress junk t event with
    | .error fault => .error fault
    | .ok (t, actions) =>
      match ttyHandleKeypresses junk t events with
      | .error fault => .error fault
      | .ok (t, trace) => .ok (t, actions :: trace)

/-! ## What the screen functions leave alone -/

@[simp] theorem ttyPutchar_line (t : Tty) (c : UInt8) : (ttyPutchar t c).line = t.line := by
  have hplace : (ttyPlace t c).line = t.line := by
    unfold ttyPlace
    split_ifs <;> rfl
  have hwrap : ∀ u, (ttyWrap u).line = u.line := fun u => by
    unfold ttyWrap
    split_ifs <;> rfl
  have hscroll : ∀ u, (ttyScroll u).line = u.line := fun u => by
    unfold ttyScroll
    split_ifs <;> rfl
  unfold ttyPutchar
  split_ifs
  · rfl
  · rw [hscroll, hwrap, hplace]

@[simp] theorem ttyWrite_line (t : Tty) (str : List UInt8) : (ttyWrite t str).line = t.line := by
  unfold ttyWrite
  induction str generalizing t with
  | nil => rfl
  | cons c str ih => simp [ih]

theorem ttyPrintf_line {junk : Memory} {fmt : CString} {args : List VaArg} {out : List UInt8}
    (hout : render fmt.bytes args = some out) (t : Tty) :
    ∃ t', ttyPrintf junk t fmt args = .ok t' ∧ t'.line = t.line := by
  unfold ttyPrintf
  rw [vsnprintf_fits junk junk hout (by omega) (by omega)]
  exact ⟨_, rfl, ttyWrite_line t _⟩

theorem render_unknown (cmd : CString) :
    render (CString.ascii "unknown command: '%s'\n").bytes [.string (some cmd)] =
      some ((CString.ascii "unknown command: '").bytes ++ (cmd.bytes ++ [0x27, 0x0A])) := by
  have hfmt : (CString.ascii "unknown command: '%s'\n").bytes =
      (CString.ascii "unknown command: '").bytes ++ percent :: 0x73 :: [0x27, 0x0A] := by decide
  rw [hfmt, render_append (by decide +kernel), render_string, render_text (by decide +kernel)]
  rfl

/-- Every command returns, with the line as it was. -/
theorem ttyExecuteCommand_line (junk : Memory) (t : Tty) (cmd : CString) :
    ∃ t', ttyExecuteCommand junk t cmd = .ok t' ∧ t'.line = t.line := by
  unfold ttyExecuteCommand
  generalize strcmp cmd.raw (CString.ascii "help").raw = help
  generalize strcmp cmd.raw (CString.ascii "clear").raw = clear
  generalize strncmp cmd.raw (CString.ascii "echo ").raw 5 = echo
  split_ifs
  · exact ⟨_, rfl, by simp [cmdHelp]⟩
  · exact ⟨_, rfl, rfl⟩
  · exact ⟨_, rfl, by simp [cmdEcho]⟩
  · exact ttyPrintf_line (render_unknown cmd) t

/-! ## The buffer holds a line -/

/-- The first `buf_pos` bytes of the buffer are the line. -/
structure HoldsLine (t : Tty) (line : List UInt8) : Prop where
  pos : bufPos t = line.length
  fits : line.length ≤ ttyBufferSize
  text : readBytes t.line 0 line.length = line
  nonzero : ∀ b ∈ line, b ≠ 0

variable {t : Tty} {line : List UInt8}

theorem HoldsLine.congr (h : HoldsLine t line) {t' : Tty} (hline : t'.line = t.line) :
    HoldsLine t' line where
  pos := by rw [bufPos, hline]; exact h.pos
  fits := h.fits
  text := by rw [hline]; exact h.text
  nonzero := h.nonzero

theorem HoldsLine.char (h : HoldsLine t line) (hroom : line.length < ttyBufferSize) {c : UInt8}
    (hc : c ≠ 0) : HoldsLine (setBufPos (storeChar t c) (line.length + 1)) (line ++ [c]) where
  pos := by
    simp only [ttyBufferSize] at hroom
    rw [List.length_append, List.length_singleton]
    exact load32_store32_same _ _ (by omega)
  fits := by
    rw [List.length_append, List.length_singleton]
    exact hroom
  text := by
    have hsame : SameOn t.line (setBufPos (storeChar t c) (line.length + 1)).line 0
        (0 + line.length) :=
      (sameOn_store8 _ _ (by rw [h.pos]; omega)).trans (sameOn_store32 _ _ (by omega))
    have hlast : (setBufPos (storeChar t c) (line.length + 1)).line line.length = c :=
      (if_neg (by omega)).trans (if_pos h.pos.symm)
    rw [List.length_append, List.length_singleton, readBytes_add, readBytes_congr hsame, h.text]
    simp [readBytes, hlast]
  nonzero := by simpa [or_imp, forall_and, hc] using h.nonzero

theorem HoldsLine.erase (h : HoldsLine t line) :
    HoldsLine (setBufPos t (line.length - 1)) line.dropLast where
  pos := by
    have hfits := h.fits
    simp only [ttyBufferSize] at hfits
    rw [List.length_dropLast]
    exact load32_store32_same _ _ (by omega)
  fits := by
    have hfits := h.fits
    rw [List.length_dropLast]
    omega
  text := by
    have hfits := h.fits
    simp only [ttyBufferSize] at hfits
    have hsame : SameOn t.line (setBufPos t (line.length - 1)).line 0
        (0 + line.dropLast.length) := sameOn_store32 _ _ (by simp; omega)
    calc readBytes (setBufPos t (line.length - 1)).line 0 line.dropLast.length
        = readBytes t.line 0 (min (line.length - 1) line.length) := by
          rw [readBytes_congr hsame, List.length_dropLast, Nat.min_eq_left (Nat.sub_le _ 1)]
      _ = line.take (line.length - 1) := by rw [← take_readBytes, h.text]
      _ = line.dropLast := (List.dropLast_eq_take).symm
  nonzero := fun b hb => h.nonzero b (List.dropLast_subset line hb)

theorem holdsLine_reset (t : Tty) : HoldsLine (ttyResetLine t) [] where
  pos := by
    have hsame : SameOn (setBufPos t 0).line (ttyResetLine t).line ttyBufferSize
        (ttyBufferSize + 4) := fun x hlo hhi =>
      (memset_apply (setBufPos t 0).line 0 (show 0 + ttyBufferSize ≤ 2 ^ 32 by simp) x).trans
        (if_neg (by omega))
    exact (load32_congr hsame).trans (load32_store32_same _ _ (by decide))
  fits := Nat.zero_le _
  text := rfl
  nonzero := by simp

/-- Behind a line with room for it, the NUL ends the string. -/
theorem HoldsLine.terminate (h : HoldsLine t line) (hroom : line.length < ttyBufferSize) :
    bufPos (storeChar t 0) = line.length ∧
      (CString.ofBytes (readBytes (storeChar t 0).line 0 (ttyBufferSize + 4))).bytes = line := by
  refine ⟨(load32_store8_of_disjoint _ _ (.inr (by rwa [h.pos]))).trans h.pos, ?_⟩
  obtain ⟨rest, hrest⟩ : ∃ rest, ttyBufferSize + 4 = line.length + (1 + rest) :=
    ⟨ttyBufferSize + 3 - line.length, by omega⟩
  have hsame : SameOn t.line (storeChar t 0).line 0 (0 + line.length) :=
    sameOn_store8 _ _ (by rw [h.pos]; omega)
  have hnul : readBytes (storeChar t 0).line (0 + line.length) 1 = [0] := by
    simp [readBytes, storeChar, h.pos]
  rw [hrest, readBytes_add, readBytes_add, readBytes_congr hsame, h.text, hnul, ← List.append_assoc]
  exact congrArg CString.bytes (CString.ofBytes_raw_append ⟨line, h.nonzero⟩ _)

/-- Behind a full buffer the NUL is the low byte of `buf_pos`, which was the only one that is not
zero. -/
theorem HoldsLine.overrun (h : HoldsLine t line) (hfull : line.length = ttyBufferSize) :
    bufPos (storeChar t 0) = 0 := by
  have hpos := h.pos
  have hlow := (t.line 128).toNat_lt
  rw [bufPos, storeChar, hpos, hfull]
  simp only [hfull, bufPos, load32, ttyBufferSize, Nat.reduceAdd] at hpos ⊢
  simp only [store8_same, UInt8.toNat_zero]
  simp only [store8, Nat.reduceEqDiff, if_false]
  omega

/-! ## One key press -/

/-- What a key does to the line. -/
def keyOf (ascii : UInt8) : Key UInt8 :=
  if ascii = nul then .other
  else if ascii = newline then .enter
  else if ascii = backspace then .erase
  else .char ascii

/-- The commands that were executed, in order. -/
def executed (actions : List LineAction) : List (List UInt8) :=
  actions.filterMap fun
    | .write _ => none
    | .execute cmd => some cmd.bytes

/-- Every store is inside the buffer. -/
def StaysInside (actions : List LineAction) : Prop :=
  ∀ index, LineAction.write index ∈ actions → index < ttyBufferSize

@[simp] theorem executed_resetActions : executed resetActions = [] := by
  simp [executed, resetActions]

@[simp] theorem executed_write (index : Nat) (actions : List LineAction) :
    executed (.write index :: actions) = executed actions := rfl

@[simp] theorem executed_execute (cmd : CString) (actions : List LineAction) :
    executed (.execute cmd :: actions) = cmd.bytes :: executed actions := rfl

@[simp] theorem staysInside_write (index : Nat) (actions : List LineAction) :
    StaysInside (.write index :: actions) ↔ index < ttyBufferSize ∧ StaysInside actions := by
  simp [StaysInside]

@[simp] theorem staysInside_execute (cmd : CString) (actions : List LineAction) :
    StaysInside (.execute cmd :: actions) ↔ StaysInside actions := by
  simp [StaysInside]

@[simp] theorem staysInside_nil : StaysInside [] := by simp [StaysInside]

@[simp] theorem staysInside_resetActions : StaysInside resetActions := by
  simp [StaysInside, resetActions]

theorem holdsLine_prompt (t : Tty) : HoldsLine (ttyShowPrompt (ttyResetLine t)) [] :=
  (holdsLine_reset t).congr (ttyWrite_line _ _)

/-- The enter key on a line that leaves room for the NUL. -/
theorem HoldsLine.enter (h : HoldsLine t line) (hroom : line.length < ttyBufferSize)
    (junk : Memory) {event : KeyEvent} (henter : event.ascii = newline) :
    ∃ t' actions, ttyHandleKeypress junk t event = .ok (t', actions) ∧ HoldsLine t' [] ∧
      executed actions = handed line (keyOf event.ascii) ∧ StaysInside actions := by
  have hput := h.congr (ttyPutchar_line t newline)
  have hpos := hput.pos
  obtain ⟨hkept, hcmd⟩ := hput.terminate hroom
  have hkey : keyOf newline = .enter := rfl
  unfold ttyHandleKeypress
  simp only [henter, if_neg (show newline ≠ nul by decide), if_true, hpos, hkept, hkey]
  generalize CString.ofBytes _ = cmd at hcmd ⊢
  by_cases hempty : line = []
  · refine ⟨_, _, if_neg (by simp [hempty]), holdsLine_prompt _, ?_, ?_⟩
    · simp [handed, hempty]
    · simp [hempty]
  · obtain ⟨t', hrun, -⟩ := ttyExecuteCommand_line junk (storeChar (ttyPutchar t newline) 0) cmd
    rw [if_pos (List.length_pos_iff.mpr hempty), hrun]
    refine ⟨_, _, rfl, holdsLine_prompt t', ?_, ?_⟩
    · simp [handed, hempty, hcmd]
    · simpa using hroom

/-- The enter key on a full buffer executes nothing, and its NUL is stored outside. -/
theorem HoldsLine.enter_overrun (h : HoldsLine t line) (hfull : line.length = ttyBufferSize)
    (junk : Memory) {event : KeyEvent} (henter : event.ascii = newline) :
    ∃ t' actions, ttyHandleKeypress junk t event = .ok (t', actions) ∧ HoldsLine t' [] ∧
      executed actions = [] ∧ ¬ StaysInside actions := by
  have hput := h.congr (ttyPutchar_line t newline)
  have hpos := hput.pos
  unfold ttyHandleKeypress
  simp only [henter, if_neg (show newline ≠ nul by decide), if_true, hpos, hput.overrun hfull,
    lt_irrefl, if_false]
  refine ⟨_, _, rfl, holdsLine_prompt _, by simp, ?_⟩
  simp [hfull]

/-- The keys other than enter edit the line, with room for 128 characters. -/
theorem HoldsLine.keypress (h : HoldsLine t line) (junk : Memory) {event : KeyEvent}
    (henter : event.ascii ≠ newline) :
    ∃ t' actions, ttyHandleKeypress junk t event = .ok (t', actions) ∧
      HoldsLine t' (edit ttyBufferSize line (keyOf event.ascii)) ∧ executed actions = [] ∧
      StaysInside actions := by
  have hpos := h.pos
  unfold ttyHandleKeypress keyOf
  simp only [if_neg henter, hpos]
  split_ifs with hnul hback hsome hroom
  · exact ⟨t, [], rfl, h, rfl, staysInside_nil⟩
  · exact ⟨_, [], rfl, h.erase.congr (ttyPutchar_line _ _), rfl, staysInside_nil⟩
  · have hempty : line = [] := List.eq_nil_of_length_eq_zero (by omega)
    exact ⟨t, [], rfl, by simpa [edit, hempty] using h, rfl, staysInside_nil⟩
  · refine ⟨_, _, rfl, ?_, rfl, by simpa using hroom⟩
    rw [edit, if_pos hroom]
    exact (h.char hroom hnul).congr (ttyPutchar_line _ _)
  · exact ⟨t, [], rfl, by rwa [edit, if_neg hroom], rfl, staysInside_nil⟩

/-- Every key press returns, and leaves a line. -/
theorem HoldsLine.handles (h : HoldsLine t line) (junk : Memory) (event : KeyEvent) :
    ∃ t' actions line', ttyHandleKeypress junk t event = .ok (t', actions) ∧
      HoldsLine t' line' := by
  by_cases henter : event.ascii = newline
  · rcases h.fits.lt_or_eq with hroom | hfull
    · obtain ⟨t', actions, hrun, hline, -⟩ := h.enter hroom junk henter
      exact ⟨t', actions, [], hrun, hline⟩
    · obtain ⟨t', actions, hrun, hline, -⟩ := h.enter_overrun hfull junk henter
      exact ⟨t', actions, [], hrun, hline⟩
  · obtain ⟨t', actions, hrun, hline, -⟩ := h.keypress junk henter
    exact ⟨t', actions, _, hrun, hline⟩

/-! ## Any sequence of key presses -/

def keysOf (events : List KeyEvent) : List (Key UInt8) := events.map fun e => keyOf e.ascii

/-- Each key press hands over what an editor with room for 127 characters and the NUL hands over,
and no store misses the buffer. -/
structure Disciplined (events : List KeyEvent) (trace : List (List LineAction)) : Prop where
  calls : trace.map executed = handedEach (ttyBufferSize - 1) [] (keysOf events)
  inside : ∀ actions ∈ trace, StaysInside actions

theorem keyOf_eq_enter_iff (ascii : UInt8) : keyOf ascii = .enter ↔ ascii = newline := by
  unfold keyOf
  split_ifs with hnul hnewline
  · simp only [hnul, false_iff]
    decide
  · simp [hnewline]
  all_goals simpa using hnewline

/-- A key press hands over what the smaller editor does exactly when it is not an enter with a
refusal pending. -/
theorem HoldsLine.step {long : List UInt8} {refused : Bool} (h : HoldsLine t long)
    (hahead : Ahead (ttyBufferSize - 1) long line refused) (junk : Memory) (event : KeyEvent) :
    ∃ t' actions, ttyHandleKeypress junk t event = .ok (t', actions) ∧
      HoldsLine t' (edit ttyBufferSize long (keyOf event.ascii)) ∧
      (executed actions = handed line (keyOf event.ascii) ∧ StaysInside actions ↔
        (keyOf event.ascii = .enter → refused = false)) := by
  rw [keyOf_eq_enter_iff]
  by_cases henter : event.ascii = newline
  · have hkey : keyOf event.ascii = .enter := (keyOf_eq_enter_iff _).mpr henter
    rcases h.fits.lt_or_eq with hroom | hfull
    · obtain ⟨t', actions, hrun, hline, hcalls, hinside⟩ := h.enter hroom junk henter
      refine ⟨t', actions, hrun, by rwa [hkey], ?_⟩
      rw [hcalls, hkey, handed_enter_inj, hahead.eq_iff]
      simp [henter, hinside]
    · obtain ⟨t', actions, hrun, hline, -, houtside⟩ := h.enter_overrun hfull junk henter
      have hpending : refused ≠ false := fun hclear => by
        have hbounded := hahead.bounded
        rw [← hahead.same hclear, hfull] at hbounded
        exact absurd hbounded (by decide)
      exact ⟨t', actions, hrun, by rwa [hkey], by simp [henter, houtside, hpending]⟩
  · obtain ⟨t', actions, hrun, hline, hcalls, hinside⟩ := h.keypress junk henter
    have hkey := handed_of_ne_enter ((keyOf_eq_enter_iff _).not.mpr henter) line
    exact ⟨t', actions, hrun, hline, by simp [henter, hcalls, hkey, hinside]⟩

theorem HoldsLine.run {long : List UInt8} {refused : Bool} (h : HoldsLine t long)
    (hahead : Ahead (ttyBufferSize - 1) long line refused) (junk : Memory)
    (events : List KeyEvent) :
    ∃ t' trace, ttyHandleKeypresses junk t events = .ok (t', trace) ∧
      ((trace.map executed = handedEach (ttyBufferSize - 1) line (keysOf events) ∧
        ∀ actions ∈ trace, StaysInside actions) ↔
          EntersClean (ttyBufferSize - 1) line refused (keysOf events)) := by
  induction events generalizing t long line refused with
  | nil => exact ⟨t, [], rfl, by simp [keysOf, handedEach, EntersClean]⟩
  | cons event events ih =>
    obtain ⟨t₁, actions, hstep, hline, hkey⟩ := h.step hahead junk event
    obtain ⟨t', trace, hrun, htrace⟩ := ih hline (hahead.edit (keyOf event.ascii))
    refine ⟨t', actions :: trace, by simp [ttyHandleKeypresses, hstep, hrun], ?_⟩
    simp only [keysOf, List.map_cons] at htrace ⊢
    rw [EntersClean, ← hkey, ← htrace, handedEach, List.forall_mem_cons, List.cons_eq_cons]
    exact and_and_and_comm

theorem holdsLine_init (screen : Memory) : HoldsLine (ttyInit screen) [] where
  pos := by
    rw [bufPos, ttyInit, ttyShowPrompt, ttyWrite_line]
    rfl
  fits := Nat.zero_le _
  text := rfl
  nonzero := by simp

/-- From `tty_init` on, the line discipline is that of an editor with room for 127 characters
exactly when every enter comes with no refusal pending. -/
theorem line_discipline_iff (junk screen : Memory) (events : List KeyEvent) :
    ∃ t trace, ttyHandleKeypresses junk (ttyInit screen) events = .ok (t, trace) ∧
      (Disciplined events trace ↔ EntersClean (ttyBufferSize - 1) [] false (keysOf events)) := by
  obtain ⟨t, trace, hrun, hclean⟩ :=
    (holdsLine_init screen).run (ahead_nil (ttyBufferSize - 1)) junk events
  refine ⟨t, trace, hrun, Iff.trans ⟨fun h => ⟨h.calls, h.inside⟩, fun h => ⟨h.1, h.2⟩⟩ hclean⟩

/-- 128 letters and the enter key. -/
theorem line_overrun : ¬ ∀ (junk screen : Memory) (events : List KeyEvent),
    ∃ t trace, ttyHandleKeypresses junk (ttyInit screen) events = .ok (t, trace) ∧
      Disciplined events trace := by
  intro h
  let letter : KeyEvent := ⟨.keyPressed, 0x1E, 0x61⟩
  let events := List.replicate 128 letter ++ [⟨.keyPressed, 0x1C, newline⟩]
  obtain ⟨t, trace, hrun, hdisciplined⟩ := h (fun _ => 0) (fun _ => 0) events
  obtain ⟨t', trace', hrun', hclean⟩ :=
    (holdsLine_init fun _ => 0).run (ahead_nil (ttyBufferSize - 1)) (fun _ => 0) events
  have htrace : trace = trace' := congrArg Prod.snd (Except.ok.inj (hrun.symm.trans hrun'))
  rw [← htrace] at hclean
  have hpending : ¬ EntersClean (ttyBufferSize - 1) [] false (keysOf events) := by decide +kernel
  exact hpending (hclean.mp ⟨hdisciplined.calls, hdisciplined.inside⟩)

end HolyOs.Terminal
