import HolyOs.Foundation.Word
import HolyOs.Lib.Numerals

/-!
# Formatted output

`vsnprintf` of `lib/sprintf.c`, and its callers there. The format is given as the bytes that can be
read from `fmt` on, the arguments as a list that the directives consume from the front. `render` is
the whole text of a format; `vsnprintf` copies it to the buffer as far as it fits.
-/
namespace HolyOs.Lib

open ByteMemory

/-- What `va_arg` takes: an `int`, `uint32_t` or `char`, or a pointer to a string, which may be
null. -/
inductive VaArg where
  | word (w : UInt32)
  | string (s : Option CString)
deriving DecidableEq

inductive FormatFault where
  /-- The format is read behind its terminator. -/
  | pastFormat
  /-- The next argument is of another type, or there is none. -/
  | badArgument
  /-- A numeral does not fit its local buffer. -/
  | badNumeral
deriving DecidableEq

def percent : UInt8 := 0x25

/-- The string used for a null pointer. -/
def nullString : CString := .ascii "(null)"

/-! ## The rendering of a format -/

/-- The text of a directive, and the arguments behind the one it takes. -/
def renderDirective (d : UInt8) (args : List VaArg) : Option (List UInt8 × List VaArg) :=
  if d = 0x64 then
    match args with
    | .word num :: args => some (numeral (itoa num.toInt32.toInt), args)
    | _ => none
  else if d = 0x78 then
    match args with
    | .word num :: args => some (numeral (itoh num.toNat), args)
    | _ => none
  else if d = 0x63 then
    match args with
    | .word c :: args => some ([c.toUInt8], args)
    | _ => none
  else if d = 0x73 then
    match args with
    | .string s :: args => some ((s.getD nullString).bytes, args)
    | _ => none
  else if d = percent then some ([percent], args)
  else some ([percent, d], args)

/-- The text of a format; there is none where the format ends in a lone `%` or the arguments do not
match. -/
def render : List UInt8 → List VaArg → Option (List UInt8)
  | [], _ => some []
  | c :: fmt, args =>
    if c ≠ percent then (render fmt args).map (c :: ·)
    else
      match fmt with
      | [] => none
      | d :: fmt =>
        match renderDirective d args with
        | none => none
        | some (piece, args) => (render fmt args).map (piece ++ ·)

theorem render_literal {c : UInt8} (hc : c ≠ percent) (fmt : List UInt8) (args : List VaArg) :
    render (c :: fmt) args = (render fmt args).map (c :: ·) := by
  rw [render.eq_def]
  exact if_pos hc

theorem render_append {text : List UInt8} (htext : ∀ c ∈ text, c ≠ percent) (fmt : List UInt8)
    (args : List VaArg) : render (text ++ fmt) args = (render fmt args).map (text ++ ·) := by
  induction text with
  | nil => simp
  | cons c text ih =>
    obtain ⟨hc, htext⟩ := List.forall_mem_cons.mp htext
    rw [List.cons_append, render_literal hc, ih htext, Option.map_map]
    rfl

theorem render_text {text : List UInt8} (htext : ∀ c ∈ text, c ≠ percent) (args : List VaArg) :
    render text args = some text := by
  simpa [render] using render_append htext [] args

theorem render_string (s : CString) (fmt : List UInt8) (args : List VaArg) :
    render (percent :: 0x73 :: fmt) (.string (some s) :: args) =
      (render fmt args).map (s.bytes ++ ·) := by
  rw [render.eq_def]
  rfl

/-! ## The formatter -/

/-- `while (... && str < end) *str++ = ...`, over the given bytes. -/
def copyBytes (stop : Nat) : List UInt8 → Memory → Nat → Memory × Nat
  | [], m, str => (m, str)
  | b :: bytes, m, str =>
    if str < stop then copyBytes stop bytes (store8 m str b) (Word32.wrap (str + 1)) else (m, str)

section Formatter

-- what the local array `buffer` holds before it is written
variable (junk : Memory)

/-- The cases `d` and `x`. -/
def putNumeral (convert : Memory → Nat → Option (Nat × Memory)) (stop : Nat) (m : Memory)
    (str : Nat) : Except FormatFault (Memory × Nat) :=
  match convert junk 32 with
  | none => .error .badNumeral
  | some (len, buffer) => .ok (copyBytes stop (readBytes buffer 0 len) m str)

/-- `switch (*fmt)`, with the arguments behind the one that is taken. -/
def vsnprintfSwitch (stop : Nat) (d : UInt8) (args : List VaArg) (m : Memory) (str : Nat) :
    Except FormatFault (List VaArg × Memory × Nat) :=
  if d = 0x64 then
    match args with
    | .word num :: args => (putNumeral junk (itoa num.toInt32.toInt) stop m str).map (args, ·)
    | _ => .error .badArgument
  else if d = 0x78 then
    match args with
    | .word num :: args => (putNumeral junk (itoh num.toNat) stop m str).map (args, ·)
    | _ => .error .badArgument
  else if d = 0x63 then
    match args with
    | .word c :: args => .ok (args, store8 m str c.toUInt8, Word32.wrap (str + 1))
    | _ => .error .badArgument
  else if d = 0x73 then
    match args with
    | .string s :: args => .ok (args, copyBytes stop (s.getD nullString).bytes m str)
    | _ => .error .badArgument
  else if d = percent then
    .ok (args, if str < stop then (store8 m str percent, Word32.wrap (str + 1)) else (m, str))
  else
    .ok (args,
      if str < stop then
        let m := store8 m str percent
        let str := Word32.wrap (str + 1)
        if str < stop then (store8 m str d, Word32.wrap (str + 1)) else (m, str)
      else (m, str))

/-- `for (; *fmt && str < end; fmt++)`. The test `if (!fmt)` behind `fmt++` is about the pointer,
and never ends the loop. -/
def vsnprintfLoop (stop : Nat) :
    List UInt8 → List VaArg → Memory → Nat → Except FormatFault (Memory × Nat)
  | [], _, _, _ => .error .pastFormat
  | c :: fmt, args, m, str =>
    if c ≠ 0 ∧ str < stop then
      if c ≠ percent then vsnprintfLoop stop fmt args (store8 m str c) (Word32.wrap (str + 1))
      else
        match fmt with
        | [] => .error .pastFormat
        | d :: fmt =>
          match vsnprintfSwitch junk stop d args m str with
          | .error fault => .error fault
          | .ok (args, m, str) => vsnprintfLoop stop fmt args m str
    else .ok (m, str)

/-- The memory it leaves, and the `int` it returns. -/
def vsnprintf (m : Memory) (buf size : Nat) (fmt : List UInt8) (args : List VaArg) :
    Except FormatFault (Memory × Int) :=
  let stop := Word32.sub (Word32.wrap (buf + size)) 1
  match vsnprintfLoop junk stop fmt args m buf with
  | .error fault => .error fault
  | .ok (m, str) => .ok (store8 m str 0, ((str : Int) - buf).bmod (2 ^ 32))

def sizeMax : Nat := 2 ^ 32 - 1

def vsprintf (m : Memory) (buf : Nat) (fmt : List UInt8) (args : List VaArg) :
    Except FormatFault (Memory × Int) :=
  vsnprintf junk m buf sizeMax fmt args

def sprintf (m : Memory) (buf : Nat) (fmt : List UInt8) (args : List VaArg) :
    Except FormatFault (Memory × Int) :=
  vsnprintf junk m buf sizeMax fmt args

def snprintf (m : Memory) (buf size : Nat) (fmt : List UInt8) (args : List VaArg) :
    Except FormatFault (Memory × Int) :=
  vsnprintf junk m buf size fmt args

end Formatter

/-! ## The loop copies the rendering -/

@[simp] theorem copyBytes_nil (stop : Nat) (m : Memory) (str : Nat) :
    copyBytes stop [] m str = (m, str) := rfl

theorem copyBytes_full {stop str : Nat} (h : ¬ str < stop) (bytes : List UInt8) (m : Memory) :
    copyBytes stop bytes m str = (m, str) := by
  cases bytes with
  | nil => rfl
  | cons b bytes => exact if_neg h

/-- A copy can be made in pieces: when the first piece fills the buffer, the second is dropped. -/
theorem copyBytes_append (stop : Nat) (bytes rest : List UInt8) (m : Memory) (str : Nat) :
    copyBytes stop (bytes ++ rest) m str =
      copyBytes stop rest (copyBytes stop bytes m str).1 (copyBytes stop bytes m str).2 := by
  induction bytes generalizing m str with
  | nil => rfl
  | cons b bytes ih =>
    simp only [List.cons_append, copyBytes]
    split_ifs with h
    · exact ih _ _
    · exact (copyBytes_full h rest m).symm

/-- Where the copy ends. -/
theorem copyBytes_eq {stop str : Nat} (hstop : stop < 2 ^ 32) (hstr : str ≤ stop)
    (bytes : List UInt8) (m : Memory) : copyBytes stop bytes m str =
      (writeBytes m str (bytes.take (stop - str)), str + min bytes.length (stop - str)) := by
  induction bytes generalizing m str with
  | nil => simp
  | cons b bytes ih =>
    by_cases h : str < stop
    · have hroom : stop - str = stop - (str + 1) + 1 := by omega
      rw [copyBytes, if_pos h, Word32.wrap_of_lt (by omega), ih (by omega), hroom,
        List.take_succ_cons, List.length_cons, writeBytes]
      congr 1
      omega
    · rw [copyBytes_full h]
      simp [show stop - str = 0 by omega]

theorem putNumeral_eq {convert : Memory → Nat → Option (Nat × Memory)} {text : CString}
    (h : Converts convert text) (junk : Memory) (stop : Nat) (m : Memory) (str : Nat) :
    putNumeral junk convert stop m str = .ok (copyBytes stop (numeral convert) m str) := by
  have hread : readBytes (writeBytes junk 0 text.raw) 0 text.bytes.length = text.bytes :=
    readBytes_writeBytes_append _ 0 text.bytes [0]
  unfold putNumeral
  simp only [h.2, h.numeral_eq, hread]

/-- Every case of the switch is a copy of the text of its directive. -/
theorem vsnprintfSwitch_eq (junk : Memory) {stop str : Nat} {d : UInt8} {args : List VaArg}
    {piece : List UInt8} {rest : List VaArg} (hpiece : renderDirective d args = some (piece, rest))
    (hstr : str < stop) (m : Memory) :
    vsnprintfSwitch junk stop d args m str = .ok (rest, copyBytes stop piece m str) := by
  unfold renderDirective at hpiece
  unfold vsnprintfSwitch
  split_ifs at hpiece ⊢ with hd hx hc hs hp
  · match args, hpiece with
    | .word num :: args, hpiece =>
      obtain ⟨text, htext⟩ := itoa_converts num.toInt32.toInt_lt
      cases hpiece
      simp only [putNumeral_eq htext]
      rfl
  · match args, hpiece with
    | .word num :: args, hpiece =>
      obtain ⟨text, htext⟩ := itoh_converts num.toNat_lt
      cases hpiece
      simp only [putNumeral_eq htext]
      rfl
  · match args, hpiece with
    | .word c :: args, hpiece =>
      cases hpiece
      simp [copyBytes, hstr]
  · match args, hpiece with
    | .string s :: args, hpiece =>
      cases hpiece
      rfl
  · cases hpiece
    simp only [copyBytes, if_pos hstr]
  · cases hpiece
    simp only [copyBytes, if_pos hstr]

section Turns

variable (junk m : Memory) {stop str : Nat} {c : UInt8} (fmt : List UInt8) (args : List VaArg)

theorem vsnprintfLoop_full (h : ¬ str < stop) :
    vsnprintfLoop junk stop (c :: fmt) args m str = .ok (m, str) := by
  rw [vsnprintfLoop.eq_def]
  exact if_neg fun hc => h hc.2

theorem vsnprintfLoop_literal (hne : c ≠ 0) (hc : c ≠ percent) (h : str < stop) :
    vsnprintfLoop junk stop (c :: fmt) args m str =
      vsnprintfLoop junk stop fmt args (store8 m str c) (Word32.wrap (str + 1)) := by
  rw [vsnprintfLoop.eq_def]
  exact (if_pos ⟨hne, h⟩).trans (if_pos hc)

theorem vsnprintfLoop_directive (d : UInt8) (h : str < stop) {piece : List UInt8}
    {rest : List VaArg} (hpiece : renderDirective d args = some (piece, rest)) :
    vsnprintfLoop junk stop (percent :: d :: fmt) args m str =
      vsnprintfLoop junk stop fmt rest (copyBytes stop piece m str).1
        (copyBytes stop piece m str).2 := by
  rw [vsnprintfLoop.eq_def]
  simp only [if_pos (And.intro (show percent ≠ 0 by decide) h), ne_eq, not_true_eq_false, if_false,
    vsnprintfSwitch_eq junk hpiece h]

end Turns

/-- The loop copies the rendering of what stands before the rest of the format, however the buffer
cuts its pieces. -/
theorem vsnprintfLoop_append (junk : Memory) (stop : Nat) {fmt : List UInt8}
    (hfmt : ∀ b ∈ fmt, b ≠ 0) {args : List VaArg} {out : List UInt8}
    (hout : render fmt args = some out) (last : UInt8) (tail : List UInt8) :
    ∃ rest, ∀ m str, vsnprintfLoop junk stop (fmt ++ last :: tail) args m str =
      vsnprintfLoop junk stop (last :: tail) rest (copyBytes stop out m str).1
        (copyBytes stop out m str).2 := by
  fun_induction render generalizing out
  case case1 args => cases hout; exact ⟨args, fun _ _ => rfl⟩
  case case2 c fmt args hc ih =>
    obtain ⟨text, htext, rfl⟩ := Option.map_eq_some_iff.mp hout
    obtain ⟨hne, hfmt⟩ := List.forall_mem_cons.mp hfmt
    obtain ⟨rest, hrest⟩ := ih hfmt htext
    refine ⟨rest, fun m str => ?_⟩
    by_cases hstr : str < stop
    · rw [List.cons_append, vsnprintfLoop_literal _ _ _ _ hne hc hstr, hrest, copyBytes,
        if_pos hstr]
    · rw [List.cons_append, vsnprintfLoop_full _ _ _ _ hstr, copyBytes_full hstr,
        vsnprintfLoop_full _ _ _ _ hstr]
  case case3 => simp at hout
  case case4 => simp at hout
  case case5 c args hc d fmt piece args' hpiece ih =>
    obtain ⟨text, htext, rfl⟩ := Option.map_eq_some_iff.mp hout
    obtain ⟨hne, hfmt⟩ := List.forall_mem_cons.mp hfmt
    obtain ⟨rest, hrest⟩ := ih (List.forall_mem_cons.mp hfmt).2 htext
    refine ⟨rest, fun m str => ?_⟩
    by_cases hstr : str < stop
    · rw [List.cons_append, List.cons_append, not_ne_iff.mp hc,
        vsnprintfLoop_directive _ _ _ _ _ hstr hpiece, hrest, copyBytes_append]
    · rw [List.cons_append, vsnprintfLoop_full _ _ _ _ hstr, copyBytes_full hstr,
        vsnprintfLoop_full _ _ _ _ hstr]

theorem vsnprintfLoop_eq (junk : Memory) (stop : Nat) {fmt : List UInt8} (hfmt : ∀ b ∈ fmt, b ≠ 0)
    {args : List VaArg} {out : List UInt8} (hout : render fmt args = some out) (m : Memory)
    (str : Nat) :
    vsnprintfLoop junk stop (fmt ++ [0]) args m str = .ok (copyBytes stop out m str) := by
  obtain ⟨rest, hrest⟩ := vsnprintfLoop_append junk stop hfmt hout 0 []
  rw [hrest]
  simp [vsnprintfLoop]

/-! ## What is left in the buffer -/

section Results

variable (junk m : Memory) {fmt : CString} {args : List VaArg} {out : List UInt8}

theorem vsnprintf_eq (hout : render fmt.bytes args = some out) (buf size : Nat) :
    vsnprintf junk m buf size fmt.raw args =
      let copied := copyBytes (Word32.sub (Word32.wrap (buf + size)) 1) out m buf
      .ok (store8 copied.1 copied.2 0, ((copied.2 : Int) - buf).bmod (2 ^ 32)) := by
  unfold vsnprintf
  simp only [CString.raw, vsnprintfLoop_eq junk _ fmt.nonzero hout]

/-- A buffer that ends at or below 4 GiB takes the rendering as far as it fits, and a NUL. -/
theorem vsnprintf_fits (hout : render fmt.bytes args = some out) {buf size : Nat}
    (hsize : 1 ≤ size) (hend : buf + size - 1 < 2 ^ 32) :
    vsnprintf junk m buf size fmt.raw args =
      .ok (writeBytes m buf (out.take (size - 1) ++ [0]),
        ((min out.length (size - 1) : Nat) : Int).bmod (2 ^ 32)) := by
  have hstop : Word32.sub (Word32.wrap (buf + size)) 1 = buf + size - 1 := by
    unfold Word32.sub Word32.wrap
    omega
  have hroom : buf + size - 1 - buf = size - 1 := by omega
  have hlen : ((buf + min out.length (size - 1) : Nat) : Int) - buf =
      (min out.length (size - 1) : Nat) := by omega
  rw [vsnprintf_eq junk m hout, hstop, copyBytes_eq hend (by omega), hroom, writeBytes_concat,
    List.length_take, Nat.min_comm (size - 1)]
  simp only [hlen]

/-- Where the end of the buffer wraps to an address below it, only the NUL is written. -/
theorem vsnprintf_wraps (hout : render fmt.bytes args = some out) {buf size : Nat}
    (hend : Word32.sub (Word32.wrap (buf + size)) 1 ≤ buf) :
    vsnprintf junk m buf size fmt.raw args = .ok (store8 m buf 0, 0) := by
  rw [vsnprintf_eq junk m hout, copyBytes_full (by omega)]
  simp

end Results

/-- The first `n` bytes of the text and a NUL are in the buffer, and nothing else has changed. -/
structure Printed (m m' : Memory) (buf n : Nat) (out : List UInt8) : Prop where
  text : readBytes m' buf n = out.take n
  terminator : m' (buf + n) = 0
  rest : ∀ x, x < buf ∨ buf + n < x → m' x = m x

theorem printed_writeBytes (m : Memory) (buf n : Nat) (out : List UInt8) :
    Printed m (writeBytes m buf (out.take n ++ [0])) buf (min out.length n) out where
  text := by
    have htake : out.take (min out.length n) = out.take n := by
      rw [Nat.min_comm, ← List.take_eq_take_min]
    have hread := readBytes_writeBytes_append m buf (out.take n) [0]
    rw [htake]
    rwa [List.length_take, Nat.min_comm n] at hread
  terminator := by
    rw [writeBytes_concat, List.length_take, Nat.min_comm, store8_same]
  rest := fun x hx => writeBytes_outside m _ (by simp; omega)

/-- The buffer takes the first `size - 1` bytes of the rendering and a NUL; their number is
returned, as an `int`. -/
theorem vsnprintf_prints (junk m : Memory) {fmt : CString} {args : List VaArg} {out : List UInt8}
    (hout : render fmt.bytes args = some out) {buf size : Nat} (hsize : 1 ≤ size)
    (hend : buf + size - 1 < 2 ^ 32) :
    ∃ m' r, vsnprintf junk m buf size fmt.raw args = .ok (m', r) ∧
      r = ((min out.length (size - 1) : Nat) : Int).bmod (2 ^ 32) ∧
      (min out.length (size - 1) < 2 ^ 31 → r = (min out.length (size - 1) : Nat)) ∧
      Printed m m' buf (min out.length (size - 1)) out := by
  refine ⟨_, _, vsnprintf_fits junk m hout hsize hend, rfl, fun hint => ?_,
    printed_writeBytes m buf (size - 1) out⟩
  exact Int.bmod_eq_of_le (by omega) (by omega)

theorem vsnprintf_prints_cut : ∃ m' r,
    vsnprintf (fun _ => 0) (fun _ => 0xFF) 0x1000 3 (CString.ascii "n=%d").raw [.word 7] =
      .ok (m', r) ∧
    r = ((min 3 2 : Nat) : Int).bmod (2 ^ 32) ∧ (min 3 2 < 2 ^ 31 → r = (min 3 2 : Nat)) ∧
    Printed (fun _ => 0xFF) m' 0x1000 (min 3 2) [0x6E, 0x3D, 0x37] :=
  vsnprintf_prints (fun _ => 0) (fun _ => 0xFF)
    (show render (CString.ascii "n=%d").bytes [.word 7] = some [0x6E, 0x3D, 0x37] by decide)
    (by decide) (by decide)

theorem render_two_strings (s t : CString) :
    render (CString.ascii "%s%s").bytes [.string (some s), .string (some t)] =
      some (s.bytes ++ t.bytes) := by
  have hfmt : (CString.ascii "%s%s").bytes = [percent, 0x73, percent, 0x73] := by decide
  rw [hfmt, render_string, render_string]
  simp [render]

/-- There is a string of any length. -/
theorem exists_string (n : Nat) : ∃ s : CString, s.bytes.length = n :=
  ⟨⟨List.replicate n 0x41, fun b hb => by simp [List.eq_of_mem_replicate hb]⟩,
    List.length_replicate⟩

/-- Twice a string of 1 GiB fills a buffer of 2 GiB. -/
theorem vsnprintf_return_overflows : ¬ ∀ (junk m : Memory) (fmt : CString) (args : List VaArg)
    (out : List UInt8) (buf size : Nat), render fmt.bytes args = some out → 1 ≤ size →
    size < 2 ^ 32 → buf + size - 1 < 2 ^ 32 →
    ∃ m', vsnprintf junk m buf size fmt.raw args = .ok (m', (min out.length (size - 1) : Nat)) ∧
      Printed m m' buf (min out.length (size - 1)) out := by
  intro h
  obtain ⟨s, hs⟩ := exists_string (2 ^ 30)
  have hout := render_two_strings s s
  have hlen : (s.bytes ++ s.bytes).length = 2 ^ 31 := by
    rw [List.length_append]
    omega
  have hsize : 1 ≤ 2 ^ 31 + 1 := by omega
  have hend : 0x40002000 + (2 ^ 31 + 1) - 1 < 2 ^ 32 := by omega
  obtain ⟨m', hrun, -⟩ := h (fun _ => 0) (fun _ => 0) _ _ _ 0x40002000 (2 ^ 31 + 1) hout hsize
    (by omega) hend
  rw [vsnprintf_fits _ _ hout hsize hend, hlen, Nat.add_sub_cancel, Nat.min_self] at hrun
  have hreturn : ((2 ^ 31 : Nat) : Int).bmod (2 ^ 32) = (2 ^ 31 : Nat) :=
    congrArg Prod.snd (Except.ok.inj hrun)
  exact absurd hreturn (by decide)

/-! ## Without a bound -/

/-- The end of an unbounded buffer is two bytes below it, unless the buffer starts at 0 or 1. -/
theorem sprintf_agrees_iff (junk m : Memory) {fmt : CString} {args : List VaArg} {out : List UInt8}
    (hout : render fmt.bytes args = some out) {buf size : Nat} (hsize : size ≤ sizeMax)
    (hlen : out.length < size) (hroom : buf + out.length < 2 ^ 32) :
    (sprintf junk m buf fmt.raw args = snprintf junk m buf size fmt.raw args ∧
      vsprintf junk m buf fmt.raw args = snprintf junk m buf size fmt.raw args) ↔
      out = [] ∨ buf ≤ 1 ∨ 2 ^ 32 < buf + size := by
  unfold sizeMax at hsize
  have hwrap : ∀ n, n ≤ sizeMax → 2 ^ 32 < buf + n →
      vsnprintf junk m buf n fmt.raw args = .ok (store8 m buf 0, 0) := fun n hn hover =>
    vsnprintf_wraps junk m hout (by unfold sizeMax at hn; unfold Word32.sub Word32.wrap; omega)
  have hfits : ∀ n, out.length < n → buf + n ≤ 2 ^ 32 →
      vsnprintf junk m buf n fmt.raw args =
        .ok (writeBytes m buf (out ++ [0]), (out.length : Int).bmod (2 ^ 32)) := by
    intro n hn hbuf
    rw [vsnprintf_fits junk m hout (by omega) (by omega), List.take_of_length_le (by omega),
      Nat.min_eq_left (by omega)]
  have hmax : sizeMax = 2 ^ 32 - 1 := rfl
  simp only [sprintf, vsprintf, snprintf, and_self]
  constructor
  · intro heq
    by_contra hnot
    rw [hwrap sizeMax (Nat.le_refl _) (by omega), hfits size hlen (by omega)] at heq
    simp only [Except.ok.injEq, Prod.mk.injEq] at heq
    have hdvd := Int.dvd_of_bmod_eq_zero heq.2.symm
    have hpos : 0 < out.length := List.length_pos_iff.mpr fun hnil => hnot (.inl hnil)
    omega
  · rintro (rfl | hlow | hover)
    · simp only [vsnprintf_eq junk m hout, copyBytes_nil]
    · rw [hfits sizeMax (by omega) (by omega), hfits size hlen (by omega)]
    · rw [hwrap sizeMax (Nat.le_refl _) (by omega), hwrap size hsize hover]

theorem sprintf_agrees_iff_letter :
    (sprintf (fun _ => 0) (fun _ => 0xFF) 0x1000 (CString.ascii "A").raw [] =
        snprintf (fun _ => 0) (fun _ => 0xFF) 0x1000 2 (CString.ascii "A").raw [] ∧
      vsprintf (fun _ => 0) (fun _ => 0xFF) 0x1000 (CString.ascii "A").raw [] =
        snprintf (fun _ => 0) (fun _ => 0xFF) 0x1000 2 (CString.ascii "A").raw []) ↔
      [(0x41 : UInt8)] = [] ∨ 0x1000 ≤ 1 ∨ 2 ^ 32 < 0x1000 + 2 :=
  sprintf_agrees_iff (fun _ => 0) (fun _ => 0xFF) (by decide) (by decide) (by decide) (by decide)

/-- A single letter is lost. -/
theorem sprintf_loses_letter : ¬ ∀ (junk m : Memory) (fmt : CString) (args : List VaArg)
    (out : List UInt8) (buf size : Nat), render fmt.bytes args = some out → size ≤ sizeMax →
    out.length < size → buf + size ≤ 2 ^ 32 →
    sprintf junk m buf fmt.raw args = snprintf junk m buf size fmt.raw args ∧
      vsprintf junk m buf fmt.raw args = snprintf junk m buf size fmt.raw args := by
  intro h
  have heq := (h (fun _ => 0) (fun _ => 0xFF) (.ascii "A") [] [0x41] 0x1000 2 (by decide)
    (by decide) (by decide) (by decide)).1
  have hreturn := congrArg (fun r => r.toOption.map Prod.snd) heq
  exact absurd hreturn (by decide)

end HolyOs.Lib
