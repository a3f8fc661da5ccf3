import HolyOs.Lib.Sprintf

/-!
# The bounds of the formatter

The format is read up to its terminator, unless it ends in a lone `%` that is reached with room in
the buffer: the `%` takes the terminator for its directive, and the loop goes on behind it. The
buffer is written inside its bounds, unless it has size 0.
-/
namespace HolyOs.Lib

open ByteMemory

/-! ## Reading the format -/

/-- The arguments are those of the directives, up to a lone `%` at the end. -/
def Matches (fmt : List UInt8) (args : List VaArg) : Prop :=
  ∃ out, render fmt args = some out ∨
    ∃ before, fmt = before ++ [percent] ∧ render before args = some out

/-- A lone `%` is the last byte of the format, and the text before it leaves room for more. -/
def EndsInPercent (fmt : List UInt8) (args : List VaArg) (room : Nat) : Prop :=
  ∃ before out, fmt = before ++ [percent] ∧ render before args = some out ∧ out.length < room

/-- What stands before a lone `%` has a rendering; the whole format has none. -/
theorem render_lone_percent {before : List UInt8} {args : List VaArg} {out : List UInt8}
    (hout : render before args = some out) : render (before ++ [percent]) args = none := by
  fun_induction render generalizing out with
  | case1 => rfl
  | case2 c fmt args hc ih =>
    obtain ⟨text, htext, rfl⟩ := Option.map_eq_some_iff.mp hout
    rw [List.cons_append, render_literal hc, ih htext]
    rfl
  | case3 => simp at hout
  | case4 => simp at hout
  | case5 c args hc d fmt piece args' hpiece ih =>
    obtain ⟨text, htext, rfl⟩ := Option.map_eq_some_iff.mp hout
    rw [List.cons_append, List.cons_append, render.eq_def]
    simp only [hc, if_false, hpiece, ih htext, Option.map_none]

/-- Where there is room, the text has not reached the end of the buffer. -/
theorem copyBytes_room {stop str : Nat} (hstop : stop < 2 ^ 32) (out : List UInt8) (m : Memory) :
    (copyBytes stop out m str).2 < stop ↔ out.length < stop - str := by
  rcases Nat.lt_or_ge str stop with hstr | hstr
  · rw [copyBytes_eq hstop hstr.le]
    grind
  · rw [copyBytes_full (by omega)]
    omega

/-- The terminator is taken for a directive, and the next turn reads what is behind it. -/
theorem vsnprintfLoop_percent (junk m : Memory) {stop str : Nat} (args : List VaArg)
    (h : str < stop) : vsnprintfLoop junk stop [percent, 0] args m str = .error .pastFormat := by
  have hpiece : renderDirective 0 args = some ([percent, 0], args) := rfl
  rw [vsnprintfLoop_directive junk m [] args 0 h hpiece]
  rfl

theorem endsInPercent_iff {before : List UInt8} {args : List VaArg} {out : List UInt8}
    (hout : render before args = some out) (room : Nat) :
    EndsInPercent (before ++ [percent]) args room ↔ out.length < room := by
  constructor
  · rintro ⟨before', out', hfmt, hout', hroom⟩
    obtain rfl := List.append_cancel_right hfmt
    grind
  · intro hroom
    exact ⟨before, out, rfl, hout, hroom⟩

/-- The format is read behind its terminator exactly when a lone `%` is reached with room. -/
theorem vsnprintf_pastFormat_iff (junk m : Memory) {fmt : CString} {args : List VaArg}
    (hmatches : Matches fmt.bytes args) (buf size : Nat) :
    vsnprintf junk m buf size fmt.raw args ≠ .error .pastFormat ↔
      ¬ EndsInPercent fmt.bytes args (Word32.sub (Word32.wrap (buf + size)) 1 - buf) := by
  obtain ⟨out, hout | ⟨before, hfmt, hout⟩⟩ := hmatches
  · have hends : ¬ EndsInPercent fmt.bytes args
        (Word32.sub (Word32.wrap (buf + size)) 1 - buf) := by
      rintro ⟨before, text, hfmt, htext, -⟩
      rw [hfmt, render_lone_percent htext] at hout
      cases hout
    rw [vsnprintf_eq junk m hout]
    simp [hends]
  · have hbefore : ∀ b ∈ before, b ≠ 0 := fun b hb => fmt.nonzero b (by simp [hfmt, hb])
    have hraw : fmt.raw = before ++ percent :: [0] := by simp [CString.raw, hfmt]
    have hstop : Word32.sub (Word32.wrap (buf + size)) 1 < 2 ^ 32 := Nat.mod_lt _ (by decide)
    obtain ⟨rest, hrest⟩ := vsnprintfLoop_append junk
      (Word32.sub (Word32.wrap (buf + size)) 1) hbefore hout percent [0]
    rw [hfmt, endsInPercent_iff hout, ← copyBytes_room hstop out m, vsnprintf, hraw, hrest]
    by_cases hroom : (copyBytes (Word32.sub (Word32.wrap (buf + size)) 1) out m buf).2 <
        Word32.sub (Word32.wrap (buf + size)) 1
    · simp [hroom, vsnprintfLoop_percent junk _ rest hroom]
    · simp [hroom, vsnprintfLoop_full junk _ [0] rest hroom]

theorem vsnprintf_pastFormat_iff_full :
    vsnprintf (fun _ => 0) (fun _ => 0xFF) 0x1000 2 (CString.ascii "a%").raw [] ≠
        .error .pastFormat ↔
      ¬ EndsInPercent (CString.ascii "a%").bytes []
        (Word32.sub (Word32.wrap (0x1000 + 2)) 1 - 0x1000) :=
  vsnprintf_pastFormat_iff (fun _ => 0) (fun _ => 0xFF)
    ⟨[0x61], .inr ⟨[0x61], by decide, by decide⟩⟩ 0x1000 2

/-- A format that is a single `%`. -/
theorem vsnprintf_reads_past_format : ¬ ∀ (junk m : Memory) (fmt : CString) (args : List VaArg)
    (buf size : Nat), Matches fmt.bytes args →
    vsnprintf junk m buf size fmt.raw args ≠ .error .pastFormat := by
  intro h
  apply h (fun _ => 0) (fun _ => 0xFF) (.ascii "%") [] 0x1000 2 ⟨[], .inr ⟨[], by decide, rfl⟩⟩
  rfl

/-! ## Writing the buffer -/

/-- Whatever the memory holds, the call changes it inside the buffer only. -/
def WritesWithin (junk : Memory) (buf size : Nat) (fmt : List UInt8) (args : List VaArg) : Prop :=
  ∀ m, ∃ m' r, vsnprintf junk m buf size fmt args = .ok (m', r) ∧
    ∀ x, x < buf ∨ buf + size ≤ x → m' x = m x

/-- A terminator is written in any case, also to a buffer that has no room for it. -/
theorem not_writesWithin_zero (junk : Memory) {fmt : CString} {args : List VaArg}
    {out : List UInt8} (hout : render fmt.bytes args = some out) (buf : Nat) :
    ¬ WritesWithin junk buf 0 fmt.raw args := by
  intro hwithin
  obtain ⟨m', r, hrun, hframe⟩ := hwithin fun _ => 0xFF
  rw [vsnprintf_eq junk _ hout] at hrun
  simp only [Except.ok.injEq, Prod.mk.injEq] at hrun
  obtain ⟨rfl, -⟩ := hrun
  have hnul := hframe (copyBytes (Word32.sub (Word32.wrap (buf + 0)) 1) out (fun _ => 0xFF) buf).2
    (by omega)
  rw [store8_same] at hnul
  exact absurd hnul (by decide)

theorem writesWithin_iff (junk : Memory) {fmt : CString} {args : List VaArg} {out : List UInt8}
    (hout : render fmt.bytes args = some out) {buf size : Nat} (hend : buf + size ≤ 2 ^ 32) :
    WritesWithin junk buf size fmt.raw args ↔ 1 ≤ size := by
  constructor
  · intro hwithin
    by_contra hzero
    obtain rfl : size = 0 := by omega
    exact not_writesWithin_zero junk hout buf hwithin
  · intro hsize m
    refine ⟨_, _, vsnprintf_fits junk m hout hsize (by omega), fun x hx => ?_⟩
    apply writeBytes_outside
    grind

theorem writesWithin_iff_letter :
    WritesWithin (fun _ => 0) 0x1000 2 (CString.ascii "ab").raw [] ↔ 1 ≤ 2 :=
  writesWithin_iff (fun _ => 0) (show render (CString.ascii "ab").bytes [] = some [0x61, 0x62] by
    decide) (by decide)

theorem writesWithin_fails : ¬ ∀ (junk : Memory) (fmt : CString) (args : List VaArg)
    (out : List UInt8) (buf size : Nat), render fmt.bytes args = some out → size ≤ 2 ^ 31 →
    buf + size ≤ 2 ^ 32 → WritesWithin junk buf size fmt.raw args := by
  intro h
  have hempty : render (CString.ascii "").bytes [] = some [] := by decide
  apply not_writesWithin_zero (fun _ => 0) hempty 0x1000
  apply h (fun _ => 0) (.ascii "") [] [] 0x1000 0 hempty <;> decide

end HolyOs.Lib
