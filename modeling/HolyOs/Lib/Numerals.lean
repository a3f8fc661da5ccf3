import HolyOs.Foundation.Positional
import HolyOs.Lib.CString
import Mathlib.Tactic.IntervalCases
import Mathlib.Tactic.SplitIfs

/-!
# Numerals

`itoa`, `itoh` and `reverse` of `lib/string.c`, on buffers that are addressed from their first
byte. A loop has no result when it takes more turns than the buffer has bytes. On a buffer of 32
bytes every number gives a result, and the string left in the buffer does not depend on what was
there before.
-/
namespace HolyOs.Lib

open ByteMemory

/-- `for (; i < j; i++, j--)`, with the exchange of `s[i]` and `s[j]`. -/
def reverseLoop (s : Memory) (i : Nat) (j : Int) : Nat → Option Memory
  | 0 => none
  | turns + 1 =>
    if i < j then
      let c := s i
      let s := store8 s i (s j.toNat)
      let s := store8 s j.toNat c
      reverseLoop s (i + 1) (j - 1) turns
    else some s

def reverse (s : Memory) (capacity : Nat) : Option Memory := do
  let len ← strlen s 0 capacity
  reverseLoop s 0 ((len : Int) - 1) capacity

/-- `do { buf[i++] = n % 10 + '0'; } while ((n /= 10) > 0);`. -/
def itoaDigits (n : Int) (i : Nat) (buf : Memory) : Nat → Option (Nat × Memory)
  | 0 => none
  | turns + 1 =>
    let buf := store8 buf i (UInt8.ofInt (n.tmod 10 + 0x30))
    let n := n.tdiv 10
    if 0 < n then itoaDigits n (i + 1) buf turns else some (i + 1, buf)

/-- The digits, last one first, and the sign. The negation of `INT_MIN` wraps. -/
def itoaBackwards (n : Int) (buf : Memory) (capacity : Nat) : Option (Nat × Memory) := do
  let sign := n
  let n := if sign < 0 then (-n).bmod (2 ^ 32) else n
  let (i, buf) ← itoaDigits n 0 buf capacity
  if sign < 0 then some (i + 1, store8 buf i 0x2D) else some (i, buf)

def itoa (n : Int) (buf : Memory) (capacity : Nat) : Option (Nat × Memory) := do
  let (i, buf) ← itoaBackwards n buf capacity
  let buf := store8 buf i 0
  let buf ← reverse buf capacity
  some (i, buf)

def hexChars : List UInt8 := (CString.ascii "0123456789ABCDEF").raw

/-- `while ((n / d == 0) && (d >= 0x10)) d /= 0x10;`. -/
def itohScale (n d : Nat) : Nat → Option Nat
  | 0 => none
  | turns + 1 => if n / d = 0 ∧ 0x10 ≤ d then itohScale n (d / 0x10) turns else some d

/-- `while (d >= 0xF)`, with what is left of `i` at the end. -/
def itohDigits (d i ptr : Nat) (buf : Memory) : Nat → Option (Nat × Nat × Memory)
  | 0 => none
  | turns + 1 =>
    if 0xF ≤ d then do
      let c ← hexChars[i / d]?
      itohDigits (d / 0x10) (i % d) (ptr + 1) (store8 buf ptr c) turns
    else some (i, ptr, buf)

/-- The indices into `hexChars` that these turns use, and the last one. -/
def itohDigitIndices (d i : Nat) : Nat → List Nat
  | 0 => []
  | turns + 1 =>
    if 0xF ≤ d then i / d :: itohDigitIndices (d / 0x10) (i % d) turns else [i]

/-- The argument is compared and divided as an unsigned number. -/
def itoh (n : Nat) (buf : Memory) (capacity : Nat) : Option (Nat × Memory) := do
  let d ← itohScale n 0x10000000 capacity
  let (i, ptr, buf) ← itohDigits d n 0 buf capacity
  let c ← hexChars[i]?
  let buf := store8 buf ptr c
  let buf := store8 buf (ptr + 1) 0
  let len ← strlen buf 0 capacity
  some (len, buf)

/-- All indices into `hexChars` in a call of `itoh`. -/
def itohIndices (n capacity : Nat) : List Nat :=
  match itohScale n 0x10000000 capacity with
  | some d => itohDigitIndices d n capacity
  | none => []

/-- The string that a conversion leaves in its buffer. -/
def numeral (convert : Memory → Nat → Option (Nat × Memory)) : List UInt8 :=
  match convert (fun _ => 0) 32 with
  | some (len, buf) => readBytes buf 0 len
  | none => []

/-- The conversion writes a string and returns its length, whatever was in the buffer. -/
def Converts (convert : Memory → Nat → Option (Nat × Memory)) (text : CString) : Prop :=
  text.bytes.length < 32 ∧
    ∀ buf, convert buf 32 = some (text.bytes.length, writeBytes buf 0 text.raw)

theorem Converts.numeral_eq {convert : Memory → Nat → Option (Nat × Memory)} {text : CString}
    (h : Converts convert text) : numeral convert = text.bytes := by
  unfold numeral
  rw [h.2]
  exact readBytes_writeBytes_append _ 0 text.bytes [0]

/-! ## Reversal in place -/

theorem reverseLoop_apply (s : Memory) (i : Nat) (j : Int) {turns : Nat} (hturns : j - i < turns)
    (hpos : 0 < turns) : ∃ s', reverseLoop s i j turns = some s' ∧
      ∀ x : Nat, s' x = if i ≤ x ∧ (x : Int) ≤ j then s (i + j - x).toNat else s x := by
  induction turns generalizing s i j with
  | zero => omega
  | succ turns ih =>
    unfold reverseLoop
    split_ifs with hlt
    · obtain ⟨s', hrun, hs'⟩ := ih (store8 (store8 s i (s j.toNat)) j.toNat (s i)) (i + 1) (j - 1)
        (by omega) (by omega)
      refine ⟨s', hrun, fun x => ?_⟩
      rw [hs' x]
      have hsum : ((i + 1 : Nat) + (j - 1) - x : Int) = i + j - x := by omega
      rw [hsum]
      simp only [store8]
      split_ifs <;> first | omega | rfl | (congr 1; omega)
    · refine ⟨s, rfl, fun x => ?_⟩
      split_ifs with hx
      · congr 1
        omega
      · rfl

theorem reverse_writeBytes (buf : Memory) (text : CString) {capacity : Nat}
    (hcap : text.bytes.length < capacity) :
    reverse (writeBytes buf 0 text.raw) capacity =
      some (writeBytes buf 0 (text.bytes.reverse ++ [0])) := by
  obtain ⟨s', hrun, hs'⟩ := reverseLoop_apply (writeBytes buf 0 text.raw) 0
    ((text.bytes.length : Int) - 1) (show _ < (capacity : Int) by omega) (by omega)
  have hlen : strlen (writeBytes buf 0 text.raw) 0 capacity = some text.bytes.length :=
    strlen_writeBytes buf 0 text.nonzero hcap
  have hinside : ∀ (bs : List UInt8) (x : Nat) (hx : x < bs.length),
      writeBytes buf 0 bs x = bs[x] := fun bs x hx => by
    simpa using writeBytes_inside buf 0 hx
  rw [reverse, hlen]
  refine hrun.trans (congrArg some (funext fun x => ?_))
  rw [hs' x]
  split_ifs with hx
  · have hmirror : (((0 : Nat) : Int) + (text.bytes.length - 1) - x).toNat =
        text.bytes.length - 1 - x := by omega
    rw [hmirror, hinside _ _ (by simp [CString.raw]; omega), hinside _ _ (by simp; omega)]
    simp [CString.raw, show x < text.bytes.length by omega,
      show text.bytes.length - 1 - x < text.bytes.length by omega]
  · rcases Nat.lt_or_ge text.bytes.length x with hlt | hle
    · rw [writeBytes_outside _ _ (by simp [CString.raw]; omega),
        writeBytes_outside _ _ (by simp; omega)]
    · have heq : x = text.bytes.length := by omega
      rw [hinside _ _ (by simp [CString.raw, heq]), hinside _ _ (by simp [heq])]
      simp [CString.raw, heq]

/-! ## Decimal numerals -/

theorem digit_ne_zero (n : Int) : UInt8.ofInt (n.tmod 10 + 0x30) ≠ 0 := by
  have hlow : -10 < n.tmod 10 := Int.lt_tmod_of_pos n (by decide)
  have hhigh : n.tmod 10 < 10 := Int.tmod_lt_of_pos n (by decide)
  generalize n.tmod 10 = r at hlow hhigh
  interval_cases r <;> decide

/-- A further digit is only written for a positive quotient, which is shorter by one digit. -/
theorem tdiv_lt_of_lt {n : Int} {k : Nat} (hn : n < 10 ^ (k + 1)) (hpos : 0 < n.tdiv 10) :
    n.tdiv 10 < 10 ^ k := by
  have hlow : -10 < n.tmod 10 := Int.lt_tmod_of_pos n (by decide)
  have hsplit := Int.mul_tdiv_add_tmod n 10
  have hrest : 0 ≤ n.tmod 10 := Int.tmod_nonneg 10 (by omega)
  rw [pow_succ] at hn
  omega

theorem itoaDigits_writes (k : Nat) {n : Int} (hn : n < 10 ^ (k + 1)) {turns : Nat}
    (hturns : k < turns) :
    ∃ text : CString, text.bytes.length ≤ k + 1 ∧ ∀ i buf,
      itoaDigits n i buf turns = some (i + text.bytes.length, writeBytes buf i text.bytes) := by
  induction turns generalizing n k with
  | zero => omega
  | succ turns ih =>
    by_cases hpos : 0 < n.tdiv 10
    · cases k with
      | zero =>
        have := tdiv_lt_of_lt hn hpos
        omega
      | succ k =>
        obtain ⟨text, hlen, htext⟩ := ih k (tdiv_lt_of_lt hn hpos) (by omega)
        refine ⟨⟨_ :: text.bytes, List.forall_mem_cons.mpr ⟨digit_ne_zero n, text.nonzero⟩⟩,
          Nat.succ_le_succ hlen, fun i buf => ?_⟩
        simp only [itoaDigits, if_pos hpos, htext, List.length_cons, writeBytes]
        congr 2
        omega
    · refine ⟨⟨[UInt8.ofInt (n.tmod 10 + 0x30)], List.forall_mem_singleton.mpr (digit_ne_zero n)⟩,
        by simp, fun i buf => ?_⟩
      simp only [itoaDigits, if_neg hpos]
      rfl

/-- What `itoa` takes the digits of. -/
def magnitude (n : Int) : Int := if n < 0 then (-n).bmod (2 ^ 32) else n

def signBytes (n : Int) : List UInt8 := if n < 0 then [0x2D] else []

/-- The sign goes behind the digits. -/
theorem itoaBackwards_eq {n : Int} {digits : List UInt8} {capacity : Nat}
    (hdigits : ∀ i buf, itoaDigits (magnitude n) i buf capacity =
      some (i + digits.length, writeBytes buf i digits)) (buf : Memory) :
    itoaBackwards n buf capacity = some ((digits ++ signBytes n).length,
      writeBytes buf 0 (digits ++ signBytes n)) := by
  have h := hdigits 0 buf
  rw [Nat.zero_add] at h
  refine (congrArg (Option.bind · _) h).trans ?_
  unfold signBytes
  split_ifs with hsign
  · simp [writeBytes_concat]
  · simp

theorem itoaBackwards_writes {n : Int} (hn : n < 2 ^ 31) :
    ∃ text : CString, text.bytes.length < 32 ∧ ∀ buf,
      itoaBackwards n buf 32 = some (text.bytes.length, writeBytes buf 0 text.bytes) := by
  have hbound : magnitude n < 10 ^ (9 + 1) := by
    have hwrap : (-n).bmod (2 ^ 32) < 2 ^ 31 := Int.bmod_lt (by decide)
    unfold magnitude
    split_ifs <;> omega
  obtain ⟨digits, hlen, hdigits⟩ := itoaDigits_writes 9 hbound (show _ < 32 by omega)
  refine ⟨⟨digits.bytes ++ signBytes n, ?_⟩, ?_, itoaBackwards_eq hdigits⟩
  · have := digits.nonzero
    unfold signBytes
    grind
  · unfold signBytes
    grind

/-- The numeral is the text in the other direction. -/
theorem itoa_reverses {n : Int} {text : CString} (hlen : text.bytes.length < 32)
    (htext : ∀ buf, itoaBackwards n buf 32 =
      some (text.bytes.length, writeBytes buf 0 text.bytes)) :
    Converts (itoa n) ⟨text.bytes.reverse, by simpa using text.nonzero⟩ := by
  refine ⟨by simpa using hlen, fun buf => ?_⟩
  have hend : store8 (writeBytes buf 0 text.bytes) text.bytes.length 0 =
      writeBytes buf 0 text.raw := by
    rw [CString.raw, writeBytes_concat, Nat.zero_add]
  simp only [itoa, htext, Option.bind_eq_bind, Option.bind_some, hend,
    reverse_writeBytes buf text hlen]
  simp [CString.raw]

theorem itoa_converts {n : Int} (hn : n < 2 ^ 31) : ∃ text, Converts (itoa n) text := by
  obtain ⟨text, hlen, htext⟩ := itoaBackwards_writes hn
  exact ⟨_, itoa_reverses hlen htext⟩

/-! ## Hexadecimal numerals -/

/-- The character of a digit. -/
def hexDigit (d : Nat) : UInt8 := UInt8.ofNat (if d < 10 then 0x30 + d else 0x37 + d)

theorem hexChars_get : ∀ i < 16, hexChars[i]? = some (hexDigit i) := by
  intro i hi
  interval_cases i <;> rfl

theorem hexDigit_ne_zero : ∀ d < 16, hexDigit d ≠ 0 := by
  intro d hd
  interval_cases d <;> decide

theorem pow_succ_div (k : Nat) : 16 ^ (k + 1) / 0x10 = 16 ^ k := by
  rw [pow_succ]
  omega

/-- The power of 16 that the digits start with: the first digit is no zero. -/
theorem itohScale_stops (k : Nat) {n : Nat} (hn : n < 16 ^ (k + 1)) {turns : Nat}
    (hturns : k < turns) :
    ∃ j ≤ k, itohScale n (16 ^ k) turns = some (16 ^ j) ∧ n < 16 ^ (j + 1) ∧
      (j ≠ 0 → 16 ^ j ≤ n) := by
  induction turns generalizing k with
  | zero => omega
  | succ turns ih =>
    unfold itohScale
    simp only [Nat.div_eq_zero_iff_lt (Nat.pow_pos (show 0 < 16 by decide))]
    split_ifs with hsmall
    · cases k with
      | zero => simp at hsmall
      | succ k =>
        obtain ⟨j, hj, hrun, hbound⟩ := ih k hsmall.1 (by omega)
        exact ⟨j, by omega, by rw [pow_succ_div, hrun], hbound⟩
    · refine ⟨k, Nat.le_refl k, rfl, hn, fun hk => Nat.not_lt.mp fun hlt => hsmall ⟨hlt, ?_⟩⟩
      exact Nat.le_self_pow hk 16

theorem itohDigits_writes (k : Nat) {n : Nat} (hn : n < 16 ^ (k + 1)) {turns : Nat}
    (hturns : k < turns) :
    ∃ indices i, itohDigitIndices (16 ^ k) n turns = indices ++ [i] ∧
      indices ++ [i] = Positional.padded 16 (k + 1) n ∧ ∀ ptr buf,
        itohDigits (16 ^ k) n ptr buf turns =
          some (i, ptr + k, writeBytes buf ptr (indices.map hexDigit)) := by
  induction k generalizing n turns with
  | zero =>
    obtain ⟨turns, rfl⟩ : ∃ t, turns = t + 1 := ⟨turns - 1, by omega⟩
    exact ⟨[], n, by simp [itohDigitIndices], by simp [Positional.padded],
      fun ptr buf => by simp [itohDigits]⟩
  | succ k ih =>
    obtain ⟨turns, rfl⟩ : ∃ t, turns = t + 1 := ⟨turns - 1, by omega⟩
    have hquot : n / 16 ^ (k + 1) < 16 :=
      Nat.div_lt_of_lt_mul (by rw [pow_succ] at hn; omega)
    have hd : 0xF ≤ 16 ^ (k + 1) := by
      rw [pow_succ]
      have : 0 < 16 ^ k := by positivity
      omega
    obtain ⟨indices, i, hindices, hpadded, hrun⟩ :=
      ih (n := n % 16 ^ (k + 1)) (Nat.mod_lt _ (by positivity)) (show k < turns by omega)
    refine ⟨n / 16 ^ (k + 1) :: indices, i, ?_, ?_, fun ptr buf => ?_⟩
    · rw [itohDigitIndices, if_pos hd, pow_succ_div, hindices, List.cons_append]
    · rw [Positional.padded, List.cons_append, hpadded]
    · simp only [itohDigits, if_pos hd, hexChars_get _ hquot, pow_succ_div, hrun, List.map_cons,
        writeBytes, Option.bind_eq_bind, Option.bind_some]
      congr 3
      omega

/-- The text is what the table holds at the indices, and these are the digits of `n`. -/
theorem itoh_writes {n : Nat} (hn : n < 2 ^ 32) :
    ∃ k ≤ 7, n < 16 ^ (k + 1) ∧ (k ≠ 0 → 16 ^ k ≤ n) ∧
      itohIndices n 32 = Positional.padded 16 (k + 1) n ∧
      ∃ text : CString, text.bytes = (itohIndices n 32).map hexDigit ∧ Converts (itoh n) text := by
  obtain ⟨k, hk, hscale, hbound, htop⟩ :=
    itohScale_stops 7 (n := n) (by omega) (show _ < 32 by omega)
  have hstart : itohScale n 0x10000000 32 = some (16 ^ k) := hscale
  obtain ⟨indices, i, hindices, hpadded, hrun⟩ := itohDigits_writes k hbound (show k < 32 by omega)
  have hall : itohIndices n 32 = indices ++ [i] := by rw [itohIndices, hstart, ← hindices]
  have hbelow := Positional.padded_lt (by decide : 0 < 16) hbound
  have hlen : (indices ++ [i]).length = k + 1 := by rw [hpadded, Positional.length_padded]
  rw [← hpadded] at hbelow
  let text : CString := ⟨(indices ++ [i]).map hexDigit, by
    have := hexDigit_ne_zero
    grind⟩
  have hshort : text.bytes.length < 32 := by
    simp only [text, List.length_map]
    omega
  refine ⟨k, hk, hbound, htop, hall.trans hpadded, text, by rw [hall], hshort, fun buf => ?_⟩
  have hend : store8 (store8 (writeBytes buf 0 (indices.map hexDigit)) k (hexDigit i)) (k + 1) 0 =
      writeBytes buf 0 text.raw := by
    have hindicesLen : indices.length = k := by simpa using hlen
    simp [CString.raw, text, writeBytes_append, writeBytes, hindicesLen]
  have hstrlen : strlen (writeBytes buf 0 text.raw) 0 32 = some text.bytes.length :=
    strlen_writeBytes buf 0 text.nonzero hshort
  simp [itoh, hstart, hrun, hexChars_get i (hbelow i (by simp)), hend, hstrlen]

theorem itoh_converts {n : Nat} (hn : n < 2 ^ 32) : ∃ text, Converts (itoh n) text := by
  obtain ⟨k, -, -, -, -, text, -, htext⟩ := itoh_writes hn
  exact ⟨text, htext⟩

end HolyOs.Lib
