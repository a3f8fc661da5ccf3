import HolyOs.Lib.Numerals

/-!
# Canonical numerals

The texts of `itoa` and `itoh` are the canonical numerals of their arguments, and `atoi` reads a
decimal numeral back. The smallest `int32_t` is the one number for which `itoa` fails: its negation
wraps to itself.
-/
namespace HolyOs.Lib

open ByteMemory Positional

/-- `while (*s >= '0' && *s <= '9')`. A `char` from 0x80 on is negative, and no digit either. -/
def atoiLoop : List UInt8 → Int → Option Int
  | [], _ => none
  | c :: s, val =>
    if 0x30 ≤ c ∧ c ≤ 0x39 then
      atoiLoop s ((val * 10 + ((c.toNat : Int) - 0x30)).bmod (2 ^ 32))
    else some val

/-- The `int` that is read from the bytes from `s` on. -/
def atoi : List UInt8 → Option Int
  | [] => none
  | c :: s =>
    if c = 0x2D then (atoiLoop s 0).map fun val => (-1 * val).bmod (2 ^ 32)
    else (atoiLoop (c :: s) 0).map fun val => (1 * val).bmod (2 ^ 32)

/-! ## Decimal numerals -/

def decimalDigit (d : Nat) : UInt8 := UInt8.ofNat (0x30 + d)

/-- An optional sign and the canonical digits. -/
def IsDecimal (n : Int) (text : List UInt8) : Prop :=
  ∃ digits, Canonical 10 n.natAbs digits ∧ text = signBytes n ++ digits.map decimalDigit

theorem IsDecimal.unique {n : Int} {s t : List UInt8} (hs : IsDecimal n s) (ht : IsDecimal n t) :
    s = t := by
  obtain ⟨ds, hds, rfl⟩ := hs
  obtain ⟨es, hes, rfl⟩ := ht
  rw [hds.unique hes (by decide)]

theorem decimalDigit_range : ∀ d < 10, 0x30 ≤ decimalDigit d ∧ decimalDigit d ≤ 0x39 ∧
    decimalDigit d ≠ 0 ∧ ((decimalDigit d).toNat : Int) - 0x30 = d := by
  intro d hd
  interval_cases d <;> decide

theorem ofInt_digit : ∀ d < 10, UInt8.ofInt ((d : Nat) + 0x30) = decimalDigit d := by
  intro d hd
  interval_cases d <;> rfl

/-- The digits of a number come out last one first. -/
theorem itoaDigits_canonical {turns n : Nat} (hturns : 0 < turns) (hn : n < 10 ^ turns) :
    ∃ digits : List Nat, Canonical 10 n digits.reverse ∧ ∀ i buf,
      itoaDigits n i buf turns =
        some (i + digits.length, writeBytes buf i (digits.map decimalDigit)) := by
  induction turns generalizing n with
  | zero => omega
  | succ turns ih =>
    have hrest : n % 10 < 10 := Nat.mod_lt n (by decide)
    have hdigit : UInt8.ofInt ((n : Int).tmod 10 + 0x30) = decimalDigit (n % 10) :=
      ofInt_digit _ hrest
    have hdiv : (n : Int).tdiv 10 = (n / 10 : Nat) := rfl
    by_cases hpos : 0 < n / 10
    · have hshorter : n / 10 < 10 ^ turns := Nat.div_lt_of_lt_mul (by rwa [← Nat.pow_succ'])
      have hmore : 0 < turns := by
        by_contra hzero
        rw [Nat.eq_zero_of_not_pos hzero] at hshorter
        omega
      obtain ⟨digits, hcanonical, hrun⟩ := ih hmore hshorter
      refine ⟨n % 10 :: digits, ?_, fun i buf => ?_⟩
      · have hall := hcanonical.concat hpos hrest
        rwa [Nat.div_add_mod', ← List.reverse_cons] at hall
      · rw [itoaDigits, hdigit, hdiv, if_pos (by exact_mod_cast hpos), hrun, List.map_cons,
          List.length_cons, writeBytes]
        congr 2
        omega
    · refine ⟨[n % 10], ?_, fun i buf => ?_⟩
      · rw [Nat.mod_eq_of_lt (by omega)]
        exact .single (by omega)
      · rw [itoaDigits, hdigit, hdiv, if_neg (by exact_mod_cast hpos)]
        rfl

theorem magnitude_eq {n : Int} (hlow : -2 ^ 31 < n) (hhigh : n < 2 ^ 31) :
    magnitude n = n.natAbs := by
  unfold magnitude
  split_ifs with hsign
  · rw [Int.bmod_eq_of_le (by omega) (by omega)]
    omega
  · omega

/-- `itoa` writes the decimal form of every number whose negation does not wrap. -/
theorem itoa_isDecimal {n : Int} (hlow : -2 ^ 31 < n) (hhigh : n < 2 ^ 31) :
    ∃ text : CString, IsDecimal n text.bytes ∧ Converts (itoa n) text := by
  have hbound : n.natAbs < 10 ^ 10 := by omega
  obtain ⟨digits, hcanonical, hrun⟩ :=
    itoaDigits_canonical (show 0 < 32 by decide) (hbound.trans (by decide))
  have hdigits : ∀ i buf, itoaDigits (magnitude n) i buf 32 =
      some (i + (digits.map decimalDigit).length, writeBytes buf i (digits.map decimalDigit)) := by
    intro i buf
    rw [magnitude_eq hlow hhigh, hrun, List.length_map]
  have hbelow : ∀ d ∈ digits, d < 10 := by simpa using hcanonical.below
  let backwards : CString := ⟨digits.map decimalDigit ++ signBytes n, by
    have := decimalDigit_range
    unfold signBytes
    grind⟩
  have hlen : digits.length ≤ 10 := by
    simpa using hcanonical.length_le (by decide) (by decide) hbound
  have hshort : backwards.bytes.length < 32 := by
    simp only [backwards, signBytes]
    grind
  refine ⟨_, ⟨digits.reverse, hcanonical, ?_⟩, itoa_reverses hshort (itoaBackwards_eq hdigits)⟩
  simp only [backwards, List.reverse_append, List.map_reverse]
  unfold signBytes
  split_ifs <;> rfl

/-! ## Reading a numeral -/

/-- The digits are taken in as `value` does it, modulo `2 ^ 32`. -/
theorem atoiLoop_digits {digits : List Nat} (hbelow : ∀ d ∈ digits, d < 10) (v : Nat) :
    atoiLoop (digits.map decimalDigit ++ [0]) ((v : Int).bmod (2 ^ 32)) =
      some (((digits.foldl (fun v d => v * 10 + d) v : Nat) : Int).bmod (2 ^ 32)) := by
  induction digits generalizing v with
  | nil => rfl
  | cons d digits ih =>
    obtain ⟨hd, hbelow⟩ := List.forall_mem_cons.mp hbelow
    obtain ⟨hlow, hhigh, -, hvalue⟩ := decimalDigit_range d hd
    have hnext : ((v : Int).bmod (2 ^ 32) * 10 + d).bmod (2 ^ 32) =
        ((v * 10 + d : Nat) : Int).bmod (2 ^ 32) := by
      rw [← Int.bmod_add_bmod, Int.bmod_mul_bmod, Int.bmod_add_bmod]
      push_cast
      rfl
    rw [List.map_cons, List.cons_append, atoiLoop, if_pos ⟨hlow, hhigh⟩, hvalue, hnext, ih hbelow,
      List.foldl_cons]

/-- `atoi` inverts the decimal form of every `int`. -/
theorem atoi_isDecimal {n : Int} (hlow : -2 ^ 31 ≤ n) (hhigh : n < 2 ^ 31) {text : CString}
    (htext : IsDecimal n text.bytes) : atoi text.raw = some n := by
  obtain ⟨digits, hcanonical, hbytes⟩ := htext
  have hloop : atoiLoop (digits.map decimalDigit ++ [0]) 0 =
      some ((n.natAbs : Int).bmod (2 ^ 32)) := by
    rw [← hcanonical.value_eq]
    exact atoiLoop_digits hcanonical.below 0
  rw [CString.raw, hbytes]
  unfold signBytes
  split_ifs with hsign
  · rw [List.cons_append, List.cons_append, List.nil_append, atoi, if_pos rfl, hloop,
      Option.map_some, Int.mul_bmod_bmod, Int.bmod_eq_of_le (by omega) (by omega)]
    congr 1
    omega
  · obtain ⟨d, rest, rfl⟩ := List.exists_cons_of_ne_nil hcanonical.nonempty
    have hd : decimalDigit d ≠ 0x2D := by
      have hdigit := decimalDigit_range d (hcanonical.below d (by simp))
      intro heq
      rw [heq] at hdigit
      exact absurd hdigit.1 (by decide)
    rw [List.map_cons, List.cons_append] at hloop
    rw [List.nil_append, List.map_cons, List.cons_append, atoi, if_neg hd, hloop,
      Option.map_some, Int.mul_bmod_bmod, Int.bmod_eq_of_le (by omega) (by omega)]
    congr 1
    omega

/-- `itoa` writes the decimal form of `n` with a NUL, returns its length, and `atoi` reads `n`
from it. -/
def DecimalRoundTrip (n : Int) : Prop :=
  ∃ text : CString, IsDecimal n text.bytes ∧ Converts (itoa n) text ∧ atoi text.raw = some n

/-- The smallest number comes out as `-(`, which is not its decimal form. -/
theorem itoa_min {text : CString} (htext : Converts (itoa (-2 ^ 31)) text) :
    ¬ IsDecimal (-2 ^ 31) text.bytes := by
  have hbytes : text.bytes = [0x2D, 0x28] := by
    rw [← htext.numeral_eq]
    decide
  have hcanonical : Canonical 10 (2 ^ 31) [2, 1, 4, 7, 4, 8, 3, 6, 4, 8] :=
    ⟨by decide, by decide, by decide, by decide⟩
  have hdecimal : IsDecimal (-2 ^ 31)
      (0x2D :: [2, 1, 4, 7, 4, 8, 3, 6, 4, 8].map decimalDigit) := ⟨_, hcanonical, rfl⟩
  intro h
  rw [hbytes] at h
  exact absurd (h.unique hdecimal) (by decide)

theorem decimalRoundTrip_iff {n : Int} (hlow : -2 ^ 31 ≤ n) (hhigh : n < 2 ^ 31) :
    DecimalRoundTrip n ↔ n ≠ -2 ^ 31 := by
  constructor
  · rintro ⟨text, hdecimal, htext, -⟩ rfl
    exact itoa_min htext hdecimal
  · intro hne
    obtain ⟨text, hdecimal, htext⟩ := itoa_isDecimal (by omega) hhigh
    exact ⟨text, hdecimal, htext, atoi_isDecimal hlow hhigh hdecimal⟩

theorem decimalRoundTrip_iff_minus_one : DecimalRoundTrip (-1) ↔ (-1 : Int) ≠ -2 ^ 31 :=
  decimalRoundTrip_iff (by decide) (by decide)

theorem decimalRoundTrip_fails : ¬ ∀ n : Int, -2 ^ 31 ≤ n → n < 2 ^ 31 → DecimalRoundTrip n := by
  intro h
  obtain ⟨text, hdecimal, htext, -⟩ := h (-2 ^ 31) (by decide) (by decide)
  exact itoa_min htext hdecimal

/-! ## Hexadecimal numerals -/

/-- `itoh` writes the canonical upper-case numeral of up to eight digits; it uses the table at the
digits only. -/
theorem itoh_canonical {n : Nat} (hn : n < 2 ^ 32) :
    Canonical 16 n (itohIndices n 32) ∧ (itohIndices n 32).length ≤ 8 ∧
      (∀ i ∈ itohIndices n 32, i < 16) ∧
      ∃ text : CString, text.bytes = (itohIndices n 32).map hexDigit ∧ Converts (itoh n) text := by
  obtain ⟨k, hk, hbound, htop, hindices, htext⟩ := itoh_writes hn
  have hcanonical : Canonical 16 n (itohIndices n 32) := by
    rw [hindices]
    exact .of_padded (by decide) hbound htop
  exact ⟨hcanonical, hcanonical.length_le (by decide) (by decide) (by omega), hcanonical.below,
    htext⟩

theorem itoh_canonical_beef : Canonical 16 0xBEEF (itohIndices 0xBEEF 32) ∧
    (itohIndices 0xBEEF 32).length ≤ 8 ∧ (∀ i ∈ itohIndices 0xBEEF 32, i < 16) ∧
    ∃ text : CString, text.bytes = (itohIndices 0xBEEF 32).map hexDigit ∧
      Converts (itoh 0xBEEF) text :=
  itoh_canonical (by decide)

end HolyOs.Lib
