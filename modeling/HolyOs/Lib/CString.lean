import HolyOs.Foundation.ByteMemory

/-!
# NUL-terminated strings

A C string is a sequence of bytes other than NUL; `raw` is what lies in memory, with the
terminator. `strlen`, `strcmp` and `strncmp` are the loops of `lib/string.c`; they have no result
when they read behind the memory they are given.
-/
namespace HolyOs.Lib

open ByteMemory

/-- The bytes of a string, without the terminating NUL. -/
structure CString where
  bytes : List UInt8
  nonzero : ∀ b ∈ bytes, b ≠ 0
deriving DecidableEq

namespace CString

/-- The string as it lies in memory. -/
def raw (s : CString) : List UInt8 := s.bytes ++ [0]

/-- The string that starts at the first of `bytes`. -/
def ofBytes (bytes : List UInt8) : CString :=
  ⟨bytes.takeWhile (· ≠ 0), fun b hb => by
    simpa using List.all_eq_true.mp List.all_takeWhile b hb⟩

/-- A string literal. -/
def ascii (text : String) : CString := ofBytes (text.toList.map fun c => UInt8.ofNat c.toNat)

/-- What lies behind the terminator does not matter. -/
theorem ofBytes_raw_append (s : CString) (rest : List UInt8) : ofBytes (s.raw ++ rest) = s := by
  have htake : ∀ l : List UInt8, (∀ b ∈ l, b ≠ 0) →
      (l ++ 0 :: rest).takeWhile (· ≠ 0) = l := by
    intro l hl
    rw [List.takeWhile_append_of_pos (by simpa using hl)]
    simp
  obtain ⟨bytes, hbytes⟩ := s
  simpa [ofBytes, raw] using htake bytes hbytes

end CString

/-- `while (*str++) len++;`, in a buffer of `capacity` bytes. -/
def strlen (m : Memory) (str : Nat) : Nat → Option Nat
  | 0 => none
  | capacity + 1 => if m str = 0 then some 0 else (strlen m (str + 1) capacity).map (· + 1)

def strcmp : List UInt8 → List UInt8 → Option Int
  | c1 :: s1, c2 :: s2 =>
    if c1 ≠ 0 ∧ c1 = c2 then strcmp s1 s2 else some ((c1.toNat : Int) - c2.toNat)
  | _, _ => none

/-- The loop of `strncmp`, after `--n`. -/
def strncmpLoop : Nat → List UInt8 → List UInt8 → Option Int
  | 0, c1 :: _, c2 :: _ => some ((c1.toNat : Int) - c2.toNat)
  | n + 1, c1 :: s1, c2 :: s2 =>
    if c1 ≠ 0 ∧ c1 = c2 then strncmpLoop n s1 s2 else some ((c1.toNat : Int) - c2.toNat)
  | _, _, _ => none

def strncmp (s1 s2 : List UInt8) : Nat → Option Int
  | 0 => some 0
  | n + 1 => strncmpLoop n s1 s2

theorem strlen_writeBytes (m : Memory) (str : Nat) {bytes : List UInt8} (h : ∀ b ∈ bytes, b ≠ 0)
    {capacity : Nat} (hcap : bytes.length < capacity) :
    strlen (writeBytes m str (bytes ++ [0])) str capacity = some bytes.length := by
  induction bytes generalizing m str capacity with
  | nil =>
    cases capacity with
    | zero => omega
    | succ capacity => simp [strlen, writeBytes]
  | cons b bytes ih =>
    cases capacity with
    | zero => simp at hcap
    | succ capacity =>
      have hfirst : writeBytes m str (b :: bytes ++ [0]) str = b :=
        writeBytes_inside m str (show 0 < (b :: bytes ++ [0]).length by simp)
      have hrest := ih (store8 m str b) (str + 1) (fun c hc => h c (by simp [hc]))
        (by simpa using hcap)
      rw [strlen, hfirst, if_neg (h b (by simp))]
      simpa [writeBytes] using hrest

end HolyOs.Lib
