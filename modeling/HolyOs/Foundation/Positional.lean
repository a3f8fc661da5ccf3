import Mathlib.Data.List.Induction
import Mathlib.Data.Nat.Digits.Lemmas

/-!
# Positional numerals

Lists of digits in a base `b`, the most significant digit first. A numeral is canonical when it
has no leading zero, where zero itself is the one digit `0`; every number has one canonical
numeral.
-/
namespace Positional

variable {b n q d k : Nat} {ds es : List Nat}

/-- The number that the digits stand for. -/
def value (b : Nat) (ds : List Nat) : Nat := ds.foldl (fun v d => v * b + d) 0

@[simp] theorem value_nil : value b [] = 0 := rfl

@[simp] theorem value_concat : value b (ds ++ [d]) = value b ds * b + d := by
  simp [value]

theorem value_eq_ofDigits (ds : List Nat) : value b ds = Nat.ofDigits b ds.reverse := by
  induction ds using List.reverseRecOn with
  | nil => rfl
  | append_singleton ds d ih =>
    rw [value_concat, ih, List.reverse_append, List.reverse_singleton, List.singleton_append,
      Nat.ofDigits_cons]
    ring

theorem value_cons : value b (d :: ds) = d * b ^ ds.length + value b ds := by
  rw [value_eq_ofDigits, value_eq_ofDigits, Nat.ofDigits_reverse_cons, Nat.mul_comm d, add_comm]

/-- The digits of a number below `b ^ k`, with leading zeros up to `k` digits. -/
def padded (b : Nat) : Nat → Nat → List Nat
  | 0, _ => []
  | k + 1, n => n / b ^ k :: padded b k (n % b ^ k)

@[simp] theorem length_padded : (padded b k n).length = k := by
  fun_induction padded b k n with
  | case1 => rfl
  | case2 k n ih => simp [ih]

theorem value_padded (hb : 0 < b) (hn : n < b ^ k) : value b (padded b k n) = n := by
  fun_induction padded b k n with
  | case1 => simpa using (Nat.lt_one_iff.mp hn).symm
  | case2 k n ih =>
    rw [value_cons, length_padded, ih (Nat.mod_lt _ (Nat.pow_pos hb)), Nat.div_add_mod']

theorem padded_lt (hb : 0 < b) (hn : n < b ^ k) : ∀ d ∈ padded b k n, d < b := by
  fun_induction padded b k n with
  | case1 => simp
  | case2 k n ih =>
    have htop : n / b ^ k < b := Nat.div_lt_of_lt_mul (by rwa [← Nat.pow_succ])
    exact List.forall_mem_cons.mpr ⟨htop, ih (Nat.mod_lt _ (Nat.pow_pos hb))⟩

/-- The numeral of `n` without a leading zero. -/
structure Canonical (b n : Nat) (ds : List Nat) : Prop where
  below : ∀ d ∈ ds, d < b
  value_eq : value b ds = n
  nonempty : ds ≠ []
  leading : ds.head? = some 0 → ds.length = 1

namespace Canonical

theorem single (h : d < b) : Canonical b d [d] where
  below := by simpa using h
  value_eq := by simp [value]
  nonempty := by simp
  leading := fun _ => rfl

/-- A further digit, behind a number that is not zero. -/
theorem concat (h : Canonical b q ds) (hq : 0 < q) (hd : d < b) :
    Canonical b (q * b + d) (ds ++ [d]) where
  below := by
    have := h.below
    grind
  value_eq := by rw [value_concat, h.value_eq]
  nonempty := by simp
  leading := fun hhead => by
    have hhead : ds.head? = some 0 := by
      cases ds with
      | nil => exact absurd rfl h.nonempty
      | cons e ds => simpa using hhead
    obtain ⟨e, rfl⟩ := List.length_eq_one_iff.mp (h.leading hhead)
    have hzero := h.value_eq
    simp only [List.head?_cons, Option.some.injEq] at hhead
    simp [value, hhead] at hzero
    omega

/-- The digits from the top one on, which is a zero for the number zero only. -/
theorem of_padded (hb : 0 < b) (hn : n < b ^ (k + 1)) (htop : k ≠ 0 → b ^ k ≤ n) :
    Canonical b n (padded b (k + 1) n) where
  below := padded_lt hb hn
  value_eq := value_padded hb hn
  nonempty := by simp [padded]
  leading := fun hhead => by
    have hzero : n / b ^ k = 0 := by simpa [padded] using hhead
    have hk : k = 0 := by
      by_contra hk
      exact absurd (htop hk) (Nat.not_le.mpr ((Nat.div_eq_zero_iff_lt (Nat.pow_pos hb)).mp hzero))
    rw [length_padded, hk]

theorem reverse_eq_digits (h : Canonical b n ds) (hb : 1 < b) (hn : 0 < n) :
    ds.reverse = b.digits n := by
  have hofDigits : Nat.ofDigits b ds.reverse = n := by rw [← value_eq_ofDigits, h.value_eq]
  rw [← hofDigits, Nat.digits_ofDigits b hb _ (fun d hd => h.below d (List.mem_reverse.mp hd))]
  intro hne hlast
  rw [List.getLast_reverse] at hlast
  have hhead : ds.head? = some 0 := by rw [List.head?_eq_some_head h.nonempty, hlast]
  obtain ⟨e, rfl⟩ := List.length_eq_one_iff.mp (h.leading hhead)
  have hvalue := h.value_eq
  simp only [List.head_cons] at hlast
  simp [value, hlast] at hvalue
  omega

theorem eq_zero (h : Canonical b 0 ds) : ds = [0] := by
  obtain ⟨d, ds, rfl⟩ := List.exists_cons_of_ne_nil h.nonempty
  have hvalue := h.value_eq
  rw [value_cons] at hvalue
  have hb : 0 < b := Nat.zero_lt_of_lt (h.below d (by simp))
  have hd : d = 0 := by
    have := Nat.pow_pos (n := ds.length) hb
    by_contra hne
    have := Nat.mul_pos (Nat.pos_of_ne_zero hne) this
    omega
  have hlen := h.leading (by simp [hd])
  simp only [List.length_cons, Nat.add_eq_right, List.length_eq_zero_iff] at hlen
  rw [hd, hlen]

/-- A number has one canonical numeral. -/
theorem unique (h : Canonical b n ds) (h' : Canonical b n es) (hb : 1 < b) : ds = es := by
  rcases Nat.eq_zero_or_pos n with rfl | hn
  · rw [h.eq_zero, h'.eq_zero]
  · exact List.reverse_inj.mp
      ((h.reverse_eq_digits hb hn).trans (h'.reverse_eq_digits hb hn).symm)

theorem length_le (h : Canonical b n ds) (hb : 1 < b) (hk : 0 < k) (hn : n < b ^ k) :
    ds.length ≤ k := by
  rcases Nat.eq_zero_or_pos n with rfl | hpos
  · rw [h.eq_zero, List.length_singleton]
    exact hk
  · rw [← List.length_reverse, h.reverse_eq_digits hb hpos, Nat.digits_length_le_iff hb]
    exact hn

end Canonical

end Positional
