import HolyOs.Lib.CString

/-!
# Comparing strings

`strcmp` compares two strings in the lexicographic order of their bytes, as unsigned numbers, and
`strncmp` compares what the strings begin with. Neither reads behind a terminator.
-/
namespace HolyOs.Lib

/-- The sign of `d` tells how `a` and `b` are ordered. -/
structure SignOf (d : Int) (a b : List UInt8) : Prop where
  neg : d < 0 ↔ a < b
  zero : d = 0 ↔ a = b
  pos : 0 < d ↔ b < a

namespace SignOf

variable {d : Int} {a b : List UInt8} {c c1 c2 : UInt8}

theorem refl (a : List UInt8) : SignOf 0 a a := by
  constructor <;> simp

theorem cons (h : SignOf d a b) (c : UInt8) : SignOf d (c :: a) (c :: b) where
  neg := by simp [h.neg]
  zero := by simp [h.zero]
  pos := by simp [h.pos]

/-- The first bytes that differ decide. -/
theorem heads (h : c1 ≠ c2) : SignOf ((c1.toNat : Int) - c2.toNat) (c1 :: a) (c2 :: b) := by
  have hlt : c1 < c2 ↔ c1.toNat < c2.toNat := UInt8.lt_iff_toNat_lt
  have hgt : c2 < c1 ↔ c2.toNat < c1.toNat := UInt8.lt_iff_toNat_lt
  have hne : c1.toNat ≠ c2.toNat := fun heq => h (UInt8.toNat_inj.mp heq)
  constructor <;> simp only [List.cons_lt_cons_iff, List.cons.injEq] <;> grind

/-- A string is greater than what it begins with. -/
theorem longer (h : c ≠ 0) : SignOf ((c.toNat : Int) - (0 : UInt8).toNat) (c :: a) [] := by
  have hpos : c.toNat ≠ 0 := fun heq => h (UInt8.toNat_inj.mp heq)
  constructor <;> simp <;> omega

theorem shorter (h : c ≠ 0) : SignOf (((0 : UInt8).toNat : Int) - c.toNat) [] (c :: b) := by
  have hpos : c.toNat ≠ 0 := fun heq => h (UInt8.toNat_inj.mp heq)
  constructor <;> simp <;> omega

end SignOf

/-- Two strings end together, begin with the same character, or differ in the first byte, which
then decides. -/
theorem first_byte_cases {a b : List UInt8} (ha : ∀ c ∈ a, c ≠ 0) (hb : ∀ c ∈ b, c ≠ 0) :
    (a = [] ∧ b = []) ∨
    (∃ c a' b', c ≠ 0 ∧ a = c :: a' ∧ b = c :: b') ∨
    (∃ c1 s1 c2 s2, c1 ≠ c2 ∧ a ++ [0] = c1 :: s1 ∧ b ++ [0] = c2 :: s2 ∧
      SignOf ((c1.toNat : Int) - c2.toNat) a b ∧
      ∀ n, SignOf ((c1.toNat : Int) - c2.toNat) (a.take (n + 1)) (b.take (n + 1))) := by
  match a, b with
  | [], [] => exact .inl ⟨rfl, rfl⟩
  | [], c2 :: b =>
    have hc2 := hb c2 (by simp)
    exact .inr (.inr ⟨0, [], c2, b ++ [0], hc2.symm, rfl, rfl, .shorter hc2,
      fun n => .shorter hc2⟩)
  | c1 :: a, [] =>
    have hc1 := ha c1 (by simp)
    exact .inr (.inr ⟨c1, a ++ [0], 0, [], hc1, rfl, rfl, .longer hc1, fun n => .longer hc1⟩)
  | c1 :: a, c2 :: b =>
    by_cases heq : c1 = c2
    · exact .inr (.inl ⟨c1, a, b, ha c1 (by simp), rfl, by rw [heq]⟩)
    · exact .inr (.inr ⟨c1, a ++ [0], c2, b ++ [0], heq, rfl, rfl, .heads heq,
        fun n => .heads heq⟩)

theorem strcmp_signOf {a b : List UInt8} (ha : ∀ c ∈ a, c ≠ 0) (hb : ∀ c ∈ b, c ≠ 0) :
    ∃ d, strcmp (a ++ [0]) (b ++ [0]) = some d ∧ SignOf d a b := by
  induction a generalizing b with
  | nil =>
    rcases first_byte_cases ha hb with ⟨-, rfl⟩ | ⟨c, a', b', -, hnil, -⟩ |
      ⟨c1, s1, c2, s2, hne, hs1, hs2, hsign, -⟩
    · exact ⟨0, rfl, .refl []⟩
    · cases hnil
    · exact ⟨_, by rw [hs1, hs2, strcmp, if_neg (by grind)], hsign⟩
  | cons c1 a ih =>
    rcases first_byte_cases ha hb with ⟨hnil, -⟩ | ⟨c, a', b', hc, ⟨rfl, rfl⟩, rfl⟩ |
      ⟨c1, s1, c2, s2, hne, hs1, hs2, hsign, -⟩
    · cases hnil
    · obtain ⟨d, hd, hsign⟩ :=
        ih (List.forall_mem_cons.mp ha).2 (List.forall_mem_cons.mp hb).2
      refine ⟨d, ?_, hsign.cons c1⟩
      rw [List.cons_append, List.cons_append, strcmp, if_pos ⟨hc, rfl⟩, hd]
    · exact ⟨_, by rw [hs1, hs2, strcmp, if_neg (by grind)], hsign⟩

theorem strncmpLoop_signOf (n : Nat) {a b : List UInt8} (ha : ∀ c ∈ a, c ≠ 0)
    (hb : ∀ c ∈ b, c ≠ 0) : ∃ d, strncmpLoop n (a ++ [0]) (b ++ [0]) = some d ∧
      SignOf d (a.take (n + 1)) (b.take (n + 1)) := by
  induction n generalizing a b with
  | zero =>
    rcases first_byte_cases ha hb with ⟨rfl, rfl⟩ | ⟨c, a', b', hc, rfl, rfl⟩ |
      ⟨c1, s1, c2, s2, -, hs1, hs2, -, hsign⟩
    · exact ⟨0, rfl, .refl []⟩
    · refine ⟨0, by simp [strncmpLoop], .refl [c]⟩
    · exact ⟨_, by rw [hs1, hs2, strncmpLoop], hsign 0⟩
  | succ n ih =>
    rcases first_byte_cases ha hb with ⟨rfl, rfl⟩ | ⟨c, a', b', hc, rfl, rfl⟩ |
      ⟨c1, s1, c2, s2, hne, hs1, hs2, -, hsign⟩
    · exact ⟨0, rfl, .refl []⟩
    · obtain ⟨d, hd, hsign⟩ :=
        ih (List.forall_mem_cons.mp ha).2 (List.forall_mem_cons.mp hb).2
      refine ⟨d, ?_, hsign.cons c⟩
      rw [List.cons_append, List.cons_append, strncmpLoop, if_pos ⟨hc, rfl⟩, hd]
    · exact ⟨_, by rw [hs1, hs2, strncmpLoop, if_neg (by grind)], hsign (n + 1)⟩

theorem strncmp_signOf (n : Nat) {a b : List UInt8} (ha : ∀ c ∈ a, c ≠ 0)
    (hb : ∀ c ∈ b, c ≠ 0) : ∃ d, strncmp (a ++ [0]) (b ++ [0]) n = some d ∧
      SignOf d (a.take n) (b.take n) := by
  cases n with
  | zero => exact ⟨0, rfl, .refl []⟩
  | succ n => exact strncmpLoop_signOf n ha hb

/-- The strings are equal. -/
theorem strcmp_eq_zero_iff (s t : CString) : strcmp s.raw t.raw = some 0 ↔ s.bytes = t.bytes := by
  obtain ⟨d, hd, hsign⟩ := strcmp_signOf s.nonzero t.nonzero
  rw [CString.raw, CString.raw, hd, Option.some.injEq, hsign.zero]

/-- The first string begins with the second. -/
theorem strncmp_eq_zero_iff (s t : CString) :
    strncmp s.raw t.raw t.bytes.length = some 0 ↔ t.bytes <+: s.bytes := by
  obtain ⟨d, hd, hsign⟩ := strncmp_signOf t.bytes.length s.nonzero t.nonzero
  rw [CString.raw, CString.raw, hd, Option.some.injEq, hsign.zero, List.take_length,
    List.prefix_iff_eq_take]
  exact eq_comm

end HolyOs.Lib
