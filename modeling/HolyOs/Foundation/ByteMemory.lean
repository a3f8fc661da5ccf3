import Mathlib.Tactic.Ring

/-!
# Byte-addressed memory with little-endian words

Memory is a total function from addresses to bytes. A 32-bit word is four consecutive bytes,
least significant first. Loads depend only on the bytes they read and stores change only the
bytes they write; `SameOn` states that a range is untouched.
-/
namespace ByteMemory

abbrev Memory := Nat → UInt8

/-- The byte range `[lo, hi)` holds the same in both memories. -/
def SameOn (m m' : Memory) (lo hi : Nat) : Prop := ∀ x, lo ≤ x → x < hi → m' x = m x

def load32 (m : Memory) (a : Nat) : Nat :=
  (m a).toNat + 256 * (m (a + 1)).toNat + 65536 * (m (a + 2)).toNat + 16777216 * (m (a + 3)).toNat

def store32 (m : Memory) (a v : Nat) : Memory := fun x =>
  if a ≤ x ∧ x < a + 4 then UInt8.ofNat (v / 256 ^ (x - a)) else m x

def store8 (m : Memory) (a : Nat) (v : UInt8) : Memory := fun x => if x = a then v else m x

def store16 (m : Memory) (a : Nat) (v : UInt16) : Memory := fun x =>
  if x = a then v.toUInt8 else if x = a + 1 then (v >>> 8).toUInt8 else m x

theorem store16_apply (m : Memory) (a : Nat) (v : UInt16) (x : Nat) : store16 m a v x =
    if x = a then v.toUInt8 else if x = a + 1 then (v >>> 8).toUInt8 else m x := rfl

theorem SameOn.refl (m : Memory) (lo hi : Nat) : SameOn m m lo hi := fun _ _ _ => rfl

theorem SameOn.trans {m₁ m₂ m₃ : Memory} {lo hi : Nat} (h : SameOn m₁ m₂ lo hi)
    (g : SameOn m₂ m₃ lo hi) : SameOn m₁ m₃ lo hi :=
  fun x hlo hhi => (g x hlo hhi).trans (h x hlo hhi)

theorem SameOn.mono {m m' : Memory} {lo hi lo' hi' : Nat} (h : SameOn m m' lo hi)
    (hlo : lo ≤ lo') (hhi : hi' ≤ hi) : SameOn m m' lo' hi' :=
  fun x hx hx' => h x (by omega) (by omega)

theorem load32_lt (m : Memory) (a : Nat) : load32 m a < 2 ^ 32 := by
  have h0 := (m a).toNat_lt
  have h1 := (m (a + 1)).toNat_lt
  have h2 := (m (a + 2)).toNat_lt
  have h3 := (m (a + 3)).toNat_lt
  unfold load32
  omega

theorem load32_congr {m m' : Memory} {a : Nat} (h : SameOn m m' a (a + 4)) :
    load32 m' a = load32 m a := by
  unfold load32
  rw [h a (by omega) (by omega), h (a + 1) (by omega) (by omega), h (a + 2) (by omega) (by omega),
    h (a + 3) (by omega) (by omega)]

theorem load32_zero {m : Memory} {a : Nat} (h : ∀ x, a ≤ x → x < a + 4 → m x = 0) :
    load32 m a = 0 := by
  unfold load32
  rw [h a (by omega) (by omega), h (a + 1) (by omega) (by omega), h (a + 2) (by omega) (by omega),
    h (a + 3) (by omega) (by omega)]
  rfl

theorem load32_store32_same (m : Memory) (a : Nat) {v : Nat} (hv : v < 2 ^ 32) :
    load32 (store32 m a v) a = v := by
  simp [load32, store32]
  omega

theorem sameOn_store32 (m : Memory) {a lo hi : Nat} (v : Nat) (h : hi ≤ a ∨ a + 4 ≤ lo) :
    SameOn m (store32 m a v) lo hi :=
  fun x hlo hhi => if_neg (by omega)

theorem load32_store32_of_disjoint (m : Memory) {a b : Nat} (v : Nat) (h : b + 4 ≤ a ∨ a + 4 ≤ b) :
    load32 (store32 m a v) b = load32 m b :=
  load32_congr (sameOn_store32 m v h)

theorem sameOn_store8 (m : Memory) {a lo hi : Nat} (v : UInt8) (h : hi ≤ a ∨ a < lo) :
    SameOn m (store8 m a v) lo hi :=
  fun x hlo hhi => if_neg (by omega)

@[simp] theorem store8_same (m : Memory) (a : Nat) (v : UInt8) : store8 m a v a = v :=
  if_pos rfl

theorem load32_store8_of_disjoint (m : Memory) {a b : Nat} (v : UInt8) (h : b + 4 ≤ a ∨ a < b) :
    load32 (store8 m a v) b = load32 m b :=
  load32_congr (sameOn_store8 m v h)

/-! ## Arrays of words -/

/-- Store `f 0, …, f (n - 1)` at consecutive words from `base`, in order. -/
def storeWords (m : Memory) (base : Nat) (f : Nat → Nat) (n : Nat) : Memory :=
  (List.range n).foldl (fun m i => store32 m (base + 4 * i) (f i)) m

theorem storeWords_succ (m : Memory) (base : Nat) (f : Nat → Nat) (n : Nat) :
    storeWords m base f (n + 1) = store32 (storeWords m base f n) (base + 4 * n) (f n) := by
  simp [storeWords, List.range_succ]

theorem sameOn_storeWords (m : Memory) {base lo hi n : Nat} (f : Nat → Nat)
    (h : hi ≤ base ∨ base + 4 * n ≤ lo) : SameOn m (storeWords m base f n) lo hi := by
  induction n with
  | zero => exact .refl m lo hi
  | succ n ih =>
    rw [storeWords_succ]
    exact (ih (by omega)).trans (sameOn_store32 _ _ (by omega))

theorem load32_storeWords (m : Memory) (base : Nat) {f : Nat → Nat} {n i : Nat} (hi : i < n)
    (hf : f i < 2 ^ 32) : load32 (storeWords m base f n) (base + 4 * i) = f i := by
  induction n with
  | zero => omega
  | succ n ih =>
    rw [storeWords_succ]
    by_cases heq : i = n
    · subst heq
      exact load32_store32_same _ _ hf
    · rw [load32_store32_of_disjoint _ _ (by omega), ih (by omega)]

/-! ## Strings of bytes -/

/-- Store the bytes of a list one behind the other from `a`. -/
def writeBytes (m : Memory) (a : Nat) : List UInt8 → Memory
  | [] => m
  | b :: bs => writeBytes (store8 m a b) (a + 1) bs

@[simp] theorem writeBytes_nil (m : Memory) (a : Nat) : writeBytes m a [] = m := rfl

theorem writeBytes_append (m : Memory) (a : Nat) (bs cs : List UInt8) :
    writeBytes m a (bs ++ cs) = writeBytes (writeBytes m a bs) (a + bs.length) cs := by
  induction bs generalizing m a with
  | nil => rfl
  | cons b bs ih => simp [writeBytes, ih, Nat.add_assoc, Nat.add_comm 1]

/-- One byte more at the end. -/
theorem writeBytes_concat (m : Memory) (a : Nat) (bs : List UInt8) (b : UInt8) :
    writeBytes m a (bs ++ [b]) = store8 (writeBytes m a bs) (a + bs.length) b :=
  writeBytes_append m a bs [b]

theorem sameOn_writeBytes (m : Memory) {a lo hi : Nat} (bs : List UInt8)
    (h : hi ≤ a ∨ a + bs.length ≤ lo) : SameOn m (writeBytes m a bs) lo hi := by
  induction bs generalizing m a with
  | nil => exact .refl m lo hi
  | cons b bs ih =>
    simp only [List.length_cons] at h
    exact (sameOn_store8 m b (by omega)).trans (ih _ (by omega))

theorem writeBytes_outside (m : Memory) {a x : Nat} (bs : List UInt8)
    (h : x < a ∨ a + bs.length ≤ x) : writeBytes m a bs x = m x := by
  have hsame : SameOn m (writeBytes m a bs) x (x + 1) := sameOn_writeBytes m bs (by omega)
  exact hsame x (Nat.le_refl x) (Nat.lt_succ_self x)

theorem writeBytes_inside (m : Memory) (a : Nat) {bs : List UInt8} {i : Nat} (h : i < bs.length) :
    writeBytes m a bs (a + i) = bs[i] := by
  induction bs generalizing m a i with
  | nil => simp at h
  | cons b bs ih =>
    cases i with
    | zero => exact (writeBytes_outside _ bs (by omega)).trans (store8_same m a b)
    | succ i =>
      have hi : i < bs.length := by simpa using h
      have hrest := ih (store8 m a b) (a + 1) hi
      rw [Nat.add_assoc, Nat.add_comm 1] at hrest
      exact hrest

def readBytes (m : Memory) (a n : Nat) : List UInt8 := (List.range n).map fun i => m (a + i)

theorem readBytes_add (m : Memory) (a n k : Nat) :
    readBytes m a (n + k) = readBytes m a n ++ readBytes m (a + n) k := by
  simp [readBytes, List.range_add, Nat.add_assoc]

theorem take_readBytes (m : Memory) (a n k : Nat) :
    (readBytes m a n).take k = readBytes m a (min k n) := by
  simp [readBytes, ← List.map_take, List.take_range]

theorem readBytes_congr {m m' : Memory} {a n : Nat} (h : SameOn m m' a (a + n)) :
    readBytes m' a n = readBytes m a n := by
  apply List.map_congr_left
  intro i hi
  have := List.mem_range.mp hi
  exact h (a + i) (by omega) (by omega)

theorem readBytes_writeBytes_append (m : Memory) (a : Nat) (bs cs : List UInt8) :
    readBytes (writeBytes m a (bs ++ cs)) a bs.length = bs := by
  apply List.ext_getElem
  · simp [readBytes]
  · intro i hi hbs
    simp only [readBytes, List.getElem_map, List.getElem_range]
    rw [writeBytes_inside m a (by rw [List.length_append]; omega), List.getElem_append_left hbs]

end ByteMemory
