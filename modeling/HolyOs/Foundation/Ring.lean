import Mathlib.Data.List.Basic
import Mathlib.Tactic.SplitIfs

/-!
# Ring buffers

A ring of `n` cells with the next cell to fill, `head`, and the next cell to empty, `tail`.
Equal indices mean that the ring is empty, so it holds at most `n - 1` elements. Cells outside
the contents are unrestricted. A ring refines a bounded queue: pushing appends to the contents
unless they have `n - 1` elements, popping removes their first element.
-/
namespace Ring

/-- The cells and the two indices. -/
structure State (α : Type*) where
  buffer : Nat → α
  head : Nat
  tail : Nat

/-- The cell after `i`. -/
def next (n i : Nat) : Nat := (i + 1) % n

/-- The cell `i` places after `tail`, at most once around. -/
def index (n tail i : Nat) : Nat := if tail + i < n then tail + i else tail + i - n

variable {α : Type*} {n : Nat}

def length (n : Nat) (s : State α) : Nat :=
  if s.tail ≤ s.head then s.head - s.tail else s.head + n - s.tail

/-- The elements from `tail` up to `head`. -/
def contents (n : Nat) (s : State α) : List α :=
  (List.range (length n s)).map fun i => s.buffer (index n s.tail i)

/-- Both indices are in the ring. -/
structure Valid (n : Nat) (s : State α) : Prop where
  head_lt : s.head < n
  tail_lt : s.tail < n

/-- Write an element and advance, unless that would make the ring look empty. -/
def push (n : Nat) (s : State α) (x : α) : State α :=
  if next n s.head = s.tail then s
  else ⟨fun i => if i = s.head then x else s.buffer i, next n s.head, s.tail⟩

/-- Read an element and advance; `z` stands for no element. -/
def pop (n : Nat) (z : α) (s : State α) : α × State α :=
  if s.tail = s.head then (z, s)
  else (s.buffer s.tail, { s with tail := next n s.tail })

theorem next_lt {i : Nat} (h : i < n) : next n i < n := Nat.mod_lt _ (by omega)

theorem next_eq {i : Nat} (h : i < n) : next n i = if i + 1 < n then i + 1 else 0 := by
  unfold next
  split_ifs with hlt
  · exact Nat.mod_eq_of_lt hlt
  · obtain rfl : i + 1 = n := by omega
    exact Nat.mod_self _

variable {s : State α}

@[simp] theorem length_contents : (contents n s).length = length n s := by
  simp [contents]

theorem Valid.length_lt (h : Valid n s) : length n s < n := by
  have := h.head_lt
  have := h.tail_lt
  unfold length
  split_ifs <;> omega

theorem Valid.empty_iff (h : Valid n s) : s.tail = s.head ↔ contents n s = [] := by
  have := h.tail_lt
  rw [← List.length_eq_zero_iff, length_contents]
  unfold length
  split_ifs <;> omega

/-- The ring is full when one more element would make the indices equal. -/
theorem Valid.full_iff (h : Valid n s) :
    next n s.head = s.tail ↔ (contents n s).length = n - 1 := by
  have := h.head_lt
  have := h.tail_lt
  rw [length_contents, next_eq h.head_lt]
  unfold length
  split_ifs <;> omega

theorem Valid.push (h : Valid n s) (x : α) : Valid n (push n s x) := by
  unfold Ring.push
  split_ifs
  · exact h
  · exact ⟨next_lt h.head_lt, h.tail_lt⟩

theorem Valid.pop (h : Valid n s) (z : α) : Valid n (pop n z s).2 := by
  unfold Ring.pop
  split_ifs
  · exact h
  · exact ⟨h.head_lt, next_lt h.tail_lt⟩

theorem Valid.push_full (h : Valid n s) (x : α) (hfull : (contents n s).length = n - 1) :
    Ring.push n s x = s := if_pos (h.full_iff.mpr hfull)

/-- Pushing appends. -/
theorem Valid.contents_push (h : Valid n s) (x : α) (hroom : (contents n s).length ≠ n - 1) :
    contents n (Ring.push n s x) = contents n s ++ [x] := by
  have hhead := h.head_lt
  have htail := h.tail_lt
  have hnext : next n s.head ≠ s.tail := h.full_iff.not.mpr hroom
  have hlength : length n (Ring.push n s x) = length n s + 1 := by
    rw [Ring.push, if_neg hnext]
    rw [next_eq hhead] at hnext ⊢
    unfold length
    dsimp only
    split_ifs at hnext ⊢ <;> omega
  have hcell : index n s.tail (length n s) = s.head := by
    unfold index length
    split_ifs <;> omega
  rw [contents, hlength, List.range_succ, List.map_append, contents, Ring.push, if_neg hnext]
  -- the cells of the old contents are not the one that was written
  have hold : ∀ i ∈ List.range (length n s), index n s.tail i ≠ s.head := by
    intro i hi
    rw [List.mem_range] at hi
    unfold length at hi
    unfold index
    split_ifs at hi ⊢ <;> omega
  congr 1
  · exact List.map_congr_left fun i hi => if_neg (hold i hi)
  · simp [hcell]

/-- A push in two steps: advancing takes in what the cell holds. -/
theorem Valid.contents_advance (h : Valid n s) (hroom : next n s.head ≠ s.tail) :
    contents n { s with head := next n s.head } = contents n s ++ [s.buffer s.head] := by
  have hsame : (fun i => if i = s.head then s.buffer s.head else s.buffer i) = s.buffer := by
    funext i
    split_ifs with hi
    · rw [hi]
    · rfl
  have hpush := h.contents_push (s.buffer s.head) (h.full_iff.not.mp hroom)
  rwa [Ring.push, if_neg hroom, hsame] at hpush

/-- Writing the cell first changes nothing. -/
theorem Valid.contents_write (h : Valid n s) (x : α) (hroom : next n s.head ≠ s.tail) :
    contents n { s with buffer := fun i => if i = s.head then x else s.buffer i } =
      contents n s := by
  have hvalid : Valid n { s with buffer := fun i => if i = s.head then x else s.buffer i } :=
    ⟨h.head_lt, h.tail_lt⟩
  have hadvance := hvalid.contents_advance hroom
  have hpush := h.contents_push x (h.full_iff.not.mp hroom)
  rw [Ring.push, if_neg hroom] at hpush
  simp only [if_true] at hadvance
  exact List.append_cancel_right (hadvance.symm.trans hpush)

/-- Popping removes the first element. -/
theorem Valid.contents_pop (h : Valid n s) (z : α) (hne : contents n s ≠ []) :
    contents n s = (Ring.pop n z s).1 :: contents n (Ring.pop n z s).2 := by
  have hhead := h.head_lt
  have htail := h.tail_lt
  have hindices : s.tail ≠ s.head := h.empty_iff.not.mpr hne
  rw [Ring.pop, if_neg hindices]
  have hlength : length n s = length n { s with tail := next n s.tail } + 1 := by
    unfold length
    dsimp only
    rw [next_eq htail]
    split_ifs <;> omega
  have hfirst : index n s.tail 0 = s.tail := by
    unfold index
    split_ifs <;> omega
  rw [contents, hlength, List.range_succ_eq_map, List.map_cons, hfirst, contents, List.map_map]
  congr 1
  refine List.map_congr_left fun i hi => ?_
  rw [List.mem_range] at hi
  have hshift : index n s.tail (i + 1) = index n (next n s.tail) i := by
    have hlt := h.length_lt
    rw [next_eq htail]
    unfold index
    split_ifs <;> omega
  exact congrArg s.buffer hshift

theorem Valid.pop_empty (h : Valid n s) (z : α) (hempty : contents n s = []) :
    Ring.pop n z s = (z, s) := if_pos (h.empty_iff.mpr hempty)

end Ring
