import Mathlib.Data.List.Basic
import Mathlib.Tactic.SplitIfs

/-!
# Editing a line of bounded length

A line takes characters at its end while there is room for them, gives up its last one on an
erasure, and is handed over by the enter key. An editor with room for one character more than
another runs one ahead of it from the first character that the smaller one refuses, and falls back
in step only where both lines are empty.
-/
namespace LineEditor

variable {α : Type*}

inductive Key (α : Type*) where
  | char (a : α)
  | erase
  | enter
  /-- A key that does nothing to the line. -/
  | other
deriving DecidableEq

def edit (capacity : Nat) (line : List α) : Key α → List α
  | .char a => if line.length < capacity then line ++ [a] else line
  | .erase => line.dropLast
  | .enter => []
  | .other => line

/-- The lines handed over by a key: none when the line is empty. -/
def handed (line : List α) : Key α → List (List α)
  | .enter => if line = [] then [] else [line]
  | _ => []

/-- What is handed over by each key of a sequence. -/
def handedEach (capacity : Nat) (line : List α) : List (Key α) → List (List (List α))
  | [] => []
  | k :: ks => handed line k :: handedEach capacity (edit capacity line k) ks

/-- Whether a character has been refused for want of room, since the last enter or the last erasure
of an empty line. -/
def refuse (capacity : Nat) (line : List α) (refused : Bool) : Key α → Bool
  | .char _ => if line.length < capacity then refused else true
  | .erase => if line = [] then false else refused
  | .enter => false
  | .other => refused

/-- Every enter of the sequence comes when no refusal is pending. -/
def EntersClean (capacity : Nat) : List α → Bool → List (Key α) → Prop
  | _, _, [] => True
  | line, refused, k :: ks =>
    (k = .enter → refused = false) ∧
      EntersClean capacity (edit capacity line k) (refuse capacity line refused k) ks

instance decidableEntersClean [DecidableEq α] (capacity : Nat) :
    ∀ line refused ks, Decidable (EntersClean capacity (line : List α) refused ks)
  | _, _, [] => inferInstanceAs (Decidable True)
  | line, refused, k :: ks =>
    have := decidableEntersClean capacity (edit capacity line k) (refuse capacity line refused k) ks
    inferInstanceAs (Decidable (_ ∧ _))

theorem handed_of_ne_enter {k : Key α} (hk : k ≠ .enter) (line : List α) : handed line k = [] := by
  cases k with
  | enter => exact absurd rfl hk
  | char a | erase | other => rfl

theorem handed_enter_inj {line line' : List α} :
    handed line .enter = handed line' .enter ↔ line = line' := by
  unfold handed
  split_ifs <;> simp_all [eq_comm]

theorem length_edit_le {capacity : Nat} {line : List α} (h : line.length ≤ capacity) (k : Key α) :
    (edit capacity line k).length ≤ capacity := by
  cases k with
  | char a =>
    unfold edit
    split_ifs with hroom
    · simp only [List.length_append, List.length_singleton]
      omega
    · exact h
  | erase => simp only [edit, List.length_dropLast]; omega
  | enter => exact Nat.zero_le _
  | other => exact h

/-- The longer line is the shorter one, or one ahead of it while a refusal is pending. -/
structure Ahead (capacity : Nat) (long line : List α) (refused : Bool) : Prop where
  bounded : line.length ≤ capacity
  same : refused = false → long = line
  ahead : refused = true → long.length = line.length + 1

variable {capacity : Nat} {long line : List α} {refused : Bool}

theorem ahead_nil (capacity : Nat) : Ahead capacity ([] : List α) [] false where
  bounded := Nat.zero_le _
  same _ := rfl
  ahead h := by cases h

theorem Ahead.char (h : Ahead capacity long line refused) (a : α) :
    Ahead capacity (edit (capacity + 1) long (.char a)) (edit capacity line (.char a))
      (refuse capacity line refused (.char a)) := by
  refine ⟨length_edit_le h.bounded _, ?_, ?_⟩
  all_goals
    have hbounded := h.bounded
    cases refused
    · have hsame := h.same rfl
      grind [edit, refuse]
    · have hahead := h.ahead rfl
      grind [edit, refuse]

theorem Ahead.erase (h : Ahead capacity long line refused) :
    Ahead capacity (edit (capacity + 1) long .erase) (edit capacity line .erase)
      (refuse capacity line refused .erase) := by
  refine ⟨length_edit_le h.bounded _, ?_, ?_⟩
  all_goals
    cases refused
    · have hsame := h.same rfl
      grind [edit, refuse]
    · have hshort : long.dropLast.length = line.length := by simp [h.ahead rfl]
      have hempty := List.length_eq_zero_iff (l := line)
      grind [edit, refuse]

theorem Ahead.edit (h : Ahead capacity long line refused) (k : Key α) :
    Ahead capacity (edit (capacity + 1) long k) (edit capacity line k)
      (refuse capacity line refused k) := by
  cases k with
  | char a => exact h.char a
  | erase => exact h.erase
  | enter => exact ⟨Nat.zero_le _, fun _ => rfl, fun hrefused => by cases hrefused⟩
  | other => exact h

/-- The enter key finds the lines equal exactly when no refusal is pending. -/
theorem Ahead.eq_iff (h : Ahead capacity long line refused) : long = line ↔ refused = false := by
  refine ⟨fun heq => ?_, h.same⟩
  cases refused with
  | false => rfl
  | true =>
    have := h.ahead rfl
    rw [heq] at this
    omega

end LineEditor
