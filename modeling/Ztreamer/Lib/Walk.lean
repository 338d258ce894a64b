import Mathlib.Data.List.Basic
import Mathlib.Tactic.Common

/-! # Walks between two numbers

    The numbers from one to another, both included, upwards or downwards. A walk
    can be cut at any number between its ends.

    * `walk`: the numbers, in order,
    * `walk_append`: the cut at a number `Before` the end.
-/

namespace Walk

/-- The number after `i` steps from `a`, up or down. -/
def toward (up : Bool) (a i : Nat) : Nat := if up then a + i else a - i

/-- The difference of two numbers. -/
def absDiff (a b : Nat) : Nat := max a b - min a b

variable {a b c : Nat} {up : Bool}

theorem absDiff_of_le (h : a ≤ b) : absDiff a b = b - a := by
  rw [absDiff, Nat.max_eq_right h, Nat.min_eq_left h]

theorem absDiff_of_ge (h : b ≤ a) : absDiff a b = a - b := by
  rw [absDiff, Nat.max_eq_left h, Nat.min_eq_right h]

/-- The numbers from `a` to `b`. -/
def walk (a b : Nat) : List Nat :=
  (List.range (absDiff a b + 1)).map (toward (decide (a ≤ b)) a)

theorem toward_zero (up : Bool) (a : Nat) : toward up a 0 = a := by
  unfold toward
  split <;> rfl

@[simp]
theorem length_walk (a b : Nat) : (walk a b).length = absDiff a b + 1 := by
  simp [walk]

theorem walk_self (a : Nat) : walk a a = [a] := by
  simp [walk, absDiff, toward]

theorem walk_cons (a b : Nat) : walk a b = a :: (walk a b).tail := by
  rw [walk, List.range_succ_eq_map, List.map_cons, List.tail_cons, toward_zero]

theorem walk_getElem? {i : Nat} (hi : i ≤ absDiff a b) :
    (walk a b)[i]? = some (toward (decide (a ≤ b)) a i) := by
  rw [walk, List.getElem?_map, List.getElem?_range (by omega)]
  rfl

theorem walk_of_direction (h : if up then a ≤ b else b ≤ a) :
    walk a b = (List.range (absDiff a b + 1)).map (toward up a) := by
  refine List.map_congr_left ?_
  intro i hi
  have hle := List.mem_range.mp hi
  unfold absDiff at hle
  cases up <;> simp only [Bool.false_eq_true, if_false, if_true] at h <;>
    simp only [toward, decide_eq_true_eq, Bool.false_eq_true, if_false, if_true]
  · split <;> omega
  · rw [if_pos h]

theorem mem_walk {n : Nat} : n ∈ walk a b ↔ min a b ≤ n ∧ n ≤ max a b := by
  simp only [walk, List.mem_map, List.mem_range, toward, absDiff, decide_eq_true_eq]
  constructor
  · intro hand
    obtain ⟨i, hi, rfl⟩ := hand
    split <;> omega
  · intro hand
    refine ⟨absDiff a n, ?_, ?_⟩
    · unfold absDiff
      omega
    · unfold absDiff
      split <;> omega

/-- `c` stands on the walk from `a` to `b`, before its end. -/
def Before (a c b : Nat) : Prop := a ≤ c ∧ c < b ∨ b < c ∧ c ≤ a

theorem absDiff_lt (h : Before a c b) : absDiff (toward (decide (a ≤ b)) c 1) b < absDiff a b := by
  unfold Before at h
  simp only [toward, absDiff, decide_eq_true_eq]
  split <;> omega

theorem Before.refl (h : a ≠ b) : Before a a b := by
  unfold Before
  omega

/-- A walk is cut after a number before its end. -/
theorem walk_append (h : Before a c b) :
    walk a b = walk a c ++ walk (toward (decide (a ≤ b)) c 1) b := by
  unfold Before at h
  apply List.ext_getElem
  · simp only [List.length_append, length_walk, toward, absDiff, decide_eq_true_eq]
    split <;> omega
  · intro i hleft hright
    rw [length_walk] at hleft
    simp only [walk, List.getElem_append, List.getElem_map, List.getElem_range, List.length_map,
      List.length_range, toward, absDiff, decide_eq_true_eq] at hleft ⊢
    -- the direction of each part is that of the walk, unless the part is one number
    split_ifs <;> omega

/-- After `k` steps of a walk from `a` to `b`, the steps to a number `c` on the rest of
    it end the walk, or lead to the number after `c`. -/
theorem toward_add {k : Nat} (hk : k ≤ absDiff a b)
    (hdirection : if decide (a ≤ b) then toward (decide (a ≤ b)) a k ≤ c
      else c ≤ toward (decide (a ≤ b)) a k)
    (hend : c = b ∨ Before (toward (decide (a ≤ b)) a k) c b) :
    (c = b → k + (absDiff (toward (decide (a ≤ b)) a k) c + 1) = absDiff a b + 1) ∧
      (c ≠ b → k + (absDiff (toward (decide (a ≤ b)) a k) c + 1) ≤ absDiff a b ∧
        toward (decide (a ≤ b)) a (k + (absDiff (toward (decide (a ≤ b)) a k) c + 1)) =
          toward (decide (a ≤ b)) c 1) := by
  unfold Before at hend
  by_cases hab : a ≤ b
  · simp only [toward, hab, decide_true, if_true] at hdirection hend ⊢
    rw [absDiff_of_le hab] at hk
    rw [absDiff_of_le hab, absDiff_of_le hdirection]
    refine ⟨?_, ?_⟩ <;> intro _ <;> omega
  · simp only [toward, hab, decide_false, Bool.false_eq_true, if_false] at hdirection hend ⊢
    have hba : b ≤ a := by omega
    rw [absDiff_of_ge hba] at hk
    rw [absDiff_of_ge hba, absDiff_of_ge hdirection]
    refine ⟨?_, ?_⟩ <;> intro _ <;> omega

end Walk
