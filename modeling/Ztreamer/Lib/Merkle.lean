import Mathlib.Algebra.Group.Nat.Defs
import Mathlib.Data.List.DropRight
import Mathlib.Data.List.GetD

/-! # Merkle trees of a fixed depth

    A tree of depth `d` has `2 ^ d` leaves. A list of leaves fills it from the left,
    and a padding leaf stands for each leaf that is missing. When the nodes above two
    leaves do not collide, the root determines the leaves up to padding leaves at the
    end of the list.

    * `root`: the root of a tree,
    * `CollisionFree`: a node determines the two nodes below it,
    * `root_congr`, `getD_eq_of_root_eq`: the root says what leaf is in each place,
    * `trailing`: the padding leaves at the end of a list,
    * `eq_iff_trailing`: two lists with one root are equal when they end with equally many
      padding leaves.
-/

namespace Merkle

variable {ν : Type} (combine : Nat → ν → ν → ν) (pad : ν)

/-- The root of a tree with no leaves. `combine level` gives the node above two nodes of
    `level`. -/
def emptyRoot : Nat → ν
  | 0 => pad
  | depth + 1 =>
    let below := emptyRoot depth
    combine depth below below

/-- The root over the first `2 ^ depth` leaves. -/
def root : Nat → List ν → ν
  | depth, [] => emptyRoot combine pad depth
  | 0, leaf :: _ => leaf
  | depth + 1, leaf :: leaves =>
    combine depth (root depth ((leaf :: leaves).take (2 ^ depth)))
      (root depth ((leaf :: leaves).drop (2 ^ depth)))

theorem root_zero (leaves : List ν) : root combine pad 0 leaves = leaves.getD 0 pad := by
  cases leaves <;> rfl

theorem root_succ (depth : Nat) (leaves : List ν) :
    root combine pad (depth + 1) leaves = combine depth
      (root combine pad depth (leaves.take (2 ^ depth)))
      (root combine pad depth (leaves.drop (2 ^ depth))) := by
  cases leaves with
  | nil => simp only [List.take_nil, List.drop_nil, root, emptyRoot]
  | cons leaf leaves => rw [root]

/-- A node determines the two nodes below it. -/
def CollisionFree : Prop :=
  ∀ level a b a' b', combine level a b = combine level a' b' → a = a' ∧ b = b'

variable {combine pad}

variable {depth : Nat} {xs ys : List ν}

/-- Trees with one root have the same leaf in each place. -/
theorem getD_eq_of_root_eq (hfree : CollisionFree combine)
    (h : root combine pad depth xs = root combine pad depth ys) {i : Nat} (hi : i < 2 ^ depth) :
    xs.getD i pad = ys.getD i pad := by
  induction depth generalizing xs ys i with
  | zero =>
    obtain rfl : i = 0 := by simpa using hi
    rwa [root_zero, root_zero] at h
  | succ depth ih =>
    rw [root_succ, root_succ] at h
    obtain ⟨hleft, hright⟩ := hfree _ _ _ _ _ h
    rw [Nat.pow_succ] at hi
    by_cases hlt : i < 2 ^ depth
    · have hsame := ih hleft hlt
      simpa [List.getD_eq_getElem?_getD, List.getElem?_take, hlt] using hsame
    · have hsame := ih hright (i := i - 2 ^ depth) (by omega)
      have hpos : 2 ^ depth + (i - 2 ^ depth) = i := by omega
      simpa [List.getD_eq_getElem?_getD, hpos] using hsame

/-- Trees with the same leaf in each place have one root. -/
theorem root_congr (h : ∀ i < 2 ^ depth, xs.getD i pad = ys.getD i pad) :
    root combine pad depth xs = root combine pad depth ys := by
  induction depth generalizing xs ys with
  | zero =>
    rw [root_zero, root_zero]
    exact h 0 (by decide)
  | succ depth ih =>
    rw [root_succ, root_succ]
    congr 1
    · apply ih
      intro i hi
      have hsame := h i (by rw [Nat.pow_succ]; omega)
      simpa [List.getD_eq_getElem?_getD, List.getElem?_take, hi] using hsame
    · apply ih
      intro i hi
      have hsame := h (2 ^ depth + i) (by rw [Nat.pow_succ]; omega)
      simpa [List.getD_eq_getElem?_getD] using hsame

/-- Lists that do not end with a padding leaf and have the same leaves are equal. -/
theorem eq_of_getD_eq (hxs : ∀ h : xs ≠ [], xs.getLast h ≠ pad)
    (hys : ∀ h : ys ≠ [], ys.getLast h ≠ pad) (h : ∀ i, xs.getD i pad = ys.getD i pad) :
    xs = ys := by
  have hle : ∀ {as bs : List ν}, (∀ h : bs ≠ [], bs.getLast h ≠ pad) →
      (∀ i, as.getD i pad = bs.getD i pad) → bs.length ≤ as.length := by
    intro as bs hbs hsame
    by_contra hlt
    have hne : bs ≠ [] := by
      rintro rfl
      simp at hlt
    apply hbs hne
    rw [List.getLast_eq_getElem, ← List.getD_eq_getElem bs pad, ← hsame,
      List.getD_eq_default as pad (by omega)]
  have hlength : xs.length = ys.length :=
    Nat.le_antisymm (hle hxs fun i => (h i).symm) (hle hys h)
  apply List.ext_getElem hlength
  intro i hi hi'
  rw [← List.getD_eq_getElem xs pad, ← List.getD_eq_getElem ys pad, h]

section

variable [DecidableEq ν]

/-- The number of padding leaves at the end of the list. -/
def trailing (pad : ν) (leaves : List ν) : Nat := (leaves.rtakeWhile (· = pad)).length

/-- The leaves before the padding leaves at the end, and these. -/
theorem rdropWhile_append_replicate (pad : ν) (leaves : List ν) :
    leaves.rdropWhile (· = pad) ++ List.replicate (trailing pad leaves) pad = leaves := by
  have hpad : leaves.rtakeWhile (· = pad) = List.replicate (trailing pad leaves) pad := by
    rw [List.eq_replicate_iff]
    refine ⟨rfl, ?_⟩
    intro leaf hleaf
    simpa using List.mem_rtakeWhile_imp hleaf
  rw [← hpad, List.rdropWhile_append_rtakeWhile]

theorem getD_rdropWhile (leaves : List ν) (i : Nat) :
    (leaves.rdropWhile (· = pad)).getD i pad = leaves.getD i pad := by
  conv_rhs => rw [← rdropWhile_append_replicate pad leaves]
  by_cases hi : i < (leaves.rdropWhile (· = pad)).length
  · rw [List.getD_append _ _ _ _ hi]
  · rw [List.getD_eq_default _ _ (by omega), List.getD_append_right _ _ _ _ (by omega)]
    rw [List.getD_eq_getElem?_getD, List.getElem?_replicate]
    split <;> rfl

/-- Two lists with one root are equal exactly when they end with equally many padding
    leaves. -/
theorem eq_iff_trailing (hfree : CollisionFree combine) {depth : Nat} {xs ys : List ν}
    (h : root combine pad depth xs = root combine pad depth ys) (hxs : xs.length ≤ 2 ^ depth)
    (hys : ys.length ≤ 2 ^ depth) : xs = ys ↔ trailing pad xs = trailing pad ys := by
  constructor
  · rintro rfl
    rfl
  intro htrailing
  have hsame : ∀ i, xs.getD i pad = ys.getD i pad := by
    intro i
    by_cases hi : i < 2 ^ depth
    · exact getD_eq_of_root_eq hfree h hi
    · rw [List.getD_eq_default _ _ (by omega), List.getD_eq_default _ _ (by omega)]
  have hlast : ∀ (leaves : List ν) (hne : leaves.rdropWhile (· = pad) ≠ []),
      (leaves.rdropWhile (· = pad)).getLast hne ≠ pad := by
    intro leaves hne
    simpa using List.rdropWhile_last_not (· = pad) leaves hne
  have hdrop : xs.rdropWhile (· = pad) = ys.rdropWhile (· = pad) := by
    apply eq_of_getD_eq (hlast xs) (hlast ys)
    intro i
    rw [getD_rdropWhile, getD_rdropWhile, hsame]
  rw [← rdropWhile_append_replicate pad xs, hdrop, htrailing, rdropWhile_append_replicate]

end

end Merkle
