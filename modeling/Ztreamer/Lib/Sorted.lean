import Mathlib.Data.List.InsertIdx
import Mathlib.Data.List.Lex
import Mathlib.Order.Lattice
import Ztreamer.Lib.Bisect

/-! # Searches in a sorted list

    Two binary searches:

    * `partitionPoint`: the number of elements on which a test is true, where these
      come first,
    * `binarySearchByKey`: the place of a key, or where to insert it.

    In a sorted list the elements of an interval are next to each other, so the
    element at the partition point and the next one say whether an interval has only
    one element: `only_at_partitionPoint`. The lists with a given prefix are an interval
    (`startsWith_of_le_of_le`).
-/

namespace Sorted

variable {α β : Type}

/-- The first index on which `test` is false. -/
def partitionPoint (test : α → Bool) (l : List α) : Nat :=
  match (Bisect.firstFalse (fun i => .ok (l[i]?.any test)) 0 l.length : Except Empty Nat) with
  | .ok point => point
  | .error error => nomatch error

theorem partitionPoint_append {test : α → Bool} {before after : List α}
    (hbefore : ∀ a ∈ before, test a = true) (hafter : ∀ a ∈ after, test a = false) :
    partitionPoint test (before ++ after) = before.length := by
  have htest : ∀ i, 0 ≤ i → i < (before ++ after).length →
      (.ok ((before ++ after)[i]?.any test) : Except Empty Bool) =
        .ok (decide (i < before.length)) := by
    intro i _ hi
    rw [List.getElem?_eq_getElem hi, Option.any_some]
    by_cases hlt : i < before.length
    · rw [List.getElem_append_left hlt, hbefore _ (List.getElem_mem hlt), decide_eq_true hlt]
    · rw [List.getElem_append_right (Nat.not_lt.mp hlt), hafter _ (List.getElem_mem _),
        decide_eq_false hlt]
  rw [partitionPoint, Bisect.firstFalse_eq (Nat.zero_le _) (by simp) htest]

/-- The place of `key` in a list that is sorted by `f`, or the place to insert it. -/
def binarySearchByKey [LinearOrder β] (l : List α) (key : β) (f : α → β) : Except Nat Nat :=
  let point := partitionPoint (fun a => f a < key) l
  if (l[point]?.map f) = some key then .ok point else .error point

/-! ## Elements at the place that a search gives -/

theorem insertIdx_length_append (before after : List α) (a : α) :
    (before ++ after).insertIdx before.length a = before ++ a :: after := by
  induction before with
  | nil => simp
  | cons b before ih => simp [ih]

theorem modify_length_append (before after : List α) (a : α) (f : α → α) :
    (before ++ a :: after).modify before.length f = before ++ f a :: after := by
  induction before with
  | nil => simp
  | cons b before ih => simp [ih]

/-! ## Keys -/

section

variable [LinearOrder β] {f : α → β} {before after : List α} {key : β}

theorem partitionPoint_key {test : α → Bool} (htest : ∀ a, test a = true ↔ f a < key)
    (hbefore : ∀ a ∈ before, f a < key) (hafter : ∀ a ∈ after, key ≤ f a) :
    partitionPoint test (before ++ after) = before.length := by
  apply partitionPoint_append
  · intro a ha
    exact (htest a).mpr (hbefore a ha)
  · intro a ha
    rw [← Bool.not_eq_true, htest]
    exact not_lt.mpr (hafter a ha)

theorem binarySearchByKey_append (hbefore : ∀ a ∈ before, f a < key)
    (hafter : ∀ a ∈ after, key ≤ f a) :
    binarySearchByKey (before ++ after) key f =
      if after.head?.map f = some key then .ok before.length else .error before.length := by
  dsimp only [binarySearchByKey]
  rw [partitionPoint_key (fun a => decide_eq_true_iff) hbefore hafter,
    List.getElem?_append_right (Nat.le_refl _), Nat.sub_self, List.head?_eq_getElem?]

/-- A sorted list is its elements below `key` and those that are not. -/
theorem exists_append {l : List α} (hsorted : l.Pairwise (f · < f ·)) (key : β) :
    ∃ before after, l = before ++ after ∧ (∀ a ∈ before, f a < key) ∧ ∀ a ∈ after, key ≤ f a := by
  induction l with
  | nil => exact ⟨[], [], rfl, nofun, nofun⟩
  | cons a l ih =>
    obtain ⟨hlt, hsorted⟩ := List.pairwise_cons.mp hsorted
    by_cases ha : f a < key
    · obtain ⟨before, after, rfl, hbefore, hafter⟩ := ih hsorted
      exact ⟨a :: before, after, rfl, List.forall_mem_cons.mpr ⟨ha, hbefore⟩, hafter⟩
    · refine ⟨[], a :: l, rfl, nofun, List.forall_mem_cons.mpr ⟨not_lt.mp ha, ?_⟩⟩
      intro b hb
      exact (not_lt.mp ha).trans (hlt b hb).le

/-- `P` is true on an interval that starts at `key`. The element at the partition point is the
    only one with `P` if and only if it has `P` and the next one does not. -/
theorem only_at_partitionPoint {l : List α} (hsorted : l.Pairwise (f · < f ·)) {test : α → Bool}
    (htest : ∀ a, test a = true ↔ f a < key) {P : β → Prop} (hstart : ∀ b, P b → key ≤ b)
    (hconvex : ∀ b c, key ≤ b → b ≤ c → P c → P b) {a : α} :
    (l[partitionPoint test l]? = some a ∧ P (f a) ∧
      ¬ ∃ next ∈ l[partitionPoint test l + 1]?, P (f next)) ↔
      a ∈ l ∧ P (f a) ∧ ∀ other ∈ l, P (f other) → other = a := by
  obtain ⟨before, after, rfl, hbefore, hafter⟩ := exists_append hsorted key
  have hno : ∀ b ∈ before, ¬ P (f b) := fun b hb hP =>
    absurd (hstart _ hP) (not_le.mpr (hbefore b hb))
  rw [partitionPoint_key htest hbefore hafter, List.getElem?_append_right (Nat.le_refl _),
    List.getElem?_append_right (Nat.le_add_right _ 1), Nat.sub_self, Nat.add_sub_cancel_left]
  obtain ⟨-, hsorted, -⟩ := List.pairwise_append.mp hsorted
  cases after with
  | nil =>
    constructor
    · rintro ⟨h, -⟩
      cases h
    · rintro ⟨ha, hP, -⟩
      rw [List.append_nil] at ha
      exact absurd hP (hno a ha)
  | cons first rest =>
    obtain ⟨hfirst, hrest⟩ := List.pairwise_cons.mp hsorted
    rw [List.getElem?_cons_zero, List.getElem?_cons_succ, ← List.head?_eq_getElem?]
    constructor
    · rintro ⟨hget, hP, hnext⟩
      obtain rfl := Option.some.inj hget
      refine ⟨by simp, hP, ?_⟩
      intro other hother hPother
      rcases List.mem_append.mp hother with hother | hother
      · exact absurd hPother (hno other hother)
      rcases List.mem_cons.mp hother with rfl | hother
      · rfl
      -- an element after the next one has `P` only if the next one has it
      cases rest with
      | nil => cases hother
      | cons next rest =>
        refine absurd ⟨next, rfl, hconvex _ _ (hafter next (by simp)) ?_ hPother⟩ hnext
        rcases List.mem_cons.mp hother with rfl | hother
        · exact le_rfl
        · exact ((List.pairwise_cons.mp hrest).1 other hother).le
    · rintro ⟨ha, hP, honly⟩
      have hmem : a ∈ first :: rest := by
        rcases List.mem_append.mp ha with ha | ha
        · exact absurd hP (hno a ha)
        · exact ha
      have hle : f first ≤ f a := by
        rcases List.mem_cons.mp hmem with rfl | hmem
        · exact le_rfl
        · exact (hfirst a hmem).le
      obtain rfl := honly first (by simp)
        (hconvex _ _ (hafter first List.mem_cons_self) hle hP)
      refine ⟨rfl, hP, ?_⟩
      rintro ⟨next, hnext, hPnext⟩
      have hmemNext := List.mem_of_mem_head? hnext
      have hlt := hfirst next hmemNext
      rw [honly next (by simp [hmemNext]) hPnext] at hlt
      exact absurd hlt (lt_irrefl _)

end

/-! ## Lists in lexicographic order -/

section

variable [LinearOrder β]

theorem cons_le_cons_iff {x y : β} {l m : List β} :
    x :: l ≤ y :: m ↔ x < y ∨ x = y ∧ l ≤ m := by
  rw [le_iff_lt_or_eq, List.cons_lt_cons_iff, le_iff_lt_or_eq, List.cons.injEq]
  tauto

theorem le_of_startsWith {pre b : List β} (h : pre <+: b) : pre ≤ b := not_lt.mp h.le

/-- The lists that start with `pre` are an interval. -/
theorem startsWith_of_le_of_le {pre b c : List β} (hle : pre ≤ b) (hle' : b ≤ c) (hc : pre <+: c) :
    pre <+: b := by
  induction pre generalizing b c with
  | nil => exact ⟨b, rfl⟩
  | cons x pre ih =>
    obtain ⟨rest, rfl⟩ := hc
    cases b with
    | nil => exact absurd hle (not_le.mpr List.Lex.nil)
    | cons y b =>
      rw [List.cons_append] at hle'
      rcases cons_le_cons_iff.mp hle with hlt | ⟨rfl, hrest⟩
      · rcases cons_le_cons_iff.mp hle' with hlt' | ⟨rfl, -⟩
        · exact absurd hlt (lt_asymm hlt')
        · exact absurd hlt (lt_irrefl _)
      · rcases cons_le_cons_iff.mp hle' with hlt' | ⟨-, hlast⟩
        · exact absurd hlt' (lt_irrefl _)
        · obtain ⟨rest', hrest'⟩ := ih hrest hlast ⟨rest, rfl⟩
          exact ⟨rest', by rw [List.cons_append, hrest']⟩

end

end Sorted
