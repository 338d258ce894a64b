import Ztreamer.Lib.Result

/-! # Bisection

    Two searches for the place where a test changes from true to false, each
    with a test that can fail:

    * `firstFalse`: the first index of an interval on which the test is false,
    * `lastTrue`: the last index on which it is true, given one such index.

    Both find the place when there is only one. `firstFalseAt` is the first search
    with a test that can change between two calls.
-/

namespace Bisect

open Result

variable {ε : Type}

/-- The first index of `lo..hi` on which `test` is false, or `hi`. The answer of the test
    can depend on the number of calls before it. Gives the index, and the number of calls
    after the search. -/
def firstFalseAt (test : Nat → Nat → Except ε Bool) (lo hi time : Nat) : Except ε (Nat × Nat) :=
  if lo < hi then do
    let middle := lo + (hi - lo) / 2
    if ← test time middle then firstFalseAt test (middle + 1) hi (time + 1)
    else firstFalseAt test lo middle (time + 1)
  else return (lo, time)
termination_by hi - lo

/-- The search with a test that does not change. -/
def firstFalse (test : Nat → Except ε Bool) (lo hi : Nat) : Except ε Nat :=
  (·.1) <$> firstFalseAt (fun _ => test) lo hi 0

/-- The last index of `known..hi` on which `test` is true, or `known`. -/
def lastTrue (test : Nat → Except ε Bool) (known hi : Nat) : Except ε Nat :=
  if known + 1 < hi then do
    let middle := known + (hi - known) / 2
    if ← test middle then lastTrue test middle hi else lastTrue test known middle
  else return known
termination_by hi - known

variable {test : Nat → Except ε Bool} {hi n : Nat}

theorem firstFalseAt_eq {lo time : Nat} (hlo : lo ≤ n) (hhi : n ≤ hi)
    (htest : ∀ i, lo ≤ i → i < hi → test i = .ok (decide (i < n))) :
    ∃ time', firstFalseAt (fun _ => test) lo hi time = .ok (n, time') := by
  fun_induction firstFalseAt (fun _ => test) lo hi time with
  | case1 lo hi time hlt middle ihtrue ihfalse =>
    rw [htest middle (by omega) (by omega), ok_bind]
    by_cases hm : middle < n
    · simp only [hm, decide_true, if_true]
      exact ihtrue (by omega) hhi fun i hi hlt => htest i (by omega) hlt
    · simp only [hm, decide_false, Bool.false_eq_true, if_false]
      exact ihfalse hlo (by omega) fun i hi hlt => htest i hi (by omega)
  | case2 lo hi time hge =>
    rw [show lo = n by omega]
    exact ⟨time, rfl⟩

theorem firstFalse_eq {lo : Nat} (hlo : lo ≤ n) (hhi : n ≤ hi)
    (htest : ∀ i, lo ≤ i → i < hi → test i = .ok (decide (i < n))) :
    firstFalse test lo hi = .ok n := by
  obtain ⟨_, hfound⟩ := @firstFalseAt_eq ε test hi n lo 0 hlo hhi htest
  rw [firstFalse, hfound]
  rfl

/-- The search fails only as its test does. -/
theorem not_errs_lastTrue {P : ε → Prop} (htest : ∀ i, ¬ Errs P (test i)) (known hi : Nat) :
    ¬ Errs P (lastTrue test known hi) := by
  fun_induction lastTrue test known hi with
  | case1 known hi hlt middle ihtrue ihfalse =>
    rw [errs_bind]
    intro herrs
    rcases herrs with herrs | ⟨found, -, herrs⟩
    · exact htest middle herrs
    · cases found
      · exact ihfalse herrs
      · exact ihtrue herrs
  | case2 => exact errs_ok

theorem lastTrue_eq {known : Nat} (hlo : known ≤ n) (hhi : n < hi)
    (htest : ∀ i, known < i → i < hi → test i = .ok (decide (i ≤ n))) :
    lastTrue test known hi = .ok n := by
  fun_induction lastTrue test known hi with
  | case1 known hi hlt middle ihtrue ihfalse =>
    rw [htest middle (by omega) (by omega), ok_bind]
    by_cases hm : middle ≤ n
    · simp only [hm, decide_true, if_true]
      exact ihtrue (by omega) hhi fun i hi hlt => htest i (by omega) hlt
    · simp only [hm, decide_false, Bool.false_eq_true, if_false]
      exact ihfalse hlo (by omega) fun i hi hlt => htest i hi (by omega)
  | case2 known hi hge =>
    rw [show known = n by omega]
    rfl

/-- Whatever the answers are, the index is in the interval. -/
theorem firstFalseAt_le {test : Nat → Nat → Except ε Bool} {lo time time' : Nat} (hle : lo ≤ hi)
    (h : firstFalseAt test lo hi time = .ok (n, time')) : n ≤ hi ∧ time ≤ time' := by
  fun_induction firstFalseAt test lo hi time with
  | case1 lo hi time hlt middle ihtrue ihfalse =>
    obtain ⟨found, -, h⟩ := bind_eq_ok.mp h
    cases found with
    | true =>
      have := ihtrue (by omega) h
      omega
    | false =>
      have := ihfalse (by omega) h
      omega
  | case2 lo hi time hge =>
    cases h
    omega

end Bisect
