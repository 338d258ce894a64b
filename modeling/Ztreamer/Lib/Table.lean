import Mathlib.Data.List.Basic
import Mathlib.Tactic.Common

/-! # Ordered key-value tables

    A table is an extensional ordered map: two tables with the same rows are
    equal. The lemmas say what a lookup sees after a put, a delete, and a list
    of puts or deletes.
-/

/-- A table with keys `κ`, in their order, and values `β`. -/
abbrev Table (κ β : Type) [Ord κ] : Type := Std.ExtTreeMap κ β

namespace Table

variable {κ β : Type} [Ord κ] [Std.TransOrd κ] [Std.LawfulEqOrd κ]

theorem ext_rows {t t' : Table κ β} (h : ∀ k : κ, t[k]? = t'[k]?) : t = t' :=
  Std.ExtTreeMap.ext_getElem? h

theorem eq_empty {t : Table κ β} (h : ∀ (k : κ) (v : β), t[k]? ≠ some v) : t = ∅ := by
  apply ext_rows
  intro k
  rw [Std.ExtTreeMap.getElem?_empty]
  exact Option.eq_none_iff_forall_ne_some.mpr (h k)

omit [Std.LawfulEqOrd κ] in
theorem get_eq_none {t : Table κ β} {k : κ} {P : Prop} (hkey : ∀ v, t[k]? = some v → P)
    (hnot : ¬ P) : t[k]? = none := by
  rw [Option.eq_none_iff_forall_ne_some]
  intro v hv
  exact hnot (hkey v hv)

section

variable [DecidableEq κ]

theorem get_put (t : Table κ β) (k : κ) (v : β) (k' : κ) :
    (t.insert k v)[k']? = if k = k' then some v else t[k']? := by
  rw [Std.ExtTreeMap.getElem?_insert]
  simp only [Std.compare_eq_iff_eq]

theorem get_delete (t : Table κ β) (k k' : κ) :
    (t.erase k)[k']? = if k = k' then none else t[k']? := by
  rw [Std.ExtTreeMap.getElem?_erase]
  simp only [Std.compare_eq_iff_eq]

/-- Deletes the rows of `keys`. A key without a row is skipped. -/
def deleteAll (t : Table κ β) (keys : List κ) : Table κ β := keys.foldl (·.erase ·) t

/-- Puts the rows in order. -/
def putAll (t : Table κ β) (rows : List (κ × β)) : Table κ β :=
  rows.foldl (fun t row => t.insert row.1 row.2) t

theorem get_deleteAll (t : Table κ β) (keys : List κ) (k : κ) :
    (deleteAll t keys)[k]? = if k ∈ keys then none else t[k]? := by
  induction keys generalizing t with
  | nil => simp [deleteAll]
  | cons k' keys ih =>
    rw [deleteAll, List.foldl_cons, ← deleteAll, ih, get_delete]
    by_cases hk : k ∈ keys
    · simp [hk]
    · by_cases heq : k' = k
      · simp [heq]
      · simp [hk, heq, Ne.symm heq]

/-- After rows that agree on their keys are put, a lookup sees them, and the old
    row of any other key. -/
theorem get_putAll_eq_some {t : Table κ β} {rows : List (κ × β)} {k : κ}
    (hrows : ∀ v v', (k, v) ∈ rows → (k, v') ∈ rows → v = v') {v : β} :
    (putAll t rows)[k]? = some v ↔ (k, v) ∈ rows ∨ (∀ v', (k, v') ∉ rows) ∧ t[k]? = some v := by
  induction rows generalizing t with
  | nil => simp [putAll]
  | cons row rows ih =>
    obtain ⟨k₀, v₀⟩ := row
    rw [putAll, List.foldl_cons, ← putAll,
      ih fun v v' h h' => hrows v v' (List.mem_cons_of_mem _ h) (List.mem_cons_of_mem _ h'),
      get_put]
    by_cases hk : k₀ = k
    · subst hk
      have hv₀ : ∀ v', (k₀, v') ∈ rows → v' = v₀ := fun v' h =>
        hrows v' v₀ (List.mem_cons_of_mem _ h) List.mem_cons_self
      simp only [if_true, List.mem_cons, Prod.mk.injEq, true_and, Option.some.injEq, not_or]
      constructor
      · rintro (h | ⟨-, h⟩)
        · exact .inl (.inr h)
        · exact .inl (.inl h.symm)
      · rintro ((rfl | h) | ⟨h, -⟩)
        · by_cases hmem : (k₀, v) ∈ rows
          · exact .inl hmem
          · exact .inr ⟨fun v' h => hmem (hv₀ v' h ▸ h), rfl⟩
        · exact .inl h
        · exact absurd rfl (h v₀).1
    · simp [hk, Ne.symm hk]

end

/-- Keeps the rows whose key satisfies `p`. -/
theorem get_filter_key (t : Table κ β) (p : κ → Bool) (k : κ) :
    (t.filter fun k _ => p k)[k]? = if p k then t[k]? else none := by
  rw [Std.ExtTreeMap.getElem?_filter']
  cases hp : p k <;> cases t[k]? <;> simp

/-! ## The rows in the order of their keys -/

theorem size_eq {t : Table κ β} {keys : List κ} (hnodup : keys.Nodup)
    (hkeys : ∀ k, k ∈ keys ↔ ∃ v, t[k]? = some v) : t.size = keys.length := by
  rw [← Std.ExtTreeMap.length_keys]
  refine List.Perm.length_eq ((List.perm_ext_iff_of_nodup Std.ExtTreeMap.nodup_keys hnodup).mpr ?_)
  intro k
  rw [Std.ExtTreeMap.mem_keys, hkeys, Std.ExtTreeMap.mem_iff_isSome_getElem?,
    Option.isSome_iff_exists]

omit [Std.LawfulEqOrd κ] in
theorem key_of_row {t : Table κ β} {i : Nat} {row : κ × β} (h : t.toList[i]? = some row) :
    t.keys[i]? = some row.1 := by
  rw [← Std.ExtTreeMap.map_fst_toList_eq_keys, List.getElem?_map, h]
  rfl

theorem keys_eq {t : Table Nat β} {keys : List Nat} (hsorted : keys.Pairwise (· < ·))
    (hkeys : ∀ k, k ∈ keys ↔ ∃ v, t[k]? = some v) : t.keys = keys := by
  have hordered : t.keys.Pairwise (· < ·) := by
    refine Std.ExtTreeMap.ordered_keys.imp ?_
    intro a b hab
    exact Nat.compare_eq_lt.mp hab
  refine List.Perm.eq_of_pairwise (fun a b _ _ hab hba => absurd hab (Nat.lt_asymm hba)) hordered
    hsorted ((List.perm_ext_iff_of_nodup Std.ExtTreeMap.nodup_keys
      (hsorted.imp fun h => Nat.ne_of_lt h)).mpr ?_)
  intro k
  rw [Std.ExtTreeMap.mem_keys, hkeys, Std.ExtTreeMap.mem_iff_isSome_getElem?,
    Option.isSome_iff_exists]

end Table
