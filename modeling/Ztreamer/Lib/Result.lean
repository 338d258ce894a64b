import Mathlib.Data.List.Forall2
import Mathlib.Tactic.Common

/-! # Fallible computations

    Rules for programs in `Except`: how a successful bind, traversal or fold
    decomposes into the successes of its parts. A proof about a fallible
    program peels it apart with these and never unfolds the monad.
-/

namespace Result

universe u v

variable {ε : Type u} {α β : Type v}

/-- The value of an option, or the error `e`. -/
def okOr (o : Option α) (e : ε) : Except ε α :=
  match o with
  | some a => .ok a
  | none => .error e

/-- Refuses with `e` unless `p` holds. -/
def ensure (p : Prop) [Decidable p] (e : ε) : Except ε Unit :=
  if p then .ok () else .error e

@[simp] theorem okOr_some (a : α) (e : ε) : okOr (some a) e = .ok a := rfl

@[simp] theorem okOr_none (e : ε) : okOr (none : Option α) e = .error e := rfl

variable {e : ε} {a : α} {p : Prop} {x : Except ε α} {b : β} {P : ε → Prop} {l : List α}
  {r : List β}

@[simp] theorem okOr_eq_ok {o : Option α} : okOr o e = .ok a ↔ o = some a := by
  cases o <;> simp [okOr]

@[simp] theorem ensure_eq_ok [Decidable p] {u : Unit} : ensure p e = .ok u ↔ p := by
  unfold ensure
  split <;> simp_all

theorem ensure_of [Decidable p] (e : ε) (h : p) : ensure p e = .ok () := by
  simp [ensure, h]

theorem ensure_of_not [Decidable p] (e : ε) (h : ¬ p) : ensure p e = .error e := by
  simp [ensure, h]

@[simp] theorem ok_bind (a : α) (f : α → Except ε β) : (Except.ok a >>= f) = f a := rfl

@[simp] theorem error_bind (e : ε) (f : α → Except ε β) :
    ((Except.error e : Except ε α) >>= f) = .error e := rfl

@[simp] theorem pure_eq_ok (a : α) : (pure a : Except ε α) = .ok a := rfl

/-- A bind succeeds exactly when both of its parts do. -/
theorem bind_eq_ok {f : α → Except ε β} : (x >>= f) = .ok b ↔ ∃ a, x = .ok a ∧ f a = .ok b := by
  cases x <;> simp

@[simp] theorem map_eq_ok {f : α → β} : (f <$> x) = .ok b ↔ ∃ a, x = .ok a ∧ f a = b := by
  cases x <;> simp [Functor.map, Except.map]

theorem map_eq_error {f : α → β} {e : ε} : (f <$> x) = .error e ↔ x = .error e := by
  cases x <;> simp [Functor.map, Except.map]

/-- Replaces the error of a failure. -/
def okMapError {ε' : Type u} (x : Except ε α) (f : ε → ε') : Except ε' α :=
  match x with
  | .ok a => .ok a
  | .error e => .error (f e)

@[simp] theorem okMapError_ok {ε' : Type u} (a : α) (f : ε → ε') :
    okMapError (.ok a) f = .ok a := rfl

@[simp] theorem okMapError_error {ε' : Type u} (e : ε) (f : ε → ε') :
    okMapError (.error e : Except ε α) f = .error (f e) := rfl

@[simp] theorem okMapError_eq_ok {ε' : Type u} {f : ε → ε'} :
    okMapError x f = .ok a ↔ x = .ok a := by
  cases x <;> simp

/-! ## Failures -/

/-- The computation fails, with an error of `P`. -/
def Errs (P : ε → Prop) (x : Except ε α) : Prop := ∃ e, x = .error e ∧ P e

@[simp] theorem errs_error : Errs P (.error e : Except ε α) ↔ P e := by
  simp [Errs]

@[simp] theorem errs_ok : ¬ Errs P (.ok a : Except ε α) := by
  simp [Errs]

/-- A bind fails in one of its parts. -/
theorem errs_bind {f : α → Except ε β} :
    Errs P (x >>= f) ↔ Errs P x ∨ ∃ a, x = .ok a ∧ Errs P (f a) := by
  cases x <;> simp

@[simp] theorem errs_ensure [Decidable p] : Errs P (ensure p e) ↔ ¬ p ∧ P e := by
  unfold ensure
  split <;> simp_all

@[simp] theorem errs_okOr {o : Option α} : Errs P (okOr o e) ↔ o = none ∧ P e := by
  cases o <;> simp

@[simp] theorem errs_okMapError {ε' : Type u} {P : ε' → Prop} {f : ε → ε'} :
    Errs P (okMapError x f) ↔ Errs (fun e => P (f e)) x := by
  cases x <;> simp

@[simp] theorem errs_false : ¬ Errs (fun _ => False) x := by
  simp [Errs]

/-! ## Traversals -/

theorem mapM_eq_ok {f : α → Except ε β} :
    l.mapM f = .ok r ↔ List.Forall₂ (fun a b => f a = .ok b) l r := by
  induction l generalizing r with
  | nil => cases r <;> simp
  | cons a l ih =>
    rw [List.mapM_cons, bind_eq_ok]
    constructor
    · rintro ⟨b, hb, h⟩
      obtain ⟨bs, hbs, h⟩ := bind_eq_ok.mp h
      cases h
      exact .cons hb (ih.mp hbs)
    · intro h
      cases h with
      | cons hb hbs => exact ⟨_, hb, bind_eq_ok.mpr ⟨_, ih.mpr hbs, rfl⟩⟩

theorem mapM_eq_some {f : α → Option β} :
    l.mapM f = some r ↔ List.Forall₂ (fun a b => f a = some b) l r := by
  induction l generalizing r with
  | nil =>
    rw [List.forall₂_nil_left_iff]
    exact ⟨fun h => (Option.some.inj h).symm, fun h => h ▸ rfl⟩
  | cons a l ih =>
    rw [List.mapM_cons, List.forall₂_cons_left_iff]
    simp only [Option.bind_eq_bind, Option.bind_eq_some_iff, Option.pure_def, Option.some.injEq, ih]
    constructor
    · rintro ⟨b, hb, rest, hrest, rfl⟩
      exact ⟨b, rest, hb, hrest, rfl⟩
    · rintro ⟨b, rest, hb, hrest, rfl⟩
      exact ⟨b, hb, rest, hrest, rfl⟩

theorem mapM_congr {f g : α → Except ε β} (h : ∀ a ∈ l, f a = g a) : l.mapM f = l.mapM g := by
  induction l with
  | nil => rfl
  | cons a l ih =>
    rw [List.mapM_cons, List.mapM_cons, h a List.mem_cons_self,
      ih fun b hb => h b (List.mem_cons_of_mem a hb)]

/-- The error of a traversal is replaced at the step that fails. -/
theorem okMapError_mapM {ε' : Type u} (f : α → Except ε β) (g : ε → ε') (l : List α) :
    okMapError (l.mapM f) g = l.mapM fun a => okMapError (f a) g := by
  induction l with
  | nil => rfl
  | cons a l ih =>
    rw [List.mapM_cons, List.mapM_cons, ← ih]
    cases f a with
    | error e => rfl
    | ok b => cases l.mapM f <;> rfl

theorem mapM_snoc {f : α → Except ε β} (hl : l.mapM f = .ok r) (ha : f a = .ok b) :
    (l ++ [a]).mapM f = .ok (r ++ [b]) := by
  rw [List.mapM_append, hl, ok_bind, List.mapM_cons, ha]
  rfl

theorem forall₂_getElem? {R : α → β → Prop} (h : List.Forall₂ R l r) {i : Nat} (hi : l[i]? = some a)
    : ∃ b, r[i]? = some b ∧ R a b := by
  induction h generalizing i with
  | nil => simp at hi
  | cons hab _ ih =>
    cases i with
    | zero => cases hi; exact ⟨_, rfl, hab⟩
    | succ i => exact ih (by simpa using hi)

/-- A list has related elements when each of its elements has one. -/
theorem exists_forall₂ {R : α → β → Prop} {l : List α} (h : ∀ a ∈ l, ∃ b, R a b) :
    ∃ r, List.Forall₂ R l r := by
  induction l with
  | nil => exact ⟨[], .nil⟩
  | cons a l ih =>
    obtain ⟨b, hb⟩ := h a List.mem_cons_self
    obtain ⟨r, hr⟩ := ih fun a' ha' => h a' (List.mem_cons_of_mem a ha')
    exact ⟨b :: r, .cons hb hr⟩

/-- A traversal whose every step succeeds is a map. -/
theorem mapM_eq_ok_map {f : α → Except ε β} {g : α → β} (h : ∀ a ∈ l, f a = .ok (g a)) :
    l.mapM f = .ok (l.map g) := by
  rw [mapM_eq_ok, List.forall₂_map_right_iff, List.forall₂_same]
  exact h

theorem mapM_ok {f : α → Except ε β} (h : ∀ a ∈ l, ∃ b, f a = .ok b) : ∃ r, l.mapM f = .ok r := by
  induction l with
  | nil => exact ⟨[], rfl⟩
  | cons a l ih =>
    obtain ⟨b, hb⟩ := h a List.mem_cons_self
    obtain ⟨r, hr⟩ := ih fun a' ha' => h a' (List.mem_cons_of_mem a ha')
    exact ⟨b :: r, by rw [List.mapM_cons, hb, ok_bind, hr]; rfl⟩

/-- A traversal of consecutive numbers that gives the elements of a list. -/
theorem mapM_range'_eq_ok {γ : Type} {ε : Type} {f : Nat → Except ε γ} {l : List γ} {start : Nat}
    (h : ∀ i a, l[i]? = some a → f (start + i) = .ok a) :
    (List.range' start l.length).mapM f = .ok l := by
  induction l generalizing start with
  | nil => rfl
  | cons a l ih =>
    have htail := @ih (start + 1) fun i b hi => by
      have := h (i + 1) b (by simpa using hi)
      rwa [Nat.add_comm i 1, ← Nat.add_assoc] at this
    have hhead : f start = .ok a := h 0 a rfl
    rw [List.length_cons, List.range'_succ, List.mapM_cons, hhead, ok_bind, htail]
    rfl

/-- A traversal that undoes `g` pointwise undoes a map of `g`. -/
theorem mapM_map_of_left_inverse {f : β → Except ε α} {g : α → β}
    (h : ∀ a, f (g a) = .ok a) (l : List α) : (l.map g).mapM f = .ok l := by
  rw [List.mapM_map]
  exact (mapM_eq_ok_map (g := id) fun a _ => h a).trans (by rw [List.map_id])

/-! ## Results in a row -/

/-- The results up to the first failure, which is the last one. -/
def untilError : List (Except ε α) → List (Except ε α)
  | [] => []
  | .ok a :: results => .ok a :: untilError results
  | .error e :: _ => [.error e]

/-- The results of a traversal that succeeds come before the others. -/
theorem untilError_append {f : α → Except ε β} (h : l.mapM f = .ok r) (l' : List α) :
    untilError ((l ++ l').map f) = r.map .ok ++ untilError (l'.map f) := by
  induction l generalizing r with
  | nil =>
    cases h
    rfl
  | cons a l ih =>
    rw [List.mapM_cons, bind_eq_ok] at h
    obtain ⟨b, hb, h⟩ := h
    obtain ⟨bs, hbs, h⟩ := bind_eq_ok.mp h
    cases h
    rw [List.cons_append, List.map_cons, hb, untilError, ih hbs]
    rfl

/-! ## Folds -/

/-- A property kept by every successful step of a fold holds at its end. -/
theorem foldlM_invariant (P : β → Prop) {f : β → α → Except ε β} {b' : β}
    (hstep : ∀ b a b', a ∈ l → P b → f b a = .ok b' → P b') (hb : P b) (h : l.foldlM f b = .ok b') :
    P b' := by
  induction l generalizing b with
  | nil => cases h; exact hb
  | cons a l ih =>
    rw [List.foldlM_cons] at h
    obtain ⟨b₁, h₁, h⟩ := bind_eq_ok.mp h
    exact ih (fun b x b' hx => hstep b x b' (List.mem_cons_of_mem a hx))
      (hstep b a b₁ List.mem_cons_self hb h₁) h

/-- A fold whose every step succeeds is a pure fold. -/
theorem foldlM_eq_ok_foldl {f : β → α → Except ε β} {g : β → α → β}
    (h : ∀ b, ∀ a ∈ l, f b a = .ok (g b a)) : l.foldlM f b = .ok (l.foldl g b) := by
  induction l generalizing b with
  | nil => rfl
  | cons a l ih =>
    rw [List.foldlM_cons, h b a List.mem_cons_self, ok_bind, List.foldl_cons]
    exact ih (fun b x hx => h b x (List.mem_cons_of_mem a hx))

/-- A fold that reads each element as a value, checks that it fits what came before it,
    and goes on after it. -/
theorem foldlM_eq_ok_scan {σ : Type v} {f : σ → α → Except ε σ} {Reads : α → β → Prop}
    {Fits : σ → β → Prop} {after : σ → β → σ}
    (hstep : ∀ s a s', f s a = .ok s' ↔ ∃ b, Reads a b ∧ Fits s b ∧ after s b = s') {s s' : σ} :
    l.foldlM f s = .ok s' ↔ ∃ r, List.Forall₂ Reads l r ∧
      (∀ i b, r[i]? = some b → Fits ((r.take i).foldl after s) b) ∧ r.foldl after s = s' := by
  induction l generalizing s with
  | nil =>
    rw [List.foldlM_nil, pure_eq_ok, Except.ok.injEq]
    constructor
    · intro h
      exact ⟨[], .nil, by simp, h⟩
    · rintro ⟨r, hr, _, h⟩
      cases hr
      exact h
  | cons a l ih =>
    rw [List.foldlM_cons, bind_eq_ok]
    constructor
    · rintro ⟨s₁, h₁, h⟩
      obtain ⟨b, hb, hfits, rfl⟩ := (hstep _ _ _).mp h₁
      obtain ⟨r, hr, hrest, h⟩ := ih.mp h
      refine ⟨b :: r, .cons hb hr, ?_, h⟩
      intro i c hi
      cases i with
      | zero =>
        cases hi
        exact hfits
      | succ i => exact hrest i c hi
    · rintro ⟨r, hr, hfits, h⟩
      cases hr with
      | @cons _ b _ r hb hr =>
        exact ⟨after s b, (hstep _ _ _).mpr ⟨b, hb, hfits 0 b rfl, rfl⟩,
          ih.mpr ⟨r, hr, fun i c hi => hfits (i + 1) c hi, h⟩⟩

end Result
