import Ztreamer.Lib.Result

/-! # Computations that may panic

    Code that returns a `Result` can also stop without one, for instance at an
    index out of bounds. `Panicking ε α` has all three outcomes: a panic is
    `none`. A computation that is `total x` never panics and gives what `x`
    gives; the rules show this along the shape of a program.
-/

/-- A panic (`none`), an error, or a value. -/
abbrev Panicking (ε α : Type) : Type := ExceptT ε Option α

namespace Panicking

variable {ε α β σ : Type}

/-- Code that does not panic. -/
def total (x : Except ε α) : Panicking ε α := ExceptT.mk (some x)

/-- Stops without a result. -/
def panic : Panicking ε α := ExceptT.mk none

theorem total_ne_panic (x : Except ε α) : total x ≠ panic := nofun

@[simp] theorem total_inj {x y : Except ε α} : total x = total y ↔ x = y :=
  ⟨fun h => Option.some.inj h, fun h => congrArg total h⟩

@[simp] theorem total_ok_bind (a : α) (f : α → Panicking ε β) : total (.ok a) >>= f = f a := rfl

/-- Code that does not panic, in sequence. -/
theorem total_bind {x : Except ε α} {f : α → Panicking ε β} {g : α → Except ε β}
    (h : ∀ a, x = .ok a → f a = total (g a)) : total x >>= f = total (x >>= g) := by
  cases x with
  | error e => rfl
  | ok a => exact h a rfl

/-- A loop whose steps do not panic. -/
theorem foldlM_total {f : σ → α → Panicking ε σ} {g : σ → α → Except ε σ} {l : List α} (s : σ)
    (h : ∀ s, ∀ a ∈ l, f s a = total (g s a)) : l.foldlM f s = total (l.foldlM g s) := by
  induction l generalizing s with
  | nil => rfl
  | cons a l ih =>
    rw [List.foldlM_cons, List.foldlM_cons, h s a List.mem_cons_self]
    exact total_bind fun s' _ => ih s' fun s b hb => h s b (List.mem_cons_of_mem a hb)

/-- A search whose steps do not panic. -/
theorem anyM_total {p : α → Panicking ε Bool} {q : α → Bool} {l : List α}
    (h : ∀ a ∈ l, p a = total (.ok (q a))) : l.anyM p = total (.ok (l.any q)) := by
  induction l with
  | nil => rfl
  | cons a l ih =>
    rw [List.anyM, h a List.mem_cons_self, total_ok_bind, List.any_cons]
    cases q a with
    | true => rfl
    | false => exact ih fun b hb => h b (List.mem_cons_of_mem a hb)

/-- Changes the error. -/
def mapError {ε' : Type} (x : Panicking ε α) (f : ε → ε') : Panicking ε' α :=
  ExceptT.mk (x.run.map (Result.okMapError · f))

@[simp] theorem mapError_total {ε' : Type} (x : Except ε α) (f : ε → ε') :
    mapError (total x) f = total (Result.okMapError x f) := rfl

end Panicking
