import Ztreamer.Lib.Result
import Mathlib.Logic.Relation

/-! # Programs in atomic steps

    A program over a state that it shares with others. Each step reads the state
    and changes it at once. Between two steps the others may change it.

    * `Prog`: programs that end with a result or an error,
    * `Prog.wp`: what a program establishes. Before each step the others have
      changed the state within `Rely`, and the step is within `Guar`,
    * `Prog.wp_runs`: `wp` holds along every interleaved run.
-/

namespace Atomic

open Result Relation

/-- A program over the state `σ`. The rest of a step depends on the state that
    the step found. -/
inductive Prog (σ ε α : Type) where
  | done (result : Except ε α)
  | step (change : σ → σ) (next : σ → Prog σ ε α)

namespace Prog

variable {σ ε α β : Type}

def bind : Prog σ ε α → (α → Prog σ ε β) → Prog σ ε β
  | done (.ok a), k => k a
  | done (.error e), _ => done (.error e)
  | step change next, k => step change fun s => (next s).bind k

instance : Monad (Prog σ ε) where
  pure a := done (.ok a)
  bind := bind

/-- Reads the state once. -/
def read (f : σ → Except ε α) : Prog σ ε α := step id fun s => done (f s)

/-- The state after a change that may fail. A failure does not change it. -/
def after (f : σ → Except ε (σ × α)) (s : σ) : σ :=
  match f s with
  | .ok (s', _) => s'
  | .error _ => s

/-- Changes the state once. -/
def write (f : σ → Except ε (σ × α)) : Prog σ ε α :=
  step (after f) fun s => done ((·.2) <$> f s)

/-! ## Interleaved runs -/

/-- The program takes its next step. -/
inductive Acts : Prog σ ε α × σ → Prog σ ε α × σ → Prop where
  | act (change : σ → σ) (next : σ → Prog σ ε α) (s : σ) :
      Acts (step change next, s) (next s, change s)

/-- The program takes its next step, or the others change the state. -/
inductive Runs (Rely : σ → σ → Prop) : Prog σ ε α × σ → Prog σ ε α × σ → Prop where
  | act {x y : Prog σ ε α × σ} : Acts x y → Runs Rely x y
  | rely {p : Prog σ ε α} {s s' : σ} : Rely s s' → Runs Rely (p, s) (p, s')

/-! ## What a program establishes -/

variable {Rely Guar : σ → σ → Prop} {Q R : α → σ → Prop} {s s' : σ} {p p' : Prog σ ε α}

/-- The program ends in `Q` if it succeeds, and each of its steps is within `Guar`. -/
def wp (Rely Guar : σ → σ → Prop) (Q : α → σ → Prop) : Prog σ ε α → σ → Prop
  | done (.ok a), s => Q a s
  | done (.error _), _ => True
  | step change next, s => ∀ s', Rely s s' →
      Guar s' (change s') ∧ (next s').wp Rely Guar Q (change s')

/-- The others may act any number of times between two steps, and a step may change
    nothing. -/
structure Interference (Rely Guar : σ → σ → Prop) : Prop where
  trans : ∀ {a b c : σ}, Rely a b → Rely b c → Rely a c
  reads : ∀ {a b : σ}, Rely a b → Guar b b

variable {a : α} {k : α → Prog σ ε β}

theorem wp_pure (h : Q a s) : (pure a : Prog σ ε α).wp Rely Guar Q s := h

theorem wp_done {result : Except ε α} (h : ∀ a, result = .ok a → Q a s) :
    (done result).wp Rely Guar Q s := by
  cases result with
  | ok a => exact h a rfl
  | error e => trivial

theorem wp_bind {Q : β → σ → Prop} (p : Prog σ ε α)
    (h : p.wp Rely Guar (fun a s => (k a).wp Rely Guar Q s) s) : (p >>= k).wp Rely Guar Q s := by
  induction p generalizing s with
  | done result =>
    cases result with
    | ok a => exact h
    | error e => trivial
  | step change next ih =>
    intro s' hrely
    obtain ⟨hguar, hnext⟩ := h s' hrely
    exact ⟨hguar, ih s' hnext⟩

theorem wp_mono (h : p.wp Rely Guar Q s) (himp : ∀ a s, Q a s → R a s) :
    p.wp Rely Guar R s := by
  induction p generalizing s with
  | done result =>
    cases result with
    | ok a => exact himp a s h
    | error e => trivial
  | step change next ih =>
    intro s' hrely
    obtain ⟨hguar, hnext⟩ := h s' hrely
    exact ⟨hguar, ih s' hnext⟩

theorem wp_read (henv : Interference Rely Guar) {f : σ → Except ε α}
    (h : ∀ s', Rely s s' → ∀ a, f s' = .ok a → Q a s') : (read f).wp Rely Guar Q s := by
  intro s' hrely
  exact ⟨henv.reads hrely, wp_done (h s' hrely)⟩

variable {f : σ → Except ε (σ × α)} {x y : Prog σ ε α × σ}

theorem wp_write (henv : Interference Rely Guar)
    (h : ∀ s', Rely s s' → ∀ s₁ a, f s' = .ok (s₁, a) → Guar s' s₁ ∧ Q a s₁) :
    (write f).wp Rely Guar Q s := by
  intro s' hrely
  simp only [after]
  cases hf : f s' with
  | ok out => exact h s' hrely out.1 out.2 hf
  | error e => exact ⟨henv.reads hrely, trivial⟩

/-! ## Programs that only read -/

/-- No step of the program changes the state. -/
def ReadOnly : Prog σ ε α → Prop
  | done _ => True
  | step change next => change = id ∧ ∀ s, (next s).ReadOnly

theorem readOnly_pure (a : α) : (pure a : Prog σ ε α).ReadOnly := trivial

theorem readOnly_read (f : σ → Except ε α) : (read f).ReadOnly := ⟨rfl, fun _ => trivial⟩

theorem ReadOnly.bind (h : p.ReadOnly) (hk : ∀ a, (k a).ReadOnly) : (p >>= k).ReadOnly := by
  induction p with
  | done result =>
    cases result with
    | ok a => exact hk a
    | error e => trivial
  | step change next ih => exact ⟨h.1, fun s => ih s (h.2 s)⟩

/-- A program that only reads ends in a state that the others left. -/
theorem ReadOnly.wp (h : p.ReadOnly) (henv : Interference Rely Guar)
    (hpost : ∀ a s', s' = s ∨ Rely s s' → Q a s') : p.wp Rely Guar Q s := by
  induction p generalizing s with
  | done result =>
    cases result with
    | ok a => exact hpost a s (.inl rfl)
    | error e => trivial
  | step change next ih =>
    intro s' hrely
    obtain ⟨rfl, hnext⟩ := h
    refine ⟨henv.reads hrely, ih s' (hnext s') fun a s'' hs'' => hpost a s'' (.inr ?_)⟩
    rcases hs'' with rfl | hrely'
    · exact hrely
    · exact henv.trans hrely hrely'

/-! ## Soundness -/

/-- A step of the program is within `Guar`, and the rest of it goes on from there. -/
theorem wp_acts (h : p.wp Rely Guar Q s) (hrely : Rely s s) (hacts : Acts (p, s) (p', s')) :
    Guar s s' ∧ p'.wp Rely Guar Q s' := by
  cases hacts with
  | act change next s => exact h s hrely

/-- The others do not take away what the program establishes. -/
theorem wp_rely (henv : Interference Rely Guar)
    (hstable : ∀ a {s s'}, Rely s s' → Q a s → Q a s') (h : p.wp Rely Guar Q s)
    (hrely : Rely s s') : p.wp Rely Guar Q s' := by
  cases p with
  | done result =>
    cases result with
    | ok a => exact hstable a hrely h
    | error e => trivial
  | step change next =>
    intro s'' hrely'
    exact h s'' (henv.trans hrely hrely')

theorem wp_runs (hrefl : ∀ s, Rely s s) (henv : Interference Rely Guar)
    (hstable : ∀ a {s s'}, Rely s s' → Q a s → Q a s') (h : x.1.wp Rely Guar Q x.2)
    (hruns : ReflTransGen (Runs Rely) x y) : y.1.wp Rely Guar Q y.2 := by
  induction hruns with
  | refl => exact h
  | tail _ hstep ih =>
    cases hstep with
    | act hacts => exact (wp_acts ih (hrefl _) hacts).2
    | rely hrely => exact wp_rely henv hstable ih hrely

/-! ## Runs alone -/

/-- The result and the last state of a run in which the others do nothing. -/
def run : Prog σ ε α → σ → Except ε α × σ
  | done result, s => (result, s)
  | step change next, s => (next s).run (change s)

@[simp] theorem run_read (f : σ → Except ε α) : (read f).run s = (f s, s) := rfl

theorem run_write (h : f s = .ok (s', a)) : (write f).run s = (.ok a, s') := by
  simp only [write, run, after, h]
  rfl

theorem run_bind (h : p.run s = (.ok a, s')) : (p >>= k).run s = (k a).run s' := by
  induction p generalizing s with
  | done result =>
    cases h
    rfl
  | step change next ih => exact ih s h

theorem runs_run (p : Prog σ ε α) (s : σ) :
    ReflTransGen (Runs Rely) (p, s) (done (p.run s).1, (p.run s).2) := by
  induction p generalizing s with
  | done result => exact .refl
  | step change next ih => exact .head (.act (.act change next s)) (ih s (change s))

/-- A run of the first part is a run of the whole. -/
theorem bind_runs (h : ReflTransGen (Runs Rely) x y) :
    ReflTransGen (Runs Rely) (x.1 >>= k, x.2) (y.1 >>= k, y.2) := by
  refine h.lift (fun x : Prog σ ε α × σ => (x.1 >>= k, x.2)) ?_
  intro x y hstep
  cases hstep with
  | act hacts =>
    cases hacts with
    | act change next s => exact .act (.act change _ s)
  | rely hrely => exact .rely hrely

/-- The rest of a program after its first part has run alone. -/
theorem runs_bind (h : p.run s = (.ok a, s')) :
    ReflTransGen (Runs Rely) (p >>= k, s) (k a, s') := by
  have hruns : ReflTransGen (Runs Rely) (p, s) _ := runs_run p s
  have hruns := bind_runs (k := k) hruns
  rw [h] at hruns
  exact hruns

end Prog

end Atomic
