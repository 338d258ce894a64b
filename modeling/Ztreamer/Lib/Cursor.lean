import Ztreamer.Lib.Octets

/-! # Parsers with a cursor

    A parser reads from a cursor: the bytes that are left, and the offset of
    the first of them, which its errors name. `Parses p enc a` says that `p`
    reads exactly the bytes `enc`, whatever follows them, and gives `a`;
    `Refuses p enc` that it fails on them. The rules build both along the
    shape of a parser.

    Offsets are 64-bit machine words. An input whose end has no such offset is
    outside of `Parses`.
-/

namespace Octets

structure Cursor where
  rest : Bytes
  offset : Nat
  deriving DecidableEq

abbrev Parser (ε α : Type) : Type := StateT Cursor (Except ε) α

namespace Parser

variable {ε α β : Type}

/-- `p` reads exactly `enc` and gives `a`. -/
def Parses (p : Parser ε α) (enc : Bytes) (a : α) : Prop :=
  ∀ (tail : Bytes) (offset : Nat), offset + (enc ++ tail).length < 2 ^ 64 →
    p ⟨enc ++ tail, offset⟩ = .ok (a, ⟨tail, offset + enc.length⟩)

theorem Parses.pure (a : α) : Parses (Pure.pure a : Parser ε α) [] a := fun _ _ _ => rfl

variable {p : Parser ε α} {f : α → Parser ε β} {enc enc' : Bytes} {a : α}

theorem Parses.bind {b : β} (hp : Parses p enc a) (hf : Parses (f a) enc' b) :
    Parses (p >>= f) (enc ++ enc') b := by
  intro tail offset hlt
  have h₁ := hp (enc' ++ tail) offset (by simpa [Nat.add_assoc] using hlt)
  have h₂ := hf tail (offset + enc.length) (by
    simp only [List.length_append] at hlt ⊢
    omega)
  rw [List.append_assoc]
  show (p ⟨enc ++ (enc' ++ tail), offset⟩ >>= fun out => f out.1 out.2) = _
  rw [h₁]
  show f a ⟨enc' ++ tail, offset + enc.length⟩ = _
  rw [h₂, List.length_append, Nat.add_assoc]

/-- A parser that reads nothing before the end of its input. -/
theorem Parses.bind_nil {b : β} (hp : Parses p enc a) (hf : Parses (f a) [] b) :
    Parses (p >>= f) enc b := by
  have := hp.bind hf
  rwa [List.append_nil] at this

/-- `p` fails on every input that starts with `enc`. -/
def Refuses (p : Parser ε α) (enc : Bytes) : Prop :=
  ∀ (tail : Bytes) (offset : Nat), offset + (enc ++ tail).length < 2 ^ 64 →
    ∃ e, p ⟨enc ++ tail, offset⟩ = .error e

theorem Refuses.append (h : Refuses p enc) (enc' : Bytes) : Refuses p (enc ++ enc') := by
  intro tail offset hlt
  rw [List.append_assoc] at hlt ⊢
  exact h (enc' ++ tail) offset hlt

theorem Refuses.bind (h : Refuses p enc) : Refuses (p >>= f) enc := by
  intro tail offset hlt
  obtain ⟨e, he⟩ := h tail offset hlt
  refine ⟨e, ?_⟩
  show (p ⟨enc ++ tail, offset⟩ >>= fun out => f out.1 out.2) = _
  rw [he]
  rfl

theorem Parses.bind_refuses (hp : Parses p enc a) (hf : Refuses (f a) enc') :
    Refuses (p >>= f) (enc ++ enc') := by
  intro tail offset hlt
  have h₁ := hp (enc' ++ tail) offset (by simpa [Nat.add_assoc] using hlt)
  obtain ⟨e, he⟩ := hf tail (offset + enc.length) (by
    simp only [List.length_append] at hlt ⊢
    omega)
  refine ⟨e, ?_⟩
  rw [List.append_assoc]
  show (p ⟨enc ++ (enc' ++ tail), offset⟩ >>= fun out => f out.1 out.2) = _
  rw [h₁]
  exact he

/-- Runs `p` `n` times. -/
def times : Nat → Parser ε α → Parser ε (List α)
  | 0, _ => Pure.pure []
  | n + 1, p => do
    let a ← p
    let rest ← times n p
    return a :: rest

theorem Parses.times {γ : Type} {enc : γ → Bytes} {val : γ → α} {xs : List γ}
    (h : ∀ x ∈ xs, Parses p (enc x) (val x)) :
    Parses (times xs.length p) (xs.flatMap enc) (xs.map val) := by
  induction xs with
  | nil => exact .pure []
  | cons x xs ih =>
    rw [List.flatMap_cons]
    exact (h x List.mem_cons_self).bind
      ((ih fun y hy => h y (List.mem_cons_of_mem x hy)).bind_nil (.pure _))

/-- Runs `p` if `n` is not zero. -/
def whenPos (n : Nat) (p : Parser ε Unit) : Parser ε Unit :=
  if 0 < n then p else Pure.pure ()

theorem Parses.whenPos {n : Nat} {p : Parser ε Unit} (hpos : 0 < n → Parses p enc ())
    (hzero : n = 0 → enc = []) : Parses (whenPos n p) enc () := by
  unfold Parser.whenPos
  split
  · exact hpos (by assumption)
  · rw [hzero (by omega)]
    exact .pure ()

/-- What was read can be read in one way. -/
theorem Parses.unique {tail tail' : Bytes} {b : α} (h : Parses p enc a) (h' : Parses p enc' b)
    (hlen : (enc ++ tail).length < 2 ^ 64) (heq : enc ++ tail = enc' ++ tail') :
    a = b ∧ tail = tail' := by
  have hread := h tail 0 (by omega)
  have hread' := h' tail' 0 (by rw [← heq]; omega)
  rw [heq, hread'] at hread
  simp only [Except.ok.injEq, Prod.mk.injEq, Cursor.mk.injEq] at hread
  exact ⟨hread.1.symm, hread.2.1.symm⟩

/-! ## What a parser has read -/

/-- Whenever `p` succeeds, what it gives and the bytes it has read are in `P`. -/
def Reads (p : Parser ε α) (P : α → Bytes → Prop) : Prop :=
  ∀ (c : Cursor) (a : α) (c' : Cursor), p c = .ok (a, c') →
    ∃ enc, c.rest = enc ++ c'.rest ∧ c'.offset = c.offset + enc.length ∧ P a enc

variable {p : Parser ε α} {P Q : α → Bytes → Prop}

theorem Reads.mono (h : Reads p P) (himp : ∀ a enc, P a enc → Q a enc) : Reads p Q := by
  intro c a c' hp
  obtain ⟨enc, hrest, hoffset, hP⟩ := h c a c' hp
  exact ⟨enc, hrest, hoffset, himp a enc hP⟩

theorem Reads.pure (a : α) : Reads (Pure.pure a : Parser ε α) fun b enc => b = a ∧ enc = [] := by
  intro c b c' hp
  cases hp
  exact ⟨[], rfl, rfl, rfl, rfl⟩

theorem Reads.throw (e : ε) (P : α → Bytes → Prop) : Reads (throw e : Parser ε α) P :=
  fun _ _ _ hp => nomatch hp

/-- The second parser runs after the first one has given `a`. -/
theorem Reads.bind_of {R : α → β → Bytes → Prop} (h : Reads p P)
    (hf : ∀ a enc, P a enc → Reads (f a) (R a)) :
    Reads (p >>= f) fun b enc => ∃ a fst snd, enc = fst ++ snd ∧ P a fst ∧ R a b snd := by
  intro c b c' hp
  have hp : (p c >>= fun out => f out.1 out.2) = .ok (b, c') := hp
  cases hfst : p c with
  | error e =>
    rw [hfst] at hp
    cases hp
  | ok out =>
    rw [hfst] at hp
    obtain ⟨fst, hrest, hoffset, hP⟩ := h c out.1 out.2 hfst
    obtain ⟨snd, hrest', hoffset', hR⟩ := hf out.1 fst hP out.2 b c' hp
    refine ⟨fst ++ snd, ?_, ?_, out.1, fst, snd, rfl, hP, hR⟩
    · rw [hrest, hrest', List.append_assoc]
    · rw [hoffset', hoffset, List.length_append, Nat.add_assoc]

theorem Reads.bind {R : α → β → Bytes → Prop} (h : Reads p P) (hf : ∀ a, Reads (f a) (R a)) :
    Reads (p >>= f) fun b enc => ∃ a fst snd, enc = fst ++ snd ∧ P a fst ∧ R a b snd :=
  h.bind_of fun a _ _ => hf a

/-- Each of the items is an encoding. -/
theorem Reads.times {γ : Type} {enc : γ → Bytes} {val : γ → α}
    (h : Reads p fun a bytes => ∃ x, bytes = enc x ∧ val x = a) (n : Nat) :
    Reads (times n p) fun as bytes =>
      ∃ xs : List γ, xs.length = n ∧ bytes = xs.flatMap enc ∧ xs.map val = as := by
  induction n with
  | zero =>
    refine (Reads.pure []).mono ?_
    rintro as bytes ⟨has, hbytes⟩
    exact ⟨[], rfl, hbytes, has.symm⟩
  | succ n ih =>
    refine (h.bind fun a => ih.bind fun as => Reads.pure (a :: as)).mono ?_
    rintro as bytes ⟨a, _, _, rfl, ⟨x, rfl, rfl⟩, _, _, _, rfl, ⟨xs, rfl, rfl, rfl⟩, rfl, rfl⟩
    exact ⟨x :: xs, rfl, by rw [List.append_nil, List.flatMap_cons], rfl⟩

theorem Reads.whenPos {p : Parser ε Unit} {P : Bytes → Prop} (n : Nat)
    (h : Reads p fun _ enc => P enc) :
    Reads (whenPos n p) fun _ enc => (0 < n → P enc) ∧ (n = 0 → enc = []) := by
  unfold Parser.whenPos
  split
  next hpos => exact h.mono fun _ enc henc => ⟨fun _ => henc, fun hzero => by omega⟩
  next hzero =>
    refine (Reads.pure ()).mono fun _ enc henc => ⟨fun hpos => absurd hpos hzero, fun _ => henc.2⟩

end Parser

end Octets
