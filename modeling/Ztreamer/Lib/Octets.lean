import Mathlib.Data.List.Basic
import Mathlib.Tactic.Common
import Mathlib.Tactic.Ring

/-! # Byte strings and fixed-width integers

    A byte string is a list of bytes. Integers of a fixed width are `Fin`
    types, so that their bounds are visible to `omega`.

    * `leBytes` / `leNat`: little-endian integers of a given width,
    * `beBytes` / `beNat`: big-endian integers of a given width,
    * `ByteVec n`: byte strings of length exactly `n`, ordered as a byte
      comparison orders them.
-/

namespace Octets

abbrev Byte : Type := Fin 256

abbrev Bytes : Type := List Byte

abbrev U16 : Type := Fin 65536

abbrev U32 : Type := Fin 4294967296

abbrev U64 : Type := Fin 18446744073709551616

-- the literals of a width share one proof, wherever they stand
instance neZero_byte : NeZero 256 := ⟨by decide⟩

instance neZero_u16 : NeZero 65536 := ⟨by decide⟩

instance neZero_u32 : NeZero 4294967296 := ⟨by decide⟩

instance neZero_u64 : NeZero 18446744073709551616 := ⟨by decide⟩

/-! ## Checked arithmetic -/

/-- A number as an integer of the width, unless it is too large. -/
def ofNat? (w n : Nat) : Option (Fin w) := if h : n < w then some ⟨n, h⟩ else none

/-- The sum, unless it overflows the width. -/
def checkedAdd {w : Nat} (a b : Fin w) : Option (Fin w) :=
  if h : a.val + b.val < w then some ⟨a.val + b.val, h⟩ else none

/-- The difference, unless it is negative. -/
def checkedSub {w : Nat} (a b : Fin w) : Option (Fin w) :=
  if b.val ≤ a.val then some ⟨a.val - b.val, by omega⟩ else none

@[simp] theorem ofNat?_eq_some {w n : Nat} {a : Fin w} : ofNat? w n = some a ↔ n = a.val := by
  unfold ofNat?
  split
  · simp [Fin.ext_iff]
  · have := a.isLt
    constructor
    · intro h; cases h
    · intro h; omega

@[simp] theorem ofNat?_val {w : Nat} (a : Fin w) : ofNat? w a.val = some a := by
  simp

theorem checkedAdd_eq_some {w : Nat} {a b c : Fin w} :
    checkedAdd a b = some c ↔ a.val + b.val = c.val := by
  unfold checkedAdd
  split
  · simp [Fin.ext_iff]
  · have := c.isLt
    constructor
    · intro h; cases h
    · intro h; omega

theorem checkedSub_eq_some {w : Nat} {a b c : Fin w} :
    checkedSub a b = some c ↔ a.val = c.val + b.val := by
  unfold checkedSub
  split
  · simp only [Option.some.injEq, Fin.ext_iff]
    omega
  · constructor
    · intro h; cases h
    · intro h; omega

/-! ## Little-endian integers -/

/-- The number that `bs` spells, least significant byte first. -/
def leNat : Bytes → Nat
  | [] => 0
  | b :: bs => b.val + 256 * leNat bs

/-- The lowest `w` bytes of `n`, least significant byte first. -/
def leBytes : Nat → Nat → Bytes
  | 0, _ => []
  | w + 1, n => Fin.ofNat 256 n :: leBytes w (n / 256)

@[simp] theorem leBytes_length (w n : Nat) : (leBytes w n).length = w := by
  induction w generalizing n with
  | zero => rfl
  | succ w ih => simp [leBytes, ih]

theorem leNat_lt (bs : Bytes) : leNat bs < 256 ^ bs.length := by
  induction bs with
  | nil => simp [leNat]
  | cons b bs ih =>
    have hb := b.isLt
    simp only [leNat, List.length_cons, pow_succ]
    omega

theorem leNat_leBytes (w n : Nat) (h : n < 256 ^ w) : leNat (leBytes w n) = n := by
  induction w generalizing n with
  | zero => simp [leBytes, leNat] at h ⊢; omega
  | succ w ih =>
    have hdiv : n / 256 < 256 ^ w := by
      rw [pow_succ] at h
      exact Nat.div_lt_of_lt_mul (by omega)
    simp only [leBytes, leNat, ih _ hdiv, Fin.val_ofNat]
    omega

theorem leBytes_leNat (bs : Bytes) : leBytes bs.length (leNat bs) = bs := by
  induction bs with
  | nil => rfl
  | cons b bs ih =>
    have hb := b.isLt
    have hdiv : (b.val + 256 * leNat bs) / 256 = leNat bs := by omega
    simp only [List.length_cons, leNat, leBytes, hdiv, ih]
    congr 1
    apply Fin.ext
    simp only [Fin.val_ofNat]
    omega

/-! ## Big-endian integers -/

/-- The number that `bs` spells, most significant byte first. -/
def beNat (bs : Bytes) : Nat := leNat bs.reverse

/-- The lowest `w` bytes of `n`, most significant byte first. -/
def beBytes (w n : Nat) : Bytes := (leBytes w n).reverse

@[simp] theorem beBytes_length (w n : Nat) : (beBytes w n).length = w := by
  simp [beBytes]

theorem beNat_lt (bs : Bytes) : beNat bs < 256 ^ bs.length := by
  simpa [beNat] using leNat_lt bs.reverse

theorem beNat_beBytes (w n : Nat) (h : n < 256 ^ w) : beNat (beBytes w n) = n := by
  simp [beNat, beBytes, leNat_leBytes w n h]

theorem beBytes_beNat (bs : Bytes) : beBytes bs.length (beNat bs) = bs := by
  have h := leBytes_leNat bs.reverse
  rw [List.length_reverse] at h
  rw [beBytes, beNat, h, List.reverse_reverse]

theorem beNat_injective {a b : Bytes} (hlen : a.length = b.length)
    (h : beNat a = beNat b) : a = b := by
  rw [← beBytes_beNat a, ← beBytes_beNat b, hlen, h]

/-! ## Byte strings of a fixed length -/

/-- A byte string of length `n`. -/
structure ByteVec (n : Nat) where
  val : Bytes
  length_eq : val.length = n
  deriving DecidableEq

namespace ByteVec

variable {n : Nat}

@[ext] theorem ext {a b : ByteVec n} (h : a.val = b.val) : a = b := by
  cases a; cases b; cases h; rfl

@[simp] theorem val_length (a : ByteVec n) : a.val.length = n := a.length_eq

/-- Reads a byte string of length `n`; any other length is refused. -/
def ofBytes? (n : Nat) (bs : Bytes) : Option (ByteVec n) :=
  if h : bs.length = n then some ⟨bs, h⟩ else none

@[simp] theorem ofBytes?_val (a : ByteVec n) : ofBytes? n a.val = some a := by
  simp [ofBytes?]

theorem ofBytes?_eq_some {bs : Bytes} {a : ByteVec n} :
    ofBytes? n bs = some a ↔ bs = a.val := by
  constructor
  · intro h
    unfold ofBytes? at h
    split at h
    · cases h; rfl
    · cases h
  · rintro rfl
    exact ofBytes?_val a

/-- The `n` bytes of a number, most significant byte first. -/
def ofNat (n k : Nat) : ByteVec n := ⟨beBytes n k, beBytes_length n k⟩

instance : Inhabited (ByteVec n) := ⟨ofNat n 0⟩

/-- Byte strings of one length compare as the big-endian numbers they spell. -/
instance : Ord (ByteVec n) := ⟨compareOn (fun a => beNat a.val)⟩

theorem compare_def (a b : ByteVec n) :
    compare a b = compare (beNat a.val) (beNat b.val) := rfl

instance : Std.TransOrd (ByteVec n) :=
  inferInstanceAs (Std.TransCmp (compareOn (fun a : ByteVec n => beNat a.val)))

instance : Std.LawfulEqOrd (ByteVec n) where
  eq_of_compare := by
    intro a b h
    rw [compare_def, Nat.compare_eq_eq] at h
    exact ext (beNat_injective (by simp) h)

end ByteVec

end Octets
