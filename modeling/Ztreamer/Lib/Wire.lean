import Mathlib.Tactic.NormNum
import Ztreamer.Lib.Octets

/-! # The protobuf wire format

    A message on the wire is a sequence of fields. A field is a key, which
    holds its tag and its wire type, and a value. Groups are not part of the
    format modelled here.

    * `varint` / `readVarint`: base-128 integers,
    * `encodeFields` / `readFields`: field sequences, with the round trip
      `readFields_encodeFields`,
    * `scalar`, `blob`, `repeated`: the fields of a message in the encoding
      that omits default values, and their encoded lengths,
    * `Copies`: loops that copy, edit and skip fields.
-/

namespace Wire

open Octets

/-! ## Base-128 integers -/

/-- The base-128 encoding of `n`, least significant group first. -/
def varint (n : Nat) : Bytes :=
  if n < 128 then [Fin.ofNat 256 n]
  else Fin.ofNat 256 (n % 128 + 128) :: varint (n / 128)
termination_by n
decreasing_by omega

/-- Reads at most `k` groups. -/
def readGroups : Nat → Bytes → Option (Nat × Bytes)
  | 0, _ => none
  | _ + 1, [] => none
  | k + 1, b :: bs =>
    if b.val < 128 then some (b.val, bs)
    else (readGroups k bs).map fun p => (b.val - 128 + 128 * p.1, p.2)

/-- Reads a 64-bit integer: at most ten groups, and no bit above the 64th. -/
def readVarint (bs : Bytes) : Option (Nat × Bytes) :=
  (readGroups 10 bs).filter fun p => p.1 < 2 ^ 64

variable {n tag tag' : Nat} {bytes rest bs : Bytes}

theorem varint_lt (h : n < 128) : varint n = [Fin.ofNat 256 n] := by
  rw [varint, if_pos h]

theorem varint_ge (h : ¬ n < 128) :
    varint n = Fin.ofNat 256 (n % 128 + 128) :: varint (n / 128) := by
  rw [varint, if_neg h]

theorem varint_length_pos (n : Nat) : 0 < (varint n).length := by
  by_cases h : n < 128
  · simp [varint_lt h]
  · simp [varint_ge h]

/-- `k` groups hold every number below `128 ^ k`. -/
theorem varint_length_le (k n : Nat) (hk : 0 < k) (h : n < 128 ^ k) :
    (varint n).length ≤ k := by
  induction k generalizing n with
  | zero => omega
  | succ k ih =>
    by_cases hn : n < 128
    · simp [varint_lt hn]
    · rw [varint_ge hn, List.length_cons]
      have hk' : 0 < k := by
        rcases Nat.eq_zero_or_pos k with rfl | hpos
        · simp at h; omega
        · exact hpos
      have hdiv : n / 128 < 128 ^ k := by
        rw [pow_succ] at h
        exact Nat.div_lt_of_lt_mul (by omega)
      have := ih (n / 128) hk' hdiv
      omega

theorem readGroups_varint (k n : Nat) (rest : Bytes) (hk : 0 < k) (h : n < 128 ^ k) :
    readGroups k (varint n ++ rest) = some (n, rest) := by
  induction k generalizing n with
  | zero => omega
  | succ k ih =>
    by_cases hn : n < 128
    · have hmod : n % 256 = n := by omega
      simp [varint_lt hn, readGroups, Fin.ofNat, hmod, hn]
    · have hk' : 0 < k := by
        rcases Nat.eq_zero_or_pos k with rfl | hpos
        · simp at h; omega
        · exact hpos
      have hdiv : n / 128 < 128 ^ k := by
        rw [pow_succ] at h
        exact Nat.div_lt_of_lt_mul (by omega)
      have hval : (Fin.ofNat 256 (n % 128 + 128)).val = n % 128 + 128 := by
        simp only [Fin.val_ofNat]; omega
      rw [varint_ge hn, List.cons_append, readGroups, if_neg (by rw [hval]; omega),
        ih _ hk' hdiv, Option.map_some, hval]
      congr 2
      omega

theorem readVarint_varint (n : Nat) (rest : Bytes) (h : n < 2 ^ 64) :
    readVarint (varint n ++ rest) = some (n, rest) := by
  have hn : n < 128 ^ 10 := lt_of_lt_of_le h (by norm_num)
  rw [readVarint, readGroups_varint 10 n rest (by omega) hn, Option.filter_some,
    if_pos (by simpa using h)]

/-! ## Fields -/

/-- The value of a field, by wire type. -/
inductive Value where
  | varint (n : Nat)
  | fixed64 (bytes : Bytes)
  | len (bytes : Bytes)
  | fixed32 (bytes : Bytes)
  deriving DecidableEq

abbrev Field : Type := Nat × Value

/-- The number of the wire type in a key. -/
def Value.wireType : Value → Nat
  | .varint _ => 0
  | .fixed64 _ => 1
  | .len _ => 2
  | .fixed32 _ => 5

/-- A value that a 64-bit peer can represent. -/
def Value.Fits : Value → Prop
  | .varint n => n < 2 ^ 64
  | .fixed64 bytes => bytes.length = 8
  | .len bytes => bytes.length < 2 ^ 64
  | .fixed32 bytes => bytes.length = 4

def encodeValue : Value → Bytes
  | .varint n => varint n
  | .fixed64 bytes => bytes
  | .len bytes => varint bytes.length ++ bytes
  | .fixed32 bytes => bytes

def encodeField (f : Field) : Bytes :=
  varint (8 * f.1 + f.2.wireType) ++ encodeValue f.2

def encodeFields (fs : List Field) : Bytes := fs.flatMap encodeField

/-- Splits `n` bytes off. -/
def readExact (n : Nat) (bs : Bytes) : Option (Bytes × Bytes) :=
  if n ≤ bs.length then some (bs.take n, bs.drop n) else none

theorem readExact_append {a : Bytes} (rest : Bytes) (h : a.length = n) :
    readExact n (a ++ rest) = some (a, rest) := by
  simp [readExact, ← h]

/-- Reads the value of a field whose key has the wire type `wireType`. -/
def readValue (wireType : Nat) (bs : Bytes) : Option (Value × Bytes) :=
  match wireType with
  | 0 => (readVarint bs).map fun p => (.varint p.1, p.2)
  | 1 => (readExact 8 bs).map fun p => (.fixed64 p.1, p.2)
  | 2 => (readVarint bs).bind fun p =>
      (readExact p.1 p.2).map fun q => (.len q.1, q.2)
  | 5 => (readExact 4 bs).map fun p => (.fixed32 p.1, p.2)
  | _ => none

/-- Reads one field. A key above 32 bits and the tag 0 are refused. -/
def readField (bs : Bytes) : Option (Field × Bytes) :=
  (readVarint bs).bind fun p =>
    if p.1 < 2 ^ 32 ∧ 8 ≤ p.1 then
      (readValue (p.1 % 8) p.2).map fun q => ((p.1 / 8, q.1), q.2)
    else none

/-- Reads fields to the end of the input. A field has at least one byte, so
    the length of the input is enough fuel. -/
def readFieldsFuel : Nat → Bytes → Option (List Field)
  | _, [] => some []
  | 0, _ :: _ => none
  | fuel + 1, b :: bs =>
    (readField (b :: bs)).bind fun p =>
      (readFieldsFuel fuel p.2).map fun fs => p.1 :: fs

def readFields (bs : Bytes) : Option (List Field) := readFieldsFuel bs.length bs

/-- A field with a tag that the format allows and a value that fits. -/
def Field.Fits (f : Field) : Prop := 0 < f.1 ∧ f.1 < 2 ^ 29 ∧ f.2.Fits

theorem readValue_encodeValue (v : Value) (rest : Bytes) (h : v.Fits) :
    readValue v.wireType (encodeValue v ++ rest) = some (v, rest) := by
  cases v with
  | varint n => simp [readValue, encodeValue, Value.wireType, readVarint_varint n rest h]
  | fixed64 bytes => simp [readValue, encodeValue, Value.wireType, readExact_append rest h]
  | len bytes =>
    simp [readValue, encodeValue, Value.wireType, List.append_assoc,
      readVarint_varint _ _ h, readExact_append rest rfl]
  | fixed32 bytes => simp [readValue, encodeValue, Value.wireType, readExact_append rest h]

theorem Value.wireType_lt (v : Value) : v.wireType < 8 := by
  cases v <;> simp [Value.wireType]

theorem readField_encodeField (f : Field) (rest : Bytes) (h : f.Fits) :
    readField (encodeField f ++ rest) = some (f, rest) := by
  obtain ⟨tag, v⟩ := f
  obtain ⟨hpos, hlt, hv⟩ := h
  simp only at hpos hlt hv
  have hw := v.wireType_lt
  have hkey : 8 * tag + v.wireType < 2 ^ 64 := by omega
  have hmod : (8 * tag + v.wireType) % 8 = v.wireType := by omega
  have hdiv : (8 * tag + v.wireType) / 8 = tag := by omega
  rw [readField, encodeField, List.append_assoc, readVarint_varint _ _ hkey,
    Option.bind_some, if_pos (by constructor <;> omega)]
  simp only [hmod, hdiv, readValue_encodeValue v rest hv, Option.map_some]

theorem encodeField_length_pos (f : Field) : 0 < (encodeField f).length := by
  have := varint_length_pos (8 * f.1 + f.2.wireType)
  simp only [encodeField, List.length_append]
  omega

/-- More fuel than the input has bytes changes nothing. -/
theorem readFieldsFuel_encodeFields_append (fs : List Field) (rest : Bytes) (fuel : Nat)
    (hfits : ∀ f ∈ fs, f.Fits) (hfuel : (encodeFields fs).length ≤ fuel) :
    readFieldsFuel (fuel + rest.length) (encodeFields fs ++ rest) =
      (readFieldsFuel (fuel + rest.length - fs.length) rest).map (fs ++ ·) := by
  induction fs generalizing fuel with
  | nil => simp [encodeFields]
  | cons f fs ih =>
    have hf := hfits f List.mem_cons_self
    have hpos := encodeField_length_pos f
    have hcons : encodeFields (f :: fs) = encodeField f ++ encodeFields fs := by
      simp [encodeFields]
    rw [hcons, List.length_append] at hfuel
    obtain ⟨fuel, rfl⟩ : ∃ k, fuel = k + 1 := ⟨fuel - 1, by omega⟩
    obtain ⟨b, bs, hbs⟩ : ∃ b bs, encodeField f = b :: bs :=
      List.exists_cons_of_ne_nil (List.ne_nil_of_length_pos hpos)
    have hread := readField_encodeField f (encodeFields fs ++ rest) hf
    rw [hbs] at hread
    rw [hcons, List.append_assoc, hbs, List.cons_append,
      show fuel + 1 + rest.length = fuel + rest.length + 1 by omega, readFieldsFuel]
    rw [List.cons_append] at hread
    rw [hread, Option.bind_some, ih fuel (fun g hg => hfits g (List.mem_cons_of_mem f hg))
      (by omega)]
    rw [show fuel + rest.length + 1 - (f :: fs).length = fuel + rest.length - fs.length by
      simp only [List.length_cons]; omega]
    cases readFieldsFuel (fuel + rest.length - fs.length) rest <;> simp

/-- A value of the width of its wire type. Unlike `Value.Fits` this does not
    bound the length of a blob. -/
def Value.Shaped : Value → Prop
  | .len _ => True
  | v => v.Fits

def Field.Shaped (f : Field) : Prop := 0 < f.1 ∧ f.1 < 2 ^ 29 ∧ f.2.Shaped

theorem length_le_encodeFields_of_mem {fs : List Field} (h : (tag, Value.len bytes) ∈ fs) :
    bytes.length ≤ (encodeFields fs).length := by
  obtain ⟨pre, post, rfl⟩ := List.append_of_mem h
  have hcons : encodeFields (pre ++ (tag, Value.len bytes) :: post) =
      encodeFields pre ++ (encodeField (tag, .len bytes) ++ encodeFields post) := by
    simp [encodeFields]
  rw [hcons]
  simp only [encodeField, encodeValue, List.length_append]
  omega

/-- In a message of less than 2^64 bytes every blob fits. -/
theorem Field.Shaped.fits {fs : List Field} (h : ∀ f ∈ fs, f.Shaped)
    (hlen : (encodeFields fs).length < 2 ^ 64) : ∀ f ∈ fs, f.Fits := by
  intro f hf
  obtain ⟨hpos, hlt, hv⟩ := h f hf
  obtain ⟨tag, v⟩ := f
  refine ⟨hpos, hlt, ?_⟩
  cases v with
  | len bytes => exact lt_of_le_of_lt (length_le_encodeFields_of_mem hf) hlen
  | varint n => exact hv
  | fixed64 bytes => exact hv
  | fixed32 bytes => exact hv

theorem readFields_encodeFields {fs : List Field} (h : ∀ f ∈ fs, f.Shaped)
    (hlen : (encodeFields fs).length < 2 ^ 64) : readFields (encodeFields fs) = some fs := by
  have h := readFieldsFuel_encodeFields_append fs [] (encodeFields fs).length
    (Field.Shaped.fits h hlen) le_rfl
  simpa [readFields, readFieldsFuel] using h

/-! ## The fields of a message -/

/-- An integer field; 0 is omitted. -/
def scalar (tag n : Nat) : List Field := if n = 0 then [] else [(tag, .varint n)]

/-- A bytes field; the empty string is omitted. -/
def blob (tag : Nat) (bytes : Bytes) : List Field :=
  if bytes = [] then [] else [(tag, .len bytes)]

/-- A repeated message field, one field for each encoded message. -/
def repeated (tag : Nat) (messages : List Bytes) : List Field :=
  messages.map fun bytes => (tag, .len bytes)

@[simp] theorem encodeFields_append (fs gs : List Field) :
    encodeFields (fs ++ gs) = encodeFields fs ++ encodeFields gs := by
  simp [encodeFields]

@[simp] theorem encodeFields_nil : encodeFields [] = [] := rfl

theorem scalar_shaped (ht : 0 < tag ∧ tag < 2 ^ 29) (hn : n < 2 ^ 64) :
    ∀ f ∈ scalar tag n, f.Shaped := by
  intro f hf
  unfold scalar at hf
  split at hf
  · cases hf
  · cases List.mem_singleton.mp hf
    exact ⟨ht.1, ht.2, hn⟩

theorem blob_shaped (ht : 0 < tag ∧ tag < 2 ^ 29) (bytes : Bytes) :
    ∀ f ∈ blob tag bytes, f.Shaped := by
  intro f hf
  unfold blob at hf
  split at hf
  · cases hf
  · cases List.mem_singleton.mp hf
    exact ⟨ht.1, ht.2, trivial⟩

theorem repeated_shaped (ht : 0 < tag ∧ tag < 2 ^ 29) (messages : List Bytes) :
    ∀ f ∈ repeated tag messages, f.Shaped := by
  intro f hf
  obtain ⟨m, hm, rfl⟩ := List.mem_map.mp hf
  exact ⟨ht.1, ht.2, trivial⟩

/-! ### Reading a message -/

/-- The values of the fields with the tag `tag`, in wire order. -/
def select (tag : Nat) (fs : List Field) : List Value :=
  fs.filterMap fun f => if f.1 = tag then some f.2 else none

def Value.asVarint? : Value → Option Nat
  | .varint n => some n
  | _ => none

def Value.asLen? : Value → Option Bytes
  | .len bytes => some bytes
  | _ => none

/-- The integer of a field: the last value wins, no value is 0, and a value
    of another wire type is refused. -/
def lastVarint (vs : List Value) : Option Nat := vs.foldlM (fun _ v => v.asVarint?) 0

/-- The bytes of a field, read as an integer is. -/
def lastBlob (vs : List Value) : Option Bytes := vs.foldlM (fun _ v => v.asLen?) []

/-- The messages of a repeated field. -/
def allBlobs (vs : List Value) : Option (List Bytes) := vs.mapM Value.asLen?

@[simp] theorem select_nil (tag : Nat) : select tag [] = [] := rfl

@[simp] theorem select_append (tag : Nat) (fs gs : List Field) :
    select tag (fs ++ gs) = select tag fs ++ select tag gs := by
  simp [select]

@[simp] theorem select_singleton_of_ne {f : Field} (h : f.1 ≠ tag) : select tag [f] = [] := by
  simp [select, h]

@[simp] theorem select_scalar_of_ne (n : Nat) (h : tag' ≠ tag) :
    select tag (scalar tag' n) = [] := by
  unfold scalar
  split
  · rfl
  · exact select_singleton_of_ne h

@[simp] theorem select_blob_of_ne (bytes : Bytes) (h : tag' ≠ tag) :
    select tag (blob tag' bytes) = [] := by
  unfold blob
  split
  · rfl
  · exact select_singleton_of_ne h

@[simp] theorem select_repeated_of_ne (messages : List Bytes) (h : tag' ≠ tag) :
    select tag (repeated tag' messages) = [] := by
  simp [select, repeated, h]

@[simp] theorem select_repeated_self (tag : Nat) (messages : List Bytes) :
    select tag (repeated tag messages) = messages.map .len := by
  simp [select, repeated, List.filterMap_map]

theorem mem_of_mem_select {v : Value} {fs : List Field} (h : v ∈ select tag fs) :
    (tag, v) ∈ fs := by
  obtain ⟨f, hf, hv⟩ := List.mem_filterMap.mp h
  split at hv
  case isTrue htag => cases hv; cases htag; exact hf
  case isFalse => cases hv

@[simp] theorem lastVarint_scalar (tag n : Nat) :
    lastVarint (select tag (scalar tag n)) = some n := by
  by_cases h : n = 0
  · simp [scalar, h, lastVarint]
  · simp [scalar, h, lastVarint, select, Value.asVarint?]

@[simp] theorem lastBlob_blob (tag : Nat) (bytes : Bytes) :
    lastBlob (select tag (blob tag bytes)) = some bytes := by
  by_cases h : bytes = []
  · simp [blob, h, lastBlob]
  · simp [blob, h, lastBlob, select, Value.asLen?]

@[simp] theorem allBlobs_map_len (messages : List Bytes) :
    allBlobs (messages.map .len) = some messages := by
  induction messages with
  | nil => rfl
  | cons m messages ih =>
    unfold allBlobs at ih ⊢
    simp [Value.asLen?, ih]

/-! ### Encoded lengths -/

/-- A tag below 16 has a key of one byte. -/
theorem key_length {w : Nat} (ht : tag < 16) (hw : w < 8) : (varint (8 * tag + w)).length = 1 := by
  rw [varint_lt (by omega)]
  rfl

theorem scalar_length_le {tag n k : Nat} (ht : tag < 16) (hk : 0 < k) (hn : n < 128 ^ k) :
    (encodeFields (scalar tag n)).length ≤ 1 + k := by
  unfold scalar
  split
  · simp
  · have hkey := key_length ht (w := 0) (by omega)
    have hval := varint_length_le k n hk hn
    simp only [encodeFields, List.flatMap_cons, List.flatMap_nil, List.append_nil, encodeField,
      encodeValue, Value.wireType, List.length_append]
    omega

theorem len_length {tag : Nat} {bytes : Bytes} {k : Nat} (ht : tag < 16) (hk : 0 < k)
    (hlen : bytes.length < 128 ^ k) :
    (encodeField (tag, .len bytes)).length ≤ 1 + k + bytes.length := by
  have hkey := key_length ht (w := 2) (by omega)
  have hval := varint_length_le k bytes.length hk hlen
  simp only [encodeField, encodeValue, Value.wireType, List.length_append]
  omega

theorem blob_length_le {tag : Nat} {bytes : Bytes} {k : Nat} (ht : tag < 16) (hk : 0 < k)
    (hlen : bytes.length < 128 ^ k) :
    (encodeFields (blob tag bytes)).length ≤ 1 + k + bytes.length := by
  unfold blob
  split
  · simp
  · simpa [encodeFields] using len_length ht hk hlen

/-- Each message of a repeated field costs its key, its length and itself. -/
theorem repeated_length_le {tag k c : Nat} {messages : List Bytes} (ht : tag < 16) (hk : 0 < k)
    (hc : c < 128 ^ k) (hlen : ∀ m ∈ messages, m.length ≤ c) :
    (encodeFields (repeated tag messages)).length ≤ (1 + k + c) * messages.length := by
  induction messages with
  | nil => simp [repeated]
  | cons m messages ih =>
    have hm := hlen m List.mem_cons_self
    have hhead := len_length ht hk (lt_of_le_of_lt hm hc)
    have htail := ih (fun x hx => hlen x (List.mem_cons_of_mem m hx))
    have hcons : encodeFields (repeated tag (m :: messages)) =
        encodeField (tag, .len m) ++ encodeFields (repeated tag messages) := by
      simp [encodeFields, repeated]
    rw [hcons, List.length_append, List.length_cons, Nat.mul_succ]
    omega

/-! ### Lengths of what is left -/

theorem readGroups_length {k : Nat} (h : readGroups k bytes = some (n, rest)) :
    rest.length < bytes.length := by
  induction k generalizing bytes n with
  | zero => cases h
  | succ k ih =>
    cases bytes with
    | nil => cases h
    | cons b bytes =>
      rw [readGroups] at h
      split at h
      case isTrue =>
        cases h
        exact Nat.lt_succ_self _
      case isFalse =>
        rw [Option.map_eq_some_iff] at h
        obtain ⟨⟨m, rest'⟩, hgroups, heq⟩ := h
        cases heq
        exact Nat.lt_succ_of_lt (ih hgroups)

theorem readVarint_length (h : readVarint bytes = some (n, rest)) : rest.length < bytes.length := by
  rw [readVarint, Option.filter_eq_some_iff] at h
  exact readGroups_length h.1

theorem readExact_length {first : Bytes} (h : readExact n bytes = some (first, rest)) :
    first.length + rest.length = bytes.length := by
  rw [readExact] at h
  split at h
  case isTrue hle =>
    cases h
    rw [List.length_take_of_le hle, List.length_drop]
    omega
  case isFalse => cases h

/-! ## Copying fields

    A loop over the fields of a message that writes fields: `step` handles a field,
    and `write` is what writing one field does. -/

section

variable {σ : Type} {ε : Type} {step : σ → Field → Except ε σ} {write : σ → Field → σ}

/-- Fields are written at the end of a message. -/
theorem foldl_append_encodeField (gs : List Field) (out : Bytes) :
    gs.foldl (fun out g => out ++ encodeField g) out = out ++ encodeFields gs := by
  induction gs generalizing out with
  | nil => rw [List.foldl_nil, encodeFields_nil, List.append_nil]
  | cons g gs ih =>
    rw [List.foldl_cons, ih, List.append_assoc]
    rfl

/-- A loop over `fs` writes `gs`. -/
def Copies (step : σ → Field → Except ε σ) (write : σ → Field → σ) (fs gs : List Field) : Prop :=
  ∀ acc, fs.foldlM step acc = .ok (gs.foldl write acc)

theorem Copies.append {fs gs fs' gs' : List Field} (h : Copies step write fs gs)
    (h' : Copies step write fs' gs') : Copies step write (fs ++ fs') (gs ++ gs') := by
  intro acc
  rw [List.foldlM_append, h acc, List.foldl_append]
  exact h' _

theorem Copies.of_step {fs : List Field} (h : ∀ f ∈ fs, ∀ acc, step acc f = .ok (write acc f)) :
    Copies step write fs fs := by
  intro acc
  induction fs generalizing acc with
  | nil => rfl
  | cons f fs ih =>
    rw [List.foldlM_cons, h f List.mem_cons_self]
    exact ih (fun g hg => h g (List.mem_cons_of_mem f hg)) _

theorem Copies.skip {fs : List Field} (h : ∀ f ∈ fs, ∀ acc, step acc f = .ok acc) :
    Copies step write fs [] := by
  intro acc
  induction fs with
  | nil => rfl
  | cons f fs ih =>
    rw [List.foldlM_cons, h f List.mem_cons_self]
    exact ih fun g hg => h g (List.mem_cons_of_mem f hg)

theorem mem_blob {f : Field} (hf : f ∈ blob tag bytes) : f.1 = tag := by
  unfold blob at hf
  split at hf
  · cases hf
  · cases List.mem_singleton.mp hf
    rfl

theorem mem_scalar {f : Field} (hf : f ∈ scalar tag n) : f.1 = tag := by
  unfold scalar at hf
  split at hf
  · cases hf
  · cases List.mem_singleton.mp hf
    rfl

/-- Messages of a repeated field, each of which is edited or dropped. -/
theorem Copies.repeated {α : Type} {encode : α → Bytes} {xs ys : List α} (edit : α → Option α)
    (hys : xs.filterMap edit = ys) (h : ∀ x ∈ xs, ∀ acc, step acc (tag, .len (encode x)) =
      .ok ((edit x).elim acc fun y => write acc (tag, .len (encode y)))) :
    Copies step write (repeated tag (xs.map encode)) (repeated tag (ys.map encode)) := by
  subst hys
  intro acc
  induction xs generalizing acc with
  | nil => rfl
  | cons x xs ih =>
    have htail := ih fun y hy => h y (List.mem_cons_of_mem x hy)
    have hcons : Wire.repeated tag ((x :: xs).map encode) =
        (tag, .len (encode x)) :: Wire.repeated tag (xs.map encode) := rfl
    rw [hcons, List.foldlM_cons, h x List.mem_cons_self, List.filterMap_cons]
    cases edit x with
    | none => exact htail _
    | some y => exact htail _

end

end Wire
