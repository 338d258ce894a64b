import Ztreamer.Lib.Octets

/-! # Packed records behind an offset table

    A list of byte strings is stored as one body of length-prefixed frames
    and a table of the positions of the frames in the body. The table ends
    with the length of the body, so each frame lies between two entries.

    * `frames` / `frameOffsets`: the body and the positions of its frames,
    * `table` / `tableEntry`: a table of big-endian 32-bit integers,
    * `slice_frames`: the bytes between two entries are one frame.
-/

namespace Packed

open Octets

/-- A byte string behind its 32-bit length. -/
def frame (part : Bytes) : Bytes := beBytes 4 part.length ++ part

/-- The body: the frames of `parts`. -/
def frames (parts : List Bytes) : Bytes := parts.flatMap frame

/-- The positions of the frames of `parts`, from `offset`, and the end. -/
def frameOffsets (offset : Nat) : List Bytes → List Nat
  | [] => [offset]
  | part :: parts => offset :: frameOffsets (offset + (frame part).length) parts

def table (entries : List Nat) : Bytes := entries.flatMap (beBytes 4)

/-- Entry `i` of a table. -/
def tableEntry (bytes : Bytes) (i : Nat) : Nat := beNat ((bytes.drop (4 * i)).take 4)

/-- The bytes from `start` to `stop`, if they are inside. -/
def slice (bytes : Bytes) (start stop : Nat) : Option Bytes :=
  if start ≤ stop ∧ stop ≤ bytes.length then some ((bytes.take stop).drop start) else none

@[simp] theorem frame_length (part : Bytes) : (frame part).length = 4 + part.length := by
  simp [frame]

@[simp] theorem frameOffsets_length (offset : Nat) (parts : List Bytes) :
    (frameOffsets offset parts).length = parts.length + 1 := by
  induction parts generalizing offset with
  | nil => rfl
  | cons part parts ih => simp [frameOffsets, ih]

@[simp] theorem frames_append (parts parts' : List Bytes) :
    frames (parts ++ parts') = frames parts ++ frames parts' := by
  simp [frames]

/-- The position of a frame is the length of the frames before it. -/
theorem frameOffsets_getElem? (offset : Nat) (parts : List Bytes) {i : Nat}
    (hi : i ≤ parts.length) :
    (frameOffsets offset parts)[i]? = some (offset + (frames (parts.take i)).length) := by
  induction parts generalizing offset i with
  | nil => simp_all [frameOffsets, frames]
  | cons part parts ih =>
    cases i with
    | zero => simp [frameOffsets, frames]
    | succ i =>
      rw [frameOffsets, List.getElem?_cons_succ, ih _ (by simpa using hi)]
      simp [frames]
      omega

/-- A frame of each of `parts` is at most `4 + c` bytes long. -/
theorem frameOffsets_le {offset c : Nat} {parts : List Bytes}
    (h : ∀ part ∈ parts, part.length ≤ c) :
    ∀ n ∈ frameOffsets offset parts, n ≤ offset + (4 + c) * parts.length := by
  induction parts generalizing offset with
  | nil => simp [frameOffsets]
  | cons part parts ih =>
    rw [List.forall_mem_cons] at h
    simp only [frameOffsets, List.forall_mem_cons, frame_length, List.length_cons, Nat.mul_succ]
    refine ⟨by omega, fun n hn => ?_⟩
    have := ih h.2 n hn
    omega

@[simp] theorem table_length (entries : List Nat) :
    (table entries).length = 4 * entries.length := by
  induction entries with
  | nil => rfl
  | cons n entries ih =>
    simp only [table, List.flatMap_cons, List.length_append, beBytes_length,
      List.length_cons] at ih ⊢
    omega

theorem tableEntry_table {entries : List Nat} {i n : Nat} (hi : entries[i]? = some n)
    (hn : n < 2 ^ 32) : tableEntry (table entries) i = n := by
  induction entries generalizing i with
  | nil => simp at hi
  | cons m entries ih =>
    have hcons : table (m :: entries) = beBytes 4 m ++ table entries := by
      simp [table]
    rw [hcons]
    cases i with
    | zero =>
      obtain rfl : m = n := by simpa using hi
      have htake : (beBytes 4 m ++ table entries).take 4 = beBytes 4 m :=
        List.take_left' (by simp)
      rw [tableEntry, Nat.mul_zero, List.drop_zero, htake, beNat_beBytes 4 m hn]
    | succ i =>
      have hdrop : (beBytes 4 m ++ table entries).drop (4 * (i + 1)) =
          (table entries).drop (4 * i) := by
        rw [List.drop_append, List.drop_eq_nil_of_le (by simp), List.nil_append,
          beBytes_length]
        rfl
      rw [tableEntry, hdrop, ← tableEntry]
      exact ih hi

/-- The bytes between two consecutive positions are the frame of the part. -/
theorem slice_frames {parts : List Bytes} {i : Nat} {part : Bytes} (hi : parts[i]? = some part) :
    slice (frames parts) (frames (parts.take i)).length (frames (parts.take (i + 1))).length =
      some (frame part) := by
  have hlt : i < parts.length := (List.getElem?_eq_some_iff.mp hi).1
  have htake : parts.take (i + 1) = parts.take i ++ [part] := by
    rw [List.take_add_one, hi]
    rfl
  have hframes : frames parts =
      frames (parts.take i) ++ (frame part ++ frames (parts.drop (i + 1))) := by
    conv_lhs => rw [← List.take_append_drop (i + 1) parts, htake]
    simp [frames]
  have hstop : (frames (parts.take (i + 1))).length =
      (frames (parts.take i)).length + (frame part).length := by
    rw [htake]
    simp [frames]
  rw [slice, if_pos ⟨by omega, by rw [hframes, hstop]; simp⟩, hstop, hframes,
    List.take_length_add_append, List.drop_left, List.take_left' rfl]

/-- A field of a fixed layout lies behind the fields before it. -/
theorem take_drop_flatten {fields : List Bytes} {i start len : Nat} {field : Bytes}
    (hi : fields[i]? = some field) (hstart : (fields.take i).flatten.length = start)
    (hlen : field.length = len) : (fields.flatten.drop start).take len = field := by
  have hlt : i < fields.length := (List.getElem?_eq_some_iff.mp hi).1
  have hsplit : fields = fields.take i ++ field :: fields.drop (i + 1) := by
    conv_lhs => rw [← List.take_append_drop i fields]
    rw [List.drop_eq_getElem_cons hlt, (List.getElem?_eq_some_iff.mp hi).2]
  have hflat : fields.flatten =
      (fields.take i).flatten ++ (field ++ (fields.drop (i + 1)).flatten) := by
    conv_lhs => rw [hsplit]
    simp
  rw [hflat, List.drop_left' hstart, List.take_left' hlen]

end Packed
