import Ztreamer.Chain.Range
import Ztreamer.Snapshot.ManifestEntry

/-! # The state of an index

    `IndexState` and its stored row. Heights and the generation are natural
    numbers; the code that computes with them checks for the overflow of their
    32 and 64 bits.

    * `encodeState` / `decodeState`: the state row, version 1 or 2,
    * `decodeState_encodeState`: a consistent state is read back.
-/

namespace Ztreamer

open Octets Result

def persistDepth : Nat := 10
def sealDepth : Nat := 100

/-- A block by height and hash. -/
structure BlockId where
  height : Nat
  hash : Hash
  deriving DecidableEq

@[ext] structure IndexState where
  /-- The highest block in the index. -/
  durableTip : Option BlockId := none
  /-- The last height of the sealed ranges. -/
  sealedThrough : Option Nat := none
  /-- The height through which every sealed range is verified against a node. -/
  verifiedThrough : Option Nat := none
  /-- The number of commits. -/
  generation : Nat := 0
  /-- The tree sizes at the end of `durableTip`. -/
  treeSizes : TreeSizes := default
  deriving DecidableEq

/-- Why an index operation failed. A failure of LMDB itself is not an error
    value here: it is a call that changes nothing. -/
inductive IndexError where
  | codec (error : CodecError)
  | identity
  | metadata
  | staleBatch (batchGeneration : Nat)
  | incompleteRange (start : Nat)
  | continuity (height : Nat)
  | hashIndex (height : Nat)
  | generation (expected actual : Nat)
  | coverage (height : Nat)
  | overflow
  | sealed (height : Nat)
  | replacement (height : Nat)
  | rangeMeta (start : Nat)
  | rangeEndHash (start : Nat)
  | rangeStart (height : Nat)
  | rangeOrder (start next : Nat)
  | rangeBlob (height : Nat)
  | duplicateHash (height : Nat)
  | mutableRows
  | blob (start : Nat) (mismatch : BlobMismatch)
  deriving DecidableEq

/-- The height or the error of an overflow. -/
def checkedHeight (height : Nat) : Except IndexError Nat :=
  if height < 2 ^ 32 then .ok height else .error .overflow

@[simp] theorem checkedHeight_eq_ok {height h : Nat} :
    checkedHeight height = .ok h ↔ height < 2 ^ 32 ∧ height = h := by
  unfold checkedHeight
  split <;> simp_all

namespace IndexState

/-- The number of blocks in the sealed ranges. -/
def sealedEnd (st : IndexState) : Nat := st.sealedThrough.elim 0 (· + 1)

theorem sealedThrough_eq_some_iff {st : IndexState} {through : Nat} :
    st.sealedThrough = some through ↔ st.sealedEnd = through + 1 := by
  cases h : st.sealedThrough <;> simp [sealedEnd, h]

theorem sealedThrough_eq_none_iff {st : IndexState} :
    st.sealedThrough = none ↔ st.sealedEnd = 0 := by
  cases h : st.sealedThrough <;> simp [sealedEnd, h]

/-- The height above the durable tip, or 0; `none` if the height overflows. -/
def nextHeight (st : IndexState) : Option Nat :=
  match st.durableTip with
  | none => some 0
  | some tip => if tip.height + 1 < 2 ^ 32 then some (tip.height + 1) else none

/-- The first height of the next range to seal. -/
def nextRangeStart (st : IndexState) : Except IndexError Nat := checkedHeight st.sealedEnd

/-- The first height of the next range to verify. -/
def nextVerifyStart (st : IndexState) : Except IndexError Nat :=
  checkedHeight (st.verifiedThrough.elim 0 (· + 1))

/-- The hash that the first block of an installed range links to. -/
def installParentHash (st : IndexState) : Hash :=
  st.durableTip.elim genesisPreviousBlockHash (·.hash)

/-- The index has mutable rows: its tip is not the last sealed block. -/
def hasMutableRows (st : IndexState) : Prop :=
  st.durableTip.map (·.height) ≠ st.sealedThrough

instance (st : IndexState) : Decidable st.hasMutableRows := by
  unfold hasMutableRows; infer_instance

/-- The state with its durable tip at `tip`, and `treeSizes` at that tip. -/
def withDurableTip (st : IndexState) (tip : BlockId) (treeSizes : TreeSizes) : IndexState :=
  { st with durableTip := some tip, treeSizes := treeSizes }

end IndexState

/-! ## The state row -/

def stateV1 : Byte := 1
def stateV2 : Byte := 2

/-- The fields of the state row, in their order. -/
def stateFields (tip : BlockId) (st : IndexState) : List Bytes :=
  [ [if st.verifiedThrough.isSome then stateV2 else stateV1],
    beBytes 4 tip.height,
    tip.hash.val,
    [if st.sealedThrough.isSome then 1 else 0],
    beBytes 4 (st.sealedThrough.getD 0),
    beBytes 8 st.generation,
    beBytes 4 st.treeSizes.sapling.val,
    beBytes 4 st.treeSizes.orchard.val,
    beBytes 4 st.treeSizes.ironwood.val,
    -- version 2 only
    st.verifiedThrough.elim [] fun _ => [1],
    st.verifiedThrough.elim [] fun verified => beBytes 4 verified ]

def encodeState (tip : BlockId) (st : IndexState) : Bytes := (stateFields tip st).flatten

/-- A height is the last height of a range. -/
def IsRangeEnd (height : Nat) : Prop := height % rangeSize = rangeSize - 1

instance (height : Nat) : Decidable (IsRangeEnd height) := by
  unfold IsRangeEnd; infer_instance

/-- The `len` bytes at `start` of a state row. -/
def stateField (bytes : Bytes) (start len : Nat) : Bytes := (bytes.drop start).take len

/-- The length of a row of the version of `bytes`. -/
def stateLen (bytes : Bytes) : Except IndexError Nat :=
  if bytes.head? = some stateV1 then .ok 62
  else if bytes.head? = some stateV2 then .ok 67
  else .error .metadata

/-- The verified height of a row; a row of version 1 has none. -/
def stateVerified (bytes : Bytes) : Except IndexError (Option Nat) :=
  let flag := stateField bytes 62 1
  if flag = [] ∨ flag = [0] then .ok none
  else if flag = [1] then .ok (some (beNat (stateField bytes 63 4)))
  else .error .metadata

def decodeState (bytes : Bytes) : Except IndexError IndexState := do
  let expectedLen ← stateLen bytes
  let sealedFlag := stateField bytes 37 1
  ensure (bytes.length = expectedLen ∧ (sealedFlag = [0] ∨ sealedFlag = [1])) .metadata
  let hash ← okOr (ByteVec.ofBytes? 32 (stateField bytes 5 32)) .metadata
  let tip : BlockId := ⟨beNat (stateField bytes 1 4), hash⟩
  let sealedThrough := if sealedFlag = [1] then some (beNat (stateField bytes 38 4)) else none
  ensure (∀ through ∈ sealedThrough, through ≤ tip.height ∧ IsRangeEnd through) .metadata
  let verifiedThrough ← stateVerified bytes
  ensure (∀ verified ∈ verifiedThrough,
    (∃ through ∈ sealedThrough, verified ≤ through) ∧ IsRangeEnd verified) .metadata
  let size (start : Nat) : U32 := Fin.ofNat _ (beNat (stateField bytes start 4))
  return { durableTip := some tip, sealedThrough, verifiedThrough,
           generation := beNat (stateField bytes 42 8), treeSizes := ⟨size 50, size 54, size 58⟩ }

/-- A state whose row is read back: its numbers fit their widths, and its sealed
    and verified heights are range ends in order. -/
structure IndexState.Consistent (tip : BlockId) (st : IndexState) : Prop where
  durableTip : st.durableTip = some tip
  tip_lt : tip.height < 2 ^ 32
  generation_lt : st.generation < 2 ^ 64
  sealed : ∀ through ∈ st.sealedThrough, through ≤ tip.height ∧ IsRangeEnd through
  verified : ∀ verified ∈ st.verifiedThrough,
    (∃ through ∈ st.sealedThrough, verified ≤ through) ∧ IsRangeEnd verified

theorem stateField_encodeState {tip : BlockId} {st : IndexState} {i start len : Nat}
    {field : Bytes} (hi : (stateFields tip st)[i]? = some field)
    (hstart : ((stateFields tip st).take i).flatten.length = start) (hlen : field.length = len) :
    stateField (encodeState tip st) start len = field :=
  Packed.take_drop_flatten hi hstart hlen

theorem encodeState_length (tip : BlockId) (st : IndexState) :
    (encodeState tip st).length = if st.verifiedThrough.isSome then 67 else 62 := by
  cases h : st.verifiedThrough <;> simp [encodeState, stateFields, h]

/-- The flag of the verified height and the height, if the row has them. -/
theorem verifiedField_encodeState (tip : BlockId) (st : IndexState) :
    stateField (encodeState tip st) 62 1 = st.verifiedThrough.elim [] (fun _ => [1]) ∧
    ∀ verified ∈ st.verifiedThrough,
      stateField (encodeState tip st) 63 4 = beBytes 4 verified := by
  have hlen := encodeState_length tip st
  cases h : st.verifiedThrough with
  | none =>
    simp only [h, Option.isSome_none, Bool.false_eq_true, if_false] at hlen
    simp [stateField, List.drop_eq_nil_of_le (Nat.le_of_eq hlen)]
  | some verified =>
    have hflag : stateField (encodeState tip st) 62 1 = [1] :=
      stateField_encodeState (i := 9) (by simp [stateFields, h]) (by simp [stateFields]) rfl
    have hheight : stateField (encodeState tip st) 63 4 = beBytes 4 verified :=
      stateField_encodeState (i := 10) (by simp [stateFields, h]) (by simp [stateFields, h])
        (by simp)
    simp [hflag, hheight]

theorem decodeState_encodeState {tip : BlockId} {st : IndexState} (h : st.Consistent tip) :
    decodeState (encodeState tip st) = .ok st := by
  have hhead : (encodeState tip st).head? =
      some (if st.verifiedThrough.isSome then stateV2 else stateV1) := by
    simp [encodeState, stateFields]
  have hlen := encodeState_length tip st
  have htip : stateField (encodeState tip st) 1 4 = beBytes 4 tip.height :=
    stateField_encodeState (i := 1) rfl (by simp [stateFields]) (by simp)
  have hhash : stateField (encodeState tip st) 5 32 = tip.hash.val :=
    stateField_encodeState (i := 2) rfl (by simp [stateFields]) (by simp)
  have hflag : stateField (encodeState tip st) 37 1 =
      [if st.sealedThrough.isSome then 1 else 0] :=
    stateField_encodeState (i := 3) rfl (by simp [stateFields]) rfl
  have hsealed : stateField (encodeState tip st) 38 4 = beBytes 4 (st.sealedThrough.getD 0) :=
    stateField_encodeState (i := 4) rfl (by simp [stateFields]) (by simp)
  have hgen : stateField (encodeState tip st) 42 8 = beBytes 8 st.generation :=
    stateField_encodeState (i := 5) rfl (by simp [stateFields]) (by simp)
  have hsapling : stateField (encodeState tip st) 50 4 = beBytes 4 st.treeSizes.sapling.val :=
    stateField_encodeState (i := 6) rfl (by simp [stateFields]) (by simp)
  have horchard : stateField (encodeState tip st) 54 4 = beBytes 4 st.treeSizes.orchard.val :=
    stateField_encodeState (i := 7) rfl (by simp [stateFields]) (by simp)
  have hironwood : stateField (encodeState tip st) 58 4 = beBytes 4 st.treeSizes.ironwood.val :=
    stateField_encodeState (i := 8) rfl (by simp [stateFields]) (by simp)
  obtain ⟨hvflag, hverified⟩ := verifiedField_encodeState tip st
  -- the numbers fit their fields
  have hsealedLt : st.sealedThrough.getD 0 < 2 ^ 32 := by
    cases hs : st.sealedThrough with
    | none => simp
    | some through =>
      have := (h.sealed through (by simp [hs])).1
      have := h.tip_lt
      simp only [Option.getD_some]
      omega
  have hsealedThrough : (if [if st.sealedThrough.isSome then (1 : Byte) else 0] = [1] then
      some (st.sealedThrough.getD 0) else none) = st.sealedThrough := by
    cases st.sealedThrough <;> simp
  have hword : ∀ a : U32, Fin.ofNat 4294967296 (beNat (beBytes 4 a.val)) = a := by
    intro a
    rw [beNat_beBytes 4 a.val a.isLt]
    simp
  have hexpected : stateLen (encodeState tip st) = .ok (encodeState tip st).length := by
    rw [stateLen, hhead, hlen]
    cases st.verifiedThrough <;> simp [stateV1, stateV2]
  have hverifiedThrough : stateVerified (encodeState tip st) = .ok st.verifiedThrough := by
    rw [stateVerified, hvflag]
    cases hv : st.verifiedThrough with
    | none => simp
    | some verified =>
      obtain ⟨through, hthrough, hle⟩ := (h.verified verified (by simp [hv])).1
      have hlt : verified < 2 ^ 32 := by
        have := (h.sealed through hthrough).1
        have := h.tip_lt
        omega
      rw [hverified verified (by simp [hv]), beNat_beBytes 4 verified hlt]
      simp
  simp only [decodeState, bind_eq_ok, ensure_eq_ok, okOr_eq_ok, pure_eq_ok, Except.ok.injEq]
  refine ⟨_, hexpected, (), ⟨rfl, ?_⟩, tip.hash, by rw [hhash]; simp, (), ?_, _, hverifiedThrough,
    (), ?_, ?_⟩
  · rw [hflag]
    cases st.sealedThrough <;> simp
  · rw [hflag, hsealed, htip, beNat_beBytes 4 _ hsealedLt, hsealedThrough,
      beNat_beBytes 4 _ h.tip_lt]
    exact h.sealed
  · rw [hflag, hsealed, beNat_beBytes 4 _ hsealedLt, hsealedThrough]
    exact h.verified
  · rw [hflag, hsealed, htip, hgen, hsapling, horchard, hironwood, beNat_beBytes 4 _ hsealedLt,
      hsealedThrough, beNat_beBytes 4 _ h.tip_lt, beNat_beBytes 8 _ h.generation_lt, hword, hword,
      hword]
    cases st
    simp only [IndexState.mk.injEq, and_true]
    exact h.durableTip.symm

end Ztreamer
