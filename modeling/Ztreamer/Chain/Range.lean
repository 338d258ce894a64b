import Mathlib.Data.List.Chain
import Ztreamer.Chain.Codec
import Ztreamer.Lib.Packed

/-! # Packed ranges

    A sealed range stores `rangeSize` consecutive records in one blob: an
    envelope with the first and the last height, the previous hash of the first
    record and the hash of the last, an offset table, and the framed records.

    * `writeRange`: checks the records and writes the blob,
    * `RangeDecoder`: reads single records from a blob,
    * `RangeDecoder.recordAs_encodeRange`: a written blob gives back every record.
-/

namespace Ztreamer

open Octets Result Packed

/-- The format version of the packed range blobs. -/
def rangeFormatVersion : Byte := 1

/-! ## Writing a range -/

/-- The identity of a record. -/
structure RecordId where
  height : U32
  hash : Hash
  previousHash : Hash
  deriving DecidableEq

/-- A record that `writeRange` can put into a range. -/
class RangeRecord (R : Type) where
  id : R → Except CodecError RecordId
  /-- The record encoding. -/
  writeTo : R → Except CodecError Bytes

def CompactBlockRecord.recordId (r : CompactBlockRecord) : RecordId :=
  ⟨r.height, r.hash, r.previousHash⟩

instance : RangeRecord CompactBlockRecord where
  id r := .ok r.recordId
  writeTo := CompactBlockRecord.encode

/-- The bytes of a mutable row are already the record encoding. -/
instance : RangeRecord Bytes where
  id bytes := do
    let (height, hash, previousHash, _) ← protobufEnvelope bytes
    return ⟨height, hash, previousHash⟩
  writeTo bytes := .ok bytes

section

variable {R : Type} [RangeRecord R]

/-- The next record must have the next height and point to the last hash. -/
def linkRecord (last : U32 × Hash) (record : R) : Except CodecError (U32 × Hash) := do
  let id ← RangeRecord.id record
  ensure (last.1.val + 1 = id.height.val ∧ id.previousHash = last.2) .invalidRange
  return (id.height, id.hash)

/-- Writes the records from the body position `offset` on: their positions with
    the end of the body, and their frames. -/
def writeBody (offset : Nat) : List R → Except CodecError (List Nat × Bytes)
  | [] => do
    ensure (offset < 2 ^ 32) .length
    return ([offset], [])
  | record :: records => do
    ensure (offset < 2 ^ 32) .length
    let bytes ← RangeRecord.writeTo record
    ensure (bytes.length < 2 ^ 32) .length
    let (offsets, body) ← writeBody (offset + (frame bytes).length) records
    return (offset :: offsets, frame bytes ++ body)

/-- The bytes of a range before its body. -/
def rangeEnvelope (first last : U32) (firstPreviousHash terminalHash : Hash)
    (offsets : Bytes) : Bytes :=
  rangeFormatVersion :: (beBytes 4 first.val ++ beBytes 4 last.val ++ firstPreviousHash.val ++
    terminalHash.val ++ offsets)

/-- Checks that `records` are one aligned range with a correct hash chain, and
    writes the envelope, the offset table and the records. -/
def writeRange (records : List R) : Except CodecError Bytes := do
  ensure (records.length = rangeSize) .invalidRange
  match records with
  | [] => throw .invalidRange
  | first :: rest =>
    let id ← RangeRecord.id first
    ensure (id.height.val % rangeSize = 0) .invalidRange
    let (lastHeight, lastHash) ← rest.foldlM linkRecord (id.height, id.hash)
    let (offsets, body) ← writeBody 0 records
    return rangeEnvelope id.height lastHeight id.previousHash lastHash (table offsets) ++ body

end

def encodeRange (records : List CompactBlockRecord) : Except CodecError Bytes :=
  writeRange records

/-- Puts encoded records into a range. Only the envelope of each record is read. -/
def encodeRangeFromBytes (parts : List Bytes) : Except CodecError Bytes :=
  writeRange parts

/-! ## Reading a range -/

/-- A range whose envelope and offset table have been read. -/
structure RangeDecoder where
  start : U32
  firstPreviousHash : Hash
  terminalHash : Hash
  offsets : Bytes
  body : Bytes
  deriving DecidableEq

namespace RangeDecoder

/-- The position in the body where record `index` starts. -/
def offset (d : RangeDecoder) (index : Nat) : Nat := tableEntry d.offsets index

def new (bytes : Bytes) : Except CodecError RangeDecoder := do
  let (version, bytes) ← Reader.u8 bytes
  ensure (version = rangeFormatVersion) (.version .range version)
  let (start, bytes) ← Reader.u32 bytes
  let (stop, bytes) ← Reader.u32 bytes
  let (firstPreviousHash, bytes) ← Reader.array 32 bytes
  let (terminalHash, bytes) ← Reader.array 32 bytes
  ensure (start.val % rangeSize = 0 ∧ start.val + (rangeSize - 1) = stop.val) .invalidRange
  let (offsets, body) ← Reader.take (4 * (rangeSize + 1)) bytes
  let decoder : RangeDecoder := { start, firstPreviousHash, terminalHash, offsets, body }
  ensure (decoder.offset 0 = 0 ∧ decoder.offset rangeSize = body.length ∧
    ∀ index < rangeSize, decoder.offset index ≤ decoder.offset (index + 1)) .length
  return decoder

/-- The record at `index` of the range, as `α`. -/
def recordAs (α : Type) [StoredBlock α] (d : RangeDecoder) (index : Nat) :
    Except CodecError α := do
  ensure (index < rangeSize) .rangeIndex
  let envelope ← okOr (slice d.body (d.offset index) (d.offset (index + 1))) .length
  let (recordLen, envelope) ← Reader.count envelope
  let (bytes, envelope) ← Reader.take recordLen envelope
  let record : α ← StoredBlock.decode bytes
  Reader.finish envelope
  ensure (d.start.val + index = (StoredBlock.height record).val ∧
    (index = 0 → StoredBlock.previousHash record = d.firstPreviousHash) ∧
    (index + 1 = rangeSize → StoredBlock.hash record = d.terminalHash)) .invalidRange
  return record

def record [Proto.Prost] (d : RangeDecoder) (index : Nat) : Except CodecError CompactBlockRecord :=
  d.recordAs CompactBlockRecord index

/-- The record at `index` of the packed range `bytes`. -/
def decodeRangeRecord [Proto.Prost] (bytes : Bytes) (index : Nat) :
    Except CodecError CompactBlockRecord := do
  let decoder ← new bytes
  decoder.record index

/-- `bytes` is the stored record at `index`. -/
def Stores (d : RangeDecoder) (index : Nat) (bytes : Bytes) : Prop :=
  slice d.body (d.offset index) (d.offset (index + 1)) = some (frame bytes) ∧
    bytes.length < 2 ^ 32

variable {d : RangeDecoder} {bytes : Bytes}

theorem Stores.unique {index : Nat} {bytes' : Bytes} (h : d.Stores index bytes)
    (h' : d.Stores index bytes') : bytes = bytes' := by
  have heq : frame bytes = frame bytes' := by
    have := h.1.symm.trans h'.1
    simpa using this
  have hdrop := congrArg (List.drop 4) heq
  rwa [frame, frame, List.drop_left' (by simp), List.drop_left' (by simp)] at hdrop

theorem new_eq_ok :
    new bytes = .ok d ↔
      d.start.val % rangeSize = 0 ∧
      (∃ stop : U32, d.start.val + (rangeSize - 1) = stop.val ∧
        bytes = rangeEnvelope d.start stop d.firstPreviousHash d.terminalHash d.offsets ++ d.body) ∧
      d.offsets.length = 4 * (rangeSize + 1) ∧
      d.offset 0 = 0 ∧ d.offset rangeSize = d.body.length ∧
      ∀ index < rangeSize, d.offset index ≤ d.offset (index + 1) := by
  simp only [new, bind_eq_ok, Prod.exists, ensure_eq_ok, Reader.u8_eq_ok, Reader.u32_eq_ok,
    Reader.array_eq_ok, Reader.take_eq_ok, pure_eq_ok, Except.ok.injEq]
  constructor
  · rintro ⟨_, _, rfl, _, rfl, start, _, rfl, stop, _, rfl, _, _, rfl, _, _, rfl, _,
      ⟨halign, hstop⟩, offsets, body, ⟨rfl, hlen⟩, _, ⟨h0, h1, hmono⟩, rfl⟩
    refine ⟨halign, ⟨stop, hstop, ?_⟩, hlen, h0, h1, hmono⟩
    simp [rangeEnvelope]
  · rintro ⟨halign, ⟨stop, hstop, rfl⟩, hlen, h0, h1, hmono⟩
    refine ⟨_, _, rfl, (), rfl, d.start, _, ?_, stop, _, rfl, d.firstPreviousHash, _, rfl,
      d.terminalHash, _, rfl, (), ⟨halign, hstop⟩, d.offsets, d.body, ⟨rfl, hlen⟩, (),
      ⟨h0, h1, hmono⟩, rfl⟩
    simp

/-- The last offset has four bytes, so the length of a range fits a `u64`. -/
theorem length_of_new (h : new bytes = .ok d) : bytes.length < 2 ^ 64 := by
  obtain ⟨-, ⟨stop, -, rfl⟩, hoffsets, -, hbody, -⟩ := new_eq_ok.mp h
  have hlt : d.offset rangeSize < 256 ^ 4 := by
    refine (beNat_lt _).trans_le (Nat.pow_le_pow_right (by decide) ?_)
    simp
  simp only [rangeEnvelope, List.length_append, List.length_cons, beBytes_length,
    ByteVec.val_length, hoffsets, ← hbody, rangeSize] at hlt ⊢
  omega

theorem recordAs_eq_ok {α : Type} [StoredBlock α] {index : Nat} {a : α} :
    d.recordAs α index = .ok a ↔
      index < rangeSize ∧ (∃ bytes, d.Stores index bytes ∧ StoredBlock.decode bytes = .ok a) ∧
      d.start.val + index = (StoredBlock.height a).val ∧
      (index = 0 → StoredBlock.previousHash a = d.firstPreviousHash) ∧
      (index + 1 = rangeSize → StoredBlock.hash a = d.terminalHash) := by
  simp only [recordAs, bind_eq_ok, Prod.exists, ensure_eq_ok, okOr_eq_ok, Reader.count_eq_ok,
    Reader.take_eq_ok, Reader.finish_eq_ok, pure_eq_ok, Except.ok.injEq]
  constructor
  · rintro ⟨-, hindex, _, hslice, _, _, ⟨hlen, rfl⟩, bytes, _, ⟨rfl, rfl⟩, _, hdecode, -, rfl, -,
      hchecks, rfl⟩
    rw [List.append_nil] at hslice
    exact ⟨hindex, ⟨bytes, ⟨hslice, hlen⟩, hdecode⟩, hchecks⟩
  · rintro ⟨hindex, ⟨bytes, ⟨hslice, hlen⟩, hdecode⟩, hchecks⟩
    exact ⟨(), hindex, _, hslice, _, bytes, ⟨hlen, rfl⟩, bytes, [], ⟨by simp, rfl⟩, a, hdecode, (),
      rfl, (), hchecks, rfl⟩

end RangeDecoder

/-! ## A written range is read back -/

/-- The record `b` is the child of the record `a`. -/
def RecordId.Follows (a b : RecordId) : Prop :=
  a.height.val + 1 = b.height.val ∧ b.previousHash = a.hash

section

variable {R : Type} [RangeRecord R]

/-- The records have the identities `ids`. -/
def HaveIds (records : List R) (ids : List RecordId) : Prop :=
  List.Forall₂ (fun r id => RangeRecord.id r = .ok id) records ids

/-- The records are written as `parts`. -/
def HaveParts (records : List R) (parts : List Bytes) : Prop :=
  List.Forall₂ (fun r part => RangeRecord.writeTo r = .ok part) records parts

variable {records : List R} {first : RecordId} {blob : Bytes}

theorem foldlM_linkRecord_eq_ok {last : U32 × Hash} :
    records.foldlM linkRecord (first.height, first.hash) = .ok last ↔
      ∃ ids, HaveIds records ids ∧ (first :: ids).IsChain RecordId.Follows ∧
        last = (((first :: ids).getLast (by simp)).height,
          ((first :: ids).getLast (by simp)).hash) := by
  induction records generalizing first with
  | nil =>
    simp only [List.foldlM_nil, pure_eq_ok, Except.ok.injEq, HaveIds, List.forall₂_nil_left_iff]
    constructor
    · rintro rfl
      exact ⟨[], rfl, by simp, rfl⟩
    · rintro ⟨_, rfl, -, rfl⟩
      rfl
  | cons r records ih =>
    rw [List.foldlM_cons, bind_eq_ok]
    constructor
    · rintro ⟨next, hnext, h⟩
      simp only [linkRecord, bind_eq_ok, ensure_eq_ok, pure_eq_ok, Except.ok.injEq] at hnext
      obtain ⟨id, hid, -, hfollows, rfl⟩ := hnext
      obtain ⟨ids, hids, hchain, rfl⟩ := ih.mp h
      refine ⟨id :: ids, .cons hid hids, List.isChain_cons_cons.mpr ⟨hfollows, hchain⟩, ?_⟩
      simp only [List.getLast_cons_cons]
    · rintro ⟨_, hids, hchain, rfl⟩
      cases hids with
      | @cons _ id _ ids hid hids =>
        obtain ⟨hfollows, hchain⟩ := List.isChain_cons_cons.mp hchain
        refine ⟨(id.height, id.hash), ?_, ih.mpr ⟨ids, hids, hchain, ?_⟩⟩
        · simp only [linkRecord, bind_eq_ok, ensure_eq_ok, pure_eq_ok]
          exact ⟨id, hid, (), hfollows, rfl⟩
        · simp only [List.getLast_cons_cons]

theorem writeBody_eq_ok {offset : Nat} {offsets : List Nat} {body : Bytes} :
    writeBody offset records = .ok (offsets, body) ↔
      ∃ parts, HaveParts records parts ∧ (∀ part ∈ parts, part.length < 2 ^ 32) ∧
        (∀ n ∈ frameOffsets offset parts, n < 2 ^ 32) ∧
        offsets = frameOffsets offset parts ∧ body = frames parts := by
  induction records generalizing offset offsets body with
  | nil =>
    simp only [writeBody, bind_eq_ok, ensure_eq_ok, pure_eq_ok, Except.ok.injEq, Prod.mk.injEq,
      HaveParts, List.forall₂_nil_left_iff]
    constructor
    · rintro ⟨-, hoffset, rfl, rfl⟩
      exact ⟨[], rfl, by simp, by simpa [frameOffsets] using hoffset, rfl, rfl⟩
    · rintro ⟨_, rfl, -, hoffset, rfl, rfl⟩
      exact ⟨(), by simpa [frameOffsets] using hoffset, rfl, rfl⟩
  | cons r records ih =>
    simp only [writeBody, bind_eq_ok, ensure_eq_ok, pure_eq_ok, Except.ok.injEq, Prod.mk.injEq,
      Prod.exists, ih]
    constructor
    · rintro ⟨-, hoffset, part, hpart, -, hlen, _, _, ⟨parts, hparts, hlens, hoffsets, rfl, rfl⟩,
        rfl, rfl⟩
      exact ⟨part :: parts, .cons hpart hparts, by simpa using ⟨hlen, hlens⟩,
        by simpa [frameOffsets] using ⟨hoffset, by simpa using hoffsets⟩, rfl, rfl⟩
    · rintro ⟨_, hparts, hlens, hoffsets, rfl, rfl⟩
      cases hparts with
      | @cons _ part _ parts hpart hparts =>
        simp only [frameOffsets, List.forall_mem_cons] at hlens hoffsets
        exact ⟨(), hoffsets.1, part, hpart, (), hlens.1, _, _,
          ⟨parts, hparts, hlens.2, hoffsets.2, rfl, rfl⟩, rfl, rfl⟩

/-- What `writeRange` checks and what it writes. -/
theorem writeRange_eq_ok :
    writeRange records = .ok blob ↔
      ∃ first ids parts, records.length = rangeSize ∧ HaveIds records (first :: ids) ∧
        (first :: ids).IsChain RecordId.Follows ∧ first.height.val % rangeSize = 0 ∧
        HaveParts records parts ∧ (∀ part ∈ parts, part.length < 2 ^ 32) ∧
        (∀ n ∈ frameOffsets 0 parts, n < 2 ^ 32) ∧
        blob = rangeEnvelope first.height ((first :: ids).getLast (by simp)).height
          first.previousHash ((first :: ids).getLast (by simp)).hash
          (table (frameOffsets 0 parts)) ++ frames parts := by
  cases records with
  | nil => simp [writeRange, rangeSize, ensure]
  | cons r records =>
    simp only [writeRange, bind_eq_ok, ensure_eq_ok, pure_eq_ok, Except.ok.injEq, Prod.exists]
    constructor
    · rintro ⟨-, hlen, first, hid, -, halign, lastHeight, lastHash, hfold, offsets, body, hbody,
        rfl⟩
      obtain ⟨ids, hids, hchain, hlast⟩ := foldlM_linkRecord_eq_ok.mp hfold
      obtain ⟨parts, hparts, hlens, hoffsets, rfl, rfl⟩ := writeBody_eq_ok.mp hbody
      obtain ⟨rfl, rfl⟩ := Prod.mk.inj hlast
      exact ⟨first, ids, parts, hlen, .cons hid hids, hchain, halign, hparts, hlens, hoffsets, rfl⟩
    · rintro ⟨first, ids, parts, hlen, hids, hchain, halign, hparts, hlens, hoffsets, rfl⟩
      cases hids with
      | cons hid hids =>
        exact ⟨(), hlen, first, hid, (), halign, _, _,
          foldlM_linkRecord_eq_ok.mpr ⟨ids, hids, hchain, rfl⟩, _, _,
          writeBody_eq_ok.mpr ⟨parts, hparts, hlens, hoffsets, rfl, rfl⟩, rfl⟩

theorem RecordId.height_of_isChain {ids : List RecordId} (h : (first :: ids).IsChain Follows)
    {i : Nat} {id : RecordId} (hi : (first :: ids)[i]? = some id) :
    id.height.val = first.height.val + i := by
  induction ids generalizing first i with
  | nil =>
    cases i with
    | zero => cases hi; rfl
    | succ i => simp at hi
  | cons next ids ih =>
    obtain ⟨hfollows, hchain⟩ := List.isChain_cons_cons.mp h
    cases i with
    | zero => cases hi; rfl
    | succ i =>
      have := ih hchain (by simpa using hi)
      have := hfollows.1
      omega

/-- The decoder of a written blob has its hashes and stores its parts. -/
theorem RangeDecoder.new_writeRange (h : writeRange records = .ok blob) :
    ∃ first ids parts d, HaveIds records (first :: ids) ∧ HaveParts records parts ∧
      (first :: ids).IsChain RecordId.Follows ∧ RangeDecoder.new blob = .ok d ∧
      d.start = first.height ∧ d.firstPreviousHash = first.previousHash ∧
      d.terminalHash = ((first :: ids).getLast (by simp)).hash ∧
      ∀ i part, parts[i]? = some part → d.Stores i part := by
  obtain ⟨first, ids, parts, hlen, hids, hchain, halign, hparts, hlens, hoffsets, rfl⟩ :=
    writeRange_eq_ok.mp h
  have hidsLen : (first :: ids).length = rangeSize := hids.length_eq.symm.trans hlen
  have hpartsLen : parts.length = rangeSize := hparts.length_eq.symm.trans hlen
  let d : RangeDecoder :=
    { start := first.height
      firstPreviousHash := first.previousHash
      terminalHash := ((first :: ids).getLast (by simp)).hash
      offsets := table (frameOffsets 0 parts)
      body := frames parts }
  have hoffset : ∀ i ≤ rangeSize, d.offset i = (frames (parts.take i)).length := by
    intro i hi
    have hget := frameOffsets_getElem? 0 parts (hpartsLen ▸ hi)
    rw [Nat.zero_add] at hget
    exact tableEntry_table hget (hoffsets _ (List.mem_of_getElem? hget))
  refine ⟨first, ids, parts, d, hids, hparts, hchain, ?_, rfl, rfl, rfl, ?_⟩
  · refine RangeDecoder.new_eq_ok.mpr ⟨halign, ⟨_, ?_, rfl⟩, ?_, ?_, ?_, ?_⟩
    · have hlast : (first :: ids)[rangeSize - 1]? = some ((first :: ids).getLast (by simp)) := by
        rw [← hidsLen, ← List.getLast?_eq_getElem?, List.getLast?_eq_some_getLast]
      exact (RecordId.height_of_isChain hchain hlast).symm
    · rw [table_length, frameOffsets_length, hpartsLen]
    · rw [hoffset 0 (by simp [rangeSize])]; rfl
    · rw [hoffset rangeSize le_rfl, ← hpartsLen, List.take_length]
    · intro i hi
      rw [hoffset i (by omega), hoffset (i + 1) (by omega), List.take_add_one, frames_append]
      simp
  · intro i part hpart
    have hi : i < rangeSize := hpartsLen ▸ (List.getElem?_eq_some_iff.mp hpart).1
    refine ⟨?_, hlens part (List.mem_of_getElem? hpart)⟩
    rw [hoffset i (by omega), hoffset (i + 1) (by omega)]
    exact slice_frames hpart

end

/-! ### Records and their encodings -/

section

variable {R R' : Type} [RangeRecord R] [RangeRecord R']

/-- Two records that are the same to `writeRange`. -/
def SameRecord (a : R) (b : R') : Prop :=
  RangeRecord.id a = RangeRecord.id b ∧ RangeRecord.writeTo a = RangeRecord.writeTo b

theorem foldlM_linkRecord_congr {as : List R} {bs : List R'} (h : List.Forall₂ SameRecord as bs)
    (last : U32 × Hash) : as.foldlM linkRecord last = bs.foldlM linkRecord last := by
  induction h generalizing last with
  | nil => rfl
  | cons hab _ ih => simp only [List.foldlM_cons, linkRecord, hab.1, ih]

theorem writeBody_congr {as : List R} {bs : List R'} (h : List.Forall₂ SameRecord as bs)
    (offset : Nat) : writeBody offset as = writeBody offset bs := by
  induction h generalizing offset with
  | nil => rfl
  | cons hab _ ih => simp only [writeBody, hab.2, ih]

theorem writeRange_congr {as : List R} {bs : List R'} (h : List.Forall₂ SameRecord as bs) :
    writeRange as = writeRange bs := by
  cases h with
  | nil => rfl
  | cons hab hrest =>
    have hlen := hrest.length_eq
    have hbody := writeBody_congr (.cons hab hrest) 0
    simp only [writeRange, List.length_cons, hlen, hab.1, hbody, foldlM_linkRecord_congr hrest]

end

theorem RangeRecord.id_bytes_eq_ok {bytes : Bytes} {id : RecordId} :
    RangeRecord.id bytes = .ok id ↔
      ∃ payload, protobufEnvelope bytes = .ok (id.height, id.hash, id.previousHash, payload) := by
  simp only [RangeRecord.id, bind_eq_ok, Prod.exists, pure_eq_ok, Except.ok.injEq]
  constructor
  · rintro ⟨_, _, _, payload, h, rfl⟩
    exact ⟨payload, h⟩
  · rintro ⟨payload, h⟩
    exact ⟨_, _, _, payload, h, rfl⟩

/-- `b` is the child of `a`: it has the next height and links to its hash. -/
def CompactBlockRecord.Precedes (a b : CompactBlockRecord) : Prop :=
  a.height.val + 1 = b.height.val ∧ b.previousHash = a.hash

instance : DecidableRel CompactBlockRecord.Precedes := fun a b => by
  unfold CompactBlockRecord.Precedes; infer_instance

/-- The records are stored as `parts`. -/
def StoredAs (records : List CompactBlockRecord) (parts : List Bytes) : Prop :=
  List.Forall₂ (fun r part => r.encode = .ok part) records parts

variable {records : List CompactBlockRecord} {parts : List Bytes}

/-- A range of records is the range of their encodings. -/
theorem StoredAs.encodeRange_eq (h : StoredAs records parts) :
    encodeRange records = encodeRangeFromBytes parts := by
  refine writeRange_congr (h.imp fun r part hpart => ⟨?_, hpart⟩)
  have hid : RangeRecord.id part = .ok r.recordId :=
    RangeRecord.id_bytes_eq_ok.mpr ⟨_, CompactBlockRecord.protobufEnvelope_encode hpart⟩
  rw [hid]
  rfl

theorem haveParts_bytes {parts' : List Bytes} : HaveParts parts parts' ↔ parts = parts' := by
  simp [HaveParts, RangeRecord.writeTo]

/-- A range of encoded records in height order, each linked to the one before it,
    is written. -/
theorem encodeRangeFromBytes_isOk {first : RecordId} {ids : List RecordId}
    (hlen : parts.length = rangeSize) (hids : HaveIds parts (first :: ids))
    (hchain : (first :: ids).IsChain RecordId.Follows) (halign : first.height.val % rangeSize = 0) :
    ∃ blob, encodeRangeFromBytes parts = .ok blob := by
  have hle : ∀ part ∈ parts, part.length ≤ maxRecordBytes := by
    intro part hpart
    obtain ⟨i, hi⟩ := List.mem_iff_getElem?.mp hpart
    obtain ⟨id, -, hid⟩ := forall₂_getElem? hids hi
    obtain ⟨payload, henv⟩ := RangeRecord.id_bytes_eq_ok.mp hid
    exact (protobufEnvelope_eq_ok.mp henv).1
  have hoffsets := @frameOffsets_le 0 maxRecordBytes parts hle
  rw [hlen] at hoffsets
  refine ⟨_, writeRange_eq_ok.mpr ⟨first, ids, parts, hlen, hids, hchain, halign,
    haveParts_bytes.mpr rfl, ?_, ?_, rfl⟩⟩
  · intro part hpart
    have := hle part hpart
    simp only [maxRecordBytes] at this
    omega
  · intro n hn
    have := hoffsets n hn
    simp only [maxRecordBytes, rangeSize] at this
    omega

section

variable [Proto.Prost] (α : Type) [StoredBlock α] [LawfulStoredBlock α]

/-- A blob of encoded records stores the records, and gives each back in each view. -/
theorem RangeDecoder.recordAs_encodeRangeFromBytes {parts : List Bytes} {blob : Bytes}
    (h : encodeRangeFromBytes parts = .ok blob) :
    ∃ d, RangeDecoder.new blob = .ok d ∧ ∀ i part, parts[i]? = some part →
      d.Stores i part ∧ ∀ a : α, StoredBlock.decode part = .ok a → d.recordAs α i = .ok a := by
  obtain ⟨first, ids, parts', d, hids, hparts, hchain, hnew, hstart, hfirst, hterminal, hstores⟩ :=
    RangeDecoder.new_writeRange h
  obtain rfl := haveParts_bytes.mp hparts
  have hlen : parts.length = rangeSize := by
    obtain ⟨_, _, _, hlen, -⟩ := writeRange_eq_ok.mp h
    exact hlen
  refine ⟨d, hnew, fun i part hpart => ⟨hstores i part hpart, fun a ha => ?_⟩⟩
  -- the view has the identity that `writeRange` read from the envelope
  obtain ⟨id, hid, hidOk⟩ := forall₂_getElem? hids hpart
  obtain ⟨payload, henv⟩ := RangeRecord.id_bytes_eq_ok.mp hidOk
  obtain ⟨payload', henv'⟩ := LawfulStoredBlock.envelope_of_decode ha
  rw [henv] at henv'
  simp only [Except.ok.injEq, Prod.mk.injEq] at henv'
  obtain ⟨hheight, hhash, hprev, -⟩ := henv'
  have hi : i < rangeSize := hlen ▸ (List.getElem?_eq_some_iff.mp hpart).1
  refine RangeDecoder.recordAs_eq_ok.mpr ⟨hi, ⟨part, hstores i part hpart, ha⟩, ?_, ?_, ?_⟩
  · rw [← hheight, hstart, RecordId.height_of_isChain hchain hid]
  · rintro rfl
    cases hid
    rw [← hprev, hfirst]
  · intro hlast
    have hgetLast := @List.getLast?_eq_getElem? _ (first :: ids)
    rw [← hids.length_eq, hlen, ← hlast, Nat.add_sub_cancel, hid,
      List.getLast?_eq_some_getLast (by simp)] at hgetLast
    rw [← hhash, hterminal, Option.some.inj hgetLast]

/-- The written range of `records` stores their encodings and gives each back. -/
theorem RangeDecoder.recordAs_encodeRange {records : List CompactBlockRecord} {blob : Bytes}
    (h : encodeRange records = .ok blob) :
    ∃ d, RangeDecoder.new blob = .ok d ∧ ∀ i r, records[i]? = some r →
      d.recordAs α i = .ok (StoredBlock.fromRecord r) ∧
      ∃ part, r.encode = .ok part ∧ d.Stores i part := by
  obtain ⟨first, ids, parts, -, -, -, -, hparts, -⟩ := writeRange_eq_ok.mp h
  have hstored : StoredAs records parts := hparts
  rw [hstored.encodeRange_eq] at h
  obtain ⟨d, hnew, hread⟩ := RangeDecoder.recordAs_encodeRangeFromBytes α h
  refine ⟨d, hnew, fun i r hr => ?_⟩
  obtain ⟨part, hpart, hencode⟩ := forall₂_getElem? hstored hr
  obtain ⟨hstores, hdecode⟩ := hread i part hpart
  exact ⟨hdecode _ (LawfulStoredBlock.decode_encode hencode), part, hencode, hstores⟩

/-- A record of a range is read in each view of its stored bytes. -/
theorem RangeDecoder.recordAs_of_record {d : RangeDecoder} {i : Nat} {r : CompactBlockRecord}
    (h : d.record i = .ok r) :
    ∃ bytes, d.Stores i bytes ∧ CompactBlockRecord.decode bytes = .ok r ∧
      ∀ a : α, StoredBlock.decode bytes = .ok a → d.recordAs α i = .ok a := by
  obtain ⟨hi, ⟨bytes, hstores, hr⟩, hheight, hprevious, hhash⟩ :=
    RangeDecoder.recordAs_eq_ok.mp h
  refine ⟨bytes, hstores, hr, fun a ha => ?_⟩
  obtain ⟨h1, h2, h3⟩ := LawfulStoredBlock.sameId ha hr
  exact RangeDecoder.recordAs_eq_ok.mpr ⟨hi, ⟨bytes, hstores, ha⟩, h1 ▸ hheight,
    fun h0 => h3.trans (hprevious h0), fun hlast => h2.trans (hhash hlast)⟩

end

/-- A range of linked records that encode, at a range start, is written. -/
theorem encodeRange_isOk (hparts : StoredAs records parts) (hlen : records.length = rangeSize)
    (hchain : records.IsChain CompactBlockRecord.Precedes)
    (halign : ∀ r ∈ records.head?, r.height.val % rangeSize = 0) :
    ∃ blob, encodeRange records = .ok blob := by
  have hids : HaveIds parts (records.map (·.recordId)) := by
    rw [HaveIds, List.forall₂_map_right_iff]
    refine hparts.flip.imp fun part r hpart => ?_
    exact RangeRecord.id_bytes_eq_ok.mpr ⟨_, CompactBlockRecord.protobufEnvelope_encode hpart⟩
  have hfollows : (records.map (·.recordId)).IsChain RecordId.Follows :=
    (List.isChain_map _).mpr hchain
  cases records with
  | nil => simp [rangeSize] at hlen
  | cons first rest =>
    rw [hparts.encodeRange_eq]
    exact encodeRangeFromBytes_isOk (hparts.length_eq.symm.trans hlen) hids hfollows
      (halign first (by simp))

end Ztreamer
