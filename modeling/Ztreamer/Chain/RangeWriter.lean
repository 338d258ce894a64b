import Mathlib.Data.List.Range
import Ztreamer.Chain.Plain
import Ztreamer.Chain.Range
import Ztreamer.Lib.Panicking

/-! # Writing a range into one buffer

    The writer of a range appends to one growing buffer. It writes an offset and
    a length before it knows them, as zeros, and sets them after each record.

    * `RangeWriter.writeRange`: the writer, with its index operations,
    * `RangeWriter.writeRange_eq`: it never panics, and gives the bytes of
      `Ztreamer.writeRange`,
    * `range_codec`: when a range is written, and that it is read back.
-/

namespace Ztreamer

open Octets Result Packed Panicking

/-- The bytes of a range before its offset table. -/
def rangeEnvelopeBytes : Nat := 1 + 2 * 4 + 2 * 32

namespace RangeWriter

/-- Appends `value`. -/
def putU32 (bytes : Bytes) (value : Nat) : Bytes := bytes ++ beBytes 4 value

/-- Overwrites the four bytes at `offset`. -/
def setU32 (bytes : Bytes) (offset value : Nat) : Panicking CodecError Bytes :=
  if offset + 4 ≤ bytes.length then do
    total (ensure (value < 2 ^ 32) .length)
    return bytes.take offset ++ (beBytes 4 value ++ bytes.drop (offset + 4))
  else panic

section

variable {R : Type} [RangeRecord R]

/-- Writes one record: its offset into the table, and its length and bytes at the
    end of the buffer. -/
def writeRecord (offsetsStart bodyStart : Nat) (bytes : Bytes) (index : Nat) (record : R) :
    Panicking CodecError Bytes := do
  let offset := bytes.length - bodyStart
  let bytes ← setU32 bytes (offsetsStart + index * 4) offset
  let lengthOffset := bytes.length
  let bytes := putU32 bytes 0
  let recordStart := bytes.length
  let part ← total (RangeRecord.writeTo record)
  let bytes := bytes ++ part
  -- the length is known only now
  let recordLen := bytes.length - recordStart
  setU32 bytes lengthOffset recordLen

/-- Writes the records from `index` on. -/
def writeRecords (offsetsStart bodyStart : Nat) (bytes : Bytes) (index : Nat) :
    List R → Panicking CodecError Bytes
  | [] => return bytes
  | record :: records => do
    let bytes ← writeRecord offsetsStart bodyStart bytes index record
    writeRecords offsetsStart bodyStart bytes (index + 1) records

/-- Writes a range. `bodyLen` is only the capacity for the body. -/
def writeRange (records : List R) (bodyLen : Nat) : Panicking CodecError Bytes := do
  total (ensure (records.length = rangeSize) .invalidRange)
  match records with
  | [] => panic
  | first :: rest =>
    let id ← total (RangeRecord.id first)
    total (ensure (id.height.val % rangeSize = 0) .invalidRange)
    let (lastHeight, lastHash) ← total (rest.foldlM linkRecord (id.height, id.hash))
    let offsetsLen := ((first :: rest).length + 1) * 4
    total (ensure (rangeEnvelopeBytes + offsetsLen + bodyLen < 2 ^ 64) .length)
    let bytes := putU32 (putU32 [rangeFormatVersion] id.height.val) lastHeight.val
    let bytes := bytes ++ id.previousHash.val ++ lastHash.val
    let offsetsStart := bytes.length
    let bytes := bytes ++ List.replicate offsetsLen 0
    let bodyStart := bytes.length
    let bytes ← writeRecords offsetsStart bodyStart bytes 0 (first :: rest)
    -- the last offset is the end of the body
    let finalOffset := bytes.length - bodyStart
    setU32 bytes (offsetsStart + (first :: rest).length * 4) finalOffset

end

def encodeRange (records : List CompactBlockRecord) : Panicking CodecError Bytes :=
  writeRange records 0

/-- The capacity for the body of `parts`. -/
def bodyLen (parts : List Bytes) : Except CodecError Nat :=
  parts.foldlM (fun len part => do
    ensure (len + (4 + part.length) < 2 ^ 64) .length
    return len + (4 + part.length)) 0

def encodeRangeFromBytes (parts : List Bytes) : Panicking CodecError Bytes := do
  let len ← total (bodyLen parts)
  writeRange parts len

/-! ## The buffer -/

theorem setU32_append {front old rest : Bytes} (hold : old.length = 4) (value : Nat) :
    setU32 (front ++ (old ++ rest)) front.length value =
      total (do
        ensure (value < 2 ^ 32) .length
        return front ++ (beBytes 4 value ++ rest)) := by
  have hin : front.length + 4 ≤ (front ++ (old ++ rest)).length := by
    simp only [List.length_append, hold]
    omega
  have hdrop : (front ++ (old ++ rest)).drop (front.length + 4) = rest := by
    rw [← List.append_assoc]
    exact List.drop_left' (by rw [List.length_append, hold])
  rw [setU32, if_pos hin, hdrop, List.take_left' rfl]
  exact total_bind fun _ _ => rfl

section

variable {R : Type} [RangeRecord R]

/-- The buffer while records are written: the envelope, the offsets that are set,
    zeros for `n` offsets, and the body so far. -/
def buffer (envelope : Bytes) (offsets : List Nat) (n : Nat) (body : Bytes) : Bytes :=
  envelope ++ (table offsets ++ (List.replicate (4 * n) 0 ++ body))

theorem buffer_length (envelope : Bytes) (offsets : List Nat) (n : Nat) (body : Bytes) :
    (buffer envelope offsets n body).length =
      envelope.length + 4 * (offsets.length + n) + body.length := by
  simp only [buffer, List.length_append, table_length, List.length_replicate]
  omega

theorem setU32_offset (envelope : Bytes) (offsets : List Nat) (n : Nat) (body : Bytes)
    (value : Nat) :
    setU32 (buffer envelope offsets (n + 1) body) (envelope.length + offsets.length * 4) value =
      total (do
        ensure (value < 2 ^ 32) .length
        return buffer envelope (offsets ++ [value]) n body) := by
  have hbuffer : buffer envelope offsets (n + 1) body =
      (envelope ++ table offsets) ++ (List.replicate 4 0 ++
      (List.replicate (4 * n) 0 ++ body)) := by
    have hzeros : List.replicate (4 * (n + 1)) (0 : Byte) =
        List.replicate 4 0 ++ List.replicate (4 * n) 0 := by
      rw [List.replicate_append_replicate, Nat.add_comm 4]
      rfl
    rw [buffer, hzeros]
    simp only [List.append_assoc]
  have hposition : envelope.length + offsets.length * 4 = (envelope ++ table offsets).length := by
    rw [List.length_append, table_length, Nat.mul_comm]
  rw [hbuffer, hposition, setU32_append List.length_replicate]
  simp only [buffer, table, List.flatMap_append, List.flatMap_cons, List.flatMap_nil,
    List.append_nil, List.append_assoc]

/-- One record: its offset is set, and its frame is the new end of the body. -/
theorem writeRecord_eq (envelope : Bytes) (offsets : List Nat) (n : Nat) (body : Bytes)
    (record : R) :
    writeRecord envelope.length (envelope.length + 4 * (offsets.length + (n + 1)))
        (buffer envelope offsets (n + 1) body) offsets.length record =
      total (do
        ensure (body.length < 2 ^ 32) .length
        let part ← RangeRecord.writeTo record
        ensure (part.length < 2 ^ 32) .length
        return buffer envelope (offsets ++ [body.length]) n (body ++ frame part)) := by
  have hoffset : (buffer envelope offsets (n + 1) body).length -
      (envelope.length + 4 * (offsets.length + (n + 1))) = body.length := by
    rw [buffer_length]
    omega
  simp only [writeRecord, hoffset, setU32_offset]
  by_cases hfits : body.length < 2 ^ 32
  · rw [ensure_of _ hfits, ok_bind, ok_bind, pure_eq_ok, total_ok_bind]
    refine total_bind fun part _ => ?_
    -- the four zeros before the part become its length
    have hzeros : putU32 (buffer envelope (offsets ++ [body.length]) n body) 0 ++ part =
        buffer envelope (offsets ++ [body.length]) n body ++ (beBytes 4 0 ++ part) := by
      rw [putU32, List.append_assoc]
    have hlen : (putU32 (buffer envelope (offsets ++ [body.length]) n body) 0 ++ part).length -
        (putU32 (buffer envelope (offsets ++ [body.length]) n body) 0).length = part.length := by
      rw [List.length_append]
      omega
    rw [hlen, hzeros, setU32_append (beBytes_length 4 0)]
    simp only [buffer, frame, List.append_assoc]
  · rw [ensure_of_not _ hfits]
    rfl

theorem writeRecords_eq (envelope : Bytes) (offsets : List Nat) (body : Bytes) (records : List R) :
    (writeRecords envelope.length (envelope.length + 4 * (offsets.length + (records.length + 1)))
        (buffer envelope offsets (records.length + 1) body) offsets.length records >>= fun bytes =>
      setU32 bytes (envelope.length + (offsets.length + records.length) * 4)
        (bytes.length - (envelope.length + 4 * (offsets.length + (records.length + 1))))) =
      total (do
        let (offsets', body') ← writeBody body.length records
        return envelope ++ (table (offsets ++ offsets') ++ (body ++ body'))) := by
  induction records generalizing offsets body with
  | nil =>
    have hend : (buffer envelope offsets 1 body).length -
        (envelope.length + 4 * (offsets.length + 1)) = body.length := by
      rw [buffer_length]
      omega
    show setU32 (buffer envelope offsets 1 body) (envelope.length + offsets.length * 4)
      ((buffer envelope offsets 1 body).length - (envelope.length + 4 * (offsets.length + 1))) = _
    rw [hend, setU32_offset]
    by_cases hfits : body.length < 2 ^ 32
    · simp [writeBody, buffer]
    · simp only [writeBody, ensure_of_not _ hfits]
      rfl
  | cons record records ih =>
    rw [writeRecords, List.length_cons, writeRecord_eq, writeBody]
    by_cases hfits : body.length < 2 ^ 32
    · rw [ensure_of _ hfits, ok_bind, ok_bind]
      cases hpart : RangeRecord.writeTo record with
      | error e => rfl
      | ok part =>
        rw [ok_bind, ok_bind]
        by_cases hlen : part.length < 2 ^ 32
        · have hnext := ih (offsets ++ [body.length]) (body ++ frame part)
          have hcount : (offsets ++ [body.length]).length = offsets.length + 1 := by simp
          have hstart : offsets.length + 1 + (records.length + 1) =
              offsets.length + (records.length + 1 + 1) := by omega
          have hlast : offsets.length + 1 + records.length =
            offsets.length + (records.length + 1) := by
            omega
          rw [hcount, hstart, hlast] at hnext
          rw [ensure_of _ hlen, ok_bind, ok_bind, pure_eq_ok, total_ok_bind, hnext,
            List.length_append]
          congr 1
          cases writeBody (body.length + (frame part).length) records with
          | error e => rfl
          | ok out => simp
        · rw [ensure_of_not _ hlen]
          rfl
    · rw [ensure_of_not _ hfits]
      rfl

/-- The writer never panics, and gives the range that is written in one piece. -/
theorem writeRange_eq {records : List R} {bodyLen : Nat}
    (hbodyLen : rangeEnvelopeBytes + (rangeSize + 1) * 4 + bodyLen < 2 ^ 64) :
    writeRange records bodyLen = total (Ztreamer.writeRange records) := by
  cases records with
  | nil =>
    have hlen : ¬ ([] : List R).length = rangeSize := by simp [rangeSize]
    rw [writeRange, Ztreamer.writeRange, ensure_of_not _ hlen]
    rfl
  | cons first rest =>
    refine total_bind fun _ hlen => ?_
    have hlen : (first :: rest).length = rangeSize := by simpa using hlen
    refine total_bind fun id _ => total_bind fun _ _ => total_bind fun last _ => ?_
    obtain ⟨lastHeight, lastHash⟩ := last
    dsimp only
    rw [hlen, ensure_of _ hbodyLen, total_ok_bind]
    generalize henvelope : putU32 (putU32 [rangeFormatVersion] id.height.val) lastHeight.val ++
      id.previousHash.val ++ lastHash.val = envelope
    have hwrite := writeRecords_eq envelope [] [] (first :: rest)
    rw [hlen] at hwrite
    have hbuffer : envelope ++ List.replicate ((rangeSize + 1) * 4) 0 =
        buffer envelope [] (rangeSize + 1) [] := by
      rw [buffer, List.append_nil, Nat.mul_comm]
      rfl
    have hbody : (buffer envelope [] (rangeSize + 1) []).length =
        envelope.length + 4 * (0 + (rangeSize + 1)) := by
      rw [buffer_length]
      rfl
    rw [List.length_nil, Nat.zero_add rangeSize] at hwrite
    rw [hbuffer, hbody, hwrite]
    congr 1
    cases writeBody ([] : Bytes).length (first :: rest) with
    | error e => rfl
    | ok out => simp [← henvelope, rangeEnvelope, putU32]

end

theorem encodeRange_eq (records : List CompactBlockRecord) :
    encodeRange records = total (Ztreamer.encodeRange records) :=
  writeRange_eq (by decide)

/-- The capacity of parts that are not longer than `c` bytes. -/
theorem bodyLen_fold {c len : Nat} {parts : List Bytes} (hparts : ∀ part ∈ parts, part.length ≤ c)
    (hlen : len + (4 + c) * parts.length < 2 ^ 64) :
    ∃ n, parts.foldlM (fun len part => do
        ensure (len + (4 + part.length) < 2 ^ 64) .length
        return len + (4 + part.length)) len = (.ok n : Except CodecError Nat) ∧
      n ≤ len + (4 + c) * parts.length := by
  induction parts generalizing len with
  | nil => exact ⟨len, rfl, Nat.le_add_right _ _⟩
  | cons part parts ih =>
    have hpart := hparts part List.mem_cons_self
    rw [List.length_cons, Nat.mul_succ] at hlen
    obtain ⟨n, hfold, hn⟩ := @ih (len + (4 + part.length))
      (fun p hp => hparts p (List.mem_cons_of_mem _ hp)) (by omega)
    refine ⟨n, ?_, by rw [List.length_cons, Nat.mul_succ]; omega⟩
    rw [List.foldlM_cons, ensure_of _ (by omega), ok_bind, pure_eq_ok, ok_bind, hfold]

/-- A range of parts that are stored records. -/
theorem encodeRangeFromBytes_eq {parts : List Bytes} (hlen : parts.length = rangeSize)
    (hparts : ∀ part ∈ parts, part.length ≤ maxRecordBytes) :
    encodeRangeFromBytes parts = total (Ztreamer.encodeRangeFromBytes parts) := by
  obtain ⟨n, hfold, hn⟩ := @bodyLen_fold maxRecordBytes 0 parts hparts (by rw [hlen]; decide)
  have hcapacity : rangeEnvelopeBytes + (rangeSize + 1) * 4 + n < 2 ^ 64 := by
    rw [hlen] at hn
    simp only [rangeEnvelopeBytes, rangeSize, maxRecordBytes] at hn ⊢
    omega
  rw [encodeRangeFromBytes, bodyLen, hfold, total_ok_bind, writeRange_eq hcapacity]
  rfl

end RangeWriter

/-! ## The range codec as a whole -/

variable {records : List CompactBlockRecord} {parts : List Bytes}

theorem StoredAs.length_le (h : StoredAs records parts) :
    ∀ part ∈ parts, part.length ≤ maxRecordBytes := by
  intro part hpart
  obtain ⟨i, hi⟩ := List.mem_iff_getElem?.mp hpart
  obtain ⟨r, -, hencode⟩ := forall₂_getElem? h.flip hi
  obtain ⟨-, hfits, rfl⟩ := CompactBlockRecord.encode_eq_ok.mp hencode
  rw [envelope_length]
  exact hfits

theorem StoredAs.length_lt (h : StoredAs records parts) : ∀ part ∈ parts, part.length < 2 ^ 32 := by
  intro part hpart
  have hle := h.length_le part hpart
  simp only [maxRecordBytes] at hle
  omega

/-- The last offset of a range of largest records is a 32-bit number. -/
theorem StoredAs.offset_lt (h : StoredAs records parts) (hlen : records.length = rangeSize) :
    ∀ n ∈ frameOffsets 0 parts, n < 2 ^ 32 := by
  intro n hn
  have hle := @frameOffsets_le 0 maxRecordBytes parts h.length_le n hn
  rw [← h.length_eq, hlen] at hle
  simp only [maxRecordBytes, rangeSize] at hle
  omega

/-- The rules of a range. -/
structure IsRange (records : List CompactBlockRecord) : Prop where
  length_eq : records.length = rangeSize
  aligned : ∀ r ∈ records.head?, r.height.val % rangeSize = 0
  chain : records.IsChain CompactBlockRecord.Precedes

theorem isRange_of_encodeRange {blob : Bytes} (h : encodeRange records = .ok blob) :
    IsRange records := by
  obtain ⟨first, ids, parts, hlen, hids, hchain, halign, -⟩ := writeRange_eq_ok.mp h
  have hmap : records.map (·.recordId) = first :: ids := by
    have hids' : List.Forall₂ (fun r id => r.recordId = id) records (first :: ids) :=
      hids.imp fun r id hid => Except.ok.inj hid
    have heq : List.Forall₂ Eq (records.map (·.recordId)) (first :: ids) :=
      List.forall₂_map_left_iff.mpr hids'
    rwa [List.forall₂_eq_eq_eq] at heq
  refine ⟨hlen, ?_, ?_⟩
  · intro r hr
    have hhead : (records.map (·.recordId)).head? = some r.recordId := by
      rw [List.head?_map, Option.mem_def.mp hr]
      rfl
    rw [hmap, List.head?_cons, Option.some.injEq] at hhead
    rw [hhead] at halign
    exact halign
  · have hchain' : (records.map (·.recordId)).IsChain RecordId.Follows := by rwa [hmap]
    exact (List.isChain_map CompactBlockRecord.recordId).mp hchain'

theorem foldlM_linkRecord_error {last : U32 × Hash} {e : CodecError}
    (h : records.foldlM linkRecord last = .error e) : e = .invalidRange := by
  induction records generalizing last with
  | nil => cases h
  | cons r records ih =>
    rw [List.foldlM_cons] at h
    by_cases hlink : last.1.val + 1 = r.height.val ∧ r.previousHash = last.2
    · have hstep : linkRecord last r = .ok (r.height, r.hash) := by
        show (ensure (last.1.val + 1 = r.height.val ∧ r.previousHash = last.2) _ >>= fun _ => _) = _
        rw [ensure_of _ hlink]
        rfl
      rw [hstep] at h
      exact ih h
    · have hstep : linkRecord last r = .error .invalidRange := by
        show (ensure (last.1.val + 1 = r.height.val ∧ r.previousHash = last.2) _ >>= fun _ => _) = _
        rw [ensure_of_not _ hlink]
        rfl
      rw [hstep] at h
      cases h
      rfl

/-- Records that are not a range are refused as such, before anything is written. -/
theorem encodeRange_error {e : CodecError} (hparts : StoredAs records parts)
    (h : encodeRange records = .error e) : e = .invalidRange := by
  cases records with
  | nil =>
    have hlen : ¬ ([] : List CompactBlockRecord).length = rangeSize := by simp [rangeSize]
    rw [encodeRange, writeRange, ensure_of_not _ hlen] at h
    cases h
    rfl
  | cons first rest =>
    by_contra hne
    have herrs : Errs (· ≠ .invalidRange) (writeRange (first :: rest)) := ⟨e, h, hne⟩
    simp only [writeRange, errs_bind, errs_ensure, ne_eq, not_true_eq_false, and_false, false_or,
      ensure_eq_ok] at herrs
    obtain ⟨_, hlen, herr | ⟨id, hid, _, halign, herr | ⟨last, hfold, herr⟩⟩⟩ := herrs
    · exact errs_ok herr
    · obtain ⟨e', hfold, hne'⟩ := herr
      exact hne' (foldlM_linkRecord_error hfold)
    · -- all checks have passed, so the range is written
      obtain ⟨ids, hids, hchain, -⟩ := foldlM_linkRecord_eq_ok.mp hfold
      have hok := writeRange_eq_ok.mpr ⟨id, ids, parts, hlen, .cons hid hids, hchain, halign,
        hparts, hparts.length_lt, hparts.offset_lt hlen, rfl⟩
      rw [encodeRange, hok] at h
      cases h

/-- The range codec: records that each encode are written exactly if they are one
    aligned range with a correct hash chain. The writer never panics and no offset
    and no length overflows; the range is that of the encodings, and every record
    is read back from it. -/
theorem range_codec [Proto.Prost] {records : List CompactBlockRecord} {parts : List Bytes}
    (hparts : StoredAs records parts) :
    ((∃ blob, RangeWriter.encodeRange records = total (.ok blob)) ↔ IsRange records) ∧
      (∀ blob, RangeWriter.encodeRange records = total (.ok blob) →
        RangeWriter.encodeRangeFromBytes parts = total (.ok blob) ∧
        ∃ d, RangeDecoder.new blob = .ok d ∧
          ∀ i < rangeSize, ∃ r, records[i]? = some r ∧ d.record i = .ok r) ∧
      RangeWriter.encodeRange records ≠ panic ∧
      RangeWriter.encodeRange records ≠ total (.error .length) ∧
      (∀ part ∈ parts, part.length < 2 ^ 32) ∧
      (records.length = rangeSize → ∀ n ∈ frameOffsets 0 parts, n < 2 ^ 32) := by
  have hisOk : IsRange records → ∃ blob, encodeRange records = .ok blob := fun h =>
    encodeRange_isOk hparts h.length_eq h.chain h.aligned
  rw [RangeWriter.encodeRange_eq]
  refine ⟨?_, ?_, total_ne_panic _, ?_, hparts.length_lt, hparts.offset_lt⟩
  · simp only [total_inj]
    refine ⟨fun h => ?_, hisOk⟩
    obtain ⟨blob, h⟩ := h
    exact isRange_of_encodeRange h
  · intro blob h
    rw [total_inj] at h
    have hlen := (isRange_of_encodeRange h).length_eq
    obtain ⟨d, hnew, hread⟩ := RangeDecoder.recordAs_encodeRange CompactBlockRecord h
    refine ⟨?_, d, hnew, fun i hi => ?_⟩
    · rw [RangeWriter.encodeRangeFromBytes_eq (hparts.length_eq.symm.trans hlen) hparts.length_le,
        ← hparts.encodeRange_eq, h]
    · have hr : records[i]? = some (records[i]) := List.getElem?_eq_getElem (hlen ▸ hi)
      exact ⟨_, hr, (hread i _ hr).1⟩
  · rw [ne_eq, total_inj]
    intro h
    cases encodeRange_error hparts h

/-! ## A range of empty blocks -/

theorem plainRecord_encode (fork height : Nat) :
    ∃ part, (plainRecord fork height).encode = .ok part :=
  ⟨_, @CompactBlockRecord.encode_of_sizeBound (plainRecord fork height) 192 (by simp [branchRecord,
    branchParsed, branchTxs, ParsedCompactBlock.toRecord]) rfl⟩

theorem plainRecords_isRange (fork : Nat) : IsRange (plainRecords fork rangeSize) where
  length_eq := length_branchRecords 0 fork rangeSize
  aligned r hr := by
    have hhead : (plainRecords fork rangeSize).head? = some (plainRecord fork 0) := by
      rw [rangeSize, plainRecords_succ]
      rfl
    rw [Option.mem_def, hhead, Option.some.injEq] at hr
    rw [← hr]
    rfl
  chain := by
    rw [plainRecords, branchRecords, List.isChain_map]
    refine (List.isChain_range _ rangeSize).mpr fun height hlt => ?_
    simp only [rangeSize] at hlt
    constructor
    · show (Fin.ofNat (2 ^ 32) height).val + 1 = (Fin.ofNat (2 ^ 32) (height + 1)).val
      rw [Fin.val_ofNat, Fin.val_ofNat, Nat.mod_eq_of_lt (by omega), Nat.mod_eq_of_lt (by omega)]
    · rfl

section

attribute [local instance] Proto.wireDecoder

theorem range_codec_plainRecords :
    ∃ blob d, RangeWriter.encodeRange (plainRecords 0 rangeSize) = total (.ok blob) ∧
      RangeDecoder.new blob = .ok d ∧ d.record 999 = .ok (plainRecord 0 999) := by
  obtain ⟨parts, hparts⟩ := @exists_forall₂ _ _ (fun r part => CompactBlockRecord.encode r =
    .ok part)
    (plainRecords 0 rangeSize) (fun r hr => by
      obtain ⟨height, -, rfl⟩ := List.mem_map.mp hr
      exact plainRecord_encode 0 height)
  obtain ⟨hiff, hread, -⟩ := range_codec hparts
  obtain ⟨blob, hblob⟩ := hiff.mpr (plainRecords_isRange 0)
  obtain ⟨-, d, hnew, hrecords⟩ := hread blob hblob
  obtain ⟨r, hr, hrecord⟩ := hrecords 999 (by decide)
  have hget : (plainRecords 0 rangeSize)[999]? = some (plainRecord 0 999) :=
    branchRecords_getElem? (by decide)
  rw [hget, Option.some.injEq] at hr
  exact ⟨blob, d, hblob, hnew, by rw [hrecord, hr]⟩

end

end Ztreamer
