import Ztreamer.Index.Rows
import Ztreamer.Lib.Panicking

/-! # The checks of a range

    A range blob comes from outside. The checks read it by position: the offset
    table by index, the body by slices. Here the index operations are explicit,
    and none of them is out of bounds for any bytes. What the checks accept is
    stated on the records of the blob.

    * `RangeDecoder.newIndexed`, `RangeDecoder.recordAsIndexed`,
      `SealedRange.checkChainWithIndexed`: the checks with their index operations,
    * `range_checks`: no panic, what a decoder has checked, and what a checked
      range is,
    * `installSealedRange_iff`: an install that checks a blob is the check and an
      install of what it gave.
-/

namespace Ztreamer

open Octets Result Packed Panicking

variable {ν : Type}

/-! ## The offset table -/

namespace RangeDecoder

/-- The position of record `index`, from its four bytes of the table. -/
def offsetIndexed {ε : Type} (d : RangeDecoder) (index : Nat) : Panicking ε Nat :=
  if index * 4 + 4 ≤ d.offsets.length then total (.ok (d.offset index)) else panic

/-- The checks of the offset table, in their order. -/
def offsetsInvalid (d : RangeDecoder) : Panicking CodecError Bool := do
  if (← d.offsetIndexed 0) ≠ 0 then return true
  else if (← d.offsetIndexed rangeSize) ≠ d.body.length then return true
  else (List.range' 1 rangeSize).anyM fun index => do
    let before ← d.offsetIndexed (index - 1)
    let after ← d.offsetIndexed index
    return decide (after < before)

def newIndexed (bytes : Bytes) : Panicking CodecError RangeDecoder := do
  let (version, bytes) ← total (Reader.u8 bytes)
  total (ensure (version = rangeFormatVersion) (.version .range version))
  let (start, bytes) ← total (Reader.u32 bytes)
  let (stop, bytes) ← total (Reader.u32 bytes)
  let (firstPreviousHash, bytes) ← total (Reader.array 32 bytes)
  let (terminalHash, bytes) ← total (Reader.array 32 bytes)
  total (ensure (start.val % rangeSize = 0 ∧ start.val + (rangeSize - 1) = stop.val) .invalidRange)
  let (offsets, body) ← total (Reader.take (4 * (rangeSize + 1)) bytes)
  let decoder : RangeDecoder := { start, firstPreviousHash, terminalHash, offsets, body }
  if ← decoder.offsetsInvalid then throw .length else return decoder

/-- The record at `index` of the range, as `α`. -/
def recordAsIndexed (α : Type) [StoredBlock α] (d : RangeDecoder) (index : Nat) :
    Panicking CodecError α := do
  total (ensure (index < rangeSize) .rangeIndex)
  let start ← d.offsetIndexed index
  let stop ← d.offsetIndexed (index + 1)
  let envelope ← total (okOr (slice d.body start stop) .length)
  let (recordLen, envelope) ← total (Reader.count envelope)
  let (bytes, envelope) ← total (Reader.take recordLen envelope)
  let record : α ← total (StoredBlock.decode bytes)
  total (Reader.finish envelope)
  total (ensure (d.start.val + index = (StoredBlock.height record).val ∧
    (index = 0 → StoredBlock.previousHash record = d.firstPreviousHash) ∧
    (index + 1 = rangeSize → StoredBlock.hash record = d.terminalHash)) .invalidRange)
  return record

/-- The table has all its entries. -/
def FullTable (d : RangeDecoder) : Prop := d.offsets.length = 4 * (rangeSize + 1)

variable {d : RangeDecoder}

theorem FullTable.offsetIndexed_eq {ε : Type} (h : d.FullTable) {index : Nat}
    (hindex : index ≤ rangeSize) :
    (d.offsetIndexed index : Panicking ε Nat) = total (.ok (d.offset index)) := by
  unfold FullTable at h
  exact if_pos (by omega)

theorem FullTable.offsetsInvalid_eq (h : d.FullTable) :
    d.offsetsInvalid = total (.ok (decide ¬(d.offset 0 = 0 ∧ d.offset rangeSize = d.body.length ∧
      ∀ index < rangeSize, d.offset index ≤ d.offset (index + 1)))) := by
  rw [offsetsInvalid, h.offsetIndexed_eq (Nat.zero_le _), total_ok_bind]
  by_cases hfirst : d.offset 0 = 0
  case neg =>
    rw [if_pos hfirst]
    simp only [hfirst, false_and, not_false_eq_true, decide_true]
    rfl
  rw [if_neg (not_not.mpr hfirst), h.offsetIndexed_eq le_rfl, total_ok_bind]
  by_cases hlast : d.offset rangeSize = d.body.length
  case neg =>
    rw [if_pos hlast]
    simp only [hlast, false_and, and_false, not_false_eq_true, decide_true]
    rfl
  rw [if_neg (not_not.mpr hlast)]
  -- an entry is compared with the one before it
  have hstep : ∀ index ∈ List.range' 1 rangeSize, (do
      let before ← d.offsetIndexed (index - 1)
      let after ← d.offsetIndexed index
      return decide (after < before) : Panicking CodecError Bool) =
      total (.ok (decide (d.offset index < d.offset (index - 1)))) := by
    intro index hindex
    rw [List.mem_range'_1] at hindex
    rw [h.offsetIndexed_eq (by omega), total_ok_bind, h.offsetIndexed_eq (by omega), total_ok_bind]
    rfl
  rw [anyM_total hstep, total_inj, Except.ok.injEq, Bool.eq_iff_iff, List.any_eq_true,
    decide_eq_true_iff]
  simp only [hfirst, hlast, true_and, decide_eq_true_iff, not_forall, Nat.not_le]
  constructor
  · rintro ⟨index, hindex, hlt⟩
    rw [List.mem_range'_1] at hindex
    refine ⟨index - 1, by omega, ?_⟩
    rwa [Nat.sub_add_cancel (by omega)]
  · rintro ⟨index, hindex, hlt⟩
    refine ⟨index + 1, List.mem_range'_1.mpr ⟨by omega, by omega⟩, ?_⟩
    rwa [Nat.add_sub_cancel]

/-- No read of the table is out of bounds while a range is opened. -/
theorem newIndexed_eq (bytes : Bytes) : newIndexed bytes = total (new bytes) := by
  refine total_bind fun version _ => total_bind fun _ _ => total_bind fun start _ =>
    total_bind fun stop _ => total_bind fun firstPreviousHash _ => total_bind fun terminalHash _ =>
      total_bind fun _ _ => total_bind fun offsets htake => ?_
  obtain ⟨offsets, body⟩ := offsets
  have hfull : FullTable ⟨start.1, firstPreviousHash.1, terminalHash.1, offsets, body⟩ :=
    (Reader.take_eq_ok.mp htake).2
  dsimp only
  rw [hfull.offsetsInvalid_eq, total_ok_bind]
  by_cases hvalid : offset ⟨start.1, firstPreviousHash.1, terminalHash.1, offsets, body⟩ 0 = 0 ∧
      offset ⟨start.1, firstPreviousHash.1, terminalHash.1, offsets, body⟩ rangeSize = body.length ∧
      ∀ index < rangeSize,
        offset ⟨start.1, firstPreviousHash.1, terminalHash.1, offsets, body⟩ index ≤
          offset ⟨start.1, firstPreviousHash.1, terminalHash.1, offsets, body⟩ (index + 1)
  · rw [ensure_of _ hvalid, decide_eq_false (not_not.mpr hvalid)]
    rfl
  · rw [ensure_of_not _ hvalid, decide_eq_true hvalid]
    rfl

theorem fullTable_of_new {bytes : Bytes} (h : new bytes = .ok d) : d.FullTable :=
  (new_eq_ok.mp h).2.2.1

/-- Nor while a record is read. -/
theorem FullTable.recordAsIndexed_eq (h : d.FullTable) (α : Type) [StoredBlock α] (index : Nat) :
    d.recordAsIndexed α index = total (d.recordAs α index) := by
  refine total_bind fun _ hindex => ?_
  rw [ensure_eq_ok] at hindex
  rw [h.offsetIndexed_eq (by omega), total_ok_bind, h.offsetIndexed_eq (by omega), total_ok_bind]
  exact total_bind fun _ _ => total_bind fun _ _ => total_bind fun _ _ => total_bind fun _ _ =>
    total_bind fun _ _ => total_bind fun _ _ => rfl

/-! ## The body -/

/-- The slices of the body between two offsets, one after another. -/
def slices (d : RangeDecoder) : List Bytes :=
  (List.range rangeSize).map fun index =>
    (d.body.take (d.offset (index + 1))).drop (d.offset index)

/-- The slices up to an offset are the body up to there. -/
theorem flatten_slices (hfirst : d.offset 0 = 0)
    (hmono : ∀ index < rangeSize, d.offset index ≤ d.offset (index + 1)) {n : Nat}
    (hn : n ≤ rangeSize) :
    ((List.range n).map fun index =>
      (d.body.take (d.offset (index + 1))).drop (d.offset index)).flatten =
        d.body.take (d.offset n) := by
  induction n with
  | zero => rw [hfirst]; rfl
  | succ n ih =>
    have hle := hmono n (by omega)
    rw [List.range_succ, List.map_append, List.flatten_append, ih (by omega), List.map_cons,
      List.map_nil, List.flatten_cons, List.flatten_nil, List.append_nil]
    have htake : d.body.take (d.offset n) = (d.body.take (d.offset (n + 1))).take (d.offset n) := by
      rw [List.take_take, Nat.min_eq_left hle]
    rw [htake, List.take_append_drop]

theorem offset_mono (hmono : ∀ index < rangeSize, d.offset index ≤ d.offset (index + 1)) {i j : Nat}
    (hij : i ≤ j) (hj : j ≤ rangeSize) : d.offset i ≤ d.offset j := by
  induction j with
  | zero =>
    obtain rfl := Nat.le_zero.mp hij
    exact le_rfl
  | succ j ih =>
    by_cases heq : i = j + 1
    · rw [heq]
    · exact (ih (by omega) (by omega)).trans (hmono j (by omega))

/-- The slices of an accepted range are inside the body and tile it. -/
theorem slices_tile {bytes : Bytes} (h : new bytes = .ok d) :
    (∀ index < rangeSize, slice d.body (d.offset index) (d.offset (index + 1)) =
      d.slices[index]?) ∧ d.slices.flatten = d.body := by
  obtain ⟨-, -, -, hfirst, hlast, hmono⟩ := new_eq_ok.mp h
  have hle : ∀ index ≤ rangeSize, d.offset index ≤ d.body.length := by
    intro index hindex
    rw [← hlast]
    exact offset_mono hmono hindex le_rfl
  constructor
  · intro index hindex
    rw [slices, List.getElem?_map, List.getElem?_range hindex, slice,
      if_pos ⟨hmono index hindex, hle (index + 1) hindex⟩]
    rfl
  · rw [slices, flatten_slices hfirst hmono le_rfl, hlast, List.take_length]

end RangeDecoder

/-! ## The chain -/

namespace SealedRange

section

variable [Proto.Prost] {σ ε : Type}

/-- Decodes the record at the absolute `height`. -/
def readIndexed (α : Type) [StoredBlock α] (range : SealedRange) (height : Nat) :
    Panicking CodecError α := do
  total (ensure (range.start ≤ height) .rangeIndex)
  range.decoder.recordAsIndexed α (height - range.start)

/-- Decodes and checks the record at `height`. -/
def checkRecordIndexed (range : SealedRange) (visit : σ → CompactBlockRecord → Except ε σ)
    (acc : ChainCheck σ) (height : Nat) : Panicking (RangeCheckError ε) (ChainCheck σ) := do
  let record ← mapError (do
    let record ← range.readIndexed CompactBlockRecord height
    total record.check
    return record) (.record height)
  let visitor ← total (okMapError (visit acc.visitor record) .visit)
  total (ensure (record.height.val = height ∧ ∀ below ∈ acc.below,
    record.previousHash = below.1 ∧ record.endTreeSizes.follows below.2) (.chain height))
  return { ids := acc.ids ++ [⟨height, record.hash⟩]
           below := some (record.hash, record.endTreeSizes)
           first := acc.first.or (some ⟨record.previousHash, record.endTreeSizes⟩)
           last := some record
           visitor }

/-- Checks the chain of the range. A range without a record is a panic. -/
def checkChainWithIndexed (range : SealedRange) (parent : Option (Hash × TreeSizes)) (visitor : σ)
    (visit : σ → CompactBlockRecord → Except ε σ) :
    Panicking (RangeCheckError ε) (RangeChain × σ) := do
  let acc ← range.heights.foldlM (range.checkRecordIndexed visit) ⟨[], parent, none, none, visitor⟩
  match acc.first, acc.last with
  | some first, some last => return (⟨acc.ids, first, last⟩, acc.visitor)
  | _, _ => panic

theorem checkRecordIndexed_eq {range : SealedRange} (h : range.decoder.FullTable)
    (visit : σ → CompactBlockRecord → Except ε σ) (acc : ChainCheck σ) (height : Nat) :
    range.checkRecordIndexed visit acc height = total (range.checkRecord visit acc height) := by
  have hread : range.readIndexed CompactBlockRecord height =
      total (range.read CompactBlockRecord height) := by
    refine total_bind fun _ _ => ?_
    exact h.recordAsIndexed_eq CompactBlockRecord _
  have hrecord : (do
      let record ← range.readIndexed CompactBlockRecord height
      total record.check
      return record : Panicking CodecError CompactBlockRecord) = total (do
        let record ← range.read CompactBlockRecord height
        record.check
        return record) := by
    rw [hread]
    exact total_bind fun _ _ => total_bind fun _ _ => rfl
  rw [checkRecordIndexed, hrecord, mapError_total]
  exact total_bind fun _ _ => total_bind fun _ _ => total_bind fun _ _ => rfl

/-- The chain check never panics: a range holds at least one record. -/
theorem checkChainWithIndexed_eq {range : SealedRange} (h : range.decoder.FullTable)
    (hstart : range.start < 2 ^ 32) (parent : Option (Hash × TreeSizes)) (visitor : σ)
    (visit : σ → CompactBlockRecord → Except ε σ) :
    range.checkChainWithIndexed parent visitor visit =
      total (range.checkChainWith parent visitor visit) := by
  have hfold := @foldlM_total (RangeCheckError ε) Nat (ChainCheck σ)
    (range.checkRecordIndexed visit) (range.checkRecord visit) range.heights
    ⟨[], parent, none, none, visitor⟩ fun acc height _ => checkRecordIndexed_eq h visit acc height
  rw [checkChainWithIndexed, hfold]
  refine total_bind fun acc hacc => ?_
  obtain ⟨records, hreads, -, -, -, -, hfirst, hlast⟩ := foldlM_checkRecord_eq_ok.mp hacc
  have hlen : range.heights.length = min rangeSize (2 ^ 32 - range.start) := List.length_range'
  cases records with
  | nil =>
    have hzero := hreads.length_eq
    rw [hlen, List.length_nil] at hzero
    simp only [rangeSize] at hzero
    omega
  | cons first rest =>
    rw [hfirst, hlast, List.getLast?_eq_some_getLast (List.cons_ne_nil first rest)]
    rfl

end

end SealedRange

/-! ## What a checked range is -/

section

variable [Proto.Prost]

/-- The range of the decoder holds `records`: each is stored at its place, and all
    obey the rules of a sealed range. -/
structure RangeContent (d : RangeDecoder) (records : List CompactBlockRecord) : Prop where
  length_eq : records.length = rangeSize
  stored : ∀ (i : Nat) (r : CompactBlockRecord), records[i]? = some r →
    ∃ bytes, d.Stores i bytes ∧ CompactBlockRecord.decode bytes = .ok r
  height : ∀ (i : Nat) (r : CompactBlockRecord), records[i]? = some r →
    r.height.val = d.start.val + i
  payload : ∀ r ∈ records, ∀ tx ∈ r.transactions, tx.hasPayload
  links : records.IsChain fun a b => b.previousHash = a.hash ∧
    b.endTreeSizes.follows a.endTreeSizes
  first : ∀ r ∈ records.head?, r.previousHash = d.firstPreviousHash
  last : ∀ r ∈ records.getLast?, r.hash = d.terminalHash

omit [Proto.Prost] in
theorem LinksFrom.links {below : Option (Hash × TreeSizes)} {records : List CompactBlockRecord}
    (h : LinksFrom below records) :
    records.IsChain fun a b => b.previousHash = a.hash ∧ b.endTreeSizes.follows a.endTreeSizes := by
  induction records generalizing below with
  | nil => exact .nil
  | cons r records ih =>
    refine List.isChain_cons.mpr ⟨?_, ih h.2⟩
    cases records with
    | nil => nofun
    | cons next records =>
      intro r' hr'
      obtain rfl := Option.some.inj hr'
      exact h.2.1 _ rfl

omit [Proto.Prost] in
/-- The block below the range matters to the first record only. -/
theorem linksFrom_cons_iff {below : Hash × TreeSizes} {first : CompactBlockRecord}
    {rest : List CompactBlockRecord} :
    LinksFrom (some below) (first :: rest) ↔
      (first.previousHash = below.1 ∧ first.endTreeSizes.follows below.2) ∧
        LinksFrom none (first :: rest) := by
  constructor
  · intro h
    exact ⟨h.1 below rfl, nofun, h.2⟩
  · rintro ⟨hfirst, _, hrest⟩
    refine ⟨?_, hrest⟩
    intro b hb
    obtain rfl := Option.some.inj hb
    exact hfirst

variable {blob : Bytes} {entry : ManifestEntry ν}

/-- The records that the chain check reads at the start of the envelope. -/
theorem rangeContent_iff {d : RangeDecoder} (hnew : RangeDecoder.new blob = .ok d)
    {records : List CompactBlockRecord} :
    RangeContent d records ↔
      SealedRange.Reads ⟨d.start.val, d⟩ (SealedRange.heights ⟨d.start.val, d⟩) records ∧
        LinksFrom none records := by
  obtain ⟨-, ⟨stop, hstop, -⟩, -⟩ := RangeDecoder.new_eq_ok.mp hnew
  have hstopLt := stop.isLt
  constructor
  · intro h
    have hrecord : ∀ (i : Nat) (r : CompactBlockRecord), records[i]? = some r →
        d.record i = .ok r := by
      intro i r hr
      have hi : i < rangeSize := h.length_eq ▸ (List.getElem?_eq_some_iff.mp hr).1
      refine RangeDecoder.recordAs_eq_ok.mpr ⟨hi, h.stored i r hr, (h.height i r hr).symm, ?_, ?_⟩
      · rintro rfl
        exact h.first r (by rw [Option.mem_def, List.head?_eq_getElem?, hr])
      · intro hlast
        refine h.last r ?_
        rw [Option.mem_def, List.getLast?_eq_getElem?, h.length_eq, ← hlast, Nat.add_sub_cancel, hr]
    have hrange : RangeRecords blob d.start.val records :=
      ⟨h.length_eq, ⟨d, hnew, hrecord⟩, h.height, isChain_precedes
        (h.links.imp fun _ _ hab => hab.1) h.height, h.payload⟩
    obtain ⟨d', hnew', -, hreads⟩ := hrange.reads
    obtain rfl : d = d' := Except.ok.inj (hnew.symm.trans hnew')
    exact ⟨hreads, linksFrom_none h.links⟩
  · rintro ⟨hreads, hlinks⟩
    have hlen : records.length = rangeSize := by
      rw [← hreads.length_eq, SealedRange.heights, List.length_range']
      simp only [rangeSize] at *
      omega
    cases records with
    | nil => simp [rangeSize] at hlen
    | cons first rest =>
      have hrange : RangeRecords blob d.start.val (first :: rest) :=
        hreads.rangeRecords hnew hlinks
      obtain ⟨d', hnew', hrecord⟩ := hrange.decoder
      obtain rfl : d = d' := Except.ok.inj (hnew.symm.trans hnew')
      refine ⟨hlen, fun i r hr => ?_, hrange.height, hrange.payload, hlinks.links, ?_, ?_⟩
      · exact (RangeDecoder.recordAs_eq_ok.mp (hrecord i r hr)).2.1
      · intro r hr
        obtain rfl := Option.some.inj hr
        exact (RangeDecoder.recordAs_eq_ok.mp (hrecord 0 first rfl)).2.2.2.1 rfl
      · intro r hr
        rw [Option.mem_def, List.getLast?_eq_getElem?, hlen] at hr
        exact (RangeDecoder.recordAs_eq_ok.mp (hrecord _ r hr)).2.2.2.2 rfl

variable [Blake3]

theorem CheckedRange.check_eq_ok {checked : CheckedRange} :
    CheckedRange.check blob entry = .ok checked ↔
      entry.checkBlob blob = .ok () ∧ checked.blob = blob ∧
      ∃ range, SealedRange.fromEnvelope blob = .ok range ∧ checked.start = range.start ∧
        range.checkChainWith none () (fun _ _ => (.ok () : Except Empty Unit)) =
          .ok (checked.chain, ()) := by
  rw [CheckedRange.check, bind_eq_ok]
  constructor
  · rintro ⟨⟨range, _⟩, hcheck, hok⟩
    cases hok
    exact CheckedRange.checkWith_eq_ok.mp hcheck
  · intro h
    exact ⟨(checked, ()), CheckedRange.checkWith_eq_ok.mpr h, rfl⟩

omit [Blake3] in
/-- The checks of the records of a blob, without a block below it. -/
theorem fromEnvelope_checkChainWith_iff {start : Nat} {chain : RangeChain} :
    (∃ range, SealedRange.fromEnvelope blob = .ok range ∧ start = range.start ∧
      range.checkChainWith none () (fun _ _ => (.ok () : Except Empty Unit)) = .ok (chain, ())) ↔
      ∃ d first rest, RangeDecoder.new blob = .ok d ∧ RangeContent d (first :: rest) ∧
        start = d.start.val ∧ chain = RangeChain.ofRecords first rest := by
  have hvisit : ∀ records : List CompactBlockRecord,
      records.foldlM (fun _ _ => (.ok () : Except Empty Unit)) () = .ok () :=
    fun _ => foldlM_eq_ok_foldl fun _ _ _ => rfl
  constructor
  · rintro ⟨range, henvelope, hstart, hchain⟩
    simp only [SealedRange.fromEnvelope, bind_eq_ok, pure_eq_ok, Except.ok.injEq] at henvelope
    obtain ⟨d, hnew, rfl⟩ := henvelope
    obtain ⟨first, rest, hreads, hlinks, -, hof⟩ := SealedRange.checkChainWith_eq_ok.mp hchain
    exact ⟨d, first, rest, hnew, (rangeContent_iff hnew).mpr ⟨hreads, hlinks⟩, hstart, hof⟩
  · rintro ⟨d, first, rest, hnew, hcontent, hstart, hof⟩
    obtain ⟨hreads, hlinks⟩ := (rangeContent_iff hnew).mp hcontent
    refine ⟨⟨d.start.val, d⟩, ?_, hstart, ?_⟩
    · rw [SealedRange.fromEnvelope, hnew]
      rfl
    · rw [hof]
      exact SealedRange.checkChainWith_eq_ok.mpr ⟨first, rest, hreads, hlinks, hvisit _, rfl⟩

/-- A checked range keeps the ids, the first link and the last record of the
    records of its blob. -/
theorem CheckedRange.check_content {checked : CheckedRange} :
    CheckedRange.check blob entry = .ok checked ↔
      entry.checkBlob blob = .ok () ∧ checked.blob = blob ∧
      ∃ d first rest, RangeDecoder.new blob = .ok d ∧ RangeContent d (first :: rest) ∧
        checked.start = d.start.val ∧ checked.chain = RangeChain.ofRecords first rest := by
  rw [CheckedRange.check_eq_ok, fromEnvelope_checkChainWith_iff]

theorem CheckedRange.exists_of_content {d : RangeDecoder} {first : CompactBlockRecord}
    {rest : List CompactBlockRecord} (hnew : RangeDecoder.new blob = .ok d)
    (hcontent : RangeContent d (first :: rest)) :
    ∃ checked : CheckedRange, checked.blob = blob ∧ checked.start = d.start.val ∧
      checked.chain = RangeChain.ofRecords first rest := by
  obtain ⟨range, henvelope, hstart, hchain⟩ :=
    fromEnvelope_checkChainWith_iff.mpr ⟨d, first, rest, hnew, hcontent, rfl, rfl⟩
  exact ⟨⟨blob, Blake3.hash blob, d.start.val, RangeChain.ofRecords first rest, rfl, range,
    henvelope, hstart.symm, hchain⟩, rfl, rfl, rfl⟩

/-- The checks of a range index no bytes out of bounds. A decoder has checked that
    the slices of the records tile the body, and a checked range is a blob of its
    entry whose records obey the rules of a sealed range. -/
theorem range_checks :
    (∀ bytes : Bytes, RangeDecoder.newIndexed bytes = total (RangeDecoder.new bytes)) ∧
    (∀ (bytes : Bytes) (d : RangeDecoder), RangeDecoder.new bytes = .ok d →
      (∀ (α : Type) [StoredBlock α] (index : Nat),
        d.recordAsIndexed α index = total (d.recordAs α index)) ∧
      (∀ (start : U32) (σ ε : Type) (parent : Option (Hash × TreeSizes)) (visitor : σ)
          (visit : σ → CompactBlockRecord → Except ε σ),
        SealedRange.checkChainWithIndexed ⟨start.val, d⟩ parent visitor visit =
          total (SealedRange.checkChainWith ⟨start.val, d⟩ parent visitor visit)) ∧
      d.slices.length = rangeSize ∧ d.slices.flatten = d.body ∧
      ∀ index < rangeSize, slice d.body (d.offset index) (d.offset (index + 1)) =
        d.slices[index]?) ∧
    ∀ (blob : Bytes) (entry : ManifestEntry ν),
      ((∃ checked, CheckedRange.check blob entry = .ok checked) ↔
        entry.blobLen.val = blob.length ∧ Blake3.hash blob = entry.blobDigest ∧
        ∃ d records, RangeDecoder.new blob = .ok d ∧ RangeContent d records) ∧
      ∀ checked, CheckedRange.check blob entry = .ok checked →
        checked.blob = blob ∧ ∃ d first rest, RangeDecoder.new blob = .ok d ∧
          RangeContent d (first :: rest) ∧ checked.start = d.start.val ∧
          checked.chain = RangeChain.ofRecords first rest := by
  refine ⟨RangeDecoder.newIndexed_eq, fun bytes d hnew => ?_, fun blob entry => ⟨?_, ?_⟩⟩
  · have hfull := RangeDecoder.fullTable_of_new hnew
    obtain ⟨hslice, htile⟩ := RangeDecoder.slices_tile hnew
    refine ⟨fun α _ index => hfull.recordAsIndexed_eq α index, ?_, ?_, htile, hslice⟩
    · intro start σ ε parent visitor visit
      exact SealedRange.checkChainWithIndexed_eq hfull start.isLt parent visitor visit
    · rw [RangeDecoder.slices, List.length_map, List.length_range]
  · constructor
    · rintro ⟨checked, hcheck⟩
      obtain ⟨hblob, -, d, first, rest, hnew, hcontent, -⟩ := CheckedRange.check_content.mp hcheck
      obtain ⟨hlen, hdigest⟩ := ManifestEntry.checkBlob_eq_ok.mp hblob
      exact ⟨hlen.symm, hdigest, d, first :: rest, hnew, hcontent⟩
    · rintro ⟨hlen, hdigest, d, records, hnew, hcontent⟩
      cases records with
      | nil => exact absurd hcontent.length_eq (by decide)
      | cons first rest =>
        obtain ⟨checked, hblob, hstart, hchain⟩ := CheckedRange.exists_of_content hnew hcontent
        exact ⟨checked, CheckedRange.check_content.mpr
          ⟨ManifestEntry.checkBlob_eq_ok.mpr ⟨hlen.symm, hdigest⟩, hblob, d, first, rest, hnew,
            hcontent, hstart, hchain⟩⟩
  · intro checked hcheck
    exact (CheckedRange.check_content.mp hcheck).2

/-! ## Two ways to install a range -/

omit [Blake3] in
/-- The checks of an install that reads the blob itself. The block below the range
    is compared with the first record, and the first record puts the range at the
    start of its envelope. -/
theorem new_checkChain_iff {start : Nat} {parent : Hash} {sizes : TreeSizes} {chain : RangeChain} :
    (∃ range, SealedRange.new start blob = .ok range ∧
      range.checkChain parent sizes = .ok chain) ↔
      ∃ d first rest, RangeDecoder.new blob = .ok d ∧ RangeContent d (first :: rest) ∧
        start = d.start.val ∧ chain = RangeChain.ofRecords first rest ∧
        chain.linksTo parent sizes := by
  simp only [SealedRange.new, SealedRange.checkChain, bind_eq_ok, okMapError_eq_ok, pure_eq_ok,
    Except.ok.injEq, Prod.exists]
  constructor
  · rintro ⟨range, ⟨d, hnew, hrange⟩, chain', _, hcheck, hchain⟩
    subst hrange hchain
    obtain ⟨first, rest, hreads, hlinks, -, hof⟩ := SealedRange.checkChainWith_eq_ok.mp hcheck
    obtain ⟨d', hnew', hstart, -⟩ := (hreads.rangeRecords hnew hlinks).reads
    obtain rfl : d = d' := Except.ok.inj (hnew.symm.trans hnew')
    subst hstart
    obtain ⟨hlinksTo, hlinks⟩ := linksFrom_cons_iff.mp hlinks
    refine ⟨d, first, rest, hnew, (rangeContent_iff hnew).mpr ⟨hreads, hlinks⟩, rfl, hof, ?_⟩
    rw [hof]
    exact hlinksTo
  · rintro ⟨d, first, rest, hnew, hcontent, hstart, hof, hlinksTo⟩
    subst hstart hof
    obtain ⟨hreads, hlinks⟩ := (rangeContent_iff hnew).mp hcontent
    exact ⟨⟨d.start.val, d⟩, ⟨d, hnew, rfl⟩, _, (), SealedRange.checkChainWith_eq_ok.mpr
      ⟨first, rest, hreads, linksFrom_cons_iff.mpr ⟨hlinksTo, hlinks⟩,
        foldlM_eq_ok_foldl fun _ _ _ => rfl, rfl⟩, rfl⟩

/-- A checked range compares the digest it has kept. -/
theorem CheckedRange.checkEntryBlob_eq_ok {range : CheckedRange} :
    range.checkEntryBlob entry = .ok () ↔ entry.checkBlob range.blob = .ok () := by
  refine ⟨range.checkBlob_of_checkEntryBlob, fun h => ?_⟩
  obtain ⟨hlen, hdigest⟩ := ManifestEntry.checkBlob_eq_ok.mp h
  rw [CheckedRange.checkEntryBlob, if_neg (not_not.mpr hlen.symm),
    if_pos (hdigest.symm.trans range.digest_eq)]

/-- An install that checks a blob itself succeeds for the blobs that
    `CheckedRange.check` accepts at this start, and writes what the install of the
    checked range writes. -/
theorem installSealedRange_iff (s : Store ν) (start : Nat) (blob : Bytes) (info : RangeMeta ν)
    (out : Store ν × IndexState) :
    s.installSealedRange start blob info = .ok out ↔
      ∃ range, CheckedRange.check blob info.entry = .ok range ∧ range.start = start ∧
        s.installCheckedRange range info = .ok out := by
  simp only [Store.installSealedRange, Store.installCheckedRange, bind_eq_ok, okMapError_eq_ok,
    ensure_eq_ok]
  constructor
  · rintro ⟨w, hw, _, hblob, range, hrange, chain, hchain, hinstall⟩
    obtain ⟨d, first, rest, hnew, hcontent, hstart, hof, hlinksTo⟩ :=
      new_checkChain_iff.mp ⟨range, hrange, hchain⟩
    obtain ⟨checked, hcheckedBlob, hcheckedStart, hcheckedChain⟩ :=
      CheckedRange.exists_of_content hnew hcontent
    have heq : checked.chain = chain := hcheckedChain.trans hof.symm
    have hentry : checked.checkEntryBlob info.entry = .ok () :=
      CheckedRange.checkEntryBlob_eq_ok.mpr (hcheckedBlob ▸ hblob)
    have hstartEq : checked.start = start := hcheckedStart.trans hstart.symm
    refine ⟨checked, CheckedRange.check_content.mpr ⟨hblob, hcheckedBlob, d, first, rest, hnew,
      hcontent, hcheckedStart, hcheckedChain⟩, hstartEq, w, ?_, (), hentry, (), ?_, ?_⟩
    · rw [hstartEq]
      exact hw
    · rw [heq]
      exact hlinksTo
    · rw [hstartEq, hcheckedBlob, heq]
      exact hinstall
  · rintro ⟨checked, hcheck, hstartEq, w, hw, _, hentry, _, hlinksTo, hinstall⟩
    obtain ⟨hblob, hcheckedBlob, d, first, rest, hnew, hcontent, hcheckedStart, hcheckedChain⟩ :=
      CheckedRange.check_content.mp hcheck
    subst hstartEq hcheckedBlob
    obtain ⟨range, hrange, hchain⟩ := new_checkChain_iff.mpr
      ⟨d, first, rest, hnew, hcontent, hcheckedStart, hcheckedChain, hlinksTo⟩
    exact ⟨w, hw, (), hblob, range, hrange, checked.chain, hchain, hinstall⟩

end

end Ztreamer
