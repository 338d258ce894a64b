import Ztreamer.Index.Reachable

/-! # One answer for each block

    A server sends a block in one of three ways: as the stored bytes
    (`EncodedBlockRecord`), as the encoding of the decoded message
    (`ProtobufBlockRecord`), or as the encoding of a record, also of one that is
    not stored yet. `OneAnswer` says that they agree at a height.

    They agree as long as the stored bytes are the encoding of their record,
    which is true of every block that the index encoded itself. An install
    copies the bytes of its blob, and the check of the blob reads the records
    only: so the answers agree after an install exactly when the blob is
    canonical (`reads_agree_iff`).
-/

namespace Ztreamer

open Octets Result Wire Connected

variable {ν : Type}

section

variable [Proto.Prost]

/-- Every view reads the block at `height`, and all give the same protobuf bytes. -/
def OneAnswer (s : Store ν) (st : IndexState) (height : Nat) : Prop :=
  ∃ (r : CompactBlockRecord) (e : EncodedBlockRecord) (p : ProtobufBlockRecord),
    s.read CompactBlockRecord st height = .ok r ∧ s.read EncodedBlockRecord st height = .ok e ∧
    s.read ProtobufBlockRecord st height = .ok p ∧
    e.block.toBytes = r.toProto.encode ∧ p.block.encode = r.toProto.encode ∧
    (EncodedBlockRecord.fromRecord r).block.toBytes = r.toProto.encode

/-- Every record in the blob is stored as its own encoding. -/
def CanonicalBlob (blob : Bytes) : Prop :=
  ∀ d, RangeDecoder.new blob = .ok d → ∀ (i : Nat) (bytes : Bytes) (r : CompactBlockRecord),
    d.Stores i bytes → d.record i = .ok r → r.encode = .ok bytes

variable {blob bytes : Bytes} {i : Nat}

/-- The range encoder writes canonical blobs. -/
theorem CanonicalBlob.of_encodeRange {records : List CompactBlockRecord}
    (h : encodeRange records = .ok blob) : CanonicalBlob blob := by
  intro d hnew i bytes r hstores hrecord
  obtain ⟨d', hnew', hread⟩ := RangeDecoder.recordAs_encodeRange CompactBlockRecord h
  obtain rfl : d = d' := Except.ok.inj (hnew.symm.trans hnew')
  have hlen : records.length = rangeSize := by
    obtain ⟨-, -, -, hlen, -⟩ := writeRange_eq_ok.mp h
    exact hlen
  have hi : i < records.length := by
    rw [hlen]
    exact (RangeDecoder.recordAs_eq_ok.mp hrecord).1
  obtain ⟨hread, part, hpart, hstores'⟩ := hread i _ (List.getElem?_eq_getElem hi)
  have hsame : r = records[i] := Except.ok.inj (hrecord.symm.trans hread)
  rw [hsame, hstores.unique hstores', hpart]

/-- Every sealed range is canonical. -/
abbrev Store.Canonical (s : Store ν) : Prop := s.AllRanges CanonicalBlob

variable {heightOf : HeightOf} {s s' : Store ν} {st : IndexState}
  {chain records : List CompactBlockRecord}

/-! ## One block -/

/-- The answers for a stored block agree exactly when its bytes are the encoding
    of its record. -/
theorem Represents.oneAnswer_iff (h : Represents heightOf s st chain) {r : CompactBlockRecord}
    (hr : chain[i]? = some r) (hpayload : ∀ tx ∈ r.transactions, tx.hasPayload)
    (hstored : s.StoredAt st i bytes) : OneAnswer s st i ↔ r.encode = .ok bytes := by
  have hi : i < chain.length := (List.getElem?_eq_some_iff.mp hr).1
  obtain ⟨bytes', hstored', hdecode, hread⟩ :=
    h.holds.stored rfl hr hi (h.describes.exists_tip h.connected hi)
  obtain rfl := hstored.unique hstored'
  constructor
  · intro hanswer
    obtain ⟨r', e, p, hr', he, -, hbytes, -⟩ := hanswer
    obtain rfl : r = r' := Except.ok.inj ((hread _ r hdecode).symm.trans hr')
    -- the first view gives the payload of the envelope as it is stored
    obtain ⟨payload, -, henvelope, -⟩ := CompactBlockRecord.decode_eq_ok.mp hdecode
    have he' : StoredBlock.decode bytes =
        .ok (⟨r.height, r.hash, r.previousHash, .encoded payload⟩ : EncodedBlockRecord) := by
      show EncodedBlockRecord.decode bytes = _
      rw [EncodedBlockRecord.decode, henvelope]
      rfl
    have hsame := Except.ok.inj (he.symm.trans (hread _ _ he'))
    rw [hsame] at hbytes
    have hbytes : payload = r.toProto.encode := hbytes
    obtain ⟨hlen, henv⟩ := protobufEnvelope_eq_ok.mp henvelope
    rw [hbytes] at henv
    rw [henv, envelope_length] at hlen
    exact CompactBlockRecord.encode_eq_ok.mpr ⟨hpayload, hlen, henv.symm⟩
  · intro hencode
    have hview : ∀ (α : Type) [StoredBlock α] [LawfulStoredBlock α],
        s.read α st i = .ok (StoredBlock.fromRecord r) := by
      intro α _ _
      exact hread α _ (LawfulStoredBlock.decode_encode hencode)
    refine ⟨r, EncodedBlockRecord.fromRecord r, StoredBlock.fromRecord r, hread _ r hdecode,
      hview EncodedBlockRecord, hview ProtobufBlockRecord, ?_, rfl, ?_⟩
    · rw [EncodedBlockRecord.fromRecord_of_check hpayload]
      rfl
    · rw [EncodedBlockRecord.fromRecord_of_check hpayload]
      rfl

/-- The answers agree for every block of a store with canonical ranges. -/
theorem Represents.oneAnswer (h : Represents heightOf s st chain) (hcanonical : s.Canonical)
    (hi : i < chain.length) : OneAnswer s st i := by
  have hr : chain[i]? = some chain[i] := List.getElem?_eq_getElem hi
  obtain ⟨bytes, hstored, -⟩ :=
    h.holds.stored rfl hr hi (h.describes.exists_tip h.connected hi)
  have hencode : chain[i].encode = .ok bytes := by
    have hat := hstored
    unfold Store.StoredAt at hat
    split at hat
    case isTrue hlt =>
      obtain ⟨blob, d, hblob, hnew, hstores⟩ := hat
      have hle := rangeStart_le i
      obtain ⟨blob', hblob', d', hnew', hrecords⟩ :=
        h.holds.sealed_range (rangeStart i) (rangeStart_mod i) (by omega)
      obtain rfl : blob = blob' := Option.some.inj (hblob.symm.trans hblob')
      obtain rfl : d = d' := Except.ok.inj (hnew.symm.trans hnew')
      obtain ⟨r, hr', hrecord⟩ := hrecords (i % rangeSize) (Nat.mod_lt _ (by decide))
      rw [rangeStart_add_mod, hr] at hr'
      obtain rfl := Option.some.inj hr'
      exact hcanonical _ blob hblob d hnew _ bytes _ hstores hrecord
    case isFalse hge =>
      obtain ⟨r, bytes', hr', hrow, hencode⟩ := h.holds.mutable_row i (by omega) hi
      rw [hr] at hr'
      obtain rfl := Option.some.inj hr'
      rw [Option.some.inj (hat.symm.trans hrow), hencode]
  exact (h.oneAnswer_iff hr (CompactBlockRecord.encode_eq_ok.mp hencode).1 hstored).mpr hencode

/-- A record of a sealed blob is stored at its height. -/
theorem Represents.storedAt (h : Represents heightOf s st chain) {start : Nat}
    (hblob : s.sealedRanges[start]? = some blob) {d : RangeDecoder}
    (hnew : RangeDecoder.new blob = .ok d) (hi : i < rangeSize) (hstores : d.Stores i bytes) :
    s.StoredAt st (start + i) bytes := by
  obtain ⟨hmod, hlt⟩ := h.holds.sealed_key start blob hblob
  have haligned := h.holds.sealed_aligned
  simp only [rangeSize] at hmod haligned hi
  have hstart : rangeStart (start + i) = start := by
    simp only [rangeStart, rangeSize]
    omega
  have hindex : (start + i) % rangeSize = i := by
    simp only [rangeSize]
    omega
  unfold Store.StoredAt
  rw [if_pos (by omega), hstart, hindex]
  exact ⟨blob, d, hblob, hnew, hstores⟩

/-- The answers agree in an installed range only if its blob is canonical. -/
theorem Represents.canonical_of_oneAnswer (h : Represents heightOf s st (chain ++ records))
    (hrecords : RangeRecords blob chain.length records)
    (hblob : s.sealedRanges[chain.length]? = some blob)
    (hanswers : ∀ height, st.Covers height → OneAnswer s st height) : CanonicalBlob blob := by
  intro d hnew i bytes r hstores hrecord
  obtain ⟨hi, -⟩ := RangeDecoder.recordAs_eq_ok.mp hrecord
  have hlen := hrecords.length_eq
  obtain ⟨d', hnew', hrecord'⟩ := hrecords.decoder
  obtain rfl : d = d' := Except.ok.inj (hnew.symm.trans hnew')
  obtain ⟨r', hr'⟩ : ∃ r', records[i]? = some r' := ⟨_, List.getElem?_eq_getElem (by omega)⟩
  obtain rfl : r = r' := Except.ok.inj (hrecord.symm.trans (hrecord' i r' hr'))
  have hr : (chain ++ records)[chain.length + i]? = some r := by
    rw [List.getElem?_append_right (by omega), Nat.add_sub_cancel_left, hr']
  refine (h.oneAnswer_iff hr (hrecords.payload r (List.mem_of_getElem? hr'))
    (h.storedAt hblob hnew hi hstores)).mp ?_
  exact hanswers _ (h.covers_iff.mpr (by rw [List.length_append]; omega))

/-! ## Runs -/

variable [Blake3]

/-- An install call puts the records of its blob on top of the chain. -/
theorem Call.run_installed (h : Represents heightOf s st chain) {c : Call ν}
    (hblob : c.blob? = some blob) (hrespects : c.Respects heightOf) (hrun : c.run s = .ok s') :
    ∃ st' records, RangeRecords blob chain.length records ∧
      Represents heightOf s' st' (chain ++ records) ∧
      s'.sealedRanges[chain.length]? = some blob := by
  cases c with
  | installSealedRange start bytes info =>
    obtain rfl : bytes = blob := Option.some.inj hblob
    obtain ⟨out, hinstall, rfl⟩ := map_eq_ok.mp hrun
    obtain ⟨records, hrecords, hrep, -, hranges⟩ := h.installSealedRange hrespects hinstall
    exact ⟨_, records, hrecords, hrep, by rw [hranges, Table.get_put, if_pos rfl]⟩
  | installCheckedRange range info =>
    obtain rfl : range.blob = blob := Option.some.inj hblob
    obtain ⟨out, hinstall, rfl⟩ := map_eq_ok.mp hrun
    obtain ⟨records, hrecords, hrep, -, hranges⟩ := h.installCheckedRange hrespects hinstall
    exact ⟨_, records, hrecords, hrep, by rw [hranges, Table.get_put, if_pos rfl]⟩
  | _ => cases hblob

/-- The calls that install canonical blobs only. -/
def Call.InstallsCanonical (c : Call ν) : Prop :=
  c.FromBuilder ∧ ∀ blob ∈ c.blob?, CanonicalBlob blob

theorem Reachable.canonical (h : Reachable Call.InstallsCanonical s) : s.Canonical :=
  h.allRanges (fun _ _ => .of_encodeRange) fun _ hc => hc

/-- In every run that installs canonical blobs only, the answers agree for every
    block. Any next call keeps this exactly when it installs no other blob. -/
theorem reads_agree_iff (s : Store ν) (hreach : Reachable Call.InstallsCanonical s) :
    ∃ st, s.getState = .ok st ∧ (∀ height, st.Covers height → OneAnswer s st height) ∧
      ∀ (c : Call ν) (s' : Store ν), c.FromBuilder → c.run s = .ok s' →
        ∃ st', s'.getState = .ok st' ∧
          ((∀ height, st'.Covers height → OneAnswer s' st' height) ↔
            ∀ blob ∈ c.blob?, CanonicalBlob blob) := by
  obtain ⟨st, chain, hrep⟩ := hreach.represents fun c hc => ⟨hc.1, c.respects_any⟩
  refine ⟨st, hrep.state, fun height hcovers =>
    hrep.oneAnswer hreach.canonical (hrep.covers_iff.mp hcovers), ?_⟩
  intro c s' hc hrun
  obtain ⟨⟨st', chain', hrep'⟩, hranges⟩ := Call.run_represents hrep hc c.respects_any hrun
  refine ⟨st', hrep'.state, ?_, ?_⟩
  · intro hanswers blob hblob
    obtain ⟨st'', records, hrecords, hrep'', hsealed⟩ :=
      Call.run_installed hrep hblob c.respects_any hrun
    obtain rfl : st' = st'' := Except.ok.inj (hrep'.state.symm.trans hrep''.state)
    exact hrep''.canonical_of_oneAnswer hrecords hsealed hanswers
  · intro hblob height hcovers
    exact hrep'.oneAnswer (hreach.canonical.of_rangesFrom (fun _ _ => .of_encodeRange)
      hranges hblob)
      (hrep'.covers_iff.mp hcovers)

end

/-! ## A blob that is not canonical -/

/-- The stored form of a record with a field that the schema does not have. -/
def withUnknownField (r : CompactBlockRecord) : Bytes :=
  envelope r.height r.hash r.previousHash (r.toProto.encode ++ encodeField (15, .varint 0))

theorem length_withUnknownField (r : CompactBlockRecord) :
    (withUnknownField r).length = r.toProto.encode.length + protobufEnvelopeBytes + 2 := by
  have hfield : (encodeField (15, .varint 0)).length = 2 := by
    simp [encodeField, encodeValue, Value.wireType, varint]
  rw [withUnknownField, envelope_length, List.length_append, hfield]
  omega

theorem decode_withUnknownField [Proto.Prost] {r : CompactBlockRecord}
    (hlen : (withUnknownField r).length ≤ maxRecordBytes) :
    CompactBlockRecord.decode (withUnknownField r) = .ok r := by
  refine CompactBlockRecord.decode_eq_ok.mpr ⟨_, r.toProto,
    protobufEnvelope_eq_ok.mpr ⟨hlen, rfl⟩, ?_, CompactBlockRecord.fromProto_toProto r⟩
  apply Proto.Prost.decode_unknown
  · exact ⟨by decide, by decide, (by decide : 0 < 2 ^ 64)⟩
  · decide
  · rw [withUnknownField, envelope_length] at hlen
    simp only [maxRecordBytes] at hlen
    omega

theorem encode_ne_withUnknownField (r : CompactBlockRecord) :
    r.encode ≠ .ok (withUnknownField r) := by
  intro h
  obtain ⟨-, -, heq⟩ := CompactBlockRecord.encode_eq_ok.mp h
  have hlen := congrArg List.length heq
  rw [length_withUnknownField, envelope_length] at hlen
  omega

/-- An entry for `blob`, a range that starts at genesis and ends with `last`. -/
def rangeEntry [Blake3] (blob : Bytes) (hlen : blob.length < 2 ^ 64) (last : CompactBlockRecord) :
    ManifestEntry Unit where
  rangeVersion := rangeFormatVersion
  startHeight := 0
  endHeight := last.height
  endHash := last.hash
  endTreeSizes := last.endTreeSizes
  frontiers := ⟨[], [], []⟩
  subtreeRoots := []
  blobDigest := Blake3.hash blob
  blobLen := ⟨blob.length, hlen⟩
  epochEnd := false

/-- Plain records have no commitments, so their tree sizes do not decrease. -/
theorem linksFrom_plain {records : List CompactBlockRecord}
    (hchain : records.IsChain CompactBlockRecord.Precedes)
    (hsizes : ∀ r ∈ records, r.endTreeSizes = default) : LinksFrom none records := by
  apply linksFrom_none
  rw [List.isChain_iff_getElem]
  intro i hi
  refine ⟨(List.isChain_iff_getElem.mp hchain i hi).2, ?_⟩
  rw [hsizes _ (List.getElem_mem hi), hsizes _ (List.getElem_mem (by omega))]
  decide

theorem plainRecords_append (fork n m : Nat) :
    plainRecords fork (n + m) =
      plainRecords fork n ++ (List.range m).map fun i => plainRecord fork (n + i) := by
  rw [plainRecords, branchRecords, List.range_add, List.map_append, List.map_map]
  rfl

/-! ## Reorgs -/

section

variable [Proto.Prost] {heightOf : HeightOf} {s : Store ν} {st : IndexState}
  {chain target : List CompactBlockRecord} (h : Represents heightOf s st chain) {m : Nat}
  (hm : m < chain.length) (htake : chain.take (m + 1) = target.take (m + 1))
  (hconnected : Connected heightOf target) {blocks : List EncodedBlock}
  (hencoded : EncodedAs target blocks) (hlength : target.length ≤ 2 ^ 31)
  (hgen : st.generation + 1 < 2 ^ 64) (sealThrough : Option Nat)

include h hm htake hconnected

/-- The blocks of `target` above the common ancestor `m` go on from it. -/
theorem Represents.reorgTo : ∃ common last, chain[m]? = some common ∧
    common.blockId.height = m ∧ replaced chain m (target.drop (m + 1)) = target ∧
    (replaced chain m (target.drop (m + 1))).getLast? = some last ∧
    Extends heightOf (chain.take (m + 1)) (target.drop (m + 1)) := by
  have hget : chain[m]? = some chain[m] := List.getElem?_eq_getElem hm
  obtain ⟨last, hlast⟩ := replaced_getLast? (target.drop (m + 1)) hget
  refine ⟨_, last, hget, h.connected.height_eq hget, ?_, hlast, ?_⟩
  · rw [replaced, htake, List.take_append_drop]
  · apply Connected.extends_of_append
    rw [htake, List.take_append_drop]
    exact hconnected

include hencoded hlength hgen

/-- A reorg of the mutable blocks above the common ancestor `m` is written. -/
theorem Represents.mutableReorgs (hsealed : st.sealedEnd ≤ m + 1) :
    ∃ (common : CompactBlockRecord) (s' : Store ν) (st' : IndexState), chain[m]? = some common ∧
      s.replaceMutableSuffix st.generation common.blockId (target.drop (m + 1)) sealThrough =
        .ok (s', st') := by
  obtain ⟨common, last, hget, hheight, hreplaced, hlast, hext⟩ := h.reorgTo hm htake hconnected
  have hfinish := h.replaceMutableSuffix (by rwa [hheight]) rfl (by rwa [hheight])
    (by rwa [hheight]) (hencoded.drop _) (by rwa [hheight]) sealThrough
  rw [hheight, hreplaced] at hfinish
  obtain ⟨⟨s', st'⟩, hok, -⟩ := hfinish.resolve_left (by
    rintro ⟨_, hnear⟩
    simp only [NearOverflow, rangeSize, IndexState.withDurableTip] at hnear
    omega)
  refine ⟨common, s', st', hget, ?_⟩
  rw [Store.replaceMutableSuffix, h.start_eq_ok.mpr ⟨rfl, rfl⟩, ok_bind, hok]

/-- A deep reorg to a chain with the same blocks through the common ancestor `m` is
    written. The rows of the ranges from that of the ancestor on are gone. -/
theorem Represents.deepReorgs :
    ∃ (common : CompactBlockRecord) (s' : Store ν) (st' st₁ : IndexState),
      chain[m]? = some common ∧
      s.replaceDeepSuffix st.generation common.blockId (target.drop (m + 1)) sealThrough =
        .ok (s', st') ∧
      Represents heightOf s' st' target ∧
      st₁.sealedEnd = min st.sealedEnd (rangeStart m) ∧
      st₁.verifiedThrough = (if min st.sealedEnd (rangeStart m) = 0 then none
        else st.verifiedThrough.map (min · (min st.sealedEnd (rangeStart m) - 1))) ∧
      st' = (st₁.sealTo (sealTarget sealThrough st₁.sealedEnd target.length)).nextGeneration ∧
      ∀ start : Nat, s'.rangeMeta[start]? =
        if start < min st.sealedEnd (rangeStart m) then s.rangeMeta[start]? else none := by
  obtain ⟨common, last, hget, hheight, hreplaced, hlast, hext⟩ := h.reorgTo hm htake hconnected
  obtain ⟨s₁, st₁, hcut, hfinish⟩ := h.replaceDeepSuffix (by rwa [hheight]) rfl (by rwa [hheight])
    (by rw [hheight, hreplaced]; exact hencoded.drop _) (by rwa [hheight]) sealThrough
  rw [hheight] at hcut
  rw [hheight, hreplaced] at hfinish
  obtain ⟨⟨s', st'⟩, hok, hrep, hst, hpacks⟩ := hfinish.resolve_left (by
    rintro ⟨_, hnear⟩
    rw [NearOverflow, hcut.generation] at hnear
    simp only [rangeSize] at hnear
    omega)
  refine ⟨common, s', st', st₁, hget, ?_, hrep, hcut.sealedEnd, hcut.verifiedThrough, hst, ?_⟩
  · rw [Store.replaceDeepSuffix, h.start_eq_ok.mpr ⟨rfl, rfl⟩, ok_bind, hok]
  · intro start
    rw [hpacks.rangeMeta]
    exact hcut.rangeMeta start

end

/-- An index of sealed plain blocks installs the next range of the chain, in whatever
    form its records are stored. -/
theorem Represents.installs_plain [Proto.Prost] [Blake3] {s : Store Unit} {st : IndexState}
    {fork n : Nat} (h : Represents plainHeight s st (plainRecords fork n))
    (hfull : st.sealedEnd = n) (hn : n + rangeSize ≤ 2 ^ 31) (hgen : st.generation + 1 < 2 ^ 64)
    {state : VerifyState} (hstate : state ≠ .rejected) {f : CompactBlockRecord → Bytes}
    (hform : ∀ height, CompactBlockRecord.decode (f (plainRecord fork height)) =
      .ok (plainRecord fork height)) :
    ∃ (info : RangeMeta Unit) (range : CheckedRange) (s' : Store Unit) (st' : IndexState),
      info.state = state ∧ CheckedRange.check range.blob info.entry = .ok range ∧
      s.installCheckedRange range info = .ok (s', st') ∧
      BlobRespects plainHeight range.blob ∧
      Represents plainHeight s' st' (plainRecords fork (n + rangeSize)) ∧
      s'.sealedRanges[n]? = some range.blob ∧
      RangeRecords range.blob n ((List.range rangeSize).map fun i => plainRecord fork (n + i)) ∧
      ∀ i < rangeSize, s'.StoredAt st' (n + i) (f (plainRecord fork (n + i))) := by
  have hpos : 0 < rangeSize := by decide
  have hconnected := (plainBlocks_nodeChain fork hn).connected
  rw [plainRecords_append] at hconnected
  generalize hrecs : (List.range rangeSize).map (fun i => plainRecord fork (n + i)) = records
    at hconnected
  have hmem : ∀ r ∈ records, ∃ height, r = plainRecord fork height := by
    intro r hr
    rw [← hrecs] at hr
    obtain ⟨i, -, rfl⟩ := List.mem_map.mp hr
    exact ⟨n + i, rfl⟩
  have hlength : records.length = rangeSize := by rw [← hrecs, List.length_map, List.length_range]
  have hext : Extends plainHeight (plainRecords fork n) records :=
    Connected.extends_of_append hconnected
  have hparts : List.Forall₂ (fun r part => CompactBlockRecord.decode part = .ok r ∧
      ∀ tx ∈ r.transactions, tx.hasPayload) records (records.map f) := by
    rw [List.forall₂_map_right_iff, List.forall₂_same]
    intro r hr
    obtain ⟨height, rfl⟩ := hmem r hr
    have hnone : (plainRecord fork height).transactions = [] := rfl
    exact ⟨hform height, by simp [hnone]⟩
  have hheight := hext.height
  rw [length_branchRecords] at hheight
  obtain ⟨blob, -, hrecords, hstores⟩ := RangeRecords.of_parts hparts hlength hext.isChain hheight
    (hfull ▸ h.holds.sealed_aligned)
  obtain ⟨d, hnew, -⟩ := hrecords.decoder
  have hpart := hstores d hnew
  have hsizes : ∀ r ∈ records, r.endTreeSizes = default := by
    intro r hr
    obtain ⟨height, rfl⟩ := hmem r hr
    rfl
  obtain ⟨first, rest, hrest⟩ : ∃ first rest, records = first :: rest :=
    List.exists_cons_of_ne_nil (List.ne_nil_of_length_pos (by omega))
  rw [hrest] at hrecords hsizes hext
  let last := (first :: rest).getLast (by simp)
  let info : RangeMeta Unit :=
    ⟨{ rangeEntry blob (RangeDecoder.length_of_new hnew) last with startHeight := ⟨n, by omega⟩ },
      state, none, none, none, []⟩
  have hblob : info.entry.checkBlob blob = .ok () := ManifestEntry.checkBlob_eq_ok.mpr ⟨rfl, rfl⟩
  obtain ⟨range, hcheck, rfl, hstart, hchain⟩ :=
    hrecords.check (linksFrom_plain hext.isChain hsizes) hblob
  -- the tip of the index and its tree sizes
  have htip : first.previousHash = st.installParentHash ∧ st.treeSizes = default := by
    obtain rfl : first = plainRecord fork n := by
      have hhead : ((List.range rangeSize).map fun i => plainRecord fork (n + i))[0]? =
          some first := by rw [hrecs, hrest]; rfl
      rw [List.getElem?_map, List.getElem?_range hpos] at hhead
      exact (Option.some.inj hhead).symm
    rw [IndexState.installParentHash, h.describes.tip, h.describes.treeSizes]
    cases n with
    | zero => exact ⟨rfl, rfl⟩
    | succ n =>
      rw [plainRecords, branchRecords, List.range_succ, List.map_append, List.map_singleton,
        List.getLast?_concat]
      exact ⟨rfl, rfl⟩
  have hlink : range.chain.linksTo st.installParentHash st.treeSizes := by
    rw [hchain, htip.2]
    refine ⟨htip.1, ?_⟩
    show first.endTreeSizes.follows default
    rw [hsizes first List.mem_cons_self]
    decide
  have hmatches : info.Matches n (RangeChain.ofRecords first rest) :=
    ⟨rfl, rfl, rfl, rfl, rfl, hstate⟩
  obtain ⟨⟨s', st'⟩, hok⟩ := h.install_isOk (HeightOf.functional_ofFun _) hext hmatches hgen
  have hinstall : s.installCheckedRange range info = .ok (s', st') := by
    rw [h.installCheckedRange_eq (by rw [hfull, length_branchRecords])
      (by rw [length_branchRecords]; omega) (by rw [hstart, length_branchRecords]) hblob hlink,
      hchain, length_branchRecords]
    exact hok
  have hrespects : BlobRespects plainHeight range.blob := hrecords.blobRespects hext.heightOf_hash
  obtain ⟨records', hrecords', hrep, -, hsealed⟩ := h.installCheckedRange hrespects hinstall
  rw [length_branchRecords] at hrecords' hsealed
  rw [hrecords'.unique hrecords, ← hrest, ← hrecs, ← plainRecords_append] at hrep
  have hblob : s'.sealedRanges[n]? = some range.blob := by
    rw [hsealed]
    exact (Table.get_put _ _ _ _).trans (if_pos rfl)
  rw [← hrest] at hrecords
  refine ⟨info, range, s', st', rfl, hcheck, hinstall, hrespects, hrep, hblob, hrecords, ?_⟩
  intro i hi
  refine hrep.storedAt hblob hnew hi (hpart i _ ?_)
  rw [← hrecs, List.getElem?_map, List.getElem?_map, List.getElem?_range hi]
  rfl

/-- An empty index installs the first range of a plain chain, in whatever form its
    records are stored. -/
theorem plainRange_installed [Proto.Prost] [Blake3] (fork : Nat) {f : CompactBlockRecord → Bytes}
    (hform : ∀ height, CompactBlockRecord.decode (f (plainRecord fork height)) =
      .ok (plainRecord fork height)) :
    ∃ (blob : Bytes) (info : RangeMeta Unit) (range : CheckedRange) (s : Store Unit)
      (st : IndexState), CheckedRange.check blob info.entry = .ok range ∧
      Store.empty.installCheckedRange range info = .ok (s, st) ∧
      Reachable (Call.Honest plainHeight) s ∧
      Represents plainHeight s st (plainRecords fork rangeSize) ∧
      s.sealedRanges[0]? = some blob ∧
      ∀ i < rangeSize, s.StoredAt st i (f (plainRecord fork i)) := by
  have hempty : Represents plainHeight (Store.empty : Store Unit) {} (plainRecords fork 0) :=
    represents_empty
  obtain ⟨info, range, s, st, -, hcheck, hinstall, hrespects, hrep, hblob, -, hstored⟩ :=
    hempty.installs_plain rfl (by decide) (by decide) (by decide : VerifyState.verified ≠ .rejected)
      hform
  rw [Nat.zero_add] at hrep
  simp only [Nat.zero_add] at hstored
  exact ⟨range.blob, info, range, s, st, hcheck, hinstall,
    .commit (.installCheckedRange range info) .empty ⟨trivial, hrespects⟩
      (map_eq_ok.mpr ⟨_, hinstall, rfl⟩), hrep, hblob, hstored⟩

theorem decode_withUnknownField_plain [Proto.Prost] (fork height : Nat) :
    CompactBlockRecord.decode (withUnknownField (plainRecord fork height)) =
      .ok (plainRecord fork height) := by
  have hnone : (plainRecord fork height).transactions = [] := rfl
  have hsize := (plainRecord fork height).toProto_length_le (by rw [hnone]; decide)
  apply decode_withUnknownField
  rw [length_withUnknownField]
  simp only [hnone, List.map_nil, List.sum_nil, maxRecordBytes] at hsize ⊢
  omega

section

attribute [local instance] Proto.wireDecoder zeroDigest

/-- The answers agree in an index with three blocks. -/
theorem reads_agree_three : ∃ (s : Store Unit) (st : IndexState),
    Reachable Call.InstallsCanonical s ∧ s.getState = .ok st ∧ st.Covers 2 ∧
      OneAnswer s st 2 := by
  obtain ⟨s, st, hreach, hrep, -⟩ : ∃ (s : Store Unit) (st : IndexState),
      Reachable Call.InstallsCanonical s ∧ _ :=
    reachable_plain 100 (n := 3) (by decide) none fun _ hc _ => ⟨hc.1, by simp [Call.blob?]⟩
  obtain ⟨st', hst, hanswers, -⟩ := reads_agree_iff s hreach
  obtain rfl : st' = st := Except.ok.inj (hst.symm.trans hrep.state)
  have hcovers : st'.Covers 2 := hrep.covers_iff.mpr (by simp)
  exact ⟨s, st', hreach, hst, hcovers, hanswers 2 hcovers⟩

/-- The check accepts a blob whose records have an unknown field. After its
    install the stored bytes are not the encoding of the record at genesis. -/
theorem reads_differ_after_install : ∃ (blob : Bytes) (info : RangeMeta Unit)
    (range : CheckedRange) (s : Store Unit) (st : IndexState),
    CheckedRange.check blob info.entry = .ok range ∧
    Store.empty.installCheckedRange range info = .ok (s, st) ∧
    Reachable (Call.Honest plainHeight) s ∧ st.Covers 0 ∧ ¬ OneAnswer s st 0 := by
  obtain ⟨blob, info, range, s, st, hcheck, hinstall, hreach, hrep, -, hstored⟩ :=
    plainRange_installed 1000 (decode_withUnknownField_plain 1000)
  have hzero : (plainRecords 1000 rangeSize)[0]? = some (plainRecord 1000 0) := by
    simp [plainRecords, branchRecords, rangeSize]
  refine ⟨blob, info, range, s, st, hcheck, hinstall, hreach,
    hrep.covers_iff.mpr (List.getElem?_eq_some_iff.mp hzero).1, ?_⟩
  have hpayload : ∀ tx ∈ (plainRecord 1000 0).transactions, tx.hasPayload := by
    intro tx htx
    cases htx
  rw [hrep.oneAnswer_iff hzero hpayload (hstored 0 (by decide))]
  exact encode_ne_withUnknownField _

end

end Ztreamer
