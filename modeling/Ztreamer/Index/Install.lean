import Ztreamer.Index.Writes

/-! # Installs

    An install adds the records of a checked blob to the chain. The check has
    read every record of the blob, so the blob stores the new end of the chain.
    The write of range metadata changes no block.
-/

namespace Ztreamer

open Octets Result Connected

variable {ν : Type}

/-! ## The records of a checked blob -/

/-- The records of the blob at `start`: one for each height of the range, in the
    order of the heights, each linked to the one before it. -/
structure RangeRecords [Proto.Prost] (blob : Bytes) (start : Nat)
    (records : List CompactBlockRecord) : Prop where
  length_eq : records.length = rangeSize
  decoder : ∃ d, RangeDecoder.new blob = .ok d ∧
    ∀ (i : Nat) (r : CompactBlockRecord), records[i]? = some r → d.record i = .ok r
  height : ∀ (i : Nat) (r : CompactBlockRecord), records[i]? = some r → r.height.val = start + i
  isChain : records.IsChain CompactBlockRecord.Precedes
  payload : ∀ r ∈ records, ∀ tx ∈ r.transactions, tx.hasPayload

variable {start : Nat} {records : List CompactBlockRecord} {w : Writer ν}

theorem RangeRecords.end_le [Proto.Prost] {blob : Bytes} (h : RangeRecords blob start records) :
    start + records.length ≤ 2 ^ 32 := by
  have hlen := h.length_eq
  have hlt : records.length - 1 < records.length := by
    rw [hlen]
    decide
  have hlast := h.height _ _ (List.getElem?_eq_getElem hlt)
  have hheight := records[records.length - 1].height.isLt
  omega

theorem LinksFrom.isChain {below : Option (Hash × TreeSizes)} (h : LinksFrom below records) :
    records.IsChain (fun a b => b.previousHash = a.hash) ∧
      ∀ b ∈ below, ∀ r ∈ records.head?, r.previousHash = b.1 := by
  induction records generalizing below with
  | nil => simp
  | cons r records ih =>
    obtain ⟨hchain, hhead⟩ := ih h.2
    refine ⟨List.isChain_cons.mpr ⟨fun r' hr' => hhead _ rfl r' hr', hchain⟩, ?_⟩
    intro b hb r' hr'
    obtain rfl : r = r' := by simpa using hr'
    exact (h.1 b hb).1

theorem isChain_precedes (hlinks : records.IsChain (fun a b => b.previousHash = a.hash))
    (hheights : ∀ (i : Nat) (r : CompactBlockRecord), records[i]? = some r →
      r.height.val = start + i) : records.IsChain CompactBlockRecord.Precedes := by
  rw [List.isChain_iff_getElem] at hlinks ⊢
  intro i hi
  have h1 := hheights i _ (List.getElem?_eq_getElem (by omega))
  have h2 := hheights (i + 1) _ (List.getElem?_eq_getElem hi)
  exact ⟨by omega, hlinks i hi⟩

/-- The hash entries of an install are those of its blocks. -/
theorem foldlM_putNewHash_eq_ok {ids : List BlockId} {w' : Writer ν}
    (h : ids.foldlM Writer.putNewHash w = .ok w') :
    w' = { w with tables := { w.tables with
      hashToHeight := Table.putAll w.tables.hashToHeight
        (ids.map fun id => (id.hash, id.height)) } } := by
  induction ids generalizing w with
  | nil =>
    cases h
    rfl
  | cons id ids ih =>
    simp only [List.foldlM_cons, bind_eq_ok, Writer.putNewHash, ensure_eq_ok, pure_eq_ok,
      Except.ok.injEq] at h
    obtain ⟨_, ⟨-, -, rfl⟩, h⟩ := h
    rw [ih h]
    rfl

/-- The height through which the ranges are verified after an install at `start`. A
    verified range that starts after the verified prefix extends it. -/
def IndexState.installVerified (st : IndexState) (start : Nat) (info : RangeMeta ν) : Option Nat :=
  if info.state = .verified ∧ st.verifiedThrough.elim 0 (· + 1) = start
  then some info.entry.endHeight.val else st.verifiedThrough

theorem putSealedRange_eq_ok {packed : Bytes} {info : RangeMeta ν} {w' : Writer ν}
    (h : w.putSealedRange start packed info = .ok w') :
    w'.tables = { w.tables with
        sealedRanges := w.tables.sealedRanges.insert start packed
        rangeMeta := w.tables.rangeMeta.insert start info } ∧
      w'.state.sealedThrough = some info.entry.endHeight.val ∧
      w'.state.generation = w.state.generation ∧
      w'.state.verifiedThrough = w.state.installVerified start info := by
  rw [Writer.putSealedRange] at h
  simp only at h
  unfold IndexState.installVerified
  split at h
  case isTrue hverified =>
    obtain ⟨next, hnext, h⟩ := bind_eq_ok.mp h
    obtain ⟨-, hnext⟩ := checkedHeight_eq_ok.mp hnext
    split at h
    case isTrue hstart =>
      cases h
      exact ⟨rfl, rfl, rfl, (if_pos ⟨hverified, hnext.trans hstart⟩).symm⟩
    case isFalse hstart =>
      cases h
      exact ⟨rfl, rfl, rfl, (if_neg fun hboth => hstart (hnext.symm.trans hboth.2)).symm⟩
  case isFalse hverified =>
    cases h
    exact ⟨rfl, rfl, rfl, (if_neg fun hboth => hverified hboth.1).symm⟩

/-- The hashes of an install are all written, or one of them is refused. -/
theorem foldlM_putNewHash_cases (ids : List BlockId) (w : Writer ν) :
    (∃ height, ids.foldlM Writer.putNewHash w = .error (.duplicateHash height)) ∨
      ∃ w', ids.foldlM Writer.putNewHash w = .ok w' := by
  induction ids generalizing w with
  | nil => exact .inr ⟨w, rfl⟩
  | cons id ids ih =>
    rw [List.foldlM_cons]
    by_cases hnone : w.tables.hashToHeight[id.hash]? = none
    · rw [Writer.putNewHash, ensure_of _ hnone, ok_bind, pure_eq_ok, ok_bind]
      exact ih _
    · rw [Writer.putNewHash, ensure_of_not _ hnone, error_bind, error_bind]
      exact .inl ⟨id.height, rfl⟩

/-- Hashes that are all new and all different are written. -/
theorem foldlM_putNewHash_isOk {ids : List BlockId} {w : Writer ν}
    (hdistinct : (ids.map (·.hash)).Nodup)
    (hnew : ∀ id ∈ ids, w.tables.hashToHeight[id.hash]? = none) :
    ∃ w', ids.foldlM Writer.putNewHash w = .ok w' := by
  induction ids generalizing w with
  | nil => exact ⟨w, rfl⟩
  | cons id ids ih =>
    rw [List.map_cons, List.nodup_cons] at hdistinct
    rw [List.foldlM_cons, Writer.putNewHash, ensure_of _ (hnew id List.mem_cons_self), ok_bind,
      pure_eq_ok, ok_bind]
    apply ih hdistinct.2
    intro id' hid'
    have hne : id.hash ≠ id'.hash := by
      intro heq
      exact hdistinct.1 (heq ▸ List.mem_map_of_mem hid')
    show (w.tables.hashToHeight.insert id.hash id.height)[id'.hash]? = none
    rw [Table.get_put, if_neg hne]
    exact hnew id' (List.mem_cons_of_mem id hid')

/-- The range is written unless the verified prefix ends at the largest height. -/
theorem putSealedRange_isOk (start : Nat) (packed : Bytes) (info : RangeMeta ν)
    (hnext : ∃ next, w.state.nextVerifyStart = .ok next) :
    ∃ w', w.putSealedRange start packed info = .ok w' := by
  obtain ⟨next, hnext⟩ := hnext
  unfold Writer.putSealedRange
  split
  · have hsame : IndexState.nextVerifyStart
        { w.state with sealedThrough := some info.entry.endHeight.val } = .ok next := hnext
    simp only [hsame, ok_bind]
    split <;> exact ⟨_, rfl⟩
  · exact ⟨_, rfl⟩

/-- The hash to which the first installed record links is that of the tip. -/
theorem Describes.link_of_installParentHash {st : IndexState} {chain : List CompactBlockRecord}
    {sealed : Nat} (h : Describes st chain sealed) {first : CompactBlockRecord}
    (hprevious : first.previousHash = st.installParentHash) :
    ∀ last ∈ chain.getLast?, first.previousHash = last.hash := by
  intro last hlast
  rw [hprevious, IndexState.installParentHash, (h.tip_of_getLast hlast).1]
  rfl

section

variable [Proto.Prost]

variable {records rest : List CompactBlockRecord} {blob : Bytes} {first : CompactBlockRecord}
  {start : Nat} {info : RangeMeta ν} {out : Store ν × IndexState}

theorem SealedRange.Reads.payload {range : SealedRange} {heights : List Nat}
    (h : range.Reads heights records) : ∀ r ∈ records, ∀ tx ∈ r.transactions, tx.hasPayload := by
  intro r hr
  obtain ⟨i, hi⟩ := List.mem_iff_getElem?.mp hr
  obtain ⟨_, -, -, hpayload, -⟩ := forall₂_getElem? h.flip hi
  exact hpayload

/-- The records that the chain check reads are the records of the blob. -/
theorem SealedRange.Reads.rangeRecords {range : SealedRange} {below : Option (Hash × TreeSizes)}
    (h : range.Reads range.heights (first :: rest))
    (hnew : RangeDecoder.new blob = .ok range.decoder) (hlinks : LinksFrom below (first :: rest)) :
    RangeRecords blob range.start (first :: rest) := by
  have hread : ∀ (i : Nat) (r : CompactBlockRecord), (first :: rest)[i]? = some r →
      range.decoder.record i = .ok r ∧ r.height.val = range.start + i := by
    intro i r hr
    obtain ⟨height, hheight, hread, -, hrheight⟩ := forall₂_getElem? h.flip hr
    have hval : height = range.start + i := by
      rw [SealedRange.heights] at hheight
      obtain ⟨hlt, rfl⟩ := List.getElem?_eq_some_iff.mp hheight
      simp
    subst hval
    simp only [SealedRange.read, bind_eq_ok, ensure_eq_ok, Nat.add_sub_cancel_left] at hread
    obtain ⟨-, -, hrecord⟩ := hread
    exact ⟨hrecord, hrheight⟩
  -- the range ends below the largest height, so it has all of its heights
  have hstart : range.start + (rangeSize - 1) < 2 ^ 32 := by
    obtain ⟨hrecord, hheight⟩ := hread 0 first rfl
    obtain ⟨-, -, hdstart, -⟩ := RangeDecoder.recordAs_eq_ok.mp hrecord
    obtain ⟨-, ⟨stop, hstop, -⟩, -⟩ := RangeDecoder.new_eq_ok.mp hnew
    have hsame : (StoredBlock.height first).val = first.height.val := rfl
    have := stop.isLt
    omega
  have hlen : (first :: rest).length = rangeSize := by
    rw [← h.length_eq, SealedRange.heights, List.length_range']
    simp only [rangeSize] at *
    omega
  exact ⟨hlen, ⟨range.decoder, hnew, fun i r hr => (hread i r hr).1⟩,
    fun i r hr => (hread i r hr).2,
    isChain_precedes hlinks.isChain.1 fun i r hr => (hread i r hr).2, h.payload⟩

theorem RangeRecords.reads (h : RangeRecords blob start records) :
    ∃ d, RangeDecoder.new blob = .ok d ∧ d.start.val = start ∧
      SealedRange.Reads ⟨start, d⟩ (SealedRange.heights ⟨start, d⟩) records := by
  have hlen := h.length_eq
  obtain ⟨d, hnew, hrecord⟩ := h.decoder
  have hpos : 0 < records.length := by
    rw [hlen]
    decide
  have hstart : d.start.val = start := by
    obtain ⟨-, -, hheight, -⟩ :=
      RangeDecoder.recordAs_eq_ok.mp (hrecord 0 _ (List.getElem?_eq_getElem hpos))
    have hzero := h.height 0 _ (List.getElem?_eq_getElem hpos)
    exact hheight.trans hzero
  obtain ⟨-, ⟨stop, hstop, -⟩, -⟩ := RangeDecoder.new_eq_ok.mp hnew
  have hstopLt := stop.isLt
  refine ⟨d, hnew, hstart, List.forall₂_iff_get.mpr ⟨?_, ?_⟩⟩
  · rw [SealedRange.heights, List.length_range', hlen]
    simp only [rangeSize] at *
    omega
  · intro i hi hi'
    have hget := List.getElem?_eq_getElem hi'
    have hheight := h.height i _ hget
    simp only [List.get_eq_getElem, SealedRange.heights, List.getElem_range', Nat.one_mul]
    refine ⟨?_, h.payload _ (List.getElem_mem hi'), hheight⟩
    simp only [SealedRange.read, Nat.le_add_right, ensure_of, ok_bind, Nat.add_sub_cancel_left]
    exact hrecord i _ hget

/-- Encoded forms of linked records at a range start are written as a blob of these
    records. They need not be the encodings that the records give. -/
theorem RangeRecords.of_parts {parts : List Bytes}
    (hparts : List.Forall₂ (fun r part => CompactBlockRecord.decode part = .ok r ∧
      ∀ tx ∈ r.transactions, tx.hasPayload) records parts) (hlen : records.length = rangeSize)
    (hchain : records.IsChain CompactBlockRecord.Precedes)
    (hstart : ∀ r ∈ records.head?, r.height.val = start) (halign : start % rangeSize = 0) :
    ∃ blob, encodeRangeFromBytes parts = .ok blob ∧ RangeRecords blob start records ∧
      ∀ d, RangeDecoder.new blob = .ok d → ∀ (i : Nat) (part : Bytes), parts[i]? = some part →
        d.Stores i part := by
  have hids : HaveIds parts (records.map (·.recordId)) := by
    rw [HaveIds, List.forall₂_map_right_iff]
    refine hparts.flip.imp fun part r hpart => ?_
    obtain ⟨payload, -, henvelope, -⟩ := CompactBlockRecord.decode_eq_ok.mp hpart.1
    exact RangeRecord.id_bytes_eq_ok.mpr ⟨payload, henvelope⟩
  obtain ⟨blob, hblob⟩ : ∃ blob, encodeRangeFromBytes parts = .ok blob := by
    have hfollows : (records.map (·.recordId)).IsChain RecordId.Follows :=
      (List.isChain_map _).mpr hchain
    cases records with
    | nil => simp [rangeSize] at hlen
    | cons first rest =>
      have hfirst : first.height.val = start := hstart first rfl
      apply encodeRangeFromBytes_isOk (hparts.length_eq.symm.trans hlen) hids hfollows
      show first.height.val % rangeSize = 0
      rw [hfirst, halign]
  obtain ⟨d, hnew, hread⟩ := RangeDecoder.recordAs_encodeRangeFromBytes CompactBlockRecord hblob
  refine ⟨blob, hblob, ⟨hlen, ⟨d, hnew, fun i r hr => ?_⟩, fun i r hr => ?_, hchain,
    fun r hr => ?_⟩,
    fun d' hnew' i part hpart => ?_⟩
  · obtain ⟨part, hpart, hdecode, -⟩ := forall₂_getElem? hparts hr
    exact (hread i part hpart).2 r hdecode
  · exact CompactBlockRecord.height_of_isChain hchain hstart hr
  · obtain ⟨i, hi⟩ := List.mem_iff_getElem?.mp hr
    obtain ⟨part, -, -, hpayload⟩ := forall₂_getElem? hparts hi
    exact hpayload
  · obtain rfl : d = d' := Except.ok.inj (hnew.symm.trans hnew')
    exact (hread i part hpart).1

omit [Proto.Prost] in
theorem linksFrom_none (h : records.IsChain fun a b => b.previousHash = a.hash ∧
      b.endTreeSizes.follows a.endTreeSizes) : LinksFrom none records := by
  cases records with
  | nil => trivial
  | cons first rest =>
    refine ⟨by simp, ?_⟩
    induction rest generalizing first with
    | nil => trivial
    | cons next rest ih =>
      obtain ⟨hnext, hrest⟩ := List.isChain_cons_cons.mp h
      refine ⟨?_, ih next hrest⟩
      intro below hbelow
      obtain rfl := Option.some.inj hbelow
      exact hnext

/-- The check accepts a blob of linked records that is the blob of the entry. -/
theorem RangeRecords.checkWith [Blake3] (h : RangeRecords blob start (first :: rest))
    (hlinks : LinksFrom none (first :: rest)) {entry : ManifestEntry ν}
    (hblob : entry.checkBlob blob = .ok ()) {σ ε : Type} {visitor visitor' : σ}
    {visit : σ → CompactBlockRecord → Except ε σ}
    (hvisit : (first :: rest).foldlM visit visitor = .ok visitor') :
    ∃ range : CheckedRange, CheckedRange.checkWith blob entry visitor visit =
      .ok (range, visitor') ∧
      range.blob = blob ∧ range.start = start ∧ range.chain = RangeChain.ofRecords first rest := by
  obtain ⟨d, hnew, hstart, hreads⟩ := h.reads
  have henvelope : SealedRange.fromEnvelope blob = .ok ⟨start, d⟩ := by
    rw [SealedRange.fromEnvelope, hnew, ok_bind, hstart]
    rfl
  have hcheck := SealedRange.checkChainWith_eq_ok.mpr ⟨first, rest, hreads, hlinks, hvisit, rfl⟩
  let range : CheckedRange :=
    { blob, blobDigest := entry.blobDigest, start, chain := RangeChain.ofRecords first rest
      digest_eq := (ManifestEntry.checkBlob_eq_ok.mp hblob).2
      checked := ⟨_, henvelope, rfl, SealedRange.checkChainWith_unit hcheck⟩ }
  exact ⟨range, CheckedRange.checkWith_eq_ok.mpr ⟨hblob, rfl, _, henvelope, rfl, hcheck⟩,
    rfl, rfl, rfl⟩

theorem RangeRecords.check [Blake3] (h : RangeRecords blob start (first :: rest))
    (hlinks : LinksFrom none (first :: rest)) {entry : ManifestEntry ν}
    (hblob : entry.checkBlob blob = .ok ()) :
    ∃ range : CheckedRange, CheckedRange.check blob entry = .ok range ∧
      range.blob = blob ∧ range.start = start ∧ range.chain = RangeChain.ofRecords first rest := by
  have hvisit : (first :: rest).foldlM (fun _ _ => (.ok () : Except Empty Unit)) () = .ok () :=
    foldlM_eq_ok_foldl fun _ _ _ => rfl
  obtain ⟨range, hcheck, hrange⟩ := h.checkWith hlinks hblob hvisit
  refine ⟨range, ?_, hrange⟩
  rw [CheckedRange.check, hcheck]
  rfl

variable {heightOf : HeightOf} {s : Store ν} {st : IndexState}
  {chain records : List CompactBlockRecord} {w : Writer ν}

/-- The blob of the records stores the end of the chain that they extend. -/
theorem RangeRecords.storesRange (h : RangeRecords blob chain.length records) :
    StoresRange blob (chain ++ records) chain.length := by
  obtain ⟨d, hnew, hrecord⟩ := h.decoder
  refine ⟨d, hnew, fun i hi => ?_⟩
  obtain ⟨r, hr⟩ : ∃ r, records[i]? = some r :=
    ⟨_, List.getElem?_eq_getElem (by rw [h.length_eq]; exact hi)⟩
  refine ⟨r, ?_, hrecord i r hr⟩
  rw [List.getElem?_append_right (by omega), Nat.add_sub_cancel_left, hr]

/-! ## The writes of an install -/

/-- Metadata of a sealed range whose end hash is that of the chain. -/
theorem Holds.putMeta {sealed rows : Nat} (h : Holds heightOf s chain sealed rows) (start : Nat)
    (info : RangeMeta ν) (hmod : start % rangeSize = 0)
    (hlt : start < sealed) (hget : heightOf.Functional →
      ∃ last, chain[start + (rangeSize - 1)]? = some last ∧ info.entry.endHash = last.hash) :
    Holds heightOf { s with rangeMeta := s.rangeMeta.insert start info } chain sealed rows where
  connected := h.connected
  sealed_aligned := h.sealed_aligned
  sealed_le := h.sealed_le
  rows_le := h.rows_le
  sealed_key := h.sealed_key
  sealed_range := h.sealed_range
  mutable_key := h.mutable_key
  mutable_row := h.mutable_row
  hash_iff := h.hash_iff
  range_meta key info' hinfo := by
    rw [Table.get_put] at hinfo
    split at hinfo
    · cases hinfo
      subst_vars
      exact ⟨hmod, hlt, hget⟩
    · exact h.range_meta key info' hinfo

/-- An install adds the records of its blob to a chain without mutable rows. -/
theorem Represents.install (h : Represents heightOf s st chain)
    (hfull : st.sealedEnd = chain.length)
    (hrecords : RangeRecords blob chain.length (first :: rest))
    (hext : Extends heightOf chain (first :: rest))
    (hinstall : (⟨s, st⟩ : Writer ν).install chain.length blob
      (RangeChain.ofRecords first rest) info =
      .ok out) :
    Represents heightOf out.1 out.2 (chain ++ first :: rest) ∧
      out.2.generation = st.generation + 1 ∧
      out.1.sealedRanges = s.sealedRanges.insert chain.length blob := by
  have hlen := hrecords.length_eq
  have hpos : 0 < rangeSize := by simp [rangeSize]
  obtain ⟨last, hlast⟩ : ∃ last, (first :: rest).getLast? = some last :=
    ⟨_, List.getLast?_eq_some_getLast (by simp)⟩
  have hlastRecord : (RangeChain.ofRecords first rest).last = last := by
    rw [List.getLast?_eq_some_getLast (by simp)] at hlast
    exact Option.some.inj hlast
  have hlastGet : (first :: rest)[rangeSize - 1]? = some last := by
    rw [← hlen, ← List.getLast?_eq_getElem?]
    exact hlast
  have hlastHeight := hrecords.height _ last hlastGet
  simp only [Writer.install, bind_eq_ok, ensure_eq_ok, hlastRecord] at hinstall
  obtain ⟨-, ⟨-, -, hend, hendHash, -, -⟩, w₁, hhashes, w₂, hput, hcommit⟩ := hinstall
  obtain rfl := foldlM_putNewHash_eq_ok hhashes
  obtain ⟨htables, hsealed, hgen, hverified⟩ := putSealedRange_eq_ok hput
  -- hashes, the blob, and the metadata, one after another
  have hentries : ∀ {hash : Hash} {height : Nat},
      (hash, height) ∈ (RangeChain.ofRecords first rest).ids.map (fun id => (id.hash, id.height)) ↔
        ∃ r ∈ first :: rest, r.hash = hash ∧ r.height.val = height := by
    intro hash height
    simp only [RangeChain.ofRecords, CompactBlockRecord.blockId, List.map_map, List.mem_map,
      Function.comp, Prod.mk.injEq]
  have hholds := h.holds.extend hext hentries
  rw [hfull] at hholds
  have hnewLen : chain.length + rangeSize = (chain ++ first :: rest).length := by
    rw [List.length_append, hlen]
  have hholds := (hholds.seal hrecords.storesRange (by omega)).putMeta chain.length info
    hholds.sealed_aligned (by omega)
    fun _ => ⟨last, by rw [List.getElem?_append_right (by omega), Nat.add_sub_cancel_left,
      hlastGet], hendHash⟩
  have hsealedEnd : w₂.state.sealedEnd = chain.length + rangeSize := by
    have := IndexState.sealedThrough_eq_some_iff.mp hsealed
    rw [this, hend, hlastHeight]
    omega
  have hbuilds : (w₂.setTip last.blockId last.endTreeSizes).Builds heightOf (chain ++ first :: rest)
      (chain ++ first :: rest).length [] := by
    have hendTip : (w₂.setTip last.blockId last.endTreeSizes).state.sealedEnd =
      chain.length + rangeSize := hsealedEnd
    have hgetLast : (chain ++ first :: rest).getLast? = some last := by
      rw [List.getLast?_append, hlast]
      rfl
    refine ⟨?_, ⟨?_, ?_, rfl, ?_⟩, by simp [EncodedAs]⟩
    · rw [hendTip, ← hnewLen]
      simp only [Writer.setTip, htables]
      rw [Nat.max_eq_right (by omega), Nat.min_eq_left (by omega), Nat.sub_self] at hholds
      exact hholds
    · rw [hgetLast]
      rfl
    · rw [hgetLast]
      rfl
    · rw [hendTip]
      intro through hthrough
      have hthrough := hverified.symm.trans hthrough
      unfold IndexState.installVerified at hthrough
      split at hthrough
      swap
      · obtain ⟨hrangeEnd, hlt⟩ := h.describes.verified through hthrough
        exact ⟨hrangeEnd, by omega⟩
      · obtain rfl : info.entry.endHeight.val = through := Option.some.inj hthrough
        have hmod := h.holds.sealed_aligned
        rw [hfull] at hmod
        rw [hend, hlastHeight]
        simp only [IsRangeEnd, rangeSize] at hmod ⊢
        omega
  rcases hbuilds.commit (by simp) with ⟨herror, -⟩ | ⟨out', hok, hrep, hst, row, hstore⟩
  · rw [herror] at hcommit
    cases hcommit
  · rw [hok] at hcommit
    cases hcommit
    refine ⟨hrep, ?_, ?_⟩
    · rw [hst]
      exact congrArg (· + 1) hgen
    · rw [hstore]
      simp only [Writer.setTip, htables]

/-- The metadata describes the range `chain` at `start`. -/
def RangeMeta.Matches (info : RangeMeta ν) (start : Nat) (chain : RangeChain) : Prop :=
  info.entry.rangeVersion = rangeFormatVersion ∧ info.entry.startHeight.val = start ∧
    info.entry.endHeight = chain.last.height ∧ info.entry.endHash = chain.last.hash ∧
    info.entry.endTreeSizes = chain.last.endTreeSizes ∧ info.state ≠ .rejected

omit [Proto.Prost] in
/-- The verified prefix ends below the largest height. -/
theorem Describes.nextVerifyStart {sealed : Nat} (h : Describes st chain sealed)
    (hsealed : sealed ≤ 2 ^ 32) : ∃ next, st.nextVerifyStart = .ok next := by
  refine ⟨st.verifiedThrough.elim 0 (· + 1), checkedHeight_eq_ok.mpr ⟨?_, rfl⟩⟩
  cases hthrough : st.verifiedThrough with
  | none => simp
  | some through =>
    obtain ⟨hend, hlt⟩ := h.verified through hthrough
    -- the last height of a range is not the largest height
    simp only [IsRangeEnd, rangeSize] at hend
    show through + 1 < 2 ^ 32
    omega

/-- An install with matching metadata is refused for a hash that the index holds,
    or at the last generation, and for nothing else. -/
theorem Represents.install_cases (h : Represents heightOf s st chain) {rangeChain : RangeChain}
    (hmeta : info.Matches start rangeChain) (blob : Bytes) :
    ((∃ height, rangeChain.ids.foldlM Writer.putNewHash (⟨s, st⟩ : Writer ν) =
        .error (.duplicateHash height) ∧
        (⟨s, st⟩ : Writer ν).install start blob rangeChain info = .error (.duplicateHash height))) ∨
      (2 ^ 64 ≤ st.generation + 1 ∧
        (⟨s, st⟩ : Writer ν).install start blob rangeChain info = .error .overflow) ∨
      ∃ out, (⟨s, st⟩ : Writer ν).install start blob rangeChain info = .ok out := by
  unfold RangeMeta.Matches at hmeta
  simp only [Writer.install, ensure_of _ hmeta, ok_bind]
  rcases foldlM_putNewHash_cases rangeChain.ids (⟨s, st⟩ : Writer ν) with ⟨height, herror⟩ |
    ⟨w, hok⟩
  · rw [herror]
    exact .inl ⟨height, rfl, rfl⟩
  right
  rw [hok, ok_bind]
  have hstate : w.state = st := by rw [foldlM_putNewHash_eq_ok hok]
  have hlen := h.connected.length_le
  have hsealed := h.holds.sealed_le
  have hnext := h.describes.nextVerifyStart (by omega)
  rw [← hstate] at hnext ⊢
  obtain ⟨w', hput⟩ := putSealedRange_isOk start blob info hnext
  obtain ⟨-, -, hgen, -⟩ := putSealedRange_eq_ok hput
  rw [hput, ok_bind, Writer.commit]
  by_cases hlt : w.state.generation + 1 < 2 ^ 64
  · right
    rw [ensure_of _ (by rw [← hgen] at hlt; exact hlt), ok_bind]
    exact ⟨_, rfl⟩
  · left
    rw [ensure_of_not _ (by rw [← hgen] at hlt; exact hlt)]
    exact ⟨by omega, rfl⟩

/-- Hashes that determine their heights are never refused. -/
theorem Represents.install_isOk (h : Represents heightOf s st chain) (hfun : heightOf.Functional)
    (hext : Extends heightOf chain (first :: rest))
    (hmeta : info.Matches start (RangeChain.ofRecords first rest))
    (hgen : st.generation + 1 < 2 ^ 64) :
    ∃ out, (⟨s, st⟩ : Writer ν).install start blob (RangeChain.ofRecords first rest) info =
      .ok out := by
  have hconnected := h.connected.append hext
  have hget : ∀ (i : Nat) (r : CompactBlockRecord), (first :: rest)[i]? = some r →
      (chain ++ first :: rest)[chain.length + i]? = some r := by
    intro i r hr
    rw [List.getElem?_append_right (by omega), Nat.add_sub_cancel_left, hr]
  have hdistinct : ((RangeChain.ofRecords first rest).ids.map (·.hash)).Nodup := by
    rw [RangeChain.ofRecords, List.map_map, List.Nodup, List.pairwise_map,
      List.pairwise_iff_getElem]
    intro i j hi hj hij heq
    have := hconnected.eq_of_hash_eq hfun (hget i _ (List.getElem?_eq_getElem hi))
      (hget j _ (List.getElem?_eq_getElem hj)) heq
    omega
  have hnew : ∀ id ∈ (RangeChain.ofRecords first rest).ids, s.hashToHeight[id.hash]? = none := by
    intro id hid
    obtain ⟨r, hr, rfl⟩ := List.mem_map.mp hid
    obtain ⟨i, hi⟩ := List.mem_iff_getElem?.mp hr
    rw [Option.eq_none_iff_forall_ne_some]
    intro height hheight
    obtain ⟨r', hr', hhash⟩ := (h.holds.hash_iff hfun _ _).mp hheight
    have hlt := (List.getElem?_eq_some_iff.mp hr').1
    have := hconnected.eq_of_hash_eq hfun (by rw [List.getElem?_append_left hlt, hr'])
      (hget i r hi) hhash
    omega
  obtain ⟨w, hok⟩ := @foldlM_putNewHash_isOk _ _ (⟨s, st⟩ : Writer ν) hdistinct hnew
  rcases h.install_cases hmeta blob with
    ⟨_, herror, -⟩ | ⟨hlast, -⟩ | hout
  · rw [hok] at herror
    cases herror
  · omega
  · exact hout

/-! ## The two installs and the metadata write -/

section

variable (h : Represents heightOf s st chain)

include h

/-- Without mutable rows the whole chain is sealed. -/
theorem Represents.sealedEnd_eq_length (hrows : ¬ st.hasMutableRows) :
    st.sealedEnd = chain.length := by
  rw [IndexState.hasMutableRows, not_not, h.describes.tip] at hrows
  cases hlast : chain.getLast? with
  | none =>
    rw [hlast] at hrows
    rw [IndexState.sealedThrough_eq_none_iff.mp hrows.symm, List.getLast?_eq_none_iff.mp hlast]
    rfl
  | some last =>
    rw [hlast] at hrows
    rw [IndexState.sealedThrough_eq_some_iff.mp hrows.symm]
    exact h.connected.getLast_height hlast

theorem Represents.startInstall_eq_ok (hstart : Writer.startInstall s start = .ok w) :
    w = ⟨s, st⟩ ∧ start = chain.length ∧ st.sealedEnd = chain.length := by
  simp only [Writer.startInstall, Writer.startLatest, h.state, ok_bind, bind_eq_ok, ensure_eq_ok,
    IndexState.nextRangeStart, checkedHeight_eq_ok, pure_eq_ok, Except.ok.injEq] at hstart
  obtain ⟨_, ⟨-, rfl⟩, -, rfl, -, hrows, rfl⟩ := hstart
  have hfull := h.sealedEnd_eq_length hrows
  exact ⟨rfl, hfull, hfull⟩

/-- The sealed ranges end below the largest height. -/
theorem Represents.nextRangeStart :
    st.nextRangeStart = .ok st.sealedEnd := by
  have hlen := h.connected.length_le
  have hle := h.holds.sealed_le
  have haligned := h.holds.sealed_aligned
  refine checkedHeight_eq_ok.mpr ⟨?_, rfl⟩
  simp only [rangeSize] at haligned
  omega

/-- The start of an install is accepted at the end of a chain without mutable rows. -/
theorem Represents.startInstall_of (hfull : st.sealedEnd = chain.length)
    (hlen : chain.length < 2 ^ 32) :
    Writer.startInstall s chain.length = .ok ⟨s, st⟩ := by
  have hrows : ¬ st.hasMutableRows := by
    rw [IndexState.hasMutableRows, not_not]
    cases hlast : chain.getLast? with
    | none =>
      have hnil := List.getLast?_eq_none_iff.mp hlast
      rw [hnil] at hfull
      rw [IndexState.sealedThrough_eq_none_iff.mpr hfull, h.describes.tip, hlast]
      rfl
    | some last =>
      have hheight := h.connected.getLast_height hlast
      rw [(h.describes.tip_of_getLast hlast).1, Option.map_some, eq_comm,
        IndexState.sealedThrough_eq_some_iff, hfull, ← hheight]
      rfl
  have hnext : st.nextRangeStart = .ok chain.length := checkedHeight_eq_ok.mpr ⟨by omega, hfull⟩
  rw [Writer.startInstall, Writer.startLatest, h.state, ok_bind, pure_eq_ok, ok_bind, hnext,
    ok_bind,
    ensure_of _ rfl, ok_bind, ensure_of _ hrows]
  rfl

end

/-- The records of a blob that links to the tip continue the chain. -/
theorem RangeRecords.extends (h : RangeRecords blob chain.length (first :: rest))
    (hlink : ∀ last ∈ chain.getLast?, first.previousHash = last.hash)
    (hheights : ∀ r ∈ first :: rest, heightOf.allows r.hash r.height.val) :
    Extends heightOf chain (first :: rest) where
  isChain := h.isChain
  height r hr := by
    obtain rfl : first = r := by simpa using hr
    exact h.height 0 first rfl
  link last hlast r hr := by
    obtain rfl : first = r := by simpa using hr
    exact hlink last hlast
  heightOf_hash := hheights

/-- Every record in the blob has the height of its hash. -/
def BlobRespects (heightOf : HeightOf) (blob : Bytes) : Prop :=
  ∀ d, RangeDecoder.new blob = .ok d → ∀ (i : Nat) (r : CompactBlockRecord),
    d.record i = .ok r → heightOf.allows r.hash r.height.val

section

variable (h : RangeRecords blob start records)

include h

theorem RangeRecords.respects (hblob : BlobRespects heightOf blob) :
    ∀ r ∈ records, heightOf.allows r.hash r.height.val := by
  obtain ⟨d, hnew, hrecord⟩ := h.decoder
  intro r hr
  obtain ⟨i, hi⟩ := List.mem_iff_getElem?.mp hr
  exact hblob d hnew i r (hrecord i r hi)

/-- What the blob reads at an index is one of its records. -/
theorem RangeRecords.getElem? {d : RangeDecoder} (hnew : RangeDecoder.new blob = .ok d) {i : Nat}
    {r : CompactBlockRecord} (hrecord : d.record i = .ok r) : records[i]? = some r := by
  obtain ⟨d', hnew', hread⟩ := h.decoder
  obtain rfl : d = d' := Except.ok.inj (hnew.symm.trans hnew')
  have hi : i < records.length := by
    rw [h.length_eq]
    exact (RangeDecoder.recordAs_eq_ok.mp hrecord).1
  have hget := List.getElem?_eq_getElem hi
  rw [hget, Except.ok.inj (hrecord.symm.trans (hread i _ hget))]

theorem RangeRecords.decodes {r : CompactBlockRecord} (hr : r ∈ records) :
    ∃ i, RangeDecoder.decodeRangeRecord blob i = .ok r := by
  obtain ⟨d, hnew, hread⟩ := h.decoder
  obtain ⟨i, hi⟩ := List.mem_iff_getElem?.mp hr
  refine ⟨i, ?_⟩
  rw [RangeDecoder.decodeRangeRecord, hnew]
  exact hread i r hi

theorem RangeRecords.blobRespects (hheights : ∀ r ∈ records, heightOf.allows r.hash r.height.val) :
    BlobRespects heightOf blob := by
  intro d hnew i r hrecord
  exact hheights r (List.mem_of_getElem? (h.getElem? hnew hrecord))

/-- A blob has one list of records. -/
theorem RangeRecords.unique {start' : Nat} {records' : List CompactBlockRecord}
    (h' : RangeRecords blob start' records') :
    records = records' := by
  refine List.ext_getElem (h.length_eq.trans h'.length_eq.symm) fun i hi hi' => ?_
  obtain ⟨d, hnew, hread⟩ := h.decoder
  have hget := h'.getElem? hnew (hread i _ (List.getElem?_eq_getElem hi))
  rw [List.getElem?_eq_getElem hi'] at hget
  exact (Option.some.inj hget).symm

end

/-- What an install gives: the chain with the records of the blob. -/
def Installed (heightOf : HeightOf) (s : Store ν) (st : IndexState)
    (chain : List CompactBlockRecord) (blob : Bytes) (out : Store ν × IndexState) : Prop :=
  ∃ records, RangeRecords blob chain.length records ∧
    Represents heightOf out.1 out.2 (chain ++ records) ∧
    out.2.generation = st.generation + 1 ∧
    out.1.sealedRanges = s.sealedRanges.insert chain.length blob

variable [Blake3]

/-- The call installs the blob on top of the chain: its records continue the chain, and
    the write is that of the records. -/
def InstallsOn (heightOf : HeightOf) (s : Store ν) (st : IndexState)
    (chain : List CompactBlockRecord) (blob : Bytes) (info : RangeMeta ν)
    (out : Store ν × IndexState) : Prop :=
  st.sealedEnd = chain.length ∧ ∃ first rest, RangeRecords blob chain.length (first :: rest) ∧
    Extends heightOf chain (first :: rest) ∧
    (⟨s, st⟩ : Writer ν).install chain.length blob (RangeChain.ofRecords first rest) info = .ok out

theorem Represents.of_installSealedRange (h : Represents heightOf s st chain)
    (hblob : BlobRespects heightOf blob)
    (hinstall : s.installSealedRange start blob info = .ok out) :
    InstallsOn heightOf s st chain blob info out := by
  simp only [Store.installSealedRange, bind_eq_ok, okMapError_eq_ok] at hinstall
  obtain ⟨w, hstart, -, -, range, hrange, rangeChain, hcheck, hinstall⟩ := hinstall
  obtain ⟨rfl, rfl, hfull⟩ := h.startInstall_eq_ok hstart
  simp only [SealedRange.new, bind_eq_ok, pure_eq_ok, Except.ok.injEq] at hrange
  obtain ⟨d, hnew, rfl⟩ := hrange
  simp only [SealedRange.checkChain, bind_eq_ok, okMapError_eq_ok, pure_eq_ok, Except.ok.injEq,
    Prod.exists] at hcheck
  obtain ⟨_, _, hcheck, rfl⟩ := hcheck
  obtain ⟨first, rest, hreads, hlinks, -, rfl⟩ := SealedRange.checkChainWith_eq_ok.mp hcheck
  have hrecords := hreads.rangeRecords hnew hlinks
  have hprevious : first.previousHash = st.installParentHash :=
    hlinks.isChain.2 _ rfl first rfl
  exact ⟨hfull, first, rest, hrecords, hrecords.extends
    (h.describes.link_of_installParentHash hprevious) (hrecords.respects hblob), hinstall⟩

theorem Represents.of_installCheckedRange (h : Represents heightOf s st chain)
    {range : CheckedRange} (hblob : BlobRespects heightOf range.blob)
    (hinstall : s.installCheckedRange range info = .ok out) :
    InstallsOn heightOf s st chain range.blob info out := by
  simp only [Store.installCheckedRange, bind_eq_ok, okMapError_eq_ok, ensure_eq_ok] at hinstall
  obtain ⟨w, hstart, -, -, -, hlinksTo, hinstall⟩ := hinstall
  obtain ⟨rfl, hlen, hfull⟩ := h.startInstall_eq_ok hstart
  obtain ⟨sealedRange, henvelope, hrangeStart, hcheck⟩ := range.checked
  obtain ⟨first, rest, hreads, hlinks, -, hchain⟩ := SealedRange.checkChainWith_eq_ok.mp hcheck
  simp only [SealedRange.fromEnvelope, bind_eq_ok, pure_eq_ok, Except.ok.injEq] at henvelope
  obtain ⟨d, hnew, rfl⟩ := henvelope
  have hrecords := hreads.rangeRecords hnew hlinks
  rw [hrangeStart, hlen] at hrecords
  rw [hlen, hchain] at hinstall
  rw [hchain] at hlinksTo
  exact ⟨hfull, first, rest, hrecords, hrecords.extends
    (h.describes.link_of_installParentHash hlinksTo.1) (hrecords.respects hblob), hinstall⟩

omit [Blake3] in
theorem InstallsOn.installed (h : Represents heightOf s st chain)
    (hinstall : InstallsOn heightOf s st chain blob info out) :
    Installed heightOf s st chain blob out := by
  obtain ⟨hfull, first, rest, hrecords, hext, hok⟩ := hinstall
  exact ⟨first :: rest, hrecords, h.install hfull hrecords hext hok⟩

omit [Blake3] in
theorem InstallsOn.state (hinstall : InstallsOn heightOf s st chain blob info out) :
    out.2.sealedEnd = chain.length + rangeSize ∧
      info.entry.endHeight.val = chain.length + (rangeSize - 1) ∧
      out.2.verifiedThrough = st.installVerified chain.length info := by
  obtain ⟨-, first, rest, hrecords, -, hok⟩ := hinstall
  simp only [Writer.install, Writer.commit, bind_eq_ok, ensure_eq_ok, okOr_eq_ok, pure_eq_ok,
    Except.ok.injEq] at hok
  obtain ⟨-, ⟨-, -, hend, -⟩, w₁, hhashes, w₂, hput, -, -, tip, -, rfl⟩ := hok
  obtain rfl := foldlM_putNewHash_eq_ok hhashes
  obtain ⟨-, hsealed, -, hverified⟩ := putSealedRange_eq_ok hput
  have hpos : 0 < rangeSize := by decide
  have hlast : (first :: rest)[rangeSize - 1]? = some (RangeChain.ofRecords first rest).last := by
    rw [← hrecords.length_eq, ← List.getLast?_eq_getElem?, List.getLast?_eq_some_getLast (by simp)]
    rfl
  have hheight : info.entry.endHeight.val = chain.length + (rangeSize - 1) := by
    rw [hend]
    exact hrecords.height _ _ hlast
  have hsealedEnd := IndexState.sealedThrough_eq_some_iff.mp hsealed
  refine ⟨?_, hheight, hverified⟩
  show w₂.state.sealedEnd = _
  omega

theorem Represents.installSealedRange (h : Represents heightOf s st chain)
    (hblob : BlobRespects heightOf blob)
    (hinstall : s.installSealedRange start blob info = .ok out) :
    Installed heightOf s st chain blob out :=
  (h.of_installSealedRange hblob hinstall).installed h

theorem Represents.installCheckedRange (h : Represents heightOf s st chain) {range : CheckedRange}
    (hblob : BlobRespects heightOf range.blob)
    (hinstall : s.installCheckedRange range info = .ok out) :
    Installed heightOf s st chain range.blob out :=
  (h.of_installCheckedRange hblob hinstall).installed h

/-- An index without mutable rows accepts a checked range at its end that links
    to its tip, unless the range repeats a hash. -/
theorem Represents.installCheckedRange_eq (h : Represents heightOf s st chain)
    (hfull : st.sealedEnd = chain.length) (hlen : chain.length < 2 ^ 32) {range : CheckedRange}
    (hstart : range.start = chain.length) (hblob : info.entry.checkBlob range.blob = .ok ())
    (hlink : range.chain.linksTo st.installParentHash st.treeSizes) :
    s.installCheckedRange range info =
      (⟨s, st⟩ : Writer ν).install chain.length range.blob range.chain info := by
  obtain ⟨hsize, hdigest⟩ := ManifestEntry.checkBlob_eq_ok.mp hblob
  have hentry : range.checkEntryBlob info.entry = .ok () := by
    rw [CheckedRange.checkEntryBlob, if_neg (by rw [hsize]; simp),
      if_pos (hdigest.symm.trans range.digest_eq)]
  rw [Store.installCheckedRange, hstart, h.startInstall_of hfull hlen, ok_bind, hentry,
    okMapError_ok, ok_bind, ensure_of _ hlink, ok_bind]

omit [Blake3] in
/-- A metadata write keeps the chain. -/
theorem Represents.putRangeMeta (h : Represents heightOf s st chain) {s' : Store ν}
    (hput : s.putRangeMeta start info = .ok s') :
    Represents heightOf s' st chain ∧ s'.sealedRanges = s.sealedRanges := by
  simp only [Store.putRangeMeta, bind_eq_ok, checkedHeight_eq_ok, h.state, ensure_eq_ok,
    Except.ok.injEq, exists_eq_left', pure_eq_ok] at hput
  obtain ⟨_, ⟨-, rfl⟩, -, ⟨hstart, -, -, through, hthrough, hle⟩, -, hhash, rfl⟩ := hput
  have hget : heightOf.Functional → ∃ last, chain[start + (rangeSize - 1)]? = some last ∧
      info.entry.endHash = last.hash := by
    intro hfun
    obtain ⟨last, hget, hlast⟩ := (h.holds.hash_iff hfun _ _).mp hhash
    exact ⟨last, hget, hlast.symm⟩
  have hend := IndexState.sealedThrough_eq_some_iff.mp hthrough
  have hmod : start % rangeSize = 0 := by
    rw [hstart]
    exact rangeStart_mod start
  exact ⟨⟨h.state, h.holds.putMeta start info hmod (by omega) hget, h.describes⟩, rfl⟩

end

end Ztreamer
