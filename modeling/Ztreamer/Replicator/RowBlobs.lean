import Ztreamer.Index.Blocks
import Ztreamer.Index.Rebuild
import Ztreamer.Replicator.RangeMetaFill

/-! # Rows and their blobs

    The filler reads a blob, asks the node, and writes the row later. In between the
    range may have been replaced any number of times. The write of a row checks only
    the hash of the last block. A block hash determines its block and its ancestors,
    so the blocks of the range are those that were read. The range encoder gives one
    blob for them.

    * `RowsInvariant.blob_eq_of_hash`: two ranges whose last blocks have one hash,
    * `rows_describe_blobs`: every row describes the blob of its range.
-/

namespace Ztreamer

open Octets Result Connected

variable {ν : Type} {Blocks : CompactBlockRecord → Prop}

/-- The heights of the blocks. -/
def HeightOf.ofBlocks (Blocks : CompactBlockRecord → Prop) : HeightOf :=
  ⟨fun hash height => ∃ r, Blocks r ∧ r.hash = hash ∧ r.height.val = height⟩

theorem HeightOf.functional_ofBlocks
    (hdetermined : ∀ r r', Blocks r → Blocks r' → r.hash = r'.hash → r = r') :
    (HeightOf.ofBlocks Blocks).Functional := by
  rintro hash a b ⟨r, hr, hhash, ha⟩ ⟨r', hr', hhash', hb⟩
  obtain rfl := hdetermined r r' hr hr' (hhash.trans hhash'.symm)
  exact ha.symm.trans hb

theorem Connected.nodeBlocks {heightOf : HeightOf} {chain : List CompactBlockRecord}
    (h : Connected heightOf chain) (hblocks : ∀ r ∈ chain, Blocks r) : NodeBlocks Blocks chain :=
  ⟨⟨h.isChain, h.genesis, fun _ _ => trivial⟩, hblocks⟩

/-- Two chains with one hash at a height have the same blocks through that height. -/
theorem NodeBlocks.take_eq_of_hash
    (hdetermined : ∀ r r', Blocks r → Blocks r' → r.hash = r'.hash → r = r')
    {chain chain' : List CompactBlockRecord} (h : NodeBlocks Blocks chain)
    (h' : NodeBlocks Blocks chain') {n : Nat} {r r' : CompactBlockRecord}
    (hr : chain[n]? = some r) (hr' : chain'[n]? = some r') (hhash : r.hash = r'.hash) :
    chain.take (n + 1) = chain'.take (n + 1) := by
  have hlt := (List.getElem?_eq_some_iff.mp hr).1
  have hlt' := (List.getElem?_eq_some_iff.mp hr').1
  refine NodeBlocks.eq_of_last hdetermined (h.take _) (h'.take _) ?_ ?_
  · rw [List.length_take, List.length_take]
    omega
  · rw [getLast?_take_succ hr, getLast?_take_succ hr', Option.map_some, Option.map_some, hhash]

section

variable [Proto.Prost]

variable {s : Store ν} {st : IndexState} {chain : List CompactBlockRecord} {start : Nat}
  {blob : Bytes}

/-- A sealed range that the encoder wrote is the encoding of its blocks. -/
theorem Represents.encodeRange_of_blob {heightOf : HeightOf} (h : Represents heightOf s st chain)
    (hpacked : s.PackedByEncoder) (hblob : s.sealedRanges[start]? = some blob) :
    StoresRange blob chain start ∧
      encodeRange ((chain.drop start).take rangeSize) = .ok blob := by
  obtain ⟨haligned, hlt⟩ := h.holds.sealed_key start blob hblob
  obtain ⟨blob', hblob', hstores⟩ := h.holds.sealed_range start haligned hlt
  obtain rfl : blob = blob' := Option.some.inj (hblob.symm.trans hblob')
  obtain ⟨records, hencode⟩ := hpacked start blob hblob
  exact ⟨hstores, hstores.encodeRange_eq hencode⟩

variable [Blake3]

/-- Every row describes the blob of its range. -/
def Store.RowsDescribe (s : Store ν) : Prop :=
  ∀ (start : Nat) (info : RangeMeta ν), s.rangeMeta[start]? = some info →
    ∃ blob, s.sealedRanges[start]? = some blob ∧ info.DescribesBlob blob

/-- The call writes blocks that the node had. A blob that it installs is the encoding of
    its records. -/
structure Call.OfBlocks (Blocks : CompactBlockRecord → Prop) (c : Call ν) : Prop where
  fromBuilder : c.FromBuilder
  blocks : ∀ r, c.Brings r → Blocks r
  encoded : ∀ blob ∈ c.blob?, ∃ records, encodeRange records = .ok blob
  noRow : ∀ start info, c ≠ .putRangeMeta start info

omit [Blake3] in
/-- The records of a blob of blocks have the heights of blocks. -/
theorem blobRespects_ofBlocks
    (h : ∀ r, (∃ i, RangeDecoder.decodeRangeRecord blob i = .ok r) → Blocks r) :
    BlobRespects (HeightOf.ofBlocks Blocks) blob := by
  intro d hnew i r hrecord
  refine ⟨r, h r ⟨i, ?_⟩, rfl, rfl⟩
  rw [RangeDecoder.decodeRangeRecord, hnew]
  exact hrecord

variable {c : Call ν} {s' s₁ : Store ν} {last : CompactBlockRecord} {st₁ : IndexState}
  {chain₁ : List CompactBlockRecord}

theorem Call.OfBlocks.respects (h : c.OfBlocks Blocks) : c.Respects (HeightOf.ofBlocks Blocks) := by
  cases c with
  | write batch => exact fun r hr => ⟨r, h.blocks r hr, rfl, rfl⟩
  | writeEncoded encoded =>
    obtain ⟨_, batch, -, hencode⟩ := h.fromBuilder
    intro block hblock
    obtain ⟨i, hi⟩ := List.mem_iff_getElem?.mp hblock
    obtain ⟨r, hr, hb⟩ := forall₂_getElem? (WriteBatch.encode_eq_ok.mp hencode).1.flip hi
    obtain ⟨-, hheight, hhash, -⟩ := CompactBlockRecord.encodeBlock_eq_ok.mp hb
    have hmem := WriteBatch.decode_of_encode hencode (List.mem_of_getElem? hr)
    exact ⟨r, h.blocks r hmem, hhash.symm, hheight.symm⟩
  | replaceMutableSuffix _ _ records _ => exact fun r hr => ⟨r, h.blocks r hr, rfl, rfl⟩
  | replaceDeepSuffix _ _ replacement _ => exact fun r hr => ⟨r, h.blocks r hr, rfl, rfl⟩
  | installSealedRange start blob info => exact blobRespects_ofBlocks h.blocks
  | installCheckedRange range info => exact blobRespects_ofBlocks h.blocks
  | putRangeMeta start info => trivial

/-! ## The invariant -/

/-- An index of blocks of the node, with encoded ranges and rows that describe them. -/
structure RowsInvariant (Blocks : CompactBlockRecord → Prop) (s : Store ν) (st : IndexState)
    (chain : List CompactBlockRecord) : Prop where
  represents : Represents (HeightOf.ofBlocks Blocks) s st chain
  blocks : ∀ r ∈ chain, Blocks r
  packed : s.PackedByEncoder
  rows : s.RowsDescribe

theorem rowsInvariant_empty : RowsInvariant Blocks (Store.empty : Store ν) {} [] where
  represents := represents_empty
  blocks := by simp
  packed start blob h := by simp [Store.empty] at h
  rows start info h := by simp [Store.empty] at h

section

variable (h : RowsInvariant Blocks s st chain)

include h

/-- A call keeps the invariant. -/
theorem RowsInvariant.run (hc : c.OfBlocks Blocks) (hrun : c.run s = .ok s') :
    ∃ st' chain', RowsInvariant Blocks s' st' chain' ∧ c.Effect s s' chain chain' := by
  obtain ⟨st', hcommits⟩ := Call.run_eq_ok.mp hrun
  obtain ⟨chain', hrep, heffect⟩ := hcommits.effect h.represents hc.fromBuilder hc.respects
  obtain ⟨-, hranges⟩ := hcommits.represents h.represents hc.fromBuilder hc.respects
  have hpacked := h.packed.of_rangesFrom (fun _ _ h => ⟨_, h⟩) hranges hc.encoded
  refine ⟨st', chain', ⟨hrep, ?_, hpacked, ?_⟩, heffect⟩
  · intro r hr
    rcases heffect.blocks r hr with hold | hnew
    · exact h.blocks r hold
    · exact hc.blocks r hnew
  · intro start info hrow
    rcases heffect.rows start info hrow with hkeeps | rfl | ⟨blob, -, -, hblob, hdescribes⟩
    · obtain ⟨blob, hblob, hdescribes⟩ := h.rows start info hkeeps.row
      exact ⟨blob, by rw [hkeeps.blob, hblob], hdescribes⟩
    · exact absurd rfl (hc.noRow start info)
    · exact ⟨blob, hblob, hdescribes⟩

/-- What the filler reads of a range, in an index with the invariant. -/
theorem RowsInvariant.read (hread : RangeMetaFiller.RangeRead.blob s start = .ok (blob, last)) :
    s.sealedRanges[start]? = some blob ∧
      RangeDecoder.decodeRangeRecord blob (rangeSize - 1) = .ok last ∧
      chain[start + (rangeSize - 1)]? = some last := by
  simp only [RangeMetaFiller.RangeRead.blob, Store.sealedRange, bind_eq_ok, okMapError_eq_ok,
    okOr_eq_ok, pure_eq_ok, Except.ok.injEq, Prod.mk.injEq] at hread
  obtain ⟨_, -, _, ⟨-, -, rfl⟩, _, hblob, _, hlast, rfl, rfl⟩ := hread
  refine ⟨hblob, hlast, ?_⟩
  obtain ⟨⟨d, hnew, hstores⟩, -⟩ := h.represents.encodeRange_of_blob h.packed hblob
  obtain ⟨r, hr, hrecord⟩ := hstores (rangeSize - 1) (by decide)
  rw [RangeDecoder.decodeRangeRecord, hnew, ok_bind] at hlast
  rw [hr, Except.ok.inj (hrecord.symm.trans hlast)]

/-- Two ranges whose last blocks have one hash are one blob. -/
theorem RowsInvariant.blob_eq_of_hash
    (hdetermined : ∀ r r', Blocks r → Blocks r' → r.hash = r'.hash → r = r')
    (h₁ : RowsInvariant Blocks s₁ st₁ chain₁) {blob₁ : Bytes}
    (hblob : s.sealedRanges[start]? = some blob) (hblob₁ : s₁.sealedRanges[start]? = some blob₁)
    {r r₁ : CompactBlockRecord} (hr : chain[start + (rangeSize - 1)]? = some r)
    (hr₁ : chain₁[start + (rangeSize - 1)]? = some r₁) (hhash : r.hash = r₁.hash) :
    blob = blob₁ := by
  have htake := NodeBlocks.take_eq_of_hash hdetermined (h.represents.connected.nodeBlocks h.blocks)
    (h₁.represents.connected.nodeBlocks h₁.blocks) hr hr₁ hhash
  have hrange : (chain.drop start).take rangeSize = (chain₁.drop start).take rangeSize := by
    have hpos : start + (rangeSize - 1) + 1 = start + rangeSize := by
      simp only [rangeSize]
    rw [hpos] at htake
    rw [List.take_drop, List.take_drop, htake]
  have hencode := (h.represents.encodeRange_of_blob h.packed hblob).2
  have hencode₁ := (h₁.represents.encodeRange_of_blob h₁.packed hblob₁).2
  rw [hrange] at hencode
  exact Except.ok.inj (hencode.symm.trans hencode₁)

/-- A row that is written describes the blob of its range, also when the blob was read
    before other writes. -/
theorem RowsInvariant.put (hdetermined : ∀ r r', Blocks r → Blocks r' → r.hash = r'.hash → r = r')
    (h₁ : RowsInvariant Blocks s₁ st₁ chain₁)
    (hread : RangeMetaFiller.RangeRead.blob s₁ start = .ok (blob, last)) {info : RangeMeta ν}
    (hlen : info.entry.blobLen = Fin.ofNat _ blob.length)
    (hdigest : info.entry.blobDigest = Blake3.hash blob)
    (hheight : info.entry.endHeight = last.height) (hhash : info.entry.endHash = last.hash)
    (hsizes : info.entry.endTreeSizes = last.endTreeSizes)
    (hput : s.putRangeMeta start info = .ok s') : RowsInvariant Blocks s' st chain := by
  obtain ⟨hblob₁, hdecode, hr₁⟩ := h₁.read hread
  obtain ⟨hrep, hranges⟩ := h.represents.putRangeMeta hput
  obtain ⟨-, hrow⟩ := RangeMetaFiller.putRangeMeta_grows hput
  obtain ⟨haligned, hlt, hend⟩ := hrep.holds.range_meta start info hrow
  obtain ⟨r, hr, hrhash⟩ := hend (HeightOf.functional_ofBlocks hdetermined)
  obtain ⟨blob', hblob', -⟩ := h.represents.holds.sealed_range start haligned hlt
  obtain rfl := h.blob_eq_of_hash hdetermined h₁ hblob' hblob₁ hr hr₁ (hrhash.symm.trans hhash)
  have hlength : blob'.length < 2 ^ 64 := by
    simp only [RangeDecoder.decodeRangeRecord, bind_eq_ok] at hdecode
    obtain ⟨d, hnew, -⟩ := hdecode
    exact RangeDecoder.length_of_new hnew
  have hpacked : s'.PackedByEncoder := by
    intro start' blob' hblob'
    rw [hranges] at hblob'
    exact h.packed start' blob' hblob'
  refine ⟨hrep, h.blocks, hpacked, ?_⟩
  intro start' info' hrow'
  obtain rfl := Store.putRangeMeta_eq hput
  rw [Table.get_put] at hrow'
  split at hrow'
  next heq =>
    cases heq
    cases hrow'
    refine ⟨blob', hblob', ?_, hdigest.symm, last, hdecode, hheight.symm, hhash.symm, hsizes.symm⟩
    rw [hlen]
    exact (Nat.mod_eq_of_lt hlength).symm
  next => exact h.rows start' info' hrow'

end

/-! ## Every state of a run -/

theorem Reachable.rowsInvariant (h : Reachable (Call.OfBlocks Blocks) s) :
    ∃ st chain, RowsInvariant Blocks s st chain := by
  induction h with
  | empty => exact ⟨_, _, rowsInvariant_empty⟩
  | commit c _ hc hrun ih =>
    obtain ⟨st, chain, hinv⟩ := ih
    obtain ⟨st', chain', hinv', -⟩ := hinv.run hc hrun
    exact ⟨st', chain', hinv'⟩
  | fail c _ _ ih => exact ih

open RangeMetaFiller

theorem rowsInvariant_invariant
    (hdetermined : ∀ r r', Blocks r → Blocks r' → r.hash = r'.hash → r = r')
    (verifiedBy : NodeId) :
    FillSystem.Invariant verifiedBy { calls := Call.OfBlocks Blocks }
      (fun w : World ν => ∃ st chain, RowsInvariant Blocks w.index st chain) fun _ _ => True := by
  apply FillSystem.invariant_of_put
  · rintro w c index ⟨st, chain, hinv⟩ hc hrun
    obtain ⟨st', chain', hinv', -⟩ := hinv.run hc hrun
    exact ⟨st', chain', hinv'⟩
  · intro w node now h _
    exact h
  · rintro w start read trees roots epoch now index ⟨st, chain, hinv⟩ hread hput
    obtain ⟨w₁, blob, ⟨st₁, chain₁, hinv₁⟩, hblob, -, hdigest, hlen⟩ := hread
    exact ⟨st, chain, hinv.put hdetermined hinv₁ hblob hlen hdigest rfl rfl rfl hput⟩

/-- Every row describes the blob of its range, in every state of every run of the filler
    next to writes of blocks. -/
theorem rows_describe_blobs
    (hdetermined : ∀ r r', Blocks r → Blocks r' → r.hash = r'.hash → r = r')
    (verifiedBy : NodeId) (x : FillSystem ν)
    (hreach : x.Reached verifiedBy { calls := Call.OfBlocks Blocks }) :
    x.world.index.RowsDescribe := by
  obtain ⟨st, chain, hinv⟩ := (rowsInvariant_invariant hdetermined verifiedBy).reached
    (fun _ hcalls _ => hcalls.rowsInvariant) hreach
  exact hinv.rows

end

section

attribute [local instance] Proto.wireDecoder zeroDigest

open RangeMetaFiller

/-- The blocks of one plain chain are determined by their hashes. -/
theorem plainRecords_determined {fork n : Nat} (hn : n ≤ 2 ^ 32) (r r' : CompactBlockRecord)
    (h : r ∈ plainRecords fork n) (h' : r' ∈ plainRecords fork n) (hhash : r.hash = r'.hash) :
    r = r' := by
  obtain ⟨i, hi, rfl⟩ := List.mem_map.mp h
  obtain ⟨j, hj, rfl⟩ := List.mem_map.mp h'
  rw [List.mem_range] at hi hj
  have hheight : plainHeight (plainHash fork i) = plainHeight (plainHash fork j) :=
    congrArg plainHeight hhash
  rw [plainHeight_plainHash (by omega), plainHeight_plainHash (by omega)] at hheight
  rw [hheight]

theorem Call.OfBlocks.write {heightOf : HeightOf} {batch : WriteBatch}
    (h : (Call.write batch : Call ν).Honest heightOf) (hblocks : ∀ r ∈ batch.records, Blocks r) :
    (Call.write batch : Call ν).OfBlocks Blocks where
  fromBuilder := h.1
  blocks := hblocks
  encoded := by simp [Call.blob?]
  noRow _ _ := nofun

/-- The filler has written the row of the first range of a plain chain. -/
theorem filled_row_describes_blob : ∃ (x : FillSystem Unit) (info : RangeMeta Unit) (blob : Bytes),
    x.Reached exampleNode { calls := Call.OfBlocks (· ∈ plainRecords 5000 2000) } ∧
      x.world.index.rangeMeta[0]? = some info ∧ x.world.index.sealedRanges[0]? = some blob ∧
      info.DescribesBlob blob := by
  obtain ⟨_, _, info, -, -, -, -, -, hreach, hrow, -⟩ := exists_filled
    { calls := Call.OfBlocks (· ∈ plainRecords 5000 2000) } inactiveNode trivial
    (fun batch hhonest hmem => .write hhonest hmem) (fun _ _ => ⟨_, rfl⟩) (fun _ _ _ => ⟨_, rfl⟩)
  obtain ⟨blob, hblob, hdescribes⟩ :=
    rows_describe_blobs (plainRecords_determined (by decide)) exampleNode _ hreach 0 info hrow
  exact ⟨_, info, blob, hreach, hrow, hblob, hdescribes⟩

end

end Ztreamer
