import Ztreamer.Chain.RangeWriter
import Ztreamer.Import.Proof
import Ztreamer.Import.Replica

/-! # Sampling

    The roots of an epoch do not commit to every field of a block. A replica picks some
    heights of each range, parses the full block of a node at each of them, and compares
    the record with the one in the blob.

    The comparison is between the encoding of the node's record and the encoding of the
    record that the stored bytes decode to. So the stored bytes themselves are the
    node's exactly when they are the encoding of their own record.

    * `SamplePlan.sample`: the model,
    * `StoredAt`: the bytes of a record in a blob, and the tree sizes before it,
    * `sampled_bytes_iff`: what a sampled height proves about the stored bytes.
-/

namespace Ztreamer

open Octets Result Manifest

variable {ν : Type}

/-! ## The model -/

/-- The random choice of `amount` indices below `length`, from a seed. -/
class StdRng where
  sample : U64 → Nat → Nat → List Nat

/-- A source of full blocks. -/
abbrev Sampler : Type := U32 → Except NodeError RawIndexBlock

/-- How a replica picks the heights to compare. -/
structure SamplePlan where
  perRange : Nat
  seed : U64

namespace SamplePlan

/-- The offsets to compare in the range at `startHeight`, in ascending order. -/
def offsets [StdRng] (plan : SamplePlan) (startHeight : U32) : List Nat :=
  let seed : U64 := Fin.ofNat _ (plan.seed.val ^^^ startHeight.val)
  (StdRng.sample seed rangeSize (min plan.perRange rangeSize)).mergeSort

/-- The height at an offset of a range. -/
def heightAt (startHeight : U32) (offset : Nat) : U32 :=
  ⟨min (startHeight.val + offset) 4294967295, by omega⟩

/-- The record is the one of the full block, after the tree sizes before the record. -/
def same (record : CompactBlockRecord) (block : RawIndexBlock) : Except NodeError Bool :=
  match record.endTreeSizes.checkedSub record.additions with
  | none => return false
  | some before => do
    let parsed ← okMapError (parseBlock block) .parse
    match parsed.intoRecord before with
    | none => return false
    | some expected =>
      let expected ← okMapError expected.encode .encode
      match record.encode with
      | .error _ => return false
      | .ok bytes => return bytes = expected

variable [Proto.Prost]

/-- Compares one record of a range with the full block at its height. -/
def sampleAt (sampler : Sampler) (startHeight : U32) (decoder : RangeDecoder) (offset : Nat) :
    Except EpochError U32 := do
  let height := heightAt startHeight offset
  let record ← okMapError (decoder.record offset) fun _ => .reject (Check.decode.at height.val)
  let block ← okMapError (sampler height) (.node height.val)
  let same ← okMapError (same record block) (.node height.val)
  ensure (same = true) (.reject (Check.sampledBlock.at height.val))
  return height

variable [StdRng]

/-- Compares the records of a range at the heights that the plan picks. -/
def sampleRange (plan : SamplePlan) (sampler : Sampler) (range : ManifestEntry ν × Bytes) :
    Except EpochError (List U32) := do
  let start := range.1.startHeight
  let decoder ← okMapError (RangeDecoder.new range.2) fun _ =>
    .reject (Check.decode.at start.val)
  (plan.offsets start).mapM (sampleAt sampler start decoder)

/-- Compares the records of `epoch` with the full blocks of `sampler`. Gives the compared
    heights. -/
def sample (plan : SamplePlan) (epoch : Epoch ν) (blobs : List Bytes) (sampler : Sampler) :
    Except EpochError (List U32) := do
  ensure (blobs.length = epoch.entries.length)
    (.reject (.blobCount epoch.entries.length blobs.length))
  let sampled ← (epoch.entries.zip blobs).mapM (plan.sampleRange sampler)
  return sampled.flatten

end SamplePlan

/-! ## What a sampled height proves -/

section

variable [Proto.Prost]

/-- The range at position `i` of the epoch stores `bytes` at `offset`, and `before` are the
    tree sizes at the end of the record before it. -/
def RecordAt (epoch : Epoch ν) (blobs : List Bytes) (i offset : Nat) (before : TreeSizes)
    (bytes : Bytes) : Prop :=
  ∃ blob d, blobs[i]? = some blob ∧ RangeDecoder.new blob = .ok d ∧ d.Stores offset bytes ∧
    match offset with
    | 0 => before = (EpochProof.linkBefore epoch.startLink epoch.entries i).endTreeSizes
    | offset + 1 => ∃ r, d.record offset = .ok r ∧ before = r.endTreeSizes

variable {epoch : Epoch ν} {blobs : List Bytes} {offset : Nat} {before : TreeSizes} {bytes : Bytes}
  {sampler : Sampler} {height : U32} {record : CompactBlockRecord}

/-- A place of the epoch stores one record. -/
theorem RecordAt.unique {i : Nat} {before' : TreeSizes} {bytes' : Bytes}
    (h : RecordAt epoch blobs i offset before bytes)
    (h' : RecordAt epoch blobs i offset before' bytes') : before = before' ∧ bytes = bytes' := by
  obtain ⟨blob, d, hblob, hnew, hstores, hbefore⟩ := h
  obtain ⟨blob', d', hblob', hnew', hstores', hbefore'⟩ := h'
  obtain rfl : blob = blob' := Option.some.inj (hblob.symm.trans hblob')
  obtain rfl : d = d' := Except.ok.inj (hnew.symm.trans hnew')
  refine ⟨?_, hstores.unique hstores'⟩
  cases offset with
  | zero => exact hbefore.trans hbefore'.symm
  | succ offset =>
    obtain ⟨r, hr, rfl⟩ := hbefore
    obtain ⟨r', hr', rfl⟩ := hbefore'
    rw [Except.ok.inj (hr.symm.trans hr')]

/-- `bytes` is the encoding of the full block of the sampler, after the tree sizes
    `before`. -/
def NodeBytes (sampler : Sampler) (height : U32) (before : TreeSizes) (bytes : Bytes) : Prop :=
  ∃ block parsed record, sampler height = .ok block ∧ parseBlock block = .ok parsed ∧
    parsed.intoRecord before = some record ∧ record.encode = .ok bytes

/-- The bytes are the encoding of the record that they decode to. -/
def CanonicalRecord (bytes : Bytes) : Prop :=
  ∃ record, CompactBlockRecord.decode bytes = .ok record ∧ record.encode = .ok bytes

theorem NodeBytes.canonical (h : NodeBytes sampler height before bytes) :
    CanonicalRecord bytes := by
  obtain ⟨-, -, record, -, -, -, hencode⟩ := h
  exact ⟨record, CompactBlockRecord.decode_encode hencode, hencode⟩

omit [Proto.Prost] in
theorem SamplePlan.same_eq_true {block : RawIndexBlock} :
    same record block = .ok true ↔ ∃ before parsed expected bytes,
      before.checkedAdd record.additions = some record.endTreeSizes ∧
      parseBlock block = .ok parsed ∧ parsed.intoRecord before = some expected ∧
      expected.encode = .ok bytes ∧ record.encode = .ok bytes := by
  unfold same
  constructor
  · intro h
    split at h
    · cases h
    · next before hbefore =>
      obtain ⟨parsed, hparse, h⟩ := bind_eq_ok.mp h
      split at h
      · cases h
      · next expected hinto =>
        obtain ⟨bytes, hexpected, h⟩ := bind_eq_ok.mp h
        split at h
        · cases h
        · next bytes' hencode =>
          obtain rfl : bytes' = bytes := by simpa using h
          exact ⟨before, parsed, expected, bytes', TreeSizes.checkedSub_eq_some.mp hbefore,
            okMapError_eq_ok.mp hparse, hinto, okMapError_eq_ok.mp hexpected, hencode⟩
  · rintro ⟨before, parsed, expected, bytes, hbefore, hparse, hinto, hexpected, hencode⟩
    simp only [TreeSizes.checkedSub_eq_some.mpr hbefore, hparse, okMapError_ok, ok_bind, hinto,
      hexpected, hencode, decide_true, pure_eq_ok]

/-- The bytes of a record after the tree sizes before it are the node's exactly when they
    are the encoding of the record, once the comparison of the record succeeds. -/
theorem SamplePlan.nodeBytes_iff {block : RawIndexBlock} (hblock : sampler height = .ok block)
    (hsame : same record block = .ok true)
    (hbefore : before.checkedAdd record.additions = some record.endTreeSizes)
    (hdecode : CompactBlockRecord.decode bytes = .ok record) :
    NodeBytes sampler height before bytes ↔ CanonicalRecord bytes := by
  obtain ⟨before', parsed, expected, bytes', hadd, hparse, hinto, hexpected, hencode⟩ :=
    same_eq_true.mp hsame
  obtain rfl : before = before' := TreeSizes.checkedAdd_right_cancel hbefore hadd
  refine ⟨NodeBytes.canonical, ?_⟩
  rintro ⟨record', hdecode', hencode'⟩
  obtain rfl : record = record' := Except.ok.inj (hdecode.symm.trans hdecode')
  obtain rfl : bytes' = bytes := Except.ok.inj (hencode.symm.trans hencode')
  exact ⟨block, parsed, expected, hblock, hparse, hinto, hexpected⟩

theorem SamplePlan.sampleAt_eq_ok {startHeight : U32} {d : RangeDecoder}
    (h : sampleAt sampler startHeight d offset = .ok height) :
    height = heightAt startHeight offset ∧ ∃ record block, d.record offset = .ok record ∧
      sampler (heightAt startHeight offset) = .ok block ∧ same record block = .ok true := by
  simp only [sampleAt, bind_eq_ok, okMapError_eq_ok, ensure_eq_ok, pure_eq_ok, Except.ok.injEq] at h
  obtain ⟨record, hrecord, block, hblock, _, hsame, -, rfl, rfl⟩ := h
  exact ⟨rfl, record, block, hrecord, hblock, hsame⟩

/-- A record of an accepted range is stored after the tree sizes of the records before it. -/
theorem recordAt_of_accepts [Blake3] {i : Nat} {entry : ManifestEntry ν} {blob : Bytes}
    {records : List CompactBlockRecord} {d : RangeDecoder} (hblob : blobs[i]? = some blob)
    (haccepts : RangeBlob.Accepts ⟨blob, entry⟩
      (EpochProof.linkBefore epoch.startLink epoch.entries i) records)
    (hnew : RangeDecoder.new blob = .ok d) (hrecord : d.record offset = .ok record) :
    ∃ before bytes, RecordAt epoch blobs i offset before bytes ∧
      before.checkedAdd record.additions = some record.endTreeSizes ∧
      CompactBlockRecord.decode bytes = .ok record := by
  obtain ⟨d', hnew', hrecords⟩ := haccepts.stored.decoder
  obtain rfl : d = d' := Except.ok.inj (hnew.symm.trans hnew')
  obtain ⟨hoffset, ⟨bytes, hstores, hdecode⟩, -⟩ := RangeDecoder.recordAs_eq_ok.mp hrecord
  -- the record that the check saw at this offset
  have hget : records[offset]? = some record := by
    have hlt : offset < records.length := by rw [haccepts.stored.length_eq]; exact hoffset
    have hsame := hrecords offset _ (List.getElem?_eq_getElem hlt)
    rw [List.getElem?_eq_getElem hlt, Except.ok.inj (hsame.symm.trans hrecord)]
  have hexact := (exactFrom_iff.mp haccepts.exact offset record hget).2
  refine ⟨_, bytes, ⟨blob, d, hblob, hnew, hstores, ?_⟩, hexact, hdecode⟩
  cases offset with
  | zero => rfl
  | succ offset =>
    have hlt : offset < records.length := by rw [haccepts.stored.length_eq]; omega
    refine ⟨_, hrecords offset _ (List.getElem?_eq_getElem hlt), ?_⟩
    rw [RangeLink.after, List.take_add_one, List.getElem?_eq_getElem hlt, Option.toList_some,
      List.getLast?_concat]
    rfl

variable [StdRng]

/-- The heights of the plan in the epoch. -/
def SamplePlan.heights (plan : SamplePlan) (epoch : Epoch ν) : List U32 :=
  epoch.entries.flatMap fun entry => (plan.offsets entry.startHeight).map
    (heightAt entry.startHeight)

theorem SamplePlan.sampleRange_eq_ok {plan : SamplePlan} {range : ManifestEntry ν × Bytes}
    {heights : List U32} (h : plan.sampleRange sampler range = .ok heights) :
    heights = (plan.offsets range.1.startHeight).map (heightAt range.1.startHeight) ∧
      ∃ d, RangeDecoder.new range.2 = .ok d ∧ ∀ offset ∈ plan.offsets range.1.startHeight,
        ∃ record block, d.record offset = .ok record ∧
          sampler (heightAt range.1.startHeight offset) = .ok block ∧
          same record block = .ok true := by
  simp only [sampleRange, bind_eq_ok, okMapError_eq_ok, mapM_eq_ok] at h
  obtain ⟨d, hnew, hheights⟩ := h
  constructor
  · rw [← List.forall₂_eq_eq_eq, List.forall₂_map_right_iff]
    exact hheights.flip.imp fun _ _ hat => (sampleAt_eq_ok hat).1
  · refine ⟨d, hnew, fun offset hoffset => ?_⟩
    obtain ⟨i, hi⟩ := List.mem_iff_getElem?.mp hoffset
    obtain ⟨height, -, hat⟩ := forall₂_getElem? hheights hi
    exact (sampleAt_eq_ok hat).2

theorem SamplePlan.sample_eq_ok {plan : SamplePlan} {heights : List U32}
    (h : plan.sample epoch blobs sampler = .ok heights) :
    heights = plan.heights epoch ∧ blobs.length = epoch.entries.length ∧
      ∀ range ∈ epoch.entries.zip blobs, ∃ heights, plan.sampleRange sampler range =
      .ok heights := by
  simp only [sample, bind_eq_ok, ensure_eq_ok, mapM_eq_ok, pure_eq_ok, Except.ok.injEq] at h
  obtain ⟨-, hcount, sampled, hsampled, rfl⟩ := h
  refine ⟨?_, hcount, fun range hrange => ?_⟩
  · have hentries : (epoch.entries.zip blobs).map Prod.fst = epoch.entries :=
      List.map_fst_zip (by omega)
    rw [heights, ← hentries, List.flatMap_map, List.flatMap_def]
    congr 1
    rw [← List.forall₂_eq_eq_eq, List.forall₂_map_right_iff]
    exact hsampled.flip.imp fun _ _ hrange => (sampleRange_eq_ok hrange).1
  · obtain ⟨i, hi⟩ := List.mem_iff_getElem?.mp hrange
    obtain ⟨heights, -, hsample⟩ := forall₂_getElem? hsampled hi
    exact ⟨heights, hsample⟩

variable [NoteTrees ν] [DecidableEq ν] [Blake3]

/-- After a rebuild and a sample that succeed, the sampled heights are those of the plan,
    and at each of them the stored bytes are the node's exactly when they are the encoding
    of their own record. -/
theorem sampled_bytes_iff {plan : SamplePlan} {epoch : Epoch ν} {blobs : List Bytes}
    {start : Frontiers} {proof : EpochProof ν} {sampler : Sampler} {heights : List U32}
    (hrebuild : EpochProof.rebuild epoch blobs start = .ok proof)
    (hsample : plan.sample epoch blobs sampler = .ok heights) :
    heights = plan.heights epoch ∧
      ∀ (i : Nat) (entry : ManifestEntry ν), epoch.entries[i]? = some entry →
        ∀ offset ∈ plan.offsets entry.startHeight, ∃ before bytes,
          RecordAt epoch blobs i offset before bytes ∧
          (NodeBytes sampler (SamplePlan.heightAt entry.startHeight offset) before bytes ↔
            CanonicalRecord bytes) := by
  obtain ⟨⟨_, ranges⟩, hranges, rfl⟩ := map_eq_ok.mp hrebuild
  obtain ⟨-, -, parts, hcount, -, haccepts, -⟩ := EpochProof.rebuildRanges_eq_ok hranges
  obtain ⟨rfl, -, hsampled⟩ := SamplePlan.sample_eq_ok hsample
  refine ⟨rfl, fun i entry hentry offset hoffset => ?_⟩
  have hi := (List.getElem?_eq_some_iff.mp hentry).1
  obtain ⟨blob, hblob⟩ : ∃ blob, blobs[i]? = some blob :=
    ⟨_, List.getElem?_eq_getElem (by omega)⟩
  have hrange : (epoch.entries.zip blobs)[i]? = some (entry, blob) :=
    List.getElem?_zip_eq_some.mpr ⟨hentry, hblob⟩
  obtain ⟨records, -, haccepted⟩ := haccepts.accepts hrange
  rw [List.map_fst_zip (by omega)] at haccepted
  obtain ⟨_, hsampledRange⟩ := hsampled _ (List.mem_of_getElem? hrange)
  obtain ⟨-, d, hnew, hoffsets⟩ := SamplePlan.sampleRange_eq_ok hsampledRange
  obtain ⟨record, block, hrecord, hblock, hsame⟩ := hoffsets offset hoffset
  obtain ⟨before, bytes, hat, hbefore, hdecode⟩ := recordAt_of_accepts hblob haccepted hnew hrecord
  exact ⟨before, bytes, hat, SamplePlan.nodeBytes_iff hblock hsame hbefore hdecode⟩

end

/-! ## A sampled record that is not canonical -/

/-- A choice of the first indices. -/
@[reducible] def firstIndices : StdRng := ⟨fun _ _ amount => List.range amount⟩

/-- Trees over one node. -/
@[reducible] def unitTrees : NoteTrees Unit where
  leaf _ _ := some ()
  uncommitted _ := ()
  combine _ _ _ _ := ()
  toRpcBytes _ leaves := [Fin.ofNat _ leaves.length]
  fromRpcBytes _ _ := none

section

attribute [local instance] Proto.wireDecoder zeroDigest firstIndices unitTrees

theorem offsets_first : (⟨1, 0⟩ : SamplePlan).offsets 0 = [0] := by
  show (List.range (min 1 rangeSize)).mergeSort = [0]
  simp [rangeSize]

/-- The first range of a plain chain, in whatever form its records are stored, passes the
    rebuild and the sample of its first height. -/
theorem plainRange_sampled {f : CompactBlockRecord → Bytes}
    (hform : ∀ height, CompactBlockRecord.decode (f (plainRecord 1000 height)) =
      .ok (plainRecord 1000 height)) :
    ∃ (entry : ManifestEntry Unit) (blob : Bytes) (proof : EpochProof Unit),
      epochs none [entry] = [⟨[entry], none, false⟩] ∧ entry.startHeight = 0 ∧
      EpochProof.rebuild ⟨[entry], none, false⟩ [blob] ⟨[], [], []⟩ = .ok proof ∧
      (⟨1, 0⟩ : SamplePlan).sample ⟨[entry], none, false⟩ [blob]
        (fun height => .ok (plainRaw 1000 height.val)) = .ok [0] ∧
      RecordAt ⟨[entry], none, false⟩ [blob] 0 0 default (f (plainRecord 1000 0)) := by
  have hrange := plainRecords_isRange 1000
  have hget : ∀ i < rangeSize, (plainRecords 1000 rangeSize)[i]? = some (plainRecord 1000 i) :=
    fun _ => branchRecords_getElem?
  have hmem : ∀ r ∈ plainRecords 1000 rangeSize, ∃ height, plainRecord 1000 height = r := by
    intro r hr
    obtain ⟨height, -, hheight⟩ := List.mem_map.mp hr
    exact ⟨height, hheight⟩
  generalize plainRecords 1000 rangeSize = records at hrange hget hmem
  have hempty : ∀ r ∈ records, r.transactions = [] ∧ r.endTreeSizes = default := by
    intro r hr
    obtain ⟨height, rfl⟩ := hmem r hr
    exact ⟨rfl, rfl⟩
  have hhead : ∀ r ∈ records.head?, r = plainRecord 1000 0 := by
    intro r hr
    rw [List.head?_eq_getElem?, hget 0 (by decide)] at hr
    exact (Option.some.inj hr).symm
  have hparts : List.Forall₂ (fun r part => CompactBlockRecord.decode part = .ok r ∧
      ∀ tx ∈ r.transactions, tx.hasPayload) records (records.map f) := by
    rw [List.forall₂_map_right_iff, List.forall₂_same]
    intro r hr
    have hnone := (hempty r hr).1
    obtain ⟨height, rfl⟩ := hmem r hr
    exact ⟨hform height, by simp [hnone]⟩
  have hexact : ExactFrom .genesis records := by
    apply exactFrom_of_isChain hrange.chain _ rfl hempty
    intro r hr
    rw [hhead r hr]
    rfl
  have hzero : ∀ r ∈ records.head?, r.height.val = 0 := by
    intro r hr
    rw [hhead r hr]
    rfl
  obtain ⟨⟨blob, entry⟩, haccepts, hstart, -, hfrontiers, hroots, -, hstores⟩ :=
    @RangeBlob.exists_accepts_of_parts Unit _ _ _ _ _ _ ⟨[], [], []⟩ hparts hrange.length_eq
      hrange.chain hzero rfl hexact
  have hstart : entry.startHeight = 0 := Fin.ext hstart
  -- no block has a commitment
  have hnone : EpochProof.leavesBy (fun _ _ => ()) (records) = ⟨[], [], []⟩ := by
    have hcommitments : ∀ pool, noteCommitments records pool = [] := by
      intro pool
      rw [noteCommitments, List.flatMap_eq_nil_iff]
      intro r hr
      cases pool <;> simp [CompactBlockRecord.noteCommitments, (hempty r hr).1]
    simp only [EpochProof.leavesBy, hcommitments, List.map_nil]
  obtain ⟨checked, hrebuild⟩ := @EpochProof.rebuildRanges_of_small Unit _ (fun _ _ => ())
    (fun _ _ => rfl) _ _ _ false _ _ _ haccepts
    (by rw [hnone]; intro pool; cases pool <;> decide)
    (by rw [hnone, hfrontiers]; decide) hroots
  obtain ⟨d, hnew, hrecords⟩ := haccepts.stored.decoder
  have hrecord : d.record 0 = .ok (plainRecord 1000 0) := hrecords 0 _ (hget 0 (by decide))
  have hsizes : entry.endTreeSizes = default := by
    have hend := congrArg RangeLink.endTreeSizes haccepts.endLink
    rw [RangeLink.after, List.getLast?_eq_getElem?, hrange.length_eq, hget _ (by decide)] at hend
    exact hend.symm
  refine ⟨entry, blob, _, ?_, hstart, map_eq_ok.mpr ⟨_, hrebuild, rfl⟩, ?_, ?_⟩
  · have htotal : total entry = 0 := by
      rw [total, hsizes]
      rfl
    rw [epochs_singleton, htotal]
    rfl
  · have hsame : SamplePlan.same (plainRecord 1000 0) (plainRaw 1000 0) = .ok true := by
      obtain ⟨bytes, hencode⟩ := plainRecord_encode 1000 0
      exact SamplePlan.same_eq_true.mpr ⟨default, _, _, bytes, rfl, parseBlock_plainRaw 1000 0, rfl,
        hencode, hencode⟩
    have hat : SamplePlan.sampleAt (fun height => .ok (plainRaw 1000 height.val)) 0 d 0 =
      .ok 0 := by
      simp only [SamplePlan.sampleAt, hrecord, okMapError_ok, ok_bind]
      rw [show SamplePlan.heightAt 0 0 = 0 from rfl, show (0 : U32).val = 0 from rfl, hsame]
      rfl
    simp only [SamplePlan.sample, SamplePlan.sampleRange, List.zip_cons_cons, List.zip_nil_right,
      List.mapM_cons, List.mapM_nil, hstart, hnew, okMapError_ok, ok_bind, offsets_first, hat]
    rfl
  · refine ⟨blob, d, rfl, hnew, hstores d hnew 0 _ ?_, rfl⟩
    rw [List.getElem?_map, hget 0 (by decide)]
    rfl

/-- The first range of a plain chain is sampled, and its first record is stored as the
    bytes of the node. -/
theorem sampled_bytes_plain : ∃ (entry : ManifestEntry Unit) (blob : Bytes)
    (proof : EpochProof Unit) (heights : List U32) (before : TreeSizes) (bytes : Bytes),
    EpochProof.rebuild ⟨[entry], none, false⟩ [blob] ⟨[], [], []⟩ = .ok proof ∧
    (⟨1, 0⟩ : SamplePlan).sample ⟨[entry], none, false⟩ [blob]
      (fun height => .ok (plainRaw 1000 height.val)) = .ok heights ∧ 0 ∈ heights ∧
    RecordAt ⟨[entry], none, false⟩ [blob] 0 0 before bytes ∧
    NodeBytes (fun height => .ok (plainRaw 1000 height.val)) 0 before bytes := by
  let form (r : CompactBlockRecord) := envelope r.height r.hash r.previousHash r.toProto.encode
  have hencode : ∀ height, (plainRecord 1000 height).encode =
      .ok (form (plainRecord 1000 height)) := by
    intro height
    have hnone : (plainRecord 1000 height).transactions = [] := rfl
    exact @CompactBlockRecord.encode_of_sizeBound _ 192 (by simp [hnone]) (by rw [hnone]; decide)
  have hform : ∀ height, CompactBlockRecord.decode (form (plainRecord 1000 height)) =
      .ok (plainRecord 1000 height) :=
    fun height => CompactBlockRecord.decode_encode (hencode height)
  obtain ⟨entry, blob, proof, -, hstart, hrebuild, hsample, hat⟩ := plainRange_sampled hform
  obtain ⟨-, hiff⟩ := sampled_bytes_iff hrebuild hsample
  have hzero : 0 ∈ (⟨1, 0⟩ : SamplePlan).offsets entry.startHeight := by
    rw [hstart, offsets_first]
    exact List.mem_singleton_self 0
  obtain ⟨before, bytes, hat', hiff⟩ := hiff 0 entry rfl 0 hzero
  obtain ⟨rfl, rfl⟩ := hat.unique hat'
  rw [hstart] at hiff
  exact ⟨entry, blob, proof, _, _, _, hrebuild, hsample, List.mem_singleton_self 0, hat,
    hiff.mpr ⟨plainRecord 1000 0, hform 0, hencode 0⟩⟩

/-- A range whose records have a field that the schema does not have passes the rebuild and
    the sample. Its first record is sampled, and is not stored as the bytes of the node. -/
theorem sampled_bytes_differ : ∃ (entry : ManifestEntry Unit) (epoch : Epoch Unit) (blob : Bytes)
    (proof : EpochProof Unit) (before : TreeSizes) (bytes : Bytes),
    epochs none [entry] = [epoch] ∧
    EpochProof.rebuild epoch [blob] ⟨[], [], []⟩ = .ok proof ∧
    (⟨1, 0⟩ : SamplePlan).sample epoch [blob] (fun height => .ok (plainRaw 1000 height.val)) =
      .ok [0] ∧
    RecordAt epoch [blob] 0 0 before bytes ∧
    ¬ NodeBytes (fun height => .ok (plainRaw 1000 height.val)) 0 before bytes := by
  obtain ⟨entry, blob, proof, hepochs, -, hrebuild, hsample, hat⟩ :=
    plainRange_sampled (decode_withUnknownField_plain 1000)
  refine ⟨entry, _, blob, proof, _, _, hepochs, hrebuild, hsample, hat, ?_⟩
  intro hnode
  obtain ⟨record, hdecode, hencode⟩ := hnode.canonical
  obtain rfl : record = plainRecord 1000 0 :=
    Except.ok.inj (hdecode.symm.trans (decode_withUnknownField_plain 1000 0))
  exact encode_ne_withUnknownField _ hencode

end

end Ztreamer
