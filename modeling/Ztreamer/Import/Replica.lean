import Ztreamer.Import.Range
import Ztreamer.Index.Answers
import Ztreamer.Index.IngestRun

/-! # An indexer and its replicas

    An indexer seals the ranges of a chain, and a replica checks each range and
    installs it. The two checks are written apart: the replica demands that each
    record adds exactly its own commitments, and the index only that the tree
    sizes do not decrease.

    * `Represents.accepts_sealed`: a replica accepts what an indexer sealed,
    * `Represents.install_accepted`: what an index does with an accepted range.
-/

namespace Ztreamer

open Octets Result Connected

variable {ν : Type}

/-! ## Exact chains -/

/-- The link to the tip of an index. -/
def IndexState.tipLink (st : IndexState) : RangeLink := ⟨st.installParentHash, st.treeSizes⟩

theorem Describes.tipLink {st : IndexState} {chain : List CompactBlockRecord} {sealed : Nat}
    (h : Describes st chain sealed) : st.tipLink = RangeLink.genesis.after chain := by
  unfold IndexState.tipLink IndexState.installParentHash RangeLink.after
  rw [h.tip, h.treeSizes]
  cases chain.getLast? with
  | none => rfl
  | some last => rfl

/-- Records are exact when each is exact after the records below it. -/
theorem exactFrom_iff {link : RangeLink} {records : List CompactBlockRecord} :
    ExactFrom link records ↔ ∀ (i : Nat) (r : CompactBlockRecord), records[i]? = some r →
      r.previousHash = (link.after (records.take i)).endHash ∧
      (link.after (records.take i)).endTreeSizes.checkedAdd r.additions = some r.endTreeSizes := by
  induction records generalizing link with
  | nil => simp [ExactFrom]
  | cons r records ih =>
    rw [ExactFrom, ih]
    constructor
    · rintro ⟨hlink, hsizes, hrest⟩ i r' hr'
      cases i with
      | zero =>
        obtain rfl : r = r' := by simpa using hr'
        exact ⟨hlink, hsizes⟩
      | succ i =>
        rw [List.take_succ_cons, RangeLink.after_cons]
        exact hrest i r' (by simpa using hr')
    · intro h
      obtain ⟨hlink, hsizes⟩ := h 0 r rfl
      refine ⟨hlink, hsizes, fun i r' hr' => ?_⟩
      have hnext := h (i + 1) r' (by simpa using hr')
      rw [List.take_succ_cons, RangeLink.after_cons] at hnext
      exact hnext

/-- The records of a chain are exact. -/
theorem Indexed.exactFrom {blocks : List RawIndexBlock} {parsed : List ParsedCompactBlock}
    {records : List CompactBlockRecord} (h : Indexed blocks parsed records) :
    ExactFrom .genesis records := by
  rw [exactFrom_iff]
  intro i r hr
  have hi := (List.getElem?_eq_some_iff.mp hr).1
  rw [h.records_length] at hi
  obtain ⟨b, p, r', -, -, hr', hparse, hinto, -, -, hprevious, -⟩ := h.at_height hi
  obtain rfl : r = r' := Option.some.inj (hr.symm.trans hr')
  obtain ⟨sizes, hadd, rfl⟩ := ParsedCompactBlock.intoRecord_eq_some.mp hinto
  have hhash : (RangeLink.genesis.after (records.take i)).endHash = tipHash (blocks.take i) := by
    rw [← (h.take i).tipHash_eq, RangeLink.after]
    cases (records.take i).getLast? <;> rfl
  have hsizes : (RangeLink.genesis.after (records.take i)).endTreeSizes =
      endSizes default (records.take i) := by
    rw [endSizes, RangeLink.after]
    cases (records.take i).getLast? <;> rfl
  constructor
  · rw [hhash]
    exact hprevious
  · rw [hsizes, parseBlock_additions hparse]
    exact hadd

section

variable [Proto.Prost] [Blake3]

/-! ## What an indexer seals -/

/-- An entry built from the range `blob` at `start` that ends with the record `last`. -/
structure ManifestEntry.BuiltFrom (entry : ManifestEntry ν) (blob : Bytes) (start : Nat)
    (last : CompactBlockRecord) : Prop where
  version : entry.rangeVersion = rangeFormatVersion
  startHeight : entry.startHeight.val = start
  endHeight : entry.endHeight.val = start + (rangeSize - 1)
  endHash : entry.endHash = last.hash
  endTreeSizes : entry.endTreeSizes = last.endTreeSizes
  digest : entry.blobDigest = Blake3.hash blob
  len : entry.blobLen.val = blob.length

variable {heightOf : HeightOf} {s : Store ν} {st : IndexState} {chain : List CompactBlockRecord}

omit [Blake3] in
/-- The records of a sealed range are those of the chain. -/
theorem Represents.rangeRecords (h : Represents heightOf s st chain)
    (hpayload : ∀ r ∈ chain, ∀ tx ∈ r.transactions, tx.hasPayload) {start : Nat} {blob : Bytes}
    (hblob : s.sealedRanges[start]? = some blob) :
    RangeRecords blob start ((chain.drop start).take rangeSize) := by
  obtain ⟨hmod, hlt⟩ := h.holds.sealed_key start blob hblob
  obtain ⟨blob', hblob', d, hnew, hread⟩ := h.holds.sealed_range start hmod hlt
  obtain rfl : blob = blob' := Option.some.inj (hblob.symm.trans hblob')
  have hget : ∀ {i : Nat} {r : CompactBlockRecord},
      ((chain.drop start).take rangeSize)[i]? = some r → i < rangeSize ∧ chain[start + i]? =
      some r := by
    intro i r hr
    obtain ⟨hi, hr⟩ := lt_of_getElem?_take hr
    rw [List.getElem?_drop] at hr
    exact ⟨hi, hr⟩
  refine ⟨?_, ⟨d, hnew, fun i r hr => ?_⟩, fun i r hr => ?_, (h.connected.isChain.drop _).take _,
    fun r hr => hpayload r (List.mem_of_mem_drop (List.mem_of_mem_take hr))⟩
  · -- the sealed ranges end at a range boundary
    have haligned := h.holds.sealed_aligned
    have hle := h.holds.sealed_le
    rw [List.length_take, List.length_drop]
    simp only [rangeSize] at *
    omega
  · obtain ⟨hi, hr⟩ := hget hr
    obtain ⟨r', hr', hrecord⟩ := hread i hi
    obtain rfl : r = r' := Option.some.inj (hr.symm.trans hr')
    exact hrecord
  · exact h.connected.height_eq (hget hr).2

/-- A replica accepts a sealed range of an exact chain, after the range below. -/
theorem Represents.accepts_sealed (h : Represents heightOf s st chain)
    (hexact : ExactFrom .genesis chain)
    (hpayload : ∀ r ∈ chain, ∀ tx ∈ r.transactions, tx.hasPayload) {start : Nat} {blob : Bytes}
    (hblob : s.sealedRanges[start]? = some blob) :
    ∃ last, chain[start + (rangeSize - 1)]? = some last ∧
      ∀ entry : ManifestEntry ν, entry.BuiltFrom blob start last →
        RangeBlob.check ⟨blob, entry⟩ (RangeLink.genesis.after (chain.take start)) =
          .ok (.ofRecord last) := by
  have hrecords := h.rangeRecords hpayload hblob
  have hlen := hrecords.length_eq
  obtain ⟨first, rest, hcons⟩ : ∃ first rest, (chain.drop start).take rangeSize =
    first :: rest := by
    cases hcons : (chain.drop start).take rangeSize with
    | nil => rw [hcons] at hlen; simp [rangeSize] at hlen
    | cons first rest => exact ⟨first, rest, rfl⟩
  -- the range is a part of the exact chain
  have hpart : ExactFrom (RangeLink.genesis.after (chain.take start)) (first :: rest) := by
    rw [← List.take_append_drop start chain, exactFrom_append,
      ← List.take_append_drop rangeSize (chain.drop start), exactFrom_append, hcons] at hexact
    exact hexact.2.1
  rw [hcons] at hrecords hlen
  have hlast : (first :: rest)[rangeSize - 1]? = chain[start + (rangeSize - 1)]? := by
    rw [← hcons, List.getElem?_take_of_lt (by decide), List.getElem?_drop]
  obtain ⟨last, hget⟩ : ∃ last, (first :: rest)[rangeSize - 1]? = some last :=
    ⟨_, List.getElem?_eq_getElem (by rw [hlen]; decide)⟩
  have hafter : (RangeLink.genesis.after (chain.take start)).after (first :: rest) =
      .ofRecord last := by
    rw [RangeLink.after, List.getLast?_eq_getElem?, hlen, hget]
    rfl
  refine ⟨last, hlast ▸ hget, fun entry hentry => ?_⟩
  have haccepts : RangeBlob.Accepts ⟨blob, entry⟩ (RangeLink.genesis.after (chain.take start))
      (first :: rest) :=
    { stored := hentry.startHeight.symm ▸ hrecords
      exact := hpart
      blob := ManifestEntry.checkBlob_eq_ok.mpr ⟨hentry.len.symm, hentry.digest.symm⟩
      version := hentry.version
      endLink := by rw [hafter, RangeLink.ofEntry, hentry.endHash, hentry.endTreeSizes]; rfl }
  rw [haccepts.check, hafter]

/-! ## What an index installs -/

/-- What an index without mutable rows does with a range that a replica accepted. -/
inductive InstallsAccepted (s : Store ν) (st : IndexState) (checked : CheckedRange)
    (info : RangeMeta ν) (link : RangeLink) : Prop where
  /-- The range does not start above the last sealed range. -/
  | rangeOrder : checked.start ≠ st.sealedEnd →
      s.installCheckedRange checked info = .error (.rangeOrder checked.start st.sealedEnd) →
      InstallsAccepted s st checked info link
  | duplicateHash (height : Nat) : checked.start = st.sealedEnd →
      s.installCheckedRange checked info = .error (.duplicateHash height) →
      InstallsAccepted s st checked info link
  /-- The generation is the largest one. -/
  | overflow : checked.start = st.sealedEnd → 2 ^ 64 ≤ st.generation + 1 →
      s.installCheckedRange checked info = .error .overflow →
      InstallsAccepted s st checked info link
  | installed (s' : Store ν) (st' : IndexState) : checked.start = st.sealedEnd →
      s.installCheckedRange checked info = .ok (s', st') → st'.tipLink = link →
      InstallsAccepted s st checked info link

/-- An accepted range is refused for its place, for a hash that the index holds, or
    at the last generation, and for nothing else. -/
theorem Represents.install_accepted (h : Represents .any s st chain) (hrows : ¬ st.hasMutableRows)
    {b : RangeBlob ν} {σ : Type} {visitor visitor' : σ}
    {visit : σ → CompactBlockRecord → Except Reject σ} {link : RangeLink} {checked : CheckedRange}
    (hcheck : b.checkWith st.tipLink visitor visit = .ok (link, checked, visitor'))
    (hend : b.entry.endHeight.val = b.entry.startHeight.val + (rangeSize - 1))
    {info : RangeMeta ν} (hentry : info.entry = b.entry) (hstate : info.state = .verified) :
    InstallsAccepted s st checked info link := by
  obtain ⟨first, rest, haccepts, -, hlink, hbytes, hstart, hchain⟩ :=
    RangeBlob.checkWith_eq_ok hcheck
  have hfull := h.sealedEnd_eq_length hrows
  by_cases horder : checked.start = st.sealedEnd
  swap
  · refine .rangeOrder horder ?_
    rw [Store.installCheckedRange, Writer.startInstall, Writer.startLatest, h.state, ok_bind,
      pure_eq_ok, ok_bind, h.nextRangeStart, ok_bind, ensure_of_not _ horder]
    rfl
  have hplace : checked.start = chain.length := horder.trans hfull
  have hlt := h.nextRangeStart
  rw [IndexState.nextRangeStart, checkedHeight_eq_ok, hfull] at hlt
  -- the last record is the one that the entry names
  have hlast : (RangeChain.ofRecords first rest).last = (first :: rest).getLast (by simp) := rfl
  have hafter : st.tipLink.after (first :: rest) =
      .ofRecord (RangeChain.ofRecords first rest).last := by
    rw [RangeLink.after, List.getLast?_eq_some_getLast (List.cons_ne_nil first rest)]
    rfl
  have hlastHeight : (RangeChain.ofRecords first rest).last.height.val =
      b.entry.startHeight.val + (rangeSize - 1) := by
    refine haccepts.stored.height _ _ ?_
    rw [hlast, ← haccepts.stored.length_eq, ← List.getLast?_eq_getElem?]
    exact List.getLast?_eq_some_getLast _
  have hendLink := haccepts.endLink
  rw [hafter, RangeLink.ofRecord, RangeLink.ofEntry, RangeLink.mk.injEq] at hendLink
  have hmatches : info.Matches chain.length (RangeChain.ofRecords first rest) := by
    refine ⟨?_, ?_, ?_, ?_, ?_, ?_⟩
    · rw [hentry, haccepts.version]
    · rw [hentry, ← hstart, hplace]
    · rw [hentry]
      exact Fin.ext (hend.trans hlastHeight.symm)
    · rw [hentry, hendLink.1]
    · rw [hentry, hendLink.2]
    · rw [hstate]
      decide
  have hlinks : checked.chain.linksTo st.installParentHash st.treeSizes := by
    rw [hchain]
    exact haccepts.exact.linksFrom.1 _ rfl
  have hblob : info.entry.checkBlob checked.blob = .ok () := by
    rw [hentry, hbytes]
    exact haccepts.blob
  have hinstall := h.installCheckedRange_eq hfull hlt.1 hplace hblob hlinks
  rw [hchain] at hinstall
  rcases h.install_cases hmatches checked.blob with
    ⟨height, -, herror⟩ | ⟨hgen, herror⟩ | ⟨out, hok⟩
  · exact .duplicateHash height horder (hinstall.trans herror)
  · exact .overflow horder hgen (hinstall.trans herror)
  · have hdone := hinstall.trans hok
    have hrespects : BlobRespects .any checked.blob := fun _ _ _ _ _ => trivial
    obtain ⟨records, hrecords, hrep, -⟩ := h.installCheckedRange hrespects hdone
    rw [hbytes] at hrecords
    obtain rfl := hrecords.unique haccepts.stored
    refine .installed out.1 out.2 horder hdone ?_
    rw [hrep.describes.tipLink, hlink, hafter, RangeLink.after, List.getLast?_append,
      List.getLast?_eq_some_getLast (List.cons_ne_nil first rest)]
    rfl

/-- A replica accepts each range that an indexer sealed of a chain. An index without
    mutable rows installs an accepted range that starts above its last sealed range,
    unless the range repeats a hash or the generation is the largest one, and then its
    tip is the end of the range; it refuses a range that starts elsewhere. -/
theorem sealed_accepted_and_accepted_installed :
    (∀ (blocks : List RawIndexBlock) (parsed : List ParsedCompactBlock)
      (records : List CompactBlockRecord), Indexed blocks parsed records →
      ∀ s : Store ν, IngestRun parsed s →
      ∀ (start : Nat) (blob : Bytes), s.sealedRanges[start]? = some blob →
        ∃ last, records[start + (rangeSize - 1)]? = some last ∧
          ∀ entry : ManifestEntry ν, entry.BuiltFrom blob start last →
            RangeBlob.check ⟨blob, entry⟩ (RangeLink.genesis.after (records.take start)) =
              .ok (.ofRecord last)) ∧
    (∀ (s : Store ν) (st : IndexState), Reachable (Call.Honest .any) s → s.getState = .ok st →
      ¬ st.hasMutableRows →
      ∀ (b : RangeBlob ν) (link : RangeLink) (checked : CheckedRange),
        b.checkWith st.tipLink () (fun _ _ => .ok ()) = .ok (link, checked, ()) →
        b.entry.endHeight.val = b.entry.startHeight.val + (rangeSize - 1) →
        ∀ info : RangeMeta ν, info.entry = b.entry → info.state = .verified →
          InstallsAccepted s st checked info link) := by
  constructor
  · intro blocks parsed records hindexed s hrun start blob hblob
    obtain ⟨n, st, hn, hrep⟩ := hrun.represents hindexed.parsedChain
    have hpayload : ∀ r ∈ records.take n, ∀ tx ∈ r.transactions, tx.hasPayload := by
      intro r hr
      obtain ⟨i, hi⟩ := List.mem_iff_getElem?.mp (List.mem_of_mem_take hr)
      exact (hindexed.record_spec hi).2.2.2
    obtain ⟨last, hlast, hcheck⟩ :=
      hrep.accepts_sealed (hindexed.take n).exactFrom hpayload hblob
    obtain ⟨hlt, hlast⟩ := lt_of_getElem?_take hlast
    rw [List.take_take, Nat.min_eq_left (by omega)] at hcheck
    exact ⟨last, hlast, hcheck⟩
  · intro s st hreach hst hrows b link checked hcheck hend info hentry hstate
    obtain ⟨st', chain, hrep⟩ := hreach.represents fun _ hc => hc
    obtain rfl : st' = st := Except.ok.inj (hrep.state.symm.trans hst)
    exact hrep.install_accepted hrows hcheck hend hentry hstate

end

section

attribute [local instance] Proto.wireDecoder zeroDigest

/-- The first range of a plain chain is sealed, accepted, and installed in an empty
    index. -/
theorem sealed_accepted_and_accepted_installed_plain : ∃ (s : Store Unit) (blob : Bytes)
    (last : CompactBlockRecord) (info : RangeMeta Unit) (checked : CheckedRange),
    IngestRun ((List.range rangeSize).map (plainParsed 5000)) s ∧
    s.sealedRanges[0]? = some blob ∧ info.entry.BuiltFrom blob 0 last ∧
    RangeBlob.check ⟨blob, info.entry⟩ .genesis = .ok (.ofRecord last) ∧
    InstallsAccepted Store.empty {} checked info (.ofRecord last) := by
  have hnode := plainBlocks_nodeChain 5000 (n := rangeSize) (by decide)
  obtain ⟨s, st, hrun, hrep, hsealed, -⟩ := hnode.ingestRun (ν := Unit) (some 999)
    (n := rangeSize) (by rw [length_branchRecords]) (by decide)
  obtain ⟨blob, hblob, d, hnew, -⟩ := hrep.holds.sealed_range 0 rfl (by rw [hsealed]; decide)
  obtain ⟨hsealedOk, hinstallOk⟩ := @sealed_accepted_and_accepted_installed Unit _ _
  obtain ⟨last, hlast, hcheck⟩ := hsealedOk _ _ _ hnode.toIndexed s hrun 0 blob hblob
  have hheight := (hnode.record_spec hlast).1
  let info : RangeMeta Unit :=
    ⟨rangeEntry blob (RangeDecoder.length_of_new hnew) last, .verified, none, none, none, []⟩
  have hbuilt : info.entry.BuiltFrom blob 0 last := ⟨rfl, rfl, hheight, rfl, rfl, rfl, rfl⟩
  have haccepted := hcheck info.entry hbuilt
  obtain ⟨⟨link, checked, _⟩, hchecked, hlink⟩ := map_eq_ok.mp haccepted
  obtain rfl : link = .ofRecord last := hlink
  exact ⟨s, blob, last, info, checked, hrun, hblob, hbuilt, haccepted,
    hinstallOk Store.empty {} .empty rfl (by decide) ⟨blob, info.entry⟩ _ checked hchecked
      (by rw [hbuilt.endHeight, hbuilt.startHeight]) info rfl rfl⟩

/-- Empty records that link to each other are exact. -/
theorem exactFrom_of_isChain {link : RangeLink} {records : List CompactBlockRecord}
    (hchain : records.IsChain CompactBlockRecord.Precedes)
    (hlink : ∀ r ∈ records.head?, r.previousHash = link.endHash)
    (hsizes : link.endTreeSizes = default)
    (hempty : ∀ r ∈ records, r.transactions = [] ∧ r.endTreeSizes = default) :
    ExactFrom link records := by
  induction records generalizing link with
  | nil => trivial
  | cons r records ih =>
    obtain ⟨hnext, hchain⟩ := List.isChain_cons.mp hchain
    obtain ⟨hnone, hdefault⟩ := hempty r List.mem_cons_self
    refine ⟨hlink r rfl, ?_, ih hchain (fun r' hr' => (hnext r' hr').2) hdefault
      fun r' hr' => hempty r' (List.mem_cons_of_mem r hr')⟩
    rw [hsizes, hdefault, CompactBlockRecord.additions, hnone]
    rfl

/-- A range of empty records is accepted after a link with empty trees. -/
theorem exists_accepts {records : List CompactBlockRecord} {start : Nat} {link : RangeLink}
    (hlen : records.length = rangeSize) (hchain : records.IsChain CompactBlockRecord.Precedes)
    (hstart : ∀ r ∈ records.head?, r.height.val = start) (halign : start % rangeSize = 0)
    (hlink : ∀ r ∈ records.head?, r.previousHash = link.endHash)
    (hsizes : link.endTreeSizes = default)
    (hempty : ∀ r ∈ records, r.transactions = [] ∧ r.endTreeSizes = default) :
    ∃ b : RangeBlob Unit, b.Accepts link records ∧ b.entry.startHeight.val = start ∧
      b.entry.endHeight.val = start + (rangeSize - 1) := by
  have hencode : ∀ r ∈ records, r.encode =
      .ok (envelope r.height r.hash r.previousHash r.toProto.encode) := by
    intro r hr
    have hnone := (hempty r hr).1
    refine CompactBlockRecord.encode_of_sizeBound (n := 192) (by simp [hnone]) ?_
    rw [hnone]
    decide
  have hparts : List.Forall₂ (fun r part => CompactBlockRecord.decode part = .ok r ∧
      ∀ tx ∈ r.transactions, tx.hasPayload) records
      (records.map fun r => envelope r.height r.hash r.previousHash r.toProto.encode) := by
    rw [List.forall₂_map_right_iff, List.forall₂_same]
    intro r hr
    exact ⟨CompactBlockRecord.decode_encode (hencode r hr), by simp [(hempty r hr).1]⟩
  obtain ⟨b, haccepts, hstart, hend, -⟩ := RangeBlob.exists_accepts_of_parts ⟨[], [], []⟩ hparts
    hlen hchain hstart halign (exactFrom_of_isChain hchain hlink hsizes hempty)
  exact ⟨b, haccepts, hstart, hend⟩

/-- A range at 1000 that links to the genesis hash. A replica with an empty index
    accepts it, and the index refuses it for its place. -/
theorem install_refuses_misplaced : ∃ (b : RangeBlob Unit) (link : RangeLink)
    (checked : CheckedRange),
    b.checkWith ({} : IndexState).tipLink () (fun _ _ => .ok ()) = .ok (link, checked, ()) ∧
    b.entry.endHeight.val = b.entry.startHeight.val + (rangeSize - 1) ∧
    ∀ info : RangeMeta Unit, info.entry = b.entry → info.state = .verified →
      Store.empty.installCheckedRange checked info = .error (.rangeOrder 1000 0) := by
  obtain ⟨records, hlen, hchain, hstart, hlink, hempty⟩ : ∃ records : List CompactBlockRecord,
      records.length = rangeSize ∧ records.IsChain CompactBlockRecord.Precedes ∧
      (∀ r ∈ records.head?, r.height.val = 1000) ∧
      (∀ r ∈ records.head?, r.previousHash = RangeLink.genesis.endHash) ∧
      ∀ r ∈ records, r.transactions = [] ∧ r.endTreeSizes = default := by
    -- the second range of a plain chain, with another parent for its first record
    have hall : ∀ r ∈ plainRecords 5000 (2 * rangeSize),
        r.transactions = [] ∧ r.endTreeSizes = default := by
      intro r hr
      obtain ⟨height, -, rfl⟩ := List.mem_map.mp hr
      exact ⟨rfl, rfl⟩
    have hconnected := (plainBlocks_nodeChain 5000 (n := 2 * rangeSize) (by decide)).connected
    have hlen : (plainRecords 5000 (2 * rangeSize)).length = 2 * rangeSize :=
      length_branchRecords _ _ _
    generalize plainRecords 5000 (2 * rangeSize) = chain at hall hconnected hlen
    have hlt : rangeSize < chain.length := by
      rw [hlen]
      decide
    have hheight : chain[rangeSize].height.val = 1000 :=
      hconnected.height_eq (List.getElem?_eq_getElem hlt)
    have hisChain := hconnected.isChain.drop rangeSize
    rw [List.drop_eq_getElem_cons hlt, List.isChain_cons] at hisChain
    refine ⟨{ chain[rangeSize] with previousHash := genesisPreviousBlockHash } ::
      chain.drop (rangeSize + 1), ?_, List.isChain_cons.mpr hisChain, ?_, ?_, ?_⟩
    · rw [List.length_cons, List.length_drop, hlen, rangeSize]
    · intro r hr
      obtain rfl := Option.some.inj hr
      exact hheight
    · intro r hr
      obtain rfl := Option.some.inj hr
      rfl
    · intro r hr
      rcases List.mem_cons.mp hr with rfl | hr
      · exact hall chain[rangeSize] (List.getElem_mem hlt)
      · exact hall r (List.mem_of_mem_drop hr)
  obtain ⟨b, haccepts, hbstart, hbend⟩ := exists_accepts hlen hchain hstart rfl hlink rfl hempty
  cases records with
  | nil => cases hlen
  | cons first rest =>
    obtain ⟨checked, hcheck, -⟩ := haccepts.checkWith
      (foldlM_eq_ok_foldl fun _ _ _ => rfl : (first :: rest).foldlM
        (fun _ _ => (.ok () : Except Reject Unit)) () = .ok ())
    obtain ⟨-, -, -, -, -, -, hplace, -⟩ := RangeBlob.checkWith_eq_ok hcheck
    rw [hbstart] at hplace
    refine ⟨b, _, checked, hcheck, by rw [hbstart, hbend], fun info hentry hstate => ?_⟩
    have hempty : Represents .any (Store.empty : Store Unit) {} [] := represents_empty
    have hzero : ({} : IndexState).sealedEnd = 0 := rfl
    have hne : checked.start ≠ ({} : IndexState).sealedEnd := by
      rw [hplace, hzero]
      decide
    rcases hempty.install_accepted (by decide) hcheck (by rw [hbstart, hbend]) hentry hstate with
      ⟨-, herror⟩ | ⟨-, hsame, -⟩ | ⟨hsame, -⟩ | ⟨-, -, hsame, -⟩
    · rw [herror, hplace, hzero]
    · exact absurd hsame hne
    · exact absurd hsame hne
    · exact absurd hsame hne

end

end Ztreamer
