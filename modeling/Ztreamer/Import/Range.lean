import Ztreamer.Index.Install

/-! # The check of a range blob

    A replica checks a blob against its manifest entry and against the end of the
    range before it. The check of the index reads the records; this one sees each
    record, and demands that it adds exactly its own commitments to the trees.

    * `RangeBlob.checkWith` / `RangeBlob.check`: the model,
    * `ExactFrom`: records that link to each other and add exactly their commitments,
    * `RangeBlob.checkWith_eq_ok`: what the check accepts.
-/

namespace Ztreamer

open Octets Result

variable {ν : Type}

/-! ## The model -/

/-- The end of a checked range: what the next range must link to. -/
structure RangeLink where
  endHash : Hash
  endTreeSizes : TreeSizes
  deriving DecidableEq

namespace RangeLink

/-- The link before the genesis block. -/
def genesis : RangeLink := ⟨genesisPreviousBlockHash, default⟩

def ofRecord (record : CompactBlockRecord) : RangeLink := ⟨record.hash, record.endTreeSizes⟩

def ofEntry (entry : ManifestEntry ν) : RangeLink := ⟨entry.endHash, entry.endTreeSizes⟩

end RangeLink

/-- A check that a range can fail after its digest matches. -/
inductive Check where
  | rangeVersion
  | decode
  | startHeight
  | startLink
  | hashChain
  | treeSizes
  | endHash
  | endTreeSizes
  | startFrontier
  | commitment
  | frontier
  | subtreeRoots
  | attestedHash
  | attestedRoots
  | attestedSubtree
  | sampledBlock
  deriving DecidableEq

/-- Why a range was not accepted. -/
inductive Reject where
  /-- The blob is not the one that the manifest describes. Fetch it again. -/
  | refetch (startHeight : Nat) (mismatch : BlobMismatch)
  | blobCount (entries blobs : Nat)
  /-- The blob is the one that the manifest describes, and a check failed. -/
  | rejected (check : Check) (height : Nat)
  deriving DecidableEq

/-- The rejection of a range that failed this check at `height`. -/
def Check.at (check : Check) (height : Nat) : Reject := .rejected check height

/-- A range blob with the manifest entry that describes it. -/
structure RangeBlob (ν : Type) where
  bytes : Bytes
  entry : ManifestEntry ν

namespace RangeBlob

/-- What the check has seen: the link and the height of the next record, and the
    state of the visitor. -/
structure Seen (σ : Type) where
  link : RangeLink
  height : Nat
  visitor : σ

section

variable {σ : Type} (start : Nat) (visit : σ → CompactBlockRecord → Except Reject σ)

/-- Checks the link and the sizes of a record, and shows it to `visit`. -/
def checkRecord (seen : Seen σ) (record : CompactBlockRecord) : Except Reject (Seen σ) := do
  ensure (record.height.val = seen.height) (Check.startHeight.at record.height.val)
  ensure (record.previousHash = seen.link.endHash)
    ((if seen.height = start then Check.startLink else Check.hashChain).at seen.height)
  ensure (seen.link.endTreeSizes.checkedAdd record.additions = some record.endTreeSizes)
    (Check.treeSizes.at seen.height)
  let visitor ← visit seen.visitor record
  return ⟨.ofRecord record, min (seen.height + 1) (2 ^ 32 - 1), visitor⟩

end

variable [Proto.Prost] [Blake3]

omit [Proto.Prost] [Blake3] in
/-- A blob of another version than its entry is rejected for that first. -/
def rejectVersioned (b : RangeBlob ν) (reject : Reject) : Reject :=
  if b.bytes.head? ≠ some b.entry.rangeVersion then
    Check.rangeVersion.at b.entry.startHeight.val
  else reject

omit [Proto.Prost] [Blake3] in
/-- The rejection for a failed check of the index: the digest, then the version,
    then the error of the decode or of the checks of each record. -/
def reject (b : RangeBlob ν) (error : RangeCheckError Reject) : Reject :=
  match error with
  | .blob mismatch => .refetch b.entry.startHeight.val mismatch
  | .envelope _ => b.rejectVersioned (Check.decode.at b.entry.startHeight.val)
  | .record height _ => b.rejectVersioned (Check.decode.at height)
  | .chain height => b.rejectVersioned (Check.hashChain.at height)
  | .visit reject => b.rejectVersioned reject

/-- `check`, and `visit` each record after its link and size checks pass. -/
def checkWith {σ : Type} (b : RangeBlob ν) (previous : RangeLink) (visitor : σ)
    (visit : σ → CompactBlockRecord → Except Reject σ) :
    Except Reject (RangeLink × CheckedRange × σ) := do
  let start := b.entry.startHeight.val
  let (checked, seen) ← okMapError (CheckedRange.checkWith b.bytes b.entry
    (⟨previous, start, visitor⟩ : Seen σ) (checkRecord start visit)) b.reject
  ensure (b.bytes.head? = some b.entry.rangeVersion) (Check.rangeVersion.at start)
  ensure (seen.link.endHash = b.entry.endHash) (Check.endHash.at b.entry.endHeight.val)
  ensure (seen.link.endTreeSizes = b.entry.endTreeSizes)
    (Check.endTreeSizes.at b.entry.endHeight.val)
  return (seen.link, checked, seen.visitor)

/-- Checks a blob against its entry. `previous` is the end of the range before.
    Gives the end of this range. -/
def check (b : RangeBlob ν) (previous : RangeLink) : Except Reject RangeLink :=
  (·.1) <$> b.checkWith previous () fun _ _ => .ok ()

end RangeBlob

/-! ## Exact records -/

/-- Each record links to the one before it, the first to `link`, and adds exactly
    its own commitments to the trees. -/
def ExactFrom (link : RangeLink) : List CompactBlockRecord → Prop
  | [] => True
  | r :: records =>
    r.previousHash = link.endHash ∧
      link.endTreeSizes.checkedAdd r.additions = some r.endTreeSizes ∧
      ExactFrom (.ofRecord r) records

/-- The link after records, or `link` when there is none. -/
def RangeLink.after (link : RangeLink) (records : List CompactBlockRecord) : RangeLink :=
  records.getLast?.elim link .ofRecord

theorem RangeLink.after_cons (link : RangeLink) (r : CompactBlockRecord)
    (records : List CompactBlockRecord) :
    link.after (r :: records) = (RangeLink.ofRecord r).after records := by
  unfold RangeLink.after
  cases records with
  | nil => rfl
  | cons a records =>
    rw [List.getLast?_cons_cons, List.getLast?_eq_some_getLast (List.cons_ne_nil a records)]
    rfl

theorem RangeLink.after_append (link : RangeLink) (as bs : List CompactBlockRecord) :
    link.after (as ++ bs) = (link.after as).after bs := by
  induction as generalizing link with
  | nil => rfl
  | cons r as ih => rw [List.cons_append, RangeLink.after_cons, RangeLink.after_cons, ih]

theorem exactFrom_append {link : RangeLink} {as bs : List CompactBlockRecord} :
    ExactFrom link (as ++ bs) ↔ ExactFrom link as ∧ ExactFrom (link.after as) bs := by
  induction as generalizing link with
  | nil => simp [ExactFrom, RangeLink.after]
  | cons r as ih =>
    rw [List.cons_append, ExactFrom, ExactFrom, ih, RangeLink.after_cons]
    tauto

/-- Exact records pass the weaker check of the index. -/
theorem ExactFrom.linksFrom {link : RangeLink} {records : List CompactBlockRecord}
    (h : ExactFrom link records) : LinksFrom (some (link.endHash, link.endTreeSizes)) records := by
  induction records generalizing link with
  | nil => trivial
  | cons r records ih =>
    obtain ⟨hlink, hsizes, hrest⟩ := h
    refine ⟨?_, ih hrest⟩
    intro below hbelow
    obtain rfl := Option.some.inj hbelow
    exact ⟨hlink, TreeSizes.follows_of_checkedAdd hsizes⟩

theorem LinksFrom.none {below : Option (Hash × TreeSizes)} {records : List CompactBlockRecord}
    (h : LinksFrom below records) : LinksFrom none records := by
  cases records with
  | nil => trivial
  | cons r records => exact ⟨by simp, h.2⟩

namespace RangeBlob

variable {σ : Type} {link previous : RangeLink} {b : RangeBlob ν}

/-- The check of each record accepts exact records at their heights. -/
theorem foldlM_checkRecord_eq_ok {start : Nat} {visit : σ → CompactBlockRecord → Except Reject σ}
    {records : List CompactBlockRecord} {link' : RangeLink} {height : Nat} {visitor visitor' : σ}
    (hlen : height + records.length ≤ 2 ^ 32) :
    (∃ height', records.foldlM (checkRecord start visit) ⟨link, height, visitor⟩ =
        .ok ⟨link', height', visitor'⟩) ↔
      (∀ (i : Nat) (r : CompactBlockRecord), records[i]? = some r → r.height.val = height + i) ∧
        ExactFrom link records ∧ records.foldlM visit visitor = .ok visitor' ∧
        link' = link.after records := by
  induction records generalizing link height visitor with
  | nil =>
    simp only [List.foldlM_nil, pure_eq_ok, Except.ok.injEq, Seen.mk.injEq]
    constructor
    · rintro ⟨_, rfl, -, rfl⟩
      exact ⟨by simp, trivial, rfl, rfl⟩
    · rintro ⟨-, -, rfl, rfl⟩
      exact ⟨height, rfl, rfl, rfl⟩
  | cons r records ih =>
    rw [List.length_cons] at hlen
    -- the height saturates only after the last record
    have hnext : records = [] ∨ min (height + 1) (2 ^ 32 - 1) = height + 1 := by
      cases records with
      | nil => exact .inl rfl
      | cons => exact .inr (by rw [List.length_cons] at hlen; omega)
    have hheights : (∀ (i : Nat) (r' : CompactBlockRecord), records[i]? = some r' →
        r'.height.val = min (height + 1) (2 ^ 32 - 1) + i) ↔
        ∀ (i : Nat) (r' : CompactBlockRecord), records[i]? = some r' →
          r'.height.val = height + 1 + i := by
      rcases hnext with rfl | hnext
      · simp
      · rw [hnext]
    simp only [List.foldlM_cons, bind_eq_ok, checkRecord, ensure_eq_ok, pure_eq_ok, Except.ok.injEq]
    constructor
    · rintro ⟨height', _, ⟨-, hheight, -, hlink, -, hsizes, visitor₁, hvisit, rfl⟩, h⟩
      obtain ⟨hrest, hexact, hvisits, rfl⟩ := (ih (by omega)).mp ⟨height', h⟩
      refine ⟨?_, ⟨hlink, hsizes, hexact⟩, ⟨visitor₁, hvisit, hvisits⟩,
        (RangeLink.after_cons _ _ _).symm⟩
      intro i r' hr'
      cases i with
      | zero =>
        obtain rfl : r = r' := by simpa using hr'
        exact hheight
      | succ i =>
        have := hheights.mp hrest i r' (by simpa using hr')
        omega
    · rintro ⟨hrest, ⟨hlink, hsizes, hexact⟩, ⟨visitor₁, hvisit, hvisits⟩, rfl⟩
      have hheight : r.height.val = height := hrest 0 r rfl
      obtain ⟨height', h⟩ := (@ih (.ofRecord r) (min (height + 1) (2 ^ 32 - 1)) visitor₁
        (by omega)).mpr ⟨hheights.mpr fun i r' hr' => by
          have := hrest (i + 1) r' (by simpa using hr')
          omega, hexact, hvisits, RangeLink.after_cons _ _ _⟩
      exact ⟨height', _, ⟨(), hheight, (), hlink, (), hsizes, visitor₁, hvisit, rfl⟩, h⟩

variable [Proto.Prost] [Blake3]

/-- The records of a blob that the check accepts. -/
structure Accepts (b : RangeBlob ν) (previous : RangeLink) (records : List CompactBlockRecord) :
    Prop where
  stored : RangeRecords b.bytes b.entry.startHeight.val records
  exact : ExactFrom previous records
  blob : b.entry.checkBlob b.bytes = .ok ()
  version : b.entry.rangeVersion = rangeFormatVersion
  endLink : previous.after records = .ofEntry b.entry

omit [Proto.Prost] [Blake3] in
theorem head?_of_new {bytes : Bytes} {d : RangeDecoder} (h : RangeDecoder.new bytes = .ok d) :
    bytes.head? = some rangeFormatVersion := by
  obtain ⟨-, ⟨stop, -, rfl⟩, -⟩ := RangeDecoder.new_eq_ok.mp h
  rfl

theorem checkWith_eq_ok {visitor visitor' : σ} {visit : σ → CompactBlockRecord → Except Reject σ}
    {checked : CheckedRange} (h : b.checkWith previous visitor visit =
      .ok (link, checked, visitor')) :
    ∃ first rest, b.Accepts previous (first :: rest) ∧
      (first :: rest).foldlM visit visitor = .ok visitor' ∧
      link = previous.after (first :: rest) ∧ checked.blob = b.bytes ∧
      checked.start = b.entry.startHeight.val ∧
      checked.chain = RangeChain.ofRecords first rest := by
  simp only [checkWith, bind_eq_ok, okMapError_eq_ok, ensure_eq_ok, pure_eq_ok, Except.ok.injEq,
    Prod.exists, Prod.mk.injEq] at h
  obtain ⟨_, seen, hcheck, -, hversion, -, hhash, -, hsizes, rfl, rfl, rfl⟩ := h
  obtain ⟨hblob, hbytes, range, henvelope, hstart, hchain⟩ := CheckedRange.checkWith_eq_ok.mp hcheck
  obtain ⟨first, rest, hreads, hlinks, hfold, hofRecords⟩ :=
    SealedRange.checkChainWith_eq_ok.mp hchain
  simp only [SealedRange.fromEnvelope, bind_eq_ok, pure_eq_ok, Except.ok.injEq] at henvelope
  obtain ⟨d, hnew, rfl⟩ := henvelope
  have hrecords := hreads.rangeRecords hnew hlinks
  -- the first record is at the start of the entry and at the start of the envelope
  have hfirst : first.height.val = b.entry.startHeight.val := by
    rw [List.foldlM_cons, bind_eq_ok] at hfold
    obtain ⟨_, hfirst, -⟩ := hfold
    simp only [checkRecord, bind_eq_ok, ensure_eq_ok] at hfirst
    exact hfirst.choose_spec.1
  have hsame : d.start.val = b.entry.startHeight.val := by
    rw [← hfirst]
    exact (hrecords.height 0 first rfl).symm
  rw [hsame] at hrecords
  obtain ⟨-, hexact, hvisits, hafter⟩ :=
    (foldlM_checkRecord_eq_ok hrecords.end_le).mp ⟨seen.height, hfold⟩
  refine ⟨first, rest, ⟨hrecords, hexact, hblob, ?_, ?_⟩, hvisits, hafter, hbytes,
    hstart.trans hsame, hofRecords⟩
  · rw [head?_of_new hnew] at hversion
    exact (Option.some.inj hversion).symm
  · rw [← hafter, RangeLink.ofEntry, ← hhash, ← hsizes]

/-- The check accepts such a blob when the visitor accepts its records. -/
theorem Accepts.checkWith {first : CompactBlockRecord} {rest : List CompactBlockRecord}
    (h : b.Accepts previous (first :: rest)) {visitor visitor' : σ}
    {visit : σ → CompactBlockRecord → Except Reject σ}
    (hvisit : (first :: rest).foldlM visit visitor = .ok visitor') :
    ∃ checked, b.checkWith previous visitor visit =
        .ok (previous.after (first :: rest), checked, visitor') ∧ checked.blob = b.bytes ∧
      checked.start = b.entry.startHeight.val ∧
      checked.chain = RangeChain.ofRecords first rest := by
  obtain ⟨height', hfold⟩ : ∃ height', (first :: rest).foldlM
      (checkRecord b.entry.startHeight.val visit) ⟨previous, b.entry.startHeight.val, visitor⟩ =
      .ok ⟨previous.after (first :: rest), height', visitor'⟩ :=
    (foldlM_checkRecord_eq_ok h.stored.end_le).mpr ⟨h.stored.height, h.exact, hvisit, rfl⟩
  obtain ⟨checked, hcheck, hchecked⟩ := h.stored.checkWith h.exact.linksFrom.none h.blob hfold
  obtain ⟨d, hnew, -⟩ := h.stored.decoder
  have hversion : b.bytes.head? = some b.entry.rangeVersion := by
    rw [head?_of_new hnew, h.version]
  have hhash : (previous.after (first :: rest)).endHash = b.entry.endHash := by
    rw [h.endLink]
    rfl
  have hsizes : (previous.after (first :: rest)).endTreeSizes = b.entry.endTreeSizes := by
    rw [h.endLink]
    rfl
  refine ⟨checked, ?_, hchecked⟩
  simp only [RangeBlob.checkWith, hcheck, okMapError_ok, ok_bind, ensure_of _ hversion,
    ensure_of _ hhash, ensure_of _ hsizes]
  rfl

theorem Accepts.check {first : CompactBlockRecord} {rest : List CompactBlockRecord}
    (h : b.Accepts previous (first :: rest)) :
    b.check previous = .ok (previous.after (first :: rest)) := by
  have hvisit : (first :: rest).foldlM (fun _ _ => (.ok () : Except Reject Unit)) () = .ok () :=
    foldlM_eq_ok_foldl fun _ _ _ => rfl
  obtain ⟨checked, hcheck, -⟩ := h.checkWith hvisit
  rw [RangeBlob.check, hcheck]
  rfl

/-- Encoded forms of exact records at a range start are accepted as a blob. The entry has
    the `frontiers`, and lists no subtree. -/
theorem exists_accepts_of_parts {records : List CompactBlockRecord} {parts : List Bytes}
    {start : Nat} {link : RangeLink} (frontiers : Frontiers)
    (hparts : List.Forall₂ (fun r part => CompactBlockRecord.decode part = .ok r ∧
      ∀ tx ∈ r.transactions, tx.hasPayload) records parts)
    (hlen : records.length = rangeSize) (hchain : records.IsChain CompactBlockRecord.Precedes)
    (hstart : ∀ r ∈ records.head?, r.height.val = start) (halign : start % rangeSize = 0)
    (hexact : ExactFrom link records) :
    ∃ b : RangeBlob ν, b.Accepts link records ∧ b.entry.startHeight.val = start ∧
      b.entry.endHeight.val = start + (rangeSize - 1) ∧ b.entry.frontiers = frontiers ∧
      b.entry.subtreeRoots = [] ∧ b.entry.epochEnd = true ∧
      ∀ d, RangeDecoder.new b.bytes = .ok d → ∀ (i : Nat) (part : Bytes), parts[i]? = some part →
        d.Stores i part := by
  obtain ⟨blob, -, hrecords, hstores⟩ := RangeRecords.of_parts hparts hlen hchain hstart halign
  obtain ⟨d, hnew, -⟩ := hrecords.decoder
  have hne : records ≠ [] := by
    intro hnil
    rw [hnil] at hlen
    cases hlen
  have hlast := List.getLast?_eq_some_getLast hne
  have hend := hrecords.end_le
  have hheight : (records.getLast hne).height.val = start + (rangeSize - 1) := by
    rw [List.getLast?_eq_getElem?, hlen] at hlast
    exact hrecords.height _ _ hlast
  let last := records.getLast hne
  let entry : ManifestEntry ν :=
    { rangeVersion := rangeFormatVersion
      startHeight := ⟨start, by rw [hlen, rangeSize] at hend; omega⟩
      endHeight := last.height
      endHash := last.hash
      endTreeSizes := last.endTreeSizes
      frontiers
      subtreeRoots := []
      blobDigest := Blake3.hash blob
      blobLen := ⟨blob.length, RangeDecoder.length_of_new hnew⟩
      epochEnd := true }
  refine ⟨⟨blob, entry⟩, ?_, rfl, hheight, rfl, rfl, rfl, hstores⟩
  exact
    { stored := hrecords
      exact := hexact
      blob := ManifestEntry.checkBlob_eq_ok.mpr ⟨rfl, rfl⟩
      version := rfl
      endLink := by rw [RangeLink.after, hlast]; rfl }

end RangeBlob

end Ztreamer
