import Ztreamer.Index.State
import Ztreamer.Lib.Table

/-! # The tables of an index

    A store is the committed content of the five tables. The rows of the block
    tables are the stored bytes; a row of `rangeMeta` is its decoded value.

    * `Store.read`: the block lookup that spans the tables,
    * `SealedRange.checkChainWith`: the check of every record of a range,
    * `CheckedRange`: a blob that passed that check.
-/

namespace Ztreamer

open Octets Result

/-! ## Rows and tables -/

/-- How far a sealed range has been proven. -/
inductive VerifyState where
  | unverified
  | verified
  | rejected
  deriving DecidableEq

/-- The node that verified a range. -/
structure NodeId where
  url : String
  version : String
  deriving DecidableEq

/-- A node's answers for the end of a range. -/
structure Attested (ν : Type) where
  endHash : Hash
  roots : PoolRoots ν
  subtreeRoots : List (SubtreeRoot ν)
  deriving DecidableEq

/-- Everything the index keeps about one sealed range besides its blocks. -/
structure RangeMeta (ν : Type) where
  entry : ManifestEntry ν
  state : VerifyState
  verifiedBy : Option NodeId
  verifiedAt : Option U64
  attested : Option (Attested ν)
  sampledHeights : List U32
  deriving DecidableEq

/-- The committed content of an index. -/
structure Store (ν : Type) where
  state : Option Bytes
  sealedRanges : Table Nat Bytes
  mutableBlocks : Table Nat Bytes
  hashToHeight : Table Hash Nat
  rangeMeta : Table Nat (RangeMeta ν)

variable {ν : Type}

namespace Store

/-- An index with no commit. -/
def empty : Store ν := ⟨none, ∅, ∅, ∅, ∅⟩

/-- The persisted state. An index that has never committed has the default state. -/
def getState (s : Store ν) : Except IndexError IndexState :=
  match s.state with
  | none => .ok {}
  | some row => decodeState row

end Store

/-- The first height of the range that holds `height`. -/
def rangeStart (height : Nat) : Nat := height - height % rangeSize

theorem rangeStart_le (height : Nat) : rangeStart height ≤ height := Nat.sub_le _ _

theorem rangeStart_add_mod (height : Nat) : rangeStart height + height % rangeSize = height :=
  Nat.sub_add_cancel (Nat.mod_le _ _)

theorem rangeStart_mod (height : Nat) : rangeStart height % rangeSize = 0 := by
  simp only [rangeStart, rangeSize]
  omega

/-! ## Sealed ranges -/

/-- One packed range with its key. -/
structure SealedRange where
  start : Nat
  decoder : RangeDecoder
  deriving DecidableEq

namespace SealedRange

def new (start : Nat) (bytes : Bytes) : Except CodecError SealedRange := do
  let decoder ← RangeDecoder.new bytes
  return { start, decoder }

/-- The first height of the envelope is the start of the range. -/
def fromEnvelope (bytes : Bytes) : Except CodecError SealedRange := do
  let decoder ← RangeDecoder.new bytes
  return { start := decoder.start.val, decoder }

/-- Decodes the record at the absolute `height`. -/
def read (α : Type) [StoredBlock α] (range : SealedRange) (height : Nat) : Except CodecError α := do
  ensure (range.start ≤ height) .rangeIndex
  range.decoder.recordAs α (height - range.start)

/-- The heights of the range. The end saturates at the largest height. -/
def heights (range : SealedRange) : List Nat :=
  List.range' range.start (min rangeSize (2 ^ 32 - range.start))

end SealedRange

namespace Store

/-- The range that holds `height`, if a range starts there. -/
def find (s : Store ν) (height : Nat) : Except IndexError (Option SealedRange) :=
  match s.sealedRanges[rangeStart height]? with
  | none => .ok none
  | some bytes => do
    let range ← okMapError (SealedRange.new (rangeStart height) bytes) .codec
    return some range

/-- Reads the block at `height` from the table that holds it under `st`. -/
def read (α : Type) [StoredBlock α] (s : Store ν) (st : IndexState) (height : Nat) :
    Except IndexError α := do
  ensure (∃ tip ∈ st.durableTip, height ≤ tip.height) (.coverage height)
  if height < st.sealedEnd then
    let found ← s.find height
    let range ← okOr found (.coverage height)
    okMapError (range.read α height) .codec
  else
    let bytes ← okOr s.mutableBlocks[height]? (.coverage height)
    okMapError (StoredBlock.decode bytes) .codec

end Store

/-! ## The chain of a range -/

/-- The link of the first record of a range to the block below it. -/
structure FirstLink where
  previousHash : Hash
  treeSizes : TreeSizes
  deriving DecidableEq

/-- The id of each block in height order, the link of the first record, and the
    last record. -/
structure RangeChain where
  ids : List BlockId
  first : FirstLink
  last : CompactBlockRecord
  deriving DecidableEq

/-- The first record links to the block with the hash `parent` and the tree
    sizes `treeSizes`. -/
def RangeChain.linksTo (chain : RangeChain) (parent : Hash) (treeSizes : TreeSizes) : Prop :=
  chain.first.previousHash = parent ∧ chain.first.treeSizes.follows treeSizes

instance (chain : RangeChain) (parent : Hash) (treeSizes : TreeSizes) :
    Decidable (chain.linksTo parent treeSizes) := by
  unfold RangeChain.linksTo; infer_instance

/-- Why a blob is not a checked range. -/
inductive RangeCheckError (ε : Type) where
  | blob (mismatch : BlobMismatch)
  | envelope (source : CodecError)
  | record (height : Nat) (source : CodecError)
  | chain (height : Nat)
  | visit (error : ε)
  deriving DecidableEq

/-- The error of an install of the range at `start` that failed this check. -/
def RangeCheckError.intoIndexError (start : Nat) : RangeCheckError Empty → IndexError
  | .blob mismatch => .blob start mismatch
  | .envelope source => .codec source
  | .record _ source => .codec source
  | .chain height => .rangeBlob height

namespace SealedRange

/-- What the check has seen so far: the ids, the block below the next record,
    the first link, the last record, and the state of the visitor. -/
structure ChainCheck (σ : Type) where
  ids : List BlockId
  below : Option (Hash × TreeSizes)
  first : Option FirstLink
  last : Option CompactBlockRecord
  visitor : σ

section

variable [Proto.Prost] {σ ε : Type}

/-- Decodes and checks the record at `height`. -/
def checkRecord (range : SealedRange) (visit : σ → CompactBlockRecord → Except ε σ)
    (acc : ChainCheck σ) (height : Nat) : Except (RangeCheckError ε) (ChainCheck σ) := do
  let record ← okMapError (do
    let record ← range.read CompactBlockRecord height
    record.check
    return record) (.record height)
  let visitor ← okMapError (visit acc.visitor record) .visit
  ensure (record.height.val = height ∧ ∀ below ∈ acc.below,
    record.previousHash = below.1 ∧ record.endTreeSizes.follows below.2) (.chain height)
  return { ids := acc.ids ++ [⟨height, record.hash⟩]
           below := some (record.hash, record.endTreeSizes)
           first := acc.first.or (some ⟨record.previousHash, record.endTreeSizes⟩)
           last := some record
           visitor }

/-- Checks the chain of the range, on top of the block `parent` if it is given.
    `visit` sees each record before the checks that need the record below it. -/
def checkChainWith (range : SealedRange) (parent : Option (Hash × TreeSizes)) (visitor : σ)
    (visit : σ → CompactBlockRecord → Except ε σ) :
    Except (RangeCheckError ε) (RangeChain × σ) := do
  let acc ← range.heights.foldlM (range.checkRecord visit) ⟨[], parent, none, none, visitor⟩
  match acc.first, acc.last with
  | some first, some last => return (⟨acc.ids, first, last⟩, acc.visitor)
  -- a range holds a record, so the source does not get here
  | _, _ => throw (.chain range.start)

/-- Checks the chain of the range on top of the block below it. -/
def checkChain (range : SealedRange) (parent : Hash) (treeSizes : TreeSizes) :
    Except IndexError RangeChain := do
  let (chain, _) ← okMapError
    (range.checkChainWith (some (parent, treeSizes)) () fun _ _ => .ok ())
    (RangeCheckError.intoIndexError range.start)
  return chain

end

end SealedRange

/-! ### What the check establishes -/

/-- The id of a record. -/
def CompactBlockRecord.blockId (r : CompactBlockRecord) : BlockId := ⟨r.height.val, r.hash⟩

/-- Each record is the child of the one before it, the first of `below`, and the
    tree sizes do not decrease. -/
def LinksFrom : Option (Hash × TreeSizes) → List CompactBlockRecord → Prop
  | _, [] => True
  | below, r :: records =>
    (∀ b ∈ below, r.previousHash = b.1 ∧ r.endTreeSizes.follows b.2) ∧
      LinksFrom (some (r.hash, r.endTreeSizes)) records

/-- The summary of a range with the records `first :: rest`. -/
def RangeChain.ofRecords (first : CompactBlockRecord) (rest : List CompactBlockRecord) :
    RangeChain where
  ids := (first :: rest).map (·.blockId)
  first := ⟨first.previousHash, first.endTreeSizes⟩
  last := (first :: rest).getLast (by simp)

namespace SealedRange

section

variable [Proto.Prost] {σ ε : Type}

/-- `records` are the records of the range at `heights`, and all pass their check. -/
def Reads (range : SealedRange) (heights : List Nat) (records : List CompactBlockRecord) : Prop :=
  List.Forall₂ (fun height r => range.read CompactBlockRecord height = .ok r ∧
    (∀ tx ∈ r.transactions, tx.hasPayload) ∧ r.height.val = height) heights records

variable {range : SealedRange} {visit : σ → CompactBlockRecord → Except ε σ}

variable {acc acc' : ChainCheck σ} {parent : Option (Hash × TreeSizes)} {visitor visitor' : σ}
  {chain : RangeChain}

theorem checkRecord_eq_ok {height : Nat} :
    range.checkRecord visit acc height = .ok acc' ↔
      ∃ r, range.read CompactBlockRecord height = .ok r ∧
        (∀ tx ∈ r.transactions, tx.hasPayload) ∧ r.height.val = height ∧
        visit acc.visitor r = .ok acc'.visitor ∧
        (∀ b ∈ acc.below, r.previousHash = b.1 ∧ r.endTreeSizes.follows b.2) ∧
        acc'.ids = acc.ids ++ [r.blockId] ∧ acc'.below = some (r.hash, r.endTreeSizes) ∧
        acc'.first = acc.first.or (some ⟨r.previousHash, r.endTreeSizes⟩) ∧
        acc'.last = some r := by
  simp only [checkRecord, CompactBlockRecord.check, bind_eq_ok, okMapError_eq_ok, ensure_eq_ok,
    pure_eq_ok, Except.ok.injEq]
  constructor
  · rintro ⟨_, ⟨r, hread, -, hcheck, rfl⟩, visitor, hvisit, -, ⟨rfl, hlinks⟩, rfl⟩
    exact ⟨r, hread, hcheck, rfl, hvisit, hlinks, rfl, rfl, rfl, rfl⟩
  · rintro ⟨r, hread, hcheck, rfl, hvisit, hlinks, hids, hbelow, hfirst, hlast⟩
    refine ⟨r, ⟨r, hread, (), hcheck, rfl⟩, _, hvisit, (), ⟨rfl, hlinks⟩, ?_⟩
    cases acc'
    simp_all [CompactBlockRecord.blockId]

theorem foldlM_checkRecord_eq_ok {heights : List Nat} :
    heights.foldlM (range.checkRecord visit) acc = .ok acc' ↔
      ∃ records, range.Reads heights records ∧ LinksFrom acc.below records ∧
        records.foldlM visit acc.visitor = .ok acc'.visitor ∧
        acc'.ids = acc.ids ++ records.map (·.blockId) ∧
        acc'.below = (records.getLast?.map fun r => (r.hash, r.endTreeSizes)).or acc.below ∧
        acc'.first =
          acc.first.or (records.head?.map fun r => ⟨r.previousHash, r.endTreeSizes⟩) ∧
        acc'.last = records.getLast?.or acc.last := by
  -- induction on the heights: the accumulator holds what the next record must follow
  induction heights generalizing acc with
  | nil =>
    simp only [List.foldlM_nil, pure_eq_ok, Except.ok.injEq, Reads, List.forall₂_nil_left_iff]
    constructor
    · rintro rfl
      exact ⟨[], rfl, trivial, rfl, by simp, by simp, by simp, by simp⟩
    · rintro ⟨_, rfl, -, hvisit, hids, hbelow, hfirst, hlast⟩
      cases acc; cases acc'
      simp_all
  | cons height heights ih =>
    rw [List.foldlM_cons, bind_eq_ok]
    constructor
    · rintro ⟨acc₁, h₁, h⟩
      obtain ⟨r, hread, hcheck, hheight, hvisit, hlinks, hids, hbelow, hfirst, hlast⟩ :=
        checkRecord_eq_ok.mp h₁
      obtain ⟨records, hreads, hrest, hvisits, hids', hbelow', hfirst', hlast'⟩ := ih.mp h
      refine ⟨r :: records, .cons ⟨hread, hcheck, hheight⟩ hreads, ⟨hlinks, hbelow ▸ hrest⟩, ?_, ?_,
        ?_, ?_, ?_⟩
      · rw [List.foldlM_cons, hvisit, ok_bind, hvisits]
      · simp [hids', hids]
      · rw [hbelow', hbelow]
        cases records <;> simp [List.getLast?_cons]
      · rw [hfirst', hfirst]
        cases acc.first <;> simp
      · rw [hlast', hlast]
        cases records <;> simp [List.getLast?_cons]
    · rintro ⟨_, hreads, hlinks, hvisits, hids, hbelow, hfirst, hlast⟩
      cases hreads with
      | @cons _ r _ records hr hreads =>
        rw [List.foldlM_cons, bind_eq_ok] at hvisits
        obtain ⟨visitor, hvisit, hvisits⟩ := hvisits
        refine ⟨⟨acc.ids ++ [r.blockId], some (r.hash, r.endTreeSizes),
          acc.first.or (some ⟨r.previousHash, r.endTreeSizes⟩), some r, visitor⟩,
          checkRecord_eq_ok.mpr ⟨r, hr.1, hr.2.1, hr.2.2, hvisit, hlinks.1, rfl, rfl, rfl, rfl⟩,
          ih.mpr ⟨records, hreads, hlinks.2, hvisits, ?_, ?_, ?_, ?_⟩⟩
        · simp [hids]
        · rw [hbelow]
          cases records <;> simp [List.getLast?_cons]
        · rw [hfirst]
          cases acc.first <;> simp
        · rw [hlast]
          cases records <;> simp [List.getLast?_cons]

/-- The check accepts a range exactly when its records are read and linked and
    the visitor accepts them; the summary is that of the records. -/
theorem checkChainWith_eq_ok :
    range.checkChainWith parent visitor visit = .ok (chain, visitor') ↔
      ∃ first rest, range.Reads range.heights (first :: rest) ∧ LinksFrom parent (first :: rest) ∧
        (first :: rest).foldlM visit visitor = .ok visitor' ∧
        chain = RangeChain.ofRecords first rest := by
  simp only [checkChainWith, bind_eq_ok, foldlM_checkRecord_eq_ok]
  constructor
  · rintro ⟨acc, ⟨records, hreads, hlinks, hvisits, hids, -, hfirst, hlast⟩, h⟩
    cases records with
    | nil => simp_all
    | cons first rest =>
      simp only [hfirst, hlast, hids, List.nil_append, Option.none_or, List.head?_cons,
        Option.map_some, List.getLast?_eq_some_getLast (List.cons_ne_nil first rest),
        Option.or_none, pure_eq_ok, Except.ok.injEq, Prod.mk.injEq] at h
      obtain ⟨rfl, rfl⟩ := h
      exact ⟨first, rest, hreads, hlinks, hvisits, rfl⟩
  · rintro ⟨first, rest, hreads, hlinks, hvisits, rfl⟩
    refine ⟨⟨(first :: rest).map (·.blockId), some (((first :: rest).getLast (by simp)).hash,
      ((first :: rest).getLast (by simp)).endTreeSizes), some ⟨first.previousHash,
      first.endTreeSizes⟩, some ((first :: rest).getLast (by simp)), visitor'⟩,
      ⟨first :: rest, hreads, hlinks, hvisits, by simp, ?_, by simp, ?_⟩, rfl⟩
    · simp [List.getLast?_eq_some_getLast]
    · simp [List.getLast?_eq_some_getLast]

/-- What is found does not depend on the visitor. -/
theorem checkChainWith_unit (h : range.checkChainWith parent visitor visit =
    .ok (chain, visitor')) :
    range.checkChainWith parent () (fun _ _ => (.ok () : Except Empty Unit)) =
      .ok (chain, ()) := by
  obtain ⟨first, rest, hreads, hlinks, -, rfl⟩ := checkChainWith_eq_ok.mp h
  refine checkChainWith_eq_ok.mpr ⟨first, rest, hreads, hlinks, ?_, rfl⟩
  exact foldlM_eq_ok_foldl fun _ _ _ => rfl

end

end SealedRange

/-- A range blob that passed the checks of an install that do not need the
    index. Only `CheckedRange.checkWith` makes one, so the value carries what
    the check found. -/
structure CheckedRange [Proto.Prost] [Blake3] where
  blob : Bytes
  blobDigest : BlobDigest
  start : Nat
  chain : RangeChain
  digest_eq : Blake3.hash blob = blobDigest
  checked : ∃ range, SealedRange.fromEnvelope blob = .ok range ∧ range.start = start ∧
    range.checkChainWith none () (fun _ _ => (.ok () : Except Empty Unit)) = .ok (chain, ())

namespace CheckedRange

variable [Proto.Prost] [Blake3]

/-- Checks `blob` against `entry` and the rules of a sealed range, and shows each
    record to `visit`. -/
def checkWith {σ ε : Type} (blob : Bytes) (entry : ManifestEntry ν) (visitor : σ)
    (visit : σ → CompactBlockRecord → Except ε σ) :
    Except (RangeCheckError ε) (CheckedRange × σ) :=
  match hblob : entry.checkBlob blob with
  | .error mismatch => .error (.blob mismatch)
  | .ok _ =>
    match henv : SealedRange.fromEnvelope blob with
    | .error source => .error (.envelope source)
    | .ok range =>
      match hchain : range.checkChainWith none visitor visit with
      | .error error => .error error
      | .ok (chain, visitor) =>
        .ok ({ blob
               blobDigest := entry.blobDigest
               start := range.start
               chain
               digest_eq := (ManifestEntry.checkBlob_eq_ok.mp hblob).2
               checked := ⟨range, henv, rfl, SealedRange.checkChainWith_unit hchain⟩ }, visitor)

def check (blob : Bytes) (entry : ManifestEntry ν) :
    Except (RangeCheckError Empty) CheckedRange := do
  let (range, _) ← checkWith blob entry () fun _ _ => .ok ()
  return range

/-- What the check of a blob has found, and that it has checked nothing else. -/
theorem checkWith_eq_ok {σ ε : Type} {blob : Bytes} {entry : ManifestEntry ν} {visitor visitor' : σ}
    {visit : σ → CompactBlockRecord → Except ε σ} {checked : CheckedRange} :
    checkWith blob entry visitor visit = .ok (checked, visitor') ↔
      entry.checkBlob blob = .ok () ∧ checked.blob = blob ∧
      ∃ range, SealedRange.fromEnvelope blob = .ok range ∧ checked.start = range.start ∧
        range.checkChainWith none visitor visit = .ok (checked.chain, visitor') := by
  constructor
  · intro h
    unfold checkWith at h
    split at h
    · cases h
    case _ hblob =>
      split at h
      · cases h
      case _ range henv =>
        split at h
        · cases h
        case _ chain found hchain =>
          cases h
          exact ⟨hblob, rfl, range, henv, rfl, hchain⟩
  · rintro ⟨hblob, hbytes, range, henv, hstart, hchain⟩
    unfold checkWith
    split
    case _ hmismatch =>
      rw [hblob] at hmismatch
      cases hmismatch
    split
    case _ hsource =>
      rw [henv] at hsource
      cases hsource
    case _ range' henv' =>
      obtain rfl : range = range' := Except.ok.inj (henv.symm.trans henv')
      split
      case _ herror =>
        rw [hchain] at herror
        cases herror
      case _ chain found hchain' =>
        obtain ⟨rfl, rfl⟩ := Prod.mk.inj (Except.ok.inj (hchain.symm.trans hchain'))
        have hdigest := (ManifestEntry.checkBlob_eq_ok.mp hblob).2
        rw [← hbytes, checked.digest_eq] at hdigest
        cases checked
        simp_all

/-- Checks that `entry` gives the length and the digest of the blob. It does not
    calculate the digest again. -/
def checkEntryBlob (range : CheckedRange) (entry : ManifestEntry ν) : Except BlobMismatch Unit :=
  if entry.blobLen.val ≠ range.blob.length then .error (.len entry.blobLen range.blob.length)
  else if entry.blobDigest = range.blobDigest then .ok ()
  else .error .digest

end CheckedRange

end Ztreamer
