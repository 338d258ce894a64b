import Ztreamer.Index.Tables

/-! # Index writes

    One write transaction over the tables, and the writes that use it: an
    append, the two reorg replacements, and an install. A write is a function
    from the committed store to the store and the state that it commits; a
    write that fails commits nothing.
-/

namespace Ztreamer

open Octets Result

variable {ν : Type}

/-! ## Batches -/

/-- An ordered batch for appending to the index. -/
structure WriteBatch where
  baseGeneration : Nat
  sealThrough : Option Nat
  records : List CompactBlockRecord
  deriving DecidableEq

/-- One encoded record, with the identity that the writer needs. -/
structure EncodedBlock where
  height : Nat
  hash : Hash
  previousHash : Hash
  bytes : Bytes
  deriving DecidableEq

structure EncodedBatch where
  baseGeneration : Nat
  sealThrough : Option Nat
  blocks : List EncodedBlock
  endTreeSizes : TreeSizes
  deriving DecidableEq

def CompactBlockRecord.encodeBlock (r : CompactBlockRecord) : Except CodecError EncodedBlock := do
  let bytes ← r.encode
  return { height := r.height.val, hash := r.hash, previousHash := r.previousHash, bytes }

/-- Encodes all records. Builders never emit empty batches, for which the source
    has no tree sizes. -/
def WriteBatch.encode (batch : WriteBatch) : Except CodecError EncodedBatch := do
  let blocks ← batch.records.mapM CompactBlockRecord.encodeBlock
  return { baseGeneration := batch.baseGeneration
           sealThrough := batch.sealThrough
           blocks
           endTreeSizes := batch.records.getLast?.elim default (·.endTreeSizes) }

/-! ## The writer -/

/-- An open write transaction and the state it will commit. -/
structure Writer (ν : Type) where
  tables : Store ν
  state : IndexState

namespace Writer

/-- Starts a write transaction on the current generation. -/
def startLatest (s : Store ν) : Except IndexError (Writer ν) := do
  let state ← s.getState
  return { tables := s, state }

/-- Starts a write transaction, and rejects a write built from another generation. -/
def start (s : Store ν) (baseGeneration : Nat) : Except IndexError (Writer ν) := do
  let writer ← startLatest s
  ensure (writer.state.generation = baseGeneration) (.staleBatch baseGeneration)
  return writer

/-- Starts the write of an install at `start`. -/
def startInstall (s : Store ν) (start : Nat) : Except IndexError (Writer ν) := do
  let writer ← startLatest s
  let next ← writer.state.nextRangeStart
  ensure (start = next) (.rangeOrder start next)
  ensure (¬ writer.state.hasMutableRows) .mutableRows
  return writer

/-- Advances the generation, writes the state, and commits. Every write has set
    the tip before. -/
def commit (w : Writer ν) : Except IndexError (Store ν × IndexState) := do
  ensure (w.state.generation + 1 < 2 ^ 64) .overflow
  let state := { w.state with generation := w.state.generation + 1 }
  let tip ← okOr state.durableTip .metadata
  return ({ w.tables with state := some (encodeState tip state) }, state)

def setTip (w : Writer ν) (tip : BlockId) (treeSizes : TreeSizes) : Writer ν :=
  { w with state := w.state.withDurableTip tip treeSizes }

/-- Writes the hash entry of every block in an appended batch. -/
def putHashes (w : Writer ν) (blocks : List EncodedBlock) : Writer ν :=
  { w with tables := { w.tables with
      hashToHeight := Table.putAll w.tables.hashToHeight
        (blocks.map fun block => (block.hash, block.height)) } }

/-- Writes the batch rows that no range took as mutable rows. -/
def putMutableBlocks (w : Writer ν) (blocks : List EncodedBlock) : Writer ν :=
  { w with tables := { w.tables with
      mutableBlocks := Table.putAll w.tables.mutableBlocks
        (blocks.map fun block => (block.height, block.bytes)) } }

/-- Writes the hash entry of a block in an installed range. Refuses a hash that
    the index holds already. -/
def putNewHash (w : Writer ν) (block : BlockId) : Except IndexError (Writer ν) := do
  ensure (w.tables.hashToHeight[block.hash]? = none) (.duplicateHash block.height)
  return { w with tables := { w.tables with
    hashToHeight := w.tables.hashToHeight.insert block.hash block.height } }

/-- Writes `record` as a mutable row, and its hash entry. -/
def putBlock (w : Writer ν) (record : CompactBlockRecord) : Except IndexError (Writer ν) := do
  let encoded ← okMapError record.encode .codec
  return { w with tables := { w.tables with
    mutableBlocks := w.tables.mutableBlocks.insert record.height.val encoded
    hashToHeight := w.tables.hashToHeight.insert record.hash record.height.val } }

/-- Deletes the hash entry of `record`, and its mutable row if it has one. -/
def deleteBlock (w : Writer ν) (record : CompactBlockRecord) : Writer ν :=
  { w with tables := { w.tables with
      hashToHeight := w.tables.hashToHeight.erase record.hash
      mutableBlocks := w.tables.mutableBlocks.erase record.height.val } }

/-- Writes a packed range from a snapshot and its metadata, and moves
    `sealedThrough` to the range end. A verified range that starts after the
    verified prefix extends it. -/
def putSealedRange (w : Writer ν) (start : Nat) (packed : Bytes) (info : RangeMeta ν) :
    Except IndexError (Writer ν) := do
  let state := { w.state with sealedThrough := some info.entry.endHeight.val }
  let tables := { w.tables with
    sealedRanges := w.tables.sealedRanges.insert start packed
    rangeMeta := w.tables.rangeMeta.insert start info }
  if info.state = .verified then
    let next ← state.nextVerifyStart
    if next = start then
      return ⟨tables, { state with verifiedThrough := some info.entry.endHeight.val }⟩
    else return ⟨tables, state⟩
  else return ⟨tables, state⟩

/-- Deletes every sealed range from `start` on, with its metadata. A verified
    prefix that reached `start` ends below it. -/
def deleteRangesFrom (w : Writer ν) (start : Nat) : Writer ν :=
  match w.state.sealedThrough with
  | none => w
  | some oldSealed =>
    if start ≤ oldSealed then
      let sealedThrough := if start = 0 then none else some (start - 1)
      { tables := { w.tables with
          sealedRanges := Table.deleteAll w.tables.sealedRanges
            (List.range' start ((oldSealed - start) / rangeSize + 1) rangeSize)
          rangeMeta := w.tables.rangeMeta.filter fun key _ => key < start }
        state := { w.state with
          sealedThrough
          -- `None` is below every height
          verifiedThrough := match w.state.verifiedThrough, sealedThrough with
            | some verified, some through => some (min verified through)
            | _, _ => none } }
    else w

/-- Moves `verifiedThrough` to `stop` if the range `start..=stop` starts directly
    after the verified prefix. -/
def joinSealedRangeToVerifiedPrefix (st : IndexState) (start stop : Nat) : IndexState :=
  if st.verifiedThrough.map (· + 1) = some start then { st with verifiedThrough := some stop }
  else st

section

variable [Proto.Prost]

/-- Reads the block at `height` as this transaction sees it. -/
def read (w : Writer ν) (height : Nat) : Except IndexError CompactBlockRecord :=
  w.tables.read CompactBlockRecord w.state height

/-- Deletes the mutable row at `height` and its hash entry. The row must exist. -/
def deleteMutableBlock (w : Writer ν) (height : Nat) : Except IndexError (Writer ν) := do
  let bytes ← okOr w.tables.mutableBlocks[height]? (.continuity height)
  let old ← okMapError (CompactBlockRecord.decode bytes) .codec
  return w.deleteBlock old

/-- Reads the row at `height` for a seal of the range at `start`, and checks it. -/
def readChecked (w : Writer ν) (start height : Nat) : Except IndexError Bytes := do
  let bytes ← okOr w.tables.mutableBlocks[height]? (.incompleteRange start)
  let record ← okMapError (CompactBlockRecord.decode bytes) .codec
  okMapError record.check .codec
  return bytes

/-- Packs the range `start..=stop` and deletes the mutable rows it took. A range
    takes its mutable rows first, then rows from `blocks`. -/
def sealRange (w : Writer ν) (start stop : Nat) (blocks : List EncodedBlock) :
    Except IndexError (Writer ν × List EncodedBlock) := do
  let firstNew := blocks.head?.elim (stop + 1) (·.height)
  let mutableEnd := min firstNew (stop + 1)
  let heights := List.range' start (mutableEnd - start)
  let rows ← heights.mapM (w.readChecked start)
  let missing := rangeSize - rows.length
  ensure (missing ≤ blocks.length) (.incompleteRange start)
  let packed ← okMapError
    (encodeRangeFromBytes (rows ++ (blocks.take missing).map (·.bytes))) .codec
  let tables := { w.tables with
    sealedRanges := w.tables.sealedRanges.insert start packed
    mutableBlocks := Table.deleteAll w.tables.mutableBlocks heights }
  let state := { w.state with sealedThrough := some stop }
  return (⟨tables, joinSealedRangeToVerifiedPrefix state start stop⟩, blocks.drop missing)

/-- Seals the ranges from `start` on. -/
def sealFrom (sealThrough start : Nat) (w : Writer ν) (blocks : List EncodedBlock) :
    Except IndexError (Writer ν × List EncodedBlock) :=
  if start + (rangeSize - 1) < 2 ^ 32 then
    let stop := start + (rangeSize - 1)
    if stop > sealThrough ∨ ∀ tip ∈ w.state.durableTip, stop > tip.height then .ok (w, blocks)
    else
      match w.sealRange start stop blocks with
      | .error error => .error error
      | .ok (w, blocks) =>
        if stop + 1 < 2 ^ 32 then sealFrom sealThrough (stop + 1) w blocks else .error .overflow
  else .error .overflow
termination_by 2 ^ 32 - start
decreasing_by
  simp only [rangeSize] at *
  omega

/-- Seals each range that ends at or below both `sealThrough` and the tip. -/
def sealRanges (w : Writer ν) (sealThrough : Option Nat) (blocks : List EncodedBlock) :
    Except IndexError (Writer ν × List EncodedBlock) :=
  match sealThrough with
  | none => .ok (w, blocks)
  | some sealThrough => do
    let start ← w.state.nextRangeStart
    sealFrom sealThrough start w blocks

/-! ## The four writes -/

/-- Writes a batch with encoded records, packs the newly sealed ranges, and
    commits. Refuses a batch that does not continue the tip. -/
def append (w : Writer ν) (batch : EncodedBatch) : Except IndexError (Store ν × IndexState) := do
  -- builders never emit empty batches, on which the source panics
  let first ← okOr batch.blocks.head? (.staleBatch batch.baseGeneration)
  let last ← okOr batch.blocks.getLast? (.staleBatch batch.baseGeneration)
  let expectedHeight ← okOr w.state.nextHeight .overflow
  ensure (first.height = expectedHeight ∧
    ∀ tip ∈ w.state.durableTip, first.previousHash = tip.hash) (.staleBatch batch.baseGeneration)
  let w := (w.putHashes batch.blocks).setTip ⟨last.height, last.hash⟩ batch.endTreeSizes
  let (w, blocks) ← w.sealRanges batch.sealThrough batch.blocks
  (w.putMutableBlocks blocks).commit

/-- The next record must follow the block `previous` at `expected - 1`. -/
def checkReplacement (expected : Nat × Hash) (record : CompactBlockRecord) :
    Except IndexError (Nat × Hash) := do
  ensure (record.height.val = expected.1 ∧ record.previousHash = expected.2)
    (.replacement expected.1)
  let next ← checkedHeight (expected.1 + 1)
  return (next, record.hash)

/-- Replaces every mutable block after `ancestor` with `records`, seals the
    complete ranges, and commits. -/
def replaceMutableSuffix (w : Writer ν) (ancestor : BlockId) (records : List CompactBlockRecord)
    (sealThrough : Option Nat) : Except IndexError (Store ν × IndexState) := do
  ensure (∀ through ∈ w.state.sealedThrough, through ≤ ancestor.height)
    (.sealed (ancestor.height + 1))
  let ancestorRecord ← w.read ancestor.height
  ensure (ancestorRecord.hash = ancestor.hash) (.replacement ancestor.height)
  let deleteStart ← checkedHeight (ancestor.height + 1)
  let _ ← records.foldlM checkReplacement (deleteStart, ancestor.hash)
  let oldTip ← okOr w.state.durableTip .metadata
  ensure (ancestor.height ≤ oldTip.height) (.replacement ancestor.height)
  let w ← (List.range' deleteStart (oldTip.height + 1 - deleteStart)).foldlM deleteMutableBlock w
  let w ← records.foldlM putBlock w
  let w := match records.getLast? with
    | none => w.setTip ancestor ancestorRecord.endTreeSizes
    | some record => w.setTip record.blockId record.endTreeSizes
  let (w, _) ← w.sealRanges sealThrough []
  w.commit

/-- Rebuilds every physical range that a deep reorg touches, and commits. -/
def replaceDeepSuffix (w : Writer ν) (commonAncestor : BlockId)
    (replacement : List CompactBlockRecord) (sealThrough : Option Nat) :
    Except IndexError (Store ν × IndexState) := do
  let oldTip ← okOr w.state.durableTip .metadata
  let common ← w.read commonAncestor.height
  ensure (common.hash = commonAncestor.hash) (.replacement commonAncestor.height)
  let affectedStart := rangeStart commonAncestor.height
  let oldRecords ←
    (List.range' affectedStart (oldTip.height + 1 - affectedStart)).mapM w.read
  let canonical := oldRecords.take (commonAncestor.height - affectedStart + 1) ++ replacement
  ensure (canonical.IsChain CompactBlockRecord.Precedes) (.replacement commonAncestor.height)
  -- all deletes come before the first put: the two branches share the prefix hashes
  let w := (oldRecords.foldl deleteBlock w).deleteRangesFrom affectedStart
  let w ← canonical.foldlM putBlock w
  -- the common-ancestor prefix is not empty
  let tip ← okOr canonical.getLast? .metadata
  let (w, _) ← (w.setTip tip.blockId tip.endTreeSizes).sealRanges sealThrough []
  w.commit

/-- Checks that `info` describes the range `chain` at `start`, then writes the
    range, its hash entries and `info`, and moves the tip to the range end. -/
def install (w : Writer ν) (start : Nat) (blob : Bytes) (chain : RangeChain)
    (info : RangeMeta ν) : Except IndexError (Store ν × IndexState) := do
  let last := chain.last
  ensure (info.entry.rangeVersion = rangeFormatVersion ∧ info.entry.startHeight.val = start ∧
    info.entry.endHeight = last.height ∧ info.entry.endHash = last.hash ∧
    info.entry.endTreeSizes = last.endTreeSizes ∧ info.state ≠ .rejected) (.rangeMeta start)
  let w ← chain.ids.foldlM putNewHash w
  let w ← w.putSealedRange start blob info
  (w.setTip last.blockId last.endTreeSizes).commit

end

end Writer

/-! ## The calls of an index -/

namespace Store

section

variable [Proto.Prost]

/-- Atomically writes a batch with encoded records and packs newly sealed ranges. -/
def writeEncoded (s : Store ν) (batch : EncodedBatch) :
    Except IndexError (Store ν × IndexState) := do
  let w ← Writer.start s batch.baseGeneration
  w.append batch

/-- Atomically writes a batch and packs newly sealed ranges. -/
def write (s : Store ν) (batch : WriteBatch) : Except IndexError (Store ν × IndexState) := do
  let encoded ← okMapError batch.encode .codec
  s.writeEncoded encoded

/-- Atomically replaces every mutable block after `ancestor`. -/
def replaceMutableSuffix (s : Store ν) (baseGeneration : Nat) (ancestor : BlockId)
    (records : List CompactBlockRecord) (sealThrough : Option Nat) :
    Except IndexError (Store ν × IndexState) := do
  let w ← Writer.start s baseGeneration
  w.replaceMutableSuffix ancestor records sealThrough

/-- Atomically rebuilds every physical range touched by a deep reorg. -/
def replaceDeepSuffix (s : Store ν) (baseGeneration : Nat) (commonAncestor : BlockId)
    (replacement : List CompactBlockRecord) (sealThrough : Option Nat) :
    Except IndexError (Store ν × IndexState) := do
  let w ← Writer.start s baseGeneration
  w.replaceDeepSuffix commonAncestor replacement sealThrough

/-- Installs one packed range from a snapshot, and its metadata, in one write. -/
def installSealedRange [Blake3] (s : Store ν) (start : Nat) (blob : Bytes) (info : RangeMeta ν) :
    Except IndexError (Store ν × IndexState) := do
  let w ← Writer.startInstall s start
  okMapError (info.entry.checkBlob blob) (.blob start)
  let range ← okMapError (SealedRange.new start blob) .codec
  let chain ← range.checkChain w.state.installParentHash w.state.treeSizes
  w.install start blob chain info

/-- Installs a range that `CheckedRange.check` checked, and its metadata. -/
def installCheckedRange [Blake3] (s : Store ν) (range : CheckedRange) (info : RangeMeta ν) :
    Except IndexError (Store ν × IndexState) := do
  let w ← Writer.startInstall s range.start
  okMapError (range.checkEntryBlob info.entry) (.blob range.start)
  ensure (range.chain.linksTo w.state.installParentHash w.state.treeSizes)
    (.rangeBlob range.start)
  w.install range.start range.blob range.chain info

end

/-- Writes the metadata of the sealed range that starts at `start`. The canonical
    block at the range end must have the end hash of the metadata. The write
    does not advance the generation. -/
def putRangeMeta (s : Store ν) (start : Nat) (info : RangeMeta ν) :
    Except IndexError (Store ν) := do
  let stop ← checkedHeight (start + (rangeSize - 1))
  let st ← s.getState
  ensure (start = rangeStart start ∧ info.entry.startHeight.val = start ∧
    info.entry.endHeight.val = stop ∧ ∃ through ∈ st.sealedThrough, stop ≤ through)
    (.rangeMeta start)
  ensure (s.hashToHeight[info.entry.endHash]? = some stop) (.rangeEndHash start)
  return { s with rangeMeta := s.rangeMeta.insert start info }

end Store

end Ztreamer
