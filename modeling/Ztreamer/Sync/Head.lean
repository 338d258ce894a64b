import Ztreamer.Chain.Parser
import Ztreamer.Index.Snapshot
import Ztreamer.Lib.Bisect

/-! # Head sync

    Live polling of the canonical head of a node, the reconciliation of an
    ordinary reorg, and the recovery of a deep one.

    A source is what it answers during one call. A call gives the store after
    it, and the state and the volatile head that it returns, or its error. What
    depends on the source only through a poll takes the poll as an argument, so
    that it is the same for a source that moves during the call.

    * `pollCanonicalHead`: reads the blocks after the last known canonical block,
    * `syncHeadOnce`: reconciles the head,
    * `recoverDeepReorg`: replaces everything above the common ancestor.
-/

namespace Ztreamer

open Octets Result

variable {ν : Type}

/-- The non-finalized window of the node. -/
def maxBlockReorgHeight : Nat := 1000

structure PipelineConfig where
  workers : U64
  sourceSegmentBlocks : U32
  maxSourceBytes : U64
  maxPendingBytes : U64
  maxBatchBytes : U64
  deriving DecidableEq

def mib : U64 := 1024 * 1024

/-- The default on a machine with that many threads. -/
def PipelineConfig.ofParallelism (parallelism : U64) : PipelineConfig where
  workers := if parallelism ≤ 8 then parallelism else 8
  sourceSegmentBlocks := 256
  maxSourceBytes := 64 * mib
  maxPendingBytes := 256 * mib
  maxBatchBytes := 16 * mib

inductive HeadError where
  | node (message : String)
  | remote (message : String)
  | decode (message : String)
  | height (expected actual : Nat)
  | parent (height : Nat)
  | anchor (height : Nat)
  | changed
  | window
  | parse (error : CompactParseError)
  | cancelled
  deriving DecidableEq

inductive HeadSyncError where
  | head (error : HeadError)
  | ingest (error : IngestError)
  | index (error : IndexError)
  | noCommonAncestor
  | deepReorg (height : Nat)
  deriving DecidableEq

/-- The canonical-head operations of a node, as it answers them during one call. -/
structure CanonicalBlockSource where
  tip : Except HeadError (Option BlockId)
  block : Nat → Except HeadError (Option RawIndexBlock)
  blockHash : Nat → Except HeadError (Option Hash)

/-- The height `depth` blocks below `tip`. -/
def heightBelow (tip depth : Nat) : Option Nat := if depth ≤ tip then some (tip - depth) else none

/-! ## The poll -/

/-- The canonical chain from a start height, as one poll read it. -/
structure CanonicalSuffix where
  /-- The last known block that is still canonical. -/
  retained : Option BlockId
  /-- The canonical blocks after the retained block, in height order. -/
  blocks : List ParsedCompactBlock

/-- The longest prefix of `known` that is one linked chain after `parent`. -/
def linkedPrefix (height : Nat) (parent : Hash) : List CompactBlockRecord → List CompactBlockRecord
  | [] => []
  | block :: known =>
    if block.height.val = height ∧ block.previousHash = parent then
      block :: linkedPrefix (height + 1) block.hash known
    else []

def RawIndexBlock.blockId (block : RawIndexBlock) : BlockId := ⟨block.height.val, block.hash⟩

namespace CanonicalBlockSource

/-- The node has the block on its chain. -/
def has (src : CanonicalBlockSource) (block : BlockId) : Except HeadError Bool := do
  let hash ← src.blockHash block.height
  return decide (hash = some block.hash)

end CanonicalBlockSource

/-- The height after the retained block. -/
def readStart (start : Nat) (retained : Option BlockId) : Except HeadError Nat :=
  match retained with
  | none => return start
  | some block => if block.height + 1 < 2 ^ 32 then return block.height + 1 else throw .window

/-- What a poll of some source gives. -/
abbrev Poll : Type :=
  Nat → Hash → List CompactBlockRecord → Except HeadError CanonicalSuffix

/-- A source whose chain can change between any two calls of a poll: what it answers to
    each call. Each part of the poll takes the number of calls before it and gives the
    number after it. -/
abbrev MovingSource : Type := Nat → CanonicalBlockSource

namespace MovingSource

/-- The block below `start` must be `previousHash`. -/
def checkAnchor (src : MovingSource) (start : Nat) (previousHash : Hash) (time : Nat) :
    Except HeadError Nat :=
  if 0 < start then do
    let anchored ← (src time).has ⟨start - 1, previousHash⟩
    ensure (anchored = true) (.anchor (start - 1))
    return time + 1
  else return time

/-- The number of known blocks that the bisection takes for canonical. Asks for the last
    one first, because a new block on the same chain is the usual change, then bisects. -/
def canonicalCount (src : MovingSource) (known : List CompactBlockRecord) (time : Nat) :
    Except HeadError (Nat × Nat) :=
  match known.getLast? with
  | none => return (0, time)
  | some last => do
    if ← (src time).has last.blockId then return (known.length, time + 1)
    else
      Bisect.firstFalseAt
        (fun time i => match known[i]? with
          | some block => (src time).has block.blockId
          | none => return false) 0 (known.length - 1) (time + 1)

/-- Reads the blocks from `height` on. Each must link to its predecessor. -/
def readBlocks (src : MovingSource) (start height : Nat) (expectedParent : Hash) (time : Nat) :
    Except HeadError (List RawIndexBlock × Nat) :=
  match (src time).block height with
  | .error error => .error error
  | .ok none => .ok ([], time + 1)
  | .ok (some block) =>
    if height - start = maxBlockReorgHeight then .error .window
    else
      match headerPreviousHash block.bytes with
      | none => .error (.decode "block header is truncated")
      | some parent =>
        if parent ≠ expectedParent then .error (.parent height)
        else if height + 1 < 2 ^ 32 then do
          let (blocks, time) ← readBlocks src start (height + 1) block.hash (time + 1)
          return (block :: blocks, time)
        else .error .window
termination_by 2 ^ 32 - height

/-- The last block of the poll must have the same hash after the reads. -/
def checkStable (src : MovingSource) (last : Option BlockId) (time : Nat) : Except HeadError Nat :=
  match last with
  | none => return time
  | some last => do
    let stable ← (src time).has last
    ensure (stable = true) .changed
    return time + 1

/-- Reads one stable canonical suffix after `previousHash` and parses its blocks. -/
def pollCanonicalHead (src : MovingSource) (start : Nat) (previousHash : Hash)
    (known : List CompactBlockRecord) (time : Nat) : Except HeadError (CanonicalSuffix × Nat) := do
  let time ← src.checkAnchor start previousHash time
  let known := linkedPrefix start previousHash known
  let (canonical, time) ← src.canonicalCount known time
  let retained := (known.take canonical).getLast?.map (·.blockId)
  let height ← readStart start retained
  let (raw, time) ← src.readBlocks start height (retained.elim previousHash (·.hash)) time
  let time ← src.checkStable ((raw.getLast?.map (·.blockId)).or retained) time
  let blocks ← raw.mapM fun block => okMapError (parseBlock block) .parse
  return ({ retained, blocks }, time)

/-- The poll of a moving source, from its call `time` on. -/
def pollAt (src : MovingSource) (time : Nat) : Poll :=
  fun start previousHash known => (·.1) <$> src.pollCanonicalHead start previousHash known time

end MovingSource

/-- The poll of a source that does not move. -/
def pollCanonicalHead (src : CanonicalBlockSource) : Poll :=
  MovingSource.pollAt (fun _ => src) 0

/-! ## The current chain -/

section

variable [Proto.Prost]

/-- The block at `height` of the durable chain and the volatile head. The heights
    of the head ascend, so the binary search of the source finds the block of a
    height if there is one. -/
def currentRecord (s : Store ν) (st : IndexState) (head : List CompactBlockRecord) (height : Nat) :
    Except IndexError (Option CompactBlockRecord) :=
  if ∃ tip ∈ st.durableTip, height ≤ tip.height then do
    let snapshot ← s.snapshot st.generation
    let record ← s.read CompactBlockRecord snapshot height
    return some record
  else return head.find? fun block => decide (block.height.val = height)

/-- The block that a reconciliation polls from. -/
def anchorRecord (s : Store ν) (st : IndexState) (head : List CompactBlockRecord) :
    Option Nat → Except IndexError (Option CompactBlockRecord)
  | none => return none
  | some height => currentRecord s st head height

/-- The block at `height`, which must exist. -/
def requireRecord (s : Store ν) (st : IndexState) (head : List CompactBlockRecord) (height : Nat) :
    Except IndexError CompactBlockRecord := do
  let record ← currentRecord s st head height
  okOr record (.coverage height)

/-- The blocks at `heights`, up to the first height without a block. -/
def knownRecords (s : Store ν) (st : IndexState) (head : List CompactBlockRecord) :
    List Nat → Except IndexError (List CompactBlockRecord)
  | [] => return []
  | height :: heights => do
    match ← currentRecord s st head height with
    | none => return []
    | some record =>
      let records ← knownRecords s st head heights
      return record :: records

/-- Moves the common block up over polled blocks that did not change. -/
def extendCommon (s : Store ν) (st : IndexState) (head : List CompactBlockRecord)
    (common : Option BlockId) : List ParsedCompactBlock → Except IndexError (Option BlockId)
  | [] => return common
  | block :: blocks => do
    match ← currentRecord s st head block.height.val with
    | none => return common
    | some old =>
      if old.hash = block.hash then extendCommon s st head (some old.blockId) blocks
      else return common

/-- The records of polled blocks after the block `base`. -/
def buildRecords (st : IndexState) (base : BlockId) (treeSizes : TreeSizes)
    (blocks : List ParsedCompactBlock) (visibleTip : Nat) (config : PipelineConfig) :
    Except IngestError (List CompactBlockRecord) := do
  let builder ← OrderedBuilder.new (st.withDurableTip base treeSizes) config.maxPendingBytes.val
  let builder ← blocks.foldlM OrderedBuilder.push builder
  let (_, records) ← builder.drainRecords visibleTip config.maxBatchBytes.val
  return records

/-! ## Reconciliation -/

/-- A call gives the store after it, and its result. -/
abbrev HeadResult (ν : Type) : Type :=
  Store ν × Except HeadSyncError (IndexState × List CompactBlockRecord)

/-- A call that commits at most once, at its end. -/
def HeadResult.ofCommit (s : Store ν)
    (result : Except HeadSyncError (Store ν × IndexState × List CompactBlockRecord)) :
    HeadResult ν :=
  match result with
  | .error error => (s, .error error)
  | .ok (s', st, head) => (s', .ok (st, head))

/-- A poll whose anchor is not canonical is a deep reorg. -/
def deepReorgOfAnchor {α : Type} : Except HeadError α → Except HeadSyncError α
  | .ok a => .ok a
  | .error (.anchor height) => .error (.deepReorg height)
  | .error error => .error (.head error)

/-- The blocks that a reconciliation keeps and replaces: `canonical` are the
    records above `ancestor`, up to the new visible tip. -/
def persistSuffix (s : Store ν) (st : IndexState) (oldDurableTip : BlockId)
    (ancestor : CompactBlockRecord) (canonical : List CompactBlockRecord) (visibleTip : Nat) :
    Except HeadSyncError (Store ν × IndexState × List CompactBlockRecord) := do
  let ancestorHeight := ancestor.height.val
  let durableTip := (heightBelow visibleTip persistDepth).elim ancestorHeight (max · ancestorHeight)
  let replacement := canonical.filter fun block =>
    decide (ancestorHeight < block.height.val ∧ block.height.val ≤ durableTip)
  let (s, st) ←
    if ancestorHeight ≠ oldDurableTip.height ∨ replacement ≠ [] then
      okMapError (s.replaceMutableSuffix st.generation ancestor.blockId replacement
        (heightBelow visibleTip sealDepth)) .index
    else pure (s, st)
  -- a replacement retains its ancestor
  let tip ← okOr st.durableTip (.index .metadata)
  return (s, st, canonical.filter fun block => decide (tip.height < block.height.val))

/-- What a reconciliation has found: the state that it read, with its durable tip,
    and the chain above `ancestor` up to the new visible tip. -/
structure Replacement where
  state : IndexState
  oldDurableTip : BlockId
  ancestor : CompactBlockRecord
  canonical : List CompactBlockRecord
  visibleTip : Nat

/-- What a reconciliation has found before it builds records: the block `common`,
    with its record `base`, and the polled blocks above it. -/
structure ReplacementPlan where
  state : IndexState
  oldDurableTip : BlockId
  ancestor : CompactBlockRecord
  kept : List CompactBlockRecord
  common : BlockId
  base : CompactBlockRecord
  blocks : List ParsedCompactBlock
  visibleTip : Nat

/-- Polls the blocks above the anchor of the head that ends at `oldVisibleTip`, and
    finds the blocks that changed. -/
def planReplacement (s : Store ν) (poll : Poll) (head : List CompactBlockRecord)
    (oldVisibleTip : Nat) : Except HeadSyncError ReplacementPlan := do
  let st ← okMapError s.getState .index
  let anchorHeight := heightBelow oldVisibleTip sealDepth
  let anchor ← okMapError (anchorRecord s st head anchorHeight) .index
  let start := anchorHeight.elim 0 (· + 1)
  let previousHash := anchor.elim genesisPreviousBlockHash (·.hash)
  let known ← okMapError
    (knownRecords s st head (List.range' start (oldVisibleTip + 1 - start))) .index
  let suffix ← deepReorgOfAnchor (poll start previousHash known)
  -- a chain that changes during the poll can make it read blocks that did not change
  let common ← okMapError
    (extendCommon s st head (suffix.retained.or (anchor.map (·.blockId))) suffix.blocks) .index
  let common ← okOr common .noCommonAncestor
  let oldDurableTip ← okOr st.durableTip (.index .metadata)
  let ancestorHeight := min common.height oldDurableTip.height
  let ancestor ← okMapError (requireRecord s st head ancestorHeight) .index
  -- the records above the ancestor and through the common block do not change
  let kept ← okMapError ((List.range' (ancestorHeight + 1) (common.height - ancestorHeight)).mapM
    (requireRecord s st head)) .index
  return { state := st
           oldDurableTip
           ancestor
           kept
           common
           base := kept.getLast?.getD ancestor
           blocks := suffix.blocks.filter fun block => decide (common.height < block.height.val)
           visibleTip := suffix.blocks.getLast?.elim common.height (·.height.val) }

/-- Builds the records of the blocks that changed. -/
def prepareReplacement (s : Store ν) (poll : Poll) (head : List CompactBlockRecord)
    (config : PipelineConfig) (oldVisibleTip : Nat) : Except HeadSyncError Replacement := do
  let plan ← planReplacement s poll head oldVisibleTip
  let records ← okMapError (buildRecords plan.state plan.common plan.base.endTreeSizes
    plan.blocks plan.visibleTip config) .ingest
  return ⟨plan.state, plan.oldDurableTip, plan.ancestor, plan.kept ++ records, plan.visibleTip⟩

def replaceSuffixBy (s : Store ν) (poll : Poll) (head : List CompactBlockRecord)
    (config : PipelineConfig) (oldVisibleTip : Nat) :
    Except HeadSyncError (Store ν × IndexState × List CompactBlockRecord) := do
  let r ← prepareReplacement s poll head config oldVisibleTip
  persistSuffix s r.state r.oldDurableTip r.ancestor r.canonical r.visibleTip

/-- Polls the blocks above the anchor of the head that ends at `oldVisibleTip`, and
    replaces the blocks that changed. -/
def replaceSuffix (s : Store ν) (src : CanonicalBlockSource) (head : List CompactBlockRecord)
    (config : PipelineConfig) (oldVisibleTip : Nat) :
    Except HeadSyncError (Store ν × IndexState × List CompactBlockRecord) :=
  replaceSuffixBy s (pollCanonicalHead src) head config oldVisibleTip

/-- Writes batches until the builder gives no more. -/
def writeBatches (durableThrough sealThrough : Option Nat) (maxBatchBytes : Nat) (s : Store ν)
    (st : IndexState) (b : OrderedBuilder) :
    Store ν × Except HeadSyncError (IndexState × OrderedBuilder) :=
  match _hbatch : b.buildBatch durableThrough sealThrough maxBatchBytes with
  | .error error => (s, .error (.ingest error))
  | .ok (b', none) => (s, .ok (st, b'))
  | .ok (b', some batch) =>
    match s.write batch with
    | .error error => (s, .error (.index error))
    | .ok (s', st') => writeBatches durableThrough sealThrough maxBatchBytes s' st' b'
termination_by 2 ^ 32 - b.nextHeight
decreasing_by
  have := OrderedBuilder.buildBatch_nextHeight _hbatch
  omega

/-- Polls the blocks above the durable tip. Gives the new visible tip and a builder
    with the blocks, or nothing when there is no new block. -/
def prepareExtensionBy (poll : Poll) (st : IndexState) (config : PipelineConfig) :
    Except HeadSyncError (Option (Nat × OrderedBuilder)) := do
  let start ← okOr st.nextHeight (.ingest .overflow)
  let previousHash := st.durableTip.elim genesisPreviousBlockHash (·.hash)
  let prepared ← okMapError (poll start previousHash []) .head
  match prepared.blocks.getLast? with
  | none => return none
  | some last =>
    let builder ← okMapError (do
      let builder ← OrderedBuilder.new st config.maxPendingBytes.val
      prepared.blocks.foldlM OrderedBuilder.push builder) .ingest
    return some (last.height.val, builder)

def prepareExtension (src : CanonicalBlockSource) (st : IndexState) (config : PipelineConfig) :
    Except HeadSyncError (Option (Nat × OrderedBuilder)) :=
  prepareExtensionBy (pollCanonicalHead src) st config

def syncExtensionOnceBy (s : Store ν) (poll : Poll) (st : IndexState) (config : PipelineConfig) :
    HeadResult ν :=
  match prepareExtensionBy poll st config with
  | .error error => (s, .error error)
  | .ok none => (s, .ok (st, []))
  | .ok (some (visibleTip, builder)) =>
    match writeBatches (heightBelow visibleTip persistDepth) (heightBelow visibleTip sealDepth)
      config.maxBatchBytes.val s st builder with
    | (s', .error error) => (s', .error error)
    | (s', .ok (st', builder)) =>
      match builder.drainRecords visibleTip config.maxBatchBytes.val with
      | .error error => (s', .error (.ingest error))
      | .ok (_, volatile) => (s', .ok (st', volatile))

def syncExtensionOnce (s : Store ν) (src : CanonicalBlockSource) (st : IndexState)
    (config : PipelineConfig) : HeadResult ν :=
  syncExtensionOnceBy s (pollCanonicalHead src) st config

/-- An extension whose anchor is not canonical is a deep reorg. -/
def HeadResult.deepReorgOfAnchor (result : HeadResult ν) : HeadResult ν :=
  match result with
  | (s, .error (.head (.anchor height))) => (s, .error (.deepReorg height))
  | result => result

/-- `syncHeadOnce` with the answer of the source for its tip, which is asked only
    for a head that is not empty. -/
def syncHeadOnceBy (s : Store ν) (tip : Except HeadError (Option BlockId)) (poll : Poll)
    (head : List CompactBlockRecord) (config : PipelineConfig) : HeadResult ν :=
  match s.getState with
  | .error error => (s, .error (.index error))
  | .ok st =>
    match head.getLast? with
    | none => (syncExtensionOnceBy s poll st config).deepReorgOfAnchor
    | some last =>
      match tip with
      | .error error => (s, .error (.head error))
      | .ok tip =>
        if tip = some last.blockId then (s, .ok (st, head))
        else .ofCommit s (replaceSuffixBy s poll head config last.height.val)

/-- Reconciles the canonical head and atomically replaces an ordinary reorg suffix.
    When the tip of the source did not change, it returns at once. -/
def syncHeadOnce (s : Store ν) (src : CanonicalBlockSource) (head : List CompactBlockRecord)
    (config : PipelineConfig) : HeadResult ν :=
  syncHeadOnceBy s src.tip (pollCanonicalHead src) head config

/-! ## Recovery -/

/-- The source, which answers `block`, and the current chain have the same block at
    `height`. -/
def sameBlock (s : Store ν) (block : Nat → Except HeadError (Option RawIndexBlock))
    (st : IndexState) (head : List CompactBlockRecord) (height : Nat) :
    Except HeadSyncError Bool := do
  let canonical ← okMapError (block height) .head
  let old ← okMapError (currentRecord s st head height) .index
  match canonical, old with
  | some canonical, some old => return decide (canonical.hash = old.hash)
  | _, _ => return false

/-- What a recovery has found: the state that it read, the common ancestor at the
    height `matching`, and the chain above it up to the new visible tip. -/
structure Recovery where
  state : IndexState
  matching : Nat
  common : CompactBlockRecord
  canonical : List CompactBlockRecord
  visibleTip : Nat

/-- What a recovery has found before it builds records. -/
structure RecoveryPlan where
  state : IndexState
  matching : Nat
  common : CompactBlockRecord
  blocks : List ParsedCompactBlock
  visibleTip : Nat

/-- Finds the common ancestor and polls the blocks above it. The bisection asks for
    each height at most once. -/
def planRecovery (s : Store ν) (block : Nat → Except HeadError (Option RawIndexBlock))
    (poll : Poll) (head : List CompactBlockRecord) : Except HeadSyncError RecoveryPlan := do
  let st ← okMapError s.getState .index
  let oldVisibleTip ← okOr ((head.getLast?.map (·.height.val)).or (st.durableTip.map (·.height)))
    .noCommonAncestor
  let genesis ← okMapError (block 0) .head
  let genesis ← okOr genesis .noCommonAncestor
  let old ← okMapError (currentRecord s st head 0) .index
  ensure (∃ r ∈ old, r.hash = genesis.hash) .noCommonAncestor
  ensure (oldVisibleTip + 1 < 2 ^ 32) (.ingest .overflow)
  let matching ← Bisect.lastTrue (sameBlock s block st head) 0 (oldVisibleTip + 1)
  let common ← okMapError (currentRecord s st head matching) .index
  let common ← okOr common .noCommonAncestor
  let prepared ← okMapError (poll (matching + 1) common.hash []) .head
  return { state := st
           matching
           common
           blocks := prepared.blocks
           visibleTip := prepared.blocks.getLast?.elim matching (·.height.val) }

/-- Builds the records of the blocks above the common ancestor. -/
def prepareRecovery (s : Store ν) (block : Nat → Except HeadError (Option RawIndexBlock))
    (poll : Poll) (head : List CompactBlockRecord) (config : PipelineConfig) :
    Except HeadSyncError Recovery := do
  let plan ← planRecovery s block poll head
  let canonical ← okMapError (buildRecords plan.state plan.common.blockId
    plan.common.endTreeSizes plan.blocks plan.visibleTip config) .ingest
  return ⟨plan.state, plan.matching, plan.common, canonical, plan.visibleTip⟩

/-- Publishes the chain above the common ancestor in one write. -/
def persistRecovery (s : Store ν) (r : Recovery) :
    Except HeadSyncError (Store ν × IndexState × List CompactBlockRecord) := do
  let durableTip := (heightBelow r.visibleTip persistDepth).elim r.matching (max · r.matching)
  let replacement := r.canonical.filter fun block => decide (block.height.val ≤ durableTip)
  let (s, st) ← okMapError (s.replaceDeepSuffix r.state.generation r.common.blockId replacement
    (heightBelow r.visibleTip sealDepth)) .index
  -- the recovery retains its common ancestor
  let tip ← okOr st.durableTip (.index .metadata)
  return (s, st, r.canonical.filter fun block => decide (tip.height < block.height.val))

def recoverDeepReorgBy (s : Store ν) (block : Nat → Except HeadError (Option RawIndexBlock))
    (poll : Poll) (head : List CompactBlockRecord) (config : PipelineConfig) : HeadResult ν :=
  .ofCommit s do
    let r ← prepareRecovery s block poll head config
    persistRecovery s r

/-- Finds the common ancestor and atomically publishes the chain above it. -/
def recoverDeepReorg (s : Store ν) (src : CanonicalBlockSource) (head : List CompactBlockRecord)
    (config : PipelineConfig) : HeadResult ν :=
  recoverDeepReorgBy s src.block (pollCanonicalHead src) head config

end

end Ztreamer
