import Ztreamer.Sync.Moving

/-! # The serving snapshot and the head follower

    The follower keeps the index at the canonical head of a node, and publishes
    a serving snapshot after each change: the durable chain at one generation,
    and the volatile head above it.

    * `ServingSnapshot.withHead`: refuses a head that does not connect,
    * `HeadFollower.syncHead` / `HeadFollower.recoverDeepReorg`: one attempt,
    * `HeadFollower.tick`: one tick of the loop of `follow_head`.
-/

namespace Ztreamer

open Octets Result

variable {ν : Type}

/-! ## Serving snapshots -/

/-- An instant of the monotonic clock. -/
abbrev Instant : Type := Nat

structure ServingSnapshot where
  generation : Nat
  durableTip : Option BlockId
  visibleTip : Option BlockId
  volatileHead : List CompactBlockRecord
  ready : Bool
  tipFresh : Bool
  lastSourceSuccess : Option Instant
  sourceError : Option String

/-- The volatile head does not connect to the durable index. -/
inductive SnapshotError where
  | disconnected
  deriving DecidableEq

def IndexState.toServingSnapshot (st : IndexState) : ServingSnapshot where
  generation := st.generation
  durableTip := st.durableTip
  visibleTip := st.durableTip
  volatileHead := []
  ready := true
  tipFresh := false
  lastSourceSuccess := none
  sourceError := none

/-- The blocks have the heights from `expectedHeight` on, and each links to the one
    before it. The first has no parent to link to in an empty index. -/
def checkHead (expectedHeight : Nat) (previousHash : Option Hash) :
    List CompactBlockRecord → Except SnapshotError Unit
  | [] => return ()
  | block :: blocks => do
    ensure (block.height.val = expectedHeight ∧ ∀ hash ∈ previousHash, block.previousHash = hash)
      .disconnected
    ensure (expectedHeight + 1 < 2 ^ 32) .disconnected
    checkHead (expectedHeight + 1) (some block.hash) blocks

namespace ServingSnapshot

def withHead (st : IndexState) (volatileHead : List CompactBlockRecord) (now : Instant) :
    Except SnapshotError ServingSnapshot := do
  checkHead (st.durableTip.elim 0 fun tip => min (tip.height + 1) (2 ^ 32 - 1))
    (st.durableTip.map (·.hash)) volatileHead
  return {
    generation := st.generation
    durableTip := st.durableTip
    visibleTip := (volatileHead.getLast?.map (·.blockId)).or st.durableTip
    volatileHead
    ready := true
    tipFresh := true
    lastSourceSuccess := some now
    sourceError := none }

/-- The block of the volatile head at `height`. The heights of the head ascend, so
    the binary search of the source finds the block of a height if there is one. -/
def volatile (snapshot : ServingSnapshot) (height : Nat) : Option CompactBlockRecord :=
  snapshot.volatileHead.find? fun block => decide (block.height.val = height)

end ServingSnapshot

/-! ## The follower -/

/-- The follower shares the index, and publishes snapshots. -/
structure HeadFollower (ν : Type) where
  index : Store ν
  snapshot : ServingSnapshot

/-- What the source answers in one attempt: its tip, the calls of the poll, then the
    blocks that a recovery asks for by height and the calls of its poll. A call that
    the timeout of the attempt cuts is one that fails: the attempt ends there. -/
structure Answers where
  tip : Except HeadError (Option BlockId)
  poll : MovingSource
  block : Nat → Except HeadError (Option RawIndexBlock)
  recoveryPoll : MovingSource

namespace HeadFollower

def new (index : Store ν) (st : IndexState) : HeadFollower ν := ⟨index, st.toServingSnapshot⟩

/-- Publishes the snapshot of `st` with `volatileHead` above its durable tip. -/
def publishHead (f : HeadFollower ν) (st : IndexState) (volatileHead : List CompactBlockRecord)
    (now : Instant) : Except SnapshotError (HeadFollower ν) := do
  let snapshot ← ServingSnapshot.withHead st volatileHead now
  return { f with snapshot }

/-- Stops new chain-data requests while a deep replacement is staged. -/
def beginRecovery (f : HeadFollower ν) : HeadFollower ν :=
  { f with snapshot := { f.snapshot with ready := false, tipFresh := false } }

/-- Records a failed attempt. The tip stays fresh while the last success is young. -/
def markSourceFailure (f : HeadFollower ν) (error : String) (freshnessTimeout now : Nat) :
    HeadFollower ν :=
  { f with snapshot := { f.snapshot with
      tipFresh := f.snapshot.lastSourceSuccess.any fun last =>
        decide (now - last < freshnessTimeout)
      sourceError := some error } }

variable [Proto.Prost]

/-- The end of an attempt: publishes what it returns. There is no follower after a
    head that does not connect, because the attempt panics. -/
def publishResult (f : HeadFollower ν) (now : Instant) :
    Except HeadSyncError (IndexState × List CompactBlockRecord) →
      Option (HeadFollower ν × Except HeadSyncError IndexState)
  | .error error => some (f, .error error)
  | .ok (st, head) =>
    match f.publishHead st head now with
    | .error _ => none
    | .ok f => some (f, .ok st)

/-- Reconciles one head view and fails closed when it detects a deep reorg. -/
def syncHead (f : HeadFollower ν) (tip : Except HeadError (Option BlockId)) (src : MovingSource)
    (config : PipelineConfig) (now : Instant) :
    Option (HeadFollower ν × Except HeadSyncError IndexState) :=
  let (index, result) := syncHeadOnceBy f.index tip (src.pollAt 0) f.snapshot.volatileHead config
  let f := { f with index }
  match result with
  | .error (.deepReorg height) => some (f.beginRecovery, .error (.deepReorg height))
  | result => f.publishResult now result

/-- Stages and publishes a deep replacement while new requests remain disabled. -/
def recoverDeepReorg (f : HeadFollower ν) (block : Nat → Except HeadError (Option RawIndexBlock))
    (src : MovingSource) (config : PipelineConfig) (now : Instant) :
    Option (HeadFollower ν × Except HeadSyncError IndexState) :=
  let f := f.beginRecovery
  let (index, result) :=
    recoverDeepReorgBy f.index block (src.pollAt 0) f.snapshot.volatileHead config
  { f with index }.publishResult now result

/-- One attempt to reach the head of the node. A deep reorg starts its recovery. -/
def attempt (f : HeadFollower ν) (answers : Answers) (config : PipelineConfig) (now : Instant) :
    Option (HeadFollower ν × Except HeadSyncError IndexState) :=
  if f.snapshot.ready then
    match f.syncHead answers.tip answers.poll config now with
    | some (f, .error (.deepReorg _)) =>
      f.recoverDeepReorg answers.block answers.recoveryPoll config now
    | result => result
  else f.recoverDeepReorg answers.block answers.recoveryPoll config now

/-- One tick. `failure` is the text of a failed attempt, with the timeout of
    freshness; there is none when a message on the shutdown channel ended it. -/
def tick (f : HeadFollower ν) (answers : Answers) (config : PipelineConfig) (now : Instant)
    (failure : Option (String × Nat)) : Option (HeadFollower ν) := do
  let (f, result) ← f.attempt answers config now
  match result, failure with
  | .error _, some (error, freshnessTimeout) => f.markSourceFailure error freshnessTimeout now
  | _, _ => f

end HeadFollower

end Ztreamer
