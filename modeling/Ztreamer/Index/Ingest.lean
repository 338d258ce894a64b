import Mathlib.Data.List.Chain
import Ztreamer.Index.Writer

/-! # The ordered builder

    Restores parser output to chain order and builds bounded write batches.

    * `OrderedBuilder.push` / `OrderedBuilder.buildBatch` / `OrderedBuilder.drainRecords`:
      the model,
    * `buildBatch_eq_some`: a batch holds the records of the next pending blocks.
-/

namespace Ztreamer

open Octets Result

inductive IngestError where
  | codec (error : CodecError)
  | duplicateHeight (height : Nat)
  | parent (height : Nat)
  | treeSize (height : Nat)
  | pendingBytes (limit : Nat)
  | batchBytes (limit : Nat)
  | overflow
  deriving DecidableEq

structure OrderedBuilder where
  /-- The lowest height that will be included in the next batch. -/
  nextHeight : Nat
  /-- The expected parent hash for `nextHeight`. -/
  previousHash : Option Hash
  /-- The tree sizes immediately before `nextHeight`. -/
  treeSizes : TreeSizes
  /-- The next base generation. -/
  generation : Nat
  /-- The parsed blocks that no batch holds yet, with their size bounds. -/
  pending : Table Nat (ParsedCompactBlock × Nat)
  pendingBytes : Nat
  /-- The end of the contiguous pending prefix that starts at `nextHeight`. -/
  readyEnd : Nat
  readyBytes : Nat
  maxPendingBytes : Nat

/-- The pending bytes above which `buildBatch` writes a partial range. -/
def partialRangeFlushThreshold (maxPendingBytes maxBatchBytes : Nat) : Nat :=
  maxPendingBytes - max maxBatchBytes maxRecordBytes

/-- The last height of the range that holds `height`. -/
def rangeEnd (height : Nat) : Nat := height + (rangeSize - 1 - height % rangeSize)

namespace OrderedBuilder

def new (st : IndexState) (maxPendingBytes : Nat) : Except IngestError OrderedBuilder := do
  let nextHeight ← okOr st.nextHeight .overflow
  return { nextHeight
           previousHash := st.durableTip.map (·.hash)
           treeSizes := st.treeSizes
           generation := st.generation
           pending := ∅
           pendingBytes := 0
           readyEnd := nextHeight
           readyBytes := 0
           maxPendingBytes }

/-- Extends the ready prefix over the pending blocks. -/
def advanceReady (b : OrderedBuilder) : Except IngestError OrderedBuilder :=
  if b.readyEnd < 2 ^ 32 then
    match b.pending[b.readyEnd]? with
    | none => .ok b
    | some (_, bytes) =>
      if b.readyBytes + bytes < 2 ^ 64 then
        advanceReady { b with readyBytes := b.readyBytes + bytes, readyEnd := b.readyEnd + 1 }
      else .error .overflow
  else .ok b
termination_by 2 ^ 32 - b.readyEnd

/-- Hands a block over to queue inclusion in a batch. -/
def push (b : OrderedBuilder) (block : ParsedCompactBlock) : Except IngestError OrderedBuilder := do
  ensure (b.nextHeight ≤ block.height.val ∧ b.pending[block.height.val]? = none)
    (.duplicateHeight block.height.val)
  let bytes ← okMapError (encodedSizeBound block.transactions) .codec
  ensure (b.pendingBytes + bytes < 2 ^ 64) .overflow
  ensure (b.pendingBytes + bytes ≤ b.maxPendingBytes) (.pendingBytes b.maxPendingBytes)
  let b := { b with
    pendingBytes := b.pendingBytes + bytes
    pending := b.pending.insert block.height.val (block, bytes) }
  if block.height.val = b.readyEnd then b.advanceReady else return b

/-- The batch is full before `block`: it has no room for `bytes` more, and it may
    end here because a range starts here or the range is not sealed yet. -/
def isFull (batchBytes maxBatchBytes : Nat) (records : List CompactBlockRecord)
    (sealThrough : Option Nat) (block : ParsedCompactBlock) (bytes : Nat) :
    Except IngestError Bool := do
  ensure (batchBytes + bytes < 2 ^ 64) .overflow
  if batchBytes + bytes ≤ maxBatchBytes then return false
  else
    ensure (records ≠ []) (.batchBytes maxBatchBytes)
    ensure (rangeEnd block.height.val < 2 ^ 32) .overflow
    return decide (block.height.val % rangeSize = 0 ∨
      ∀ through ∈ sealThrough, through < rangeEnd block.height.val)

/-- Takes the next pending block out of the builder, as its record. -/
def takeNext (b : OrderedBuilder) (block : ParsedCompactBlock) (bytes : Nat) :
    Except IngestError (OrderedBuilder × CompactBlockRecord) := do
  ensure (∀ previous ∈ b.previousHash, block.previousHash = previous) (.parent block.height.val)
  let record ← okOr (block.intoRecord b.treeSizes) (.treeSize block.height.val)
  ensure (b.nextHeight + 1 < 2 ^ 32) .overflow
  return ({ b with
    pending := b.pending.erase b.nextHeight
    pendingBytes := b.pendingBytes - bytes
    readyBytes := b.readyBytes - bytes
    nextHeight := b.nextHeight + 1
    previousHash := some block.hash
    treeSizes := record.endTreeSizes }, record)

/-- Moves pending blocks into `records` until a gap, the durable height or the
    batch limit. -/
def takeBatch (durableThrough sealThrough : Option Nat) (maxBatchBytes : Nat) (b : OrderedBuilder)
    (batchBytes : Nat) (records : List CompactBlockRecord) :
    Except IngestError (OrderedBuilder × List CompactBlockRecord) :=
  match b.pending[b.nextHeight]? with
  | none => .ok (b, records)
  | some (block, bytes) =>
    if ∀ through ∈ durableThrough, through < block.height.val then .ok (b, records)
    else
      match isFull batchBytes maxBatchBytes records sealThrough block bytes with
      | .error error => .error error
      | .ok true => .ok (b, records)
      | .ok false =>
        match _hnext : b.takeNext block bytes with
        | .error error => .error error
        | .ok (b', record) =>
          takeBatch durableThrough sealThrough maxBatchBytes b' (batchBytes + bytes)
            (records ++ [record])
termination_by 2 ^ 32 - b.nextHeight
decreasing_by
  simp only [takeNext, bind_eq_ok, ensure_eq_ok, okOr_eq_ok, pure_eq_ok, Except.ok.injEq,
    Prod.mk.injEq] at _hnext
  obtain ⟨-, -, -, -, -, hlt, rfl, -⟩ := _hnext
  simp only
  omega

/-- Builds a batch, leaving gaps and blocks above `durableThrough` pending. -/
def buildBatch (b : OrderedBuilder) (durableThrough sealThrough : Option Nat)
    (maxBatchBytes : Nat) : Except IngestError (OrderedBuilder × Option WriteBatch) := do
  let stop := rangeEnd b.nextHeight
  ensure (stop < 2 ^ 32) .overflow
  if (∃ through ∈ sealThrough, stop ≤ through) ∧ b.readyEnd ≤ stop ∧
      b.pendingBytes ≤ partialRangeFlushThreshold b.maxPendingBytes maxBatchBytes then
    return (b, none)
  else
    let (b', records) ← takeBatch durableThrough sealThrough maxBatchBytes b 0 []
    if records = [] then return (b', none)
    else
      ensure (b'.generation + 1 < 2 ^ 64) .overflow
      return ({ b' with generation := b'.generation + 1 },
        some { baseGeneration := b.generation, sealThrough, records })

/-! ## What a batch holds -/

variable {b b' : OrderedBuilder} {block : ParsedCompactBlock} {bytes maxBatchBytes : Nat}
  {record : CompactBlockRecord} {durableThrough sealThrough : Option Nat}
  {records : List CompactBlockRecord} {blocks : List ParsedCompactBlock} {st : IndexState}
  {P : ParsedCompactBlock → Prop}

theorem takeNext_eq_ok :
    b.takeNext block bytes = .ok (b', record) ↔
      (∀ previous ∈ b.previousHash, block.previousHash = previous) ∧
      block.intoRecord b.treeSizes = some record ∧ b.nextHeight + 1 < 2 ^ 32 ∧
      b' = { b with
        pending := b.pending.erase b.nextHeight
        pendingBytes := b.pendingBytes - bytes
        readyBytes := b.readyBytes - bytes
        nextHeight := b.nextHeight + 1
        previousHash := some block.hash
        treeSizes := record.endTreeSizes } := by
  simp only [takeNext, bind_eq_ok, ensure_eq_ok, okOr_eq_ok, pure_eq_ok, Except.ok.injEq,
    Prod.mk.injEq]
  constructor
  · rintro ⟨-, hparent, _, hrecord, -, hlt, rfl, rfl⟩
    exact ⟨hparent, hrecord, hlt, rfl⟩
  · rintro ⟨hparent, hrecord, hlt, rfl⟩
    exact ⟨(), hparent, record, hrecord, (), hlt, rfl, rfl⟩

/-- The builder gives up its next pending blocks, as records, one after another. -/
inductive Takes : OrderedBuilder → List ParsedCompactBlock → List CompactBlockRecord →
    OrderedBuilder → Prop where
  | nil (b : OrderedBuilder) : Takes b [] [] b
  | cons {b b₁ b₂ : OrderedBuilder} {block : ParsedCompactBlock} {bytes : Nat}
      {record : CompactBlockRecord} {blocks : List ParsedCompactBlock}
      {records : List CompactBlockRecord} :
      b.pending[b.nextHeight]? = some (block, bytes) → b.takeNext block bytes = .ok (b₁, record) →
      Takes b₁ blocks records b₂ → Takes b (block :: blocks) (record :: records) b₂

theorem takeBatch_takes {batchBytes : Nat} {records' : List CompactBlockRecord}
    (h : takeBatch durableThrough sealThrough maxBatchBytes b batchBytes records =
      .ok (b', records')) :
    ∃ blocks taken, Takes b blocks taken b' ∧ records' = records ++ taken := by
  fun_induction takeBatch durableThrough sealThrough maxBatchBytes b batchBytes records with
  | case1 | case2 | case4 =>
    cases h
    exact ⟨[], [], .nil _, by simp⟩
  | case3 | case5 => cases h
  | case6 b batchBytes records block bytes hsome hdurable hfull b₁ record hnext ih =>
    obtain ⟨blocks, taken, htakes, rfl⟩ := ih h
    exact ⟨block :: blocks, record :: taken, .cons hsome hnext htakes, by simp⟩

theorem buildBatch_eq_some {batch : WriteBatch}
    (h : b.buildBatch durableThrough sealThrough maxBatchBytes = .ok (b', some batch)) :
    ∃ blocks b₁, Takes b blocks batch.records b₁ ∧ batch.records ≠ [] ∧
      batch.baseGeneration = b.generation ∧ batch.sealThrough = sealThrough ∧
      b' = { b₁ with generation := b₁.generation + 1 } := by
  simp only [buildBatch, bind_eq_ok, ensure_eq_ok] at h
  obtain ⟨-, -, h⟩ := h
  split at h
  · cases h
  · obtain ⟨⟨b₁, records⟩, htake, h⟩ := bind_eq_ok.mp h
    split at h
    · cases h
    · simp only [bind_eq_ok, ensure_eq_ok, pure_eq_ok, Except.ok.injEq, Prod.mk.injEq,
        Option.some.injEq] at h
      obtain ⟨-, -, rfl, rfl⟩ := h
      obtain ⟨blocks, taken, htakes, rfl⟩ := takeBatch_takes htake
      exact ⟨blocks, b₁, htakes, by assumption, rfl, rfl, rfl⟩

theorem buildBatch_eq_none
    (h : b.buildBatch durableThrough sealThrough maxBatchBytes = .ok (b', none)) : b' = b := by
  simp only [buildBatch, bind_eq_ok, ensure_eq_ok] at h
  obtain ⟨-, -, h⟩ := h
  split at h
  · cases h; rfl
  · obtain ⟨⟨b₁, records⟩, htake, h⟩ := bind_eq_ok.mp h
    split at h
    case isTrue hnil =>
      cases h
      obtain ⟨blocks, taken, htakes, htaken⟩ := takeBatch_takes htake
      obtain rfl : taken = [] := by simpa [htaken] using hnil
      cases htakes
      rfl
    case isFalse =>
      simp [bind_eq_ok] at h

theorem Takes.nextHeight (h : Takes b blocks records b') :
    b'.nextHeight = b.nextHeight + records.length ∧ (records ≠ [] → b'.nextHeight < 2 ^ 32) := by
  induction h with
  | nil => simp
  | @cons b b₁ b₂ block bytes record blocks records _ hnext hrest ih =>
    obtain ⟨-, -, hlt, rfl⟩ := takeNext_eq_ok.mp hnext
    obtain ⟨hheight, hbound⟩ := ih
    simp only [List.length_cons] at hheight ⊢
    refine ⟨by omega, fun _ => ?_⟩
    cases hrest with
    | nil => exact hlt
    | cons => exact hbound (by simp)

/-- A batch moves the builder up. -/
theorem buildBatch_nextHeight {batch : WriteBatch}
    (h : b.buildBatch durableThrough sealThrough maxBatchBytes = .ok (b', some batch)) :
    b.nextHeight < b'.nextHeight ∧ b'.nextHeight < 2 ^ 32 := by
  obtain ⟨blocks, b₁, htakes, hne, -, -, rfl⟩ := buildBatch_eq_some h
  obtain ⟨hheight, hbound⟩ := htakes.nextHeight
  have hpos := List.length_pos_of_ne_nil hne
  exact ⟨by simp only; omega, hbound hne⟩

/-- Builds batches through `through`, without a seal, until no batch is left.
    Returns their records in height order, and does not write them to the index. -/
def drainRecords (b : OrderedBuilder) (through maxBatchBytes : Nat) :
    Except IngestError (OrderedBuilder × List CompactBlockRecord) :=
  match _hbatch : b.buildBatch (some through) none maxBatchBytes with
  | .error error => .error error
  | .ok (b', none) => .ok (b', [])
  | .ok (b', some batch) => do
    let (b'', records) ← drainRecords b' through maxBatchBytes
    return (b'', batch.records ++ records)
termination_by 2 ^ 32 - b.nextHeight
decreasing_by
  have := buildBatch_nextHeight _hbatch
  omega

/-- Every pending block satisfies `Q`, with its height and its bytes. -/
def AllPending (Q : Nat → ParsedCompactBlock → Nat → Prop) (b : OrderedBuilder) : Prop :=
  ∀ (height : Nat) (block : ParsedCompactBlock) (bytes : Nat),
    b.pending[height]? = some (block, bytes) → Q height block bytes

/-- The pending blocks are under their own heights. -/
def Keyed (b : OrderedBuilder) : Prop :=
  b.AllPending fun height block _ => block.height.val = height

/-- The pending blocks satisfy `P`. -/
def Pends (P : ParsedCompactBlock → Prop) (b : OrderedBuilder) : Prop :=
  b.AllPending fun _ block _ => P block

variable {Q : Nat → ParsedCompactBlock → Nat → Prop}

theorem AllPending.new {maxPendingBytes : Nat} (h : new st maxPendingBytes = .ok b) :
    b.AllPending Q := by
  simp only [OrderedBuilder.new, bind_eq_ok, pure_eq_ok, Except.ok.injEq] at h
  obtain ⟨_, -, rfl⟩ := h
  intro height block bytes hget
  simp at hget

theorem AllPending.takeNext (hb : b.AllPending Q) (h : b.takeNext block bytes = .ok (b', record)) :
    b'.AllPending Q := by
  obtain ⟨-, -, -, rfl⟩ := takeNext_eq_ok.mp h
  intro height block bytes hget
  rw [Table.get_delete] at hget
  split at hget
  · cases hget
  · exact hb height block bytes hget

theorem AllPending.takes (hb : b.AllPending Q) (h : Takes b blocks records b') :
    b'.AllPending Q := by
  induction h with
  | nil => exact hb
  | cons _ hnext _ ih => exact ih (hb.takeNext hnext)

theorem AllPending.buildBatch {batch : Option WriteBatch} (hb : b.AllPending Q)
    (h : b.buildBatch durableThrough sealThrough maxBatchBytes = .ok (b', batch)) :
    b'.AllPending Q := by
  cases batch with
  | none =>
    rw [buildBatch_eq_none h]
    exact hb
  | some batch =>
    obtain ⟨blocks, b₁, htakes, -, -, -, rfl⟩ := buildBatch_eq_some h
    intro height block bytes hget
    exact hb.takes htakes height block bytes hget

/-- The records of a batch continue the builder's block and follow each other. -/
theorem Takes.isChain (h : Takes b blocks records b') (hb : b.Keyed) :
    records.IsChain CompactBlockRecord.Precedes ∧
    ∀ r ∈ records.head?, r.height.val = b.nextHeight ∧
      ∀ previous ∈ b.previousHash, r.previousHash = previous := by
  induction h with
  | nil => simp
  | @cons b b₁ b₂ block bytes record blocks records hget hnext _ ih =>
    obtain ⟨hchain, hhead⟩ := ih (hb.takeNext hnext)
    obtain ⟨hparent, hrecord, -, rfl⟩ := takeNext_eq_ok.mp hnext
    obtain ⟨sizes, -, rfl⟩ := ParsedCompactBlock.intoRecord_eq_some.mp hrecord
    have hheight := hb _ _ _ hget
    refine ⟨List.isChain_cons.mpr ⟨fun r hr => ?_, hchain⟩, ?_⟩
    · obtain ⟨hr1, hr2⟩ := hhead r hr
      simp only at hr1 hr2
      exact ⟨by simp only [ParsedCompactBlock.toRecord]; omega, hr2 _ rfl⟩
    · simp only [List.head?_cons, Option.mem_some_iff, forall_eq']
      exact ⟨hheight, hparent⟩

theorem advanceReady_pending (h : b.advanceReady = .ok b') :
    b'.pending = b.pending ∧ b'.nextHeight = b.nextHeight ∧
      b'.previousHash = b.previousHash ∧ b'.treeSizes = b.treeSizes ∧
      b'.generation = b.generation := by
  fun_induction advanceReady b with
  | case1 | case4 =>
    cases h
    exact ⟨rfl, rfl, rfl, rfl, rfl⟩
  | case2 b hlt block bytes hsome hfits ih => exact ih h
  | case3 => cases h

/-- A push adds a pending block, and does not move the builder. -/
theorem push_eq_ok (h : b.push block = .ok b') :
    (∃ bytes, b'.pending = b.pending.insert block.height.val (block, bytes) ∧
        encodedSizeBound block.transactions = .ok bytes) ∧
      b'.nextHeight = b.nextHeight ∧ b'.previousHash = b.previousHash ∧
      b'.treeSizes = b.treeSizes ∧ b'.generation = b.generation := by
  simp only [OrderedBuilder.push, bind_eq_ok, ensure_eq_ok, okMapError_eq_ok] at h
  obtain ⟨-, -, bytes, hbytes, -, -, -, -, h⟩ := h
  split at h
  · obtain ⟨hpending, hrest⟩ := advanceReady_pending h
    exact ⟨⟨bytes, hpending, hbytes⟩, hrest⟩
  · cases h
    exact ⟨⟨bytes, rfl, hbytes⟩, rfl, rfl, rfl, rfl⟩

theorem AllPending.push (hb : b.AllPending Q)
    (hblock : ∀ bytes, encodedSizeBound block.transactions = .ok bytes →
      Q block.height.val block bytes) (h : b.push block = .ok b') : b'.AllPending Q := by
  obtain ⟨⟨bytes, hpending, hbytes⟩, -⟩ := push_eq_ok h
  intro height block' bytes' hget
  rw [hpending, Table.get_put] at hget
  split at hget
  case isTrue heq =>
    cases hget
    rw [← heq]
    exact hblock bytes hbytes
  case isFalse => exact hb height block' bytes' hget

theorem Keyed.push (hb : b.Keyed) (h : b.push block = .ok b') : b'.Keyed :=
  AllPending.push hb (fun _ _ => rfl) h

/-- A builder made from `st` and fed with blocks of `P`, after any pushes and batches. -/
inductive FedFrom (P : ParsedCompactBlock → Prop) (st : IndexState) : OrderedBuilder → Prop where
  | new {maxPendingBytes : Nat} {b : OrderedBuilder} : new st maxPendingBytes = .ok b →
      FedFrom P st b
  | push {b b' : OrderedBuilder} {block : ParsedCompactBlock} : FedFrom P st b → P block →
      b.push block = .ok b' → FedFrom P st b'
  | build {b b' : OrderedBuilder} {batch : Option WriteBatch}
      (durableThrough sealThrough : Option Nat) (maxBatchBytes : Nat) : FedFrom P st b →
      b.buildBatch durableThrough sealThrough maxBatchBytes = .ok (b', batch) → FedFrom P st b'

theorem FedFrom.keyed (h : FedFrom P st b) : b.Keyed := by
  induction h with
  | new h => exact .new h
  | push _ _ h ih => exact ih.push h
  | build _ _ _ _ h ih => exact ih.buildBatch h

theorem FedFrom.imp {Q : ParsedCompactBlock → Prop} (hPQ : ∀ block, P block → Q block)
    (h : FedFrom P st b) : FedFrom Q st b := by
  induction h with
  | new h => exact .new h
  | push _ hblock h ih => exact .push ih (hPQ _ hblock) h
  | build _ _ _ _ h ih => exact .build _ _ _ ih h

end OrderedBuilder

/-- A batch that a builder made from the state `st`. -/
def WriteBatch.MadeFrom (st : IndexState) (batch : WriteBatch) : Prop :=
  ∃ b b' durableThrough sealThrough maxBatchBytes, OrderedBuilder.FedFrom (fun _ => True) st b ∧
    b.buildBatch durableThrough sealThrough maxBatchBytes = .ok (b', some batch)

/-- The records of a batch are not empty and follow each other. -/
theorem WriteBatch.MadeFrom.isChain {st : IndexState} {batch : WriteBatch}
    (h : batch.MadeFrom st) :
    batch.records ≠ [] ∧ batch.records.IsChain CompactBlockRecord.Precedes := by
  obtain ⟨b, b', durableThrough, sealThrough, maxBatchBytes, hfed, hbatch⟩ := h
  obtain ⟨blocks, b₁, htakes, hne, -⟩ := OrderedBuilder.buildBatch_eq_some hbatch
  exact ⟨hne, (htakes.isChain hfed.keyed).1⟩

end Ztreamer
