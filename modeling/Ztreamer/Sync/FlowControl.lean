import Ztreamer.Chain.RecordSize
import Ztreamer.Index.Ingest

/-! # Flow control of the pipeline

    The channel from the fetch workers to the coordinator. A worker reserves the
    size bound of a block before it sends it, and waits while the reserved bytes
    and the block do not fit in the read-ahead limit. The block at
    `firstMissingHeight` never waits.

    * `ReadAheadBudget.reserve`: one look at the shared state,
    * `SegmentSender.send`: the next block of a segment.
-/

namespace Ztreamer

open Octets Result

/-- Why the pipeline stopped, as far as the channel is concerned. -/
inductive PipelineError where
  | ingest (error : IngestError)
  | sourceGap (expected : Nat) (actual : Option Nat)
  | worker
  deriving DecidableEq

/-- The read-ahead budget that the senders and the receiver share. -/
structure ReadAheadBudget where
  /-- The size bounds of the blocks that workers reserved and that no batch holds yet. -/
  reservedBytes : Nat
  /-- The first height that the coordinator does not have. -/
  firstMissingHeight : Nat
  /-- Stops the senders that wait, and all later reservations. -/
  cancelled : Bool
  readAheadLimit : Nat

namespace ReadAheadBudget

def new (readAheadLimit firstMissingHeight : Nat) : ReadAheadBudget :=
  ⟨0, firstMissingHeight, false, readAheadLimit⟩

/-- The block does not fit yet. -/
def waits (b : ReadAheadBudget) (height bytes : Nat) : Bool :=
  !b.cancelled && height ≠ b.firstMissingHeight && b.readAheadLimit < b.reservedBytes + bytes

/-- Reserves `bytes`. There is no result while the call waits. -/
def reserve (b : ReadAheadBudget) (height bytes : Nat) :
    Option (Except PipelineError ReadAheadBudget) :=
  if b.waits height bytes then none
  else if b.cancelled then some (.error .worker)
  else some (.ok { b with reservedBytes := b.reservedBytes + bytes })

/-- Reserves the bytes of `block`, then gives it to the coordinator, which may be gone. -/
def send (b : ReadAheadBudget) (block : ParsedCompactBlock) (received : Bool) :
    Option (Except PipelineError ReadAheadBudget) :=
  match encodedSizeBound block.transactions with
  | .error error => some (.error (.ingest (.codec error)))
  | .ok bytes => (b.reserve block.height.val bytes).map fun reserved => do
    let b ← reserved
    ensure received .worker
    return b

end ReadAheadBudget

/-- The sender of one segment. -/
structure SegmentSender where
  budget : ReadAheadBudget
  /-- The height that the worker must send next. -/
  nextHeight : Nat
  /-- The last height of the segment. -/
  endHeight : Nat

namespace SegmentSender

/-- Sends the next block of the segment. -/
def send (s : SegmentSender) (block : ParsedCompactBlock) (received : Bool) :
    Option (Except PipelineError SegmentSender) :=
  if block.height.val ≠ s.nextHeight ∨ s.endHeight < block.height.val then
    some (.error (.sourceGap s.nextHeight (some block.height.val)))
  else (s.budget.send block received).map fun sent => do
    let budget ← sent
    return { s with budget, nextHeight := s.nextHeight + 1 }

end SegmentSender

/-! ## Refusals for the size of a record -/

/-- A block within the record limit is not refused for its size when it is sent. -/
theorem SegmentSender.send_ne_codec {s : SegmentSender} {block : ParsedCompactBlock}
    {received : Bool} (hsize : block.size ≤ maxRecordBytes) (e : CodecError) :
    s.send block received ≠ some (.error (.ingest (.codec e))) := by
  have hbound := encodedSizeBound_eq_ok.mpr ⟨hsize, rfl⟩
  unfold SegmentSender.send
  split
  · simp
  · unfold ReadAheadBudget.send ReadAheadBudget.reserve
    rw [hbound]
    dsimp only
    split
    · simp
    · split
      · simp
      · cases received <;> exact fun h => by cases h

theorem OrderedBuilder.advanceReady_error {b : OrderedBuilder} {e : IngestError}
    (h : b.advanceReady = .error e) : e = .overflow := by
  fun_induction advanceReady b with
  | case1 | case4 => cases h
  | case2 b hlt block bytes hsome hbytes ih => exact ih h
  | case3 =>
    cases h
    rfl

/-- Nor when it is handed to the builder. -/
theorem OrderedBuilder.push_ne_codec {b : OrderedBuilder} {block : ParsedCompactBlock}
    (hsize : block.size ≤ maxRecordBytes) (e : CodecError) :
    b.push block ≠ .error (.codec e) := by
  have hbound := encodedSizeBound_eq_ok.mpr ⟨hsize, rfl⟩
  have herrs : ¬ Errs (fun error => error = IngestError.codec e) (b.push block) := by
    simp only [OrderedBuilder.push, hbound, okMapError_ok, ok_bind, errs_bind, errs_ensure,
      reduceCtorEq, and_false, false_or, not_exists, not_and]
    intro _ _ _ _ _ _ herr
    split at herr
    · obtain ⟨error, hready, rfl⟩ := herr
      cases advanceReady_error hready
    · exact errs_ok herr
  exact fun h => herrs ⟨_, h, rfl⟩

/-- The size bounds of records: they hold for every record with the transactions
    that were measured, and the record of a block of at most 2,000,000 bytes is not
    refused for its size, not by a sender, not by the builder, and not by the codec. -/
theorem record_size_bounds :
    (∀ (transactions : List CompactTransaction) (n : Nat),
      encodedSizeBound transactions = .ok n →
      ∀ r : CompactBlockRecord, SameTransactions transactions r.transactions →
        r.encode ≠ .error .length ∧ ((∀ tx ∈ r.transactions, tx.hasPayload) →
          ∃ bytes, r.encode = .ok bytes ∧ bytes.length ≤ n)) ∧
    ∀ (block : RawIndexBlock) (parsed : ParsedCompactBlock), parseBlock block = .ok parsed →
      192 + (parsed.transactions.map transactionSizeBound).sum ≤ max 192 block.bytes.length ∧
      (block.bytes.length ≤ 2000000 →
        (∃ n, encodedSizeBound parsed.transactions = .ok n ∧ n ≤ max 192 block.bytes.length) ∧
        (∀ (s : SegmentSender) (received : Bool) (e : CodecError),
          s.send parsed received ≠ some (.error (.ingest (.codec e)))) ∧
        (∀ (b : OrderedBuilder) (e : CodecError), b.push parsed ≠ .error (.codec e)) ∧
        ∀ (before : TreeSizes) (r : CompactBlockRecord), parsed.intoRecord before = some r →
          ∃ bytes, r.encode = .ok bytes) := by
  constructor
  · intro transactions n h r hsame
    exact CompactBlockRecord.encode_within_sizeBound (by rw [hsame.sizeBound, h])
  · intro block parsed h
    have hsize := parseBlock_size_le h
    refine ⟨hsize, fun hmax => ?_⟩
    have hfits : parsed.size ≤ maxRecordBytes := by
      unfold maxRecordBytes
      omega
    have hbound := encodedSizeBound_eq_ok.mpr ⟨hfits, rfl⟩
    refine ⟨⟨_, hbound, hsize⟩, fun s received e => SegmentSender.send_ne_codec hfits e,
      fun b e => OrderedBuilder.push_ne_codec hfits e, ?_⟩
    intro before r hrecord
    obtain ⟨sizes, -, rfl⟩ := ParsedCompactBlock.intoRecord_eq_some.mp hrecord
    exact ⟨_, CompactBlockRecord.encode_of_sizeBound (parseBlock_spec h).2.2.2 hbound⟩

end Ztreamer
