import Ztreamer.Index.Reachable
import Ztreamer.Index.Snapshot
import Ztreamer.Sync.Preparation

/-! # Streams of block ranges

    The answer to a range request is a stream that reads the blocks in chunks, each
    from the newest committed index or from the volatile head of one serving
    snapshot. The index can change between two polls of the stream.

    * `rangeAs`: the stream of an accepted request,
    * `RangeStream.turn`: one turn of the loop inside a poll,
    * `RangeStream.Progress`: what a stream has sent and holds,
    * `Progress.poll`: what one poll does.
-/

namespace Ztreamer

open Octets Result Connected

variable {ν α β : Type}

/-! ## Statuses -/

inductive StatusCode where
  | invalidArgument
  | outOfRange
  | unavailable
  | internal
  deriving DecidableEq

structure Status where
  code : StatusCode
  message : String
  deriving DecidableEq

def FormatKind.text : FormatKind → String
  | .range => "range"
  | .rangeMeta => "range meta"

def CodecError.text : CodecError → String
  | .truncated => "encoded value is truncated"
  | .version kind byte =>
    let kindText := kind.text
    let number := byte.val
    s!"unsupported {kindText} format version {number}"
  | .length => "encoded count, length, or offset is invalid"
  | .trailingBytes => "encoded value has trailing bytes"
  | .invalidRecord => "encoded block record is invalid"
  | .invalidRange => s!"range must contain exactly {rangeSize} contiguous aligned blocks"
  | .rangeIndex => s!"range record index is outside 0..{rangeSize}"

def BlobMismatch.text : BlobMismatch → String
  | .len expected actual =>
    let bytes := expected.val
    s!"the blob has {actual} bytes; the entry gives {bytes}"
  | .digest => "the blob does not have the digest that the entry gives"

def IndexError.text : IndexError → String
  | .codec error => error.text
  | .identity => "LMDB network, genesis hash, or fixed index policy does not match"
  | .metadata => "LMDB metadata is incomplete or inconsistent"
  | .staleBatch batchGeneration =>
    s!"write batch was built from stale index generation {batchGeneration}"
  | .incompleteRange start => s!"mutable range starting at {start} is incomplete"
  | .continuity height => s!"LMDB compact coverage is not contiguous at height {height}"
  | .hashIndex height => s!"LMDB hash index does not match compact block at height {height}"
  | .generation expected actual =>
    s!"serving snapshot generation {expected} does not match LMDB generation {actual}"
  | .coverage height => s!"compact block height {height} is outside indexed coverage"
  | .overflow => "height or generation overflow"
  | .sealed height => s!"ordinary reorg replacement would modify sealed block {height}"
  | .replacement height => s!"replacement suffix does not connect at height {height}"
  | .rangeMeta start =>
    s!"range metadata at {start} does not describe a sealed range that starts there"
  | .rangeEndHash start =>
    s!"sealed range at {start} does not end with the end hash of its metadata"
  | .rangeStart height => s!"height {height} is not the first height of a range"
  | .rangeOrder start next =>
    s!"sealed range at {start} is not the next range; the next range starts at {next}"
  | .rangeBlob height => s!"range blob does not continue the chain at height {height}"
  | .duplicateHash height => s!"block hash at height {height} is in the index already"
  | .mutableRows => "index has mutable rows; an install needs an index with no mutable rows"
  | .blob start mismatch =>
    let mismatchText := mismatch.text
    s!"range blob at {start} does not match its metadata: {mismatchText}"

/-- The status of a failed read: a height that the index does not cover, a change of
    the generation, or another error. -/
def IndexError.toStatus (error : IndexError) : Status :=
  match error with
  | .coverage _ => ⟨.outOfRange, error.text⟩
  | .generation _ _ => ⟨.unavailable, error.text⟩
  | _ => ⟨.internal, error.text⟩

def reorganized (height : Nat) : Status :=
  ⟨.unavailable,
    s!"chain reorganized while streaming at height {height}; restart from a fresh tip"⟩

def ensureReady (snapshot : ServingSnapshot) : Except Status Unit :=
  ensure snapshot.ready ⟨.unavailable, "deep reorg recovery is active"⟩

/-! ## Requests -/

/-- A block in a request, by height or by hash. -/
structure RequestedBlock where
  height : U64
  hash : Bytes

structure BlockRange where
  start : Option RequestedBlock
  finish : Option RequestedBlock

/-- The height of the endpoint `name` of a range. -/
def endpointHeight (name : String) (endpoint : Option RequestedBlock) : Except Status Nat := do
  let endpoint ← okOr endpoint ⟨.invalidArgument, s!"range.{name} is required"⟩
  ensure (endpoint.hash = []) ⟨.invalidArgument, "range endpoints must be heights"⟩
  ensure (endpoint.height.val < 2 ^ 32) ⟨.invalidArgument, "range height exceeds u32"⟩
  return endpoint.height.val

def rangeHeights (request : BlockRange) : Except Status (Nat × Nat) := do
  let start ← endpointHeight "start" request.start
  let finish ← endpointHeight "end" request.finish
  return (start, finish)

/-! ## The stream -/

/-- A stream of views `α`, which holds one chunk. `last` is the hash of the last
    record that was sent, and the hash of its parent. -/
structure RangeStream (α : Type) where
  snapshot : ServingSnapshot
  finish : Nat
  ascending : Bool
  cursor : Option Nat
  records : List α
  last : Option (Hash × Hash)

/-- The stream of an accepted request. A permit of the pool of streams is held as
    long as the stream lives; the wait for it is not part of the model. -/
def rangeAs (α : Type) (snapshot : ServingSnapshot) (request : BlockRange) :
    Except Status (RangeStream α) := do
  let (start, finish) ← rangeHeights request
  ensureReady snapshot
  let visibleTip ← okOr snapshot.visibleTip ⟨.unavailable, "compact index is empty"⟩
  let tipHeight := visibleTip.height
  ensure (start ≤ tipHeight ∧ finish ≤ tipHeight)
    ⟨.outOfRange, s!"range exceeds compact tip {tipHeight}"⟩
  ensure (snapshot.tipFresh ∨
      ∃ durable ∈ snapshot.durableTip, start ≤ durable.height ∧ finish ≤ durable.height)
    ⟨.unavailable, "canonical head source is stale"⟩
  return { snapshot
           finish
           ascending := decide (start ≤ finish)
           cursor := some start
           records := []
           last := none }

namespace RangeStream

/-- The block at `height` is in the durable chain of the snapshot. -/
def durable (stream : RangeStream α) (height : Nat) : Bool :=
  stream.snapshot.durableTip.any fun tip => decide (height ≤ tip.height)

/-- The last height of the chunk that starts at `height`: at most 64 blocks, up to the
    end of the range, and on one side of the durable tip. -/
def chunkEnd (stream : RangeStream α) (height : Nat) : Nat :=
  let chunkEnd :=
    if stream.ascending then min (min (height + 63) (2 ^ 32 - 1)) stream.finish
    else max (height - 63) stream.finish
  match stream.snapshot.durableTip with
  | none => chunkEnd
  | some tip =>
    if stream.ascending ∧ stream.durable height then min chunkEnd tip.height
    else if ¬ stream.ascending ∧ ¬ stream.durable height then
      max chunkEnd (min (tip.height + 1) (2 ^ 32 - 1))
    else chunkEnd

/-- The record continues what was sent. -/
def Continues [StoredBlock α] (stream : RangeStream α) (first : α) : Prop :=
  ∀ ids ∈ stream.last, if stream.ascending then StoredBlock.previousHash first = ids.1
    else ids.2 = StoredBlock.hash first

instance [StoredBlock α] (stream : RangeStream α) (first : α) :
    Decidable (stream.Continues first) := by
  unfold Continues; infer_instance

/-- The status of a chunk that cannot be read. The request saw every durable height;
    if the index does not have one any more, the chain shrank. -/
def chunkStatus (stream : RangeStream α) (height : Nat) (error : IndexError) : Status :=
  match error with
  | .coverage missing => if stream.durable height then reorganized missing else error.toStatus
  | _ => error.toStatus

/-- The cursor after a chunk. The arithmetic wraps; the value of a stream that is at
    its end is not used. -/
def nextCursor (stream : RangeStream α) (chunkEnd : Nat) : Option Nat :=
  let next := if stream.ascending then (chunkEnd + 1) % 2 ^ 32
    else (chunkEnd + (2 ^ 32 - 1)) % 2 ^ 32
  if chunkEnd ≠ stream.finish then some next else none

end RangeStream

/-- What one turn of the loop inside a poll gives: an item of the stream, or the end
    of the stream, or another turn. -/
inductive Turn (β : Type) where
  | item (item : Option (Except Status β))
  | again

namespace RangeStream

variable [StoredBlock α]

/-- The blocks of a chunk: from the newest committed index, or from the volatile head. -/
def readChunk (stream : RangeStream α) (s : Store ν) (height chunkEnd : Nat) :
    Except IndexError (List α) :=
  if stream.durable height then do
    let st ← s.getState
    s.readBlocks α st height chunkEnd
  else
    (List.range (Walk.absDiff height chunkEnd + 1)).mapM fun offset => do
      let height := Walk.toward stream.ascending height offset
      let record ← okOr (stream.snapshot.volatile height) (.coverage height)
      return StoredBlock.fromRecord record

/-- One turn of the loop inside a poll. `project` makes the item of a record. -/
def turn (project : α → Except Status β) (s : Store ν) (stream : RangeStream α) :
    Turn β × RangeStream α :=
  match stream.records with
  | record :: records =>
    let stream :=
      { stream with
        records
        last := some (StoredBlock.hash record, StoredBlock.previousHash record) }
    match project record with
    | .ok block => (.item (some (.ok block)), stream)
    | .error status =>
      (.item (some (.error status)), { stream with records := [], cursor := none })
  | [] =>
    match stream.cursor with
    | none => (.item none, stream)
    | some height =>
      match stream.readChunk s height (stream.chunkEnd height) with
      | .error error =>
        (.item (some (.error (stream.chunkStatus height error))), { stream with cursor := none })
      | .ok chunk =>
        -- the link check is between chunks only
        match chunk.head?.filter fun first => ¬ stream.Continues first with
        | some first =>
          (.item (some (.error (reorganized (StoredBlock.height first).val))),
            { stream with cursor := none })
        | none =>
          (.again, { stream with
            cursor := stream.nextCursor (stream.chunkEnd height), records := chunk })

/-- One poll: turns up to an item or the end of the stream. -/
inductive Polls (project : α → Except Status β) (s : Store ν) :
    RangeStream α → Option (Except Status β) → RangeStream α → Prop where
  | item {stream stream' : RangeStream α} {item : Option (Except Status β)} :
      stream.turn project s = (.item item, stream') → Polls project s stream item stream'
  | again {stream stream₁ stream' : RangeStream α} {item : Option (Except Status β)} :
      stream.turn project s = (.again, stream₁) → Polls project s stream₁ item stream' →
      Polls project s stream item stream'

end RangeStream

/-! ## Pieces of a chain -/

section

variable [StoredBlock α] {up : Bool} {height : Nat}

/-- The neighbour `b` that is sent after `a` links to it, or `a` to `b`. -/
def Linked (up : Bool) (a b : α) : Prop :=
  if up then StoredBlock.previousHash b = StoredBlock.hash a
  else StoredBlock.previousHash a = StoredBlock.hash b

/-- The records have consecutive heights from `height` on, and each is linked to its
    neighbour. -/
structure Piece (up : Bool) (height : Nat) (records : List α) : Prop where
  heights : ∀ (i : Nat) (a : α), records[i]? = some a →
    (StoredBlock.height a).val = Walk.toward up height i
  linked : records.IsChain (Linked up)

theorem piece_nil : Piece up height ([] : List α) := ⟨by simp, .nil⟩

theorem Piece.take {records : List α} (h : Piece up height records) (n : Nat) :
    Piece up height (records.take n) := by
  refine ⟨?_, h.linked.take n⟩
  intro i a hi
  rw [List.getElem?_take] at hi
  split at hi
  · exact h.heights i a hi
  · cases hi

theorem Piece.append {as bs : List α} (has : Piece up height as)
    (hbs : Piece up (Walk.toward up height as.length) bs)
    (hlink : ∀ a ∈ as.getLast?, ∀ b ∈ bs.head?, Linked up a b) :
    Piece up height (as ++ bs) := by
  refine ⟨?_, List.isChain_append.mpr ⟨has.linked, hbs.linked, hlink⟩⟩
  intro i a hi
  rw [List.getElem?_append] at hi
  split at hi
  · exact has.heights i a hi
  · rw [hbs.heights _ a hi]
    unfold Walk.toward
    split <;> omega

/-- Views of the blocks of a chain, which a lookup by height gives. -/
theorem piece_of_views (get : Nat → Option CompactBlockRecord)
    (hheight : ∀ n r, get n = some r → r.height.val = n)
    (hlink : ∀ n a b, get n = some a → get (n + 1) = some b → b.previousHash = a.hash)
    {records : List α} (hdown : up = false → records.length ≤ height + 1)
    (hviews : ∀ (i : Nat) (a : α), records[i]? = some a →
      ∃ r, get (Walk.toward up height i) = some r ∧ IsView a r) :
    Piece up height records := by
  constructor
  · intro i a hi
    obtain ⟨r, hr, hview⟩ := hviews i a hi
    rw [hview.height, hheight _ r hr]
  · rw [List.isChain_iff_getElem]
    intro i hlt
    obtain ⟨a, ha, hviewa⟩ := hviews i _ (List.getElem?_eq_getElem (by omega))
    obtain ⟨b, hb, hviewb⟩ := hviews (i + 1) _ (List.getElem?_eq_getElem hlt)
    unfold Linked
    cases up with
    | true =>
      have hnext : get (height + i + 1) = some b := hb
      rw [if_pos rfl, hviewb.previousHash, hviewa.hash]
      exact hlink (height + i) a b ha hnext
    | false =>
      have hle := hdown rfl
      have hnext : get (height - (i + 1) + 1) = some a := by
        rw [show height - (i + 1) + 1 = height - i by omega]
        exact ha
      rw [if_neg (by decide), hviewa.previousHash, hviewb.hash]
      exact hlink (height - (i + 1)) b a hb hnext

end

/-! ## Serving snapshots -/

namespace ServingSnapshot

/-- The snapshots that a follower publishes: of a state, of a state with a head that
    connects, and those with another readiness. -/
inductive Published : ServingSnapshot → Prop where
  | ofState (st : IndexState) : Published st.toServingSnapshot
  | withHead {st : IndexState} {head : List CompactBlockRecord} {now : Instant}
      {snapshot : ServingSnapshot} :
      ServingSnapshot.withHead st head now = .ok snapshot → Published snapshot
  | mark {snapshot : ServingSnapshot} (ready tipFresh : Bool)
      (lastSourceSuccess : Option Instant) (sourceError : Option String) :
      Published snapshot →
      Published { snapshot with ready, tipFresh, lastSourceSuccess, sourceError }

/-- The first height above the durable chain. -/
def headStart (snapshot : ServingSnapshot) : Nat := snapshot.durableTip.elim 0 (·.height + 1)

/-- The block at a height: of the durable chain in the index, or of the head. -/
def block (α : Type) [StoredBlock α] (snapshot : ServingSnapshot) (s : Store ν) (st : IndexState)
    (height : Nat) : Except IndexError α :=
  if ∃ tip ∈ snapshot.durableTip, height ≤ tip.height then s.read α st height
  else StoredBlock.fromRecord <$> okOr (snapshot.volatile height) (.coverage height)

/-- The head continues the durable chain, and its last block is visible. -/
structure Consistent (snapshot : ServingSnapshot) : Prop where
  runs : RunsFrom snapshot.headStart (snapshot.durableTip.map (·.hash)) snapshot.volatileHead
  visibleTip : snapshot.visibleTip =
    (snapshot.volatileHead.getLast?.map (·.blockId)).or snapshot.durableTip

theorem Published.consistent {snapshot : ServingSnapshot} (h : snapshot.Published) :
    snapshot.Consistent := by
  induction h with
  | ofState st => exact ⟨trivial, rfl⟩
  | mark _ _ _ _ _ ih => exact ⟨ih.runs, ih.visibleTip⟩
  | @withHead st head now snapshot hwith =>
    simp only [ServingSnapshot.withHead, bind_eq_ok, pure_eq_ok, Except.ok.injEq] at hwith
    obtain ⟨_, hcheck, rfl⟩ := hwith
    rw [checkHead_eq_ok] at hcheck
    refine ⟨?_, rfl⟩
    cases head with
    | nil => trivial
    | cons r head =>
      -- the addition saturates only below a head that is empty
      have hlt := hcheck.2.2.1
      have hstart : (st.durableTip.elim 0 fun tip => min (tip.height + 1) (2 ^ 32 - 1)) =
          st.durableTip.elim 0 (·.height + 1) := by
        cases htip : st.durableTip with
        | none => rfl
        | some tip =>
          rw [htip] at hlt
          simp only [Option.elim_some] at hlt ⊢
          omega
      rw [hstart] at hcheck
      exact hcheck

theorem volatile_height {snapshot : ServingSnapshot} {n : Nat} {r : CompactBlockRecord}
    (hr : snapshot.volatile n = some r) : r.height.val = n := by
  simpa using List.find?_some hr

namespace Consistent

variable {snapshot : ServingSnapshot} (h : snapshot.Consistent)

include h

theorem volatile_eq {n : Nat} (hn : snapshot.headStart ≤ n) :
    snapshot.volatile n = snapshot.volatileHead[n - snapshot.headStart]? :=
  find?_height (fun _ _ hi => h.runs.height_eq hi) hn

/-- The head has the blocks above the durable chain, up to the visible tip. -/
theorem exists_volatile {tip : BlockId} (htip : snapshot.visibleTip = some tip) {n : Nat}
    (hn : snapshot.headStart ≤ n) (hle : n ≤ tip.height) : ∃ r, snapshot.volatile n = some r := by
  rw [h.visibleTip] at htip
  cases hlast : snapshot.volatileHead.getLast? with
  | none =>
    rw [hlast, Option.map_none, Option.none_or] at htip
    unfold headStart at hn
    rw [htip] at hn
    simp only [Option.elim_some] at hn
    omega
  | some last =>
    rw [hlast, Option.map_some, Option.some_or] at htip
    cases htip
    rw [List.getLast?_eq_getElem?] at hlast
    have hheight := h.runs.height_eq hlast
    have hlen := (List.getElem?_eq_some_iff.mp hlast).1
    have hblock : last.blockId.height = last.height.val := rfl
    rw [h.volatile_eq hn]
    exact ⟨_, List.getElem?_eq_getElem (by omega)⟩

theorem volatile_link {n : Nat} {a b : CompactBlockRecord} (ha : snapshot.volatile n = some a)
    (hb : snapshot.volatile (n + 1) = some b) : b.previousHash = a.hash := by
  have hn : snapshot.headStart ≤ n := by
    obtain ⟨i, hi⟩ := List.mem_iff_getElem?.mp (List.mem_of_find?_eq_some ha)
    rw [← volatile_height ha, h.runs.height_eq hi]
    omega
  rw [h.volatile_eq hn] at ha
  rw [h.volatile_eq (by omega), show n + 1 - snapshot.headStart = n - snapshot.headStart + 1 by
    omega] at hb
  obtain ⟨hlt, rfl⟩ := List.getElem?_eq_some_iff.mp hb
  obtain ⟨-, rfl⟩ := List.getElem?_eq_some_iff.mp ha
  exact (List.isChain_iff_getElem.mp h.runs.isChain.1 _ hlt).2

end Consistent

end ServingSnapshot

/-! ## Chunks -/

namespace RangeStream

variable {stream : RangeStream α} {height : Nat}

/-- The stream goes from `height` to the end of its range. -/
def Toward (stream : RangeStream α) (height : Nat) : Prop :=
  if stream.ascending then height ≤ stream.finish else stream.finish ≤ height

/-- A chunk ends at the end of the range or before it, and its blocks are on the side
    of the durable tip on which it starts. -/
theorem chunkEnd_spec (h : stream.Toward height) (hlt : height < 2 ^ 32) :
    (if stream.ascending then height ≤ stream.chunkEnd height else
      stream.chunkEnd height ≤ height) ∧
    (stream.chunkEnd height = stream.finish ∨
      Walk.Before height (stream.chunkEnd height) stream.finish) ∧
    ∀ tip ∈ stream.snapshot.durableTip, ∀ n ∈ Walk.walk height (stream.chunkEnd height),
      (n ≤ tip.height ↔ height ≤ tip.height) := by
  unfold Toward at h
  unfold chunkEnd durable Walk.Before
  simp only [Walk.mem_walk]
  cases htip : stream.snapshot.durableTip with
  | none =>
    refine ⟨?_, ?_, by simp⟩
    all_goals
      cases hup : stream.ascending <;> simp [hup] at h ⊢ <;> omega
  | some tip =>
    refine ⟨?_, ?_, ?_⟩
    -- each direction on each side of the durable tip
    · cases hup : stream.ascending <;> by_cases hle : height ≤ tip.height <;>
        simp [hup, hle] at h ⊢ <;> omega
    · cases hup : stream.ascending <;> by_cases hle : height ≤ tip.height <;>
        simp [hup, hle] at h ⊢ <;> omega
    · intro tip' htip' n hn
      obtain rfl : tip = tip' := by simpa using htip'
      cases hup : stream.ascending <;> by_cases hle : height ≤ tip.height <;>
        simp [hup, hle] at h hn ⊢ <;> omega

theorem durable_iff : stream.durable height = true ↔
    ∃ tip ∈ stream.snapshot.durableTip, height ≤ tip.height := by
  unfold durable
  cases stream.snapshot.durableTip <;> simp

section

variable [StoredBlock α] {s : Store ν} {st : IndexState}

/-- The heights of the chunk that starts at `height`. -/
def chunkHeights (stream : RangeStream α) (height : Nat) : List Nat :=
  (List.range (Walk.absDiff height (stream.chunkEnd height) + 1)).map
    (Walk.toward stream.ascending height)

omit [StoredBlock α] in
theorem chunkHeights_eq (h : stream.Toward height) (hlt : height < 2 ^ 32) :
    stream.chunkHeights height = Walk.walk height (stream.chunkEnd height) :=
  (Walk.walk_of_direction (chunkEnd_spec h hlt).1).symm

/-- A chunk in the coverage of the index has the blocks of the snapshot. -/
theorem readChunk_eq (hstate : s.getState = .ok st) (haligned : st.sealedEnd % rangeSize = 0)
    (htoward : stream.Toward height) (hlt : height < 2 ^ 32)
    (hcovered : stream.durable height → ∃ tip ∈ st.durableTip, height ≤ tip.height ∧
      stream.chunkEnd height ≤ tip.height) :
    stream.readChunk s height (stream.chunkEnd height) =
      (stream.chunkHeights height).mapM (stream.snapshot.block α s st) := by
  have hside := (chunkEnd_spec htoward hlt).2.2
  unfold readChunk
  by_cases hdurable : stream.durable height = true
  · rw [if_pos hdurable, hstate, ok_bind, Store.readBlocks_eq haligned (hcovered hdurable),
      chunkHeights_eq htoward hlt]
    apply mapM_congr
    intro n hn
    obtain ⟨tip, htip, hle⟩ := durable_iff.mp hdurable
    rw [ServingSnapshot.block, if_pos ⟨tip, htip, (hside tip htip n hn).mpr hle⟩]
  · rw [if_neg hdurable, chunkHeights, List.mapM_map]
    apply mapM_congr
    intro i hi
    have hmem : Walk.toward stream.ascending height i ∈
        Walk.walk height (stream.chunkEnd height) := by
      rw [← chunkHeights_eq htoward hlt]
      exact List.mem_map.mpr ⟨i, hi, rfl⟩
    have hnot : ¬ ∃ tip ∈ stream.snapshot.durableTip,
        Walk.toward stream.ascending height i ≤ tip.height := by
      intro hand
      obtain ⟨tip, htip, hle⟩ := hand
      exact hdurable (durable_iff.mpr ⟨tip, htip, (hside tip htip _ hmem).mp hle⟩)
    show _ = stream.snapshot.block α s st (Walk.toward stream.ascending height i)
    rw [ServingSnapshot.block, if_neg hnot]
    exact bind_pure_comp _ _

theorem readChunk_eq_ok (hstate : s.getState = .ok st) (haligned : st.sealedEnd % rangeSize = 0)
    (htoward : stream.Toward height) (hlt : height < 2 ^ 32) {chunk : List α}
    (h : stream.readChunk s height (stream.chunkEnd height) = .ok chunk) :
    chunk.length = Walk.absDiff height (stream.chunkEnd height) + 1 ∧
      ∀ (i : Nat) (a : α), chunk[i]? = some a →
        stream.snapshot.block α s st (Walk.toward stream.ascending height i) = .ok a := by
  have hcovered : stream.durable height → ∃ tip ∈ st.durableTip, height ≤ tip.height ∧
      stream.chunkEnd height ≤ tip.height := by
    intro hdurable
    rw [readChunk, if_pos hdurable, hstate, ok_bind] at h
    simp only [Store.readBlocks, bind_eq_ok, okOr_eq_ok, ensure_eq_ok] at h
    obtain ⟨tip, htip, -, hstart, -, hend, -⟩ := h
    exact ⟨tip, htip, hstart, hend⟩
  rw [readChunk_eq hstate haligned htoward hlt hcovered, mapM_eq_ok] at h
  constructor
  · rw [← h.length_eq]
    simp [chunkHeights]
  · intro i a hi
    obtain ⟨n, hn, hblock⟩ := forall₂_getElem? h.flip hi
    rw [chunkHeights, List.getElem?_map, Option.map_eq_some_iff] at hn
    obtain ⟨j, hj, rfl⟩ := hn
    obtain ⟨hj, rfl⟩ := List.getElem?_eq_some_iff.mp hj
    rw [List.getElem_range] at hblock
    exact hblock

/-- A chunk is a piece of the durable chain or of the head. -/
theorem readChunk_piece [Proto.Prost] [LawfulStoredBlock α] {chain : List CompactBlockRecord}
    (hrep : Represents .any s st chain) (hconsistent : stream.snapshot.Consistent)
    (htoward : stream.Toward height) (hlt : height < 2 ^ 32) {chunk : List α}
    (h : stream.readChunk s height (stream.chunkEnd height) = .ok chunk) :
    Piece stream.ascending height chunk := by
  obtain ⟨hlength, hblocks⟩ :=
    readChunk_eq_ok hrep.state hrep.holds.sealed_aligned htoward hlt h
  obtain ⟨hdirection, -, hside⟩ := chunkEnd_spec htoward hlt
  have hdown : stream.ascending = false → chunk.length ≤ height + 1 := by
    intro hfalse
    rw [hfalse] at hdirection
    simp only [Bool.false_eq_true, if_false] at hdirection
    rw [hlength, Walk.absDiff]
    omega
  have hmem : ∀ (i : Nat) (a : α), chunk[i]? = some a → Walk.toward stream.ascending height i ∈
      Walk.walk height (stream.chunkEnd height) := by
    intro i a hi
    have hi := (List.getElem?_eq_some_iff.mp hi).1
    rw [← chunkHeights_eq htoward hlt]
    exact List.mem_map.mpr ⟨i, List.mem_range.mpr (by omega), rfl⟩
  -- a chunk does not cross the durable tip: it is from the index or from the head
  by_cases hdurable : stream.durable height = true
  · obtain ⟨tip, htip, hle⟩ := durable_iff.mp hdurable
    apply piece_of_views (fun n => chain[n]?)
    · intro n r hr
      exact hrep.connected.height_eq hr
    · intro n a b ha hb
      obtain ⟨hlt, rfl⟩ := List.getElem?_eq_some_iff.mp hb
      obtain ⟨-, rfl⟩ := List.getElem?_eq_some_iff.mp ha
      exact (List.isChain_iff_getElem.mp hrep.connected.isChain n hlt).2
    · exact hdown
    · intro i a hi
      have hblock := hblocks i a hi
      rw [ServingSnapshot.block, if_pos ⟨tip, htip, (hside tip htip _ (hmem i a hi)).mpr hle⟩]
        at hblock
      exact hrep.of_view hblock
  · apply piece_of_views stream.snapshot.volatile
    · intro n r hr
      exact ServingSnapshot.volatile_height hr
    · intro n a b ha hb
      exact hconsistent.volatile_link ha hb
    · exact hdown
    · intro i a hi
      have hblock := hblocks i a hi
      have hnot : ¬ ∃ tip ∈ stream.snapshot.durableTip,
          Walk.toward stream.ascending height i ≤ tip.height := by
        intro hand
        obtain ⟨tip, htip, hle⟩ := hand
        exact hdurable (durable_iff.mpr ⟨tip, htip, (hside tip htip _ (hmem i a hi)).mp hle⟩)
      rw [ServingSnapshot.block, if_neg hnot, map_eq_ok] at hblock
      obtain ⟨r, hr, rfl⟩ := hblock
      exact ⟨r, okOr_eq_ok.mp hr, isView_fromRecord r⟩

end

/-! ## Turns -/

/-- The stream gives nothing more. -/
def Stopped (stream : RangeStream α) : Prop := stream.records = [] ∧ stream.cursor = none

section

variable [StoredBlock α] {snapshot : ServingSnapshot} {start finish : Nat}
  {Got : Nat → α → Prop} {sent : List α} {project : α → Except Status β} {s : Store ν}

/-- The stream has sent the records `sent` of its range, and holds those that follow.
    `Got` says what was read at a height. -/
structure Progress (snapshot : ServingSnapshot) (start finish : Nat) (Got : Nat → α → Prop)
    (stream : RangeStream α) (sent : List α) : Prop where
  snapshot_eq : stream.snapshot = snapshot
  finish_eq : stream.finish = finish
  ascending_eq : stream.ascending = decide (start ≤ finish)
  piece : Piece (decide (start ≤ finish)) start (sent ++ stream.records)
  got : ∀ (i : Nat) (a : α), (sent ++ stream.records)[i]? = some a →
    Got (Walk.toward (decide (start ≤ finish)) start i) a
  length_le : (sent ++ stream.records).length ≤ Walk.absDiff start finish + 1
  cursor_eq : stream.cursor =
    if (sent ++ stream.records).length = Walk.absDiff start finish + 1 then none
    else some (Walk.toward (decide (start ≤ finish)) start (sent ++ stream.records).length)
  last_eq : stream.last =
    sent.getLast?.map fun a => (StoredBlock.hash a, StoredBlock.previousHash a)

/-- Why a turn gives an error: the item of a record, a chunk that cannot be read, or
    one that does not continue what was sent. -/
inductive Cause (project : α → Except Status β) (s : Store ν) (Got : Nat → α → Prop)
    (stream : RangeStream α) (sent : List α) (start finish : Nat) (e : Status) : Prop where
  | project {a : α} : sent.length ≤ Walk.absDiff start finish →
      Got (Walk.toward (decide (start ≤ finish)) start sent.length) a →
      project a = .error e → Cause project s Got stream sent start finish e
  | read {height : Nat} {error : IndexError} :
      stream.records = [] → stream.cursor = some height →
      stream.readChunk s height (stream.chunkEnd height) = .error error →
      Cause project s Got stream sent start finish e
  | link {height : Nat} {chunk : List α} {first : α} :
      stream.records = [] → stream.cursor = some height →
      stream.readChunk s height (stream.chunkEnd height) = .ok chunk →
      chunk.head? = some first → ¬ stream.Continues first →
      Cause project s Got stream sent start finish e

/-! ### The cases of a turn -/

theorem turn_send {a : α} {rest : List α} {b : β} (hrecords : stream.records = a :: rest)
    (hproject : project a = .ok b) :
    stream.turn project s = (.item (some (.ok b)),
      { stream with
        records := rest
        last := some (StoredBlock.hash a, StoredBlock.previousHash a) }) := by
  simp only [turn, hrecords, hproject]

theorem turn_refuse {a : α} {rest : List α} {e : Status} (hrecords : stream.records = a :: rest)
    (hproject : project a = .error e) :
    stream.turn project s = (.item (some (.error e)),
      { stream with
        records := []
        cursor := none
        last := some (StoredBlock.hash a, StoredBlock.previousHash a) }) := by
  simp only [turn, hrecords, hproject]

theorem Stopped.turn (h : stream.Stopped) : stream.turn project s = (.item none, stream) := by
  simp only [RangeStream.turn, h.1, h.2]

theorem turn_fail {e : IndexError} (hrecords : stream.records = [])
    (hcursor : stream.cursor = some height)
    (hread : stream.readChunk s height (stream.chunkEnd height) = .error e) :
    stream.turn project s =
      (.item (some (.error (stream.chunkStatus height e))), { stream with cursor := none }) := by
  simp only [turn, hrecords, hcursor, hread]

theorem turn_hold {first : α} {rest : List α} (hrecords : stream.records = [])
    (hcursor : stream.cursor = some height)
    (hread : stream.readChunk s height (stream.chunkEnd height) = .ok (first :: rest))
    (hcontinues : stream.Continues first) :
    stream.turn project s = (.again,
      { stream with
        cursor := stream.nextCursor (stream.chunkEnd height), records := first :: rest }) := by
  simp only [turn, hrecords, hcursor, hread, List.head?_cons, Option.filter_some, hcontinues,
    not_true_eq_false, decide_false, Bool.false_eq_true, if_false]

theorem turn_break {first : α} {rest : List α} (hrecords : stream.records = [])
    (hcursor : stream.cursor = some height)
    (hread : stream.readChunk s height (stream.chunkEnd height) = .ok (first :: rest))
    (hcontinues : ¬ stream.Continues first) :
    stream.turn project s =
      (.item (some (.error (reorganized (StoredBlock.height first).val))),
        { stream with cursor := none }) := by
  simp only [turn, hrecords, hcursor, hread, List.head?_cons, Option.filter_some, hcontinues,
    not_false_eq_true, decide_true, if_true]

namespace Progress

variable (h : Progress snapshot start finish Got stream sent)

include h

/-- The cursor is on the way to the end of the range. -/
theorem toward (hcursor : stream.cursor = some height) :
    height = Walk.toward (decide (start ≤ finish)) start (sent ++ stream.records).length ∧
      (sent ++ stream.records).length ≤ Walk.absDiff start finish ∧ stream.Toward height := by
  have hle := h.length_le
  rw [h.cursor_eq] at hcursor
  split at hcursor
  · cases hcursor
  · cases hcursor
    refine ⟨rfl, by omega, ?_⟩
    rw [Toward, h.ascending_eq, h.finish_eq]
    unfold Walk.toward Walk.absDiff at *
    simp only [decide_eq_true_eq]
    split <;> omega

theorem send {a : α} {rest : List α} (hrecords : stream.records = a :: rest) :
    Progress snapshot start finish Got
      { stream with
        records := rest
        last := some (StoredBlock.hash a, StoredBlock.previousHash a) } (sent ++ [a]) := by
  have happend : sent ++ stream.records = sent ++ [a] ++ rest := by
    rw [hrecords, List.append_assoc]
    rfl
  have hpiece := h.piece
  have hgot := h.got
  have hle := h.length_le
  have hcursor := h.cursor_eq
  rw [happend] at hpiece hgot hle hcursor
  refine ⟨h.snapshot_eq, h.finish_eq, h.ascending_eq, hpiece, hgot, hle, hcursor, ?_⟩
  rw [List.getLast?_append_of_ne_nil _ (List.cons_ne_nil a [])]
  rfl

/-- A chunk that continues what was sent is held, and the cursor is above it. -/
theorem hold {chunk : List α} (hstart : start < 2 ^ 32) (hfinish : finish < 2 ^ 32)
    (hrecords : stream.records = []) (hcursor : stream.cursor = some height)
    (hlength : chunk.length = Walk.absDiff height (stream.chunkEnd height) + 1)
    (hpiece : Piece stream.ascending height chunk) (hgot : ∀ (i : Nat) (a : α), chunk[i]? = some a →
      Got (Walk.toward stream.ascending height i) a)
    (hcontinues : ∀ first ∈ chunk.head?, stream.Continues first) :
    Progress snapshot start finish Got
      { stream with
        cursor := stream.nextCursor (stream.chunkEnd height), records := chunk } sent := by
  obtain ⟨hheight, hle, htoward⟩ := h.toward hcursor
  have hsent := h.piece
  have hsentGot := h.got
  rw [hrecords, List.append_nil] at hheight hle hsent hsentGot
  have hlt : height < 2 ^ 32 := by
    rw [hheight]
    unfold Walk.toward
    unfold Walk.absDiff at hle
    simp only [decide_eq_true_eq]
    split <;> omega
  obtain ⟨hdirection, hend, -⟩ := chunkEnd_spec htoward hlt
  rw [h.ascending_eq] at hdirection hpiece hgot
  rw [h.finish_eq] at hend
  rw [Toward, h.ascending_eq, h.finish_eq] at htoward
  generalize stream.chunkEnd height = chunkEnd at hdirection hend hlength
  have hsteps := Walk.toward_add hle (hheight ▸ hdirection) (hheight ▸ hend)
  refine ⟨h.snapshot_eq, h.finish_eq, h.ascending_eq, ?_, ?_, ?_, ?_, h.last_eq⟩
  · refine hsent.append (hheight ▸ hpiece) ?_
    intro a ha b hb
    have hids := hcontinues b hb (StoredBlock.hash a, StoredBlock.previousHash a) (by
      rw [h.last_eq, Option.mem_def.mp ha]
      rfl)
    rw [h.ascending_eq] at hids
    exact hids
  · intro i a hi
    rw [List.getElem?_append] at hi
    split at hi
    · exact hsentGot i a hi
    · have hchunk := hgot _ a hi
      rw [hheight] at hchunk
      rw [show Walk.toward (decide (start ≤ finish)) start i =
          Walk.toward (decide (start ≤ finish)) (Walk.toward (decide (start ≤ finish)) start
            sent.length) (i - sent.length) by
        unfold Walk.toward
        split <;> omega]
      exact hchunk
  · show (sent ++ chunk).length ≤ _
    rw [List.length_append, hlength, hheight]
    by_cases heq : chunkEnd = finish
    · exact (hsteps.1 heq).le
    · exact (hsteps.2 heq).1.trans (Nat.le_succ _)
  · show stream.nextCursor chunkEnd = if (sent ++ chunk).length = _ then _ else _
    rw [List.length_append, hlength, hheight, nextCursor, h.finish_eq, h.ascending_eq]
    by_cases heq : chunkEnd = finish
    · rw [if_neg (not_not.mpr heq), if_pos (hsteps.1 heq)]
    · obtain ⟨hmore, hnext⟩ := hsteps.2 heq
      have hne : sent.length + (Walk.absDiff (Walk.toward (decide (start ≤ finish)) start
          sent.length) chunkEnd + 1) ≠ Walk.absDiff start finish + 1 := by omega
      rw [if_pos heq, if_neg hne, hnext]
      -- a cursor before the end of the range does not wrap
      have hbefore := hend.resolve_left heq
      unfold Walk.Before at hbefore
      refine congrArg some ?_
      by_cases hup : start ≤ finish
      · simp only [hup, decide_true, if_true, Walk.toward] at hdirection htoward ⊢
        omega
      · simp only [hup, decide_false, Bool.false_eq_true, if_false, Walk.toward]
          at hdirection htoward ⊢
        omega

/-- What a turn does: it sends a record, it stops with an error, it finds the end, or it
    reads a chunk. `hchunks` says what a chunk that was read holds. -/
theorem turn (hstart : start < 2 ^ 32) (hfinish : finish < 2 ^ 32)
    (project : α → Except Status β) (s : Store ν)
    (hchunks : ∀ height chunk, stream.cursor = some height →
      stream.readChunk s height (stream.chunkEnd height) = .ok chunk →
      chunk.length = Walk.absDiff height (stream.chunkEnd height) + 1 ∧
        Piece stream.ascending height chunk ∧
        ∀ (i : Nat) (a : α), chunk[i]? = some a → Got (Walk.toward stream.ascending height i) a) :
    (∃ a b stream', stream.turn project s = (.item (some (.ok b)), stream') ∧
      project a = .ok b ∧ Progress snapshot start finish Got stream' (sent ++ [a])) ∨
    (∃ e stream', stream.turn project s = (.item (some (.error e)), stream') ∧
      stream'.Stopped ∧ Cause project s Got stream sent start finish e) ∨
    (stream.turn project s = (.item none, stream) ∧ stream.Stopped ∧
      sent.length = Walk.absDiff start finish + 1) ∨
    (∃ stream', stream.turn project s = (.again, stream') ∧ stream'.records ≠ [] ∧
      Progress snapshot start finish Got stream' sent) := by
  -- a held record is sent; without one the next chunk is read and compared with the last
  cases hrecords : stream.records with
  | cons a rest =>
    have hgot : Got (Walk.toward (decide (start ≤ finish)) start sent.length) a := by
      refine h.got sent.length a ?_
      rw [hrecords, List.getElem?_append_right le_rfl, Nat.sub_self]
      rfl
    have hle : sent.length ≤ Walk.absDiff start finish := by
      have hle := h.length_le
      rw [hrecords, List.length_append, List.length_cons] at hle
      omega
    cases hproject : project a with
    | ok b => exact .inl ⟨a, b, _, turn_send hrecords hproject, hproject, h.send hrecords⟩
    | error e =>
      exact .inr (.inl ⟨e, _, turn_refuse hrecords hproject, ⟨rfl, rfl⟩,
        .project hle hgot hproject⟩)
  | nil =>
    cases hcursor : stream.cursor with
    | none =>
      have hstopped : stream.Stopped := ⟨hrecords, hcursor⟩
      refine .inr (.inr (.inl ⟨hstopped.turn, hstopped, ?_⟩))
      have hnone := h.cursor_eq
      rw [hcursor, hrecords, List.append_nil] at hnone
      by_contra hne
      rw [if_neg hne] at hnone
      cases hnone
    | some height =>
      cases hread : stream.readChunk s height (stream.chunkEnd height) with
      | error e =>
        exact .inr (.inl ⟨_, _, turn_fail hrecords hcursor hread, ⟨hrecords, rfl⟩,
          .read hrecords hcursor hread⟩)
      | ok chunk =>
        obtain ⟨hlength, hpiece, hgot⟩ := hchunks height chunk hcursor hread
        obtain ⟨first, rest, rfl⟩ : ∃ first rest, chunk = first :: rest :=
          List.exists_cons_of_length_pos (by omega)
        by_cases hcontinues : stream.Continues first
        · refine .inr (.inr (.inr ⟨_, turn_hold hrecords hcursor hread hcontinues,
            List.cons_ne_nil _ _, ?_⟩))
          refine h.hold hstart hfinish hrecords hcursor hlength hpiece hgot ?_
          intro first' hfirst'
          obtain rfl : first = first' := by simpa using hfirst'
          exact hcontinues
        · exact .inr (.inl ⟨_, _, turn_break hrecords hcursor hread hcontinues, ⟨hrecords, rfl⟩,
            .link hrecords hcursor hread rfl hcontinues⟩)

end Progress

/-- What the chunks hold that a stream reads from the index `s`. -/
def Chunks (snapshot : ServingSnapshot) (start finish : Nat) (Got : Nat → α → Prop)
    (s : Store ν) : Prop :=
  ∀ (stream : RangeStream α) (sent : List α), Progress snapshot start finish Got stream sent →
    ∀ height chunk, stream.cursor = some height →
      stream.readChunk s height (stream.chunkEnd height) = .ok chunk →
      chunk.length = Walk.absDiff height (stream.chunkEnd height) + 1 ∧
        Piece stream.ascending height chunk ∧
        ∀ (i : Nat) (a : α), chunk[i]? = some a → Got (Walk.toward stream.ascending height i) a

section

variable (h : Progress snapshot start finish Got stream sent) (hstart : start < 2 ^ 32)
  (hfinish : finish < 2 ^ 32) (hchunks : Chunks snapshot start finish Got s)

include h hstart hfinish hchunks

theorem Progress.poll {item : Option (Except Status β)} {stream' : RangeStream α}
    (hpoll : Polls project s stream item stream') :
    (∃ a b, item = some (.ok b) ∧ project a = .ok b ∧
      Progress snapshot start finish Got stream' (sent ++ [a])) ∨
    (∃ e stream₁, item = some (.error e) ∧ stream'.Stopped ∧
      Progress snapshot start finish Got stream₁ sent ∧
      Cause project s Got stream₁ sent start finish e) ∨
    (item = none ∧ stream'.Stopped ∧ sent.length = Walk.absDiff start finish + 1 ∧
      Progress snapshot start finish Got stream' sent) := by
  induction hpoll with
  | @item stream stream' item hturn =>
    have hcases := h.turn hstart hfinish project s (hchunks _ _ h)
    rw [hturn] at hcases
    rcases hcases with ⟨a, b, _, heq, hproject, hnext⟩ | ⟨e, _, heq, hstopped, hcause⟩ |
      ⟨heq, hstopped, hlen⟩ | ⟨_, heq, -⟩ <;> cases heq
    · exact .inl ⟨a, b, rfl, hproject, hnext⟩
    · exact .inr (.inl ⟨e, stream, rfl, hstopped, h, hcause⟩)
    · exact .inr (.inr ⟨rfl, hstopped, hlen, h⟩)
  | again hturn _ ih =>
    have hcases := h.turn hstart hfinish project s (hchunks _ _ h)
    rw [hturn] at hcases
    rcases hcases with ⟨_, _, _, heq, -⟩ | ⟨_, _, heq, -⟩ | ⟨heq, -⟩ | ⟨_, heq, -, hnext⟩ <;>
      cases heq
    exact ih hnext

end

theorem chunks_of_represents [Proto.Prost] [LawfulStoredBlock α] {st : IndexState}
    {chain : List CompactBlockRecord} (hrep : Represents .any s st chain)
    (hconsistent : snapshot.Consistent) (hstart : start < 2 ^ 32) (hfinish : finish < 2 ^ 32)
    (hgot : ∀ n a, snapshot.block α s st n = .ok a → Got n a) :
    Chunks snapshot start finish Got s := by
  intro stream sent h height chunk hcursor hread
  obtain ⟨hheight, hle, htoward⟩ := h.toward hcursor
  have hlt : height < 2 ^ 32 := by
    rw [hheight]
    generalize (sent ++ stream.records).length = k at hle
    unfold Walk.absDiff at hle
    simp only [Walk.toward, decide_eq_true_eq]
    split <;> omega
  obtain ⟨hlength, hblocks⟩ :=
    readChunk_eq_ok hrep.state hrep.holds.sealed_aligned htoward hlt hread
  refine ⟨hlength, readChunk_piece hrep (h.snapshot_eq ▸ hconsistent) htoward hlt hread, ?_⟩
  intro i a hi
  have hblock := hblocks i a hi
  rw [h.snapshot_eq] at hblock
  exact hgot _ a hblock

end

end RangeStream

end Ztreamer
