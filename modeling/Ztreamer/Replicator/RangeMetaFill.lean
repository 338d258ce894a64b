import Ztreamer.Backend.State
import Ztreamer.Index.Answers
import Ztreamer.Index.Provenance
import Ztreamer.Index.Rows
import Ztreamer.Lib.Atomic
import Ztreamer.Snapshot.Manifest

/-! # The range metadata filler

    A background task writes a row of `rangeMeta` for each sealed range that has
    none, from the index and from the answers of a node. A pass is a program in
    atomic steps: each is one transaction on the index or one answer of the node.
    The index may be written between two of them.

    * `pass`, `fillMissing`, `fill`: one pass,
    * `FillSystem`: the loop of passes, next to a node and the writers of the index,
    * `pass_leaves_no_gap_iff`: when a pass leaves a row for every sealed range.
-/

namespace Ztreamer

open Octets Result Connected Atomic Relation

variable {ν : Type}

/-! ## Reads of the index -/

/-- The blob of the sealed range that starts at `start`. -/
def Store.sealedRange (s : Store ν) (start : Nat) : Except IndexError (Option Bytes) := do
  ensure (start = rangeStart start) (.rangeStart start)
  return s.sealedRanges[start]?

namespace RangeMetaFiller

/-- Why a pass stopped. -/
inductive FillError where
  | index (error : IndexError)
  | codec (error : CodecError)
  | backend (error : BackendError)
  /-- A sealed range is not in the index now. -/
  | replaced (start : Nat)
  deriving DecidableEq

/-- What a pass works on. -/
structure World (ν : Type) where
  index : Store ν
  node : StateBackend ν
  /-- The seconds of the system time. -/
  now : U64

abbrev Fill (ν α : Type) : Type := Prog (World ν) FillError α

/-! ## Epochs -/

/-- The ranges of the open epoch, and the commitments before its first range. -/
structure Epoch where
  ranges : Nat := 0
  startCommitments : Nat := 0
  deriving DecidableEq

/-- The next range closes the epoch, with the tree sizes at the end of that range. -/
def Epoch.closesAt (epoch : Epoch) (endTreeSizes : TreeSizes) : Bool :=
  Manifest.Epoch.ruleCloses (epoch.ranges + 1) (endTreeSizes.total - epoch.startCommitments)

/-- Adds the next range, with the flag and the tree sizes of its row. -/
def Epoch.advance (epoch : Epoch) (epochEnd : Bool) (endTreeSizes : TreeSizes) : Epoch :=
  if epochEnd then { ranges := 0, startCommitments := endTreeSizes.total }
  else { epoch with ranges := epoch.ranges + 1 }

/-! ## Slots -/

/-- A sealed range as a scan finds it: `epochEnd` and `endTreeSizes` of its row, or
    `none` when it has no row. -/
structure Slot where
  start : Nat
  row : Option (Bool × TreeSizes)
  deriving DecidableEq

/-- The starts of the sealed ranges through `sealedThrough`, in ascending order. -/
def sealedStarts (sealedThrough : Nat) : List Nat :=
  (List.range (sealedThrough / rangeSize + 1)).map (· * rangeSize)

def Slot.of (s : Store ν) (start : Nat) : Slot where
  start
  row := s.rangeMeta[start]?.map fun info => (info.entry.epochEnd, info.entry.endTreeSizes)

/-- Each sealed range through `sealedThrough`, in one transaction. -/
def Slot.scan (s : Store ν) (sealedThrough : Option Nat) : Except IndexError (List Slot) :=
  match sealedThrough with
  | none => .ok []
  | some sealedThrough => do
    let _ ← s.getState
    return (sealedStarts sealedThrough).map (Slot.of s)

/-! ## The read of a range -/

/-- What the index gives for the row of one range. The last record and the digest come
    from the same blob. -/
structure RangeRead where
  start : Nat
  startTreeSizes : TreeSizes
  last : CompactBlockRecord
  blobDigest : BlobDigest
  blobLen : U64

variable [Proto.Prost] [Blake3]

/-- The blob of the range in the current generation, and its last record. -/
def RangeRead.blob (s : Store ν) (start : Nat) : Except FillError (Bytes × CompactBlockRecord) := do
  let _ ← okMapError s.getState .index
  let found ← okMapError (s.sealedRange start) .index
  let blob ← okOr found (.replaced start)
  let last ← okMapError (RangeDecoder.decodeRangeRecord blob (rangeSize - 1)) .codec
  return (blob, last)

/-- The record at `height` in the current generation. -/
def RangeRead.record (s : Store ν) (height : Nat) : Except FillError CompactBlockRecord := do
  let st ← okMapError s.getState .index
  okMapError (s.read CompactBlockRecord st height) .index

/-- The tree sizes before the first block of the range. -/
def RangeRead.sizesBefore (start : Nat) : Fill ν TreeSizes :=
  if start = 0 then pure default
  else do
    let record ← Prog.read fun w => RangeRead.record w.index (start - 1)
    return record.endTreeSizes

/-- The blob and the record before the range come from two transactions. -/
def RangeRead.read (start : Nat) : Fill ν RangeRead := do
  let (blob, last) ← Prog.read fun w => RangeRead.blob w.index start
  let startTreeSizes ← RangeRead.sizesBefore start
  return {
    start, startTreeSizes, last
    blobDigest := Blake3.hash blob
    blobLen := Fin.ofNat _ blob.length }

/-! ## Subtree roots -/

/-- The subtrees of one pool that complete between two tree sizes. -/
structure SubtreeSpan where
  first : U16
  count : U16

/-- The index of the subtree that holds the next commitment. -/
def SubtreeSpan.index (size : U32) : Nat := size.val / 2 ^ 16

def SubtreeSpan.between (before after : U32) : Option SubtreeSpan :=
  if index after > index before then
    some ⟨Fin.ofNat _ (index before), Fin.ofNat _ (index after - index before)⟩
  else none

/-- The subtrees of the answer that end inside the range. -/
def SubtreeSpan.roots (pool : Pool) (start finish : Nat) (subtrees : Subtrees ν) :
    List (SubtreeRoot ν) :=
  (subtrees.filter fun (_, subtree) => start ≤ subtree.endHeight ∧ subtree.endHeight ≤ finish).map
    fun (index, subtree) => ⟨index, ⟨pool, subtree.root⟩⟩

/-- The roots of one pool. The node is asked only if a subtree completes. -/
def poolSubtreeRoots (pool : Pool) (read : RangeRead) (before after : U32) :
    Fill ν (List (SubtreeRoot ν)) :=
  match SubtreeSpan.between before after with
  | none => pure []
  | some span => do
    let subtrees ← Prog.read fun w =>
      okMapError (w.node.subtrees pool span.first (some span.count)) .backend
    return SubtreeSpan.roots pool read.start read.last.height.val subtrees

/-- The roots of the subtrees that end inside the range, pool by pool. -/
def subtreeRoots (read : RangeRead) : Fill ν (List (SubtreeRoot ν)) := do
  let before := read.startTreeSizes
  let after := read.last.endTreeSizes
  let sapling ← poolSubtreeRoots .sapling read before.sapling after.sapling
  let orchard ← poolSubtreeRoots .orchard read before.orchard after.orchard
  let ironwood ← poolSubtreeRoots .ironwood read before.ironwood after.ironwood
  return sapling ++ orchard ++ ironwood

/-! ## A pass -/

/-- The row of a range, from what the index and the node gave for it. -/
def rowOf (verifiedBy : NodeId) (read : RangeRead) (trees : TreeState ν)
    (subtreeRoots : List (SubtreeRoot ν)) (epoch : Epoch) (now : U64) : RangeMeta ν where
  entry := {
    rangeVersion := rangeFormatVersion
    startHeight := Fin.ofNat _ read.start
    endHeight := read.last.height
    endHash := read.last.hash
    endTreeSizes := read.last.endTreeSizes
    frontiers := trees.frontiers
    subtreeRoots
    blobDigest := read.blobDigest
    blobLen := read.blobLen
    epochEnd := epoch.closesAt read.last.endTreeSizes }
  state := .verified
  verifiedBy := some verifiedBy
  verifiedAt := some now
  attested := some { endHash := read.last.hash, roots := trees.poolRoots, subtreeRoots }
  sampledHeights := []

/-- The error of a refused row. A range end with another hash was replaced. -/
def putError (start : Nat) : IndexError → FillError
  | .rangeEndHash _ => .replaced start
  | error => .index error

/-- Writes the row in one transaction. -/
def put (start : Nat) (info : RangeMeta ν) : Fill ν (RangeMeta ν) :=
  Prog.write fun w => do
    let index ← okMapError (w.index.putRangeMeta start info) (putError start)
    return ({ w with index }, info)

/-- Builds and writes the row of the range at `start`. `epoch` is the epoch before it. -/
def fill (verifiedBy : NodeId) (start : Nat) (epoch : Epoch) : Fill ν (RangeMeta ν) := do
  let read ← RangeRead.read start
  let trees ← Prog.read fun w => okMapError (w.node.treeState read.last.hash) .backend
  let subtreeRoots ← subtreeRoots read
  let now ← Prog.read fun w => .ok w.now
  put start (rowOf verifiedBy read trees subtreeRoots epoch now)

/-- Fills the slots in order. The epoch advances with each row, found or written. -/
def fillSlots (verifiedBy : NodeId) : List Slot → Epoch → Fill ν Unit
  | [], _ => pure ()
  | slot :: slots, epoch =>
    match slot.row with
    | some (epochEnd, endTreeSizes) =>
      fillSlots verifiedBy slots (epoch.advance epochEnd endTreeSizes)
    | none => do
      let info ← fill verifiedBy slot.start epoch
      fillSlots verifiedBy slots (epoch.advance info.entry.epochEnd info.entry.endTreeSizes)

/-- Fills the missing rows through `sealedThrough`. -/
def fillMissing (verifiedBy : NodeId) (sealedThrough : Option Nat) : Fill ν Unit := do
  let slots ← Prog.read fun w => okMapError (Slot.scan w.index sealedThrough) .index
  fillSlots verifiedBy slots {}

/-- Fills the missing rows if `sealedThrough` is not `covered`, and gives the
    `sealedThrough` that the pass covered. -/
def pass (verifiedBy : NodeId) (covered : Option (Option Nat)) : Fill ν (Option Nat) := do
  let st ← Prog.read fun w => okMapError w.index.getState .index
  if covered = some st.sealedThrough then return st.sealedThrough
  else do
    fillMissing verifiedBy st.sealedThrough
    return st.sealedThrough

/-! ## What the parts of a pass establish -/

section

variable {Rely Guar : World ν → World ν → Prop} {w : World ν} {start : Nat} {verifiedBy : NodeId}

/-- The read took its blob from the index that the others left at some time. -/
def ReadFrom (Rely : World ν → World ν → Prop) (w : World ν) (start : Nat) (read : RangeRead) :
    Prop :=
  ∃ w₁ blob, Rely w w₁ ∧ RangeRead.blob w₁.index start = .ok (blob, read.last) ∧
    read.start = start ∧ read.blobDigest = Blake3.hash blob ∧
    read.blobLen = Fin.ofNat _ blob.length

omit [Blake3] in
theorem readOnly_sizesBefore (start : Nat) : (RangeRead.sizesBefore start : Fill ν _).ReadOnly := by
  unfold RangeRead.sizesBefore
  split
  · exact Prog.readOnly_pure _
  · exact (Prog.readOnly_read _).bind fun _ => Prog.readOnly_pure _

omit [Proto.Prost] [Blake3] in
theorem readOnly_poolSubtreeRoots (pool : Pool) (read : RangeRead) (before after : U32) :
    (poolSubtreeRoots pool read before after : Fill ν _).ReadOnly := by
  unfold poolSubtreeRoots
  split
  · exact Prog.readOnly_pure _
  · exact (Prog.readOnly_read _).bind fun _ => Prog.readOnly_pure _

omit [Proto.Prost] [Blake3] in
theorem readOnly_subtreeRoots (read : RangeRead) : (subtreeRoots read : Fill ν _).ReadOnly :=
  (readOnly_poolSubtreeRoots _ _ _ _).bind fun _ =>
    (readOnly_poolSubtreeRoots _ _ _ _).bind fun _ =>
      (readOnly_poolSubtreeRoots _ _ _ _).bind fun _ => Prog.readOnly_pure _

/-- The row that is written has the last record, the digest and the length of a blob
    that was in the index, and the trees that the node gave for that record. -/
theorem wp_fill (henv : Prog.Interference Rely Guar) {epoch : Epoch}
    {Q : RangeMeta ν → World ν → Prop}
    (hput : ∀ read trees roots now w', ReadFrom Rely w start read →
      (∃ w₂, Rely w w₂ ∧ w₂.node.treeState read.last.hash = .ok trees) → Rely w w' →
      (put start (rowOf verifiedBy read trees roots epoch now)).wp Rely Guar Q w') :
    (fill verifiedBy start epoch).wp Rely Guar Q w := by
  unfold fill RangeRead.read
  refine Prog.wp_bind _ (Prog.wp_bind _ (Prog.wp_read henv fun w₁ h₁ => ?_))
  intro (blob, last) hblob
  refine Prog.wp_bind _ ((readOnly_sizesBefore start).wp henv fun sizes w₂ h₂ => ?_)
  have h₂ : Rely w w₂ := h₂.elim (· ▸ h₁) (henv.trans h₁)
  apply Prog.wp_pure
  refine Prog.wp_bind _ (Prog.wp_read henv fun w₃ h₃ trees htrees => ?_)
  have h₃ := henv.trans h₂ h₃
  refine Prog.wp_bind _ ((readOnly_subtreeRoots _).wp henv fun roots w₄ h₄ => ?_)
  have h₄ : Rely w w₄ := h₄.elim (· ▸ h₃) (henv.trans h₃)
  refine Prog.wp_bind _ (Prog.wp_read henv fun w₅ h₅ now _ => ?_)
  exact hput _ trees roots now w₅ ⟨w₁, blob, h₁, hblob, rfl, rfl, rfl⟩
    ⟨w₃, h₃, okMapError_eq_ok.mp htrees⟩ (henv.trans h₄ h₅)

end

/-! ## A pass with no other write -/

/-- The others do not write to the index. -/
def World.SameIndex (w w' : World ν) : Prop := w'.index = w.index

/-- Every range through the height has a row. -/
def RowsThrough (s : Store ν) (through : Option Nat) : Prop :=
  ∀ last ∈ through, ∀ start ∈ sealedStarts last, s.rangeMeta[start]?.isSome

/-- Only rows of metadata are new. -/
structure Grows (s s' : Store ν) : Prop where
  state : s'.state = s.state
  sealedRanges : s'.sealedRanges = s.sealedRanges
  rangeMeta : ∀ start : Nat, s.rangeMeta[start]?.isSome → s'.rangeMeta[start]?.isSome

section

variable {w : World ν} {verifiedBy : NodeId}

omit [Proto.Prost] [Blake3]

theorem Grows.refl (s : Store ν) : Grows s s := ⟨rfl, rfl, fun _ h => h⟩

theorem Grows.trans {s₁ s₂ s₃ : Store ν} (h : Grows s₁ s₂) (h' : Grows s₂ s₃) : Grows s₁ s₃ :=
  ⟨h'.state.trans h.state, h'.sealedRanges.trans h.sealedRanges,
    fun start hrow => h'.rangeMeta start (h.rangeMeta start hrow)⟩

/-- A row that is written is there, next to the other rows. -/
theorem putRangeMeta_grows {s s' : Store ν} {start : Nat} {info : RangeMeta ν}
    (h : s.putRangeMeta start info = .ok s') :
    Grows s s' ∧ s'.rangeMeta[start]? = some info := by
  obtain rfl := Store.putRangeMeta_eq h
  refine ⟨⟨rfl, rfl, fun key hrow => ?_⟩, by simp⟩
  show (s.rangeMeta.insert start info)[key]?.isSome
  rw [Table.get_put]
  split
  · rfl
  · exact hrow

theorem wp_put {Rely Guar : World ν → World ν → Prop} {Q : RangeMeta ν → World ν → Prop}
    {start : Nat} {info : RangeMeta ν} (henv : Prog.Interference Rely Guar)
    (h : ∀ w' index, Rely w w' → w'.index.putRangeMeta start info = .ok index →
      Guar w' { w' with index } ∧ Q info { w' with index }) :
    (put start info).wp Rely Guar Q w := by
  apply Prog.wp_write henv
  intro w' hrely w₁ info' hput
  simp only [bind_eq_ok, okMapError_eq_ok, pure_eq_ok, Except.ok.injEq, Prod.mk.injEq] at hput
  obtain ⟨index, hput, rfl, rfl⟩ := hput
  exact h w' index hrely hput

theorem mem_sealedStarts {through start : Nat} :
    start ∈ sealedStarts through ↔ start % rangeSize = 0 ∧ start ≤ through := by
  simp only [sealedStarts, List.mem_map, List.mem_range, rangeSize]
  constructor
  · rintro ⟨i, hi, heq⟩
    omega
  · rintro ⟨hmod, hle⟩
    exact ⟨start / 1000, by omega, by omega⟩

theorem World.sameIndex_refl (w : World ν) : w.SameIndex w := rfl

theorem sameIndex_interference :
    Prog.Interference (World.SameIndex : World ν → World ν → Prop) fun _ _ => True :=
  ⟨fun h h' => h'.trans h, fun _ => trivial⟩

/-- Every slot has a row in the end. -/
theorem wp_fillSlots [Proto.Prost] [Blake3] (slots : List Slot) (epoch : Epoch)
    (hrows : ∀ slot ∈ slots, slot.row.isSome → w.index.rangeMeta[slot.start]?.isSome) :
    (fillSlots verifiedBy slots epoch).wp World.SameIndex (fun _ _ => True)
      (fun _ w' => Grows w.index w'.index ∧
        ∀ slot ∈ slots, w'.index.rangeMeta[slot.start]?.isSome) w := by
  induction slots generalizing w epoch with
  | nil => exact ⟨Grows.refl _, by simp⟩
  | cons slot slots ih =>
    unfold fillSlots
    split
    next epochEnd sizes hrow =>
      have hslot := hrows slot (by simp) (by simp [hrow])
      refine Prog.wp_mono (ih _ fun slot' hmem => hrows slot' (by simp [hmem])) ?_
      rintro _ w' ⟨hgrows, hall⟩
      exact ⟨hgrows, List.forall_mem_cons.mpr ⟨hgrows.rangeMeta _ hslot, hall⟩⟩
    next hrow =>
      apply Prog.wp_bind
      apply wp_fill sameIndex_interference
      intro read trees roots now w₁ _ _ hsame
      refine wp_put sameIndex_interference fun w₂ index hsame' hput => ⟨trivial, ?_⟩
      obtain ⟨hgrows, hnew⟩ := putRangeMeta_grows hput
      rw [hsame', hsame] at hgrows
      refine Prog.wp_mono (ih _ ?_) ?_
      · intro slot' hmem hsome
        exact hgrows.rangeMeta _ (hrows slot' (by simp [hmem]) hsome)
      · rintro _ w' ⟨hgrows', hall⟩
        refine ⟨hgrows.trans hgrows', List.forall_mem_cons.mpr ⟨?_, hall⟩⟩
        exact hgrows'.rangeMeta _ (by simp [hnew])

/-- The slots of a scan are the rows of the index, one for each start. -/
theorem Slot.scan_eq_ok {s : Store ν} {sealedThrough : Option Nat} {slots : List Slot}
    (h : Slot.scan s sealedThrough = .ok slots) :
    (∀ slot ∈ slots, slot.row.isSome → s.rangeMeta[slot.start]?.isSome) ∧
      ∀ last ∈ sealedThrough, ∀ start ∈ sealedStarts last, ∃ slot ∈ slots, slot.start = start := by
  cases sealedThrough with
  | none =>
    cases h
    exact ⟨by simp, by simp⟩
  | some through =>
    simp only [Slot.scan, bind_eq_ok, pure_eq_ok, Except.ok.injEq] at h
    obtain ⟨_, -, rfl⟩ := h
    constructor
    · intro slot hmem hsome
      obtain ⟨start, -, rfl⟩ := List.mem_map.mp hmem
      simpa [Slot.of] using hsome
    · intro last hlast start hstart
      cases hlast
      exact ⟨Slot.of s start, List.mem_map.mpr ⟨start, hstart, rfl⟩, rfl⟩

/-- A pass that is not covered leaves a row for each range of the state that it read. -/
theorem wp_pass [Proto.Prost] [Blake3] (covered : Option (Option Nat)) :
    (pass verifiedBy covered).wp World.SameIndex (fun _ _ => True)
      (fun through w' => (∃ st, w.index.getState = .ok st ∧ through = st.sealedThrough) ∧
        Grows w.index w'.index ∧
        if covered = some through then w'.index = w.index
        else RowsThrough w'.index through) w := by
  unfold pass
  refine Prog.wp_bind _ (Prog.wp_read sameIndex_interference fun w₁ hsame st hstate => ?_)
  have hstate : w.index.getState = .ok st := by
    rw [← hsame]
    exact okMapError_eq_ok.mp hstate
  by_cases hcovered : covered = some st.sealedThrough
  · rw [if_pos hcovered]
    refine ⟨⟨st, hstate, rfl⟩, hsame ▸ Grows.refl _, ?_⟩
    rw [if_pos hcovered]
    exact hsame
  · rw [if_neg hcovered]
    refine Prog.wp_bind _ (Prog.wp_bind _ (Prog.wp_read sameIndex_interference ?_))
    intro w₂ hsame' slots hscan
    have hsame' : w₂.index = w.index := hsame'.trans hsame
    have hscan := okMapError_eq_ok.mp hscan
    rw [hsame'] at hscan
    obtain ⟨hrows, hstarts⟩ := Slot.scan_eq_ok hscan
    refine Prog.wp_mono (wp_fillSlots slots _ (hsame' ▸ hrows)) ?_
    rintro _ w' ⟨hgrows, hall⟩
    rw [hsame'] at hgrows
    refine ⟨⟨st, hstate, rfl⟩, hgrows, ?_⟩
    rw [if_neg hcovered]
    intro last hlast start hstart
    obtain ⟨slot, hmem, rfl⟩ := hstarts last hlast start hstart
    exact hall slot hmem

end

/-! ## A row that is written alone -/

section

variable {heightOf : HeightOf} {w : World ν} {st : IndexState} {chain : List CompactBlockRecord}
  {verifiedBy : NodeId}

variable {start : Nat} {slots : List Slot} {Rely : World ν → World ν → Prop}

omit [Blake3] in
theorem blob_of_represents (h : Represents heightOf w.index st chain)
    (haligned : start % rangeSize = 0) (hsealed : start < st.sealedEnd) :
    ∃ blob last, RangeRead.blob w.index start = .ok (blob, last) ∧
      chain[start + (rangeSize - 1)]? = some last := by
  obtain ⟨blob, hblob, d, hnew, hrecords⟩ := h.holds.sealed_range start haligned hsealed
  obtain ⟨last, hlast, hrecord⟩ := hrecords (rangeSize - 1) (by decide)
  refine ⟨blob, last, ?_, hlast⟩
  have hstart : start = rangeStart start := by
    rw [rangeStart, haligned, Nat.sub_zero]
  have hdecode : RangeDecoder.decodeRangeRecord blob (rangeSize - 1) = .ok last := by
    rw [RangeDecoder.decodeRangeRecord, hnew]
    exact hrecord
  have hsealedRange : w.index.sealedRange start = .ok (some blob) := by
    rw [Store.sealedRange, ensure_of _ hstart, ok_bind, hblob]
    rfl
  simp only [RangeRead.blob, h.state, hsealedRange, okOr_some, hdecode, okMapError_ok, ok_bind]
  rfl

/-- The tree sizes before the block at a height. -/
def treeSizesBefore (chain : List CompactBlockRecord) (height : Nat) : TreeSizes :=
  (chain.take height).getLast?.elim default (·.endTreeSizes)

omit [Proto.Prost] [Blake3] in
theorem treeSizesBefore_succ {height : Nat} {record : CompactBlockRecord}
    (h : chain[height]? = some record) : treeSizesBefore chain (height + 1) =
    record.endTreeSizes := by
  rw [treeSizesBefore, List.getLast?_take, if_neg (Nat.succ_ne_zero height), Nat.add_sub_cancel, h]
  rfl

omit [Blake3] in
theorem run_sizesBefore (h : Represents heightOf w.index st chain) (hstart : start ≤ chain.length) :
    (RangeRead.sizesBefore start : Fill ν _).run w = (.ok (treeSizesBefore chain start), w) := by
  cases start with
  | zero => rfl
  | succ height =>
    have hget : chain[height]? = some chain[height] := List.getElem?_eq_getElem hstart
    have hrecord : RangeRead.record w.index height = .ok chain[height] := by
      simp only [RangeRead.record, h.state, okMapError_ok, ok_bind, h.read hget]
    rw [RangeRead.sizesBefore, if_neg (Nat.succ_ne_zero height), Nat.add_sub_cancel,
      Prog.run_bind (by rw [Prog.run_read, hrecord]), treeSizesBefore_succ hget]
    rfl

theorem run_read (h : Represents heightOf w.index st chain) (haligned : start % rangeSize = 0)
    (hsealed : start < st.sealedEnd) :
    ∃ read, (RangeRead.read start : Fill ν _).run w = (.ok read, w) ∧ read.start = start ∧
      read.startTreeSizes = treeSizesBefore chain start ∧
      chain[start + (rangeSize - 1)]? = some read.last := by
  obtain ⟨blob, last, hblob, hlast⟩ := blob_of_represents h haligned hsealed
  have hlength := (List.getElem?_eq_some_iff.mp hlast).1
  refine ⟨⟨start, treeSizesBefore chain start, last, Blake3.hash blob, Fin.ofNat _ blob.length⟩,
    ?_, rfl, rfl, hlast⟩
  unfold RangeRead.read
  rw [Prog.run_bind (by rw [Prog.run_read, hblob]), Prog.run_bind (run_sizesBefore h (by omega))]
  rfl

omit [Proto.Prost] [Blake3] in
theorem run_subtreeRoots (hsubtrees : ∀ pool first limit, ∃ subtrees,
    w.node.subtrees pool first limit = .ok subtrees) (read : RangeRead) :
    ∃ roots, (subtreeRoots read : Fill ν _).run w = (.ok roots, w) := by
  have hpool : ∀ pool before after, ∃ roots,
      (poolSubtreeRoots pool read before after : Fill ν _).run w = (.ok roots, w) := by
    intro pool before after
    unfold poolSubtreeRoots
    split
    next => exact ⟨_, rfl⟩
    next span _ =>
      obtain ⟨subtrees, hok⟩ := hsubtrees pool span.first (some span.count)
      rw [Prog.run_bind (by rw [Prog.run_read, hok, okMapError_ok])]
      exact ⟨_, rfl⟩
  obtain ⟨sapling, hsapling⟩ := hpool .sapling read.startTreeSizes.sapling
    read.last.endTreeSizes.sapling
  obtain ⟨orchard, horchard⟩ := hpool .orchard read.startTreeSizes.orchard
    read.last.endTreeSizes.orchard
  obtain ⟨ironwood, hironwood⟩ :=
    hpool .ironwood read.startTreeSizes.ironwood read.last.endTreeSizes.ironwood
  unfold subtreeRoots
  rw [Prog.run_bind hsapling, Prog.run_bind horchard, Prog.run_bind hironwood]
  exact ⟨_, rfl⟩

variable (verifiedBy) in
/-- The filler alone writes the row of a sealed range when the node answers. -/
theorem run_fill (h : Represents heightOf w.index st chain) (hfun : heightOf.Functional)
    (haligned : start % rangeSize = 0) (hsealed : start < st.sealedEnd) {last : CompactBlockRecord}
    (hlast : chain[start + (rangeSize - 1)]? = some last) {trees : TreeState ν}
    (htrees : w.node.treeState last.hash = .ok trees)
    (hsubtrees : ∀ pool first limit, ∃ subtrees, w.node.subtrees pool first limit = .ok subtrees)
    (epoch : Epoch) :
    ∃ (info : RangeMeta ν) (index : Store ν), (fill verifiedBy start epoch).run w =
        (.ok info, { w with index }) ∧ w.index.putRangeMeta start info = .ok index ∧
      info.entry.startHeight.val = start ∧ info.entry.endHeight = last.height ∧
      info.entry.endTreeSizes = last.endTreeSizes ∧
      info.entry.epochEnd = epoch.closesAt last.endTreeSizes := by
  obtain ⟨read, hread, hfrom, -, hlast'⟩ := run_read h haligned hsealed
  obtain rfl : last = read.last := Option.some.inj (hlast.symm.trans hlast')
  have hheight := h.connected.height_eq hlast
  obtain ⟨roots, hroots⟩ := run_subtreeRoots hsubtrees read
  let info := rowOf verifiedBy read trees roots epoch w.now
  have hbelow := read.last.height.isLt
  have hstart : info.entry.startHeight.val = start :=
    hfrom ▸ Nat.mod_eq_of_lt (by omega : read.start < 2 ^ 32)
  have hhash : w.index.hashToHeight[info.entry.endHash]? = some (start + (rangeSize - 1)) :=
    (h.holds.hash_iff hfun _ _).mpr ⟨read.last, hlast, rfl⟩
  have hput : w.index.putRangeMeta start info =
      .ok { w.index with rangeMeta := w.index.rangeMeta.insert start info } := by
    have haligned' : start = rangeStart start := by
      rw [rangeStart, haligned, Nat.sub_zero]
    have hthrough : st.sealedThrough = some (st.sealedEnd - 1) :=
      IndexState.sealedThrough_eq_some_iff.mpr (by omega)
    have hend : start + (rangeSize - 1) ≤ st.sealedEnd - 1 := by
      have := h.holds.sealed_aligned
      simp only [rangeSize] at *
      omega
    rw [Store.putRangeMeta, checkedHeight_eq_ok.mpr ⟨by omega, rfl⟩, ok_bind, h.state, ok_bind,
      ensure_of _ ⟨haligned', hstart, hheight, _, hthrough, hend⟩, ok_bind,
      ensure_of _ hhash, ok_bind]
    rfl
  have hnow : (Prog.read fun w : World ν => .ok w.now : Fill ν U64).run w = (.ok w.now, w) := rfl
  refine ⟨info, _, ?_, hput, hstart, rfl, rfl, rfl⟩
  unfold fill
  rw [Prog.run_bind hread, Prog.run_bind (by rw [Prog.run_read, htrees, okMapError_ok]),
    Prog.run_bind hroots, Prog.run_bind hnow]
  exact Prog.run_write (by rw [hput]; rfl)

variable (verifiedBy) in
/-- The filler alone fills every slot when the node answers. -/
theorem run_fillSlots (h : Represents heightOf w.index st chain) (hfun : heightOf.Functional)
    (htrees : ∀ r ∈ chain, ∃ trees, w.node.treeState r.hash = .ok trees)
    (hsubtrees : ∀ pool first limit, ∃ subtrees, w.node.subtrees pool first limit = .ok subtrees)
    (hslots : ∀ slot ∈ slots, slot.start % rangeSize = 0 ∧ slot.start < st.sealedEnd)
    (epoch : Epoch) :
    ∃ index, (fillSlots verifiedBy slots epoch).run w = (.ok (), { w with index }) ∧
      Represents heightOf index st chain := by
  induction slots generalizing w epoch with
  | nil => exact ⟨w.index, rfl, h⟩
  | cons slot slots ih =>
    obtain ⟨⟨haligned, hsealed⟩, hrest⟩ := List.forall_mem_cons.mp hslots
    unfold fillSlots
    split
    next => exact ih h htrees hsubtrees hrest _
    next =>
      obtain ⟨_, last, -, hlast⟩ := blob_of_represents h haligned hsealed
      obtain ⟨trees, hok⟩ := htrees last (List.mem_of_getElem? hlast)
      obtain ⟨info, index, hrun, hput, -⟩ :=
        run_fill verifiedBy h hfun haligned hsealed hlast hok hsubtrees epoch
      have hrep := (h.putRangeMeta hput).1
      rw [Prog.run_bind hrun]
      exact ih (w := { w with index }) hrep htrees hsubtrees hrest _

theorem runs_fillSlots_cons {epoch : Epoch} {w' : World ν} {info : RangeMeta ν}
    (hrun : (fill verifiedBy start epoch).run w = (.ok info, w')) (k : Unit → Fill ν (Option Nat)) :
    ReflTransGen (Prog.Runs Rely) (fillSlots verifiedBy (⟨start, none⟩ :: slots) epoch >>= k, w)
      (fillSlots verifiedBy slots
        (epoch.advance info.entry.epochEnd info.entry.endTreeSizes) >>= k, w') := by
  have hcons : (fillSlots verifiedBy (⟨start, none⟩ :: slots) epoch : Fill ν Unit) = (do
      let info ← fill verifiedBy start epoch
      fillSlots verifiedBy slots (epoch.advance info.entry.epochEnd info.entry.endTreeSizes)) :=
    rfl
  rw [hcons]
  exact Prog.bind_runs (x := (_, w)) (Prog.runs_bind hrun)

theorem runs_pass (hstate : w.index.getState = .ok st) {covered : Option (Option Nat)}
    (hcovered : covered ≠ some st.sealedThrough) {last : Nat}
    (hlast : st.sealedThrough = some last) :
    ReflTransGen (Prog.Runs Rely) (pass verifiedBy covered, w)
      (fillSlots verifiedBy ((sealedStarts last).map (Slot.of w.index)) {} >>= fun _ =>
        pure (some last), w) := by
  have hread : (Prog.read fun w : World ν => okMapError w.index.getState FillError.index).run w =
      (.ok st, w) := by simp [hstate]
  have hscan : (Prog.read fun w : World ν =>
      okMapError (Slot.scan w.index (some last)) FillError.index).run w =
        (.ok ((sealedStarts last).map (Slot.of w.index)), w) := by simp [Slot.scan, hstate]
  unfold pass
  refine (Prog.runs_bind hread).trans ?_
  rw [if_neg hcovered, hlast]
  exact Prog.bind_runs (x := (fillMissing verifiedBy (some last), w)) (Prog.runs_bind hscan)

end

/-! ## The loop of passes -/

/-- What is outside the filler, the `sealedThrough` of the last pass that succeeded, and
    the rest of the pass that is in progress. -/
structure FillSystem (ν : Type) where
  world : World ν
  covered : Option (Option Nat)
  pass : Option (Fill ν (Option Nat))

/-- Which calls write the index, how the node answers, and which index a write may
    leave. -/
structure Rules (ν : Type) where
  calls : Call ν → Prop
  node : StateBackend ν → Prop := fun _ => True
  writes : FillSystem ν → Store ν → Prop := fun _ _ => True

namespace FillSystem

variable (verifiedBy : NodeId) (rules : Rules ν)

/-- The index is written and the node answers anew at any time. The filler starts a pass,
    takes a step of it, or ends it. A pass also fails with its thread or with the
    database, and the filler is stopped and started again. -/
inductive Step : FillSystem ν → FillSystem ν → Prop where
  | write {x : FillSystem ν} {index : Store ν} (c : Call ν) : rules.calls c →
      c.run x.world.index = .ok index → rules.writes x index →
      Step x { x with world := { x.world with index } }
  | outside {x : FillSystem ν} (node : StateBackend ν) (now : U64) : rules.node node →
      Step x { x with world := { x.world with node, now } }
  | start {x : FillSystem ν} : x.pass = none →
      Step x { x with pass := some (RangeMetaFiller.pass verifiedBy x.covered) }
  | act {x : FillSystem ν} {p p' : Fill ν (Option Nat)} {world : World ν} : x.pass = some p →
      Prog.Acts (p, x.world) (p', world) → Step x { x with world, pass := some p' }
  | succeed {x : FillSystem ν} {through : Option Nat} : x.pass = some (.done (.ok through)) →
      Step x { x with covered := some through, pass := none }
  | fail {x : FillSystem ν} {p : Fill ν (Option Nat)} : x.pass = some p →
      (∀ through, p ≠ .done (.ok through)) → Step x { x with pass := none }
  | restart {x : FillSystem ν} : Step x { x with covered := none, pass := none }

/-- The loop starts over an index that was written before. -/
def Starts (x : FillSystem ν) : Prop :=
  Reachable rules.calls x.world.index ∧ rules.node x.world.node ∧ x.covered = none ∧ x.pass = none

/-- The states of the runs of the loop. -/
def Reached (x : FillSystem ν) : Prop :=
  ∃ x₀, Starts rules x₀ ∧ ReflTransGen (Step verifiedBy rules) x₀ x

/-- A pass from `x` that gives `through`, with no other write to the index. -/
def Passes (x : FillSystem ν) (through : Option Nat) (world : World ν) : Prop :=
  ReflTransGen (Prog.Runs World.SameIndex) (RangeMetaFiller.pass verifiedBy x.covered, x.world)
    (.done (.ok through), world)

variable {verifiedBy rules} {x : FillSystem ν}

/-! ## Every state of a run -/

variable {Rely : World ν → World ν → Prop}

/-- A pass keeps to `Guar` if the parts that fill a row do. -/
theorem wp_pass_of_fill {Guar : World ν → World ν → Prop} (henv : Prog.Interference Rely Guar)
    (hfill : ∀ w start epoch, (fill verifiedBy start epoch).wp Rely Guar (fun _ _ => True) w)
    (w : World ν) (covered : Option (Option Nat)) :
    (RangeMetaFiller.pass verifiedBy covered).wp Rely Guar (fun _ _ => True) w := by
  have hslots : ∀ (slots : List Slot) (epoch : Epoch) (w : World ν),
      (fillSlots verifiedBy slots epoch).wp Rely Guar (fun _ _ => True) w := by
    intro slots
    induction slots with
    | nil => exact fun _ _ => trivial
    | cons slot slots ih =>
      intro epoch w
      unfold fillSlots
      split
      · exact ih _ w
      · exact Prog.wp_bind _ (Prog.wp_mono (hfill w _ _) fun info w' _ => ih _ w')
  unfold RangeMetaFiller.pass
  refine Prog.wp_bind _ (Prog.wp_read henv fun w₁ _ st _ => ?_)
  split
  · trivial
  · refine Prog.wp_bind _ (Prog.wp_bind _ (Prog.wp_read henv fun w₂ _ slots _ => ?_))
    exact Prog.wp_mono (hslots slots _ w₂) fun _ _ _ => trivial

/-- What keeps `I` in the runs of the loop: the calls, new answers of the node, and a pass
    while the others keep `I` and change the world within `R`. -/
structure Invariant (verifiedBy : NodeId) (rules : Rules ν) (I : World ν → Prop)
    (R : World ν → World ν → Prop) : Prop where
  refl : ∀ w, R w w
  trans : ∀ w w₁ w₂, R w w₁ → R w₁ w₂ → R w w₂
  write : ∀ (x : FillSystem ν) (c : Call ν) (index : Store ν), I x.world → rules.calls c →
    c.run x.world.index = .ok index → rules.writes x index →
    I { x.world with index } ∧ (x.pass.isSome → R x.world { x.world with index })
  outside : ∀ (w : World ν) (node : StateBackend ν) (now : U64), I w → rules.node node →
    I { w with node, now } ∧ R w { w with node, now }
  pass : ∀ (w : World ν) (covered : Option (Option Nat)), I w →
    (RangeMetaFiller.pass verifiedBy covered).wp (fun w w' => I w' ∧ R w w') (fun _ w' => I w')
      (fun _ _ => True) w

/-- The invariant, and that the rest of the pass keeps it. -/
def Keeps (I : World ν → Prop) (R : World ν → World ν → Prop) (x : FillSystem ν) : Prop :=
  I x.world ∧ ∀ p ∈ x.pass,
    p.wp (fun w w' => I w' ∧ R w w') (fun _ w' => I w') (fun _ _ => True) x.world

variable {I : World ν → Prop} {R : World ν → World ν → Prop} {y : FillSystem ν}

omit [Proto.Prost] [Blake3] in
theorem invariant_interference (htrans : ∀ w w₁ w₂, R w w₁ → R w₁ w₂ → R w w₂) :
    Prog.Interference (fun w w' : World ν => I w' ∧ R w w') (fun _ w' => I w') :=
  ⟨fun h h' => ⟨h'.1, htrans _ _ _ h.2 h'.2⟩, fun h => h.1⟩

section

variable (hinv : Invariant verifiedBy rules I R)

include hinv

theorem Invariant.step (h : Keeps I R x) (hstep : Step verifiedBy rules x y) : Keeps I R y := by
  have henv := invariant_interference (I := I) hinv.trans
  obtain ⟨hworld, hpass⟩ := h
  cases hstep with
  | write c hc hrun hwrites =>
    obtain ⟨hnew, hkept⟩ := hinv.write x c _ hworld hc hrun hwrites
    refine ⟨hnew, fun p hp => ?_⟩
    exact Prog.wp_rely henv (fun _ _ _ _ h => h)
      (hpass p hp) ⟨hnew, hkept (Option.isSome_of_mem hp)⟩
  | outside node now hnode =>
    have hnew := hinv.outside _ node now hworld hnode
    exact ⟨hnew.1, fun p hp => Prog.wp_rely henv (fun _ _ _ _ h => h) (hpass p hp) hnew⟩
  | start hidle =>
    refine ⟨hworld, fun p hp => ?_⟩
    cases hp
    exact hinv.pass _ _ hworld
  | act hp hacts =>
    obtain ⟨hnew, hnext⟩ := Prog.wp_acts (hpass _ hp) ⟨hworld, hinv.refl _⟩ hacts
    refine ⟨hnew, fun p' hp' => ?_⟩
    cases hp'
    exact hnext
  | succeed hp => exact ⟨hworld, by simp⟩
  | fail hp hnot => exact ⟨hworld, by simp⟩
  | restart => exact ⟨hworld, by simp⟩

/-- An invariant is kept in every later state of a run. -/
theorem Invariant.run (h : I x.world) (hidle : x.pass = none)
    (hsteps : ReflTransGen (Step verifiedBy rules) x y) : I y.world := by
  have hkeeps : Keeps I R y := by
    induction hsteps with
    | refl => exact ⟨h, by simp [hidle]⟩
    | tail _ hstep ih => exact hinv.step ih hstep
  exact hkeeps.1

theorem Invariant.reached
    (hstart : ∀ w : World ν, Reachable rules.calls w.index → rules.node w.node → I w)
    (h : x.Reached verifiedBy rules) : I x.world := by
  obtain ⟨x₀, ⟨hreach, hnode, -, hidle⟩, hsteps⟩ := h
  exact hinv.run (hstart _ hreach hnode) hidle hsteps

end

/-- An invariant that does not depend on the order of the steps: each row that the filler
    writes keeps it, when the blob and the trees were read while it held. -/
theorem invariant_of_put
    (hwrite : ∀ (w : World ν) (c : Call ν) (index : Store ν), I w → rules.calls c →
      c.run w.index = .ok index → I { w with index })
    (houtside : ∀ (w : World ν) (node : StateBackend ν) (now : U64), I w → rules.node node →
      I { w with node, now })
    (hput : ∀ (w : World ν) (start : Nat) (read : RangeRead) (trees : TreeState ν)
      (roots : List (SubtreeRoot ν)) (epoch : Epoch) (now : U64) (index : Store ν), I w →
      ReadFrom (fun _ w' => I w') w start read →
      w.index.putRangeMeta start (rowOf verifiedBy read trees roots epoch now) = .ok index →
      I { w with index }) : Invariant verifiedBy rules I fun _ _ => True where
  refl _ := trivial
  trans _ _ _ _ _ := trivial
  write x c index h hc hrun _ := ⟨hwrite _ c index h hc hrun, fun _ => trivial⟩
  outside w node now h hnode := ⟨houtside w node now h hnode, trivial⟩
  pass w covered _ := by
    have henv : Prog.Interference (fun _ w' : World ν => I w' ∧ True) (fun _ w' => I w') :=
      invariant_interference fun _ _ _ _ _ => trivial
    refine wp_pass_of_fill henv (fun w start epoch => ?_) w covered
    apply wp_fill henv
    rintro read trees roots now w₁ ⟨w₂, blob, hrely, hread⟩ _ _
    refine wp_put henv fun w₃ index hI hadd => ⟨?_, trivial⟩
    exact hput w₃ start read trees roots epoch now index hI.1 ⟨w₂, blob, hrely.1, hread⟩ hadd

/-- The index represents a chain in every state of a run. -/
theorem Reached.represents (h : x.Reached verifiedBy { calls := Call.FromBuilder }) :
    ∃ st chain, Represents .any x.world.index st chain := by
  refine Invariant.reached (I := fun w => ∃ st chain, Represents .any w.index st chain)
    (invariant_of_put ?_ ?_ ?_) ?_ h
  · rintro w c index ⟨st, chain, hrep⟩ hc hrun
    exact (Call.run_represents hrep hc c.respects_any hrun).1
  · intro w node now h _
    exact h
  · rintro w start read trees roots epoch now index ⟨st, chain, hrep⟩ _ hput
    exact ⟨st, chain, (hrep.putRangeMeta hput).1⟩
  · intro w hreach _
    exact hreach.represents fun c hc => ⟨hc, c.respects_any⟩

/-- The calls of the writers without deep reorgs. -/
def noDeepReorg : Rules ν where
  calls c := c.FromBuilder ∧ ¬c.IsDeepReorg

/-- Rows are kept as long as no deep reorg commits. -/
theorem rowsThrough_of_noDeepReorg {st : IndexState} {chain : List CompactBlockRecord}
    (hrep : Represents .any x.world.index st chain) {through : Option Nat}
    (hrows : RowsThrough x.world.index through) (hidle : x.pass = none)
    (hsteps : ReflTransGen (Step verifiedBy noDeepReorg) x y) :
    RowsThrough y.world.index through := by
  -- which rows a call keeps depends on the chain, so both are one invariant
  have hinv : Invariant verifiedBy noDeepReorg (fun w : World ν =>
      (∃ st chain, Represents .any w.index st chain) ∧ RowsThrough w.index through)
      fun _ _ => True := by
    apply invariant_of_put
    · rintro w c index ⟨⟨st, chain, hrep⟩, hrows⟩ ⟨hbuilder, hdeep⟩ hrun
      obtain ⟨st', hcommits⟩ := Call.run_eq_ok.mp hrun
      refine ⟨(Call.run_represents hrep hbuilder c.respects_any hrun).1, ?_⟩
      intro last hlast start hstart
      exact hcommits.keepsRow hrep hbuilder c.respects_any hdeep (hrows last hlast start hstart)
    · intro w node now h _
      exact h
    · rintro w start read trees roots epoch now index ⟨⟨st, chain, hrep⟩, hrows⟩ _ hput
      refine ⟨⟨st, chain, (hrep.putRangeMeta hput).1⟩, ?_⟩
      intro last hlast start hstart
      exact (putRangeMeta_grows hput).1.rangeMeta start (hrows last hlast start hstart)
  exact (hinv.run ⟨⟨st, chain, hrep⟩, hrows⟩ hidle hsteps).2

/-! ## Passes in a run -/

variable {p p' : Fill ν (Option Nat)} {w w' : World ν}

/-- The steps of a pass next to others that keep the index are steps of the system. -/
theorem steps_of_runs (hrely : ∀ w w', Rely w w' → w'.index = w.index ∧ rules.node w'.node)
    (covered : Option (Option Nat)) (h : ReflTransGen (Prog.Runs Rely) (p, w) (p', w')) :
    ReflTransGen (Step verifiedBy rules) ⟨w, covered, some p⟩ ⟨w', covered, some p'⟩ := by
  refine h.lift (fun y : Fill ν (Option Nat) × World ν =>
    (⟨y.2, covered, some y.1⟩ : FillSystem ν)) ?_
  intro y y' hstep
  cases hstep with
  | act hacts => exact .act rfl hacts
  | @rely p w w' hr =>
    obtain ⟨hindex, hnode⟩ := hrely w w' hr
    obtain ⟨index, node, now⟩ := w'
    obtain rfl : index = w.index := hindex
    exact .outside node now hnode

theorem Reached.step (h : x.Reached verifiedBy rules) (hstep : Step verifiedBy rules x y) :
    y.Reached verifiedBy rules := by
  obtain ⟨x₀, hstarts, hsteps⟩ := h
  exact ⟨x₀, hstarts, hsteps.tail hstep⟩

/-- A part of a pass next to others that keep the index is a part of a run. -/
theorem Reached.runs (hrely : ∀ w w', Rely w w' → w'.index = w.index ∧ rules.node w'.node)
    {covered : Option (Option Nat)}
    (h : (⟨w, covered, some p⟩ : FillSystem ν).Reached verifiedBy rules)
    (hruns : ReflTransGen (Prog.Runs Rely) (p, w) (p', w')) :
    (⟨w', covered, some p'⟩ : FillSystem ν).Reached verifiedBy rules := by
  obtain ⟨x₀, hstarts, hsteps⟩ := h
  exact ⟨x₀, hstarts, hsteps.trans (steps_of_runs hrely covered hruns)⟩

/-- A pass next to others that keep the index is a part of a run. -/
theorem Reached.passes (h : x.Reached verifiedBy rules)
    (hrely : ∀ w w', Rely w w' → w'.index = w.index ∧ rules.node w'.node) (hidle : x.pass = none)
    {through : Option Nat} {world : World ν} (hruns : ReflTransGen (Prog.Runs Rely)
      (RangeMetaFiller.pass verifiedBy x.covered, x.world) (.done (.ok through), world)) :
    (⟨world, some through, none⟩ : FillSystem ν).Reached verifiedBy rules :=
  ((h.step (.start hidle)).runs hrely hruns).step (.succeed rfl)

end FillSystem

end RangeMetaFiller

/-- Every sealed range has a row. -/
def Store.NoGap (s : Store ν) : Prop :=
  ∀ (start : Nat) (blob : Bytes), s.sealedRanges[start]? = some blob →
    ∃ info, s.rangeMeta[start]? = some info

namespace RangeMetaFiller

variable {st : IndexState} {verifiedBy : NodeId} {x : FillSystem ν}

theorem Grows.noGap [Proto.Prost] {s s' : Store ν} (h : Grows s s')
    {chain : List CompactBlockRecord} (hrep : Represents .any s st chain)
    (hrows : RowsThrough s' st.sealedThrough) : s'.NoGap := by
  intro start blob hblob
  rw [h.sealedRanges] at hblob
  obtain ⟨haligned, hlt⟩ := hrep.holds.sealed_key start blob hblob
  have hthrough : st.sealedThrough = some (st.sealedEnd - 1) :=
    IndexState.sealedThrough_eq_some_iff.mpr (by omega)
  exact Option.isSome_iff_exists.mp
    (hrows _ hthrough start (mem_sealedStarts.mpr ⟨haligned, by omega⟩))

/-- What a pass leaves, with no other write to the index. -/
theorem FillSystem.Passes.spec [Proto.Prost] [Blake3] {through : Option Nat} {world : World ν}
    (h : x.Passes verifiedBy through world) :
    (∃ st, x.world.index.getState = .ok st ∧ through = st.sealedThrough) ∧
      Grows x.world.index world.index ∧
      if x.covered = some through then world.index = x.world.index
      else RowsThrough world.index through := by
  have hwp := Prog.wp_runs World.sameIndex_refl sameIndex_interference
    (fun _ w w' (hsame : w'.index = w.index) h => by rw [hsame]; exact h)
    (wp_pass x.covered) h
  exact hwp

/-- A pass that succeeds, with no other write to the index, leaves no gap exactly when the
    pass was not covered or there was no gap before it. It leaves no gap when no deep reorg
    has committed since the pass that covers it. -/
theorem pass_leaves_no_gap_iff [Proto.Prost] [Blake3] (verifiedBy : NodeId) (x : FillSystem ν)
    (hreach : x.Reached verifiedBy { calls := Call.FromBuilder }) (through : Option Nat)
    (world : World ν) (hpass : x.Passes verifiedBy through world) :
    (world.index.NoGap ↔ (x.covered = some through → x.world.index.NoGap)) ∧
      ∀ (y : FillSystem ν) (w : World ν), y.Reached verifiedBy { calls := Call.FromBuilder } →
        y.pass = none → y.covered ≠ some through → y.Passes verifiedBy through w →
        ReflTransGen (FillSystem.Step verifiedBy FillSystem.noDeepReorg) ⟨w, some through, none⟩ x →
        world.index.NoGap := by
  obtain ⟨st, chain, hrep⟩ := hreach.represents
  obtain ⟨⟨st', hstate, rfl⟩, hgrows, hcase⟩ := hpass.spec
  obtain rfl : st = st' := Except.ok.inj (hrep.state.symm.trans hstate)
  constructor
  · split at hcase
    next hcovered =>
      rw [hcase]
      exact ⟨fun h _ => h, fun h => h hcovered⟩
    next hcovered => exact ⟨fun _ h => absurd h hcovered, fun _ => hgrows.noGap hrep hcase⟩
  · intro y w hy hidle hcovered hfilled hsteps
    obtain ⟨-, -, hrows⟩ := hfilled.spec
    rw [if_neg hcovered] at hrows
    obtain ⟨_, _, hrep₀⟩ := (hy.passes (fun _ _ hsame => ⟨hsame, trivial⟩) hidle hfilled).represents
    have hkept := FillSystem.rowsThrough_of_noDeepReorg hrep₀ hrows rfl hsteps
    refine hgrows.noGap hrep fun last hlast start hstart => ?_
    exact hgrows.rangeMeta start (hkept last hlast start hstart)

/-- A pass alone succeeds when the node answers for every block. -/
theorem runs_of_answers [Proto.Prost] [Blake3] {heightOf : HeightOf}
    {chain : List CompactBlockRecord} (verifiedBy : NodeId)
    (hrep : Represents heightOf x.world.index st chain) (hfun : heightOf.Functional)
    (htrees : ∀ r ∈ chain, ∃ trees, x.world.node.treeState r.hash = .ok trees)
    (hsubtrees : ∀ pool first limit, ∃ subtrees,
      x.world.node.subtrees pool first limit = .ok subtrees)
    (hcovered : x.covered ≠ some st.sealedThrough) {last : Nat}
    (hlast : st.sealedThrough = some last) :
    ∃ index, (∀ Rely, ReflTransGen (Prog.Runs Rely) (pass verifiedBy x.covered, x.world)
        (.done (.ok (some last)), { x.world with index })) ∧
      Represents heightOf index st chain := by
  have hend := IndexState.sealedThrough_eq_some_iff.mp hlast
  have hslots : ∀ slot ∈ (sealedStarts last).map (Slot.of x.world.index),
      slot.start % rangeSize = 0 ∧ slot.start < st.sealedEnd := by
    intro slot hmem
    obtain ⟨start, hstart, rfl⟩ := List.mem_map.mp hmem
    obtain ⟨haligned, hle⟩ := mem_sealedStarts.mp hstart
    exact ⟨haligned, by show start < _; omega⟩
  obtain ⟨index, hrun, hrep'⟩ :=
    run_fillSlots verifiedBy hrep hfun htrees hsubtrees hslots {}
  exact ⟨index, fun _ => (runs_pass hrep.state hcovered hlast).trans (Prog.runs_bind hrun), hrep'⟩

/-! ## A gap that stays -/

/-- Slots with rows need no step. -/
theorem run_fillSlots_of_rows [Proto.Prost] [Blake3] {w : World ν} {slots : List Slot}
    (hrows : ∀ slot ∈ slots, slot.row.isSome) (epoch : Epoch) :
    (fillSlots verifiedBy slots epoch).run w = (.ok (), w) := by
  induction slots generalizing epoch with
  | nil => rfl
  | cons slot slots ih =>
    obtain ⟨row, hrow⟩ := Option.isSome_iff_exists.mp (hrows slot (by simp))
    simp only [fillSlots, hrow]
    exact ih (fun slot' hmem => hrows slot' (by simp [hmem])) _

/-- A pass over an index whose rows are all there. -/
theorem passes_of_rows [Proto.Prost] [Blake3] (hstate : x.world.index.getState = .ok st)
    (hrows : x.covered = some st.sealedThrough ∨ RowsThrough x.world.index st.sealedThrough) :
    x.Passes verifiedBy st.sealedThrough x.world := by
  have hread : (Prog.read fun w : World ν => okMapError w.index.getState FillError.index).run
      x.world = (.ok st, x.world) := by simp [hstate]
  have hrun : (pass verifiedBy x.covered).run x.world = (.ok st.sealedThrough, x.world) := by
    unfold pass
    rw [Prog.run_bind hread]
    split
    next => rfl
    next hcovered =>
      have hrows := hrows.resolve_left hcovered
      obtain ⟨slots, hscan, hslots⟩ : ∃ slots, Slot.scan x.world.index st.sealedThrough =
        .ok slots ∧
          ∀ slot ∈ slots, slot.row.isSome := by
        cases hthrough : st.sealedThrough with
        | none => exact ⟨[], rfl, by simp⟩
        | some last =>
          refine ⟨(sealedStarts last).map (Slot.of x.world.index), ?_, ?_⟩
          · simp [Slot.scan, hstate]
          · intro slot hmem
            obtain ⟨start, hstart, rfl⟩ := List.mem_map.mp hmem
            simpa [Slot.of] using hrows last hthrough start hstart
      have hscanned : (Prog.read fun w : World ν =>
          okMapError (Slot.scan w.index st.sealedThrough) FillError.index).run x.world =
            (.ok slots, x.world) := by simp [hscan]
      have hfill : (fillMissing verifiedBy st.sealedThrough).run x.world = (.ok (), x.world) := by
        unfold fillMissing
        rw [Prog.run_bind hscanned, run_fillSlots_of_rows hslots]
      rw [Prog.run_bind hfill]
      rfl
  have hruns : ReflTransGen (Prog.Runs World.SameIndex) (pass verifiedBy x.covered, x.world) _ :=
    Prog.runs_run _ _
  rw [hrun] at hruns
  exact hruns

section

attribute [local instance] Proto.wireDecoder zeroDigest

/-- A node that does not answer. -/
def silentNode : StateBackend Unit :=
  ⟨fun _ => .error (.unavailable "no node"), fun _ _ _ => .error (.unavailable "no node")⟩

def exampleNode : NodeId := ⟨"http://localhost:8232", "1.0.0"⟩

/-- A node without active pools. -/
def inactiveNode : StateBackend Unit := ⟨fun _ => .ok ⟨none, none, none⟩, fun _ _ _ => .ok []⟩

/-- The first pass writes the rows of the two ranges of a plain chain. -/
theorem exists_filled (rules : Rules Unit) (node : StateBackend Unit) (hnode : rules.node node)
    (hcalls : ∀ batch : WriteBatch, (Call.write batch : Call Unit).Honest plainHeight →
      (∀ r ∈ batch.records, r ∈ plainRecords 5000 2000) → rules.calls (.write batch))
    (htrees : ∀ r ∈ plainRecords 5000 2000, ∃ trees, node.treeState r.hash = .ok trees)
    (hsubtrees : ∀ pool first limit, ∃ subtrees, node.subtrees pool first limit = .ok subtrees) :
    ∃ (w : World Unit) (world : World Unit) (info info' : RangeMeta Unit) (st : IndexState),
      (∀ start : Nat, w.index.rangeMeta[start]? = none) ∧
      (⟨w, none, none⟩ : FillSystem Unit).Reached exampleNode rules ∧
      (⟨w, none, none⟩ : FillSystem Unit).Passes exampleNode (some 1999) world ∧
      (⟨world, some (some 1999), none⟩ : FillSystem Unit).Reached exampleNode rules ∧
      world.index.rangeMeta[0]? = some info ∧ world.index.rangeMeta[1000]? = some info' ∧
      Represents plainHeight world.index st (plainRecords 5000 2000) ∧
      st.sealedThrough = some 1999 ∧ st.generation = 2000 := by
  obtain ⟨s, st, hreach, hrep, hsealed, hgen, hempty⟩ :=
    reachable_plain 5000 (by decide) (some 1999) hcalls
  have hsealed : st.sealedThrough = some 1999 :=
    IndexState.sealedThrough_eq_some_iff.mpr (hsealed.trans (by decide))
  let x : FillSystem Unit := ⟨⟨s, node, 0⟩, none, none⟩
  have hx : x.Reached exampleNode rules := ⟨x, ⟨hreach, hnode, rfl, rfl⟩, .refl⟩
  obtain ⟨index, hruns, hrep'⟩ := runs_of_answers exampleNode (x := x) hrep
    (HeightOf.functional_ofFun _) htrees hsubtrees nofun hsealed
  have hpass : x.Passes exampleNode (some 1999) _ := hruns World.SameIndex
  obtain ⟨-, -, hrows⟩ := hpass.spec
  rw [if_neg nofun] at hrows
  obtain ⟨info, hinfo⟩ := Option.isSome_iff_exists.mp
    (hrows 1999 rfl 0 (mem_sealedStarts.mpr ⟨rfl, by decide⟩))
  obtain ⟨info', hinfo'⟩ := Option.isSome_iff_exists.mp
    (hrows 1999 rfl 1000 (mem_sealedStarts.mpr ⟨rfl, by decide⟩))
  refine ⟨_, _, info, info', st, hempty, hx, hpass, ?_, hinfo, hinfo', hrep', hsealed, hgen⟩
  exact hx.passes (fun _ _ h => h.elim) rfl (hruns fun _ _ => False)

/-- A first pass of a filler whose node answers. -/
theorem exists_filled_pass : ∃ (w world : World Unit) (st : IndexState),
    (∀ start : Nat, w.index.rangeMeta[start]? = none) ∧
      (⟨w, none, none⟩ : FillSystem Unit).Reached exampleNode { calls := Call.FromBuilder } ∧
      (⟨w, none, none⟩ : FillSystem Unit).Passes exampleNode (some 1999) world ∧
      (⟨world, some (some 1999), none⟩ : FillSystem Unit).Reached exampleNode
        { calls := Call.FromBuilder } ∧
      Represents plainHeight world.index st (plainRecords 5000 2000) ∧
      st.sealedThrough = some 1999 ∧ st.generation = 2000 := by
  obtain ⟨w, world, -, -, st, hempty, hx, hpass, hy, -, -, hrep⟩ := exists_filled
    { calls := Call.FromBuilder } inactiveNode trivial (fun _ hhonest _ => hhonest.1)
    (fun _ _ => ⟨_, rfl⟩) (fun _ _ _ => ⟨_, rfl⟩)
  exact ⟨w, world, st, hempty, hx, hpass, hy, hrep⟩

/-- The first pass over two ranges without rows leaves no gap. The second pass reads that it
    is covered, while the node does not answer, and leaves no gap either. -/
theorem filling_pass_leaves_no_gap : ∃ (w world : World Unit) (y : FillSystem Unit),
    (∀ start : Nat, w.index.rangeMeta[start]? = none) ∧
      (⟨w, none, none⟩ : FillSystem Unit).Passes exampleNode (some 1999) world ∧
      world.index.NoGap ∧ y = ⟨{ world with node := silentNode }, some (some 1999), none⟩ ∧
      y.Passes exampleNode (some 1999) y.world ∧ y.world.index.NoGap := by
  obtain ⟨w, world, st, hempty, hx, hpass, hy, hrep, hthrough, -⟩ := exists_filled_pass
  have hpass' : (⟨{ world with node := silentNode }, some (some 1999), none⟩ :
      FillSystem Unit).Passes exampleNode (some 1999) { world with node := silentNode } := by
    rw [← hthrough]
    exact passes_of_rows hrep.state (.inl rfl)
  refine ⟨w, world, _, hempty, hpass, ?_, rfl, hpass', ?_⟩
  · refine (pass_leaves_no_gap_iff exampleNode _ hx _ _ hpass).1.mpr fun h => ?_
    cases h
  · exact (pass_leaves_no_gap_iff exampleNode _ (hy.step (.outside _ _ trivial)) _ _ hpass').2 _ _
      hx rfl (by simp) hpass (.single (.outside _ _ trivial))

/-- The first pass covers ranges 0 and 1. A deep reorg replaces all blocks above genesis and
    seals both ranges again, which deletes their rows, and the second pass does nothing. -/
theorem covered_pass_leaves_gap : ∃ (x : FillSystem Unit) (through : Option Nat)
    (world : World Unit), x.Reached exampleNode { calls := Call.FromBuilder } ∧
      x.Passes exampleNode through world ∧ ¬ world.index.NoGap := by
  obtain ⟨-, world, st, -, -, -, hreach, hrep, hsealed, hgen⟩ := exists_filled_pass
  -- the branch from block 1 on, sealed through block 2099
  have hnode := plainBlocks_nodeChain 1 (n := 2200) (by decide)
  obtain ⟨encoded, hencoded⟩ := hnode.encodedAs
  obtain ⟨common, s', st', st₁, -, hcommits, hrep', hsealed₁, -, hst', hrows⟩ :=
    hrep.deepReorgs (m := 0) (by rw [length_branchRecords]; decide)
      (branchRecords_take_eq (by decide) (by decide) (by decide) (by decide)) hnode.connected
      hencoded (by rw [length_branchRecords]; decide) (by rw [hgen]; decide) (some 2099)
  have hreach' := hreach.step (.write (.replaceDeepSuffix st.generation common.blockId _
    (some 2099)) trivial (map_eq_ok.mpr ⟨_, hcommits, rfl⟩) trivial)
  have hsealed' : st'.sealedThrough = some 1999 := by
    have hzero : st₁.sealedEnd = 0 := hsealed₁.trans (Nat.min_eq_right (Nat.zero_le _))
    rw [IndexState.sealedThrough_eq_some_iff, hst', hzero, length_branchRecords]
    exact (IndexState.sealTo_sealedEnd _ _).trans (by rw [hzero]; rfl)
  refine ⟨_, _, _, hreach', passes_of_rows hrep'.state (.inl (by rw [hsealed'])), ?_⟩
  intro hnogap
  obtain ⟨blob, hblob, -⟩ := hrep'.holds.sealed_range 0 rfl (by
    rw [IndexState.sealedThrough_eq_some_iff.mp hsealed']
    decide)
  obtain ⟨info, hinfo⟩ := hnogap 0 blob hblob
  have hnone := hrows 0
  rw [if_neg (by rw [show rangeStart 0 = 0 from rfl]; omega)] at hnone
  rw [show s'.rangeMeta[0]? = some info from hinfo] at hnone
  cases hnone

end

end RangeMetaFiller

end Ztreamer
