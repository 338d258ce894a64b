import Ztreamer.Sync.Preparation
import Ztreamer.Sync.Recovery

/-! # The byte budget of head sync

    A call of head sync pushes all the blocks that it polled into a builder before
    it takes any of them out. So the size bounds of the whole window must fit in the
    pending bytes of the builder at once. The limit of a batch is never reached,
    since a single record is smaller.

    * `planReplacement` / `planRecovery`: the calls up to the builder,
    * `Fits`: the blocks fit in the builder,
    * `head_sync_fits_iff`: a call fails for bytes exactly when its blocks do not fit.
-/

namespace Ztreamer

open Octets Result Connected

variable {ν : Type}

/-! ## Limits -/

/-- A limit on bytes refused a block. -/
def IngestError.IsByteLimit : IngestError → Prop
  | .pendingBytes _ => True
  | .batchBytes _ => True
  | _ => False

def HeadSyncError.IsByteLimit : HeadSyncError → Prop
  | .ingest error => error.IsByteLimit
  | _ => False

/-- The size bounds of the blocks add up to at most `limit`, up to the first block
    that is too large for a record, which the builder refuses for that. -/
def Fits (limit : Nat) (blocks : List ParsedCompactBlock) : Prop :=
  ∀ k, (∀ p ∈ blocks.take k, p.size ≤ maxRecordBytes) →
    ((blocks.take k).map (·.size)).sum ≤ limit

theorem fits_nil (limit : Nat) : Fits limit [] := by
  intro k _
  simp

/-- The heights of the blocks count up from `start`. -/
def CountsFrom (start : Nat) (blocks : List ParsedCompactBlock) : Prop :=
  ∀ (i : Nat) (p : ParsedCompactBlock), blocks[i]? = some p → p.height.val = start + i

namespace OrderedBuilder

variable {b b' : OrderedBuilder}

/-! ### Pushing consecutive blocks -/

/-- A builder with blocks of `used` bytes below `start`. -/
structure Filling (b : OrderedBuilder) (start used limit : Nat) : Prop where
  next_le : b.nextHeight ≤ start
  vacant : ∀ height, start ≤ height → b.pending[height]? = none
  pendingBytes : b.pendingBytes = used
  ready_le : b.readyEnd ≤ start
  readyBytes_le : b.readyBytes ≤ used
  maxPendingBytes : b.maxPendingBytes = limit

variable {block : ParsedCompactBlock} {start limit maxBatchBytes : Nat}
  {blocks : List ParsedCompactBlock}

variable {bytes used : Nat} {st : IndexState} {records : List CompactBlockRecord}
  {durableThrough sealThrough : Option Nat}

/-- The ready prefix grows by one block before a gap. -/
theorem advanceReady_one (hlt : b.readyEnd < 2 ^ 32)
    (hsome : b.pending[b.readyEnd]? = some (block, bytes))
    (hnone : b.pending[b.readyEnd + 1]? = none) (hbytes : b.readyBytes + bytes < 2 ^ 64) :
    b.advanceReady =
      .ok { b with readyBytes := b.readyBytes + bytes, readyEnd := b.readyEnd + 1 } := by
  rw [advanceReady, if_pos hlt, hsome]
  simp only [if_pos hbytes]
  rw [advanceReady]
  simp only [hnone, ite_self]

/-- The next block is too large, or it does not fit, or the builder holds it. -/
theorem Filling.push (h : b.Filling start used limit) (hheight : block.height.val = start)
    (hused : used ≤ limit) (hlimit : limit + maxRecordBytes < 2 ^ 64) :
    (maxRecordBytes < block.size ∧ ∃ e, b.push block = .error e ∧ ¬ e.IsByteLimit) ∨
    (block.size ≤ maxRecordBytes ∧ limit < used + block.size ∧
      b.push block = .error (.pendingBytes limit)) ∨
    (block.size ≤ maxRecordBytes ∧ used + block.size ≤ limit ∧
      ∃ b', b.push block = .ok b' ∧ b'.Filling (start + 1) (used + block.size) limit) := by
  have hplace : b.nextHeight ≤ block.height.val ∧ b.pending[block.height.val]? = none := by
    rw [hheight]
    exact ⟨h.next_le, h.vacant start le_rfl⟩
  simp only [OrderedBuilder.push, ensure_of _ hplace, ok_bind]
  by_cases hsize : block.size ≤ maxRecordBytes
  case neg =>
    cases hbound : encodedSizeBound block.transactions with
    | error e => exact .inl ⟨by omega, .codec e, rfl, id⟩
    | ok bytes => exact absurd (encodedSizeBound_eq_ok.mp hbound).1 hsize
  right
  have hbound : encodedSizeBound block.transactions = .ok block.size :=
    encodedSizeBound_eq_ok.mpr ⟨hsize, rfl⟩
  have hpending := h.pendingBytes
  have hmax := h.maxPendingBytes
  simp only [hbound, okMapError_ok, ok_bind, hpending, hmax]
  rw [ensure_of _ (by omega : used + block.size < 2 ^ 64), ok_bind]
  by_cases hfits : used + block.size ≤ limit
  case neg =>
    rw [ensure_of_not _ hfits]
    exact .inl ⟨hsize, by omega, rfl⟩
  right
  refine ⟨hsize, hfits, ?_⟩
  rw [ensure_of _ hfits, ok_bind, hheight]
  have hnext := h.next_le
  have hready := h.ready_le
  have hbytes := h.readyBytes_le
  have hvacant : ∀ height, start + 1 ≤ height →
      (b.pending.insert start (block, block.size))[height]? = none := by
    intro height hle
    rw [Table.get_put, if_neg (by omega)]
    exact h.vacant height (by omega)
  split
  · -- the block extends the ready prefix, which then ends at it
    rename_i heq
    have hlt : start < 2 ^ 32 := by
      rw [← hheight]
      exact block.height.isLt
    subst heq
    have hget : (b.pending.insert b.readyEnd (block, block.size))[b.readyEnd]? =
        some (block, block.size) := by rw [Table.get_put, if_pos rfl]
    refine ⟨_, advanceReady_one hlt hget (hvacant _ le_rfl) (by simp only; omega), ?_⟩
    exact ⟨by simp only; omega, hvacant, rfl, le_rfl, by simp only; omega, rfl⟩
  · exact ⟨_, rfl, by simp only; omega, hvacant, rfl, by simp only; omega, by simp only; omega, rfl⟩

/-- The builder refuses consecutive blocks for bytes exactly when they do not fit. -/
theorem Filling.errs_foldlM_push (h : b.Filling start used limit)
    (hcounts : CountsFrom start blocks) (hused : used ≤ limit)
    (hlimit : limit + maxRecordBytes < 2 ^ 64) :
    Errs IngestError.IsByteLimit (blocks.foldlM OrderedBuilder.push b) ↔
      ∃ k, (∀ p ∈ blocks.take k, p.size ≤ maxRecordBytes) ∧
        limit < used + ((blocks.take k).map (·.size)).sum := by
  induction blocks generalizing b start used with
  | nil =>
    simp only [List.foldlM_nil, pure_eq_ok, errs_ok, List.take_nil, List.map_nil, List.sum_nil,
      false_iff]
    omega
  | cons block blocks ih =>
    have hheight : block.height.val = start := hcounts 0 block rfl
    have hrest : CountsFrom (start + 1) blocks := by
      intro i p hp
      have := hcounts (i + 1) p (by simpa using hp)
      omega
    rw [List.foldlM_cons]
    rcases h.push hheight hused hlimit with ⟨hlarge, e, he, hnot⟩ | ⟨hsize, hover, he⟩ |
      ⟨hsize, hfits, b', hok, hfilling⟩
    · -- a block that is too large stops the pushes before the limit
      rw [he, error_bind, errs_error]
      refine ⟨fun habs => absurd habs hnot, ?_⟩
      rintro ⟨k, hall, hsum⟩
      cases k with
      | zero =>
        rw [List.take_zero, List.map_nil, List.sum_nil] at hsum
        omega
      | succ k =>
        have := hall block (by simp)
        omega
    · rw [he, error_bind, errs_error]
      refine ⟨fun _ => ⟨1, ?_, ?_⟩, fun _ => trivial⟩
      · simpa using hsize
      · simpa using hover
    · rw [hok, ok_bind, ih hfilling hrest hfits]
      constructor
      · rintro ⟨k, hall, hsum⟩
        refine ⟨k + 1, ?_, ?_⟩
        · rw [List.take_succ_cons]
          exact List.forall_mem_cons.mpr ⟨hsize, hall⟩
        · rw [List.take_succ_cons, List.map_cons, List.sum_cons]
          omega
      · rintro ⟨k, hall, hsum⟩
        cases k with
        | zero =>
          rw [List.take_zero, List.map_nil, List.sum_nil] at hsum
          omega
        | succ k =>
          rw [List.take_succ_cons] at hall hsum
          rw [List.map_cons, List.sum_cons] at hsum
          exact ⟨k, (List.forall_mem_cons.mp hall).2, by omega⟩

theorem filling_new (h : new st limit = .ok b) (hstart : b.nextHeight ≤ start) :
    b.Filling start 0 limit := by
  simp only [new, bind_eq_ok, pure_eq_ok, Except.ok.injEq] at h
  obtain ⟨height, -, rfl⟩ := h
  exact ⟨hstart, by simp, rfl, hstart, le_rfl, rfl⟩

/-! ### Taking blocks out -/

/-- Each pending block is small enough for a record. -/
def Small (b : OrderedBuilder) : Prop :=
  b.AllPending fun _ _ bytes => bytes ≤ maxRecordBytes

theorem Small.push (hb : b.Small) (h : b.push block = .ok b') : b'.Small :=
  AllPending.push hb (fun _ hbytes => by
    obtain ⟨hsize, rfl⟩ := encodedSizeBound_eq_ok.mp hbytes
    exact hsize) h

theorem Small.foldlM_push (hb : b.Small) (h : blocks.foldlM OrderedBuilder.push b = .ok b') :
    b'.Small :=
  foldlM_invariant Small (fun _ _ _ _ hb h => hb.push h) hb h

variable (hmax : maxRecordBytes ≤ maxBatchBytes)

include hmax

/-- Small blocks never exceed the limit of a batch. -/
theorem Small.not_errs_takeBatch {batchBytes : Nat} (hb : b.Small)
    (hempty : records = [] → batchBytes = 0) :
    ¬ Errs IngestError.IsByteLimit
      (takeBatch durableThrough sealThrough maxBatchBytes b batchBytes records) := by
  fun_induction takeBatch durableThrough sealThrough maxBatchBytes b batchBytes records with
  | case1 | case2 | case4 => exact errs_ok
  | case3 b batchBytes records block bytes hsome hdurable error hfull =>
    rw [errs_error]
    -- a batch without records has room for any record
    have hbytes := hb _ _ _ hsome
    intro hlimit
    have herrs : Errs IngestError.IsByteLimit
        (isFull batchBytes maxBatchBytes records sealThrough block bytes) := ⟨error, hfull, hlimit⟩
    unfold isFull at herrs
    rw [errs_bind] at herrs
    rcases herrs with herrs | ⟨_, -, herrs⟩
    · exact (errs_ensure.mp herrs).2
    split at herrs
    · exact errs_ok herrs
    · rename_i hroom
      rw [errs_bind] at herrs
      rcases herrs with herrs | ⟨_, -, herrs⟩
      · have hnil := not_not.mp (errs_ensure.mp herrs).1
        rw [hempty hnil] at hroom
        omega
      · rw [errs_bind] at herrs
        rcases herrs with herrs | ⟨_, -, herrs⟩
        · exact (errs_ensure.mp herrs).2
        · exact errs_ok herrs
  | case5 b batchBytes records block bytes hsome hdurable hfull error hnext =>
    have hnot : ¬ Errs IngestError.IsByteLimit (b.takeNext block bytes) := by
      simp [OrderedBuilder.takeNext, errs_bind, IngestError.IsByteLimit]
    rw [hnext, errs_error] at hnot
    rw [errs_error]
    exact hnot
  | case6 b batchBytes records block bytes hsome hdurable hfull b₁ record hnext ih =>
    exact ih (hb.takeNext hnext) (by simp)

theorem Small.not_errs_buildBatch (hb : b.Small) (durableThrough sealThrough : Option Nat) :
    ¬ Errs IngestError.IsByteLimit (b.buildBatch durableThrough sealThrough maxBatchBytes) := by
  unfold buildBatch
  simp only [errs_bind, errs_ensure, IngestError.IsByteLimit, and_false, false_or]
  intro hand
  obtain ⟨_, -, herrs⟩ := hand
  split at herrs
  · exact errs_ok herrs
  · rw [errs_bind] at herrs
    rcases herrs with herrs | ⟨out, -, herrs⟩
    · exact hb.not_errs_takeBatch hmax (fun _ => rfl) herrs
    · split at herrs
      · exact errs_ok herrs
      · simp [errs_bind, IngestError.IsByteLimit] at herrs

theorem Small.not_errs_drainRecords (hb : b.Small) (through : Nat) :
    ¬ Errs IngestError.IsByteLimit (b.drainRecords through maxBatchBytes) := by
  induction hn : 2 ^ 32 - b.nextHeight using Nat.strong_induction_on generalizing b with
  | _ n ih =>
    rw [drainRecords]
    split
    · rename_i error herror
      have hnot := hb.not_errs_buildBatch hmax (some through) none
      rw [herror] at hnot
      rw [errs_error] at hnot ⊢
      exact hnot
    · exact errs_ok
    case h_3 b₁ batch hbatch =>
      have hmove := buildBatch_nextHeight hbatch
      rw [errs_bind]
      intro herrs
      rcases herrs with herrs | ⟨_, -, herrs⟩
      · exact ih (2 ^ 32 - b₁.nextHeight) (by omega) (hb.buildBatch hbatch) rfl herrs
      · exact errs_ok herrs

end OrderedBuilder

/-! ## The calls up to the builder -/

/-- The source answers a height with a block of this height. -/
def CanonicalBlockSource.AnswersHeights (src : CanonicalBlockSource) : Prop :=
  ∀ (height : Nat) (block : RawIndexBlock),
    src.block height = .ok (some block) → block.height.val = height

/-- The blocks of a poll count up, from the start of the poll on. -/
theorem CanonicalBlockSource.AnswersHeights.pollCanonicalHead {src : CanonicalBlockSource}
    (h : src.AnswersHeights) {start : Nat} {previousHash : Hash} {known : List CompactBlockRecord}
    {suffix : CanonicalSuffix}
    (hpoll : pollCanonicalHead src start previousHash known = .ok suffix) :
    ∃ first, CountsFrom first suffix.blocks ∧ (known = [] → first = start) := by
  obtain ⟨⟨_, time⟩, hpolled, rfl⟩ := map_eq_ok.mp hpoll
  obtain ⟨count, first, raw, hretained, -, hfirst, hread, hparse, -⟩ :=
    MovingSource.pollCanonicalHead_spec hpolled
  refine ⟨first, ?_, ?_⟩
  · intro i p hp
    obtain ⟨block, hblock, hparsed⟩ := forall₂_getElem? (mapM_eq_ok.mp hparse).flip hp
    obtain ⟨_, hanswer⟩ := hread.getElem? hblock
    rw [(parseBlock_spec hparsed).1]
    exact h _ block hanswer
  · intro hnil
    subst hnil
    rw [hretained, linkedPrefix, List.take_nil] at hfirst
    exact (Except.ok.inj hfirst).symm

section

variable [Proto.Prost]

variable {s : Store ν} {st : IndexState} {poll : Poll} {head : List CompactBlockRecord}
  {config : PipelineConfig}

/-! ### Errors that are not of a limit -/

omit [Proto.Prost] in
theorem not_errs_deepReorgOfAnchor {α : Type} (x : Except HeadError α) :
    ¬ Errs HeadSyncError.IsByteLimit (deepReorgOfAnchor x) := by
  unfold deepReorgOfAnchor
  split
  · exact errs_ok
  · exact errs_error.not.mpr id
  · exact errs_error.not.mpr id

variable {block : Nat → Except HeadError (Option RawIndexBlock)} {blocks : List ParsedCompactBlock}
  {src : CanonicalBlockSource}

theorem not_errs_sameBlock (height : Nat) :
    ¬ Errs HeadSyncError.IsByteLimit (sameBlock s block st head height) := by
  unfold sameBlock
  simp only [errs_bind, errs_okMapError, HeadSyncError.IsByteLimit, errs_false, false_or]
  intro hand
  obtain ⟨canonical, -, old, -, herrs⟩ := hand
  split at herrs
  · exact errs_ok herrs
  · exact errs_ok herrs

theorem not_errs_planReplacement (s : Store ν) (poll : Poll) (head : List CompactBlockRecord)
    (oldVisibleTip : Nat) :
    ¬ Errs HeadSyncError.IsByteLimit (planReplacement s poll head oldVisibleTip) := by
  unfold planReplacement
  simp [errs_bind, HeadSyncError.IsByteLimit, not_errs_deepReorgOfAnchor]

theorem not_errs_planRecovery (s : Store ν)
    (block : Nat → Except HeadError (Option RawIndexBlock)) (poll : Poll)
    (head : List CompactBlockRecord) :
    ¬ Errs HeadSyncError.IsByteLimit (planRecovery s block poll head) := by
  unfold planRecovery
  simp [errs_bind, HeadSyncError.IsByteLimit, IngestError.IsByteLimit,
    Bisect.not_errs_lastTrue not_errs_sameBlock]

theorem not_errs_persistSuffix (s : Store ν) (st : IndexState) (oldDurableTip : BlockId)
    (ancestor : CompactBlockRecord) (canonical : List CompactBlockRecord) (visibleTip : Nat) :
    ¬ Errs HeadSyncError.IsByteLimit
      (persistSuffix s st oldDurableTip ancestor canonical visibleTip) := by
  unfold persistSuffix
  dsimp only
  split
  · simp [errs_bind, HeadSyncError.IsByteLimit]
  · simp [errs_bind, HeadSyncError.IsByteLimit]

theorem not_errs_persistRecovery (s : Store ν) (r : Recovery) :
    ¬ Errs HeadSyncError.IsByteLimit (persistRecovery s r) := by
  unfold persistRecovery
  simp [errs_bind, HeadSyncError.IsByteLimit]

/-- Small blocks are written without reaching a limit. -/
theorem not_errs_writeBatches {durableThrough sealThrough : Option Nat} {maxBatchBytes : Nat}
    (hmax : maxRecordBytes ≤ maxBatchBytes) {b : OrderedBuilder} (hb : b.Small) :
    ¬ Errs HeadSyncError.IsByteLimit
        (writeBatches durableThrough sealThrough maxBatchBytes s st b).2 ∧
      ∀ s' st' b', writeBatches durableThrough sealThrough maxBatchBytes s st b =
        (s', .ok (st', b')) → b'.Small := by
  induction hn : 2 ^ 32 - b.nextHeight using Nat.strong_induction_on generalizing s st b with
  | _ n ih =>
    rw [writeBatches]
    split
    · rename_i error herror
      have hnot := hb.not_errs_buildBatch hmax durableThrough sealThrough
      rw [herror, errs_error] at hnot
      exact ⟨errs_error.not.mpr hnot, by simp⟩
    · rename_i b' hnone
      refine ⟨errs_ok, ?_⟩
      intro s' st' b'' heq
      cases heq
      rw [OrderedBuilder.buildBatch_eq_none hnone]
      exact hb
    · rename_i b' batch hbatch
      have hmove := OrderedBuilder.buildBatch_nextHeight hbatch
      split
      · exact ⟨errs_error.not.mpr id, by simp⟩
      · exact ih (2 ^ 32 - b'.nextHeight) (by omega) (hb.buildBatch hbatch) rfl

/-! ### Errors of the builder -/

omit [Proto.Prost] in
/-- Records are built of consecutive blocks above `base`, unless they do not fit. -/
theorem errs_buildRecords {base : BlockId} {treeSizes : TreeSizes} {visibleTip start : Nat}
    (hcounts : CountsFrom start blocks) (hstart : base.height < start)
    (hlimit : config.maxPendingBytes.val + maxRecordBytes < 2 ^ 64)
    (hmax : maxRecordBytes ≤ config.maxBatchBytes.val) :
    Errs IngestError.IsByteLimit (buildRecords st base treeSizes blocks visibleTip config) ↔
      ¬ Fits config.maxPendingBytes.val blocks := by
  unfold buildRecords
  rw [errs_bind]
  cases hnew : OrderedBuilder.new (st.withDurableTip base treeSizes) config.maxPendingBytes.val with
  | error e =>
    -- the builder is refused only above the largest height, where no block is
    have hnil : blocks = [] := by
      rcases Nat.lt_or_ge (base.height + 1) (2 ^ 32) with hlt | hge
      · rw [OrderedBuilder.new, IndexState.nextHeight, IndexState.withDurableTip] at hnew
        simp only [if_pos hlt, okOr_some, ok_bind] at hnew
        cases hnew
      · cases blocks with
        | nil => rfl
        | cons block blocks =>
          have := hcounts 0 block rfl
          have := block.height.isLt
          omega
    have he : ¬ e.IsByteLimit := by
      have hnot : ¬ Errs IngestError.IsByteLimit (OrderedBuilder.new
          (st.withDurableTip base treeSizes) config.maxPendingBytes.val) := by
        simp [OrderedBuilder.new, errs_bind, IngestError.IsByteLimit]
      rw [hnew, errs_error] at hnot
      exact hnot
    rw [hnil]
    simp [he, fits_nil]
  | ok b =>
    have hnext : b.nextHeight ≤ start := by
      simp only [OrderedBuilder.new, bind_eq_ok, okOr_eq_ok, pure_eq_ok, Except.ok.injEq,
        IndexState.nextHeight, IndexState.withDurableTip] at hnew
      obtain ⟨height, hheight, rfl⟩ := hnew
      split at hheight
      · cases hheight
        exact hstart
      · cases hheight
    have hpush := (OrderedBuilder.filling_new hnew hnext).errs_foldlM_push hcounts (Nat.zero_le _)
      hlimit
    have hdrain : ∀ b', blocks.foldlM OrderedBuilder.push b = .ok b' →
        ¬ Errs IngestError.IsByteLimit (b'.drainRecords visibleTip config.maxBatchBytes.val) := by
      intro b' hok
      exact (OrderedBuilder.Small.foldlM_push (.new hnew) hok).not_errs_drainRecords hmax visibleTip
    simp only [errs_ok, false_or, Except.ok.injEq, exists_eq_left', errs_bind, hpush, Nat.zero_add]
    unfold Fits
    push Not
    constructor
    · intro herrs
      rcases herrs with hover | ⟨b', hok, herrs | ⟨_, -, herrs⟩⟩
      · exact hover
      · exact absurd herrs (hdrain b' hok)
      · exact absurd herrs errs_ok
    · exact Or.inl

/-- An extension fails for bytes exactly when the polled blocks do not fit. -/
theorem errs_syncExtensionOnceBy
    (hpoll : ∀ start previousHash suffix, poll start previousHash [] = .ok suffix →
      CountsFrom start suffix.blocks)
    (hlimit : config.maxPendingBytes.val + maxRecordBytes < 2 ^ 64)
    (hmax : maxRecordBytes ≤ config.maxBatchBytes.val) :
    Errs HeadSyncError.IsByteLimit (syncExtensionOnceBy s poll st config).2 ↔
      ∃ start suffix, st.nextHeight = some start ∧
        poll start (st.durableTip.elim genesisPreviousBlockHash (·.hash)) [] = .ok suffix ∧
        ¬ Fits config.maxPendingBytes.val suffix.blocks := by
  -- along the branches of `prepareExtensionBy`: only the pushes can fail for bytes
  cases hnext : st.nextHeight with
  | none =>
    have hprepare : prepareExtensionBy poll st config = .error (.ingest .overflow) := by
      rw [prepareExtensionBy, hnext]
      rfl
    simp [syncExtensionOnceBy, hprepare, HeadSyncError.IsByteLimit, IngestError.IsByteLimit]
  | some start =>
    simp only [Option.some.injEq]
    cases hsuffix : poll start (st.durableTip.elim genesisPreviousBlockHash (·.hash)) [] with
    | error e =>
      have hprepare : prepareExtensionBy poll st config = .error (.head e) := by
        simp only [prepareExtensionBy, hnext, okOr_some, ok_bind, hsuffix, okMapError_error,
          error_bind]
      simp only [syncExtensionOnceBy, hprepare, errs_error, HeadSyncError.IsByteLimit, false_iff]
      rintro ⟨_, suffix, rfl, hok, -⟩
      rw [hsuffix] at hok
      cases hok
    | ok suffix =>
      have hiff : (∃ start' suffix', start = start' ∧
          poll start' (st.durableTip.elim genesisPreviousBlockHash (·.hash)) [] = .ok suffix' ∧
          ¬ Fits config.maxPendingBytes.val suffix'.blocks) ↔
          ¬ Fits config.maxPendingBytes.val suffix.blocks := by
        constructor
        · rintro ⟨_, suffix', rfl, hok, hnot⟩
          rw [hsuffix] at hok
          cases hok
          exact hnot
        · intro hnot
          exact ⟨start, suffix, rfl, hsuffix, hnot⟩
      rw [hiff]
      cases hlast : suffix.blocks.getLast? with
      | none =>
        have hprepare : prepareExtensionBy poll st config = .ok none := by
          simp only [prepareExtensionBy, hnext, okOr_some, ok_bind, hsuffix, okMapError_ok, hlast]
          rfl
        rw [List.getLast?_eq_none_iff.mp hlast]
        simp [syncExtensionOnceBy, hprepare, fits_nil]
      | some last =>
        have hnew : ∃ b, OrderedBuilder.new st config.maxPendingBytes.val = .ok b := by
          simp [OrderedBuilder.new, hnext]
        obtain ⟨b, hnew⟩ := hnew
        have hle : b.nextHeight ≤ start := by
          simp only [OrderedBuilder.new, bind_eq_ok, okOr_eq_ok, pure_eq_ok, Except.ok.injEq,
            hnext, Option.some.injEq] at hnew
          obtain ⟨_, rfl, rfl⟩ := hnew
          exact le_rfl
        have hpush := (OrderedBuilder.filling_new hnew hle).errs_foldlM_push
          (hpoll _ _ _ hsuffix) (Nat.zero_le _) hlimit
        have hfits : Errs IngestError.IsByteLimit
            (suffix.blocks.foldlM OrderedBuilder.push b) ↔
            ¬ Fits config.maxPendingBytes.val suffix.blocks := by
          rw [hpush]
          unfold Fits
          push Not
          simp only [Nat.zero_add]
        rw [← hfits]
        cases hfold : suffix.blocks.foldlM OrderedBuilder.push b with
        | error e =>
          have hprepare : prepareExtensionBy poll st config = .error (.ingest e) := by
            simp only [prepareExtensionBy, hnext, okOr_some, ok_bind, hsuffix, okMapError_ok,
              hlast, hnew, hfold, okMapError_error, error_bind]
          simp only [syncExtensionOnceBy, hprepare, errs_error, HeadSyncError.IsByteLimit]
        | ok b' =>
          have hprepare : prepareExtensionBy poll st config =
              .ok (some (last.height.val, b')) := by
            simp only [prepareExtensionBy, hnext, okOr_some, ok_bind, hsuffix, okMapError_ok,
              hlast, hnew, hfold]
            rfl
          -- a block that was pushed fits in a batch, so the writes do not fail for bytes
          have hsmall := OrderedBuilder.Small.foldlM_push (.new hnew) hfold
          have hwrite := @not_errs_writeBatches ν _ s st
            (heightBelow last.height.val persistDepth) (heightBelow last.height.val sealDepth) _
            hmax b' hsmall
          simp only [syncExtensionOnceBy, hprepare, errs_ok, iff_false]
          split
          · rename_i heq
            rw [heq] at hwrite
            exact errs_error.not.mpr (errs_error.not.mp hwrite.1)
          · rename_i b'' heq
            have hdrain := (hwrite.2 _ _ _ heq).not_errs_drainRecords hmax last.height.val
            split
            · rename_i heq'
              rw [heq', errs_error] at hdrain
              exact errs_error.not.mpr hdrain
            · exact errs_ok

omit [Proto.Prost] in
/-- Filtered blocks count up from above the height of the filter. -/
theorem CountsFrom.filter {first : Nat} (h : CountsFrom first blocks) (height : Nat) :
    ∃ start, height < start ∧
      CountsFrom start (blocks.filter fun block => decide (height < block.height.val)) := by
  refine ⟨first + (height + 1 - first), by omega, ?_⟩
  intro i p hp
  rw [(filter_le_height (f := fun p : ParsedCompactBlock => p.height.val) h height).2,
    List.getElem?_drop] at hp
  rw [h _ p hp]
  omega

omit [Proto.Prost] in
/-- A deep reorg is no byte limit, and neither is the error that it replaces. -/
theorem HeadResult.errs_deepReorgOfAnchor (result : HeadResult ν) :
    Errs HeadSyncError.IsByteLimit result.deepReorgOfAnchor.2 ↔
      Errs HeadSyncError.IsByteLimit result.2 := by
  unfold HeadResult.deepReorgOfAnchor
  split
  · simp [HeadSyncError.IsByteLimit]
  · rfl

omit [Proto.Prost] in
theorem HeadResult.errs_ofCommit (s : Store ν)
    (result : Except HeadSyncError (Store ν × IndexState × List CompactBlockRecord)) :
    Errs HeadSyncError.IsByteLimit (HeadResult.ofCommit s result).2 ↔
      Errs HeadSyncError.IsByteLimit result := by
  unfold HeadResult.ofCommit
  split
  · simp
  · simp

variable {durable : List CompactBlockRecord}

/-- A record of the current chain has the height that it was looked up by. -/
theorem Represents.currentRecord_height (h : Represents .any s st durable) {height : Nat}
    {r : CompactBlockRecord} (hr : currentRecord s st head height = .ok (some r)) :
    r.height.val = height := by
  unfold currentRecord at hr
  split at hr
  · rename_i hcovers
    obtain ⟨tip, htip, hle⟩ := hcovers
    have htipHeight := h.describes.tip_height h.connected htip
    have hget : durable[height]? = some durable[height] := List.getElem?_eq_getElem (by omega)
    rw [h.snapshot, ok_bind, h.read hget, ok_bind] at hr
    cases hr
    exact h.connected.height_eq hget
  · have hfind : head.find? (fun block => decide (block.height.val = height)) = some r :=
      Except.ok.inj hr
    simpa using List.find?_some hfind

/-- A reconciliation fails for bytes exactly when the blocks above the common block
    do not fit. -/
theorem errs_replaceSuffixBy {oldVisibleTip : Nat}
    (hpoll : ∀ start previousHash known suffix, poll start previousHash known = .ok suffix →
      ∃ first, CountsFrom first suffix.blocks)
    (hlimit : config.maxPendingBytes.val + maxRecordBytes < 2 ^ 64)
    (hmax : maxRecordBytes ≤ config.maxBatchBytes.val) :
    Errs HeadSyncError.IsByteLimit (replaceSuffixBy s poll head config oldVisibleTip) ↔
      ∃ plan, planReplacement s poll head oldVisibleTip = .ok plan ∧
        ¬ Fits config.maxPendingBytes.val plan.blocks := by
  have hbuild : ∀ plan, planReplacement s poll head oldVisibleTip = .ok plan →
      (Errs IngestError.IsByteLimit (buildRecords plan.state plan.common plan.base.endTreeSizes
        plan.blocks plan.visibleTip config) ↔ ¬ Fits config.maxPendingBytes.val plan.blocks) := by
    intro plan hplan
    simp only [planReplacement, bind_eq_ok, okMapError_eq_ok, okOr_eq_ok, pure_eq_ok,
      Except.ok.injEq] at hplan
    obtain ⟨st, -, _, -, _, -, suffix, hsuffix, _, -, common, -, -, -, -, -, -, -, rfl⟩ := hplan
    obtain ⟨first, hcounts⟩ := hpoll _ _ _ _ (deepReorgOfAnchor_eq_ok hsuffix)
    obtain ⟨start, hstart, hcounts⟩ := hcounts.filter common.height
    exact errs_buildRecords hcounts hstart hlimit hmax
  unfold replaceSuffixBy prepareReplacement
  simp only [errs_bind, not_errs_planReplacement, not_errs_persistSuffix, errs_okMapError,
    HeadSyncError.IsByteLimit, pure_eq_ok, errs_ok, false_or, and_false, exists_false, or_false]
  exact exists_congr fun plan => and_congr_right (hbuild plan)

/-- A recovery fails for bytes exactly when the blocks above the common ancestor do
    not fit. -/
theorem errs_recoverDeepReorgBy (hrep : Represents .any s st durable)
    (hpoll : ∀ start previousHash suffix, poll start previousHash [] = .ok suffix →
      CountsFrom start suffix.blocks)
    (hlimit : config.maxPendingBytes.val + maxRecordBytes < 2 ^ 64)
    (hmax : maxRecordBytes ≤ config.maxBatchBytes.val) :
    Errs HeadSyncError.IsByteLimit (recoverDeepReorgBy s block poll head config).2 ↔
      ∃ plan, planRecovery s block poll head = .ok plan ∧
        ¬ Fits config.maxPendingBytes.val plan.blocks := by
  have hbuild : ∀ plan, planRecovery s block poll head = .ok plan →
      (Errs IngestError.IsByteLimit (buildRecords plan.state plan.common.blockId
        plan.common.endTreeSizes plan.blocks plan.visibleTip config) ↔
        ¬ Fits config.maxPendingBytes.val plan.blocks) := by
    intro plan hplan
    obtain ⟨hst, hcommon, prepared, hprepared, hblocks⟩ := planRecovery_eq_ok hplan
    obtain rfl : st = plan.state := Except.ok.inj (hrep.state.symm.trans hst)
    have hheight := hrep.currentRecord_height hcommon
    rw [← hblocks]
    refine errs_buildRecords (hpoll _ _ _ hprepared) ?_ hlimit hmax
    show plan.common.height.val < plan.matching + 1
    omega
  unfold recoverDeepReorgBy prepareRecovery
  rw [HeadResult.errs_ofCommit]
  simp only [errs_bind, not_errs_planRecovery, not_errs_persistRecovery, errs_okMapError,
    HeadSyncError.IsByteLimit, pure_eq_ok, errs_ok, false_or, and_false, exists_false, or_false]
  exact exists_congr fun plan => and_congr_right (hbuild plan)

/-! ## Whole calls -/

/-- The blocks that `syncHeadOnce` pushes into a builder: those above the durable tip
    when there is no head, else those above the last common block. -/
inductive SyncPushes (s : Store ν) (src : CanonicalBlockSource) (head : List CompactBlockRecord) :
    List ParsedCompactBlock → Prop where
  | extension {st : IndexState} {start : Nat} {suffix : CanonicalSuffix} :
      head = [] → s.getState = .ok st → st.nextHeight = some start →
      pollCanonicalHead src start (st.durableTip.elim genesisPreviousBlockHash (·.hash)) [] =
        .ok suffix →
      SyncPushes s src head suffix.blocks
  | replacement {st : IndexState} {last : CompactBlockRecord} {tip : Option BlockId}
      {plan : ReplacementPlan} :
      head.getLast? = some last → s.getState = .ok st → src.tip = .ok tip →
      tip ≠ some last.blockId →
      planReplacement s (pollCanonicalHead src) head last.height.val = .ok plan →
      SyncPushes s src head plan.blocks

/-- The blocks that `recoverDeepReorg` pushes: those above the common ancestor. -/
inductive RecoveryPushes (s : Store ν) (src : CanonicalBlockSource)
    (head : List CompactBlockRecord) : List ParsedCompactBlock → Prop where
  | recovery {plan : RecoveryPlan} :
      planRecovery s src.block (pollCanonicalHead src) head = .ok plan →
      RecoveryPushes s src head plan.blocks

theorem errs_syncHeadOnce (hsrc : src.AnswersHeights)
    (hlimit : config.maxPendingBytes.val + maxRecordBytes < 2 ^ 64)
    (hmax : maxRecordBytes ≤ config.maxBatchBytes.val) :
    Errs HeadSyncError.IsByteLimit (syncHeadOnce s src head config).2 ↔
      ∃ blocks, SyncPushes s src head blocks ∧ ¬ Fits config.maxPendingBytes.val blocks := by
  have hpoll : ∀ start previousHash suffix, pollCanonicalHead src start previousHash [] =
      .ok suffix → CountsFrom start suffix.blocks := by
    intro start previousHash suffix hsuffix
    obtain ⟨first, hcounts, hfirst⟩ := hsrc.pollCanonicalHead hsuffix
    rw [← hfirst rfl]
    exact hcounts
  unfold syncHeadOnce syncHeadOnceBy
  cases hstate : s.getState with
  | error e =>
    simp only [errs_error, HeadSyncError.IsByteLimit, false_iff]
    intro hand
    obtain ⟨blocks, hpushes, -⟩ := hand
    cases hpushes with
    | extension _ hst => simp [hstate] at hst
    | replacement _ hst => simp [hstate] at hst
  | ok st =>
    cases hlast : head.getLast? with
    | none =>
      have hnil := List.getLast?_eq_none_iff.mp hlast
      simp only [HeadResult.errs_deepReorgOfAnchor, errs_syncExtensionOnceBy hpoll hlimit hmax]
      constructor
      · intro hand
        obtain ⟨start, suffix, hnext, hsuffix, hnot⟩ := hand
        exact ⟨suffix.blocks, .extension hnil hstate hnext hsuffix, hnot⟩
      · intro hand
        obtain ⟨blocks, hpushes, hnot⟩ := hand
        cases hpushes with
        | extension _ hst hnext hsuffix =>
          rw [hstate] at hst
          cases hst
          exact ⟨_, _, hnext, hsuffix, hnot⟩
        | replacement hsome => simp [hlast] at hsome
    | some last =>
      -- a changed tip is reconciled; else nothing is pushed
      have hnone : (∀ tip, src.tip = .ok tip → tip = some last.blockId) →
          ¬ ∃ blocks, SyncPushes s src head blocks ∧ ¬ Fits config.maxPendingBytes.val blocks := by
        intro htips hand
        obtain ⟨blocks, hpushes, -⟩ := hand
        cases hpushes with
        | extension hnil => simp [hnil] at hlast
        | replacement hsome _ htip hne =>
          rw [hlast] at hsome
          cases hsome
          exact hne (htips _ htip)
      cases htip : src.tip with
      | error e =>
        simp only [errs_error, HeadSyncError.IsByteLimit, false_iff]
        exact hnone (by simp [htip])
      | ok tip =>
        by_cases heq : tip = some last.blockId
        · simp only [if_pos heq, errs_ok, false_iff]
          refine hnone ?_
          intro tip' htip'
          rw [htip] at htip'
          cases htip'
          exact heq
        · simp only [if_neg heq, HeadResult.errs_ofCommit]
          rw [errs_replaceSuffixBy (fun _ _ _ _ h => (hsrc.pollCanonicalHead h).imp
            fun _ hcounts => hcounts.1) hlimit hmax]
          constructor
          · intro hand
            obtain ⟨plan, hplan, hnot⟩ := hand
            exact ⟨plan.blocks, .replacement hlast hstate htip heq hplan, hnot⟩
          · intro hand
            obtain ⟨blocks, hpushes, hnot⟩ := hand
            cases hpushes with
            | extension hnil => simp [hnil] at hlast
            | replacement hsome _ _ _ hplan =>
              rw [hlast] at hsome
              cases hsome
              exact ⟨_, hplan, hnot⟩

theorem errs_recoverDeepReorg (hrep : Represents .any s st durable) (hsrc : src.AnswersHeights)
    (hlimit : config.maxPendingBytes.val + maxRecordBytes < 2 ^ 64)
    (hmax : maxRecordBytes ≤ config.maxBatchBytes.val) :
    Errs HeadSyncError.IsByteLimit (recoverDeepReorg s src head config).2 ↔
      ∃ blocks, RecoveryPushes s src head blocks ∧ ¬ Fits config.maxPendingBytes.val blocks := by
  unfold recoverDeepReorg
  rw [errs_recoverDeepReorgBy hrep ?_ hlimit hmax]
  · constructor
    · intro hand
      obtain ⟨plan, hplan, hnot⟩ := hand
      exact ⟨plan.blocks, .recovery hplan, hnot⟩
    · intro hand
      obtain ⟨_, ⟨hplan⟩, hnot⟩ := hand
      exact ⟨_, hplan, hnot⟩
  · intro start previousHash suffix hsuffix
    obtain ⟨first, hcounts, hfirst⟩ := hsrc.pollCanonicalHead hsuffix
    rw [← hfirst rfl]
    exact hcounts

/-- With the default limits, a call fails for bytes exactly when the size bounds of
    the blocks that it pushes do not add up to at most 256 MiB. -/
theorem head_sync_fits_iff [Blake3] (s : Store ν) (hreach : Reachable (Call.Honest .any) s)
    (head : List CompactBlockRecord) (src : CanonicalBlockSource) (hsrc : src.AnswersHeights)
    (parallelism : U64) :
    (¬ Errs HeadSyncError.IsByteLimit
        (syncHeadOnce s src head (.ofParallelism parallelism)).2 ↔
      ∀ blocks, SyncPushes s src head blocks → Fits (256 * mib).val blocks) ∧
    (¬ Errs HeadSyncError.IsByteLimit
        (recoverDeepReorg s src head (.ofParallelism parallelism)).2 ↔
      ∀ blocks, RecoveryPushes s src head blocks → Fits (256 * mib).val blocks) := by
  obtain ⟨st, durable, hrep⟩ := hreach.represents fun _ hc => hc
  have hlimit : (PipelineConfig.ofParallelism parallelism).maxPendingBytes.val + maxRecordBytes <
      2 ^ 64 := by
    show (256 * mib).val + maxRecordBytes < 2 ^ 64
    decide
  have hmax : maxRecordBytes ≤ (PipelineConfig.ofParallelism parallelism).maxBatchBytes.val := by
    show maxRecordBytes ≤ (16 * mib).val
    decide
  constructor
  · rw [errs_syncHeadOnce hsrc hlimit hmax]
    push Not
    rfl
  · rw [errs_recoverDeepReorg hrep hsrc hlimit hmax]
    push Not
    rfl

end

/-! ## Blocks that do not fit -/

variable {blocks : List RawIndexBlock} {parsed : List ParsedCompactBlock}
  {records : List CompactBlockRecord}

theorem CanonicalBlockSource.ofBlocks_answersHeights (h : RawChain blocks) :
    (ofBlocks blocks).AnswersHeights := by
  intro height block hblock
  exact h.height height block (Except.ok.inj hblock)

/-- A poll of the empty index reads the whole chain. -/
theorem pollCanonicalHead_genesis (hindexed : Indexed blocks parsed records)
    (hwindow : blocks.length ≤ maxBlockReorgHeight) :
    pollCanonicalHead (.ofBlocks blocks) 0 genesisPreviousBlockHash [] =
      .ok { retained := none, blocks := parsed } := by
  have hlt : blocks.length < 2 ^ 32 := by
    simp only [maxBlockReorgHeight] at hwindow
    omega
  have hpoll := pollCanonicalHead_eq (CanonicalBlockSource.ofBlocks_serves blocks) hindexed hlt
    0 0 [] (Nat.zero_le _) rfl (by simp) le_rfl (by simp) (by simp)
  rw [if_pos (by omega)] at hpoll
  exact hpoll

/-- A call on the empty index pushes the whole chain. -/
theorem syncPushes_empty_iff [Proto.Prost] {pushed : List ParsedCompactBlock}
    (hindexed : Indexed blocks parsed records) (hwindow : blocks.length ≤ maxBlockReorgHeight) :
    SyncPushes (Store.empty : Store ν) (.ofBlocks blocks) [] pushed ↔ pushed = parsed := by
  have hempty : Represents .any (Store.empty : Store ν) {} [] := represents_empty
  have hstate := hempty.state
  have hpoll := pollCanonicalHead_genesis hindexed hwindow
  constructor
  · intro hpushes
    cases hpushes with
    | extension _ hst hnext hsuffix =>
      rw [hstate] at hst
      cases hst
      cases hnext
      have heq := hpoll.symm.trans hsuffix
      cases heq
      rfl
    | replacement hlast => cases hlast
  · intro heq
    subst heq
    exact SyncPushes.extension rfl hstate rfl hpoll

/-- Blocks of one size fit by their number. -/
theorem fits_branch_iff {n fork limit : Nat} {heights : List Nat}
    (hsmall : 256 + 128 * (n + 1) ≤ maxRecordBytes) :
    Fits limit (heights.map (branchParsed (n + 1) fork)) ↔
      heights.length * (256 + 128 * (n + 1)) ≤ limit := by
  have hsum : ∀ k, (((heights.map (branchParsed (n + 1) fork)).take k).map
      (·.size)).sum = min k heights.length * (256 + 128 * (n + 1)) := by
    intro k
    have hconst : ((heights.map (branchParsed (n + 1) fork)).take k).map (·.size) =
        List.replicate (min k heights.length) (256 + 128 * (n + 1)) := by
      rw [List.eq_replicate_iff]
      constructor
      · simp
      · intro size hsize
        obtain ⟨p, hp, rfl⟩ := List.mem_map.mp hsize
        obtain ⟨height, -, rfl⟩ := List.mem_map.mp (List.mem_of_mem_take hp)
        exact branchParsed_size n fork height
    rw [hconst, List.sum_replicate_nat]
  unfold Fits
  simp only [hsum]
  constructor
  · intro hfits
    have hle := hfits heights.length (by
      intro p hp
      obtain ⟨height, -, rfl⟩ := List.mem_map.mp (List.mem_of_mem_take hp)
      rw [branchParsed_size]
      exact hsmall)
    rwa [Nat.min_self] at hle
  · intro hle k _
    exact (Nat.mul_le_mul_right _ (Nat.min_le_right k _)).trans hle

section

attribute [local instance] Proto.wireDecoder zeroDigest

/-- A thousand blocks with one output each fit on an empty index. So do the blocks that a
    recovery pushes, where the chain of the node leaves that of the index at block 5. -/
theorem head_sync_fits_shielded : ∃ (s : Store Unit) (st : IndexState),
    Reachable (Call.Honest .any) s ∧
    Represents plainHeight s st ((branchRecords 1 100 20).take 10) ∧
    RecoveryPushes s (.ofBlocks (branchBlocks 1 5 22)) ((branchRecords 1 100 20).drop 10)
      (((List.range 22).drop 5).map (branchParsed 1 5)) ∧
    ¬ Errs HeadSyncError.IsByteLimit (recoverDeepReorg s (.ofBlocks (branchBlocks 1 5 22))
        ((branchRecords 1 100 20).drop 10) (.ofParallelism 8)).2 ∧
    ¬ Errs HeadSyncError.IsByteLimit (syncHeadOnce (Store.empty : Store Unit)
        (.ofBlocks (branchBlocks 1 0 1000)) [] (.ofParallelism 8)).2 := by
  have hheights {fork length : Nat} (hlength : length ≤ 2 ^ 32) :=
    CanonicalBlockSource.ofBlocks_answersHeights (@branchBlocks_rawChain 1 fork length hlength)
  have hindexed := @branchBlocks_indexed 1 1000 0 (by decide) (by omega) (by omega)
  have hcur := @branchBlocks_nodeChain 100 1 20 (by decide) (by decide) (by decide)
  have hnode := @branchBlocks_nodeChain 5 1 22 (by decide) (by decide) (by decide)
  obtain ⟨s, st, hreach, hrep, -⟩ := hcur.reachable (ν := Unit) (fun c hc _ => hc) (n := 10)
    (by simp)
  have hreach := hreach.mono fun c hc => (⟨hc.1, c.respects_any⟩ : c.Honest .any)
  have hcommon : commonLength (branchBlocks 1 100 20) (branchBlocks 1 5 22) = 4 + 1 :=
    branchBlocks_commonLength (by decide) (by decide)
  have hbase : ((branchRecords 1 100 20).take 10 ++ (branchRecords 1 100 20).drop 10)[4]? =
      some (branchRecord 1 100 4) := by
    rw [List.take_append_drop]
    exact branchRecords_getElem? (by decide)
  have hplan := (hcur.follows hrep).planRecovery hnode
    (branchBlocks_noCollision (by decide) (by decide)) (CanonicalBlockSource.ofBlocks_serves _)
    hcommon (by rw [length_branchBlocks]; decide) hbase rfl
  rw [← List.map_drop] at hplan
  refine ⟨s, st, hreach, hrep, .recovery hplan, ?_, ?_⟩
  · refine (head_sync_fits_iff s hreach _ _ (hheights (by decide)) 8).2.mpr ?_
    intro blocks hpushes
    cases hpushes with
    | recovery hplan' =>
      cases hplan.symm.trans hplan'
      exact (fits_branch_iff (by decide)).mpr (by decide)
  · refine (head_sync_fits_iff _ .empty [] _ (hheights (by decide)) 8).1.mpr ?_
    intro blocks hpushes
    rw [(syncPushes_empty_iff hindexed (by simp [maxBlockReorgHeight])).mp hpushes,
      fits_branch_iff (by decide), List.length_range]
    decide

/-- A thousand blocks below 2,000,000 bytes, which the parser accepts, do not fit. -/
theorem head_sync_exceeds_budget :
    (branchBlocks 2100 0 1000).length = maxBlockReorgHeight ∧
    RawChain (branchBlocks 2100 0 1000) ∧
    (∀ block ∈ branchBlocks 2100 0 1000, block.bytes.length ≤ 2000000 ∧
      ∃ parsed, parseBlock block = .ok parsed) ∧
    Errs HeadSyncError.IsByteLimit (syncHeadOnce (Store.empty : Store Unit)
      (.ofBlocks (branchBlocks 2100 0 1000)) [] (.ofParallelism 8)).2 := by
  have hchain := @branchBlocks_rawChain 2100 0 1000 (by omega)
  have hindexed := @branchBlocks_indexed 2100 1000 0 (by decide) (by omega) (by omega)
  refine ⟨?_, hchain, ?_, ?_⟩
  · rw [length_branchBlocks]
    rfl
  · intro block hblock
    obtain ⟨height, -, rfl⟩ := List.mem_map.mp hblock
    have hle := branchRaw_length_le 2100 0 height
    exact ⟨by omega, _, parseBlock_branchRaw (by decide) 0 height⟩
  · rw [errs_syncHeadOnce (CanonicalBlockSource.ofBlocks_answersHeights hchain)
      (show (256 * mib).val + maxRecordBytes < 2 ^ 64 by decide)
      (show maxRecordBytes ≤ (16 * mib).val by decide)]
    refine ⟨_, (syncPushes_empty_iff hindexed (by simp [maxBlockReorgHeight])).mpr
      rfl, ?_⟩
    rw [fits_branch_iff (by decide), List.length_range]
    decide

end

end Ztreamer
