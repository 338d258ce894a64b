import Mathlib.Order.Bounds.Basic
import Ztreamer.Chain.Plain
import Ztreamer.Index.Building

/-! # Runs of the ordered builder

    A builder is made from a state of the index. Blocks are pushed into it in any
    order, and batches are built from it in between. Whatever the order, the
    batches hold the blocks by height, and the counters of the builder are sums
    over the blocks that were pushed.

    * `OrderedBuilder.Runs`: the pushed blocks and the batches of a run,
    * `OrderedBuilder.Accounts`, `OrderedBuilder.Delivers`: what a run keeps,
    * `takeBatch_stops`: where a batch ends,
    * `ordered_builder`: a run as a whole.
-/

namespace Ztreamer

open Octets Result

/-! ## Sizes of pushed blocks -/

/-- The size of the blocks whose height is in `P`. -/
def bytesWhere (P : Nat → Prop) [DecidablePred P] (blocks : List ParsedCompactBlock) : Nat :=
  ((blocks.filter fun block => P block.height.val).map (·.size)).sum

section

variable {P Q : Nat → Prop} [DecidablePred P] [DecidablePred Q] {blocks : List ParsedCompactBlock}
  {block : ParsedCompactBlock}

theorem bytesWhere_append (block : ParsedCompactBlock) :
    bytesWhere P (blocks ++ [block]) =
      bytesWhere P blocks + if P block.height.val then block.size else 0 := by
  unfold bytesWhere
  rw [List.filter_append, List.map_append, List.sum_append_nat]
  by_cases h : P block.height.val
  · simp [h]
  · simp [h]

theorem bytesWhere_congr (h : ∀ block ∈ blocks, P block.height.val ↔ Q block.height.val) :
    bytesWhere P blocks = bytesWhere Q blocks := by
  unfold bytesWhere
  rw [List.filter_congr fun block hblock => decide_eq_decide.mpr (h block hblock)]

/-- One block is counted once, when no other one has its height. -/
theorem bytesWhere_split (hdistinct : (blocks.map (·.height.val)).Nodup) (hblock : block ∈ blocks)
    (hP : P block.height.val) :
    bytesWhere P blocks =
      block.size + bytesWhere (fun height => P height ∧ height ≠ block.height.val) blocks := by
  induction blocks with
  | nil => cases hblock
  | cons first rest ih =>
    rw [List.map_cons, List.nodup_cons, List.mem_map, not_exists] at hdistinct
    obtain ⟨hfirst, hrest⟩ := hdistinct
    have hcons : ∀ (R : Nat → Prop) [DecidablePred R], bytesWhere R (first :: rest) =
        (if R first.height.val then first.size else 0) + bytesWhere R rest := by
      intro R _
      unfold bytesWhere
      by_cases h : R first.height.val
      · simp [h]
      · simp [h]
    rw [hcons, hcons]
    rcases List.mem_cons.mp hblock with rfl | hmem
    · have hsame : bytesWhere P rest =
          bytesWhere (fun height => P height ∧ height ≠ block.height.val) rest := by
        apply bytesWhere_congr
        intro other hother
        have hne : other.height.val ≠ block.height.val := fun heq => hfirst other ⟨hother, heq⟩
        exact ⟨fun h => ⟨h, hne⟩, fun h => h.1⟩
      rw [if_pos hP, if_neg (by simp), hsame, Nat.zero_add]
    · have hne : first.height.val ≠ block.height.val := fun heq => hfirst block ⟨hmem, heq.symm⟩
      rw [ih hrest hmem]
      simp only [hne, ne_eq, not_false_eq_true, and_true]
      omega

end

namespace OrderedBuilder

/-! ## The counters -/

/-- What the builder keeps of the blocks `pushed` above `start`: the ones from its
    next height on, with the sums of their sizes. -/
structure Accounts (start : Nat) (pushed : List ParsedCompactBlock) (b : OrderedBuilder) :
    Prop where
  distinct : (pushed.map (·.height.val)).Nodup
  above : ∀ block ∈ pushed, start ≤ block.height.val
  below : ∀ height, start ≤ height → height < b.nextHeight →
    ∃ block ∈ pushed, block.height.val = height
  pending : ∀ (height : Nat) (entry : ParsedCompactBlock × Nat),
    b.pending[height]? = some entry ↔ b.nextHeight ≤ height ∧
      ∃ block ∈ pushed, block.height.val = height ∧ entry = (block, block.size)
  pendingBytes : b.pendingBytes = bytesWhere (b.nextHeight ≤ ·) pushed
  next_le : b.nextHeight ≤ b.readyEnd
  ready : ∀ height, b.nextHeight ≤ height → height < b.readyEnd →
    ∃ block ∈ pushed, block.height.val = height
  readyBytes : b.readyBytes =
    bytesWhere (fun height => b.nextHeight ≤ height ∧ height < b.readyEnd) pushed

/-- No block was pushed at `height`. -/
def Missing (pushed : List ParsedCompactBlock) (height : Nat) : Prop :=
  ∀ block ∈ pushed, block.height.val ≠ height

namespace Accounts

variable {start : Nat} {pushed : List ParsedCompactBlock} {b b' : OrderedBuilder}
  {block : ParsedCompactBlock} {bytes : Nat}

variable (h : b.Accounts start pushed)

include h

theorem pending_eq_none {height : Nat} (hnext : b.nextHeight ≤ height) :
    b.pending[height]? = none ↔ Missing pushed height := by
  rw [Option.eq_none_iff_forall_ne_some]
  constructor
  · intro hnone block hblock hheight
    exact hnone _ ((h.pending height (block, block.size)).mpr ⟨hnext, block, hblock, hheight, rfl⟩)
  · intro hmissing entry hentry
    obtain ⟨-, block, hblock, hheight, -⟩ := (h.pending height entry).mp hentry
    exact hmissing block hblock hheight

theorem isLeast (hstart : start ≤ b.nextHeight) (hmissing : Missing pushed b.readyEnd) :
    IsLeast {height | start ≤ height ∧ Missing pushed height} b.readyEnd := by
  refine ⟨⟨hstart.trans h.next_le, hmissing⟩, ?_⟩
  rintro height ⟨hheight, hnone⟩
  by_contra hlt
  rw [Nat.not_le] at hlt
  have hpushed : ∃ block ∈ pushed, block.height.val = height := by
    by_cases hnext : height < b.nextHeight
    · exact h.below height hheight hnext
    · exact h.ready height (Nat.not_lt.mp hnext) hlt
  obtain ⟨block, hblock, heq⟩ := hpushed
  exact hnone block hblock heq

/-- The ready prefix grows by the block at its end. -/
theorem readyBytes_succ (hblock : block ∈ pushed) (hheight : block.height.val = b.readyEnd) :
    bytesWhere (fun height => b.nextHeight ≤ height ∧ height < b.readyEnd + 1) pushed =
      b.readyBytes + block.size := by
  have hnext := h.next_le
  rw [bytesWhere_split h.distinct hblock ⟨by omega, by omega⟩, h.readyBytes, Nat.add_comm]
  congr 1
  apply bytesWhere_congr
  intro other _
  omega

theorem advanceReady (hok : b.advanceReady = .ok b') :
    b'.Accounts start pushed ∧ Missing pushed b'.readyEnd := by
  fun_induction OrderedBuilder.advanceReady b with
  | case1 b hlt hnone =>
    cases hok
    exact ⟨h, (h.pending_eq_none h.next_le).mp hnone⟩
  | case2 b hlt next bytes hsome hfits ih =>
    obtain ⟨-, block, hblock, hheight, hentry⟩ := (h.pending _ _).mp hsome
    cases hentry
    refine ih ⟨h.distinct, h.above, h.below, h.pending, h.pendingBytes, Nat.le_succ_of_le h.next_le,
      ?_, ?_⟩ hok
    · intro height hge hheightLt
      by_cases heq : height = b.readyEnd
      · exact ⟨next, hblock, hheight.trans heq.symm⟩
      · have hlt' : height < b.readyEnd := by
          simp only at hheightLt
          omega
        exact h.ready height hge hlt'
    · exact (h.readyBytes_succ hblock hheight).symm
  | case3 => cases hok
  | case4 b hge =>
    cases hok
    refine ⟨h, fun block _ heq => ?_⟩
    have := block.height.isLt
    omega

/-- A push adds a block that was not pushed before. -/
theorem push (hmissing : Missing pushed b.readyEnd) (hstart : start ≤ b.nextHeight)
    (hok : b.push block = .ok b') :
    b'.Accounts start (pushed ++ [block]) ∧ Missing (pushed ++ [block]) b'.readyEnd := by
  simp only [OrderedBuilder.push, bind_eq_ok, ensure_eq_ok, okMapError_eq_ok] at hok
  obtain ⟨-, ⟨hnext, hnone⟩, bytes, hbytes, -, -, -, -, hok⟩ := hok
  obtain rfl : block.size = bytes := (encodedSizeBound_eq_ok.mp hbytes).2
  have hnew : Missing pushed block.height.val := (h.pending_eq_none hnext).mp hnone
  have haccounts : Accounts start (pushed ++ [block]) { b with
      pendingBytes := b.pendingBytes + block.size
      pending := b.pending.insert block.height.val (block, block.size) } := by
    refine ⟨?_, ?_, ?_, ?_, ?_, h.next_le, ?_, ?_⟩
    · rw [List.map_append, List.nodup_append]
      refine ⟨h.distinct, List.nodup_singleton _, ?_⟩
      intro height hheight height' hheight'
      obtain ⟨other, hother, rfl⟩ := List.mem_map.mp hheight
      obtain rfl := List.mem_singleton.mp hheight'
      exact hnew other hother
    · intro other hother
      rcases List.mem_append.mp hother with hother | hother
      · exact h.above other hother
      · rw [List.mem_singleton.mp hother]
        exact hstart.trans hnext
    · intro height hge hlt
      obtain ⟨other, hother, heq⟩ := h.below height hge hlt
      exact ⟨other, List.mem_append_left _ hother, heq⟩
    · intro height entry
      simp only
      rw [Table.get_put]
      split
      case isTrue heq =>
        subst heq
        constructor
        · intro hentry
          cases hentry
          exact ⟨hnext, block, by simp, rfl, rfl⟩
        · rintro ⟨-, other, hother, heq, rfl⟩
          rcases List.mem_append.mp hother with hother | hother
          · exact absurd heq (hnew other hother)
          · rw [List.mem_singleton.mp hother]
      case isFalse hne =>
        rw [h.pending height entry]
        refine and_congr_right fun _ => ?_
        constructor
        · rintro ⟨other, hother, heq⟩
          exact ⟨other, List.mem_append_left _ hother, heq⟩
        · rintro ⟨other, hother, heq, hentry⟩
          rcases List.mem_append.mp hother with hother | hother
          · exact ⟨other, hother, heq, hentry⟩
          · rw [List.mem_singleton.mp hother] at heq
            exact absurd heq hne
    · rw [bytesWhere_append, if_pos hnext, ← h.pendingBytes]
    · intro height hge hlt
      obtain ⟨other, hother, heq⟩ := h.ready height hge hlt
      exact ⟨other, List.mem_append_left _ hother, heq⟩
    · -- a block below the end of the ready prefix was pushed before
      have hnot : ¬ (b.nextHeight ≤ block.height.val ∧ block.height.val < b.readyEnd) := by
        rintro ⟨hge, hlt⟩
        obtain ⟨other, hother, heq⟩ := h.ready _ hge hlt
        exact hnew other hother heq
      rw [bytesWhere_append, if_neg hnot, Nat.add_zero]
      exact h.readyBytes
  split at hok
  case isTrue => exact haccounts.advanceReady hok
  case isFalse hne =>
    cases hok
    refine ⟨haccounts, fun other hother => ?_⟩
    rcases List.mem_append.mp hother with hother | hother
    · exact hmissing other hother
    · rw [List.mem_singleton.mp hother]
      exact hne

theorem takeNext (hmissing : Missing pushed b.readyEnd)
    (hsome : b.pending[b.nextHeight]? = some (block, bytes)) {record : CompactBlockRecord}
    (hok : b.takeNext block bytes = .ok (b', record)) :
    b'.Accounts start pushed ∧ Missing pushed b'.readyEnd := by
  obtain ⟨-, -, -, rfl⟩ := takeNext_eq_ok.mp hok
  obtain ⟨-, block, hblock, hheight, hentry⟩ := (h.pending _ _).mp hsome
  cases hentry
  -- the first missing height is not the one that leaves
  have hlt : b.nextHeight < b.readyEnd :=
    lt_of_le_of_ne h.next_le fun heq => hmissing _ hblock (hheight.trans heq)
  have hpending := bytesWhere_split (P := (b.nextHeight ≤ ·)) h.distinct hblock hheight.ge
  have hready := bytesWhere_split
    (P := fun height => b.nextHeight ≤ height ∧ height < b.readyEnd) h.distinct hblock
    ⟨hheight.ge, hheight ▸ hlt⟩
  refine ⟨⟨h.distinct, h.above, ?_, ?_, ?_, hlt, ?_, ?_⟩, hmissing⟩
  · intro height hge hheightLt
    by_cases heq : height = b.nextHeight
    · exact ⟨_, hblock, hheight.trans heq.symm⟩
    · have hlt' : height < b.nextHeight := by
        simp only at hheightLt
        omega
      exact h.below height hge hlt'
  · intro height entry
    simp only
    rw [Table.get_delete]
    split
    case isTrue heq =>
      subst heq
      simp
    case isFalse hne =>
      rw [h.pending height entry]
      refine and_congr_left fun _ => ?_
      omega
  · simp only
    rw [h.pendingBytes, hpending, Nat.add_sub_cancel_left, hheight]
    apply bytesWhere_congr
    intro other _
    omega
  · intro height hge hheightLt
    exact h.ready height (by simp only at hge; omega) hheightLt
  · simp only
    rw [h.readyBytes, hready, Nat.add_sub_cancel_left, hheight]
    apply bytesWhere_congr
    intro other _
    omega

end Accounts

/-! ## The batches -/

/-- The builder was made from `st`, and has given up the blocks `taken` of `pushed`
    as the records `emitted`. -/
structure Delivers (st : IndexState) (start : Nat) (pushed taken : List ParsedCompactBlock)
    (emitted : List CompactBlockRecord) (b : OrderedBuilder) : Prop where
  nextHeight : b.nextHeight = start + taken.length
  previousHash : b.previousHash =
    (taken.getLast?.map (·.hash)).or (st.durableTip.map (·.hash))
  treeSizes : b.treeSizes = endSizes st.treeSizes emitted
  records : indexBlocks st.treeSizes taken = some emitted
  subset : ∀ block ∈ taken, block ∈ pushed
  height : ∀ (i : Nat) (block : ParsedCompactBlock), taken[i]? = some block →
    block.height.val = start + i
  first : ∀ block ∈ taken.head?, ∀ tip ∈ st.durableTip, block.previousHash = tip.hash
  links : taken.IsChain fun below above => above.previousHash = below.hash

section

variable {st : IndexState} {start : Nat} {pushed taken : List ParsedCompactBlock}
  {emitted : List CompactBlockRecord} {b b' : OrderedBuilder}

theorem Delivers.takeNext {block : ParsedCompactBlock} {bytes : Nat} {record : CompactBlockRecord}
    (h : b.Delivers st start pushed taken emitted) (hblock : block ∈ pushed)
    (hheight : block.height.val = b.nextHeight) (hok : b.takeNext block bytes = .ok (b', record)) :
    b'.Delivers st start pushed (taken ++ [block]) (emitted ++ [record]) := by
  obtain ⟨hparent, hrecord, -, rfl⟩ := takeNext_eq_ok.mp hok
  have hnext := h.nextHeight
  rw [h.treeSizes] at hrecord
  rw [h.previousHash] at hparent
  refine ⟨?_, ?_, ?_, ?_, ?_, ?_, ?_, ?_⟩
  · simp only [List.length_append, List.length_singleton]
    omega
  · simp
  · simp [endSizes]
  · refine indexBlocks_append_eq_some.mpr ⟨emitted, [record], h.records, ?_, rfl⟩
    exact indexBlocks_cons_eq_some.mpr ⟨record, [], hrecord, rfl, rfl⟩
  · intro other hother
    rcases List.mem_append.mp hother with hother | hother
    · exact h.subset other hother
    · rw [List.mem_singleton.mp hother]
      exact hblock
  · intro i other hother
    rw [List.getElem?_append] at hother
    split at hother
    case isTrue => exact h.height i other hother
    case isFalse hlen =>
      obtain ⟨hi, rfl⟩ := List.getElem?_eq_some_iff.mp hother
      simp only [List.length_singleton, Nat.lt_one_iff] at hi
      simp only [List.getElem_singleton]
      omega
  · -- the first block was compared with the tip
    cases taken with
    | nil =>
      intro other hother tip htip
      obtain rfl := Option.some.inj hother
      refine hparent tip.hash ?_
      rw [Option.mem_def] at htip ⊢
      rw [htip]
      rfl
    | cons => exact h.first
  · rw [List.isChain_append]
    refine ⟨h.links, .singleton _, ?_⟩
    intro below hbelow above habove
    obtain rfl := Option.some.inj habove
    refine hparent below.hash ?_
    rw [Option.mem_def] at hbelow ⊢
    rw [hbelow]
    rfl

/-- What holds after every step of a run. -/
structure Serves (st : IndexState) (start : Nat) (pushed taken : List ParsedCompactBlock)
    (emitted : List CompactBlockRecord) (b : OrderedBuilder) : Prop extends
    b.Delivers st start pushed taken emitted, b.Accounts start pushed where
  missing : Missing pushed b.readyEnd

section

variable (h : b.Serves st start pushed taken emitted)

include h

theorem Serves.start_le : start ≤ b.nextHeight := by
  rw [h.nextHeight]
  exact Nat.le_add_right _ _

theorem Serves.push {block : ParsedCompactBlock} (hok : b.push block = .ok b') :
    b'.Serves st start (pushed ++ [block]) taken emitted := by
  obtain ⟨haccounts, hmissing⟩ := h.toAccounts.push h.missing h.start_le hok
  obtain ⟨-, hnext, hprevious, hsizes, -⟩ := push_eq_ok hok
  refine ⟨⟨?_, ?_, ?_, h.records, ?_, h.height, h.first, h.links⟩, haccounts, hmissing⟩
  · rw [hnext]
    exact h.nextHeight
  · rw [hprevious]
    exact h.previousHash
  · rw [hsizes]
    exact h.treeSizes
  · intro other hother
    exact List.mem_append_left _ (h.subset other hother)

theorem Serves.takes {blocks : List ParsedCompactBlock} {records : List CompactBlockRecord}
    (htakes : Takes b blocks records b') :
    b'.Serves st start pushed (taken ++ blocks) (emitted ++ records) := by
  induction htakes generalizing taken emitted with
  | nil =>
    rw [List.append_nil, List.append_nil]
    exact h
  | @cons b b₁ b₂ block bytes record blocks records hsome hnext _ ih =>
    obtain ⟨-, _, hblock, hheight, hentry⟩ := (h.pending _ _).mp hsome
    cases hentry
    obtain ⟨haccounts, hmissing⟩ := h.toAccounts.takeNext h.missing hsome hnext
    have hserves := ih ⟨h.toDelivers.takeNext hblock hheight hnext, haccounts, hmissing⟩
    rwa [List.append_assoc, List.append_assoc] at hserves

theorem Serves.withGeneration (generation : Nat) :
    Serves st start pushed taken emitted { b with generation } where
  nextHeight := h.nextHeight
  previousHash := h.previousHash
  treeSizes := h.treeSizes
  records := h.records
  subset := h.subset
  height := h.height
  first := h.first
  links := h.links
  distinct := h.distinct
  above := h.above
  below := h.below
  pending := h.pending
  pendingBytes := h.pendingBytes
  next_le := h.next_le
  ready := h.ready
  readyBytes := h.readyBytes
  missing := h.missing

theorem Serves.build {durableThrough sealThrough : Option Nat} {maxBatchBytes : Nat}
    {batch : Option WriteBatch}
    (hok : b.buildBatch durableThrough sealThrough maxBatchBytes = .ok (b', batch)) :
    ∃ blocks, b'.Serves st start pushed (taken ++ blocks)
      (emitted ++ batch.toList.flatMap (·.records)) := by
  cases batch with
  | none =>
    rw [buildBatch_eq_none hok]
    refine ⟨[], ?_⟩
    simpa using h
  | some batch =>
    obtain ⟨blocks, b₁, htakes, -, -, -, rfl⟩ := buildBatch_eq_some hok
    refine ⟨blocks, ?_⟩
    simpa using (h.takes htakes).withGeneration _

end

theorem Serves.new {maxPendingBytes : Nat} (hnew : new st maxPendingBytes = .ok b) :
    b.Serves st b.nextHeight [] [] [] := by
  simp only [OrderedBuilder.new, bind_eq_ok, pure_eq_ok, Except.ok.injEq] at hnew
  obtain ⟨next, -, rfl⟩ := hnew
  refine ⟨⟨rfl, rfl, rfl, rfl, by simp, by simp, by simp, .nil⟩,
    ⟨.nil, by simp, ?_, ?_, rfl, le_rfl, ?_, rfl⟩, by simp [Missing]⟩
  · intro height hge hlt
    exact absurd hlt (Nat.not_lt.mpr hge)
  · intro height entry
    simp
  · intro height hge hlt
    exact absurd hlt (Nat.not_lt.mpr hge)

end

/-! ## Runs -/

/-- From `b₀`, the blocks `pushed` were pushed in this order and `batches` were
    built in between. No call returned an error. -/
inductive Runs (b₀ : OrderedBuilder) : List ParsedCompactBlock → List WriteBatch →
    OrderedBuilder → Prop where
  | refl : Runs b₀ [] [] b₀
  | push {pushed : List ParsedCompactBlock} {batches : List WriteBatch} {b b' : OrderedBuilder}
      (block : ParsedCompactBlock) : Runs b₀ pushed batches b → b.push block = .ok b' →
      Runs b₀ (pushed ++ [block]) batches b'
  | build {pushed : List ParsedCompactBlock} {batches : List WriteBatch} {b b' : OrderedBuilder}
      {batch : Option WriteBatch} (durableThrough sealThrough : Option Nat) (maxBatchBytes : Nat) :
      Runs b₀ pushed batches b →
      b.buildBatch durableThrough sealThrough maxBatchBytes = .ok (b', batch) →
      Runs b₀ pushed (batches ++ batch.toList) b'

variable {b : OrderedBuilder} {batchBytes maxBatchBytes : Nat} {records : List CompactBlockRecord}
  {sealThrough : Option Nat}

variable {st : IndexState} {pushed : List ParsedCompactBlock} {durableThrough : Option Nat}
  {b' : OrderedBuilder}

theorem Runs.serves {maxPendingBytes : Nat} {b₀ : OrderedBuilder} {batches : List WriteBatch}
    (hnew : new st maxPendingBytes = .ok b₀) (h : Runs b₀ pushed batches b) :
    ∃ taken, b.Serves st b₀.nextHeight pushed taken (batches.flatMap (·.records)) := by
  induction h with
  | refl => exact ⟨[], Serves.new hnew⟩
  | push block _ hok ih =>
    obtain ⟨taken, hserves⟩ := ih
    exact ⟨taken, hserves.push hok⟩
  | build _ _ _ _ hok ih =>
    obtain ⟨taken, hserves⟩ := ih
    obtain ⟨blocks, hserves⟩ := hserves.build hok
    refine ⟨taken ++ blocks, ?_⟩
    rwa [List.flatMap_append]

/-! ## The end of a batch -/

theorem isFull_eq_true {block : ParsedCompactBlock} {bytes : Nat}
    (h : isFull batchBytes maxBatchBytes records sealThrough block bytes = .ok true) :
    block.height.val % rangeSize = 0 ∨
      ∀ through ∈ sealThrough, through < rangeEnd block.height.val := by
  simp only [isFull, bind_eq_ok, ensure_eq_ok] at h
  obtain ⟨-, -, h⟩ := h
  split at h
  case isTrue => cases h
  case isFalse =>
    simp only [bind_eq_ok, ensure_eq_ok, pure_eq_ok, Except.ok.injEq] at h
    obtain ⟨-, -, -, -, h⟩ := h
    exact of_decide_eq_true h

/-- Why no more blocks are taken: there is no next block, it is not durable, or the
    batch is full where it may end. -/
theorem takeBatch_stops {records' : List CompactBlockRecord}
    (h : takeBatch durableThrough sealThrough maxBatchBytes b batchBytes records =
      .ok (b', records')) :
    b'.pending[b'.nextHeight]? = none ∨
      ∃ block bytes, b'.pending[b'.nextHeight]? = some (block, bytes) ∧
        ((∀ through ∈ durableThrough, through < block.height.val) ∨
          block.height.val % rangeSize = 0 ∨
          ∀ through ∈ sealThrough, through < rangeEnd block.height.val) := by
  fun_induction takeBatch durableThrough sealThrough maxBatchBytes b batchBytes records with
  | case1 b batchBytes records hnone =>
    cases h
    exact .inl hnone
  | case2 b batchBytes records block bytes hsome hdurable =>
    cases h
    exact .inr ⟨block, bytes, hsome, .inl hdurable⟩
  | case3 | case5 => cases h
  | case4 b batchBytes records block bytes hsome hdurable hfull =>
    cases h
    exact .inr ⟨block, bytes, hsome, .inr (isFull_eq_true hfull)⟩
  | case6 b batchBytes records block bytes hsome hdurable hfull b₁ record hnext ih => exact ih h

/-- A batch has a block only when some blocks are durable. -/
theorem takeBatch_none :
    takeBatch none sealThrough maxBatchBytes b batchBytes records = .ok (b, records) := by
  rw [takeBatch]
  split
  · rfl
  · exact if_pos (by simp)

/-- A batch that ends inside of a range that can be sealed ends at a block that is
    not durable, or at a gap. It began below this range, or the pending bytes were
    above the threshold. -/
theorem Serves.batch_end {start : Nat} {taken : List ParsedCompactBlock}
    {emitted : List CompactBlockRecord} (h : b.Serves st start pushed taken emitted)
    {batch : WriteBatch}
    (hok : b.buildBatch durableThrough sealThrough maxBatchBytes = .ok (b', some batch))
    (hinside : b'.nextHeight % rangeSize ≠ 0)
    (hseal : ∃ through ∈ sealThrough, rangeEnd b'.nextHeight ≤ through) :
    (∃ through ∈ durableThrough, through < b'.nextHeight) ∨
      Missing pushed b'.nextHeight ∧ (rangeEnd b.nextHeight < b'.nextHeight ∨
        partialRangeFlushThreshold b.maxPendingBytes maxBatchBytes < b.pendingBytes) := by
  obtain ⟨hlt, -⟩ := buildBatch_nextHeight hok
  obtain ⟨blocks, hserves⟩ := h.build hok
  simp only [buildBatch, bind_eq_ok, ensure_eq_ok] at hok
  obtain ⟨-, -, hok⟩ := hok
  split at hok
  case isTrue => cases hok
  case isFalse hwaits =>
  obtain ⟨⟨b₁, records⟩, htake, hok⟩ := bind_eq_ok.mp hok
  split at hok
  case isTrue => cases hok
  case isFalse hne =>
  simp only [bind_eq_ok, ensure_eq_ok, pure_eq_ok, Except.ok.injEq, Prod.mk.injEq] at hok
  obtain ⟨-, -, rfl, -⟩ := hok
  obtain ⟨through, hthrough, hle⟩ := hseal
  rcases takeBatch_stops htake with hnone | ⟨block, bytes, hsome, hstop⟩
  · right
    have hmissing : Missing pushed b₁.nextHeight := (hserves.pending_eq_none le_rfl).mp hnone
    refine ⟨hmissing, ?_⟩
    by_contra hcon
    rw [not_or, Nat.not_lt, Nat.not_lt] at hcon
    obtain ⟨hrange, hbytes⟩ := hcon
    -- the batch began in this range, and the builder waits for the rest of it
    have hend : rangeEnd b.nextHeight = rangeEnd b₁.nextHeight := by
      simp only [rangeEnd, rangeSize] at hrange ⊢
      simp only at hlt
      omega
    have hready : b.readyEnd ≤ b₁.nextHeight := by
      refine (h.toAccounts.isLeast h.start_le h.missing).2 ⟨?_, hmissing⟩
      have := h.start_le
      simp only at hlt
      omega
    exact hwaits ⟨⟨through, hthrough, hend ▸ hle⟩, hready.trans hrange, hbytes⟩
  · left
    have hheight : block.height.val = b₁.nextHeight := by
      obtain ⟨-, _, -, hheight, hentry⟩ := (hserves.pending _ _).mp hsome
      cases hentry
      exact hheight
    rw [hheight] at hstop
    rcases hstop with hdurable | hmultiple | hunsealed
    · cases durableThrough with
      | none =>
        rw [takeBatch_none] at htake
        cases htake
        exact absurd rfl hne
      | some through => exact ⟨through, rfl, hdurable through rfl⟩
    · exact absurd hmultiple hinside
    · exact absurd hle (Nat.not_le.mpr (hunsealed through hthrough))

end OrderedBuilder

open OrderedBuilder

/-- A run of a builder from any state. The records of its batches are those of the
    blocks above the tip, by height and each once. They link to the tip and count
    the tree sizes on from it. The counters are sums over the pushed blocks. A
    batch leaves a range that can be sealed open only at a block that is not
    durable, or at a gap when it began below the range or the pending bytes were
    above the threshold. -/
theorem ordered_builder {st : IndexState} {maxPendingBytes : Nat} {b₀ b : OrderedBuilder}
    {pushed : List ParsedCompactBlock} {batches : List WriteBatch}
    (hnew : OrderedBuilder.new st maxPendingBytes = .ok b₀) (hrun : b₀.Runs pushed batches b) :
    st.nextHeight = some b₀.nextHeight ∧
    b.nextHeight = b₀.nextHeight + (batches.flatMap (·.records)).length ∧
    (∃ taken : List ParsedCompactBlock,
      indexBlocks st.treeSizes taken = some (batches.flatMap (·.records)) ∧
      (∀ block ∈ taken, block ∈ pushed) ∧
      (∀ (i : Nat) (block : ParsedCompactBlock), taken[i]? = some block →
        block.height.val = b₀.nextHeight + i) ∧
      (∀ block ∈ taken.head?, ∀ tip ∈ st.durableTip, block.previousHash = tip.hash) ∧
      taken.IsChain fun below above => above.previousHash = below.hash) ∧
    (pushed.map (·.height.val)).Nodup ∧
    b.pendingBytes = bytesWhere (b.nextHeight ≤ ·) pushed ∧
    IsLeast {height | b₀.nextHeight ≤ height ∧ ∀ block ∈ pushed, block.height.val ≠ height}
      b.readyEnd ∧
    b.readyBytes =
      bytesWhere (fun height => b.nextHeight ≤ height ∧ height < b.readyEnd) pushed ∧
    ∀ (durableThrough sealThrough : Option Nat) (maxBatchBytes : Nat) (b' : OrderedBuilder)
      (batch : WriteBatch),
      b.buildBatch durableThrough sealThrough maxBatchBytes = .ok (b', some batch) →
      b'.nextHeight % rangeSize ≠ 0 → (∃ through ∈ sealThrough, rangeEnd b'.nextHeight ≤ through) →
      (∃ through ∈ durableThrough, through < b'.nextHeight) ∨
        (∀ block ∈ pushed, block.height.val ≠ b'.nextHeight) ∧
          (rangeEnd b.nextHeight < b'.nextHeight ∨
            partialRangeFlushThreshold b.maxPendingBytes maxBatchBytes < b.pendingBytes) := by
  have hstart : st.nextHeight = some b₀.nextHeight := by
    simp only [OrderedBuilder.new, bind_eq_ok, okOr_eq_ok, pure_eq_ok, Except.ok.injEq] at hnew
    obtain ⟨next, hnext, rfl⟩ := hnew
    exact hnext
  obtain ⟨taken, hserves⟩ := hrun.serves hnew
  have hnext : b.nextHeight = b₀.nextHeight + (batches.flatMap (·.records)).length := by
    rw [indexBlocks_length hserves.records]
    exact hserves.nextHeight
  refine ⟨hstart, hnext, ⟨taken, hserves.records, hserves.subset, hserves.height, hserves.first,
    hserves.links⟩, hserves.distinct, hserves.pendingBytes,
    hserves.toAccounts.isLeast hserves.start_le hserves.missing, hserves.readyBytes, ?_⟩
  intro durableThrough sealThrough maxBatchBytes b' batch hok hinside hseal
  exact hserves.batch_end hok hinside hseal

/-- Block 1 arrives before block 0, and a batch takes block 0. -/
theorem ordered_builder_swapped :
    ∃ (b₀ b : OrderedBuilder) (batch : WriteBatch), OrderedBuilder.new {} 1000 = .ok b₀ ∧
      b₀.Runs [plainParsed 0 1, plainParsed 0 0] [batch] b ∧
      batch.records = [plainRecord 0 0] ∧ b.pendingBytes = 192 ∧ b.readyEnd = 2 := by
  have hchain := (plainBlocks_indexed 0 (show 2 ≤ 2 ^ 32 by decide)).parsedChain
  have hlen : ((List.range 2).map (plainParsed 0)).length + rangeSize ≤ 2 ^ 32 := by decide
  have hsize : ∀ height, (plainParsed 0 height).size = 192 := fun _ => rfl
  obtain ⟨b₀, hnew, h₀, hnext₀, hgen₀, hbytes₀, hmax₀⟩ := @Tracks.new
    ((List.range 2).map (plainParsed 0)) (plainRecords 0 2) {} 0 rfl rfl rfl 1000
  have hone := h₀.push (by decide) (show _ = some (plainParsed 0 1) from rfl) rfl (by omega)
    (Finset.notMem_empty _)
  rw [hsize, hmax₀, hbytes₀] at hone
  rcases hone with ⟨-, hlarge⟩ | ⟨b₁, hpush₁, h₁, hnext₁, hgen₁, hbytes₁, hmax₁, -⟩
  · simp only [maxRecordBytes] at hlarge
    omega
  have hzero := h₁.push (by decide) (show _ = some (plainParsed 0 0) from rfl) rfl (by omega)
    (by decide)
  rw [hsize, hmax₁, hbytes₁] at hzero
  rcases hzero with ⟨-, hlarge⟩ | ⟨b₂, hpush₂, h₂, hnext₂, hgen₂, hbytes₂, hmax₂, -⟩
  · simp only [maxRecordBytes] at hlarge
    omega
  have hnext : b₂.nextHeight = 0 := by omega
  rcases h₂.buildBatch hchain hlen (by rw [hnext]; decide) (by omega) (some 0) none 1000 with
    ⟨-, hlarge⟩ | ⟨-, hnothing⟩ | ⟨stop, b₃, hlt, hstop, htook, -, hbuild⟩
  · rcases hlarge with ⟨height, -, hheight⟩ | ⟨hgeneration, -⟩
    · have hle : sizeAt ((List.range 2).map (plainParsed 0)) height ≤ 192 := by
        rw [sizeAt, List.getElem?_map]
        cases (List.range 2)[height]? with
        | none => exact Nat.zero_le _
        | some height => exact (hsize height).le
      omega
    · have : b₂.generation = 0 := hgen₂.trans (hgen₁.trans hgen₀)
      omega
  · rcases hnothing with ⟨⟨_, hseal, -⟩, -⟩ | hnot | hnot
    · cases hseal
    · rw [hnext] at hnot
      exact absurd (by decide) hnot
    · rw [hnext] at hnot
      exact absurd ⟨0, rfl, le_rfl⟩ hnot
  · -- block 1 is above the durable height
    obtain rfl : stop = 1 := by
      by_contra hne
      obtain ⟨-, through, hthrough, hle⟩ := htook.taken 1 (by omega) (by omega)
      cases hthrough
      omega
    have hrun := ((Runs.refl.push _ hpush₁).push _ hpush₂).build _ _ _ hbuild
    obtain ⟨-, hheight, -, -, hpending, hleast, -⟩ := ordered_builder hnew hrun
    refine ⟨b₀, _, _, hnew, hrun, ?_, ?_, ?_⟩
    · simp only
      rw [hnext]
      rfl
    · rw [hpending]
      simp only [htook.nextHeight]
      rfl
    · refine hleast.unique ⟨⟨by omega, by decide⟩, ?_⟩
      rintro height ⟨_, hmissing⟩
      by_contra hlt
      have hpushed : plainParsed 0 height ∈ [plainParsed 0 1, plainParsed 0 0] := by
        obtain rfl | rfl : height = 0 ∨ height = 1 := by omega
        · exact .tail _ (.head _)
        · exact .head _
      refine hmissing _ hpushed (Nat.mod_eq_of_lt ?_)
      omega

end Ztreamer
