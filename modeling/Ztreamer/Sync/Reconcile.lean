import Ztreamer.Index.NodeChain
import Ztreamer.Sync.Poll

/-! # What a reconciliation gives

    The current chain is the durable chain and the volatile head after it. A
    reconciliation with a node that serves one chain finds the common blocks of
    the two chains, and gives the node's chain again as a durable chain and a
    head. Its other results are named: a missing anchor, a chain above the
    window, a block above a size limit, an overflow, or a common block below the
    sealed ranges.
-/

namespace Ztreamer

open Octets Result Connected

variable {ν : Type}

namespace NodeChain

variable {heightOf : Hash → Nat} {blocks : List RawIndexBlock}
  {parsed : List ParsedCompactBlock} {records : List CompactBlockRecord}

/-- The records of the chain are linked after any of its blocks. -/
theorem linkedPrefix_drop (h : NodeChain heightOf blocks parsed records) (start : Nat) :
    linkedPrefix start (tipHash (blocks.take start)) (records.drop start) = records.drop start := by
  induction hn : records.length - start generalizing start with
  | zero =>
    rw [List.drop_eq_nil_of_le (by omega)]
    rfl
  | succ n ih =>
    have hr : records[start]? = some records[start] := List.getElem?_eq_getElem (by omega)
    obtain ⟨hheight, ⟨b, hb, hhash⟩, hprevious, -⟩ := h.record_spec hr
    have hnext := ih (start + 1) (by omega)
    rw [tipHash_take_succ hb, hhash] at hnext
    rw [List.drop_eq_getElem_cons (by omega), linkedPrefix, if_pos ⟨hheight, hprevious⟩, hnext]

end NodeChain

/-! ## Building the new records -/

/-- The byte budgets hold the blocks from `start` on, and the builder can number
    its batches. -/
structure Budget (config : PipelineConfig) (parsed : List ParsedCompactBlock)
    (start generation : Nat) : Prop where
  batch : ∀ p ∈ parsed.drop start, p.size ≤ config.maxBatchBytes.val
  pending : ((parsed.drop start).map (·.size)).sum ≤ config.maxPendingBytes.val
  generation_lt : generation + parsed.length < 2 ^ 64

variable {config : PipelineConfig} {parsed : List ParsedCompactBlock}
  {start generation height base : Nat} {heightOf : Hash → Nat} {blocks : List RawIndexBlock}
  {records : List CompactBlockRecord}

theorem Budget.mono {start' : Nat} (h : Budget config parsed start generation)
    (hle : start ≤ start') : Budget config parsed start' generation := by
  have hdrop : parsed.drop start' = (parsed.drop start).drop (start' - start) := by
    rw [List.drop_drop, Nat.add_sub_cancel' hle]
  refine ⟨fun p hp => h.batch p (List.mem_of_mem_drop (hdrop ▸ hp)), ?_, h.generation_lt⟩
  have hsplit := congrArg (fun l => (l.map fun p : ParsedCompactBlock => p.size).sum)
    (List.take_append_drop (start' - start) (parsed.drop start))
  simp only [List.map_append, List.sum_append, ← hdrop] at hsplit
  have := h.pending
  omega

theorem sum_sizeAt_Ico (parsed : List ParsedCompactBlock) (start : Nat) :
    ∑ height ∈ Finset.Ico start parsed.length, sizeAt parsed height =
      ((parsed.drop start).map (·.size)).sum := by
  induction hn : parsed.length - start generalizing start with
  | zero =>
    rw [Finset.Ico_eq_empty_of_le (by omega), List.drop_eq_nil_of_le (by omega)]
    rfl
  | succ n ih =>
    have hp : parsed[start]? = some parsed[start] := List.getElem?_eq_getElem (by omega)
    rw [Finset.sum_eq_sum_Ico_succ_bot (by omega), ih (start + 1) (by omega), sizeAt_eq hp,
      List.drop_eq_getElem_cons (i := start) (by omega), List.map_cons, List.sum_cons]

theorem sizeAt_mem_drop (hle : start ≤ height) (hlt : height < parsed.length) :
    ∃ p ∈ parsed.drop start, sizeAt parsed height = p.size := by
  have hp : parsed[height]? = some parsed[height] := List.getElem?_eq_getElem hlt
  refine ⟨parsed[height], List.mem_of_getElem? (i := height - start) ?_, sizeAt_eq hp⟩
  rw [List.getElem?_drop, Nat.add_sub_cancel' hle, hp]

/-- A budget holds each block, and a batch for each block. -/
theorem Budget.fits (h : Budget config parsed start generation) :
    ¬ ((∃ height ∈ Finset.Ico start parsed.length,
        config.maxBatchBytes.val < sizeAt parsed height) ∨
      2 ^ 64 ≤ generation + (parsed.length - start)) := by
  rintro (⟨height, hmem, hlarge⟩ | hlarge)
  · rw [Finset.mem_Ico] at hmem
    obtain ⟨p, hp, hsize⟩ := sizeAt_mem_drop hmem.1 hmem.2
    have := h.batch p hp
    omega
  · have := h.generation_lt
    omega

/-- A builder with every block of a chain from `start` on, or the limit that
    refused a block. -/
theorem NodeChain.pushAll (h : NodeChain heightOf blocks parsed records) {b : OrderedBuilder}
    (hb : b.Tracks parsed records ∅) (hnext : b.nextHeight ≤ parsed.length)
    (hempty : b.pendingBytes = 0) (hmax : b.maxPendingBytes = config.maxPendingBytes.val) :
    ((∃ e, (parsed.drop b.nextHeight).foldlM OrderedBuilder.push b = .error e) ∧
      ¬ Budget config parsed b.nextHeight b.generation) ∨
    ∃ b', (parsed.drop b.nextHeight).foldlM OrderedBuilder.push b = .ok b' ∧
      b'.Tracks parsed records (Finset.Ico b.nextHeight parsed.length) ∧
      b'.nextHeight = b.nextHeight ∧ b'.generation = b.generation ∧
      b'.pendingBytes < 2 ^ 64 := by
  have hlen := h.length_le
  have hplen := h.parsed_length
  have hmax64 := config.maxPendingBytes.isLt
  have hheld : (∅ : Finset Nat) = Finset.Ico b.nextHeight b.nextHeight := by simp
  rw [hheld] at hb
  rcases hb.pushAll (by omega) le_rfl hnext le_rfl h.parsedChain.height (by omega) (by omega) with
    ⟨herror, hlarge⟩ | ⟨b', hok, htracks, hnext', hgen, -, hle⟩
  · rw [List.take_length] at herror
    refine .inl ⟨herror, fun hbudget => ?_⟩
    rcases hlarge with ⟨height, hge, hlt, hlarge⟩ | hlarge
    · obtain ⟨p, hp, hsize⟩ := sizeAt_mem_drop hge hlt
      have := h.size_le p (List.mem_of_mem_drop hp)
      omega
    · have := hbudget.pending
      rw [sum_sizeAt_Ico] at hlarge
      omega
  · rw [List.take_length] at hok
    exact .inr ⟨b', hok, htracks, hnext', hgen, by omega⟩

/-- The height of the last block of a chain, which is not below `n`. -/
theorem Indexed.tip_height (h : Indexed blocks parsed records) {n : Nat} (hn : n < blocks.length) :
    (parsed.drop (n + 1)).getLast?.elim n (·.height.val) + 1 = records.length := by
  have hplen := h.parsed_length
  have hrlen := h.records_length
  rw [List.getLast?_drop]
  by_cases heq : n + 1 = blocks.length
  · rw [if_pos (by omega)]
    simp only [Option.elim_none]
    omega
  · obtain ⟨b, p, r, -, hp, -, -, -, hheight, -⟩ := h.at_height (i := blocks.length - 1) (by omega)
    rw [if_neg (by omega), List.getLast?_eq_getElem?, hplen, hp]
    simp only [Option.elim_some, hheight]
    omega

/-- The records of the blocks after a block of the chain, up to the visible tip. -/
theorem NodeChain.buildRecords (h : NodeChain heightOf blocks parsed records) (st : IndexState)
    {n : Nat} {base : CompactBlockRecord} (hbase : records[n]? = some base)
    (config : PipelineConfig) :
    ∃ newTip, (parsed.drop (n + 1)).getLast?.elim n (·.height.val) = newTip ∧
      newTip + 1 = records.length ∧
      (((∃ e, buildRecords st base.blockId base.endTreeSizes (parsed.drop (n + 1)) newTip config =
          .error e) ∧ ¬ Budget config parsed (n + 1) st.generation) ∨
      buildRecords st base.blockId base.endTreeSizes (parsed.drop (n + 1)) newTip config =
        .ok (records.drop (n + 1))) := by
  have hlen := h.length_le
  have hplen := h.parsed_length
  have hrlen := h.records_length
  have hlt := (List.getElem?_eq_some_iff.mp hbase).1
  have hheight := (h.record_spec hbase).1
  have hlast := getLast?_take_succ hbase
  have htip := h.tip_height (n := n) (by omega)
  refine ⟨_, rfl, htip, ?_⟩
  generalize (parsed.drop (n + 1)).getLast?.elim n (·.height.val) = newTip at htip
  obtain ⟨b, hnew, htracks, hnext, hgen, hbytes, hmax⟩ :=
    @OrderedBuilder.Tracks.new parsed records (st.withDurableTip base.blockId base.endTreeSizes)
      (n + 1)
      (by
        simp only [IndexState.nextHeight, IndexState.withDurableTip, CompactBlockRecord.blockId,
          hheight]
        rw [if_pos (by omega)])
      (by rw [hlast]; rfl) (by rw [endSizes, hlast]; rfl) config.maxPendingBytes.val
  have hgen' : b.generation = st.generation := hgen
  simp only [Ztreamer.buildRecords, hnew, ok_bind]
  rw [← hnext]
  rcases h.pushAll htracks (by omega) hbytes hmax with ⟨⟨e, he⟩, hbudget⟩ |
    ⟨b', hok, htracks', hnext', hgen'', hbytes'⟩
  · rw [he, error_bind]
    exact .inl ⟨⟨e, rfl⟩, hgen' ▸ hbudget⟩
  · rw [hok, ok_bind]
    rcases htracks'.drainRecords h.parsedChain (by simp only [rangeSize]; omega) newTip
      config.maxBatchBytes.val (by omega) hbytes' (fun height hge hle => Finset.mem_Ico.mpr
        ⟨by omega, by omega⟩) with ⟨⟨e, he⟩, hlarge⟩ | ⟨b'', hdrain⟩
    · rw [he, error_bind]
      refine .inl ⟨⟨e, rfl⟩, fun hbudget => hbudget.fits (hlarge.imp_right fun hgen => ?_)⟩
      omega
    · rw [hdrain, ok_bind, hnext', htip, List.take_length]
      exact .inr rfl

/-- The default budgets hold a million empty blocks. -/
theorem plainBlocks_budget (fork : Nat) {n : Nat} (start : Nat) (parallelism : U64)
    (hn : n ≤ 1000000) (hgen : generation + n < 2 ^ 64) :
    Budget (.ofParallelism parallelism) ((List.range n).map (plainParsed fork)) start
      generation where
  batch p hp := by
    obtain ⟨height, -, rfl⟩ := List.mem_map.mp (List.mem_of_mem_drop hp)
    exact (by decide : 192 ≤ (16 * mib).val)
  pending := by
    have hsum : ∀ heights : List Nat,
        ((heights.map (plainParsed fork)).map (·.size)).sum = 192 * heights.length := by
      intro heights
      induction heights with
      | nil => rfl
      | cons height heights ih =>
        rw [List.map_cons, List.map_cons, List.sum_cons, ih, List.length_cons,
          show (plainParsed fork height).size = 192 from rfl]
        omega
    have hmax : 192 * 1000000 ≤ (PipelineConfig.ofParallelism parallelism).maxPendingBytes.val :=
      (by decide : 192 * 1000000 ≤ (256 * mib).val)
    rw [← List.map_drop, hsum, List.length_drop, List.length_range]
    omega
  generation_lt := by simpa using hgen

/-! ## Records by height -/

/-- A search by height in records whose heights count up. -/
theorem find?_height
    (h : ∀ (i : Nat) (r : CompactBlockRecord), records[i]? = some r → r.height.val = base + i)
    (hle : base ≤ height) :
    (records.find? fun r => decide (r.height.val = height)) = records[height - base]? := by
  induction records generalizing base with
  | nil => simp
  | cons r records ih =>
    have hr : r.height.val = base := h 0 r rfl
    by_cases heq : r.height.val = height
    · rw [List.find?_cons_of_pos (by simpa using heq), show height - base = 0 by omega]
      rfl
    · have := @ih (base + 1) (fun i r' hi => by
        have := h (i + 1) r' (by simpa using hi)
        omega) (by omega)
      rw [List.find?_cons_of_neg (by simpa using heq), this,
        show height - base = height - (base + 1) + 1 by omega, List.getElem?_cons_succ]

/-- In a list whose heights count up, the items up to a height, and those above it. -/
theorem filter_le_height {α : Type} {f : α → Nat} {items : List α}
    (h : ∀ (i : Nat) (a : α), items[i]? = some a → f a = base + i) (height : Nat) :
    (items.filter fun a => decide (f a ≤ height)) = items.take (height + 1 - base) ∧
      (items.filter fun a => decide (height < f a)) = items.drop (height + 1 - base) := by
  induction items generalizing base with
  | nil => simp
  | cons a items ih =>
    have ha : f a = base := h 0 a rfl
    obtain ⟨htake, hdrop⟩ := @ih (base + 1) fun i b hi => by
      have := h (i + 1) b (by simpa using hi)
      omega
    by_cases hle : base ≤ height
    · rw [List.filter_cons_of_pos (by simpa [ha] using hle),
        List.filter_cons_of_neg (by simpa [ha] using hle), htake, hdrop,
        show height + 1 - base = height + 1 - (base + 1) + 1 by omega]
      exact ⟨rfl, rfl⟩
    · rw [List.filter_cons_of_neg (by simpa [ha] using hle),
        List.filter_cons_of_pos (by simpa [ha] using hle), htake, hdrop,
        show height + 1 - base = 0 by omega, show height + 1 - (base + 1) = 0 by omega]
      exact ⟨rfl, rfl⟩

theorem filter_height
    (h : ∀ (i : Nat) (r : CompactBlockRecord), records[i]? = some r → r.height.val = base + i)
    (height : Nat) :
    (records.filter fun r => decide (r.height.val ≤ height)) = records.take (height + 1 - base) ∧
      (records.filter fun r => decide (height < r.height.val)) =
        records.drop (height + 1 - base) :=
  filter_le_height (f := fun r : CompactBlockRecord => r.height.val) h height

/-- The current chain: the store represents `durable`, and `head` continues it. -/
structure Current [Proto.Prost] (heightOf : HeightOf) (s : Store ν) (st : IndexState)
    (durable head : List CompactBlockRecord) : Prop where
  represents : Represents heightOf s st durable
  connected : Connected heightOf (durable ++ head)

/-- The durable chain and the head are the records of the chain `blocks`. -/
structure Follows [Proto.Prost] (heightOf : Hash → Nat) (s : Store ν) (st : IndexState)
    (durable head : List CompactBlockRecord) (blocks : List RawIndexBlock) : Prop where
  represents : Represents heightOf s st durable
  node : ∃ parsed, NodeChain heightOf blocks parsed (durable ++ head)

/-! ## The current chain -/

namespace Current

variable [Proto.Prost] {heightOf : HeightOf} {s : Store ν} {st : IndexState}
  {durable head : List CompactBlockRecord} (h : Current heightOf s st durable head)

include h

/-- The current block at a height is the one of the chain. -/
theorem currentRecord (height : Nat) :
    currentRecord s st head height = .ok (durable ++ head)[height]? := by
  unfold Ztreamer.currentRecord
  have hcovers : (∃ tip ∈ st.durableTip, height ≤ tip.height) ↔ height < durable.length := by
    constructor
    · rintro ⟨tip, htip, hle⟩
      have := h.represents.describes.tip_height h.represents.connected htip
      omega
    · exact h.represents.describes.exists_tip h.represents.connected
  by_cases hlt : height < durable.length
  · have hr : durable[height]? = some durable[height] := List.getElem?_eq_getElem hlt
    rw [if_pos (hcovers.mpr hlt), h.represents.snapshot, ok_bind, h.represents.read hr, ok_bind,
      List.getElem?_append_left hlt, hr]
    rfl
  · rw [if_neg fun hc => hlt (hcovers.mp hc), List.getElem?_append_right (by omega)]
    refine congrArg Except.ok (find?_height (fun i r hi => ?_) (by omega))
    refine h.connected.height_eq ?_
    rw [List.getElem?_append_right (by omega), Nat.add_sub_cancel_left, hi]

theorem requireRecord {r : CompactBlockRecord} (hr : (durable ++ head)[height]? = some r) :
    requireRecord s st head height = .ok r := by
  rw [Ztreamer.requireRecord, h.currentRecord, ok_bind, hr, okOr_some]

theorem knownRecords (start n : Nat) (hn : start + n = (durable ++ head).length) :
    knownRecords s st head (List.range' start n) = .ok ((durable ++ head).drop start) := by
  induction n generalizing start with
  | zero =>
    rw [List.drop_eq_nil_of_le (by omega)]
    rfl
  | succ n ih =>
    have hr : (durable ++ head)[start]? = some (durable ++ head)[start] :=
      List.getElem?_eq_getElem (by omega)
    rw [List.range'_succ, Ztreamer.knownRecords, h.currentRecord, ok_bind, hr]
    simp only
    rw [ih _ (by omega), ok_bind, List.drop_eq_getElem_cons (i := start) (by omega)]
    rfl

/-- The records above the ancestor and through the common block. -/
theorem mapM_requireRecord (start stop : Nat) (hstop : stop ≤ (durable ++ head).length) :
    (List.range' start (stop - start)).mapM (Ztreamer.requireRecord s st head) =
      .ok (((durable ++ head).take stop).drop start) := by
  have hlen : (((durable ++ head).take stop).drop start).length = stop - start := by
    rw [List.length_drop, List.length_take]
    omega
  rw [← hlen]
  refine mapM_range'_eq_ok fun i r hi => h.requireRecord ?_
  rw [List.getElem?_drop] at hi
  exact (lt_of_getElem?_take hi).2

end Current

section

variable [Proto.Prost] {heightOf : Hash → Nat} {s : Store ν} {st : IndexState}
  {durable head : List CompactBlockRecord} {cur : List RawIndexBlock}

namespace Follows

section

variable (h : Follows heightOf s st durable head cur)

include h

theorem connected :
    Connected heightOf (durable ++ head) := by
  obtain ⟨parsed, hnode⟩ := h.node
  exact hnode.connected

theorem current :
    Current heightOf s st durable head :=
  ⟨h.represents, h.connected⟩

theorem length_eq :
    (durable ++ head).length = cur.length := by
  obtain ⟨parsed, hnode⟩ := h.node
  exact hnode.records_length

end

variable {blocks : List RawIndexBlock} {parsed : List ParsedCompactBlock}
  {records : List CompactBlockRecord}

variable (h : Follows heightOf s st durable head cur)

include h

variable (hnode : NodeChain heightOf blocks parsed records)

include hnode

/-- The common blocks of the two chains have the same records. -/
theorem take_common :
    (durable ++ head).take (commonLength cur blocks) = records.take (commonLength cur blocks) := by
  obtain ⟨parsed', hcur⟩ := h.node
  have hleft := hcur.toIndexed.take (commonLength cur blocks)
  rw [take_commonLength cur blocks] at hleft
  exact (hleft.unique (hnode.toIndexed.take _)).2

/-- The common blocks are those that the node has, too. -/
theorem onChain_iff (hcol : NoCollision cur blocks) {i : Nat} {r : CompactBlockRecord}
    (hr : (durable ++ head)[i]? = some r) :
    OnChain blocks r.blockId ↔ i < commonLength cur blocks := by
  obtain ⟨parsed', hcur⟩ := h.node
  obtain ⟨hheight, ⟨a, ha, hhash⟩, -⟩ := hcur.record_spec hr
  rw [hcur.chain.lt_commonLength_iff hnode.chain hcol, Ztreamer.onChain_iff]
  simp only [CompactBlockRecord.blockId, hheight]
  constructor
  · rintro ⟨b, hb, hb'⟩
    exact ⟨a, b, ha, hb, by rw [hb', hhash]⟩
  · rintro ⟨a', b, ha', hb, hab⟩
    rw [ha] at ha'
    cases ha'
    exact ⟨b, hb, by rw [← hab, hhash]⟩

/-- The first block after the common ones is not in the current chain. -/
theorem extendCommon (hcol : NoCollision cur blocks) (common : Option BlockId) :
    extendCommon s st head common (parsed.drop (commonLength cur blocks)) = .ok common := by
  by_cases hlt : commonLength cur blocks < blocks.length
  · obtain ⟨b, p, r, hb, hp, hr, -, -, hheight, hhash, -⟩ := hnode.at_height hlt
    have hplt := (List.getElem?_eq_some_iff.mp hp).1
    rw [List.drop_eq_getElem_cons hplt, (List.getElem?_eq_some_iff.mp hp).2, Ztreamer.extendCommon,
      hheight, h.current.currentRecord, ok_bind]
    cases hold : (durable ++ head)[commonLength cur blocks]? with
    | none => rfl
    | some old =>
      have hnot := mt (h.onChain_iff hnode hcol hold).mp (lt_irrefl _)
      obtain ⟨parsed', hcur⟩ := h.node
      have hoh := (hcur.record_spec hold).1
      have hne : old.hash ≠ p.hash := by
        intro heq
        refine hnot (Ztreamer.onChain_iff.mpr ⟨b, ?_, by rw [← hhash, ← heq]; rfl⟩)
        rw [CompactBlockRecord.blockId, hoh, hb]
      simp only [if_neg hne]
      rfl
  · rw [List.drop_eq_nil_of_le (by rw [hnode.parsed_length]; omega)]
    rfl

end Follows

end

/-! ## Persisting the new chain -/

/-- The durable tip after a reconciliation. -/
def newDurableTip (visibleTip ancestor : Nat) : Nat := max (visibleTip - persistDepth) ancestor

/-- The error says that the chain changed below the anchor or below a sealed range. -/
def HeadSyncError.IsReorg : HeadSyncError → Prop
  | .deepReorg _ | .head (.anchor _) | .index (.sealed _) => True
  | _ => False

theorem elim_heightBelow (visibleTip ancestor : Nat) :
    (heightBelow visibleTip persistDepth).elim ancestor (max · ancestor) =
      newDurableTip visibleTip ancestor := by
  unfold heightBelow newDurableTip
  split
  · rfl
  · simp only [Option.elim_none]
    omega

/-- What a call leaves: the same index, or the next generation of it with newly
    sealed ranges. -/
def Advances (s s' : Store ν) (st st' : IndexState) (sealThrough : Option Nat) (len : Nat) : Prop :=
  (s' = s ∧ st' = st) ∨
    (st'.generation = st.generation + 1 ∧
      st'.sealedEnd = sealTarget sealThrough st.sealedEnd len)

/-- The records above `height` that a reconciliation persists, and those that stay
    in the head. -/
theorem NodeChain.filter_drop (hnode : NodeChain heightOf blocks parsed records) {durableTip : Nat}
    (hle : height ≤ durableTip) :
    ((records.drop (height + 1)).filter fun r =>
        decide (height < r.height.val ∧ r.height.val ≤ durableTip)) =
      (records.take (durableTip + 1)).drop (height + 1) ∧
    ((records.drop (height + 1)).filter fun r => decide (r.height.val ≤ durableTip)) =
      (records.take (durableTip + 1)).drop (height + 1) ∧
    ((records.drop (height + 1)).filter fun r => decide (durableTip < r.height.val)) =
      records.drop (durableTip + 1) := by
  have hheights : ∀ (i : Nat) (r : CompactBlockRecord), (records.drop (height + 1))[i]? = some r →
      r.height.val = height + 1 + i := by
    intro i r hi
    rw [List.getElem?_drop] at hi
    exact (hnode.record_spec hi).1
  obtain ⟨htake, hdrop⟩ := filter_height hheights durableTip
  have hcongr : ((records.drop (height + 1)).filter fun r =>
      decide (height < r.height.val ∧ r.height.val ≤ durableTip)) =
      (records.drop (height + 1)).filter fun r => decide (r.height.val ≤ durableTip) := by
    refine List.filter_congr fun r hr => ?_
    obtain ⟨i, hi⟩ := List.mem_iff_getElem?.mp hr
    have := hheights i r hi
    exact decide_eq_decide.mpr ⟨fun hand => hand.2, fun hle => ⟨by omega, hle⟩⟩
  rw [hcongr, htake, hdrop, List.drop_take, List.drop_drop]
  exact ⟨rfl, rfl, by rw [show height + 1 + (durableTip + 1 - (height + 1)) =
    durableTip + 1 by omega]⟩

section

variable [Proto.Prost] {heightOf : Hash → Nat} {s : Store ν} {st : IndexState}
  {durable head : List CompactBlockRecord} {cur blocks : List RawIndexBlock}
  {parsed : List ParsedCompactBlock} {records : List CompactBlockRecord}

/-- The chain with the new records up to the durable tip above an ancestor in the two chains. -/
theorem Follows.replaced_eq (h : Follows heightOf s st durable head cur)
    (hnode : NodeChain heightOf blocks parsed records) {ancestor : CompactBlockRecord}
    (hancestor : durable[height]? = some ancestor)
    (hshared : (durable ++ head).take (height + 1) = records.take (height + 1)) {durableTip : Nat}
    (hle : height ≤ durableTip) :
    ancestor.blockId.height = height ∧
    replaced durable height ((records.take (durableTip + 1)).drop (height + 1)) =
      records.take (durableTip + 1) ∧
    Extends heightOf (durable.take (height + 1))
      ((records.take (durableTip + 1)).drop (height + 1)) := by
  have hlen := (List.getElem?_eq_some_iff.mp hancestor).1
  have hreplaced : replaced durable height ((records.take (durableTip + 1)).drop (height + 1)) =
      records.take (durableTip + 1) := by
    have hkept : durable.take (height + 1) = (durable ++ head).take (height + 1) :=
      (List.take_append_of_le_length (by omega)).symm
    rw [replaced, hkept, hshared]
    have hsplit := List.take_append_drop (height + 1) (records.take (durableTip + 1))
    rwa [List.take_take, Nat.min_eq_left (by omega)] at hsplit
  have hconnected := hnode.connected.take (durableTip + 1)
  rw [← hreplaced, replaced] at hconnected
  exact ⟨h.represents.connected.height_eq hancestor, hreplaced, hconnected.extends_of_append⟩

/-- The index after the write of the records up to the durable tip. -/
theorem NodeChain.finishes (hnode : NodeChain heightOf blocks parsed records) {durableTip : Nat}
    (hlt : durableTip < records.length) {sealThrough : Option Nat}
    {result : Except IndexError (Store ν × IndexState)}
    (hfinish : Finishes heightOf s st (records.take (durableTip + 1)) sealThrough result) :
    (result = .error .overflow ∧ 2 ^ 64 ≤ st.generation + 1) ∨
    ∃ s' st' tip, result = .ok (s', st') ∧ st'.durableTip = some tip ∧ tip.height = durableTip ∧
      Represents heightOf s' st' (records.take (durableTip + 1)) ∧
      st'.generation = st.generation + 1 ∧
      st'.sealedEnd = sealTarget sealThrough st.sealedEnd (durableTip + 1) := by
  have hlength : (records.take (durableTip + 1)).length = durableTip + 1 := by
    rw [List.length_take]
    omega
  rcases hfinish with ⟨herror, hlarge⟩ | ⟨⟨s', st'⟩, hok, hrest⟩
  · refine .inl ⟨herror, ?_⟩
    have := hnode.length_le
    have := hnode.records_length
    simp only [NearOverflow, List.length_take, rangeSize] at hlarge
    omega
  · obtain ⟨hrep, hgen, hend, -⟩ := Finishes.of_ok (.inr ⟨_, hok, hrest⟩) hok
    obtain ⟨tip, htip, -⟩ := hrep.describes.exists_tip hrep.connected (i := durableTip) (by omega)
    have htipHeight := hrep.describes.tip_height hrep.connected htip
    rw [hlength] at hend htipHeight
    exact .inr ⟨s', st', tip, hok, htip, by omega, hrep, hgen, hend⟩

/-- The replacement of the records above an ancestor in the two chains. -/
theorem Follows.replaceMutableSuffix (h : Follows heightOf s st durable head cur)
    (hnode : NodeChain heightOf blocks parsed records) {ancestor : CompactBlockRecord}
    (hancestor : durable[height]? = some ancestor)
    (hshared : (durable ++ head).take (height + 1) = records.take (height + 1)) {durableTip : Nat}
    (hle : height ≤ durableTip) (sealThrough : Option Nat) :
    (height + 1 < st.sealedEnd ∧
      s.replaceMutableSuffix st.generation ancestor.blockId
        ((records.take (durableTip + 1)).drop (height + 1)) sealThrough =
        .error (.sealed (height + 1))) ∨
    (st.sealedEnd ≤ height + 1 ∧ ∃ st₁ : IndexState, st₁.generation = st.generation ∧
      st₁.sealedEnd = st.sealedEnd ∧
      Finishes heightOf s st₁ (records.take (durableTip + 1)) sealThrough
        (s.replaceMutableSuffix st.generation ancestor.blockId
          ((records.take (durableTip + 1)).drop (height + 1)) sealThrough)) := by
  obtain ⟨hheight, hreplaced, hextends⟩ := h.replaced_eq hnode hancestor hshared hle
  have hstart : Writer.start s st.generation = .ok ⟨s, st⟩ :=
    h.represents.start_eq_ok.mpr ⟨rfl, rfl⟩
  by_cases hsealed : st.sealedEnd ≤ height + 1
  · refine .inr ⟨hsealed, ?_⟩
    obtain ⟨encoded, hencoded⟩ := hnode.encodedAs
    obtain ⟨last, hlast⟩ := replaced_getLast? ((records.take (durableTip + 1)).drop (height + 1))
      hancestor
    have hfinish := h.represents.replaceMutableSuffix (by rwa [hheight]) rfl (by rwa [hheight])
      (by rwa [hheight]) ((hencoded.take (durableTip + 1)).drop (height + 1)) (by rwa [hheight])
      sealThrough
    rw [hheight, hreplaced] at hfinish
    refine ⟨st.withDurableTip last.blockId last.endTreeSizes, rfl, rfl, ?_⟩
    rw [Store.replaceMutableSuffix, hstart, ok_bind]
    exact hfinish
  · refine .inl ⟨by omega, ?_⟩
    have hthrough : st.sealedThrough = some (st.sealedEnd - 1) := by
      rw [IndexState.sealedThrough_eq_some_iff]
      omega
    have hnot : ¬ ∀ through ∈ st.sealedThrough, through ≤ ancestor.blockId.height := by
      rw [hthrough, hheight]
      simp only [Option.mem_some_iff, forall_eq']
      omega
    rw [Store.replaceMutableSuffix, hstart, ok_bind]
    simp only [Writer.replaceMutableSuffix, ensure_of_not _ hnot, error_bind]
    rw [hheight]

/-- The new records up to the durable tip replace the old ones above the ancestor,
    unless the ancestor is below the sealed ranges. -/
theorem Follows.persistSuffix (h : Follows heightOf s st durable head cur)
    (hnode : NodeChain heightOf blocks parsed records) {ancestor : CompactBlockRecord}
    (hancestor : durable[height]? = some ancestor)
    (hshared : (durable ++ head).take (height + 1) = records.take (height + 1)) {tip : BlockId}
    (htip : st.durableTip = some tip) {visibleTip : Nat}
    (hvisible : visibleTip + 1 = records.length) :
    (height + 1 < st.sealedEnd ∧
      persistSuffix s st tip ancestor (records.drop (height + 1)) visibleTip =
        .error (.index (.sealed (height + 1)))) ∨
    (st.sealedEnd ≤ height + 1 ∧
      ((persistSuffix s st tip ancestor (records.drop (height + 1)) visibleTip =
          .error (.index .overflow) ∧ 2 ^ 64 ≤ st.generation + 1) ∨
      ∃ s' st', persistSuffix s st tip ancestor (records.drop (height + 1)) visibleTip =
          .ok (s', st', records.drop (newDurableTip visibleTip height + 1)) ∧
        Represents heightOf s' st' (records.take (newDurableTip visibleTip height + 1)) ∧
        Advances s s' st st' (heightBelow visibleTip sealDepth)
          (newDurableTip visibleTip height + 1))) := by
  have hheight : ancestor.height.val = height := h.represents.connected.height_eq hancestor
  have htipHeight := h.represents.describes.tip_height h.represents.connected htip
  have hlen := (List.getElem?_eq_some_iff.mp hancestor).1
  have hle : height ≤ newDurableTip visibleTip height := Nat.le_max_right _ _
  have hlt : newDurableTip visibleTip height < records.length := by
    have hlen' := congrArg List.length hshared
    rw [List.length_take, List.length_take, List.length_append] at hlen'
    simp only [newDurableTip]
    omega
  obtain ⟨hreplacement, -, hhead⟩ := hnode.filter_drop hle
  simp only [Ztreamer.persistSuffix, hheight, elim_heightBelow, hreplacement]
  -- nothing is written when the ancestor is the durable tip and no block gets durable
  by_cases hreplace : height ≠ tip.height ∨
      (records.take (newDurableTip visibleTip height + 1)).drop (height + 1) ≠ []
  case pos =>
    rw [if_pos hreplace]
    rcases h.replaceMutableSuffix hnode hancestor hshared hle (heightBelow visibleTip sealDepth)
      with ⟨hsealed, herror⟩ | ⟨hsealed, st₁, hgen, hend, hfinish⟩
    · exact .inl ⟨hsealed, by rw [herror]; rfl⟩
    · refine .inr ⟨hsealed, ?_⟩
      rcases hnode.finishes hlt hfinish with ⟨herror, hlarge⟩ |
        ⟨s', st', tip', hok, htip', hsame, hrep, hgen', hend'⟩
      · exact .inl ⟨by rw [herror]; rfl, by omega⟩
      · refine .inr ⟨s', st', ?_, hrep, .inr ⟨by omega, by rw [hend', hend]⟩⟩
        rw [hok, okMapError_ok, ok_bind]
        simp only [htip', okOr_some, ok_bind, hsame, hhead]
        rfl
  case neg =>
    rw [not_or, not_not, not_not] at hreplace
    have hsame : newDurableTip visibleTip height = height := by
      have := congrArg List.length hreplace.2
      rw [List.length_drop, List.length_take, List.length_nil] at this
      omega
    have hsealed := h.represents.holds.sealed_le
    refine .inr ⟨by omega, .inr ⟨s, st, ?_, ?_, .inl ⟨rfl, rfl⟩⟩⟩
    · rw [if_neg (by rw [not_or, not_not, not_not]; exact hreplace)]
      simp only [pure_eq_ok, ok_bind, htip, okOr_some]
      rw [← hreplace.1, ← hsame, hsame, ← hhead, hsame]
    · rw [hsame, ← hshared, show height + 1 = durable.length by omega, List.take_left]
      exact h.represents

end

end Ztreamer
