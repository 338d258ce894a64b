import Ztreamer.Index.Answers
import Ztreamer.Sync.Classification

/-! # Recovery from a deep reorg

    A recovery searches the last common block from genesis up, and replaces
    everything above it in one write. The write reads the common block from the
    index, so the block must be durable. When the node returns to the current
    chain, the last common block can be in the head, and the recovery fails.
-/

namespace Ztreamer

open Octets Result Connected

variable {ν : Type}

section

variable [Proto.Prost] {heightOf : Hash → Nat} {s : Store ν} {st : IndexState}
  {durable head : List CompactBlockRecord} {cur blocks : List RawIndexBlock}
  {parsed : List ParsedCompactBlock} {records : List CompactBlockRecord}
  {src : CanonicalBlockSource}

/-- A common block above the durable tip cannot be read. -/
theorem Represents.replaceDeepSuffix_above (h : Represents heightOf s st durable)
    (common : BlockId) (habove : durable.length ≤ common.height)
    (replacement : List CompactBlockRecord) (sealThrough : Option Nat) :
    ∃ e, s.replaceDeepSuffix st.generation common replacement sealThrough = .error e ∧
      (durable ≠ [] → e = .coverage common.height) := by
  rw [Store.replaceDeepSuffix, h.start_eq_ok.mpr ⟨rfl, rfl⟩, ok_bind]
  cases htip : st.durableTip with
  | none =>
    refine ⟨.metadata, by simp only [Writer.replaceDeepSuffix, htip]; rfl, fun hne => ?_⟩
    obtain ⟨tip, htip', -⟩ := h.describes.exists_tip h.connected (i := 0)
      (List.length_pos_iff.mpr hne)
    rw [htip] at htip'
    cases htip'
  | some tip =>
    have hheight := h.describes.tip_height h.connected htip
    have hnot : ¬ ∃ tip ∈ st.durableTip, common.height ≤ tip.height := by
      rintro ⟨tip', htip', hle⟩
      rw [htip] at htip'
      cases htip'
      omega
    refine ⟨.coverage common.height, ?_, fun _ => rfl⟩
    simp only [Writer.replaceDeepSuffix, htip, okOr_some, ok_bind, Writer.read, Store.read]
    rw [htip] at hnot
    rw [ensure_of_not _ hnot]
    rfl

variable (h : Follows heightOf s st durable head cur)

include h

theorem Follows.visibleTip (hpos : 0 < cur.length) :
    (head.getLast?.map (·.height.val)).or (st.durableTip.map (·.height)) =
      some (cur.length - 1) := by
  have hlen := h.length_eq
  have hr := List.getLast?_eq_some_getLast (List.ne_nil_of_length_pos (hlen ▸ hpos))
  have hheight := h.connected.getLast_height hr
  rw [h.represents.describes.tip, Option.map_map]
  have hmap : ((fun tip : BlockId => tip.height) ∘ fun r : CompactBlockRecord => r.blockId) =
      fun r => r.height.val := rfl
  rw [hmap, ← Option.map_or, ← List.getLast?_append, hr, Option.map_some]
  exact congrArg some (by omega)

variable (hnode : NodeChain heightOf blocks parsed records)

include hnode

/-! ## The write -/

/-- The one write of a recovery, when the last common block is durable. -/
theorem Follows.persistRecovery {base : CompactBlockRecord} {height : Nat}
    (hbase : durable[height]? = some base)
    (hshared : (durable ++ head).take (height + 1) = records.take (height + 1)) {newTip : Nat}
    (hlt : height < records.length) (htip : newTip + 1 = records.length)
    (hgen : st.generation + 1 < 2 ^ 64) :
    ∃ s' st' n, persistRecovery s ⟨st, height, base, records.drop (height + 1), newTip⟩ =
        .ok (s', st', records.drop n) ∧
      Represents heightOf s' st' (records.take n) := by
  have hle : height ≤ newDurableTip newTip height := Nat.le_max_right _ _
  have hlt : newDurableTip newTip height < records.length := by
    simp only [newDurableTip]
    omega
  obtain ⟨-, hreplacement, hhead⟩ := hnode.filter_drop hle
  have hkept : durable.take (height + 1) =
      (records.take (newDurableTip newTip height + 1)).take (height + 1) := by
    have hheight := (List.getElem?_eq_some_iff.mp hbase).1
    rw [List.take_take, Nat.min_eq_left (by omega), ← hshared]
    exact (List.take_append_of_le_length (by omega)).symm
  obtain ⟨encoded, hencoded⟩ := hnode.encodedAs
  have hlength := hnode.length_le
  have hrlen := hnode.records_length
  obtain ⟨common, s', st', -, hcommon, hok, hrep, -⟩ := h.represents.deepReorgs
    (List.getElem?_eq_some_iff.mp hbase).1 hkept (hnode.connected.take _) (hencoded.take _)
    (by rw [List.length_take]; omega) hgen (heightBelow newTip sealDepth)
  obtain rfl := Option.some.inj (hbase.symm.trans hcommon)
  obtain ⟨tip, htip', -⟩ := hrep.describes.exists_tip hrep.connected (i := 0)
    (by rw [List.length_take]; omega)
  have hsame := hrep.describes.tip_height hrep.connected htip'
  rw [List.length_take, Nat.min_eq_left hlt, Nat.add_right_cancel_iff] at hsame
  refine ⟨s', st', _, ?_, hrep⟩
  simp only [Ztreamer.persistRecovery, elim_heightBelow, hreplacement, hok, okMapError_ok,
    ok_bind, Option.mem_def.mp htip', okOr_some, hsame, hhead]
  rfl

/-! ## The search -/

variable (hcol : NoCollision cur blocks)

include hcol

/-- The node has the genesis block of the current chain. -/
theorem Follows.genesis (hpos : 0 < commonLength cur blocks) :
    ∃ r b, (durable ++ head)[0]? = some r ∧ blocks[0]? = some b ∧ r.hash = b.hash := by
  have hlen := h.length_eq
  have hleft := commonLength_le_left cur blocks
  have hr : (durable ++ head)[0]? = some (durable ++ head)[0] := List.getElem?_eq_getElem (by omega)
  obtain ⟨b, hb, hhash⟩ := Ztreamer.onChain_iff.mp ((h.onChain_iff hnode hcol hr).mpr hpos)
  rw [CompactBlockRecord.blockId, h.connected.height_eq hr] at hb
  exact ⟨_, b, hr, hb, hhash.symm⟩

variable (hserves : src.Serves blocks)

include hserves

/-- The two chains have the same block at the heights below their common length. -/
theorem Follows.sameBlock (height : Nat) :
    sameBlock s src.block st head height = .ok (decide (height < commonLength cur blocks)) := by
  have hleft := commonLength_le_left cur blocks
  have hright := commonLength_le_right cur blocks
  have hlen := h.length_eq
  simp only [Ztreamer.sameBlock, hserves.block, okMapError_ok, ok_bind, h.current.currentRecord]
  cases hb : blocks[height]? with
  | none =>
    rw [List.getElem?_eq_none_iff] at hb
    rw [decide_eq_false (by omega)]
    rfl
  | some b =>
    cases hr : (durable ++ head)[height]? with
    | none =>
      rw [List.getElem?_eq_none_iff] at hr
      rw [decide_eq_false (by omega)]
      rfl
    | some r =>
      have hiff := h.onChain_iff hnode hcol hr
      rw [Ztreamer.onChain_iff] at hiff
      simp only [CompactBlockRecord.blockId, h.connected.height_eq hr, hb] at hiff
      refine congrArg Except.ok (decide_eq_decide.mpr (Iff.trans ?_ hiff))
      simp

/-- A recovery finds the last common block, and polls the blocks of the node above it. -/
theorem Follows.planRecovery {height : Nat} (hcommon : commonLength cur blocks = height + 1)
    (hwindow : blocks.length ≤ height + 1 + maxBlockReorgHeight) {base : CompactBlockRecord}
    (hbase : (durable ++ head)[height]? = some base)
    (hhash : base.hash = tipHash (blocks.take (height + 1))) :
    planRecovery s src.block (Ztreamer.pollCanonicalHead src) head =
      .ok ⟨st, height, base, parsed.drop (height + 1),
        (parsed.drop (height + 1)).getLast?.elim height (·.height.val)⟩ := by
  obtain ⟨parsed', hcur⟩ := h.node
  have hcurlen := hcur.length_le
  have hblocks := hnode.length_le
  have hleft := commonLength_le_left cur blocks
  have hright := commonLength_le_right cur blocks
  obtain ⟨r, b, hold, hgenesis, hsame⟩ := h.genesis hnode hcol (by omega)
  have hsame : ∃ r' ∈ some r, r'.hash = b.hash := ⟨r, rfl, hsame⟩
  -- the bisection has the genesis block as its lower end
  have hsearch : Bisect.lastTrue (Ztreamer.sameBlock s src.block st head) 0 (cur.length - 1 + 1) =
      .ok height := by
    refine Bisect.lastTrue_eq (Nat.zero_le _) (by omega) fun i _ _ => ?_
    rw [h.sameBlock hnode hcol hserves]
    exact congrArg Except.ok (decide_eq_decide.mpr (by omega))
  have hpoll := pollCanonicalHead_eq hserves hnode.toIndexed (by omega) (height + 1) 0 []
    (by omega) rfl (by simp) le_rfl (by simp) (by simp)
  rw [if_pos hwindow, ← hhash] at hpoll
  simp only [Ztreamer.planRecovery, h.represents.state, okMapError_ok, ok_bind,
    h.visibleTip (by omega), okOr_some, hserves.block, hgenesis, h.current.currentRecord, hold,
    ensure_of _ hsame, ensure_of _ (by omega : cur.length - 1 + 1 < 2 ^ 32), hsearch, hbase, hpoll,
    Nat.add_zero]
  rfl

/-! ## Recovery -/

/-- What a recovery gives, when the chains have the genesis block in common. -/
theorem Follows.recoverDeepReorg (hpos : 0 < commonLength cur blocks)
    (hwindow : blocks.length ≤ commonLength cur blocks + maxBlockReorgHeight)
    {config : PipelineConfig}
    (hbudget : Budget config parsed (commonLength cur blocks) st.generation) :
    (commonLength cur blocks ≤ durable.length ∧ ∃ s' st' n,
      recoverDeepReorg s src head config = (s', .ok (st', records.drop n)) ∧
      Represents heightOf s' st' (records.take n)) ∨
    (durable.length < commonLength cur blocks ∧ ∃ e,
      recoverDeepReorg s src head config = (s, .error (.index e)) ∧
      (durable ≠ [] → e = .coverage (commonLength cur blocks - 1))) := by
  have hrlen := hnode.records_length
  have hright := commonLength_le_right cur blocks
  obtain ⟨height, hcommon⟩ := Nat.exists_eq_add_of_lt hpos
  rw [Nat.zero_add] at hcommon
  have htake := h.take_common hnode
  rw [hcommon] at htake hwindow hbudget ⊢
  obtain ⟨base, hbase, hbaseHeight, hbase', hhash⟩ := h.lastCommon hnode hcommon
  obtain ⟨newTip, hnew, htip, hbuild⟩ := hnode.buildRecords st hbase' config
  -- the budgets hold the blocks of the node
  have hbuild := hbuild.resolve_left fun hand => hand.2 hbudget
  simp only [Ztreamer.recoverDeepReorg, recoverDeepReorgBy, prepareRecovery, pure_bind,
    h.planRecovery hnode hcol hserves hcommon hwindow hbase hhash, hnew, ok_bind, hbuild,
    okMapError_ok]
  by_cases hdurable : height + 1 ≤ durable.length
  case pos =>
    rw [List.getElem?_append_left (by omega)] at hbase
    have hgen := hbudget.generation_lt
    rw [hnode.parsed_length] at hgen
    obtain ⟨s', st', n, hok, hrep⟩ := h.persistRecovery hnode hbase htake (by omega) htip (by omega)
    rw [hok]
    exact .inl ⟨hdurable, s', st', n, rfl, hrep⟩
  case neg =>
    -- the write reads the common block from the index, which ends below it
    obtain ⟨e, he, hcoverage⟩ := h.represents.replaceDeepSuffix_above base.blockId (by omega)
      ((records.drop (height + 1)).filter fun r =>
      decide (r.height.val ≤ newDurableTip newTip height))
      (heightBelow newTip sealDepth)
    simp only [Ztreamer.persistRecovery, elim_heightBelow, he]
    exact .inr ⟨by omega, e, rfl, fun hne => by rw [hcoverage hne, hbaseHeight]; rfl⟩

/-- A recovery gives the node's chain exactly when the last common block is durable. -/
theorem recoverDeepReorg_iff (hgenesis : ∃ r ∈ (durable ++ head)[0]?, OnChain blocks r.blockId)
    (hwindow : blocks.length ≤ commonLength cur blocks + maxBlockReorgHeight)
    {config : PipelineConfig}
    (hbudget : Budget config parsed (commonLength cur blocks) st.generation) :
    (∃ s' st' durable' head', recoverDeepReorg s src head config = (s', .ok (st', head')) ∧
      Represents heightOf s' st' durable' ∧ durable' ++ head' = records) ↔
    ∃ tip ∈ st.durableTip, commonLength cur blocks - 1 ≤ tip.height := by
  obtain ⟨genesis, hget, hon⟩ := hgenesis
  have hpos : 0 < commonLength cur blocks := (h.onChain_iff hnode hcol hget).mp hon
  rcases h.recoverDeepReorg hnode hcol hserves hpos hwindow hbudget with
    ⟨hle, s', st', n, hok, hrep⟩ | ⟨hlt, e, he, -⟩
  · constructor
    · intro _
      exact h.represents.describes.exists_tip h.represents.connected (by omega)
    · intro _
      exact ⟨s', st', _, _, hok, hrep, List.take_append_drop n records⟩
  · constructor
    · rintro ⟨s', st', durable', head', hok, -⟩
      rw [he] at hok
      cases hok
    · rintro ⟨tip, htip, hle⟩
      have := h.represents.describes.tip_height h.represents.connected htip
      omega

end

section

attribute [local instance] Proto.wireDecoder zeroDigest

/-- A recovery from a fork below the durable tip. -/
theorem recoverDeepReorg_iff_durable : ∃ (s : Store Unit) (st : IndexState),
    Reachable (Call.Honest plainHeight) s ∧
    Follows plainHeight s st ((plainRecords 100 20).take 10) ((plainRecords 100 20).drop 10)
      (plainBlocks 100 20) ∧
    ∃ s' st' durable' head',
      recoverDeepReorg s (.ofBlocks (plainBlocks 5 22)) ((plainRecords 100 20).drop 10)
        (.ofParallelism 8) = (s', .ok (st', head')) ∧
      Represents plainHeight s' st' durable' ∧ durable' ++ head' = plainRecords 5 22 := by
  have hcur := plainBlocks_nodeChain 100 (n := 20) (by decide)
  obtain ⟨s, st, hreach, hrep, -, hgen⟩ := hcur.reachable (ν := Unit) (fun _ hc _ => hc) (n := 10)
    (by simp)
  have hfollows := hcur.follows hrep
  have hnode := plainBlocks_nodeChain 5 (n := 22) (by decide)
  have hcol : NoCollision (plainBlocks 100 20) (plainBlocks 5 22) :=
    branchBlocks_noCollision (by decide) (by decide)
  have hcommon : commonLength (plainBlocks 100 20) (plainBlocks 5 22) = 5 :=
    branchBlocks_commonLength (by decide) (by decide)
  have hgenesis := List.getElem?_eq_getElem (i := 0)
    (l := (plainRecords 100 20).take 10 ++ (plainRecords 100 20).drop 10) (by simp)
  refine ⟨s, st, hreach, hfollows, ?_⟩
  refine (recoverDeepReorg_iff hfollows hnode hcol (CanonicalBlockSource.ofBlocks_serves _)
    ⟨_, hgenesis, (hfollows.onChain_iff hnode hcol hgenesis).mpr (by omega)⟩ ?_
    (plainBlocks_budget 5 _ 8 (by decide) (by omega))).mpr ?_
  · rw [hcommon, length_branchBlocks]
    decide
  · rw [hcommon]
    exact hrep.describes.exists_tip hrep.connected (by simp)

/-- The node has the current chain and one more block. The last common block is in
    the head, and the recovery fails. -/
theorem recoverDeepReorg_returned : ∃ (s : Store Unit) (st : IndexState),
    Reachable (Call.Honest plainHeight) s ∧
    Follows plainHeight s st ((plainRecords 100 20).take 10) ((plainRecords 100 20).drop 10)
      (plainBlocks 100 20) ∧
    recoverDeepReorg s (.ofBlocks (plainBlocks 100 21)) ((plainRecords 100 20).drop 10)
      (.ofParallelism 8) = (s, .error (.index (.coverage 19))) := by
  have hcur := plainBlocks_nodeChain 100 (n := 20) (by decide)
  obtain ⟨s, st, hreach, hrep, -, hgen⟩ := hcur.reachable (ν := Unit) (fun _ hc _ => hc) (n := 10)
    (by simp)
  have hfollows := hcur.follows hrep
  have hnode := plainBlocks_nodeChain 100 (n := 21) (by decide)
  have hcommon : commonLength (plainBlocks 100 20) (plainBlocks 100 21) = 20 :=
    branchBlocks_commonLength (by decide) (by decide)
  refine ⟨s, st, hreach, hfollows, ?_⟩
  rcases hfollows.recoverDeepReorg hnode (branchBlocks_noCollision (by decide) (by decide))
    (CanonicalBlockSource.ofBlocks_serves _) (by omega)
    (by rw [hcommon, length_branchBlocks]; decide)
    (plainBlocks_budget 100 _ 8 (by decide) (by omega)) with ⟨hle, -⟩ | ⟨-, e, he, hcoverage⟩
  · rw [hcommon, List.length_take, length_branchRecords] at hle
    omega
  · rw [he, hcoverage (by simp [plainRecords, branchRecords]), hcommon]

end

end Ztreamer
