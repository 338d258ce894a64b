import Ztreamer.Sync.Reconcile

/-! # Replacing the blocks of an ordinary reorg

    A reconciliation polls from the block `sealDepth` below the visible tip. When
    the node does not have that block, the reorg is deep. Otherwise the records
    above the last common block are replaced, unless that block is below a sealed
    range, or a limit refuses the new blocks.
-/

namespace Ztreamer

open Octets Result Connected

variable {ν : Type}

/-! ## Lists -/

/-- The last of the first `m` elements, from the last of the first `n` and those
    between. -/
theorem getLast?_take_drop {α : Type} (l : List α) {n m : Nat} (h : n ≤ m) :
    ((l.drop n).take (m - n)).getLast?.or (l.take n).getLast? = (l.take m).getLast? := by
  rw [← List.getLast?_append, ← List.take_add, Nat.add_sub_cancel' h]

section

variable [Proto.Prost] {heightOf : Hash → Nat} {s : Store ν} {st : IndexState}
  {durable head : List CompactBlockRecord} {cur blocks : List RawIndexBlock}
  {parsed : List ParsedCompactBlock} {records : List CompactBlockRecord}
  {src : CanonicalBlockSource}

variable (h : Follows heightOf s st durable head cur)

include h

theorem Follows.anchorRecord {visibleTip : Nat} (hvisible : visibleTip + 1 = cur.length) :
    anchorRecord s st head (heightBelow visibleTip sealDepth) =
        .ok ((durable ++ head).take (cur.length - sealDepth)).getLast? ∧
      (heightBelow visibleTip sealDepth).elim 0 (· + 1) = cur.length - sealDepth := by
  have hlen := h.length_eq
  unfold heightBelow
  by_cases hle : sealDepth ≤ visibleTip
  · rw [if_pos hle, Ztreamer.anchorRecord, h.current.currentRecord]
    have hr : (durable ++ head)[visibleTip - sealDepth]? =
      some (durable ++ head)[visibleTip - sealDepth] :=
      List.getElem?_eq_getElem (by omega)
    refine ⟨?_, by simp only [Option.elim_some]; omega⟩
    rw [show cur.length - sealDepth = visibleTip - sealDepth + 1 by omega,
      getLast?_take_succ hr, hr]
  · rw [if_neg hle, show cur.length - sealDepth = 0 by omega]
    exact ⟨rfl, rfl⟩

variable (hnode : NodeChain heightOf blocks parsed records)

include hnode

theorem Follows.lastCommon {height : Nat} (hcommon : commonLength cur blocks = height + 1) :
    ∃ base, (durable ++ head)[height]? = some base ∧ base.blockId.height = height ∧
      records[height]? = some base ∧ base.hash = tipHash (blocks.take (height + 1)) := by
  have hlen := h.length_eq
  have hleft := commonLength_le_left cur blocks
  have htake := h.take_common hnode
  have hbase : (durable ++ head)[height]? = some (durable ++ head)[height] :=
    List.getElem?_eq_getElem (by omega)
  have hbase' : records[height]? = some (durable ++ head)[height] := by
    rw [← List.getElem?_take_of_lt (by omega : height < commonLength cur blocks), ← htake,
      List.getElem?_take_of_lt (by omega), hbase]
  obtain ⟨-, ⟨b, hb, hhash⟩, -⟩ := hnode.record_spec hbase'
  exact ⟨_, hbase, h.connected.height_eq hbase, hbase', by rw [tipHash_take_succ hb, hhash]⟩

/-! ## Replacing a suffix -/

variable (hcol : NoCollision cur blocks) (hserves : src.Serves blocks)

include hcol hserves

/-- The poll of a reconciliation whose anchor is a common block. -/
theorem Follows.pollCanonicalHead (hanchor : cur.length - sealDepth ≤ commonLength cur blocks) :
    pollCanonicalHead src (cur.length - sealDepth) (tipHash (cur.take (cur.length - sealDepth)))
        ((durable ++ head).drop (cur.length - sealDepth)) =
      if blocks.length ≤ cur.length - sealDepth + maxBlockReorgHeight then
        .ok {
          retained := (((durable ++ head).drop (cur.length - sealDepth)).take
            (commonLength cur blocks - (cur.length - sealDepth))).getLast?.map (·.blockId)
          blocks := parsed.drop (commonLength cur blocks) }
      else .error .window := by
  obtain ⟨parsed', hcur⟩ := h.node
  have hlen := h.length_eq
  have hleft := commonLength_le_left cur blocks
  have hright := commonLength_le_right cur blocks
  have hblocks := hnode.length_le
  have hsame : tipHash (cur.take (cur.length - sealDepth)) =
      tipHash (blocks.take (cur.length - sealDepth)) := by
    have := congrArg (List.take (cur.length - sealDepth)) (take_commonLength cur blocks)
    rw [List.take_take, List.take_take, Nat.min_eq_left hanchor] at this
    rw [this]
  have hlinked := hcur.linkedPrefix_drop (cur.length - sealDepth)
  rw [hsame] at hlinked ⊢
  rw [pollCanonicalHead_eq hserves hnode.toIndexed (by omega) _
    (commonLength cur blocks - (cur.length - sealDepth)) _ (by omega) hlinked]
  · rw [Nat.add_sub_cancel' hanchor]
  · intro i r hi
    rw [List.getElem?_drop] at hi
    exact h.connected.height_eq hi
  · rw [List.length_drop]
    omega
  · rw [List.length_drop]
    simp only [sealDepth, maxBlockReorgHeight]
    omega
  · intro i r hi
    rw [List.getElem?_drop] at hi
    rw [h.onChain_iff hnode hcol hi]
    omega

/-- A reconciliation whose anchor is not a common block is a deep reorg. -/
theorem Follows.replaceSuffix_anchor {visibleTip : Nat} (hvisible : visibleTip + 1 = cur.length)
    (hanchor : commonLength cur blocks < cur.length - sealDepth) (config : PipelineConfig) :
    replaceSuffix s src head config visibleTip =
      .error (.deepReorg (cur.length - sealDepth - 1)) := by
  have hlen := h.length_eq
  have hr : (durable ++ head)[cur.length - sealDepth - 1]? =
      some (durable ++ head)[cur.length - sealDepth - 1] := List.getElem?_eq_getElem (by omega)
  obtain ⟨hrecord, hstart⟩ := h.anchorRecord hvisible
  have hlast := getLast?_take_succ hr
  rw [Nat.sub_add_cancel (by omega)] at hlast
  rw [hlast] at hrecord
  have hknown := h.current.knownRecords (cur.length - sealDepth)
    (visibleTip + 1 - (cur.length - sealDepth)) (by omega)
  have hnot := mt (h.onChain_iff hnode hcol hr).mp (by omega)
  rw [CompactBlockRecord.blockId, h.connected.height_eq hr] at hnot
  simp only [Ztreamer.replaceSuffix, replaceSuffixBy, prepareReplacement, planReplacement,
    bind_assoc, pure_bind, h.represents.state, okMapError_ok, ok_bind, hrecord, hstart,
    hknown, Option.elim_some, pollCanonicalHead_anchor hserves (by omega) hnot]
  rfl

/-- A reconciliation from a common anchor, up to its write. -/
theorem Follows.replaceSuffix_eq {visibleTip : Nat} (hvisible : visibleTip + 1 = cur.length)
    (hanchor : cur.length - sealDepth ≤ commonLength cur blocks) (config : PipelineConfig) :
    ((∃ e, replaceSuffix s src head config visibleTip = .error e ∧ ¬ e.IsReorg) ∧
      ¬ (durable ≠ [] ∧ 0 < commonLength cur blocks ∧
        blocks.length ≤ cur.length - sealDepth + maxBlockReorgHeight ∧
        Budget config parsed (cur.length - sealDepth) st.generation)) ∨
    ∃ tip ancestor height newTip, st.durableTip = some tip ∧
      height + 1 = min (commonLength cur blocks) durable.length ∧
      durable[height]? = some ancestor ∧ newTip + 1 = records.length ∧
      replaceSuffix s src head config visibleTip =
        Ztreamer.persistSuffix s st tip ancestor (records.drop (height + 1)) newTip := by
  obtain ⟨parsed', hcur⟩ := h.node
  have hlen := h.length_eq
  have hrlen := hnode.records_length
  have hleft := commonLength_le_left cur blocks
  have hright := commonLength_le_right cur blocks
  have htake := h.take_common hnode
  obtain ⟨hrecord, hstart⟩ := h.anchorRecord hvisible
  have hknown := h.current.knownRecords (cur.length - sealDepth)
    (visibleTip + 1 - (cur.length - sealDepth)) (by omega)
  have hhash := (hcur.toIndexed.take (cur.length - sealDepth)).tipHash_eq
  have hcommon := congrArg (Option.map CompactBlockRecord.blockId)
    (getLast?_take_drop (durable ++ head) hanchor)
  rw [Option.map_or] at hcommon
  simp only [Ztreamer.replaceSuffix, replaceSuffixBy, prepareReplacement, planReplacement,
    bind_assoc, pure_bind, h.represents.state, okMapError_ok, ok_bind, hrecord, hstart,
    hknown, hhash, h.pollCanonicalHead hnode hcol hserves hanchor]
  -- the poll of a node on its own chain fails only for the window
  by_cases hwindow : blocks.length ≤ cur.length - sealDepth + maxBlockReorgHeight
  case neg =>
    rw [if_neg hwindow]
    exact .inl ⟨⟨_, rfl, id⟩, fun hand => hwindow hand.2.2.1⟩
  simp only [if_pos hwindow, deepReorgOfAnchor, ok_bind, hcommon, h.extendCommon hnode hcol,
    okMapError_ok]
  rcases hlength : commonLength cur blocks with _ | common
  · exact .inl ⟨⟨_, rfl, id⟩, fun hand => by omega⟩
  obtain ⟨base, hbase, hbaseHeight, hbase', -⟩ := h.lastCommon hnode hlength
  obtain ⟨newTip, hnew, hnewTip, hbuild⟩ := hnode.buildRecords st hbase' config
  have hlast := getLast?_take_succ hbase
  simp only [hlast, Option.map_some, okOr_some, ok_bind, hbaseHeight, hnew]
  rw [hlength] at htake hanchor
  cases htip : st.durableTip with
  | none =>
    refine .inl ⟨⟨_, rfl, id⟩, fun hand => ?_⟩
    obtain ⟨tip, htip', -⟩ := h.represents.describes.exists_tip h.represents.connected
      (i := 0) (List.length_pos_iff.mpr hand.1)
    rw [htip] at htip'
    cases htip'
  | some tip =>
    have htipHeight := h.represents.describes.tip_height h.represents.connected htip
    obtain ⟨height, hheight⟩ : ∃ height, min (common) tip.height = height :=
      ⟨_, rfl⟩
    have hancestor : durable[height]? = some durable[height] := List.getElem?_eq_getElem (by omega)
    generalize durable[height] = ancestor at hancestor
    have hancestor' : (durable ++ head)[height]? = some ancestor := by
      rw [List.getElem?_append_left (by omega), hancestor]
    have hrequire := h.current.requireRecord hancestor'
    have hkept := h.current.mapM_requireRecord (height + 1) (common + 1) (by omega)
    have hfilter : ((parsed.drop (common + 1)).filter fun block =>
        decide (common < block.height.val)) =
        parsed.drop (common + 1) := by
      rw [List.filter_eq_self]
      intro p hp
      obtain ⟨i, hi⟩ := List.mem_iff_getElem?.mp hp
      rw [List.getElem?_drop] at hi
      have := hnode.parsedChain.height _ _ hi
      simp only [decide_eq_true_eq]
      omega
    -- the common records above the ancestor are kept, and those above them are built
    have hkeptLast : (((durable ++ head).take (common + 1)).drop
        (height + 1)).getLast?.getD ancestor = base := by
      rw [List.getLast?_drop, List.length_take]
      split
      · rw [List.getElem?_append_left (by omega), show common = height by omega,
          hancestor] at hbase
        exact Option.some.inj hbase
      · rw [hlast]
        rfl
    have hcanonical : ((durable ++ head).take (common + 1)).drop (height + 1) ++
        records.drop (common + 1) = records.drop (height + 1) := by
      have hle : height + 1 ≤ (records.take (common + 1)).length := by
        rw [List.length_take]
        omega
      rw [htake, ← List.drop_append_of_le_length hle, List.take_append_drop]
    simp only [okOr_some, ok_bind, hheight, hrequire, okMapError_ok,
      show common - height = common + 1 - (height + 1) by omega,
      hkept, hfilter, hkeptLast]
    rcases hbuild with ⟨⟨e, he⟩, hbudget⟩ | hok
    · rw [he]
      exact .inl ⟨⟨_, rfl, id⟩, fun hand => hbudget (hand.2.2.2.mono hanchor)⟩
    · rw [hok, okMapError_ok, ok_bind, hcanonical]
      exact .inr ⟨tip, ancestor, height, newTip, rfl, by omega, hancestor, hnewTip, rfl⟩

/-- What a reconciliation from a common anchor gives. -/
theorem Follows.replaceSuffix {visibleTip : Nat} (hvisible : visibleTip + 1 = cur.length)
    (hanchor : cur.length - sealDepth ≤ commonLength cur blocks) (config : PipelineConfig) :
    ((∃ e, replaceSuffix s src head config visibleTip = .error e ∧ ¬ e.IsReorg) ∧
      ¬ (durable ≠ [] ∧ 0 < commonLength cur blocks ∧
        blocks.length ≤ cur.length - sealDepth + maxBlockReorgHeight ∧
        Budget config parsed (cur.length - sealDepth) st.generation)) ∨
    (commonLength cur blocks < st.sealedEnd ∧
      replaceSuffix s src head config visibleTip =
        .error (.index (.sealed (commonLength cur blocks)))) ∨
    (st.sealedEnd ≤ commonLength cur blocks ∧ ∃ s' st' newTip newDurable,
      replaceSuffix s src head config visibleTip =
        .ok (s', st', records.drop (newDurable + 1)) ∧
      newTip + 1 = records.length ∧
      newDurable = newDurableTip newTip (min (commonLength cur blocks) durable.length - 1) ∧
      newDurable ≤ newTip ∧
      Represents heightOf s' st' (records.take (newDurable + 1)) ∧
      Advances s s' st st' (heightBelow newTip sealDepth) (newDurable + 1)) := by
  have hright := commonLength_le_right cur blocks
  have hrlen := hnode.records_length
  rcases h.replaceSuffix_eq hnode hcol hserves hvisible hanchor config with
    hfail | ⟨tip, ancestor, height, newTip, htip, hheight, hancestor, hnewTip, heq⟩
  · exact .inl hfail
  have hshared : (durable ++ head).take (height + 1) = records.take (height + 1) := by
    have := congrArg (List.take (height + 1)) (h.take_common hnode)
    rwa [List.take_take, List.take_take, Nat.min_eq_left (by omega)] at this
  have hsealed := h.represents.holds.sealed_le
  rw [heq]
  rcases h.persistSuffix hnode hancestor hshared htip hnewTip with ⟨hlt, herror⟩ |
    ⟨hle, ⟨herror, hgen⟩ | ⟨s', st', hok, hrep, hadvances⟩⟩
  · refine .inr (.inl ⟨by omega, ?_⟩)
    rw [herror, show height + 1 = commonLength cur blocks by omega]
  · refine .inl ⟨⟨_, herror, id⟩, fun hand => ?_⟩
    have := hand.2.2.2.generation_lt
    rw [hnode.parsed_length] at this
    omega
  · refine .inr (.inr ⟨by omega, s', st', newTip, _, hok, hnewTip, ?_, ?_, hrep, hadvances⟩)
    · rw [← hheight, Nat.add_sub_cancel]
    · simp only [newDurableTip]
      omega

end

end Ztreamer
