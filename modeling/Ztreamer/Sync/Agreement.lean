import Ztreamer.Index.Reachable
import Ztreamer.Sync.Extension

/-! # Agreement with the node

    A call that reconciles the head with a node that serves one chain. When the
    node has the anchor of the poll, and the common blocks reach the sealed
    ranges, the durable chain and the head after the call are the chain of the
    node.
-/

namespace Ztreamer

open Octets Result Connected

variable {ν : Type}

/-! ## One call -/

theorem HeadResult.deepReorgOfAnchor_error {s : Store ν} {e : HeadSyncError} (h : ¬ e.IsReorg) :
    HeadResult.deepReorgOfAnchor (s, .error e) = (s, .error e) := by
  unfold HeadResult.deepReorgOfAnchor
  split
  · rename_i heq
    cases heq
    exact absurd trivial h
  · rfl

section

variable [Proto.Prost] {heightOf : Hash → Nat} {s : Store ν} {st : IndexState}
  {durable head : List CompactBlockRecord} {cur blocks : List RawIndexBlock}
  {parsed : List ParsedCompactBlock} {records : List CompactBlockRecord}
  {src : CanonicalBlockSource}

/-- A call without a head extends the durable chain. -/
theorem Follows.syncHeadOnce_extension (h : Follows heightOf s st durable [] cur)
    (hnode : NodeChain heightOf blocks parsed records) (hcol : NoCollision cur blocks)
    (hserves : src.Serves blocks) (config : PipelineConfig) :
    (commonLength cur blocks < durable.length ∧
      syncHeadOnce s src [] config = (s, .error (.deepReorg (durable.length - 1)))) ∨
    (commonLength cur blocks = durable.length ∧ ∃ s' st' n,
      Wrote heightOf records st durable.length s' st' n ∧
      (((∃ e, syncHeadOnce s src [] config = (s', .error e) ∧ ¬ e.IsReorg) ∧
        ¬ (blocks.length ≤ durable.length + maxBlockReorgHeight ∧
          Budget config parsed durable.length st.generation)) ∨
      (syncHeadOnce s src [] config = (s', .ok (st', records.drop n)) ∧
        n = max durable.length (records.length - persistDepth)))) := by
  have hcurlen := h.length_eq
  rw [List.append_nil] at hcurlen
  have hleft := commonLength_le_left cur blocks
  have hright := commonLength_le_right cur blocks
  have heq : syncHeadOnce s src [] config =
      (syncExtensionOnce s src st config).deepReorgOfAnchor := by
    simp only [Ztreamer.syncHeadOnce, syncHeadOnceBy, syncExtensionOnce, h.represents.state,
      List.getLast?_nil]
  rw [heq]
  by_cases hlt : commonLength cur blocks < durable.length
  · refine .inl ⟨hlt, ?_⟩
    have hr : durable[durable.length - 1]? = some durable[durable.length - 1] :=
      List.getElem?_eq_getElem (by omega)
    generalize durable[durable.length - 1] = last at hr
    have hlast : durable.getLast? = some last := by rw [List.getLast?_eq_getElem?, hr]
    -- the durable tip is not on the chain of the node, so the poll refuses its anchor
    have hnot := mt (h.onChain_iff hnode hcol (i := durable.length - 1) (r := last)
      (by rw [List.append_nil, hr])).mp (by omega)
    rw [CompactBlockRecord.blockId, h.represents.connected.height_eq hr] at hnot
    have hlen := hnode.length_le
    have hnext : st.nextHeight = some durable.length := by
      rw [h.represents.describes.nextHeight_eq_some h.represents.connected]
      refine ⟨rfl, fun _ => ?_⟩
      have := last.height.isLt
      have := h.represents.connected.height_eq hr
      obtain ⟨parsed', hcur⟩ := h.node
      have := hcur.length_le
      omega
    have herror : prepareExtensionBy (Ztreamer.pollCanonicalHead src) st config =
        .error (.head (.anchor (durable.length - 1))) := by
      simp only [prepareExtensionBy, hnext, okOr_some, ok_bind,
        (h.represents.describes.tip_of_getLast hlast).1, Option.elim_some,
        CompactBlockRecord.blockId]
      rw [pollCanonicalHead_anchor hserves (by omega) hnot]
      rfl
    simp only [Ztreamer.syncExtensionOnce, syncExtensionOnceBy, herror]
    rfl
  · have hcommon : commonLength cur blocks = durable.length := by omega
    have hrlen := hnode.records_length
    have hchain : durable = records.take durable.length := by
      have htake := h.take_common hnode
      rwa [hcommon, List.append_nil, List.take_length] at htake
    refine .inr ⟨hcommon, ?_⟩
    have hrep := h.represents
    rw [hchain] at hrep
    obtain ⟨s', st', n, hwrote, hresult⟩ := hnode.syncExtensionOnce hserves hrep (by omega) config
    refine ⟨s', st', n, hwrote, ?_⟩
    rcases hresult with ⟨⟨e, he, hkind⟩, hreason⟩ | ⟨hok, hn⟩
    · rw [he, HeadResult.deepReorgOfAnchor_error hkind]
      exact .inl ⟨⟨e, rfl, hkind⟩, hreason⟩
    · rw [hok]
      exact .inr ⟨rfl, hn⟩

/-- A source that tells the tip of the head serves the current chain. -/
theorem Follows.records_eq_of_tip (h : Follows heightOf s st durable head cur)
    (hnode : NodeChain heightOf blocks parsed records) (hcol : NoCollision cur blocks)
    (hserves : src.Serves blocks) {last : CompactBlockRecord} (hlast : head.getLast? = some last)
    (htip : src.tip = .ok (some last.blockId)) : durable ++ head = records := by
  have hlen := h.length_eq
  have hrlen := hnode.records_length
  have hlast' : (durable ++ head).getLast? = some last := by
    rw [List.getLast?_append, hlast]
    rfl
  have hheight : last.height.val + 1 = (durable ++ head).length := h.connected.getLast_height hlast'
  rw [List.getLast?_eq_getElem?] at hlast'
  obtain ⟨tip, htip', hnone | hsome⟩ := hserves.tip
  · rw [htip, hnone] at htip'
    cases htip'
  rw [htip, hsome] at htip'
  obtain ⟨b, hb, hid⟩ := Option.map_eq_some_iff.mp (Except.ok.inj htip').symm
  rw [List.getLast?_eq_getElem?] at hb
  have hbheight := hnode.chain.height _ _ hb
  have hbid : b.height.val = last.height.val := congrArg BlockId.height hid
  have hpos := (List.getElem?_eq_some_iff.mp hb).1
  have hcommon : (durable ++ head).length - 1 < commonLength cur blocks := by
    refine (h.onChain_iff hnode hcol hlast').mp ?_
    refine Ztreamer.onChain_iff.mpr ⟨b, ?_, congrArg BlockId.hash hid⟩
    rw [CompactBlockRecord.blockId, ← hbid, hbheight, hb]
  have htake := h.take_common hnode
  rwa [List.take_of_length_le (by omega), List.take_of_length_le (by omega)] at htake

/-- A call with a head replaces a suffix, unless the source tells the tip of the head. -/
theorem Follows.syncHeadOnce_of_getLast (h : Follows heightOf s st durable head cur)
    (hserves : src.Serves blocks) {last : CompactBlockRecord} (hlast : head.getLast? = some last)
    (config : PipelineConfig) :
    last.height.val + 1 = cur.length ∧
    syncHeadOnce s src head config =
      if src.tip = .ok (some last.blockId) then (s, .ok (st, head))
      else HeadResult.ofCommit s (Ztreamer.replaceSuffix s src head config last.height.val) := by
  have hlast' : (durable ++ head).getLast? = some last := by
    rw [List.getLast?_append, hlast]
    rfl
  refine ⟨(h.connected.getLast_height hlast').trans h.length_eq, ?_⟩
  obtain ⟨tip, htip, -⟩ := hserves.tip
  simp only [syncHeadOnce, syncHeadOnceBy, Ztreamer.replaceSuffix, h.represents.state, hlast, htip,
    Except.ok.injEq]

/-! ## Agreement -/

/-- The height of the block that the node must have. -/
def anchorHeight (durable head : List CompactBlockRecord) : Nat :=
  if head = [] then durable.length - 1 else (durable ++ head).length - 1 - sealDepth

/-- The height from which a call polls. -/
def pollStart (durable head : List CompactBlockRecord) : Nat :=
  if head = [] then durable.length else (durable ++ head).length - sealDepth

/-- The source tells that its tip is the tip of the head. -/
def TipUnchanged (src : CanonicalBlockSource) (head : List CompactBlockRecord) : Prop :=
  ∃ last ∈ head.getLast?, src.tip = .ok (some last.blockId)

/-- After a call the durable chain and the head are the records of the node's
    chain. When the source tells the tip of the head, nothing changes. Otherwise
    the durable chain ends `persistDepth` below the visible tip, or where the old
    durable chain and the node's chain part, if that is higher. -/
theorem syncHeadOnce_agrees (h : Follows heightOf s st durable head cur) (hdurable : durable ≠ [])
    (hnode : NodeChain heightOf blocks parsed records) (hcol : NoCollision cur blocks)
    (hserves : src.Serves blocks)
    (hanchor : ∀ r ∈ (durable ++ head)[anchorHeight durable head]?, OnChain blocks r.blockId)
    (hsealed : ∀ through ∈ st.sealedThrough, through + 1 ≤ commonLength cur blocks)
    (hwindow : blocks.length ≤ pollStart durable head + maxBlockReorgHeight)
    {config : PipelineConfig}
    (hbudget : Budget config parsed (pollStart durable head) st.generation) :
    ∃ s' st' durable' head', syncHeadOnce s src head config = (s', .ok (st', head')) ∧
      Represents heightOf s' st' durable' ∧ durable' ++ head' = records ∧
      (TipUnchanged src head → s' = s ∧ st' = st ∧ durable' = durable ∧ head' = head) ∧
      (¬ TipUnchanged src head → durable'.length - 1 = newDurableTip (records.length - 1)
        (min (commonLength cur blocks - 1) (durable.length - 1))) := by
  have hlen := h.length_eq
  have hpos := List.length_pos_iff.mpr hdurable
  have hsealedEnd : st.sealedEnd ≤ commonLength cur blocks := by
    by_contra hlt
    have := hsealed (st.sealedEnd - 1) (IndexState.sealedThrough_eq_some_iff.mpr (by omega))
    omega
  have hanchor' : anchorHeight durable head < commonLength cur blocks := by
    have hlt : anchorHeight durable head < (durable ++ head).length := by
      rw [anchorHeight, List.length_append]
      split <;> omega
    have hr := List.getElem?_eq_getElem hlt
    exact (h.onChain_iff hnode hcol hr).mp (hanchor _ hr)
  have hright := commonLength_le_right cur blocks
  have hrlen := hnode.records_length
  -- without a head the call is an extension, else it replaces the suffix
  by_cases hhead : head = []
  case pos =>
    subst hhead
    rw [anchorHeight, if_pos rfl] at hanchor'
    rw [pollStart, if_pos rfl] at hwindow hbudget
    rcases h.syncHeadOnce_extension hnode hcol hserves config with ⟨hlt, -⟩ |
      ⟨hcommon, s', st', n, hwrote, ⟨-, hreason⟩ | ⟨hok, hn⟩⟩
    · omega
    · exact absurd ⟨hwindow, hbudget⟩ hreason
    · refine ⟨s', st', _, _, hok, hwrote.represents, List.take_append_drop n records, ?_, ?_⟩
      · rintro ⟨last, hlast, -⟩
        cases hlast
      · intro _
        simp only [List.length_take, newDurableTip]
        omega
  case neg =>
    rw [anchorHeight, if_neg hhead] at hanchor'
    rw [pollStart, if_neg hhead] at hwindow hbudget
    have hlast := List.getLast?_eq_some_getLast hhead
    generalize head.getLast hhead = last at hlast
    obtain ⟨hvisible, heq⟩ := h.syncHeadOnce_of_getLast hserves hlast config
    by_cases htip : src.tip = .ok (some last.blockId)
    · rw [if_pos htip] at heq
      exact ⟨s, st, durable, head, heq, h.represents,
        h.records_eq_of_tip hnode hcol hserves hlast htip,
        fun _ => ⟨rfl, rfl, rfl, rfl⟩, fun hnot => absurd ⟨last, hlast, htip⟩ hnot⟩
    · rw [if_neg htip] at heq
      rcases h.replaceSuffix hnode hcol hserves hvisible (by omega) config with ⟨-, hreason⟩ |
        ⟨hlt, -⟩ | ⟨-, s', st', newTip, newDurable, hok, hnewTip, hdurableTip, hle, hrep, -⟩
      · rw [← hlen] at hreason
        exact absurd ⟨hdurable, by omega, hwindow, hbudget⟩ hreason
      · omega
      · rw [hok] at heq
        refine ⟨s', st', _, _, heq, hrep, List.take_append_drop _ records, ?_, fun _ => ?_⟩
        · rintro ⟨last', hlast', htip'⟩
          rw [Option.mem_def, hlast] at hlast'
          cases hlast'
          exact absurd htip' htip
        · simp only [List.length_take, newDurableTip] at hdurableTip ⊢
          omega

end

section

attribute [local instance] Proto.wireDecoder zeroDigest

/-- A node that leaves the chain five blocks below the visible tip. -/
theorem syncHeadOnce_agrees_fork : ∃ (s : Store Unit) (st : IndexState),
    Reachable (Call.Honest plainHeight) s ∧
    Follows plainHeight s st ((plainRecords 100 20).take 10) ((plainRecords 100 20).drop 10)
      (plainBlocks 100 20) ∧
    ∃ s' st' durable' head',
      syncHeadOnce s (.ofBlocks (plainBlocks 15 22)) ((plainRecords 100 20).drop 10)
        (.ofParallelism 8) = (s', .ok (st', head')) ∧
      Represents plainHeight s' st' durable' ∧ durable' ++ head' = plainRecords 15 22 ∧
      durable'.length - 1 = 11 := by
  have hcur := plainBlocks_nodeChain 100 (n := 20) (by decide)
  obtain ⟨s, st, hreach, hrep, hsealed, hgen⟩ := hcur.reachable (ν := Unit) (fun _ hc _ => hc)
    (n := 10)
    (by simp)
  have hnode := plainBlocks_nodeChain 15 (n := 22) (by decide)
  have hfollows : Follows plainHeight s st ((plainRecords 100 20).take 10)
      ((plainRecords 100 20).drop 10) (plainBlocks 100 20) :=
    ⟨hrep, _, by rw [List.take_append_drop]; exact hcur⟩
  have hcol : NoCollision (plainBlocks 100 20) (plainBlocks 15 22) :=
    branchBlocks_noCollision (by decide) (by decide)
  have hcommon : commonLength (plainBlocks 100 20) (plainBlocks 15 22) = 15 :=
    branchBlocks_commonLength (by decide) (by decide)
  have hanchor : anchorHeight ((plainRecords 100 20).take 10) ((plainRecords 100 20).drop 10) =
    0 := by
    simp [anchorHeight, plainRecords, branchRecords, sealDepth]
  have hstart : pollStart ((plainRecords 100 20).take 10) ((plainRecords 100 20).drop 10) = 0 := by
    simp [pollStart, plainRecords, branchRecords, sealDepth]
  refine ⟨s, st, hreach, hfollows, ?_⟩
  obtain ⟨s', st', durable', head', hok, hrep', hrecords, hsame, htip⟩ :=
    syncHeadOnce_agrees hfollows (by simp [plainRecords, branchRecords]) hnode hcol
      (CanonicalBlockSource.ofBlocks_serves _)
      (fun r hr => (hfollows.onChain_iff hnode hcol (hanchor ▸ hr)).mpr (by omega))
      (fun through hthrough => by
        have := IndexState.sealedThrough_eq_some_iff.mp hthrough
        omega)
      (by simp [hstart, maxBlockReorgHeight])
      (plainBlocks_budget 15 _ 8 (by decide) (by omega))
  refine ⟨s', st', durable', head', hok, hrep', hrecords, ?_⟩
  rw [htip fun hunchanged => ?_, hcommon]
  · simp [newDurableTip, persistDepth]
  · obtain ⟨-, -, rfl, rfl⟩ := hsame hunchanged
    have := congrArg List.length hrecords
    simp at this

end

end Ztreamer
