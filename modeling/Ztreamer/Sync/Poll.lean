import Ztreamer.Chain.Indexing
import Ztreamer.Sync.Head

/-! # What a poll gives

    A poll of a source that serves one chain during the call. The poll finds the
    last known block on the chain, and gives every block after it. It fails only
    when the anchor is not on the chain, or when the chain is longer than the
    window of the node.
-/

namespace Ztreamer

open Octets Result

/-- The source serves `blocks` during the call. It may not tell its tip. -/
structure CanonicalBlockSource.Serves (src : CanonicalBlockSource) (blocks : List RawIndexBlock) :
    Prop where
  tip : ∃ tip, src.tip = .ok tip ∧ (tip = none ∨ tip = blocks.getLast?.map (·.blockId))
  block : ∀ height : Nat, src.block height = .ok blocks[height]?
  blockHash : ∀ height : Nat, src.blockHash height = .ok (blocks[height]?.map (·.hash))

/-- A node with the chain `blocks`. -/
def CanonicalBlockSource.ofBlocks (blocks : List RawIndexBlock) : CanonicalBlockSource where
  tip := .ok (blocks.getLast?.map (·.blockId))
  block height := .ok blocks[height]?
  blockHash height := .ok (blocks[height]?.map (·.hash))

theorem CanonicalBlockSource.ofBlocks_serves (blocks : List RawIndexBlock) :
    (ofBlocks blocks).Serves blocks :=
  ⟨⟨_, rfl, .inr rfl⟩, fun _ => rfl, fun _ => rfl⟩

/-- The chain has the block. -/
def OnChain (blocks : List RawIndexBlock) (block : BlockId) : Prop :=
  blocks[block.height]?.map (·.hash) = some block.hash

instance (blocks : List RawIndexBlock) (block : BlockId) : Decidable (OnChain blocks block) := by
  unfold OnChain; infer_instance

variable {src : CanonicalBlockSource} {blocks : List RawIndexBlock}
  {parsed : List ParsedCompactBlock} {records : List CompactBlockRecord}

namespace CanonicalBlockSource

theorem Serves.has (h : src.Serves blocks) (block : BlockId) :
    src.has block = .ok (decide (OnChain blocks block)) := by
  rw [CanonicalBlockSource.has, h.blockHash, ok_bind]
  rfl

/-- The canonical blocks are the first `count` of the known blocks. -/
theorem Serves.canonicalCount (h : src.Serves blocks) {known : List CompactBlockRecord}
    {count : Nat} (hle : count ≤ known.length)
    (hcount : ∀ (i : Nat) (r : CompactBlockRecord), known[i]? = some r →
      (OnChain blocks r.blockId ↔ i < count)) (time : Nat) :
    ∃ time', MovingSource.canonicalCount (fun _ => src) known time = .ok (count, time') := by
  cases hlast : known.getLast? with
  | none =>
    rw [List.getLast?_eq_none_iff] at hlast
    subst hlast
    obtain rfl : count = 0 := by simpa using hle
    exact ⟨time, rfl⟩
  | some last =>
    have hpos : 0 < known.length := by
      refine List.length_pos_of_ne_nil ?_
      rintro rfl
      cases hlast
    rw [List.getLast?_eq_getElem?] at hlast
    have hiff := hcount _ _ hlast
    simp only [MovingSource.canonicalCount, List.getLast?_eq_getElem?, hlast, h.has, ok_bind]
    by_cases hfull : known.length - 1 < count
    · rw [if_pos (by simpa using hiff.mpr hfull), show known.length = count by omega]
      exact ⟨time + 1, rfl⟩
    · rw [if_neg (by simpa using fun hon => hfull (hiff.mp hon))]
      refine Bisect.firstFalseAt_eq (by omega) (by omega) fun i _ hi => ?_
      have hr : known[i]? = some known[i] := List.getElem?_eq_getElem (by omega)
      simp only [hr]
      congr 1
      exact decide_eq_decide.mpr (hcount i _ hr)

/-- The blocks from `height` on, if the chain ends in the window. -/
theorem Serves.readBlocks (h : src.Serves blocks) (hchain : RawChain blocks)
    (hlen : blocks.length < 2 ^ 32) {start height : Nat} (hstart : start ≤ height)
    (hwindow : height ≤ start + maxBlockReorgHeight) (hheight : height ≤ blocks.length)
    (time : Nat) :
    (·.1) <$> MovingSource.readBlocks (fun _ => src) start height (tipHash (blocks.take height))
        time =
      if blocks.length ≤ start + maxBlockReorgHeight then .ok (blocks.drop height)
      else .error .window := by
  induction hn : blocks.length - height generalizing height time with
  | zero =>
    rw [MovingSource.readBlocks, h.block, List.getElem?_eq_none (by omega),
      if_pos (by omega), List.drop_eq_nil_of_le (by omega)]
    rfl
  | succ n ih =>
    have hb : blocks[height]? = some blocks[height] := List.getElem?_eq_getElem (by omega)
    rw [MovingSource.readBlocks, h.block, hb]
    simp only
    by_cases hlast : height - start = maxBlockReorgHeight
    · rw [if_pos hlast, if_neg (by omega)]
      rfl
    · have hnext := @ih (height + 1) (by omega) (by omega) (by omega) (time + 1) (by omega)
      rw [tipHash_take_succ hb] at hnext
      rw [if_neg hlast, hchain.parent height _ hb]
      simp only [ne_eq, not_true_eq_false, if_false]
      rw [if_pos (by omega), List.drop_eq_getElem_cons (i := height) (by omega)]
      by_cases hends : blocks.length ≤ start + maxBlockReorgHeight
      · rw [if_pos hends] at hnext ⊢
        obtain ⟨⟨rest, time'⟩, hread, rfl⟩ := map_eq_ok.mp hnext
        rw [hread]
        rfl
      · rw [if_neg hends] at hnext ⊢
        rw [map_eq_error.mp hnext]
        rfl

end CanonicalBlockSource

theorem onChain_iff {block : BlockId} :
    OnChain blocks block ↔ ∃ b, blocks[block.height]? = some b ∧ b.hash = block.hash := by
  simp [OnChain]

theorem onChain_tipHash {start : Nat} (hpos : 0 < start) (hle : start ≤ blocks.length) :
    OnChain blocks ⟨start - 1, tipHash (blocks.take start)⟩ := by
  have hb : blocks[start - 1]? = some blocks[start - 1] := List.getElem?_eq_getElem (by omega)
  have htip := tipHash_take_succ hb
  rw [Nat.sub_add_cancel hpos] at htip
  exact onChain_iff.mpr ⟨_, hb, htip.symm⟩

theorem CanonicalBlockSource.Serves.checkAnchor (h : src.Serves blocks) {start : Nat}
    (hle : start ≤ blocks.length) (time : Nat) :
    ∃ time', MovingSource.checkAnchor (fun _ => src) start (tipHash (blocks.take start)) time =
      .ok time' := by
  unfold MovingSource.checkAnchor
  split
  · rename_i hpos
    rw [h.has, ok_bind, ensure_of _ (decide_eq_true (onChain_tipHash hpos hle))]
    exact ⟨time + 1, rfl⟩
  · exact ⟨time, rfl⟩

theorem CanonicalBlockSource.Serves.checkStable (h : src.Serves blocks) {last : Option BlockId}
    (hlast : ∀ block ∈ last, OnChain blocks block) (time : Nat) :
    ∃ time', MovingSource.checkStable (fun _ => src) last time = .ok time' := by
  cases last with
  | none => exact ⟨time, rfl⟩
  | some last =>
    simp only [MovingSource.checkStable, h.has, ok_bind]
    rw [ensure_of _ (by simpa using hlast last rfl)]
    exact ⟨time + 1, rfl⟩

theorem Indexed.parse_drop (h : Indexed blocks parsed records) (n : Nat) :
    ((blocks.drop n).mapM fun block => okMapError (parseBlock block) HeadError.parse) =
      .ok (parsed.drop n) := by
  rw [mapM_eq_ok]
  refine List.Forall₂.imp (fun block p hp => ?_) (List.forall₂_drop n (mapM_eq_ok.mp h.parse))
  rw [hp]
  rfl

/-- A poll of known blocks of which the first `count` are on the chain. -/
theorem pollCanonicalHead_eq (h : src.Serves blocks) (hindexed : Indexed blocks parsed records)
    (hlen : blocks.length < 2 ^ 32) (start count : Nat) (known : List CompactBlockRecord)
    (hstart : start ≤ blocks.length)
    (hlinked : linkedPrefix start (tipHash (blocks.take start)) known = known)
    (hheights : ∀ (i : Nat) (r : CompactBlockRecord), known[i]? = some r → r.height.val = start + i)
    (hle : count ≤ known.length) (hwindow : known.length ≤ maxBlockReorgHeight)
    (hcount : ∀ (i : Nat) (r : CompactBlockRecord), known[i]? = some r →
      (OnChain blocks r.blockId ↔ i < count)) :
    pollCanonicalHead src start (tipHash (blocks.take start)) known =
      if blocks.length ≤ start + maxBlockReorgHeight then
        .ok { retained := (known.take count).getLast?.map (·.blockId)
              blocks := parsed.drop (start + count) }
      else .error .window := by
  -- the retained block is the last of the first `count` known blocks
  obtain ⟨retained, hretained, hheight, hparent, honchain, hcountle⟩ :
      ∃ retained, (known.take count).getLast?.map (·.blockId) = retained ∧
        readStart start retained = .ok (start + count) ∧
        retained.elim (tipHash (blocks.take start)) (·.hash) =
          tipHash (blocks.take (start + count)) ∧
        (∀ block ∈ retained, OnChain blocks block) ∧ start + count ≤ blocks.length := by
    cases count with
    | zero => exact ⟨none, rfl, rfl, rfl, by simp, hstart⟩
    | succ count =>
      have hr : known[count]? = some known[count] := List.getElem?_eq_getElem (by omega)
      have hon := (hcount count _ hr).mpr (by omega)
      have hrh := hheights count _ hr
      obtain ⟨b, hb, hhash⟩ := onChain_iff.mp hon
      simp only [CompactBlockRecord.blockId, hrh] at hb hhash
      have hlt := (List.getElem?_eq_some_iff.mp hb).1
      refine ⟨some known[count].blockId, ?_, ?_, ?_, ?_, by omega⟩
      · rw [getLast?_take_succ hr]
        rfl
      · simp only [readStart, CompactBlockRecord.blockId, hrh]
        rw [if_pos (by omega), Nat.add_assoc]
        rfl
      · rw [← Nat.add_assoc, tipHash_take_succ hb]
        exact hhash.symm
      · intro block hblock
        cases hblock
        exact hon
  have hstable : ∀ block ∈ ((blocks.drop (start + count)).getLast?.map (·.blockId)).or retained,
      OnChain blocks block := by
    intro block hblock
    cases hlast : (blocks.drop (start + count)).getLast? with
    | none => exact honchain block (by simpa [hlast] using hblock)
    | some last =>
      rw [hlast] at hblock
      obtain rfl : last.blockId = block := by simpa using hblock
      rw [List.getLast?_eq_getElem?, List.getElem?_drop] at hlast
      refine onChain_iff.mpr ⟨last, ?_, rfl⟩
      rw [RawIndexBlock.blockId, hindexed.chain.height _ _ hlast, hlast]
  obtain ⟨time₁, hanchor⟩ := h.checkAnchor hstart 0
  obtain ⟨time₂, hcounted⟩ := h.canonicalCount hle hcount time₁
  have hread := h.readBlocks hindexed.chain hlen (by omega : start ≤ start + count) (by omega)
    hcountle time₂
  unfold pollCanonicalHead MovingSource.pollAt MovingSource.pollCanonicalHead
  simp only [hanchor, hlinked, hcounted, ok_bind, hretained, hheight, hparent]
  by_cases hends : blocks.length ≤ start + maxBlockReorgHeight
  · rw [if_pos hends] at hread ⊢
    obtain ⟨⟨raw, time₃⟩, hraw, rfl⟩ := map_eq_ok.mp hread
    obtain ⟨time₄, hlast⟩ := h.checkStable hstable time₃
    simp only [hraw, ok_bind, hlast, hindexed.parse_drop]
    rfl
  · rw [if_neg hends] at hread ⊢
    rw [map_eq_error.mp hread]
    rfl

/-- A poll whose anchor is not on the chain. -/
theorem pollCanonicalHead_anchor (h : src.Serves blocks) {start : Nat} (hstart : 0 < start)
    {previousHash : Hash} (hanchor : ¬ OnChain blocks ⟨start - 1, previousHash⟩)
    (known : List CompactBlockRecord) :
    pollCanonicalHead src start previousHash known = .error (.anchor (start - 1)) := by
  simp only [pollCanonicalHead, MovingSource.pollAt, MovingSource.pollCanonicalHead,
    MovingSource.checkAnchor, if_pos hstart, h.has, ok_bind, hanchor, decide_false]
  rfl

end Ztreamer
