import Ztreamer.Replicator.RowBlobs

/-! # Rows and their epochs

    The filler scans the rows once and then keeps the epoch of the next row by
    itself. The epoch depends on the ranges below. A deep reorg in the middle of a
    pass replaces those ranges, and the filler goes on with the epoch of the old
    ones.

    * `ruleFlag`: the flag of the last range of a chain,
    * `rows_make_manifest`: when each write in the middle of a pass keeps the sealed
      ranges, the rows always make a manifest,
    * `stale_epoch_breaks_manifest`: a deep reorg in the middle of a pass.
-/

namespace Ztreamer

open Octets Result Connected Atomic Relation

variable {ν : Type} {Blocks : CompactBlockRecord → Prop}

/-! ## The rule on a chain -/

/-- The commitments at the end of each whole range. -/
def rangeTotals (chain : List CompactBlockRecord) : List Nat :=
  (List.range (chain.length / rangeSize)).map fun i =>
    chain[i * rangeSize + (rangeSize - 1)]?.elim 0 (·.endTreeSizes.total)

/-- The flag that the epoch rule gives to the last whole range of the chain. -/
def ruleFlag (chain : List CompactBlockRecord) : Bool :=
  (Manifest.ruleEnds 0 0 (rangeTotals chain)).getLast?.getD false

@[simp] theorem length_rangeTotals (chain : List CompactBlockRecord) :
    (rangeTotals chain).length = chain.length / rangeSize := by
  simp [rangeTotals]

variable {chain : List CompactBlockRecord} {i : Nat}

theorem getElem?_rangeTotals {r : CompactBlockRecord}
    (hr : chain[i * rangeSize + (rangeSize - 1)]? = some r) :
    (rangeTotals chain)[i]? = some r.endTreeSizes.total := by
  have hlt := (List.getElem?_eq_some_iff.mp hr).1
  have hi : i < chain.length / rangeSize := by
    simp only [rangeSize] at *
    omega
  simp [rangeTotals, List.getElem?_range hi, hr]

theorem rangeTotals_take (chain : List CompactBlockRecord) {k : Nat}
    (hk : k * rangeSize ≤ chain.length) :
    rangeTotals (chain.take (k * rangeSize)) = (rangeTotals chain).take k := by
  have hlen : (chain.take (k * rangeSize)).length / rangeSize = k := by
    rw [List.length_take_of_le hk]
    exact Nat.mul_div_cancel _ (by decide)
  have hle : k ≤ chain.length / rangeSize := (Nat.le_div_iff_mul_le (by decide)).mpr hk
  rw [rangeTotals, hlen, rangeTotals, ← List.map_take, List.take_range, Nat.min_eq_left hle]
  refine List.map_congr_left fun i hi => ?_
  have hi := List.mem_range.mp hi
  rw [List.getElem?_take_of_lt]
  simp only [rangeSize]
  omega

/-- The flags of the rule are those of the first parts of the chain. -/
theorem getElem?_ruleEnds (chain : List CompactBlockRecord)
    (hi : (i + 1) * rangeSize ≤ chain.length) :
    (Manifest.ruleEnds 0 0 (rangeTotals chain))[i]? =
      some (ruleFlag (chain.take ((i + 1) * rangeSize))) := by
  have hle : i + 1 ≤ chain.length / rangeSize := (Nat.le_div_iff_mul_le (by decide)).mpr hi
  obtain ⟨flag, hflag⟩ : ∃ flag, (Manifest.ruleEnds 0 0 (rangeTotals chain))[i]? = some flag := by
    refine ⟨_, List.getElem?_eq_getElem ?_⟩
    rw [Manifest.ruleEnds_length, length_rangeTotals]
    omega
  rw [ruleFlag, rangeTotals_take chain hi, Manifest.ruleEnds_take, getLast?_take_succ hflag, hflag]
  rfl

namespace RangeMetaFiller

/-- The epoch after a range with `total` commitments at its end, by the rule. -/
def Epoch.follow (epoch : Epoch) (total : Nat) : Epoch :=
  if Manifest.Epoch.ruleCloses (epoch.ranges + 1) (total - epoch.startCommitments) then ⟨0, total⟩
  else { epoch with ranges := epoch.ranges + 1 }

/-- A row with the flag of the rule advances the epoch by the rule. -/
theorem Epoch.advance_closesAt (epoch : Epoch) (sizes : TreeSizes) :
    epoch.advance (epoch.closesAt sizes) sizes = epoch.follow sizes.total := rfl

/-- The flag of the next range is that of the epoch after the ranges below it. -/
theorem ruleEnds_concat (epoch : Epoch) (totals : List Nat) (total : Nat) :
    Manifest.ruleEnds epoch.ranges epoch.startCommitments (totals ++ [total]) =
      Manifest.ruleEnds epoch.ranges epoch.startCommitments totals ++
        [Manifest.Epoch.ruleCloses ((totals.foldl Epoch.follow epoch).ranges + 1)
          (total - (totals.foldl Epoch.follow epoch).startCommitments)] := by
  induction totals generalizing epoch with
  | nil =>
    simp only [List.nil_append, Manifest.ruleEnds, List.foldl_nil]
    split <;> simp [*]
  | cons first rest ih =>
    have hnext := ih (epoch.follow first)
    simp only [List.cons_append, Manifest.ruleEnds, List.foldl_cons]
    by_cases hcloses : Manifest.Epoch.ruleCloses (epoch.ranges + 1)
        (first - epoch.startCommitments)
    · rw [Epoch.follow, if_pos hcloses] at hnext ⊢
      rw [if_pos hcloses, if_pos hcloses, List.cons_append]
      exact congrArg _ hnext
    · rw [Epoch.follow, if_neg hcloses] at hnext ⊢
      rw [if_neg hcloses, if_neg hcloses, List.cons_append]
      exact congrArg _ hnext

/-- The epoch before the range `k` of the chain. -/
def epochBefore (chain : List CompactBlockRecord) (k : Nat) : Epoch :=
  ((rangeTotals chain).take k).foldl Epoch.follow {}

variable {chain : List CompactBlockRecord} {k : Nat} {r : CompactBlockRecord}

variable (hr : chain[k * rangeSize + (rangeSize - 1)]? = some r)

include hr

theorem take_rangeTotals_succ :
    (rangeTotals chain).take (k + 1) = (rangeTotals chain).take k ++ [r.endTreeSizes.total] := by
  rw [List.take_add_one, getElem?_rangeTotals hr]
  rfl

/-- The flag that the filler gives with the epoch before the range. -/
theorem closesAt_epochBefore :
    (epochBefore chain k).closesAt r.endTreeSizes =
      ruleFlag (chain.take ((k + 1) * rangeSize)) := by
  have hlt := (List.getElem?_eq_some_iff.mp hr).1
  have hle : (k + 1) * rangeSize ≤ chain.length := by
    simp only [rangeSize] at *
    omega
  have hconcat := ruleEnds_concat {} ((rangeTotals chain).take k) r.endTreeSizes.total
  rw [ruleFlag, rangeTotals_take chain hle, take_rangeTotals_succ hr]
  show _ = (Manifest.ruleEnds ({} : Epoch).ranges ({} : Epoch).startCommitments _).getLast?.getD
    false
  rw [hconcat, List.getLast?_concat]
  rfl

theorem advance_epochBefore :
    (epochBefore chain k).advance (ruleFlag (chain.take ((k + 1) * rangeSize))) r.endTreeSizes =
      epochBefore chain (k + 1) := by
  rw [← closesAt_epochBefore hr, Epoch.advance_closesAt, epochBefore, epochBefore,
    take_rangeTotals_succ hr, List.foldl_append]
  rfl

end RangeMetaFiller

/-! ## Rows that fit their blocks -/

/-- A block determines the chain up to it. -/
theorem NodeBlocks.eq_of_hash
    (hdetermined : ∀ r r', Blocks r → Blocks r' → r.hash = r'.hash → r = r')
    {chain' : List CompactBlockRecord} (h : NodeBlocks Blocks chain) (h' : NodeBlocks Blocks chain')
    {hash : Hash} (hlast : chain.getLast?.map (·.hash) = some hash)
    (hlast' : chain'.getLast?.map (·.hash) = some hash) : chain = chain' := by
  obtain ⟨r, hr, hrhash⟩ := Option.map_eq_some_iff.mp hlast
  obtain ⟨r', hr', hrhash'⟩ := Option.map_eq_some_iff.mp hlast'
  obtain rfl : r = r' := hdetermined r r' (h.blocks r (List.mem_of_getLast? hr))
    (h'.blocks r' (List.mem_of_getLast? hr')) (hrhash.trans hrhash'.symm)
  rw [List.getLast?_eq_getElem?] at hr hr'
  have hheight := h.connected.height_eq hr
  have hheight' := h'.connected.height_eq hr'
  have hlt := (List.getElem?_eq_some_iff.mp hr).1
  have hlt' := (List.getElem?_eq_some_iff.mp hr').1
  exact h.eq_of_last hdetermined h' (by omega) (hlast.trans hlast'.symm)

variable {treesAt : List CompactBlockRecord → TreeState ν}

/-- The row has the frontiers of the trees and the flag of the rule, on the chain that
    ends with its last block. -/
def RangeMeta.Fits (Blocks : CompactBlockRecord → Prop)
    (treesAt : List CompactBlockRecord → TreeState ν) (info : RangeMeta ν) : Prop :=
  ∀ chain, NodeBlocks Blocks chain → chain.getLast?.map (·.hash) = some info.entry.endHash →
    info.entry.frontiers = (treesAt chain).frontiers ∧ info.entry.epochEnd = ruleFlag chain

/-- The tree states of the node come from its chain. -/
def StateBackend.OnChain (Blocks : CompactBlockRecord → Prop)
    (treesAt : List CompactBlockRecord → TreeState ν) (node : StateBackend ν) : Prop :=
  ∃ chain, NodeBlocks Blocks chain ∧ ∀ hash trees, node.treeState hash = .ok trees →
    ∃ (i : Nat) (r : CompactBlockRecord), chain[i]? = some r ∧ r.hash = hash ∧
      trees = treesAt (chain.take (i + 1))

/-- What the blocks and the trees of a node have. -/
structure TreeRules (Blocks : CompactBlockRecord → Prop)
    (treesAt : List CompactBlockRecord → TreeState ν) : Prop where
  determined : ∀ r r', Blocks r → Blocks r' → r.hash = r'.hash → r = r'
  /-- No block removes a commitment. -/
  sizes : ∀ r r', Blocks r → Blocks r' → r.Precedes r' → r'.endTreeSizes.follows r.endTreeSizes
  /-- A pool stays active. -/
  active : ∀ chain rest, NodeBlocks Blocks (chain ++ rest) →
    (treesAt (chain ++ rest)).frontiers.follows (treesAt chain).frontiers

/-- The rows of adjacent ranges from genesis make a manifest, and their flags are those of
    the epoch rule. -/
def Store.RowsMakeManifest (s : Store ν) : Prop :=
  ∀ rows : List (RangeMeta ν), rows ≠ [] →
    (∀ (i : Nat) (info : RangeMeta ν), rows[i]? = some info →
      s.rangeMeta[i * rangeSize]? = some info) →
    (∀ network genesisHash, ∃ manifest,
      Manifest.fromEntriesToGap network genesisHash (rows.map (·.entry)) = .ok manifest) ∧
    rows.map (·.entry.epochEnd) =
      Manifest.ruleEnds 0 0 (rows.map (·.entry.endTreeSizes.total))

theorem TreeSizes.follows_trans {a b c : TreeSizes} (h : b.follows a) (h' : c.follows b) :
    c.follows a :=
  ⟨Nat.le_trans h.1 h'.1, Nat.le_trans h.2.1 h'.2.1, Nat.le_trans h.2.2 h'.2.2⟩

/-- Tree sizes do not decrease along a chain. -/
theorem NodeBlocks.sizes_follow (hrules : TreeRules Blocks treesAt) (h : NodeBlocks Blocks chain)
    {j : Nat} {a b : CompactBlockRecord} (ha : chain[i]? = some a) (hb : chain[j]? = some b)
    (hij : i < j) : b.endTreeSizes.follows a.endTreeSizes := by
  induction j generalizing b with
  | zero => exact absurd hij (Nat.not_lt_zero _)
  | succ j ih =>
    have hlt := (List.getElem?_eq_some_iff.mp hb).1
    have hj : chain[j]? = some chain[j] := List.getElem?_eq_getElem (by omega)
    have hprecedes : chain[j].Precedes b := by
      have := List.isChain_iff_getElem.mp h.connected.isChain j hlt
      rw [List.getElem?_eq_getElem hlt] at hb
      rwa [Option.some.inj hb] at this
    have hstep := hrules.sizes _ _ (h.blocks _ (List.mem_of_getElem? hj))
      (h.blocks _ (List.mem_of_getElem? hb)) hprecedes
    rcases Nat.lt_succ_iff_lt_or_eq.mp hij with hlt' | rfl
    · exact TreeSizes.follows_trans (ih hj hlt') hstep
    · rw [hj] at ha
      cases ha
      exact hstep

section

variable [Proto.Prost] [Blake3]

/-- An index with the invariant of its rows, all of which fit. -/
structure FitsInvariant (Blocks : CompactBlockRecord → Prop)
    (treesAt : List CompactBlockRecord → TreeState ν) (s : Store ν) (st : IndexState)
    (chain : List CompactBlockRecord) : Prop extends RowsInvariant Blocks s st chain where
  fits : ∀ (start : Nat) (info : RangeMeta ν), s.rangeMeta[start]? = some info →
    info.entry.startHeight.val = start ∧ info.Fits Blocks treesAt

variable {s s' : Store ν} {st st' : IndexState} {chain chain' : List CompactBlockRecord}

theorem FitsInvariant.nodeBlocks (h : FitsInvariant Blocks treesAt s st chain) :
    NodeBlocks Blocks chain :=
  h.represents.connected.nodeBlocks h.blocks

variable {k : Nat} {info : RangeMeta ν} {trees : TreeState ν} {verifiedBy : NodeId}

/-- The last block of the range of a row, and what the row has of it. -/
theorem FitsInvariant.row (h : FitsInvariant Blocks treesAt s st chain)
    (hrow : s.rangeMeta[k * rangeSize]? = some info) :
    ∃ last, chain[k * rangeSize + (rangeSize - 1)]? = some last ∧
      Manifest.IsRange info.entry k ∧ info.entry.endTreeSizes = last.endTreeSizes ∧
      info.entry.frontiers = (treesAt (chain.take ((k + 1) * rangeSize))).frontiers ∧
      info.entry.epochEnd = ruleFlag (chain.take ((k + 1) * rangeSize)) := by
  obtain ⟨blob, hblob, -, -, last, hdecode, hheight, hhash, hsizes⟩ := h.rows _ _ hrow
  obtain ⟨⟨d, hnew, hstores⟩, -⟩ := h.represents.encodeRange_of_blob h.packed hblob
  obtain ⟨r, hr, hrecord⟩ := hstores (rangeSize - 1) (by decide)
  rw [RangeDecoder.decodeRangeRecord, hnew, ok_bind] at hdecode
  obtain rfl : r = last := Except.ok.inj (hrecord.symm.trans hdecode)
  obtain ⟨hstart, hfits⟩ := h.fits _ _ hrow
  have hend := h.represents.connected.height_eq hr
  have hnext : k * rangeSize + (rangeSize - 1) + 1 = (k + 1) * rangeSize := by
    simp only [rangeSize]
    omega
  have hlast := getLast?_take_succ hr
  rw [hnext] at hlast
  obtain ⟨hfrontiers, hflag⟩ := hfits _ (h.nodeBlocks.take _)
    (by rw [hlast, Option.map_some, hhash])
  exact ⟨r, hr, ⟨hstart, by rw [← hheight, hend]⟩, hsizes.symm, hfrontiers, hflag⟩

/-- Rows that fit make a manifest. -/
theorem FitsInvariant.rowsMakeManifest (hrules : TreeRules Blocks treesAt)
    (h : FitsInvariant Blocks treesAt s st chain) : s.RowsMakeManifest := by
  intro rows hne hrows
  have hlength : rows.length * rangeSize ≤ chain.length := by
    have hpos := List.length_pos_of_ne_nil hne
    obtain ⟨last, hlast, -⟩ :=
      h.row (hrows (rows.length - 1) _ (List.getElem?_eq_getElem (by omega)))
    have hlt := (List.getElem?_eq_some_iff.mp hlast).1
    simp only [rangeSize] at *
    omega
  -- the rows have the totals of the chain, and the flags that its rule gives
  have htotals : rows.map (·.entry.endTreeSizes.total) = (rangeTotals chain).take rows.length := by
    refine List.ext_getElem? fun i => ?_
    by_cases hi : i < rows.length
    · have hget := List.getElem?_eq_getElem hi
      obtain ⟨last, hlast, -, hsizes, -⟩ := h.row (hrows i _ hget)
      rw [List.getElem?_map, hget, List.getElem?_take_of_lt hi, getElem?_rangeTotals hlast,
        Option.map_some, hsizes]
    · rw [List.getElem?_eq_none (by simpa using hi), List.getElem?_eq_none]
      rw [List.length_take]
      omega
  have hflags : rows.map (·.entry.epochEnd) =
      Manifest.ruleEnds 0 0 (rows.map (·.entry.endTreeSizes.total)) := by
    rw [htotals, Manifest.ruleEnds_take]
    refine List.ext_getElem? fun i => ?_
    by_cases hi : i < rows.length
    · have hget := List.getElem?_eq_getElem hi
      obtain ⟨last, hlast, -, -, -, hflag⟩ := h.row (hrows i _ hget)
      have hle : (i + 1) * rangeSize ≤ chain.length :=
        Nat.le_trans (Nat.mul_le_mul_right _ hi) hlength
      rw [List.getElem?_map, hget, List.getElem?_take_of_lt hi, getElem?_ruleEnds chain hle,
        Option.map_some, hflag]
    · rw [List.getElem?_eq_none (by simpa using hi), List.getElem?_eq_none]
      rw [List.length_take]
      omega
  refine ⟨fun network genesisHash => ?_, hflags⟩
  apply Manifest.fromEntriesToGap_isOk
  · simpa using hne
  · intro i entry hentry
    rw [List.getElem?_map, Option.map_eq_some_iff] at hentry
    obtain ⟨info, hinfo, rfl⟩ := hentry
    obtain ⟨-, -, hrange, -⟩ := h.row (hrows i info hinfo)
    exact hrange
  · rw [List.isChain_map, List.isChain_iff_getElem]
    intro i hi
    obtain ⟨a, ha, -, hsizes, hfrontiers, -⟩ :=
      h.row (hrows i _ (List.getElem?_eq_getElem (Nat.lt_of_succ_lt hi)))
    obtain ⟨b, hb, -, hsizes', hfrontiers', -⟩ :=
      h.row (hrows (i + 1) _ (List.getElem?_eq_getElem hi))
    constructor
    · rw [hsizes, hsizes']
      exact h.nodeBlocks.sizes_follow hrules ha hb (by simp only [rangeSize]; omega)
    · rw [hfrontiers, hfrontiers']
      have hsplit := List.take_append_drop ((i + 1) * rangeSize)
        (chain.take ((i + 1 + 1) * rangeSize))
      rw [List.take_take, Nat.min_eq_left (by simp only [rangeSize]; omega)] at hsplit
      have hactive := hrules.active (chain.take ((i + 1) * rangeSize))
        ((chain.take ((i + 1 + 1) * rangeSize)).drop ((i + 1) * rangeSize))
        (by rw [hsplit]; exact h.nodeBlocks.take _)
      rwa [hsplit] at hactive
  · simpa [Function.comp_def, Manifest.total] using hflags

/-! ## What keeps the invariant -/

omit [Proto.Prost] [Blake3] in
/-- The row of a range end on the chain, with trees of a node. -/
theorem fits_of_chain (hrules : TreeRules Blocks treesAt) (hchain : NodeBlocks Blocks chain)
    {last : CompactBlockRecord} (hlast : chain[k * rangeSize + (rangeSize - 1)]? = some last)
    {node : StateBackend ν} (hnode : node.OnChain Blocks treesAt)
    (htrees : node.treeState last.hash = .ok trees) (hhash : info.entry.endHash = last.hash)
    (hfrontiers : info.entry.frontiers = trees.frontiers)
    (hflag : info.entry.epochEnd = ruleFlag (chain.take ((k + 1) * rangeSize))) :
    info.Fits Blocks treesAt := by
  intro chain₁ hchain₁ hlast₁
  have hnext : k * rangeSize + (rangeSize - 1) + 1 = (k + 1) * rangeSize := by
    simp only [rangeSize]
    omega
  constructor
  · obtain ⟨nodeChain, hnodeChain, htreesOf⟩ := hnode
    obtain ⟨i, r, hr, hrhash, rfl⟩ := htreesOf _ _ htrees
    have hsame := NodeBlocks.eq_of_hash hrules.determined (hnodeChain.take (i + 1)) hchain₁
      (by rw [getLast?_take_succ hr, Option.map_some, hrhash, ← hhash]) hlast₁
    rw [hfrontiers, hsame]
  · have hsame := NodeBlocks.eq_of_hash hrules.determined (hchain.take _) hchain₁
      (by rw [getLast?_take_succ hlast, Option.map_some, ← hhash]) hlast₁
    rw [hflag, ← hnext, hsame]

/-- The sealed ranges are kept. -/
def Store.KeepsRanges (s s' : Store ν) : Prop :=
  ∀ (start : Nat) (blob : Bytes), s.sealedRanges[start]? = some blob →
    s'.sealedRanges[start]? = some blob

/-- Kept ranges have kept blocks. -/
theorem FitsInvariant.take_of_keepsRanges (h : FitsInvariant Blocks treesAt s st chain)
    (h' : FitsInvariant Blocks treesAt s' st' chain') (hkeeps : s.KeepsRanges s') :
    st.sealedEnd ≤ st'.sealedEnd ∧ chain'.take st.sealedEnd = chain.take st.sealedEnd := by
  have hblock : ∀ i < st.sealedEnd, i < st'.sealedEnd ∧ chain'[i]? = chain[i]? := by
    intro i hi
    have hle := rangeStart_le i
    have hmod := Nat.mod_lt i (by decide : 0 < rangeSize)
    obtain ⟨blob, hblob, d, hnew, hstores⟩ :=
      h.represents.holds.sealed_range (rangeStart i) (rangeStart_mod i) (by omega)
    have hblob' := hkeeps _ _ hblob
    obtain ⟨haligned, hlt⟩ := h'.represents.holds.sealed_key _ _ hblob'
    have haligned' := h'.represents.holds.sealed_aligned
    obtain ⟨⟨d', hnew', hstores'⟩, -⟩ := h'.represents.encodeRange_of_blob h'.packed hblob'
    obtain rfl : d = d' := Except.ok.inj (hnew.symm.trans hnew')
    obtain ⟨r, hr, hrecord⟩ := hstores _ hmod
    obtain ⟨r', hr', hrecord'⟩ := hstores' _ hmod
    have hadd := rangeStart_add_mod i
    rw [hadd] at hr hr'
    refine ⟨?_, by rw [hr, hr', Except.ok.inj (hrecord.symm.trans hrecord')]⟩
    simp only [rangeSize] at *
    omega
  constructor
  · by_contra hlt
    exact absurd (hblock st'.sealedEnd (by omega)).1 (Nat.lt_irrefl _)
  · refine List.ext_getElem? fun i => ?_
    by_cases hi : i < st.sealedEnd
    · rw [List.getElem?_take_of_lt hi, List.getElem?_take_of_lt hi, (hblock i hi).2]
    · rw [List.getElem?_eq_none, List.getElem?_eq_none] <;>
        (rw [List.length_take]; omega)

namespace RangeMetaFiller

/-- Calls with blocks of the node, whose installed rows fit, and a node whose tree states
    come from its chain. -/
def honestRules (Blocks : CompactBlockRecord → Prop)
    (treesAt : List CompactBlockRecord → TreeState ν) : Rules ν where
  calls c := c.OfBlocks Blocks ∧ ∀ blob info, c.Installs blob info → info.Fits Blocks treesAt
  node := StateBackend.OnChain Blocks treesAt

/-- The honest rules, and a write in the middle of a pass keeps the sealed ranges. -/
def settledRules (Blocks : CompactBlockRecord → Prop)
    (treesAt : List CompactBlockRecord → TreeState ν) : Rules ν :=
  { honestRules Blocks treesAt with
    writes := fun x index => x.pass.isSome → x.world.index.KeepsRanges index }

end RangeMetaFiller

open RangeMetaFiller

theorem FitsInvariant.run (h : FitsInvariant Blocks treesAt s st chain) {c : Call ν}
    (hc : (honestRules Blocks treesAt).calls c) (hrun : c.run s = .ok s') :
    ∃ st' chain', FitsInvariant Blocks treesAt s' st' chain' := by
  obtain ⟨st', chain', hinv, heffect⟩ := h.toRowsInvariant.run hc.1 hrun
  refine ⟨st', chain', hinv, fun start info hrow => ?_⟩
  rcases heffect.rows start info hrow with hkeeps | rfl | ⟨blob, hinstalls, hstart, -, -⟩
  · exact h.fits start info hkeeps.row
  · exact absurd rfl (hc.1.noRow start info)
  · exact ⟨hstart, hc.2 blob info hinstalls⟩

theorem Reachable.fitsInvariant (h : Reachable (honestRules Blocks treesAt).calls s) :
    ∃ st chain, FitsInvariant Blocks treesAt s st chain := by
  induction h with
  | empty => exact ⟨_, _, rowsInvariant_empty, fun start info hrow => by simp [Store.empty] at hrow⟩
  | commit c _ hc hrun ih =>
    obtain ⟨st, chain, hinv⟩ := ih
    exact hinv.run hc hrun
  | fail c _ _ ih => exact ih

/-- The index holds the blocks `base` in sealed ranges, and the node is on its chain. -/
def HoldsBase (Blocks : CompactBlockRecord → Prop)
    (treesAt : List CompactBlockRecord → TreeState ν) (base : List CompactBlockRecord)
    (w : World ν) : Prop :=
  w.node.OnChain Blocks treesAt ∧ ∃ st chain, FitsInvariant Blocks treesAt w.index st chain ∧
    base.length ≤ st.sealedEnd ∧ chain.take base.length = base

/-- The invariant of a run. -/
def WorldFits (Blocks : CompactBlockRecord → Prop)
    (treesAt : List CompactBlockRecord → TreeState ν) (w : World ν) : Prop :=
  w.node.OnChain Blocks treesAt ∧ ∃ st chain, FitsInvariant Blocks treesAt w.index st chain

/-- The others keep the invariant and the sealed ranges. -/
def Settled (Blocks : CompactBlockRecord → Prop)
    (treesAt : List CompactBlockRecord → TreeState ν) (w w' : World ν) : Prop :=
  WorldFits Blocks treesAt w' ∧ w.index.KeepsRanges w'.index

variable {w w' : World ν} {base : List CompactBlockRecord}

theorem settled_interference :
    Prog.Interference (Settled Blocks treesAt) fun _ w' => WorldFits Blocks treesAt w' :=
  ⟨fun h h' => ⟨h'.1, fun start blob hblob => h'.2 start blob (h.2 start blob hblob)⟩,
    fun h => h.1⟩

section

variable (h : HoldsBase Blocks treesAt base w)

include h

theorem HoldsBase.worldFits : WorldFits Blocks treesAt w := by
  obtain ⟨hnode, st, chain, hinv, -⟩ := h
  exact ⟨hnode, st, chain, hinv⟩

theorem HoldsBase.settled (hw : Settled Blocks treesAt w w') :
    HoldsBase Blocks treesAt base w' := by
  obtain ⟨-, st, chain, hinv, hle, hbase⟩ := h
  obtain ⟨⟨hnode, st', chain', hinv'⟩, hkeeps⟩ := hw
  obtain ⟨hsealed, htake⟩ := hinv.take_of_keepsRanges hinv' hkeeps
  refine ⟨hnode, st', chain', hinv', by omega, ?_⟩
  have hbase' := congrArg (List.take base.length) htake
  rwa [List.take_take, List.take_take, Nat.min_eq_left hle, hbase] at hbase'

/-- A row that the filler writes with the epoch of the base keeps the invariant. -/
theorem HoldsBase.put (hrules : TreeRules Blocks treesAt) (hk : (k + 1) * rangeSize ≤ base.length)
    {read : RangeRead} (hread : ReadFrom (Settled Blocks treesAt) w (k * rangeSize) read)
    (htrees : ∃ w₂, Settled Blocks treesAt w w₂ ∧ w₂.node.treeState read.last.hash = .ok trees)
    {roots : List (SubtreeRoot ν)} {now : U64} {index : Store ν} (hw : Settled Blocks treesAt w w')
    (hput : w'.index.putRangeMeta (k * rangeSize)
      (rowOf verifiedBy read trees roots (epochBefore base k) now) = .ok index) :
    base[k * rangeSize + (rangeSize - 1)]? = some read.last ∧
      HoldsBase Blocks treesAt base { w' with index } := by
  obtain ⟨w₁, blob, hw₁, hblob, hstart, hdigest, hlen⟩ := hread
  obtain ⟨-, st₁, chain₁, hinv₁, hle₁, hbase₁⟩ := h.settled hw₁
  obtain ⟨hnode', st', chain', hinv', hle', hbase'⟩ := h.settled hw
  obtain ⟨w₂, hw₂, htrees⟩ := htrees
  -- the range that was read is in the base
  have hpos : k * rangeSize + (rangeSize - 1) < base.length := by
    simp only [rangeSize] at *
    omega
  obtain ⟨-, -, hlast₁⟩ := hinv₁.read hblob
  have hlast : base[k * rangeSize + (rangeSize - 1)]? = some read.last := by
    rw [← hbase₁, List.getElem?_take_of_lt hpos, hlast₁]
  have hnodeBlocks : NodeBlocks Blocks base := by
    rw [← hbase₁]
    exact hinv₁.nodeBlocks.take _
  have hrow := hinv'.toRowsInvariant.put hrules.determined hinv₁.toRowsInvariant hblob hlen hdigest
    rfl rfl rfl hput
  have hstartHeight : (rowOf verifiedBy read trees roots (epochBefore base k)
      now).entry.startHeight.val = k * rangeSize := by
    have hheight := hnodeBlocks.connected.height_eq hlast
    have hlt := read.last.height.isLt
    show read.start % 2 ^ 32 = _
    rw [hstart]
    exact Nat.mod_eq_of_lt (by omega)
  have hfits : (rowOf verifiedBy read trees roots (epochBefore base k) now).Fits Blocks treesAt :=
    fits_of_chain hrules hnodeBlocks hlast hw₂.1.1 htrees rfl rfl (closesAt_epochBefore hlast)
  refine ⟨hlast, hnode', st', chain', ⟨hrow, ?_⟩, hle', hbase'⟩
  intro start info hinfo
  obtain rfl := Store.putRangeMeta_eq hput
  rw [Table.get_put] at hinfo
  split at hinfo
  next heq =>
    cases heq
    cases hinfo
    exact ⟨hstartHeight, hfits⟩
  next => exact hinv'.fits start info hinfo

end

/-- The slots from the range `k` on, as they were when the index held the base. -/
def SlotsOf (base : List CompactBlockRecord) : Nat → List Slot → Prop
  | _, [] => True
  | k, slot :: slots => slot.start = k * rangeSize ∧ (k + 1) * rangeSize ≤ base.length ∧
      (∀ row ∈ slot.row, row.1 = ruleFlag (base.take ((k + 1) * rangeSize)) ∧
        ∀ last, base[k * rangeSize + (rangeSize - 1)]? = some last → row.2 = last.endTreeSizes) ∧
      SlotsOf base (k + 1) slots

/-- The filler keeps the invariant, slot by slot. -/
theorem wp_fillSlots_of_base (hrules : TreeRules Blocks treesAt) {slots : List Slot}
    (hslots : SlotsOf base k slots) (h : HoldsBase Blocks treesAt base w) :
    (fillSlots verifiedBy slots (epochBefore base k)).wp (Settled Blocks treesAt)
      (fun _ w' => WorldFits Blocks treesAt w') (fun _ _ => True) w := by
  induction slots generalizing k w with
  | nil => trivial
  | cons slot slots ih =>
    obtain ⟨hstart, hk, hrow, hrest⟩ := hslots
    have hpos : k * rangeSize + (rangeSize - 1) < base.length := by
      simp only [rangeSize] at *
      omega
    unfold fillSlots
    split
    next epochEnd sizes hsome =>
      obtain ⟨hflag, hsizes⟩ := hrow _ hsome
      have hlast := List.getElem?_eq_getElem hpos
      have hadvance := advance_epochBefore hlast
      rw [← hflag, ← hsizes _ hlast] at hadvance
      rw [hadvance]
      exact ih hrest h
    next =>
      apply Prog.wp_bind
      apply wp_fill settled_interference
      intro read trees roots now w₁ hread htrees hw₁
      rw [hstart] at hread ⊢
      refine wp_put settled_interference fun w₂ index hw₂ hput => ?_
      obtain ⟨hlast, hbase⟩ :=
        h.put hrules hk hread htrees (settled_interference.trans hw₁ hw₂) hput
      refine ⟨hbase.worldFits, ?_⟩
      have hadvance := advance_epochBefore hlast
      rw [← closesAt_epochBefore hlast] at hadvance
      show Prog.wp _ _ _ (fillSlots verifiedBy slots ((epochBefore base k).advance
        ((epochBefore base k).closesAt read.last.endTreeSizes) read.last.endTreeSizes)) _
      rw [hadvance]
      exact ih hrest hbase

theorem slotsOf_scan (hinv : FitsInvariant Blocks treesAt s st chain)
    (hbase : chain.take base.length = base) {m : Nat} (hlen : (k + m) * rangeSize ≤ base.length) :
    SlotsOf base k ((List.range' k m).map fun i => Slot.of s (i * rangeSize)) := by
  induction m generalizing k with
  | zero => trivial
  | succ m ih =>
    have hle : k + 1 ≤ k + (m + 1) := by omega
    have hk : (k + 1) * rangeSize ≤ base.length :=
      Nat.le_trans (Nat.mul_le_mul_right rangeSize hle) hlen
    rw [← Nat.add_assoc, Nat.add_right_comm] at hlen
    have hrest := ih hlen
    refine ⟨rfl, hk, fun row hrow => ?_, hrest⟩
    obtain ⟨info, hinfo, rfl⟩ := Option.map_eq_some_iff.mp hrow
    obtain ⟨last, hlast, -, hsizes, -, hflag⟩ := hinv.row hinfo
    constructor
    · rw [← hbase, List.take_take, Nat.min_eq_left hk]
      exact hflag
    · intro last' hlast'
      have hlt := (List.getElem?_eq_some_iff.mp hlast').1
      rw [← hbase, List.getElem?_take_of_lt hlt, hlast] at hlast'
      cases hlast'
      exact hsizes

omit [Proto.Prost] [Blake3] in
theorem sealedStarts_eq {through : Nat} :
    sealedStarts through = (List.range' 0 (through / rangeSize + 1)).map (· * rangeSize) := by
  rw [sealedStarts, List.range_eq_range']

/-- A pass keeps the invariant while the others keep the sealed ranges. -/
theorem wp_pass_settled (hrules : TreeRules Blocks treesAt) (verifiedBy : NodeId)
    (covered : Option (Option Nat)) (w : World ν) :
    (pass verifiedBy covered).wp (Settled Blocks treesAt)
      (fun _ w' => WorldFits Blocks treesAt w') (fun _ _ => True) w := by
  unfold RangeMetaFiller.pass
  refine Prog.wp_bind _ (Prog.wp_read settled_interference fun w₁ hw₁ st hstate => ?_)
  have hstate := okMapError_eq_ok.mp hstate
  obtain ⟨hnode, st₁, chain, hinv⟩ := hw₁.1
  obtain rfl : st₁ = st := Except.ok.inj (hinv.represents.state.symm.trans hstate)
  split
  · trivial
  · refine Prog.wp_bind _ (Prog.wp_bind _ (Prog.wp_read settled_interference ?_))
    intro w₂ hw₂ slots hscan
    have hscan := okMapError_eq_ok.mp hscan
    -- the base is what was sealed when the state was read
    have hsealed := hinv.represents.holds.sealed_le
    have hlength : (chain.take st₁.sealedEnd).length = st₁.sealedEnd :=
      List.length_take_of_le hsealed
    have hbase₁ : HoldsBase Blocks treesAt (chain.take st₁.sealedEnd) w₁ :=
      ⟨hnode, st₁, chain, hinv, by rw [hlength], by rw [hlength]⟩
    have hbase₂ := hbase₁.settled hw₂
    have hslots : SlotsOf (chain.take st₁.sealedEnd) 0 slots := by
      cases hthrough : st₁.sealedThrough with
      | none =>
        rw [hthrough] at hscan
        cases hscan
        trivial
      | some through =>
        rw [hthrough] at hscan
        simp only [Slot.scan, bind_eq_ok, pure_eq_ok, Except.ok.injEq] at hscan
        obtain ⟨_, -, rfl⟩ := hscan
        have hend := IndexState.sealedThrough_eq_some_iff.mp hthrough
        have haligned := hinv.represents.holds.sealed_aligned
        obtain ⟨-, st₂, chain₂, hinv₂, -, htake⟩ := hbase₂
        rw [sealedStarts_eq, List.map_map]
        refine slotsOf_scan hinv₂ htake ?_
        rw [hlength]
        simp only [rangeSize] at *
        omega
    exact Prog.wp_mono (wp_fillSlots_of_base hrules hslots hbase₂) fun _ _ _ => trivial

theorem worldFits_invariant (hrules : TreeRules Blocks treesAt) (verifiedBy : NodeId) :
    FillSystem.Invariant verifiedBy (settledRules Blocks treesAt) (WorldFits Blocks treesAt)
      fun w w' => w.index.KeepsRanges w'.index where
  refl _ _ _ h := h
  trans _ _ _ h h' start blob hblob := h' start blob (h start blob hblob)
  write x c index h hc hrun hwrites := by
    obtain ⟨hnode, st, chain, hinv⟩ := h
    exact ⟨⟨hnode, hinv.run hc hrun⟩, hwrites⟩
  outside w node now h hnode := ⟨⟨hnode, h.2⟩, fun _ _ hblob => hblob⟩
  pass w covered _ := wp_pass_settled hrules verifiedBy covered w

/-- The rows of adjacent ranges from genesis make a manifest with the flags of the rule, in
    every state of every run in which each write in the middle of a pass keeps the sealed
    ranges and each installed row fits its blocks. -/
theorem rows_make_manifest (hrules : TreeRules Blocks treesAt) (verifiedBy : NodeId)
    (x : FillSystem ν) (hreach : x.Reached verifiedBy (settledRules Blocks treesAt)) :
    x.world.index.RowsMakeManifest := by
  obtain ⟨-, st, chain, hinv⟩ := (worldFits_invariant hrules verifiedBy).reached
    (fun _ hcalls hnode => ⟨hnode, hcalls.fitsInvariant⟩) hreach
  exact hinv.rowsMakeManifest hrules

end

/-! ## A node on a chain -/

open RangeMetaFiller

/-- A node that answers for the blocks of `chain`. -/
def nodeOn (treesAt : List CompactBlockRecord → TreeState ν) (chain : List CompactBlockRecord) :
    StateBackend ν where
  treeState hash := match chain.findIdx? (·.hash = hash) with
    | some i => .ok (treesAt (chain.take (i + 1)))
    | none => .error (.rejected "block not found")
  subtrees _ _ _ := .ok []

theorem nodeOn_onChain (h : NodeBlocks Blocks chain) :
    (nodeOn treesAt chain).OnChain Blocks treesAt := by
  refine ⟨chain, h, fun hash trees htrees => ?_⟩
  simp only [nodeOn] at htrees
  split at htrees
  next i hi =>
    obtain ⟨hlt, hhash, -⟩ := List.findIdx?_eq_some_iff_getElem.mp hi
    exact ⟨i, chain[i], List.getElem?_eq_getElem hlt, of_decide_eq_true hhash,
      (Except.ok.inj htrees).symm⟩
  next => cases htrees

/-- There is a node on the chain that answers for all of its blocks. -/
theorem NodeBlocks.exists_node (h : NodeBlocks Blocks chain)
    (treesAt : List CompactBlockRecord → TreeState ν) :
    ∃ node : StateBackend ν, node.OnChain Blocks treesAt ∧
      (∀ r ∈ chain, ∃ trees, node.treeState r.hash = .ok trees) ∧
      ∀ pool first limit, ∃ subtrees, node.subtrees pool first limit = .ok subtrees := by
  refine ⟨nodeOn treesAt chain, nodeOn_onChain h, fun r hr => ?_, fun _ _ _ => ⟨_, rfl⟩⟩
  have hsome : (chain.findIdx? (·.hash = r.hash)).isSome := by
    rw [List.findIdx?_isSome, List.any_eq_true]
    exact ⟨r, hr, decide_eq_true rfl⟩
  obtain ⟨i, hi⟩ := Option.isSome_iff_exists.mp hsome
  refine ⟨treesAt (chain.take (i + 1)), ?_⟩
  simp only [nodeOn, hi]

/-- A tree state that counts the commitments. -/
def countedTrees (chain : List CompactBlockRecord) : TreeState Unit :=
  ⟨some ⟨leBytes 8 (endSizes default chain).total, ()⟩, none, none⟩

theorem countedTrees_active (chain chain' : List CompactBlockRecord) :
    (countedTrees chain).frontiers.follows (countedTrees chain').frontiers := by
  refine ⟨.inr ?_, .inl rfl, .inl rfl⟩
  show leBytes 8 _ ≠ []
  exact List.ne_nil_of_length_pos (by rw [leBytes_length]; decide)

theorem Call.OfBlocks.honest [Proto.Prost] [Blake3] {c : Call ν} (h : c.OfBlocks Blocks)
    (hnone : ∀ blob info, ¬ c.Installs blob info) : (honestRules Blocks treesAt).calls c :=
  ⟨h, fun blob info hinstalls => absurd hinstalls (hnone blob info)⟩

section

attribute [local instance] Proto.wireDecoder zeroDigest

theorem plainRecords_treeRules : TreeRules (· ∈ plainRecords 5000 2000) countedTrees where
  determined := plainRecords_determined (by decide)
  sizes r r' hr hr' _ := by
    obtain ⟨i, -, rfl⟩ := List.mem_map.mp hr
    obtain ⟨j, -, rfl⟩ := List.mem_map.mp hr'
    exact (by decide : (default : TreeSizes).follows default)
  active chain rest _ := countedTrees_active _ _

/-- The rows of two ranges make a manifest. -/
theorem two_rows_make_manifest : ∃ (x : FillSystem Unit) (info info' : RangeMeta Unit),
    x.Reached exampleNode (settledRules (· ∈ plainRecords 5000 2000) countedTrees) ∧
      x.world.index.rangeMeta[0]? = some info ∧ x.world.index.rangeMeta[1000]? = some info' ∧
      ∃ manifest, Manifest.fromEntriesToGap "main" genesisPreviousBlockHash
        [info.entry, info'.entry] = .ok manifest := by
  have hchain := plainBlocks_nodeChain 5000 (n := 2000) (by decide)
  have hblocks : NodeBlocks (· ∈ plainRecords 5000 2000) (plainRecords 5000 2000) :=
    hchain.connected.nodeBlocks fun _ hr => hr
  obtain ⟨node, hnode, htrees, hsubtrees⟩ := hblocks.exists_node countedTrees
  obtain ⟨_, _, info, info', -, -, -, -, hreach, hrow, hrow', -⟩ := exists_filled
    (settledRules (· ∈ plainRecords 5000 2000) countedTrees) node hnode
    (fun batch hhonest hmem => (Call.OfBlocks.write hhonest hmem).honest fun _ _ => id)
    htrees hsubtrees
  refine ⟨_, info, info', hreach, hrow, hrow', ?_⟩
  obtain ⟨hmanifest, -⟩ := rows_make_manifest plainRecords_treeRules exampleNode _ hreach
    [info, info'] (by simp) (fun i row hi => by
      obtain ⟨hlt, rfl⟩ := List.getElem?_eq_some_iff.mp hi
      rcases Nat.le_one_iff_eq_zero_or_eq_one.mp (Nat.le_of_lt_succ hlt) with rfl | rfl
      · exact hrow
      · exact hrow')
  exact hmanifest _ _

/-! ## A stale epoch -/

/-- A transaction with 1002 Sapling outputs. -/
def busyTransaction : CompactTransaction where
  index := 0
  txid := default
  saplingSpends := []
  saplingOutputs := List.replicate 1002 ⟨default, default, default⟩
  orchardActions := []
  ironwoodActions := []

/-- A branch from block 1 on, whose blocks of range 0 add more than a million
    commitments. -/
def busyRecord (height : Nat) : CompactBlockRecord :=
  { plainRecord 1 height with
    transactions := if 0 < height ∧ height < 1000 then [busyTransaction] else []
    endTreeSizes := ⟨Fin.ofNat _ (min height 999 * 1002), 0, 0⟩ }

def busyRecords : List CompactBlockRecord := (List.range 3000).map busyRecord

/-- The blocks of the plain chain and of the branch. -/
def busyBlocks (r : CompactBlockRecord) : Prop := r ∈ plainRecords 5000 2000 ∨ r ∈ busyRecords

theorem busyRecords_connected : Connected plainHeight busyRecords := by
  have hplain := (plainBlocks_nodeChain 1 (n := 3000) (by decide)).connected
  refine ⟨?_, ?_, ?_⟩
  · have hchain := hplain.isChain
    rw [plainRecords, branchRecords, List.isChain_map] at hchain
    rw [busyRecords, List.isChain_map]
    exact hchain
  · intro r hr
    rw [busyRecords, List.head?_map] at hr
    obtain ⟨height, hheight, rfl⟩ := Option.map_eq_some_iff.mp hr
    exact hplain.genesis (plainRecord 1 height)
      (by rw [plainRecords, branchRecords, List.head?_map, hheight]; rfl)
  · intro r hr
    obtain ⟨height, hheight, rfl⟩ := List.mem_map.mp hr
    exact hplain.heightOf_hash (plainRecord 1 height) (List.mem_map.mpr ⟨height, hheight, rfl⟩)

theorem busyRecords_encodedAs : ∃ blocks, EncodedAs busyRecords blocks := by
  refine exists_encodedAs fun r hr => ?_
  obtain ⟨height, -, rfl⟩ := List.mem_map.mp hr
  have hpayload : ∀ tx ∈ (busyRecord height).transactions, tx.hasPayload := by
    intro tx htx
    simp only [busyRecord] at htx
    split at htx
    · rw [List.mem_singleton.mp htx]
      decide
    · cases htx
  have hbound : ∃ n, encodedSizeBound (busyRecord height).transactions = .ok n := by
    have hsize : transactionSizeBound busyTransaction = 128320 := by
      simp only [transactionSizeBound, busyTransaction, List.length_replicate, List.length_nil]
    simp only [busyRecord]
    split
    · exact ⟨128512, by simp [encodedSizeBound, hsize, maxRecordBytes]⟩
    · exact ⟨192, by simp [encodedSizeBound, maxRecordBytes]⟩
  obtain ⟨n, hbound⟩ := hbound
  exact ⟨_, CompactBlockRecord.encode_of_sizeBound hpayload hbound⟩

theorem busyRecord_zero : busyRecord 0 = plainRecord 5000 0 := rfl

theorem busyRecord_sizes (height : Nat) :
    (busyRecord height).endTreeSizes.sapling.val = min height 999 * 1002 :=
  Nat.mod_eq_of_lt (by omega)

/-- The branch has only block 0 in common with the plain chain. -/
theorem busyRecord_hash {j : Nat} (hi : i < 2000) (hj : j < 3000)
    (hhash : (plainRecord 5000 i).hash = (busyRecord j).hash) : i = 0 ∧ j = 0 := by
  have hhash : plainHash 5000 i = plainHash 1 j := hhash
  have hheight := congrArg plainHeight hhash
  rw [plainHeight_plainHash (by omega), plainHeight_plainHash (by omega)] at hheight
  subst hheight
  have hfork := (plainHash_eq_iff (by omega)).mp hhash
  omega

theorem busyBlocks_treeRules : TreeRules busyBlocks countedTrees where
  determined r r' hr hr' hhash := by
    have hmixed : ∀ r r', r ∈ plainRecords 5000 2000 → r' ∈ busyRecords → r.hash = r'.hash →
        r = r' := by
      intro r r' hr hr' hhash
      obtain ⟨i, hi, rfl⟩ := List.mem_map.mp hr
      obtain ⟨j, hj, rfl⟩ := List.mem_map.mp hr'
      obtain ⟨rfl, rfl⟩ := busyRecord_hash (List.mem_range.mp hi) (List.mem_range.mp hj) hhash
      exact busyRecord_zero.symm
    rcases hr with hr | hr <;> rcases hr' with hr' | hr'
    · exact plainRecords_determined (by decide) r r' hr hr' hhash
    · exact hmixed r r' hr hr' hhash
    · exact (hmixed r' r hr' hr hhash.symm).symm
    · obtain ⟨i, hi, rfl⟩ := List.mem_map.mp hr
      obtain ⟨j, hj, rfl⟩ := List.mem_map.mp hr'
      have hheight : plainHeight (plainHash 1 i) = plainHeight (plainHash 1 j) :=
        congrArg plainHeight hhash
      rw [List.mem_range] at hi hj
      rw [plainHeight_plainHash (by omega), plainHeight_plainHash (by omega)] at hheight
      rw [hheight]
  sizes r r' hr hr' hprecedes := by
    obtain ⟨hheight, hlink⟩ := hprecedes
    rcases hr' with hr' | hr' <;> obtain ⟨j, hj, rfl⟩ := List.mem_map.mp hr' <;>
      rcases hr with hr | hr <;> obtain ⟨i, hi, rfl⟩ := List.mem_map.mp hr <;>
      rw [List.mem_range] at hi hj
    · exact (by decide : (default : TreeSizes).follows default)
    · -- a block of the plain chain above a block of the branch
      have hnext : i + 1 = j := by
        have : i % 2 ^ 32 + 1 = j % 2 ^ 32 := hheight
        omega
      subst hnext
      obtain ⟨-, rfl⟩ := busyRecord_hash (by omega) hi hlink
      exact (by decide : (default : TreeSizes).follows default)
    · exact ⟨Nat.zero_le _, Nat.zero_le _, Nat.zero_le _⟩
    · have hnext : i % 2 ^ 32 + 1 = j % 2 ^ 32 := hheight
      refine ⟨?_, Nat.le_refl _, Nat.le_refl _⟩
      show (busyRecord i).endTreeSizes.sapling.val ≤ (busyRecord j).endTreeSizes.sapling.val
      rw [busyRecord_sizes, busyRecord_sizes]
      omega
  active chain rest _ := countedTrees_active _ _

theorem busyRecords_getElem? (hi : i < 3000) : busyRecords[i]? = some (busyRecord i) := by
  rw [busyRecords, List.getElem?_map, List.getElem?_range hi]
  rfl

theorem busyBlocks_nodeBlocks : NodeBlocks busyBlocks busyRecords :=
  busyRecords_connected.nodeBlocks fun _ hr => .inr hr

/-- The filler is in the middle of a pass over the plain chain, and has filled range 0. -/
theorem filled_first_slot : ∃ (w : World Unit) (st : IndexState),
    (⟨w, none, some (fillSlots exampleNode [⟨1000, none⟩] ⟨1, 0⟩ >>= fun _ => pure (some 1999))⟩ :
      FillSystem Unit).Reached exampleNode (honestRules busyBlocks countedTrees) ∧
      Represents plainHeight w.index st (plainRecords 5000 2000) ∧ st.generation = 2000 := by
  have hchain := plainBlocks_nodeChain 5000 (n := 2000) (by decide)
  have hblocks : NodeBlocks busyBlocks (plainRecords 5000 2000) :=
    hchain.connected.nodeBlocks fun _ hr => .inl hr
  have hcalls : ∀ batch : WriteBatch, (Call.write batch : Call Unit).Honest plainHeight →
      (∀ r ∈ batch.records, r ∈ plainRecords 5000 2000) →
      (honestRules busyBlocks countedTrees).calls (.write batch) := by
    intro batch hhonest hmem
    exact (Call.OfBlocks.write hhonest fun r hr => .inl (hmem r hr)).honest fun _ _ => id
  obtain ⟨s, st, hreach, hrep, hsealed, hgen, hrows⟩ :=
    reachable_plain 5000 (by decide) (some 1999) hcalls
  have hend : st.sealedEnd = 2000 := hsealed.trans (by decide)
  have hthrough : st.sealedThrough = some 1999 := IndexState.sealedThrough_eq_some_iff.mpr hend
  have hlast : (plainRecords 5000 2000)[0 + (rangeSize - 1)]? = some (plainRecord 5000 999) :=
    branchRecords_getElem? (by decide)
  obtain ⟨node, hnode, htrees, hsubtrees⟩ := hblocks.exists_node countedTrees
  obtain ⟨trees, htrees⟩ := htrees _ (List.mem_of_getElem? hlast)
  let w : World Unit := ⟨s, node, 0⟩
  obtain ⟨info, index, hrun, hput, -, -, hsizes, hflag⟩ := run_fill exampleNode (w := w) hrep
    (HeightOf.functional_ofFun _) (Nat.zero_mod _) (by omega) hlast htrees
    hsubtrees {}
  have hslots : (sealedStarts 1999).map (Slot.of s) = [⟨0, none⟩, ⟨1000, none⟩] := by
    show [Slot.of s 0, Slot.of s 1000] = _
    rw [Slot.of, Slot.of, hrows, hrows]
    rfl
  have hcovered : (none : Option (Option Nat)) ≠ some st.sealedThrough := by simp
  have hruns : ReflTransGen (Prog.Runs fun _ _ => False) (pass exampleNode none, w) _ :=
    runs_pass hrep.state hcovered hthrough
  rw [show w.index = s from rfl, hslots] at hruns
  have hruns := hruns.trans (runs_fillSlots_cons hrun _)
  rw [hsizes, hflag] at hruns
  have hx : (⟨w, none, none⟩ : FillSystem Unit).Reached exampleNode
      (honestRules busyBlocks countedTrees) := ⟨⟨w, none, none⟩, ⟨hreach, hnode, rfl, rfl⟩, .refl⟩
  exact ⟨_, st, (hx.step (.start rfl)).runs (fun _ _ h => h.elim) hruns,
    (hrep.putRangeMeta hput).1, hgen⟩

/-- What the filler needs of the branch. -/
structure OnBranch (w : World Unit) (st : IndexState) : Prop where
  represents : Represents plainHeight w.index st busyRecords
  sealedEnd : st.sealedEnd = 3000
  trees : ∀ r ∈ busyRecords, ∃ trees, w.node.treeState r.hash = .ok trees
  subtrees : ∀ pool first limit, ∃ subtrees, w.node.subtrees pool first limit = .ok subtrees

/-- The row of the range `k` of the branch. -/
structure BusyRow (info : RangeMeta Unit) (k : Nat) : Prop where
  isRange : Manifest.IsRange info.entry k
  total : info.entry.endTreeSizes.total = 1000998

/-- The filler fills a range of the branch. -/
theorem OnBranch.fill {w : World Unit} {st : IndexState} (h : OnBranch w st) {k start : Nat}
    (hk : k < 3) (hstart : start = k * rangeSize) (epoch : Epoch) :
    ∃ (info : RangeMeta Unit) (index : Store Unit),
      (fill exampleNode start epoch).run w = (.ok info, { w with index }) ∧
      OnBranch { w with index } st ∧
      index.rangeMeta = w.index.rangeMeta.insert start info ∧ BusyRow info k ∧
      info.entry.epochEnd =
        Manifest.Epoch.ruleCloses (epoch.ranges + 1) (1000998 - epoch.startCommitments) := by
  subst hstart
  have hpos : k * rangeSize + (rangeSize - 1) < 3000 := by
    simp only [rangeSize]
    omega
  have hlast := busyRecords_getElem? hpos
  have htotal : (busyRecord (k * rangeSize + (rangeSize - 1))).endTreeSizes.total = 1000998 := by
    show (busyRecord _).endTreeSizes.sapling.val + 0 + 0 = _
    rw [busyRecord_sizes]
    simp only [rangeSize]
    omega
  obtain ⟨trees, htrees⟩ := h.trees _ (List.mem_of_getElem? hlast)
  obtain ⟨info, index, hrun, hput, hstart, hend, hsizes, hflag⟩ := run_fill exampleNode
    h.represents (HeightOf.functional_ofFun _) (Nat.mul_mod_left k rangeSize)
    (by rw [h.sealedEnd]; omega) hlast htrees h.subtrees epoch
  refine ⟨info, index, hrun, ⟨(h.represents.putRangeMeta hput).1, h.sealedEnd, h.trees, h.subtrees⟩,
    ?_, ⟨⟨hstart, ?_⟩, by rw [hsizes, htotal]⟩, ?_⟩
  · rw [Store.putRangeMeta_eq hput]
  · rw [hend]
    exact h.represents.connected.height_eq hlast
  · rw [hflag, Epoch.closesAt, htotal]

/-- A deep reorg replaces the plain chain, and the filler goes on with its pass. -/
theorem stale_row : ∃ (w : World Unit) (st : IndexState) (info : RangeMeta Unit),
    (⟨w, some (some 1999), none⟩ : FillSystem Unit).Reached exampleNode
      (honestRules busyBlocks countedTrees) ∧ OnBranch w st ∧ BusyRow info 1 ∧
      info.entry.epochEnd = true ∧ w.index.rangeMeta[0]? = none ∧
      w.index.rangeMeta[1000]? = some info ∧ w.index.rangeMeta[2000]? = none := by
  obtain ⟨w, st, hreach, hrep, hgen⟩ := filled_first_slot
  obtain ⟨blocks, hblocks⟩ := busyRecords_encodedAs
  have htake : (plainRecords 5000 2000).take 1 = busyRecords.take 1 := by
    rw [plainRecords, branchRecords, busyRecords, ← List.map_take, ← List.map_take, List.take_range,
      List.take_range]
    exact congrArg (fun r => [r]) busyRecord_zero.symm
  -- the index moves to the branch while the filler holds the slots of the old chain
  obtain ⟨common, s', st', st₁, -, hcommits, hrep', hsealed₁, -, hst', hrows⟩ :=
    hrep.deepReorgs (m := 0) (by rw [length_branchRecords]; decide) htake busyRecords_connected
      hblocks (by simp [busyRecords]) (by rw [hgen]; decide) (some 2999)
  have hcall : (honestRules busyBlocks countedTrees).calls
      (.replaceDeepSuffix st.generation common.blockId (busyRecords.drop 1) (some 2999)) := by
    refine Call.OfBlocks.honest ⟨trivial, ?_, by simp [Call.blob?], fun _ _ h => by cases h⟩
      fun _ _ => id
    exact fun r hr => .inr (List.mem_of_mem_drop hr)
  have hreach := hreach.step (.write _ hcall (map_eq_ok.mpr ⟨_, hcommits, rfl⟩) trivial)
  obtain ⟨node, hnode, htrees, hsubtrees⟩ := busyBlocks_nodeBlocks.exists_node countedTrees
  have hreach := hreach.step (.outside node 0 hnode)
  have hzero : st₁.sealedEnd = 0 := hsealed₁.trans (Nat.min_eq_right (Nat.zero_le _))
  have hend : st'.sealedEnd = 3000 := by
    have hlength : busyRecords.length = 3000 := by
      rw [busyRecords, List.length_map, List.length_range]
    rw [hst', hzero, hlength]
    exact (IndexState.sealTo_sealedEnd _ _).trans (by rw [hzero]; rfl)
  have hnone : ∀ start : Nat, s'.rangeMeta[start]? = none := by
    intro start
    rw [hrows, if_neg (by rw [show rangeStart 0 = 0 from rfl]; omega)]
  have hbranch : OnBranch ⟨s', node, 0⟩ st' := ⟨hrep', hend, htrees, hsubtrees⟩
  obtain ⟨info, index, hrun, hbranch', hindex, hrow, hflag⟩ :=
    hbranch.fill (k := 1) (by decide) (rfl : 1000 = _) ⟨1, 0⟩
  have hruns : ReflTransGen (Prog.Runs fun _ _ => False)
      (fillSlots exampleNode [⟨1000, none⟩] ⟨1, 0⟩ >>= fun _ => pure (some 1999), _) _ :=
    runs_fillSlots_cons hrun _
  have hreach := (hreach.runs (fun _ _ h => h.elim) hruns).step (.succeed rfl)
  refine ⟨_, st', info, hreach, hbranch', hrow, hflag, ?_, ?_, ?_⟩
  · show index.rangeMeta[0]? = none
    rw [hindex, Table.get_put, if_neg (by decide)]
    exact hnone 0
  · show index.rangeMeta[1000]? = some info
    rw [hindex, Table.get_put, if_pos (by decide)]
  · show index.rangeMeta[2000]? = none
    rw [hindex, Table.get_put, if_neg (by decide)]
    exact hnone 2000

/-- The filler has filled range 0 of the plain chain when a deep reorg replaces the chain by
    a branch with a closed epoch at range 0. It closes the epoch again at range 1, since it
    still counts from genesis. The next pass fills the other rows, and the rows make no
    manifest. -/
theorem stale_epoch_breaks_manifest : TreeRules busyBlocks countedTrees ∧
    ∃ (x : FillSystem Unit) (rows : List (RangeMeta Unit)),
      x.Reached exampleNode (honestRules busyBlocks countedTrees) ∧ rows.length = 3 ∧
      (∀ (i : Nat) (info : RangeMeta Unit), rows[i]? = some info →
        x.world.index.rangeMeta[i * rangeSize]? = some info) ∧
      ∀ network genesisHash manifest,
        Manifest.fromEntriesToGap network genesisHash (rows.map (·.entry)) ≠ .ok manifest := by
  refine ⟨busyBlocks_treeRules, ?_⟩
  obtain ⟨w, st, info₁, hreach, hbranch, hrow₁, hflag₁, hzero, hone, htwo⟩ := stale_row
  obtain ⟨info₀, index₀, hrun₀, hbranch₀, hindex₀, hrow₀, -⟩ :=
    hbranch.fill (k := 0) (by decide) (rfl : 0 = _) {}
  obtain ⟨info₂, index₂, hrun₂, hbranch₂, hindex₂, hrow₂, -⟩ :=
    hbranch₀.fill (k := 2) (by decide) (rfl : 2000 = _)
    ((({} : Epoch).advance info₀.entry.epochEnd info₀.entry.endTreeSizes).advance
      info₁.entry.epochEnd info₁.entry.endTreeSizes)
  have hthrough : st.sealedThrough = some 2999 :=
    IndexState.sealedThrough_eq_some_iff.mpr hbranch.sealedEnd
  have hcovered : (some (some 1999) : Option (Option Nat)) ≠ some st.sealedThrough := by
    rw [hthrough]
    decide
  have hslots : (sealedStarts 2999).map (Slot.of w.index) = [⟨0, none⟩,
      ⟨1000, some (info₁.entry.epochEnd, info₁.entry.endTreeSizes)⟩, ⟨2000, none⟩] := by
    show [Slot.of w.index 0, Slot.of w.index 1000, Slot.of w.index 2000] = _
    rw [Slot.of, Slot.of, Slot.of, hzero, hone, htwo]
    rfl
  have hruns : ReflTransGen (Prog.Runs fun _ _ => False)
    (pass exampleNode (some (some 1999)), w) _ :=
    runs_pass hbranch.represents.state hcovered hthrough
  rw [hslots] at hruns
  have hruns := hruns.trans (runs_fillSlots_cons hrun₀ _)
  -- range 1 has its row
  rw [show fillSlots exampleNode [⟨1000, some (info₁.entry.epochEnd, info₁.entry.endTreeSizes)⟩,
    ⟨2000, none⟩] _ = (fillSlots exampleNode [⟨2000, none⟩] _ : Fill Unit Unit) from rfl] at hruns
  have hruns := hruns.trans (runs_fillSlots_cons hrun₂ _)
  have hreach := (hreach.step (.start rfl)).runs (fun _ _ h => h.elim) hruns
  refine ⟨_, [info₀, info₁, info₂], hreach, rfl, ?_, ?_⟩
  · have hrows : index₂.rangeMeta[0]? = some info₀ ∧ index₂.rangeMeta[1000]? = some info₁ ∧
        index₂.rangeMeta[2000]? = some info₂ := by
      refine ⟨?_, ?_, ?_⟩
      · rw [hindex₂, Table.get_put, if_neg (by decide), hindex₀, Table.get_put, if_pos (by decide)]
      · rw [hindex₂, Table.get_put, if_neg (by decide), hindex₀, Table.get_put, if_neg (by decide)]
        exact hone
      · rw [hindex₂, Table.get_put, if_pos (by decide)]
    intro i info hi
    rcases i with _ | _ | _ | i
    · exact hi ▸ hrows.1
    · exact hi ▸ hrows.2.1
    · exact hi ▸ hrows.2.2
    · simp at hi
  · intro network genesisHash manifest hok
    have hends := Manifest.epochEnds_of_fromEntriesToGap ?_ hok
    · simp only [List.map_cons, List.map_nil, Manifest.total, hrow₀.total, hrow₁.total,
        hrow₂.total, hflag₁] at hends
      have hrule : Manifest.ruleEnds 0 0 [1000998, 1000998, 1000998] = [true, false, false] := rfl
      rw [hrule] at hends
      have hsecond : true = false := List.head_eq_of_cons_eq (List.tail_eq_of_cons_eq hends)
      cases hsecond
    · intro i entry hi
      rcases i with _ | _ | _ | i
      · exact Option.some.inj hi ▸ hrow₀.isRange
      · exact Option.some.inj hi ▸ hrow₁.isRange
      · exact Option.some.inj hi ▸ hrow₂.isRange
      · simp at hi

end

end Ztreamer
