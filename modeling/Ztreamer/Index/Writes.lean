import Ztreamer.Index.Updates

/-! # What each write commits

    Each write of the index turns a store that represents a chain into a store
    that represents the changed chain: an append adds records, a replacement
    cuts the chain and adds records, an install adds the records of a blob.
    Each write has two results here: what a successful write has checked, and
    that the write succeeds when these checks pass and no number overflows.
-/

namespace Ztreamer

open Octets Result Connected

variable {ν : Type}

/-- The state with the next generation. -/
def IndexState.nextGeneration (st : IndexState) : IndexState :=
  { st with generation := st.generation + 1 }

variable {chain records : List CompactBlockRecord} {r : CompactBlockRecord} {ancestor : Nat}

variable {st : IndexState} {sealed n : Nat} {last : CompactBlockRecord} {blocks : List EncodedBlock}
  {batch : WriteBatch} {encoded : EncodedBatch}

/-- A state that describes a chain is read back from its row. -/
theorem Describes.consistent {heightOf : HeightOf} (h : Describes st chain sealed)
    (hc : Connected heightOf chain) (hmod : sealed % rangeSize = 0) (hle : sealed ≤ chain.length)
    (hlast : chain.getLast? = some last) (hgen : st.generation < 2 ^ 64) :
    st.Consistent last.blockId where
  durableTip := (h.tip_of_getLast hlast).1
  tip_lt := last.height.isLt
  generation_lt := hgen
  sealed through hthrough := by
    have hend := IndexState.sealedThrough_eq_some_iff.mp hthrough
    have hheight := hc.getLast_height hlast
    rw [h.sealedEnd] at hend
    simp only [IsRangeEnd, CompactBlockRecord.blockId, rangeSize] at hmod ⊢
    omega
  verified verified hverified := by
    obtain ⟨hend, hlt⟩ := h.verified verified hverified
    have hsealed : st.sealedThrough = some (sealed - 1) := by
      rw [IndexState.sealedThrough_eq_some_iff, h.sealedEnd]
      omega
    exact ⟨⟨sealed - 1, hsealed, by omega⟩, hend⟩

theorem EncodedAs.head?_eq (h : EncodedAs records blocks) (hr : records.head? = some r) :
    ∃ block, blocks.head? = some block ∧ r.encodeBlock = .ok block := by
  cases h with
  | nil => cases hr
  | cons hb _ =>
    cases hr
    exact ⟨_, rfl, hb⟩

theorem EncodedAs.getLast?_eq (h : EncodedAs records blocks) (hr : records.getLast? = some r) :
    ∃ block, blocks.getLast? = some block ∧ r.encodeBlock = .ok block := by
  rw [List.getLast?_eq_getElem?] at hr ⊢
  rw [← h.length_eq]
  exact forall₂_getElem? h hr

theorem Describes.withTip {chain' : List CompactBlockRecord} (h : Describes st chain sealed)
    (hlast : chain'.getLast? = some last) :
    Describes (st.withDurableTip last.blockId last.endTreeSizes) chain' sealed where
  tip := by rw [hlast]; rfl
  treeSizes := by rw [hlast]; rfl
  sealedEnd := h.sealedEnd
  verified := h.verified

/-- The chain after a replacement of the blocks above `ancestor`. -/
def replaced (chain : List CompactBlockRecord) (ancestor : Nat)
    (records : List CompactBlockRecord) : List CompactBlockRecord :=
  chain.take (ancestor + 1) ++ records

/-- A replacement keeps the blocks below it. -/
theorem replaced_take (records : List CompactBlockRecord) (hlt : ancestor < chain.length)
    (hn : n ≤ ancestor + 1) : (replaced chain ancestor records).take n = chain.take n := by
  rw [replaced, List.take_append_of_le_length (by rw [List.length_take]; omega), List.take_take,
    Nat.min_eq_left hn]

theorem replaced_drop (hlt : ancestor < chain.length) (hn : n ≤ ancestor + 1) :
    (replaced chain ancestor records).drop n =
      (chain.drop n).take (ancestor + 1 - n) ++ records := by
  rw [replaced, List.drop_append_of_le_length (by rw [List.length_take]; omega), List.drop_take]

theorem replaced_getLast? (records : List CompactBlockRecord) (h : chain[ancestor]? = some r) :
    ∃ last, (replaced chain ancestor records).getLast? = some last := by
  have hlt := (List.getElem?_eq_some_iff.mp h).1
  have hne : replaced chain ancestor records ≠ [] := by
    intro hnil
    have := congrArg List.length hnil
    rw [replaced, List.length_append, List.length_take, List.length_nil] at this
    omega
  exact ⟨_, List.getLast?_eq_some_getLast hne⟩

theorem isChain_of_checkReplacement {expected out : Nat × Hash}
    (h : records.foldlM Writer.checkReplacement expected = .ok out) :
    records.IsChain CompactBlockRecord.Precedes ∧
      ∀ r ∈ records.head?, r.height.val = expected.1 ∧ r.previousHash = expected.2 := by
  induction records generalizing expected with
  | nil => simp
  | cons r records ih =>
    simp only [List.foldlM_cons, bind_eq_ok, Writer.checkReplacement, ensure_eq_ok,
      checkedHeight_eq_ok, pure_eq_ok, Except.ok.injEq] at h
    obtain ⟨_, ⟨-, hr, _, ⟨-, rfl⟩, rfl⟩, h⟩ := h
    obtain ⟨hchain, hhead⟩ := ih h
    refine ⟨List.isChain_cons.mpr ⟨fun r' hr' => ?_, hchain⟩, by simpa using hr⟩
    obtain ⟨hheight, hprevious⟩ := hhead r' hr'
    exact ⟨by omega, hprevious⟩

/-- Records that follow the block before `expected` pass the check, up to the
    largest height. -/
theorem checkReplacement_of_isChain (expected : Nat × Hash)
    (hchain : records.IsChain CompactBlockRecord.Precedes)
    (hhead : ∀ r ∈ records.head?, r.height.val = expected.1 ∧ r.previousHash = expected.2) :
    (∃ out, records.foldlM Writer.checkReplacement expected = .ok out) ∨
      records.foldlM Writer.checkReplacement expected = .error .overflow ∧
        2 ^ 32 ≤ expected.1 + records.length := by
  induction records generalizing expected with
  | nil => exact .inl ⟨expected, rfl⟩
  | cons r records ih =>
    have hr := hhead r (by simp)
    obtain ⟨hnext, hchain⟩ := List.isChain_cons.mp hchain
    simp only [List.foldlM_cons, Writer.checkReplacement, ensure_of _ hr, ok_bind, checkedHeight]
    split
    case isFalse hlarge =>
      refine .inr ⟨rfl, ?_⟩
      rw [List.length_cons]
      omega
    case isTrue =>
      rcases ih (expected.1 + 1, r.hash) hchain (fun r' hr' =>
        ⟨by have := (hnext r' hr').1; omega, (hnext r' hr').2⟩) with hok | ⟨herror, hlarge⟩
      · exact .inl hok
      · refine .inr ⟨herror, ?_⟩
        rw [List.length_cons]
        omega

theorem mem_rangeKeys {start oldSealed key : Nat} (hstart : start % rangeSize = 0)
    (hold : IsRangeEnd oldSealed) (hle : start ≤ oldSealed) (hkey : key % rangeSize = 0) :
    key ∈ List.range' start ((oldSealed - start) / rangeSize + 1) rangeSize ↔
      start ≤ key ∧ key ≤ oldSealed := by
  rw [List.mem_range']
  simp only [IsRangeEnd, rangeSize] at *
  constructor
  · rintro ⟨i, hi, rfl⟩
    omega
  · rintro ⟨hge, hlt⟩
    exact ⟨(key - start) / 1000, by omega, by omega⟩

theorem WriteBatch.encode_eq_ok :
    batch.encode = .ok encoded ↔ EncodedAs batch.records encoded.blocks ∧
      encoded.baseGeneration = batch.baseGeneration ∧ encoded.sealThrough = batch.sealThrough ∧
      encoded.endTreeSizes = batch.records.getLast?.elim default (·.endTreeSizes) := by
  simp only [WriteBatch.encode, bind_eq_ok, mapM_eq_ok, pure_eq_ok, Except.ok.injEq]
  constructor
  · rintro ⟨blocks, hblocks, rfl⟩
    exact ⟨hblocks, rfl, rfl, rfl⟩
  · rintro ⟨hblocks, hgen, hseal, hsizes⟩
    refine ⟨_, hblocks, ?_⟩
    cases encoded
    simp_all

theorem WriteBatch.decode_of_encode [Proto.Prost] (h : batch.encode = .ok encoded)
    (hr : r ∈ batch.records) :
    ∃ block ∈ encoded.blocks, CompactBlockRecord.decode block.bytes = .ok r := by
  obtain ⟨i, hi⟩ := List.mem_iff_getElem?.mp hr
  obtain ⟨block, hblock, hb⟩ := forall₂_getElem? (encode_eq_ok.mp h).1 hi
  obtain ⟨hbytes, -⟩ := CompactBlockRecord.encodeBlock_eq_ok.mp hb
  exact ⟨block, List.mem_of_getElem? hblock, CompactBlockRecord.decode_encode hbytes⟩

/-- Every range of `s'` is a range of `s`, was packed from records, or is `installed`. -/
def RangesFrom (s s' : Store ν) (installed : Option Bytes) : Prop :=
  ∀ (start : Nat) (blob : Bytes), s'.sealedRanges[start]? = some blob →
    s.sealedRanges[start]? = some blob ∨ (∃ records, encodeRange records = .ok blob) ∨
      installed = some blob

section

variable [Proto.Prost] {heightOf : HeightOf} {s : Store ν} {st : IndexState}
  {chain records : List CompactBlockRecord} {blocks : List EncodedBlock} {w : Writer ν}

/-! ## Start and commit -/

theorem Represents.start_eq_ok (h : Represents heightOf s st chain) {generation : Nat} :
    Writer.start s generation = .ok w ↔ w = ⟨s, st⟩ ∧ st.generation = generation := by
  simp only [Writer.start, Writer.startLatest, h.state, ok_bind, bind_eq_ok, ensure_eq_ok,
    pure_eq_ok, Except.ok.injEq]
  constructor
  · rintro ⟨-, hgen, rfl⟩
    exact ⟨rfl, hgen⟩
  · rintro ⟨rfl, hgen⟩
    exact ⟨(), hgen, rfl⟩

/-- A commit of complete tables represents their chain. -/
theorem Writer.Builds.commit (h : w.Builds heightOf chain chain.length blocks)
    (hne : chain ≠ []) :
    (w.commit = .error .overflow ∧ 2 ^ 64 ≤ w.state.generation + 1) ∨
    ∃ out, w.commit = .ok out ∧ Represents heightOf out.1 out.2 chain ∧
      out.2 = w.state.nextGeneration ∧ ∃ row, out.1 = { w.tables with state := some row } := by
  by_cases hgen : w.state.generation + 1 < 2 ^ 64
  · right
    have hlast := List.getLast?_eq_some_getLast hne
    have htip := (h.describes.tip_of_getLast hlast).1
    have hdescribes : Describes w.state.nextGeneration chain w.state.nextGeneration.sealedEnd :=
      ⟨h.describes.tip, h.describes.treeSizes, rfl, h.describes.verified⟩
    have hconsistent : w.state.nextGeneration.Consistent (chain.getLast hne).blockId :=
      hdescribes.consistent h.holds.connected h.holds.sealed_aligned h.holds.sealed_le hlast hgen
    let row := encodeState (chain.getLast hne).blockId w.state.nextGeneration
    refine ⟨({ w.tables with state := some row }, w.state.nextGeneration), ?_,
      ⟨?_, ?_, hdescribes⟩, rfl, row, rfl⟩
    · simp only [Writer.commit, ensure_of _ hgen, ok_bind]
      exact bind_eq_ok.mpr ⟨_, okOr_eq_ok.mpr htip, rfl⟩
    · exact decodeState_encodeState hconsistent
    · obtain ⟨h1, h2, h3, h4, h5, h6, h7, h8, h9, h10⟩ := h.holds
      exact ⟨h1, h2, h3, h4, h5, h6, h7, h8, h9, h10⟩
  · left
    refine ⟨?_, by omega⟩
    simp only [Writer.commit, ensure_of_not _ hgen, error_bind]

/-- The chain is near the largest height, or the generation near its largest value. -/
def NearOverflow (st : IndexState) (chain : List CompactBlockRecord) : Prop :=
  2 ^ 32 < chain.length + rangeSize ∨ 2 ^ 64 ≤ st.generation + 1

/-- What a write that seals and commits gives: an overflow, or a store that
    represents `chain` in which the next ranges are packed. -/
def Finishes (heightOf : HeightOf) (s : Store ν) (st : IndexState)
    (chain : List CompactBlockRecord) (sealThrough : Option Nat)
    (result : Except IndexError (Store ν × IndexState)) : Prop :=
  (result = .error .overflow ∧ NearOverflow st chain) ∨
  ∃ out, result = .ok out ∧ Represents heightOf out.1 out.2 chain ∧
    out.2 = (st.sealTo (sealTarget sealThrough st.sealedEnd chain.length)).nextGeneration ∧
    Packs s out.1 chain st.sealedEnd (sealTarget sealThrough st.sealedEnd chain.length)

/-- The end of each write but an install: seal, put the remaining rows, commit. -/
theorem Writer.Builds.finish {rows : Nat} (h : w.Builds heightOf chain rows blocks)
    (hne : chain ≠ []) (sealThrough : Option Nat) (hranges : w.tables.sealedRanges = s.sealedRanges)
    (hmeta : w.tables.rangeMeta = s.rangeMeta) :
    Finishes heightOf s w.state chain sealThrough (do
      let (w, blocks) ← w.sealRanges sealThrough blocks
      (w.putMutableBlocks blocks).commit) := by
  rcases h.sealRanges sealThrough with ⟨herror, hlarge⟩ |
    ⟨w₁, blocks₁, hok, hstate, hbuilds, hpacks⟩
  · exact .inl ⟨by rw [herror]; rfl, .inl hlarge⟩
  · have hcomplete : (w₁.putMutableBlocks blocks₁).Builds heightOf chain chain.length [] :=
      ⟨hbuilds.holds.putRows hbuilds.pending, hbuilds.describes, by simp [EncodedAs]⟩
    rw [hok, ok_bind]
    rcases hcomplete.commit hne with ⟨herror, hlarge⟩ | ⟨out, hcommit, hrep, hst, row, htables⟩
    · refine .inl ⟨herror, .inr ?_⟩
      have hgen : w₁.state.generation = w.state.generation := by
        rw [hstate, IndexState.sealTo_generation]
      rw [← hgen]
      exact hlarge
    · refine .inr ⟨out, hcommit, hrep, ?_, ?_⟩
      · rw [hst, ← hstate]
        rfl
      · rw [htables]
        exact ⟨fun start hlt => hranges ▸ hpacks.old start hlt, hpacks.new,
          hmeta ▸ hpacks.rangeMeta⟩

/-- The end of a write whose rows are all in the tables. -/
theorem Writer.Builds.finishRows (h : w.Builds heightOf chain chain.length [])
    (hne : chain ≠ []) (sealThrough : Option Nat) (hranges : w.tables.sealedRanges = s.sealedRanges)
    (hmeta : w.tables.rangeMeta = s.rangeMeta) :
    Finishes heightOf s w.state chain sealThrough (do
      let (w, _) ← w.sealRanges sealThrough []
      w.commit) := by
  have hfinish := h.finish hne sealThrough hranges hmeta
  rcases h.sealRanges sealThrough with ⟨herror, -⟩ | ⟨w₁, blocks₁, hok, -, hbuilds, -⟩
  · rw [herror] at hfinish ⊢
    exact hfinish
  · have hnil : blocks₁ = [] := by
      have hp := hbuilds.pending
      rw [List.drop_eq_nil_of_le (by omega)] at hp
      cases hp
      rfl
    rw [hok, ok_bind, hnil] at hfinish
    rw [hok, ok_bind]
    exact hfinish

variable {sealThrough : Option Nat} {out : Store ν × IndexState} {last : CompactBlockRecord}
  {sealed : Nat}

variable {result : Except IndexError (Store ν × IndexState)} {batch : EncodedBatch} {n : Nat}
  {common : BlockId}

/-- What a write that seals and commits gives when it succeeds. -/
theorem Finishes.ok (h : Finishes heightOf s st chain sealThrough (.ok out)) :
    Represents heightOf out.1 out.2 chain ∧
      out.2 = (st.sealTo (sealTarget sealThrough st.sealedEnd chain.length)).nextGeneration ∧
      Packs s out.1 chain st.sealedEnd (sealTarget sealThrough st.sealedEnd chain.length) := by
  obtain ⟨_, hok, hrest⟩ := h.resolve_left (by simp)
  cases hok
  exact hrest

/-- A write that seals and commits represents its chain. -/
theorem Finishes.of_ok (h : Finishes heightOf s st chain sealThrough result)
    (hok : result = .ok out) :
    Represents heightOf out.1 out.2 chain ∧ out.2.generation = st.generation + 1 ∧
      out.2.sealedEnd = sealTarget sealThrough st.sealedEnd chain.length ∧
      RangesFrom s out.1 none := by
  rw [hok] at h
  obtain ⟨hrep, hst, hpacks⟩ := h.ok
  have hge := le_sealTarget sealThrough st.sealedEnd chain.length
  have hsealed : out.2.sealedEnd = sealTarget sealThrough st.sealedEnd chain.length := by
    rw [hst]
    have := IndexState.sealTo_sealedEnd st (sealTarget sealThrough st.sealedEnd chain.length)
    rw [Nat.max_eq_right hge] at this
    exact this
  refine ⟨hrep, ?_, hsealed, fun start blob hblob => ?_⟩
  · rw [hst, IndexState.nextGeneration, IndexState.sealTo_generation]
  · obtain ⟨hmod, hlt⟩ := hrep.holds.sealed_key start blob hblob
    by_cases hold : start < st.sealedEnd
    · exact .inl (by rw [← hpacks.old start hold, hblob])
    · obtain ⟨blob', hblob', hrange⟩ := hpacks.new start hmod (by omega) (by omega)
      rw [hblob] at hblob'
      cases hblob'
      exact .inr (.inl ⟨_, hrange⟩)

/-! ## Appends -/

section

variable (h : Represents heightOf s st chain)

include h

/-- A batch that continues the chain is appended. -/
theorem Represents.append (hblocks : EncodedAs records batch.blocks)
    (hlast : records.getLast? = some last) (hsizes : batch.endTreeSizes = last.endTreeSizes)
    (hext : Extends heightOf chain records) :
    Finishes heightOf s (st.withDurableTip last.blockId last.endTreeSizes) (chain ++ records)
      batch.sealThrough ((⟨s, st⟩ : Writer ν).append batch) := by
  obtain ⟨first, hfirst⟩ : ∃ first, records.head? = some first := by
    cases records with
    | nil => cases hlast
    | cons first _ => exact ⟨first, rfl⟩
  obtain ⟨firstBlock, hfirstBlock, hencFirst⟩ := hblocks.head?_eq hfirst
  obtain ⟨lastBlock, hlastBlock, hencLast⟩ := hblocks.getLast?_eq hlast
  obtain ⟨-, hfirstHeight, -, hfirstPrevious⟩ := CompactBlockRecord.encodeBlock_eq_ok.mp hencFirst
  obtain ⟨-, hlastHeight, hlastHash, -⟩ := CompactBlockRecord.encodeBlock_eq_ok.mp hencLast
  have hheight := hext.height first hfirst
  have hnext : st.nextHeight = some chain.length := by
    rw [h.describes.nextHeight_eq_some h.connected]
    exact ⟨rfl, fun _ => by have := first.height.isLt; omega⟩
  have hcontinues : firstBlock.height = chain.length ∧
      ∀ tip ∈ st.durableTip, firstBlock.previousHash = tip.hash := by
    refine ⟨by omega, fun tip htip => ?_⟩
    obtain ⟨tipRecord, htipRecord, rfl⟩ := h.describes.tip_eq_some_iff.mp htip
    rw [hfirstPrevious]
    exact hext.link tipRecord htipRecord first hfirst
  have htip : (⟨lastBlock.height, lastBlock.hash⟩ : BlockId) = last.blockId := by
    rw [hlastHeight, hlastHash]
    rfl
  have hbuilds : (((⟨s, st⟩ : Writer ν).putHashes batch.blocks).setTip last.blockId
      last.endTreeSizes).Builds heightOf (chain ++ records) chain.length batch.blocks :=
    ⟨h.holds.extend hext hblocks.mem_hashRows,
      h.describes.withTip (by simp [List.getLast?_append, hlast]), by simpa using hblocks⟩
  have hfinish := hbuilds.finish (by
    rintro hnil
    obtain rfl := (List.append_eq_nil_iff.mp hnil).2
    cases hlast) batch.sealThrough (s := s) rfl rfl
  simp only [Writer.append, hfirstBlock, hlastBlock, okOr_some, ok_bind, hnext,
    ensure_of _ hcontinues, hsizes, htip]
  exact hfinish

/-- A batch that was appended continues the chain. -/
theorem Represents.extends_of_append (hblocks : EncodedAs records batch.blocks)
    (hchain : records.IsChain CompactBlockRecord.Precedes)
    (hheights : ∀ r ∈ records, heightOf.allows r.hash r.height.val)
    (happend : (⟨s, st⟩ : Writer ν).append batch = .ok out) : Extends heightOf chain records := by
  simp only [Writer.append, bind_eq_ok, okOr_eq_ok, ensure_eq_ok] at happend
  obtain ⟨first, hfirst, -, -, height, hheight, -, ⟨hfirstHeight, hprevious⟩, -⟩ := happend
  obtain ⟨rfl, -⟩ := (h.describes.nextHeight_eq_some h.connected).mp hheight
  have hhead : ∀ r ∈ records.head?, r.height.val = chain.length ∧
      r.previousHash = first.previousHash := by
    intro r hr
    obtain ⟨block, hblock, hencode⟩ := hblocks.head?_eq hr
    rw [hfirst] at hblock
    cases hblock
    obtain ⟨-, hh, -, hp⟩ := CompactBlockRecord.encodeBlock_eq_ok.mp hencode
    exact ⟨hh ▸ hfirstHeight, hp.symm⟩
  refine ⟨hchain, fun r hr => (hhead r hr).1, fun last hlast r hr => ?_, hheights⟩
  rw [(hhead r hr).2, hprevious _ (h.describes.tip_of_getLast hlast).1]
  rfl

/-- A committed batch was appended. -/
theorem Represents.of_writeEncoded {batch : WriteBatch} {encoded : EncodedBatch}
    (hencode : batch.encode = .ok encoded) (hne : batch.records ≠ [])
    (hchain : batch.records.IsChain CompactBlockRecord.Precedes)
    (hheights : ∀ r ∈ batch.records, heightOf.allows r.hash r.height.val)
    (hwrite : s.writeEncoded encoded = .ok out) :
    st.generation = batch.baseGeneration ∧ ∃ last : CompactBlockRecord,
      Finishes heightOf s (st.withDurableTip last.blockId last.endTreeSizes)
        (chain ++ batch.records) encoded.sealThrough (.ok out) := by
  simp only [Store.writeEncoded, bind_eq_ok] at hwrite
  obtain ⟨w, hstart, happend⟩ := hwrite
  obtain ⟨rfl, hgen⟩ := h.start_eq_ok.mp hstart
  obtain ⟨hblocks, hbase, -, hsizes⟩ := WriteBatch.encode_eq_ok.mp hencode
  have hext := h.extends_of_append hblocks hchain hheights happend
  have hlast := List.getLast?_eq_some_getLast hne
  have hfinish := h.append hblocks hlast (by rw [hsizes, hlast]; rfl) hext
  rw [happend] at hfinish
  exact ⟨hgen.trans hbase, _, hfinish⟩

/-- A committed batch adds its records to the chain. -/
theorem Represents.writeEncoded {batch : WriteBatch} {encoded : EncodedBatch}
    (hencode : batch.encode = .ok encoded) (hne : batch.records ≠ [])
    (hchain : batch.records.IsChain CompactBlockRecord.Precedes)
    (hheights : ∀ r ∈ batch.records, heightOf.allows r.hash r.height.val)
    (hwrite : s.writeEncoded encoded = .ok out) :
    Represents heightOf out.1 out.2 (chain ++ batch.records) ∧
      out.2.generation = st.generation + 1 ∧ RangesFrom s out.1 none := by
  obtain ⟨-, last, hfinish⟩ := h.of_writeEncoded hencode hne hchain hheights hwrite
  obtain ⟨hrep, hgen, -, hranges⟩ := hfinish.of_ok rfl
  exact ⟨hrep, hgen, hranges⟩

theorem Represents.write {encoded : List EncodedBlock} (hblocks : EncodedAs records encoded)
    {last : CompactBlockRecord} (hlast : records.getLast? = some last)
    (hext : Extends heightOf chain records) (sealThrough : Option Nat) :
    Finishes heightOf s (st.withDurableTip last.blockId last.endTreeSizes) (chain ++ records)
      sealThrough (s.write ⟨st.generation, sealThrough, records⟩) := by
  have hencode : WriteBatch.encode ⟨st.generation, sealThrough, records⟩ =
      .ok ⟨st.generation, sealThrough, encoded, last.endTreeSizes⟩ :=
    WriteBatch.encode_eq_ok.mpr ⟨hblocks, rfl, rfl, by rw [hlast]; rfl⟩
  rw [Store.write, hencode, okMapError_ok, ok_bind, Store.writeEncoded,
    h.start_eq_ok.mpr ⟨rfl, rfl⟩, ok_bind]
  exact h.append hblocks hlast rfl hext

end

/-! ## Replacements of mutable rows -/

/-- Tables without ranges from `sealed` on, seen through a larger bound. -/
theorem Holds.get_ranges {rows : Nat} (h : Holds heightOf s chain sealed rows) (start : Nat) :
    s.sealedRanges[start]? = (if start < sealed then s.sealedRanges[start]? else none) ∧
      s.rangeMeta[start]? = if start < sealed then s.rangeMeta[start]? else none := by
  split
  · exact ⟨rfl, rfl⟩
  · refine ⟨?_, ?_⟩
    · cases hget : s.sealedRanges[start]? with
      | none => rfl
      | some blob => exact absurd (h.sealed_key start blob hget).2 (by assumption)
    · cases hget : s.rangeMeta[start]? with
      | none => rfl
      | some info => exact absurd (h.range_meta start info hget).2.1 (by assumption)

/-- The blocks from `n` on are deleted. -/
theorem Holds.deleteRows (h : Holds heightOf w.tables chain sealed chain.length)
    (hn : n ≤ chain.length) (hsealed : sealed ≤ n) :
    ∃ w', (List.range' n (chain.length - n)).foldlM Writer.deleteMutableBlock w = .ok w' ∧
      w'.state = w.state ∧ w'.tables.sealedRanges = w.tables.sealedRanges ∧
      w'.tables.rangeMeta = w.tables.rangeMeta ∧
      Holds heightOf w'.tables (chain.take n) sealed n := by
  have hdelete := foldlM_deleteMutableBlock (w := w) h.connected (chain.length - n) n
    fun i hi hi' => h.mutable_row i (by omega) (by omega)
  rw [← List.length_drop, List.take_length, List.length_drop, foldl_deleteBlock] at hdelete
  refine ⟨_, hdelete, rfl, rfl, rfl, ?_⟩
  have hcut := h.cut { w.tables with
    hashToHeight := Table.deleteAll w.tables.hashToHeight ((chain.drop n).map (·.hash))
    mutableBlocks := Table.deleteAll w.tables.mutableBlocks ((chain.drop n).map (·.height.val)) }
    hn
  rw [Nat.min_eq_left hsealed] at hcut
  exact hcut h.sealed_aligned (fun start => (h.get_ranges start).1) (h.get_deleteRows n)
    (h.get_deleteHashes n) fun start => (h.get_ranges start).2

/-- Records that continue the chain are put. -/
theorem Holds.putBlocks (h : Holds heightOf w.tables chain sealed chain.length)
    (hext : Extends heightOf chain records) (hblocks : EncodedAs records blocks) :
    ∃ w', records.foldlM Writer.putBlock w = .ok w' ∧ w'.state = w.state ∧
      w'.tables.sealedRanges = w.tables.sealedRanges ∧
      w'.tables.rangeMeta = w.tables.rangeMeta ∧
      Holds heightOf w'.tables (chain ++ records) sealed (chain ++ records).length := by
  refine ⟨_, foldlM_putBlock_eq_ok.mpr ⟨blocks, hblocks, rfl⟩, rfl, rfl, rfl, ?_⟩
  exact (h.extend hext hblocks.mem_hashRows).putRows (by simpa using hblocks)

/-- A replacement of mutable rows that links to its ancestor is written. -/
theorem Represents.replaceMutableSuffix (h : Represents heightOf s st chain) {ancestor : BlockId}
    {ancestorRecord : CompactBlockRecord} (hget : chain[ancestor.height]? = some ancestorRecord)
    (hhash : ancestorRecord.hash = ancestor.hash) (hsealed : st.sealedEnd ≤ ancestor.height + 1)
    (hext : Extends heightOf (chain.take (ancestor.height + 1)) records)
    (hblocks : EncodedAs records blocks)
    (hlast : (replaced chain ancestor.height records).getLast? = some last)
    (sealThrough : Option Nat) :
    Finishes heightOf s (st.withDurableTip last.blockId last.endTreeSizes)
      (replaced chain ancestor.height records) sealThrough
      ((⟨s, st⟩ : Writer ν).replaceMutableSuffix ancestor records sealThrough) := by
  have hlt : ancestor.height < chain.length := (List.getElem?_eq_some_iff.mp hget).1
  have hlen : (chain.take (ancestor.height + 1)).length = ancestor.height + 1 := by
    rw [List.length_take]
    omega
  have hreplacedLen : (replaced chain ancestor.height records).length =
      ancestor.height + 1 + records.length := by
    rw [replaced, List.length_append, hlen]
  have hthrough : ∀ through ∈ st.sealedThrough, through ≤ ancestor.height := by
    intro through hth
    have := IndexState.sealedThrough_eq_some_iff.mp hth
    omega
  have hread : (⟨s, st⟩ : Writer ν).read ancestor.height = .ok ancestorRecord := h.read hget
  simp only [Writer.replaceMutableSuffix, ensure_of _ hthrough, ok_bind, hread, ensure_of _ hhash]
  have hpos : 0 < rangeSize := by simp [rangeSize]
  by_cases hfits : ancestor.height + 1 < 2 ^ 32
  swap
  · refine .inl ⟨?_, .inl (by omega)⟩
    simp only [checkedHeight, if_neg hfits, error_bind]
  simp only [checkedHeight, if_pos hfits, ok_bind]
  -- the records link to the ancestor
  have hgetLast : (chain.take (ancestor.height + 1)).getLast? = some ancestorRecord := by
    rw [List.getLast?_eq_getElem?, hlen, List.getElem?_take_of_lt (by omega)]
    exact hget
  have hhead : ∀ r ∈ records.head?, r.height.val = ancestor.height + 1 ∧
      r.previousHash = ancestor.hash := fun r hr =>
    ⟨by rw [hext.height r hr, hlen], by rw [hext.link _ hgetLast r hr, hhash]⟩
  rcases checkReplacement_of_isChain (ancestor.height + 1, ancestor.hash)
    hext.isChain hhead with ⟨next, hnext⟩ | ⟨herror, hlarge⟩
  swap
  · refine .inl ⟨by rw [herror]; rfl, .inl ?_⟩
    simp only at hlarge
    omega
  obtain ⟨oldTip, htip, hle⟩ := h.describes.exists_tip h.connected hlt
  have hheight := h.describes.tip_height h.connected htip
  obtain ⟨w₁, hdelete, hstate₁, hranges₁, hmeta₁, hholds₁⟩ :=
    Holds.deleteRows (w := ⟨s, st⟩) h.holds (show ancestor.height + 1 ≤ chain.length by omega)
      hsealed
  have hholds₁ : Holds heightOf w₁.tables (chain.take (ancestor.height + 1)) st.sealedEnd
      (chain.take (ancestor.height + 1)).length := by
    rw [hlen]
    exact hholds₁
  obtain ⟨w₂, hput, hstate₂, hranges₂, hmeta₂, hholds₂⟩ := hholds₁.putBlocks hext hblocks
  have htipCases : records.getLast? = some last ∨
      records.getLast? = none ∧ last = ancestorRecord ∧ last.blockId = ancestor := by
    rw [replaced, List.getLast?_append, hgetLast] at hlast
    cases hrecord : records.getLast? with
    | none =>
      obtain rfl : ancestorRecord = last := by simpa [hrecord] using hlast
      refine .inr ⟨rfl, rfl, ?_⟩
      rw [CompactBlockRecord.blockId, h.connected.height_eq hget, hhash]
    | some record => simpa [hrecord] using hlast
  have hbuilds : (w₂.setTip last.blockId last.endTreeSizes).Builds heightOf
      (replaced chain ancestor.height records)
      (replaced chain ancestor.height records).length [] := by
    have hstate : w₂.state = st := hstate₂.trans hstate₁
    refine ⟨?_, ?_, by simp [EncodedAs]⟩
    · simp only [Writer.setTip, hstate]
      exact hholds₂
    · simp only [Writer.setTip, hstate]
      exact h.describes.withTip hlast
  have hfinish := hbuilds.finishRows (by rintro hnil; simp [hnil] at hlast) sealThrough
    (hranges₂.trans hranges₁) (hmeta₂.trans hmeta₁)
  have hstate : (w₂.setTip last.blockId last.endTreeSizes).state =
      st.withDurableTip last.blockId last.endTreeSizes := by
    rw [Writer.setTip, hstate₂, hstate₁]
  rw [hstate] at hfinish
  have htip : st.durableTip = some oldTip := htip
  simp only [hnext, ok_bind, htip, okOr_some, ensure_of _ hle, hheight, hdelete, hput]
  rcases htipCases with hsome | ⟨hnone, rfl, rfl⟩
  · simp only [hsome]
    exact hfinish
  · simp only [hnone]
    exact hfinish

/-- A replacement of mutable rows that was written links to its ancestor. -/
theorem Represents.of_replaceMutableSuffix (h : Represents heightOf s st chain) {ancestor : BlockId}
    (hheights : ∀ r ∈ records, heightOf.allows r.hash r.height.val)
    (hreplace : (⟨s, st⟩ : Writer ν).replaceMutableSuffix ancestor records sealThrough =
      .ok out) :
    ∃ ancestorRecord blocks, chain[ancestor.height]? = some ancestorRecord ∧
      ancestorRecord.hash = ancestor.hash ∧ st.sealedEnd ≤ ancestor.height + 1 ∧
      Extends heightOf (chain.take (ancestor.height + 1)) records ∧
      EncodedAs records blocks := by
  simp only [Writer.replaceMutableSuffix, bind_eq_ok, ensure_eq_ok, checkedHeight_eq_ok,
    okOr_eq_ok] at hreplace
  obtain ⟨-, hsealed, ancestorRecord, hread, -, hhash, _, ⟨-, rfl⟩, next, hnext, -, -, -, -,
    _, -, _,
    hput, -⟩ := hreplace
  have hget := h.read_eq_ok hread
  obtain ⟨blocks, hblocks, -⟩ := foldlM_putBlock_eq_ok.mp hput
  obtain ⟨hchain, hhead⟩ := isChain_of_checkReplacement hnext
  have hlt : ancestor.height < chain.length := (List.getElem?_eq_some_iff.mp hget).1
  have hlen : (chain.take (ancestor.height + 1)).length = ancestor.height + 1 := by
    rw [List.length_take]
    omega
  refine ⟨ancestorRecord, blocks, hget, hhash, ?_, ⟨hchain, ?_, ?_, hheights⟩, hblocks⟩
  · cases hthrough : st.sealedThrough with
    | none =>
      rw [IndexState.sealedThrough_eq_none_iff.mp hthrough]
      omega
    | some through =>
      have := hsealed through hthrough
      rw [IndexState.sealedThrough_eq_some_iff.mp hthrough]
      omega
  · intro r hr
    rw [hlen]
    exact (hhead r hr).1
  · intro last hlast r hr
    rw [Option.mem_def, List.getLast?_eq_getElem?, hlen, List.getElem?_take_of_lt (by omega),
      Nat.add_sub_cancel, hget] at hlast
    obtain rfl : ancestorRecord = last := by simpa using hlast
    rw [(hhead r hr).2, hhash]

/-- A committed replacement of mutable rows. -/
theorem Represents.of_mutableReorg (h : Represents heightOf s st chain) {generation : Nat}
    {ancestor : BlockId} (hheights : ∀ r ∈ records, heightOf.allows r.hash r.height.val)
    (hok : s.replaceMutableSuffix generation ancestor records sealThrough = .ok out) :
    st.generation = generation ∧ ∃ record last : CompactBlockRecord,
      chain[ancestor.height]? = some record ∧ st.sealedEnd ≤ ancestor.height + 1 ∧
      Finishes heightOf s (st.withDurableTip last.blockId last.endTreeSizes)
        (replaced chain ancestor.height records) sealThrough (.ok out) := by
  simp only [Store.replaceMutableSuffix, bind_eq_ok] at hok
  obtain ⟨w, hstart, hreplace⟩ := hok
  obtain ⟨rfl, hgen⟩ := h.start_eq_ok.mp hstart
  obtain ⟨record, blocks, hget, hhash, hsealed, hext, hblocks⟩ :=
    h.of_replaceMutableSuffix hheights hreplace
  obtain ⟨last, hlast⟩ := replaced_getLast? records hget
  have hfinish := h.replaceMutableSuffix hget hhash hsealed hext hblocks hlast sealThrough
  rw [hreplace] at hfinish
  exact ⟨hgen, record, last, hget, hsealed, hfinish⟩

/-! ## Deep replacements -/

theorem Represents.mapM_read (h : Represents heightOf s st chain) (n : Nat) :
    (List.range' n (chain.length - n)).mapM (⟨s, st⟩ : Writer ν).read = .ok (chain.drop n) := by
  rw [← List.length_drop]
  refine mapM_range'_eq_ok fun i r hr => h.read ?_
  rwa [List.getElem?_drop] at hr

/-- The ranges and the metadata below `bound` are kept, and no others. -/
structure CutAt (s : Store ν) (st : IndexState) (bound : Nat) (s₁ : Store ν) (st₁ : IndexState) :
    Prop where
  sealedRanges : ∀ start : Nat, s₁.sealedRanges[start]? =
    if start < bound then s.sealedRanges[start]? else none
  rangeMeta : ∀ start : Nat, s₁.rangeMeta[start]? =
    if start < bound then s.rangeMeta[start]? else none
  sealedEnd : st₁.sealedEnd = bound
  generation : st₁.generation = st.generation
  verifiedThrough : st₁.verifiedThrough =
    if bound = 0 then none else st.verifiedThrough.map (min · (bound - 1))

omit [Proto.Prost] in
theorem Describes.verifiedThrough_eq (h : Describes st chain sealed) : st.verifiedThrough =
    if sealed = 0 then none else st.verifiedThrough.map (min · (sealed - 1)) := by
  cases hverified : st.verifiedThrough with
  | none => simp
  | some through =>
    have hlt := (h.verified through hverified).2
    rw [if_neg (by omega), Option.map_some, Nat.min_eq_left (by omega)]

/-- A write above the sealed blocks cuts nothing off. -/
theorem Represents.cutAt (h : Represents heightOf s st chain) (tip : BlockId)
    (treeSizes : TreeSizes) : CutAt s st st.sealedEnd s (st.withDurableTip tip treeSizes) :=
  ⟨fun start => (h.holds.get_ranges start).1, fun start => (h.holds.get_ranges start).2, rfl, rfl,
    h.describes.verifiedThrough_eq⟩

/-- From `w` to `w'`, the ranges and the metadata from `bound` on are deleted. The
    block rows and the hashes are those of `w`. -/
structure RangesCut (w w' : Writer ν) (bound : Nat) : Prop where
  sealedRanges : ∀ start : Nat, w'.tables.sealedRanges[start]? =
    if start < bound then w.tables.sealedRanges[start]? else none
  rangeMeta : ∀ start : Nat, w'.tables.rangeMeta[start]? =
    if start < bound then w.tables.rangeMeta[start]? else none
  mutableBlocks : w'.tables.mutableBlocks = w.tables.mutableBlocks
  hashToHeight : w'.tables.hashToHeight = w.tables.hashToHeight
  generation : w'.state.generation = w.state.generation
  sealedEnd : w'.state.sealedEnd = bound
  verified : ∀ through ∈ w'.state.verifiedThrough, IsRangeEnd through ∧ through < bound
  verifiedThrough : w'.state.verifiedThrough =
    if bound = 0 then none else w.state.verifiedThrough.map (min · (bound - 1))

theorem Holds.deleteRangesFrom (h : Holds heightOf s chain sealed chain.length)
    (hd : Describes w.state chain sealed) (hn : n % rangeSize = 0)
    (hranges : w.tables.sealedRanges = s.sealedRanges) (hmeta : w.tables.rangeMeta = s.rangeMeta) :
    RangesCut w (w.deleteRangesFrom n) (min sealed n) := by
  have hmod := h.sealed_aligned
  -- nothing is sealed from `n` on
  have hkeep : w.deleteRangesFrom n = w → sealed ≤ n →
      RangesCut w (w.deleteRangesFrom n) (min sealed n) := fun heq hle => by
    rw [heq, Nat.min_eq_left hle]
    exact ⟨fun start => hranges ▸ (h.get_ranges start).1,
      fun start => hmeta ▸ (h.get_ranges start).2, rfl, rfl, rfl, hd.sealedEnd, hd.verified,
      hd.verifiedThrough_eq⟩
  cases hthrough : w.state.sealedThrough with
  | none =>
    have hzero := IndexState.sealedThrough_eq_none_iff.mp hthrough
    rw [hd.sealedEnd] at hzero
    exact hkeep (by simp only [Writer.deleteRangesFrom, hthrough]) (by omega)
  | some oldSealed =>
    have hsealed := IndexState.sealedThrough_eq_some_iff.mp hthrough
    rw [hd.sealedEnd] at hsealed
    by_cases hle : n ≤ oldSealed
    swap
    · exact hkeep (by simp only [Writer.deleteRangesFrom, hthrough, if_neg hle]) (by omega)
    have hend : IsRangeEnd oldSealed := by
      simp only [IsRangeEnd, rangeSize] at hmod ⊢
      omega
    rw [Nat.min_eq_right (by omega)]
    rw [Writer.deleteRangesFrom]
    simp only [hthrough, if_pos hle]
    refine ⟨fun start => ?_, fun start => ?_, rfl, rfl, rfl, ?_, ?_, ?_⟩
    · rw [Table.get_deleteAll, hranges]
      cases hget : s.sealedRanges[start]? with
      | none => simp
      | some blob =>
        obtain ⟨hkey, hlt⟩ := h.sealed_key start blob hget
        have hmem := mem_rangeKeys hn hend hle hkey
        by_cases hstart : start < n
        · rw [if_neg (by rw [hmem]; omega), if_pos hstart]
        · rw [if_pos (by rw [hmem]; omega), if_neg hstart]
    · rw [Table.get_filter_key]
      simp only [decide_eq_true_eq]
    · cases n with
      | zero => rfl
      | succ n => simp [IndexState.sealedEnd]
    · intro through hv
      cases hver : w.state.verifiedThrough with
      | none => simp [hver] at hv
      | some verified =>
        obtain ⟨hvend, -⟩ := hd.verified verified hver
        by_cases hzero : n = 0
        · simp [hver, hzero] at hv
        · simp only [hver, if_neg hzero, Option.mem_def, Option.some.injEq] at hv
          simp only [IsRangeEnd, rangeSize] at hvend hn ⊢
          omega
    · by_cases hzero : n = 0
      · rw [if_pos hzero, if_pos hzero]
        cases w.state.verifiedThrough <;> rfl
      · rw [if_neg hzero, if_neg hzero]
        cases w.state.verifiedThrough <;> rfl

/-- A deep replacement that links to its common ancestor is written. The ranges
    from the range of the ancestor on are rebuilt. -/
theorem Represents.replaceDeepSuffix (h : Represents heightOf s st chain)
    {commonRecord : CompactBlockRecord} (hget : chain[common.height]? = some commonRecord)
    (hhash : commonRecord.hash = common.hash)
    (hext : Extends heightOf (chain.take (common.height + 1)) records) (hblocks : EncodedAs
      ((replaced chain common.height records).drop (rangeStart common.height)) blocks)
    (hlast : (replaced chain common.height records).getLast? = some last)
    (sealThrough : Option Nat) :
    ∃ s₁ st₁, CutAt s st (min st.sealedEnd (rangeStart common.height)) s₁ st₁ ∧
      Finishes heightOf s₁ st₁ (replaced chain common.height records) sealThrough
        ((⟨s, st⟩ : Writer ν).replaceDeepSuffix common records sealThrough) := by
  have hlt : common.height < chain.length := (List.getElem?_eq_some_iff.mp hget).1
  have hstart := rangeStart_le common.height
  have hmod := rangeStart_mod common.height
  generalize hn : rangeStart common.height = n at *
  have hle : n ≤ common.height + 1 := by omega
  have hread : (⟨s, st⟩ : Writer ν).read common.height = .ok commonRecord := h.read hget
  obtain ⟨oldTip, htip, -⟩ := h.describes.exists_tip h.connected hlt
  have hheight := h.describes.tip_height h.connected htip
  -- the canonical records are the end of the new chain
  have hcanonical : (chain.drop n).take (common.height - n + 1) ++ records =
      (replaced chain common.height records).drop n := by
    rw [replaced_drop hlt hle, show common.height - n + 1 = common.height + 1 - n by omega]
  have hsplit : chain.take n ++ (replaced chain common.height records).drop n =
      replaced chain common.height records := by
    rw [← replaced_take records hlt hle, List.take_append_drop]
  have hconnected : Connected heightOf (chain.take n ++
      (replaced chain common.height records).drop n) := by
    rw [hsplit]
    exact (h.connected.take _).append hext
  have hextends := hconnected.extends_of_append
  -- delete, put, and set the tip
  let w₁ := (chain.drop n).foldl Writer.deleteBlock ⟨s, st⟩
  have hw₁ : w₁ = _ := foldl_deleteBlock (chain.drop n) ⟨s, st⟩
  have hcut : RangesCut w₁ (w₁.deleteRangesFrom n) (min st.sealedEnd n) :=
    h.holds.deleteRangesFrom (by rw [hw₁]; exact h.describes) hmod (by rw [hw₁]) (by rw [hw₁])
  have hholds₁ : Holds heightOf (w₁.deleteRangesFrom n).tables (chain.take n)
      (min st.sealedEnd n) n := by
    refine h.holds.cut _ (by omega) ?_ ?_ ?_ ?_ ?_
    · rcases Nat.le_total st.sealedEnd n with hle' | hle'
      · rw [Nat.min_eq_left hle']
        exact h.holds.sealed_aligned
      · rw [Nat.min_eq_right hle', hmod]
    · intro start
      rw [hcut.sealedRanges, hw₁]
    · rw [hcut.mutableBlocks, hw₁]
      exact h.holds.get_deleteRows n
    · rw [hcut.hashToHeight, hw₁]
      exact h.holds.get_deleteHashes n
    · intro start
      rw [hcut.rangeMeta, hw₁]
  have hlen : (chain.take n).length = n := by
    rw [List.length_take]
    omega
  have hholds₁ : Holds heightOf (w₁.deleteRangesFrom n).tables (chain.take n)
      (min st.sealedEnd n) (chain.take n).length := by
    rw [hlen]
    exact hholds₁
  obtain ⟨w₂, hput, hstate₂, hranges₂, hmeta₂, hholds₂⟩ := hholds₁.putBlocks hextends hblocks
  rw [hsplit] at hholds₂
  have hbuilds : (w₂.setTip last.blockId last.endTreeSizes).Builds heightOf
      (replaced chain common.height records) (replaced chain common.height records).length [] := by
    have hend : (w₂.setTip last.blockId last.endTreeSizes).state.sealedEnd =
        min st.sealedEnd n := by
      rw [← hcut.sealedEnd, ← hstate₂]
      rfl
    refine ⟨?_, ⟨?_, ?_, rfl, ?_⟩, by simp [EncodedAs]⟩
    · rw [hend]
      exact hholds₂
    · rw [hlast]
      rfl
    · rw [hlast]
      rfl
    · rw [hend]
      intro through hthrough
      refine hcut.verified through ?_
      rw [← hstate₂]
      exact hthrough
  refine ⟨(w₁.deleteRangesFrom n).tables, (w₂.setTip last.blockId last.endTreeSizes).state,
    ⟨?_, ?_, ?_, ?_, ?_⟩, ?_⟩
  · intro start
    rw [hcut.sealedRanges, hw₁]
  · intro start
    rw [hcut.rangeMeta, hw₁]
  · rw [← hcut.sealedEnd, ← hstate₂]
    rfl
  · have hgen := hcut.generation
    rw [← hstate₂, hw₁] at hgen
    exact hgen
  · have hverified := hcut.verifiedThrough
    rw [← hstate₂, hw₁] at hverified
    exact hverified
  · have hfinish := hbuilds.finishRows (by rintro hnil; simp [hnil] at hlast) sealThrough
      hranges₂ hmeta₂
    have htip : st.durableTip = some oldTip := htip
    have hlast' : ((replaced chain common.height records).drop n).getLast? = some last := by
      rw [List.getLast?_drop, if_neg, hlast]
      have : (replaced chain common.height records).length =
        common.height + 1 + records.length := by
        rw [replaced, List.length_append, List.length_take]
        omega
      omega
    simp only [Writer.replaceDeepSuffix, htip, okOr_some, ok_bind, hread, ensure_of _ hhash, hn,
      hheight, h.mapM_read, hcanonical, ensure_of _ hextends.isChain]
    rw [hput, ok_bind, hlast', okOr_some, ok_bind]
    exact hfinish

/-- A deep replacement that was written links to its common ancestor. -/
theorem Represents.of_replaceDeepSuffix (h : Represents heightOf s st chain)
    (hheights : ∀ r ∈ records, heightOf.allows r.hash r.height.val)
    (hreplace : (⟨s, st⟩ : Writer ν).replaceDeepSuffix common records sealThrough = .ok out) :
    ∃ commonRecord blocks, chain[common.height]? = some commonRecord ∧
      commonRecord.hash = common.hash ∧
      Extends heightOf (chain.take (common.height + 1)) records ∧
      EncodedAs ((replaced chain common.height records).drop (rangeStart common.height))
        blocks := by
  simp only [Writer.replaceDeepSuffix, bind_eq_ok, ensure_eq_ok, okOr_eq_ok] at hreplace
  obtain ⟨oldTip, htip, commonRecord, hread, -, hhash, oldRecords, hold, -, hchain, w₁, hput, -⟩ :=
    hreplace
  have hget := h.read_eq_ok hread
  have hlt : common.height < chain.length := (List.getElem?_eq_some_iff.mp hget).1
  have hheight := h.describes.tip_height h.connected htip
  have hstart := rangeStart_le common.height
  rw [hheight, h.mapM_read] at hold
  obtain rfl : chain.drop (rangeStart common.height) = oldRecords := by simpa using hold
  rw [show common.height - rangeStart common.height + 1 =
    common.height + 1 - rangeStart common.height by omega] at hchain hput
  obtain ⟨blocks, hblocks, -⟩ := foldlM_putBlock_eq_ok.mp hput
  rw [← replaced_drop hlt (by omega)] at hblocks
  have hlen : (chain.take (common.height + 1)).length = common.height + 1 := by
    rw [List.length_take]
    omega
  -- the last kept record is the common ancestor
  have hkept : ((chain.drop (rangeStart common.height)).take
      (common.height + 1 - rangeStart common.height)).getLast? = some commonRecord := by
    have hlength : ((chain.drop (rangeStart common.height)).take
        (common.height + 1 - rangeStart common.height)).length =
          common.height + 1 - rangeStart common.height := by
      rw [List.length_take, List.length_drop]
      omega
    rw [List.getLast?_eq_getElem?, hlength, List.getElem?_take_of_lt (by omega),
      List.getElem?_drop, ← hget]
    congr 1
    omega
  obtain ⟨-, hrecords, hlink⟩ := List.isChain_append.mp hchain
  refine ⟨commonRecord, blocks, hget, hhash, ⟨hrecords, ?_, ?_, hheights⟩, hblocks⟩
  · intro r hr
    have := (hlink commonRecord hkept r hr).1
    rw [hlen, ← this, h.connected.height_eq hget]
  · intro last hlast r hr
    rw [Option.mem_def, List.getLast?_eq_getElem?, hlen, List.getElem?_take_of_lt (by omega),
      Nat.add_sub_cancel, hget] at hlast
    obtain rfl : commonRecord = last := by simpa using hlast
    exact (hlink commonRecord hkept r hr).2

/-- A committed deep replacement. -/
theorem Represents.of_deepReorg (h : Represents heightOf s st chain) {generation : Nat}
    (hheights : ∀ r ∈ records, heightOf.allows r.hash r.height.val)
    (hok : s.replaceDeepSuffix generation common records sealThrough = .ok out) :
    st.generation = generation ∧ ∃ (record : CompactBlockRecord) (s₁ : Store ν) (st₁ : IndexState),
      chain[common.height]? = some record ∧ record.hash = common.hash ∧
      Extends heightOf (chain.take (common.height + 1)) records ∧
      CutAt s st (min st.sealedEnd (rangeStart common.height)) s₁ st₁ ∧
      Finishes heightOf s₁ st₁ (replaced chain common.height records) sealThrough (.ok out) := by
  simp only [Store.replaceDeepSuffix, bind_eq_ok] at hok
  obtain ⟨w, hstart, hreplace⟩ := hok
  obtain ⟨rfl, hgen⟩ := h.start_eq_ok.mp hstart
  obtain ⟨record, blocks, hget, hhash, hext, hblocks⟩ := h.of_replaceDeepSuffix hheights hreplace
  obtain ⟨last, hlast⟩ := replaced_getLast? records hget
  obtain ⟨s₁, st₁, hcut, hfinish⟩ :=
    h.replaceDeepSuffix hget hhash hext hblocks hlast sealThrough
  rw [hreplace] at hfinish
  exact ⟨hgen, record, s₁, st₁, hget, hhash, hext, hcut, hfinish⟩

end

end Ztreamer
