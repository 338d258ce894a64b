import Ztreamer.Index.Answers

/-! # Reorg writes as a rebuild

    The tables of a chain whose ranges the range encoder wrote are a function of
    the chain and of the number of its sealed blocks
    (`Represents.tables_unique`). So a reorg write leaves the same tables as an
    index that appended the new chain from genesis, and what it must not touch
    is stated apart from that: the ranges and the range metadata below it.
-/

namespace Ztreamer

open Octets Result Connected

variable {ν : Type}

/-! ## Encoded ranges -/

/-- The range encoder wrote each sealed blob. -/
abbrev Store.PackedByEncoder (s : Store ν) : Prop :=
  s.AllRanges (∃ records, encodeRange records = .ok ·)

/-- Two stores have the same sealed ranges, mutable rows and hashes. -/
structure SameTables (s s' : Store ν) : Prop where
  sealedRanges : s.sealedRanges = s'.sealedRanges
  mutableBlocks : s.mutableBlocks = s'.mutableBlocks
  hashToHeight : s.hashToHeight = s'.hashToHeight

theorem sealedThrough_eq_iff {st st' : IndexState} :
    st.sealedThrough = st'.sealedThrough ↔ st.sealedEnd = st'.sealedEnd := by
  constructor
  · intro heq
    simp only [IndexState.sealedEnd, heq]
  · intro heq
    refine Option.ext fun through => ?_
    rw [IndexState.sealedThrough_eq_some_iff, IndexState.sealedThrough_eq_some_iff, heq]

theorem replaced_ne_nil {chain records : List CompactBlockRecord} {a : Nat}
    {r : CompactBlockRecord} (h : chain[a]? = some r) :
    replaced chain a records ≠ [] := by
  obtain ⟨last, hlast⟩ := replaced_getLast? records h
  intro hnil
  rw [hnil] at hlast
  cases hlast

section

variable [Proto.Prost]

/-- An index that only appends built: batches of any lengths and with any seals. -/
inductive Appended : Store ν → IndexState → List CompactBlockRecord → Prop where
  | empty : Appended Store.empty {} []
  | write {s s' : Store ν} {st st' : IndexState} {chain records : List CompactBlockRecord}
      {sealThrough : Option Nat} : Appended s st chain →
      s.write ⟨st.generation, sealThrough, records⟩ = .ok (s', st') →
      Appended s' st' (chain ++ records)

variable {heightOf : Hash → Nat} {s s' : Store ν} {st st' : IndexState}
  {chain records : List CompactBlockRecord}

/-- A blob of the encoder that stores a part of the chain is that part, encoded. -/
theorem StoresRange.encodeRange_eq {blob : Bytes} {start : Nat} (h : StoresRange blob chain start)
    (hencode : encodeRange records = .ok blob) :
    encodeRange ((chain.drop start).take rangeSize) = .ok blob := by
  obtain ⟨d, hnew, hread⟩ := h
  obtain ⟨d', hnew', hread'⟩ := RangeDecoder.recordAs_encodeRange CompactBlockRecord hencode
  obtain rfl : d = d' := Except.ok.inj (hnew.symm.trans hnew')
  have hlen : records.length = rangeSize := by
    obtain ⟨-, -, -, hlen, -⟩ := writeRange_eq_ok.mp hencode
    exact hlen
  have hsame : (chain.drop start).take rangeSize = records := by
    refine List.ext_getElem? fun i => ?_
    by_cases hi : i < rangeSize
    · obtain ⟨r, hr, hdecode⟩ := hread i hi
      obtain ⟨r', hr'⟩ : ∃ r', records[i]? = some r' := ⟨_, List.getElem?_eq_getElem (by omega)⟩
      have hdecode' : d.record i = .ok r' := (hread' i r' hr').1
      rw [hdecode] at hdecode'
      rw [List.getElem?_take_of_lt hi, List.getElem?_drop, hr, hr', Except.ok.inj hdecode']
    · rw [List.getElem?_eq_none (by rw [List.length_take]; omega), List.getElem?_eq_none (by omega)]
  rw [hsame, hencode]

/-- The tables of a chain, when the encoder wrote the ranges. -/
theorem Represents.tables_unique (h : Represents heightOf s st chain)
    (h' : Represents heightOf s' st' chain) (hpacked : s.PackedByEncoder)
    (hpacked' : s'.PackedByEncoder) (hsealed : st.sealedEnd = st'.sealedEnd) : SameTables s s' where
  sealedRanges := by
    refine Table.ext_rows fun start => ?_
    by_cases hkey : start % rangeSize = 0 ∧ start < st.sealedEnd
    · obtain ⟨blob, hblob, hstores⟩ := h.holds.sealed_range start hkey.1 hkey.2
      obtain ⟨blob', hblob', hstores'⟩ := h'.holds.sealed_range start hkey.1 (by omega)
      -- the encoder is a function of the records, and the chain determines those
      obtain ⟨records, hencode⟩ := hpacked start blob hblob
      obtain ⟨records', hencode'⟩ := hpacked' start blob' hblob'
      have hsame := (hstores.encodeRange_eq hencode).symm.trans (hstores'.encodeRange_eq hencode')
      rw [hblob, hblob', Except.ok.inj hsame]
    · rw [Table.get_eq_none (h.holds.sealed_key start) hkey,
        Table.get_eq_none (h'.holds.sealed_key start) (hsealed ▸ hkey)]
  mutableBlocks := by
    refine Table.ext_rows fun height => ?_
    by_cases hkey : st.sealedEnd ≤ height ∧ height < chain.length
    · obtain ⟨r, bytes, hr, hrow, hencode⟩ := h.holds.mutable_row height hkey.1 hkey.2
      obtain ⟨r', bytes', hr', hrow', hencode'⟩ := h'.holds.mutable_row height (by omega) hkey.2
      obtain rfl : r = r' := Option.some.inj (hr.symm.trans hr')
      rw [hrow, hrow', Except.ok.inj (hencode.symm.trans hencode')]
    · rw [Table.get_eq_none (h.holds.mutable_key height) hkey,
        Table.get_eq_none (h'.holds.mutable_key height) (hsealed ▸ hkey)]
  hashToHeight := by
    refine Table.ext_rows fun hash => Option.ext fun height => ?_
    have hfun := HeightOf.functional_ofFun heightOf
    rw [h.holds.hash_iff hfun, h'.holds.hash_iff hfun]

/-! ## Appending from genesis -/

/-- An index that appended a connected chain represents it, and its ranges are
    encoded. -/
theorem Appended.represents (h : Appended s st chain) (hconnected : Connected heightOf chain) :
    Represents heightOf s st chain ∧ s.PackedByEncoder := by
  induction h with
  | empty =>
    refine ⟨represents_empty, ?_⟩
    intro start blob hblob
    simp [Store.empty] at hblob
  | @write s s' st st' chain records sealThrough _ hwrite ih =>
    have hchain : Connected heightOf chain := by
      have htake := hconnected.take chain.length
      rwa [List.take_left] at htake
    obtain ⟨hrep, hpacked⟩ := ih hchain
    simp only [Store.write, bind_eq_ok, okMapError_eq_ok] at hwrite
    obtain ⟨encoded, hencode, hwrite⟩ := hwrite
    have hext := hconnected.extends_of_append
    have hne : records ≠ [] := by
      rintro rfl
      obtain ⟨hblocks, -⟩ := WriteBatch.encode_eq_ok.mp hencode
      cases encoded with
      | mk baseGeneration through blocks sizes =>
        simp only [EncodedAs, List.forall₂_nil_left_iff] at hblocks
        subst hblocks
        simp only [Store.writeEncoded, bind_eq_ok] at hwrite
        obtain ⟨w, -, happend⟩ := hwrite
        simp [Writer.append] at happend
    obtain ⟨hrep', -, hranges⟩ :=
      hrep.writeEncoded hencode hne hext.isChain hext.heightOf_hash hwrite
    exact ⟨hrep', hpacked.of_rangesFrom (fun _ _ h => ⟨_, h⟩) hranges (by simp)⟩

/-- The records of an index with encoded ranges can be encoded again. -/
theorem Represents.encodedAs (h : Represents heightOf s st chain) (hpacked : s.PackedByEncoder) :
    ∃ blocks, EncodedAs chain blocks := by
  refine exists_encodedAs fun r hr => ?_
  obtain ⟨height, hget⟩ := List.mem_iff_getElem?.mp hr
  have hlt := (List.getElem?_eq_some_iff.mp hget).1
  by_cases hsealed : height < st.sealedEnd
  · have hle := rangeStart_le height
    have hmod := rangeStart_mod height
    obtain ⟨blob, hblob, hstores⟩ := h.holds.sealed_range (rangeStart height) hmod (by omega)
    obtain ⟨records, hencode⟩ := hpacked _ blob hblob
    obtain ⟨d, -, hread⟩ := RangeDecoder.recordAs_encodeRange CompactBlockRecord
      (hstores.encodeRange_eq hencode)
    have hpart : ((chain.drop (rangeStart height)).take rangeSize)[height - rangeStart height]? =
        some r := by
      have hnear := rangeStart_add_mod height
      have hsmall : height % rangeSize < rangeSize := Nat.mod_lt _ (by decide)
      rw [List.getElem?_take_of_lt (by omega), List.getElem?_drop, Nat.add_sub_cancel' hle, hget]
    obtain ⟨part, hpart', -⟩ := (hread _ r hpart).2
    exact ⟨part, hpart'⟩
  · obtain ⟨r', bytes, hr', -, hencode⟩ := h.holds.mutable_row height (by omega) hlt
    rw [hget] at hr'
    cases hr'
    exact ⟨bytes, hencode⟩

/-- A chain can be appended from genesis and sealed up to any range. -/
theorem Connected.exists_appended {sealed : Nat} (hconnected : Connected heightOf chain)
    {blocks : List EncodedBlock} (hblocks : EncodedAs chain blocks) (hne : chain ≠ [])
    (hmod : sealed % rangeSize = 0) (hle : sealed ≤ chain.length)
    (hroom : chain.length + rangeSize ≤ 2 ^ 32) :
    ∃ (s : Store ν) (st : IndexState), Appended s st chain ∧ st.sealedEnd = sealed := by
  have hlast := List.getLast?_eq_some_getLast hne
  have hext : Extends heightOf [] chain := by
    have hsplit : Connected heightOf ([] ++ chain) := hconnected
    exact hsplit.extends_of_append
  have htarget : sealTarget (if sealed = 0 then none else some (sealed - 1)) 0 chain.length =
      sealed := by
    split
    · simp only [sealTarget, Option.elim_none]
      omega
    · simp only [sealTarget, Option.elim_some, rangeSize] at hmod ⊢
      omega
  have hfinish := (represents_empty (ν := ν)).write hblocks hlast hext
    (if sealed = 0 then none else some (sealed - 1))
  rcases hfinish with ⟨-, hnear⟩ | ⟨out, hok, hrest⟩
  · simp only [NearOverflow, List.nil_append, IndexState.withDurableTip] at hnear
    omega
  · obtain ⟨-, -, hsealed, -⟩ := Finishes.of_ok (.inr ⟨out, hok, hrest⟩) hok
    exact ⟨out.1, out.2, .write .empty hok, hsealed.trans htarget⟩

/-! ## Reorg writes -/

/-- The tables are those of an index that appended `chain` from genesis and sealed
    the same ranges. Such an index exists while a range above the chain has
    heights. -/
structure Rebuilt (s : Store ν) (st : IndexState) (chain : List CompactBlockRecord) : Prop where
  same : ∀ (s₀ : Store ν) (st₀ : IndexState), Appended s₀ st₀ chain →
    st₀.sealedThrough = st.sealedThrough → SameTables s s₀
  exists_same : chain.length + rangeSize ≤ 2 ^ 32 →
    ∃ (s₀ : Store ν) (st₀ : IndexState), Appended s₀ st₀ chain ∧
      st₀.sealedThrough = st.sealedThrough

theorem Represents.rebuilt (h : Represents heightOf s st chain) (hpacked : s.PackedByEncoder)
    (hne : chain ≠ []) : Rebuilt s st chain where
  same s₀ st₀ happended heq := by
    obtain ⟨hrep, hpacked₀⟩ := happended.represents h.connected
    exact h.tables_unique hrep hpacked hpacked₀ (sealedThrough_eq_iff.mp heq.symm)
  exists_same hroom := by
    obtain ⟨blocks, hblocks⟩ := h.encodedAs hpacked
    obtain ⟨s₀, st₀, happended, hsealed⟩ := h.connected.exists_appended hblocks hne
      h.holds.sealed_aligned h.holds.sealed_le hroom
    exact ⟨s₀, st₀, happended, sealedThrough_eq_iff.mpr hsealed⟩

section

variable (h : Represents heightOf s st chain) (hpacked : s.PackedByEncoder) {g : Nat} {a : BlockId}
  {sealThrough : Option Nat} (hheights : ∀ r ∈ records, heightOf r.hash = r.height.val)

include h hpacked hheights

/-- What a replacement of the mutable rows above `a` leaves. -/
theorem Represents.replaceMutableSuffix_rebuilds
    (hok : s.replaceMutableSuffix g a records sealThrough = .ok (s', st')) :
    Rebuilt s' st' (replaced chain a.height records) ∧
    (∀ (start : Nat) (blob : Bytes), s.sealedRanges[start]? = some blob →
      s'.sealedRanges[start]? = some blob) ∧ s'.rangeMeta = s.rangeMeta := by
  obtain ⟨-, _, last, hget, -, hfinish⟩ := h.of_mutableReorg hheights hok
  obtain ⟨hrep, -, -, hranges⟩ := hfinish.of_ok rfl
  obtain ⟨-, -, hpacks⟩ := hfinish.ok
  have hpacked' := hpacked.of_rangesFrom (fun _ _ h => ⟨_, h⟩) hranges (by simp)
  refine ⟨hrep.rebuilt hpacked' (replaced_ne_nil hget), ?_, hpacks.rangeMeta⟩
  intro start blob hblob
  rw [hpacks.old start (h.holds.sealed_key start blob hblob).2, hblob]

/-- What a rebuild of the ranges from that of `a` on leaves. -/
theorem Represents.replaceDeepSuffix_rebuilds
    (hok : s.replaceDeepSuffix g a records sealThrough = .ok (s', st')) :
    Rebuilt s' st' (replaced chain a.height records) ∧
    (∀ (start : Nat) (blob : Bytes), start < rangeStart a.height →
      s.sealedRanges[start]? = some blob → s'.sealedRanges[start]? = some blob) ∧
    (∀ start : Nat, start < rangeStart a.height → s'.rangeMeta[start]? = s.rangeMeta[start]?) ∧
    (∀ start : Nat, rangeStart a.height ≤ start → s'.rangeMeta[start]? = none) := by
  obtain ⟨-, _, s₁, st₁, hget, -, -, hcut, hfinish⟩ := h.of_deepReorg hheights hok
  obtain ⟨hrep, -, -, hranges⟩ := hfinish.of_ok rfl
  obtain ⟨-, -, hpacks⟩ := hfinish.ok
  have hend := hcut.sealedEnd
  have hpacked₁ : s₁.PackedByEncoder := by
    intro start blob hblob
    rw [hcut.sealedRanges] at hblob
    split at hblob
    · exact hpacked start blob hblob
    · cases hblob
  have hpacked' := hpacked₁.of_rangesFrom (fun _ _ h => ⟨_, h⟩) hranges (by simp)
  refine ⟨hrep.rebuilt hpacked' (replaced_ne_nil hget), ?_, ?_, ?_⟩
  · intro start blob hlt hblob
    have hsealed := (h.holds.sealed_key start blob hblob).2
    rw [hpacks.old start (by omega), hcut.sealedRanges, if_pos (by omega), hblob]
  · intro start hlt
    rw [hpacks.rangeMeta, hcut.rangeMeta]
    split
    · rfl
    · -- a row above the sealed blocks does not exist
      rename_i hge
      rw [eq_comm, Option.eq_none_iff_forall_ne_some]
      intro info hinfo
      have := (h.holds.range_meta start info hinfo).2.1
      omega
  · intro start hge
    rw [hpacks.rangeMeta, hcut.rangeMeta, if_neg (by omega)]

end

/-- Reorg writes equal a rebuild of the new chain, and touch nothing below it. -/
theorem reorg_writes_rebuild [Blake3] (hreach : Reachable (Call.Honest heightOf) s)
    (hpacked : s.PackedByEncoder) (g : Nat) (a : BlockId) (records : List CompactBlockRecord)
    (sealThrough : Option Nat) (hheights : ∀ r ∈ records, heightOf r.hash = r.height.val) :
    ∃ st chain, Represents heightOf s st chain ∧
      (∀ s' st', s.replaceDeepSuffix g a records sealThrough = .ok (s', st') →
        Rebuilt s' st' (chain.take (a.height + 1) ++ records) ∧
        (∀ (start : Nat) (blob : Bytes), start < rangeStart a.height →
          s.sealedRanges[start]? = some blob → s'.sealedRanges[start]? = some blob) ∧
        (∀ start : Nat, start < rangeStart a.height →
          s'.rangeMeta[start]? = s.rangeMeta[start]?) ∧
        (∀ start : Nat, rangeStart a.height ≤ start → s'.rangeMeta[start]? = none)) ∧
      (∀ s' st', s.replaceMutableSuffix g a records sealThrough = .ok (s', st') →
        Rebuilt s' st' (chain.take (a.height + 1) ++ records) ∧
        (∀ (start : Nat) (blob : Bytes), s.sealedRanges[start]? = some blob →
          s'.sealedRanges[start]? = some blob) ∧
        (∀ start : Nat, start < rangeStart a.height →
          s'.rangeMeta[start]? = s.rangeMeta[start]?)) := by
  obtain ⟨st, chain, hrep⟩ := hreach.represents fun _ hc => hc
  refine ⟨st, chain, hrep, ?_, ?_⟩
  · intro s' st' hok
    exact hrep.replaceDeepSuffix_rebuilds hpacked hheights hok
  · intro s' st' hok
    obtain ⟨hrebuilt, hold, hmeta⟩ := hrep.replaceMutableSuffix_rebuilds hpacked hheights hok
    exact ⟨hrebuilt, hold, fun start _ => by rw [hmeta]⟩

end

section

attribute [local instance] Proto.wireDecoder zeroDigest

/-- Twenty blocks lie above a sealed range. One reorg replaces the last ten of them, and a
    deep reorg the blocks from 500 on, with a sealed range again. -/
theorem reorg_writes_rebuild_plain : ∃ (s s₁ s₂ : Store Unit) (st st₁ st₂ : IndexState),
    Reachable (Call.Honest plainHeight) s ∧ s.PackedByEncoder ∧ s.getState = .ok st ∧
    st.sealedThrough = some 999 ∧
    s.replaceMutableSuffix 1020 (plainRecord 5000 1009).blockId ((plainRecords 1010 1015).drop 1010)
      none = .ok (s₁, st₁) ∧
    Rebuilt s₁ st₁ ((plainRecords 5000 1020).take 1010 ++ (plainRecords 1010 1015).drop 1010) ∧
    s.replaceDeepSuffix 1020 (plainRecord 5000 499).blockId ((plainRecords 500 1200).drop 500)
      (some 999) = .ok (s₂, st₂) ∧
    Rebuilt s₂ st₂ ((plainRecords 5000 1020).take 500 ++ (plainRecords 500 1200).drop 500) := by
  obtain ⟨s, st, hreach, hrep, hsealed, hgen, -⟩ : ∃ (s : Store Unit) (st : IndexState),
      Reachable (fun c => c.Honest plainHeight ∧ c.blob? = none) s ∧ _ :=
    reachable_plain 5000 (n := 1020) (by decide) (some 999) fun _ hhonest _ => ⟨hhonest, rfl⟩
  have hsealed : st.sealedEnd = 1000 := hsealed.trans (by decide)
  have hpacked : s.PackedByEncoder :=
    hreach.allRanges (fun _ _ h => ⟨_, h⟩) fun c hc => ⟨hc.1.1, by simp [hc.2]⟩
  have hreach := hreach.mono fun _ hc => hc.1
  have hcommon {fork length m : Nat} (hm : m + 1 ≤ fork) (hm' : m + 1 ≤ length) (h : m < 1020) :
      (plainRecords 5000 1020).take (m + 1) = (plainRecords fork length).take (m + 1) :=
    branchRecords_take_eq (by omega) hm (by omega) hm'
  -- the mutable blocks
  have hfork := plainBlocks_nodeChain 1010 (n := 1015) (by decide)
  obtain ⟨_, hencoded⟩ := hfork.encodedAs
  obtain ⟨common, s₁, st₁, hget, hmutable⟩ := hrep.mutableReorgs (m := 1009)
    (by rw [length_branchRecords]; decide) (hcommon (by decide) (by decide) (by decide))
    hfork.connected hencoded (by rw [length_branchRecords]; decide) (by omega) none (by omega)
  rw [plainRecords, branchRecords_getElem? (by decide), Option.some.injEq] at hget
  rw [hgen, ← hget] at hmutable
  -- the sealed range
  have hfork' := plainBlocks_nodeChain 500 (n := 1200) (by decide)
  obtain ⟨_, hencoded'⟩ := hfork'.encodedAs
  obtain ⟨common', s₂, st₂, -, hget', hdeep, -⟩ := hrep.deepReorgs (m := 499)
    (by rw [length_branchRecords]; decide) (hcommon (by decide) (by decide) (by decide))
    hfork'.connected hencoded' (by rw [length_branchRecords]; decide) (by omega) (some 999)
  rw [plainRecords, branchRecords_getElem? (by decide), Option.some.injEq] at hget'
  rw [hgen, ← hget'] at hdeep
  obtain ⟨_, _, hrep₁, -, hrebuilds⟩ := reorg_writes_rebuild hreach hpacked 1020
    (plainRecord 5000 1009).blockId ((plainRecords 1010 1015).drop 1010) none fun r hr =>
      hfork.connected.heightOf_hash r (List.mem_of_mem_drop hr)
  obtain ⟨_, _, hrep₂, hrebuilds', -⟩ := reorg_writes_rebuild hreach hpacked 1020
    (plainRecord 5000 499).blockId ((plainRecords 500 1200).drop 500) (some 999) fun r hr =>
      hfork'.connected.heightOf_hash r (List.mem_of_mem_drop hr)
  rw [hrep₁.chain_unique hrep] at hrebuilds
  rw [hrep₂.chain_unique hrep] at hrebuilds'
  exact ⟨s, s₁, s₂, st, st₁, st₂, hreach, hpacked, hrep.state,
    IndexState.sealedThrough_eq_some_iff.mpr hsealed, hmutable, (hrebuilds _ _ hmutable).1, hdeep,
    (hrebuilds' _ _ hdeep).1⟩

end

end Ztreamer
