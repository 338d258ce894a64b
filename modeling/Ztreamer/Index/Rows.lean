import Ztreamer.Index.Reachable

/-! # Rows of range metadata

    What a call does to the rows of `rangeMeta`, to the ranges they describe and to
    the chain. Every call but an install and a write of metadata only keeps rows or
    deletes them, and a row that is kept has its blob kept too. Only a deep reorg
    deletes rows.

    * `RangeMeta.DescribesBlob`: the row of a blob,
    * `Call.Effect`, `Call.Commits.effect`: where the blocks and the rows after a
      call come from.
-/

namespace Ztreamer

open Octets Result Connected

variable {ν : Type} {heightOf : HeightOf} {s s' : Store ν} {st st' : IndexState}
  {chain chain' : List CompactBlockRecord} [Proto.Prost]

variable {start : Nat} {info : RangeMeta ν}

omit [Proto.Prost] in
theorem Store.putRangeMeta_eq (h : s.putRangeMeta start info = .ok s') :
    s' = { s with rangeMeta := s.rangeMeta.insert start info } := by
  simp only [Store.putRangeMeta, bind_eq_ok, pure_eq_ok, Except.ok.injEq] at h
  obtain ⟨_, -, _, -, _, -, _, -, rfl⟩ := h
  rfl

/-! ## Kept rows -/

/-- The row is kept, with the blob of its range. -/
structure KeepsRow (s s' : Store ν) (start : Nat) (info : RangeMeta ν) : Prop where
  row : s.rangeMeta[start]? = some info
  blob : s'.sealedRanges[start]? = s.sealedRanges[start]?

/-- A row is that of a whole sealed range. -/
theorem Represents.row_end_le (h : Represents heightOf s st chain)
    (hrow : s.rangeMeta[start]? = some info) : start + rangeSize ≤ st.sealedEnd := by
  obtain ⟨hstart, hlt, -⟩ := h.holds.range_meta start info hrow
  have haligned := h.holds.sealed_aligned
  simp only [rangeSize] at *
  omega

variable {n : Nat} {blob : Bytes} {batch : WriteBatch} {encoded : EncodedBatch}

/-- A write that seals and commits keeps the rows below the ranges that it cuts off. -/
theorem Finishes.keepsRow {s₁ : Store ν} {st₁ : IndexState} {sealThrough : Option Nat}
    (hcut : CutAt s st n s₁ st₁)
    (hfinish : Finishes heightOf s₁ st₁ chain' sealThrough (.ok (s', st')))
    (hrow : s'.rangeMeta[start]? = some info) : KeepsRow s s' start info := by
  obtain ⟨-, -, hpacks⟩ := hfinish.ok
  rw [hpacks.rangeMeta, hcut.rangeMeta] at hrow
  split at hrow
  next hlt =>
    refine ⟨hrow, ?_⟩
    rw [hpacks.old start (hcut.sealedEnd.symm ▸ hlt), hcut.sealedRanges, if_pos hlt]
  next => cases hrow

/-! ## Installed rows -/

/-- The row has the length and the digest of the blob, and the end of its last record. -/
structure RangeMeta.DescribesBlob [Blake3] (info : RangeMeta ν) (blob : Bytes) : Prop where
  length : blob.length = info.entry.blobLen.val
  digest : Blake3.hash blob = info.entry.blobDigest
  last : ∃ last, RangeDecoder.decodeRangeRecord blob (rangeSize - 1) = .ok last ∧
    last.height = info.entry.endHeight ∧ last.hash = info.entry.endHash ∧
    last.endTreeSizes = info.entry.endTreeSizes

/-- An install writes the row next to its range. -/
theorem InstallsOn.rows (h : InstallsOn heightOf s st chain blob info (s', st')) :
    s'.rangeMeta = s.rangeMeta.insert chain.length info ∧
      s'.sealedRanges = s.sealedRanges.insert chain.length blob ∧
      info.entry.startHeight.val = chain.length ∧
      ∃ last, RangeDecoder.decodeRangeRecord blob (rangeSize - 1) = .ok last ∧
        last.height = info.entry.endHeight ∧ last.hash = info.entry.endHash ∧
        last.endTreeSizes = info.entry.endTreeSizes := by
  obtain ⟨-, first, rest, hrecords, -, hok⟩ := h
  simp only [Writer.install, Writer.commit, bind_eq_ok, ensure_eq_ok, okOr_eq_ok, pure_eq_ok,
    Except.ok.injEq, Prod.mk.injEq] at hok
  obtain ⟨-, ⟨-, hstart, hheight, hhash, hsizes, -⟩, w₁, hhashes, w₂, hput, -, -, tip, -, htables,
    -⟩ := hok
  obtain rfl := foldlM_putNewHash_eq_ok hhashes
  obtain ⟨hw₂, -⟩ := putSealedRange_eq_ok hput
  obtain ⟨d, hnew, hread⟩ := hrecords.decoder
  have hlast : (first :: rest)[rangeSize - 1]? = some (RangeChain.ofRecords first rest).last := by
    rw [← hrecords.length_eq, ← List.getLast?_eq_getElem?, List.getLast?_eq_some_getLast (by simp)]
    rfl
  refine ⟨?_, ?_, hstart, _, ?_, hheight.symm, hhash.symm, hsizes.symm⟩
  · rw [← htables]
    show w₂.tables.rangeMeta = _
    rw [hw₂]
  · rw [← htables]
    show w₂.tables.sealedRanges = _
    rw [hw₂]
  · rw [RangeDecoder.decodeRangeRecord, hnew]
    exact hread _ _ hlast

/-! ## One call -/

variable [Blake3]

/-- Each block after the call was there or is one of the call. Each row was there, or the
    call wrote it: as metadata, or with the blob that it describes. -/
structure Call.Effect (c : Call ν) (s s' : Store ν) (chain chain' : List CompactBlockRecord) :
    Prop where
  blocks : ∀ r ∈ chain', r ∈ chain ∨ c.Brings r
  rows : ∀ (start : Nat) (info : RangeMeta ν), s'.rangeMeta[start]? = some info →
    KeepsRow s s' start info ∨ c = .putRangeMeta start info ∨
      ∃ blob, c.Installs blob info ∧ info.entry.startHeight.val = start ∧
        s'.sealedRanges[start]? = some blob ∧ info.DescribesBlob blob

section

variable {c : Call ν} (h : Represents heightOf s st chain) (hbuilder : c.FromBuilder)
  (hrespects : c.Respects heightOf) (hcommits : c.Commits s s' st')

include h hbuilder hrespects hcommits

/-- Only a deep reorg deletes rows. -/
theorem Call.Commits.keepsRow (hdeep : ¬c.IsDeepReorg) (hrow : s.rangeMeta[start]?.isSome) :
    s'.rangeMeta[start]?.isSome := by
  obtain ⟨info, hinfo⟩ := Option.isSome_iff_exists.mp hrow
  have hend := h.row_end_le hinfo
  cases hcommits.wrote h hbuilder hrespects with
  | blocks hcut _ _ _ hbound _ _ hfinish =>
    obtain ⟨-, -, hpacks⟩ := hfinish.ok
    rcases hbound with rfl | ⟨_, _, _, _, rfl, -⟩
    · rwa [hpacks.rangeMeta, hcut.rangeMeta, if_pos (by simp only [rangeSize] at hend; omega)]
    · exact absurd trivial hdeep
  | range _ _ _ hinstall =>
    rw [hinstall.rows.1, Table.get_put]
    split
    · rfl
    · exact hrow
  | row hput _ =>
    obtain rfl := Store.putRangeMeta_eq hput
    rw [Table.get_put]
    split
    · rfl
    · exact hrow

/-- What a committed call does to the chain and to the rows. -/
theorem Call.Commits.effect :
    ∃ chain', Represents heightOf s' st' chain' ∧ c.Effect s s' chain chain' := by
  cases hcommits.wrote h hbuilder hrespects with
  | blocks hcut _ _ _ _ _ hbrings hfinish =>
    refine ⟨_, hfinish.ok.1, fun r hr => ?_, fun start info hrow => ?_⟩
    · exact (List.mem_append.mp hr).imp List.mem_of_mem_take (hbrings r)
    · exact .inl (hfinish.keepsRow hcut hrow)
  | @range _ blob info hinstalls hblob hbrings hinstall =>
    obtain ⟨hmeta, hranges, hstart, hlast⟩ := hinstall.rows
    obtain ⟨records, hrecords, hrep, -⟩ := hinstall.installed h
    obtain ⟨hlength, hdigest⟩ := ManifestEntry.checkBlob_eq_ok.mp hblob
    refine ⟨_, hrep, fun r hr => ?_, fun start info' hrow => ?_⟩
    · refine (List.mem_append.mp hr).imp_right fun hr => ?_
      obtain ⟨i, hi⟩ := hrecords.decodes hr
      exact hbrings r i hi
    · rw [hmeta, Table.get_put] at hrow
      split at hrow
      next heq =>
        cases hrow
        refine .inr (.inr ⟨blob, hinstalls, hstart.trans heq, ?_, hlength, hdigest, hlast⟩)
        rw [hranges, Table.get_put, if_pos heq]
      next hne =>
        refine .inl ⟨hrow, ?_⟩
        rw [hranges, Table.get_put, if_neg hne]
  | row hput hstate =>
    refine ⟨chain, hstate ▸ (h.putRangeMeta hput).1, fun r hr => .inl hr, ?_⟩
    intro start' info' hrow
    obtain rfl := Store.putRangeMeta_eq hput
    rw [Table.get_put] at hrow
    split at hrow
    next heq =>
      cases hrow
      cases heq
      exact .inr (.inl rfl)
    next => exact .inl ⟨hrow, rfl⟩

end

end Ztreamer
