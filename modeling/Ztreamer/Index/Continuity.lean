import Ztreamer.Index.Reachable

/-! # The check of an index that is opened

    The check reads the first and the last record of each sealed range, and every
    mutable row. It compares their keys, links and hash entries, and the tip with
    the state.

    * `Store.verifyContinuity`: the check,
    * `Store.verifyContinuity_eq_ok`: what it has found when it accepts,
    * `Represents.verifyContinuity`: it accepts the tables of a chain.
-/

namespace Ztreamer

open Octets Result

variable {ν : Type}

/-! ## The check -/

/-- How far the check has come: the next height, and the hash of the block below it. -/
structure Continuity where
  nextHeight : Nat
  previousHash : Option Hash

namespace Store

/-- Some block table has a row. -/
def hasBlocks (s : Store ν) : Bool :=
  !s.sealedRanges.isEmpty || !s.mutableBlocks.isEmpty || !s.hashToHeight.isEmpty

/-- The hash of `record` must map to its height. -/
def checkHash (s : Store ν) (record : CompactBlockRecord) : Except IndexError Unit :=
  ensure (s.hashToHeight[record.hash]? = some record.height.val) (.hashIndex record.height.val)

/-- A row of `rangeMeta` must be of a sealed range. -/
def checkMetaKey (s : Store ν) (start : Nat) : Except IndexError Unit :=
  ensure (start = rangeStart start ∧ start ∈ s.sealedRanges) (.rangeMeta start)

section

variable [Proto.Prost]

/-- Checks the two ends of a sealed range. The height in an error has 32 bits. -/
def checkSealedRange (s : Store ν) (acc : Continuity) (entry : Nat × Bytes) :
    Except IndexError Continuity := do
  let (start, bytes) := entry
  ensure (start = acc.nextHeight) (.continuity (acc.nextHeight % 2 ^ 32))
  let first ← okMapError (RangeDecoder.decodeRangeRecord bytes 0) .codec
  let last ← okMapError (RangeDecoder.decodeRangeRecord bytes (rangeSize - 1)) .codec
  ensure (∀ hash ∈ acc.previousHash, first.previousHash = hash) (.continuity start)
  s.checkHash first
  s.checkHash last
  return ⟨acc.nextHeight + rangeSize, some last.hash⟩

/-- Checks a mutable row. -/
def checkMutableBlock (s : Store ν) (acc : Continuity) (entry : Nat × Bytes) :
    Except IndexError Continuity := do
  let (height, bytes) := entry
  ensure (height = acc.nextHeight) (.continuity (acc.nextHeight % 2 ^ 32))
  let record ← okMapError (CompactBlockRecord.decode bytes) .codec
  ensure (record.height.val = height ∧ ∀ hash ∈ acc.previousHash, record.previousHash = hash)
    (.continuity height)
  s.checkHash record
  return ⟨acc.nextHeight + 1, some record.hash⟩

/-- The record at the tip, from the table that holds it. -/
def tipRecord (s : Store ν) (st : IndexState) (tip : BlockId) :
    Except IndexError CompactBlockRecord :=
  if tip.height < st.sealedEnd then do
    let found ← s.find tip.height
    let range ← okOr found (.continuity tip.height)
    okMapError (range.read CompactBlockRecord tip.height) .codec
  else do
    let bytes ← okOr s.mutableBlocks[tip.height]? (.continuity tip.height)
    okMapError (CompactBlockRecord.decode bytes) .codec

/-- Checks the summaries of the sealed ranges and every mutable row. A decoded state
    is not sealed above its tip, so the number of its mutable rows does not wrap. -/
def verifyContinuity (s : Store ν) (st : IndexState) : Except IndexError Unit :=
  match st.durableTip with
  | none => ensure (s.hasBlocks = false ∧ s.rangeMeta.keys = []) .metadata
  | some tip => do
    let _ ← s.rangeMeta.keys.mapM s.checkMetaKey
    ensure (s.sealedRanges.size = st.sealedEnd / rangeSize ∧
      s.mutableBlocks.size = tip.height + 1 - st.sealedEnd ∧
      s.hashToHeight.size = tip.height + 1) (.continuity 0)
    let acc ← s.sealedRanges.toList.foldlM s.checkSealedRange ⟨0, none⟩
    ensure (acc.nextHeight = st.sealedEnd) (.continuity (acc.nextHeight % 2 ^ 32))
    let acc ← s.mutableBlocks.toList.foldlM s.checkMutableBlock acc
    let record ← s.tipRecord st tip
    ensure (acc.nextHeight = tip.height + 1 ∧ acc.previousHash = some tip.hash ∧
      st.treeSizes = record.endTreeSizes) (.continuity tip.height)

/-- The state of an index that passes the check. -/
def verify (s : Store ν) : Except IndexError IndexState := do
  let st ← s.getState
  s.verifyContinuity st
  return st

end

end Store

/-! ## What the check reads -/

/-- The two ends of the blocks under one key: a sealed range, or a mutable row, whose
    ends are one record. -/
structure Segment where
  start : Nat
  first : CompactBlockRecord
  last : CompactBlockRecord

namespace Continuity

/-- The segment starts at the next height and links to the block below it. -/
def Fits (acc : Continuity) (g : Segment) : Prop :=
  g.start = acc.nextHeight ∧ ∀ hash ∈ acc.previousHash, g.first.previousHash = hash

/-- After a segment of `step` blocks. -/
def after (step : Nat) (acc : Continuity) (g : Segment) : Continuity :=
  ⟨acc.nextHeight + step, some g.last.hash⟩

/-- The segments follow each other, the first one after `acc`. -/
structure Runs (step : Nat) (acc : Continuity) (gs : List Segment) : Prop where
  start : ∀ (i : Nat) (g : Segment), gs[i]? = some g → g.start = acc.nextHeight + step * i
  first : ∀ g ∈ gs.head?, ∀ hash ∈ acc.previousHash, g.first.previousHash = hash
  link : ∀ (i : Nat) (below g : Segment), gs[i]? = some below → gs[i + 1]? = some g →
    g.first.previousHash = below.last.hash

theorem foldl_after (step : Nat) (acc : Continuity) (gs : List Segment) :
    gs.foldl (after step) acc = ⟨acc.nextHeight + step * gs.length,
      (gs.getLast?.map fun g => g.last.hash).or acc.previousHash⟩ := by
  induction gs generalizing acc with
  | nil => simp
  | cons g gs ih =>
    rw [List.foldl_cons, ih, List.length_cons, List.getLast?_cons]
    simp only [after, mk.injEq]
    refine ⟨by ring, ?_⟩
    cases gs.getLast? <;> rfl

theorem runs_iff {step : Nat} {acc : Continuity} {gs : List Segment} :
    Runs step acc gs ↔
      ∀ i g, gs[i]? = some g → ((gs.take i).foldl (after step) acc).Fits g := by
  have hlength : ∀ {i g}, gs[i]? = some g → (gs.take i).length = i := by
    intro i g hi
    have := (List.getElem?_eq_some_iff.mp hi).1
    rw [List.length_take]
    omega
  simp only [foldl_after, Fits]
  constructor
  · intro h i g hi
    rw [hlength hi]
    refine ⟨h.start i g hi, ?_⟩
    cases i with
    | zero => exact h.first g (by rw [List.head?_eq_getElem?]; exact hi)
    | succ i =>
      have hlt := (List.getElem?_eq_some_iff.mp hi).1
      intro hash hhash
      rw [List.take_add_one, List.getElem?_eq_getElem (by omega), Option.toList_some,
        List.getLast?_concat] at hhash
      cases hhash
      exact h.link i _ g (List.getElem?_eq_getElem _) hi
  · intro h
    constructor
    · intro i g hi
      have hstart := (h i g hi).1
      rwa [hlength hi] at hstart
    · intro g hg hash hhash
      rw [List.head?_eq_getElem?] at hg
      exact (h 0 g hg).2 hash (by simpa using hhash)
    · intro i below g hbelow hg
      refine (h (i + 1) g hg).2 _ ?_
      rw [List.take_add_one, hbelow, Option.toList_some, List.getLast?_concat]
      rfl

end Continuity

namespace Store

/-- The hash of the record maps to its height. -/
def HasHash (s : Store ν) (r : CompactBlockRecord) : Prop :=
  s.hashToHeight[r.hash]? = some r.height.val

variable [Proto.Prost]

/-- The ends of a sealed range have their hash entries. -/
def SealedEnds (s : Store ν) (entry : Nat × Bytes) (g : Segment) : Prop :=
  g.start = entry.1 ∧ RangeDecoder.decodeRangeRecord entry.2 0 = .ok g.first ∧
    RangeDecoder.decodeRangeRecord entry.2 (rangeSize - 1) = .ok g.last ∧
    s.HasHash g.first ∧ s.HasHash g.last

/-- The record of a mutable row has the height of its key and its hash entry. -/
def MutableRow (s : Store ν) (entry : Nat × Bytes) (g : Segment) : Prop :=
  g.start = entry.1 ∧ CompactBlockRecord.decode entry.2 = .ok g.first ∧ g.last = g.first ∧
    g.first.height.val = entry.1 ∧ s.HasHash g.first

theorem checkSealedRange_eq_ok (s : Store ν) (acc : Continuity) (entry : Nat × Bytes)
    (acc' : Continuity) :
    s.checkSealedRange acc entry = .ok acc' ↔
      ∃ g, s.SealedEnds entry g ∧ acc.Fits g ∧ acc.after rangeSize g = acc' := by
  simp only [checkSealedRange, checkHash, bind_eq_ok, ensure_eq_ok, okMapError_eq_ok, pure_eq_ok,
    Except.ok.injEq]
  constructor
  · rintro ⟨_, hstart, first, hfirst, last, hlast, _, hlink, _, hfirstHash, _, hlastHash, h⟩
    exact ⟨⟨entry.1, first, last⟩, ⟨rfl, hfirst, hlast, hfirstHash, hlastHash⟩, ⟨hstart, hlink⟩, h⟩
  · rintro ⟨g, ⟨hkey, hfirst, hlast, hfirstHash, hlastHash⟩, ⟨hstart, hlink⟩, h⟩
    exact ⟨(), hkey ▸ hstart, g.first, hfirst, g.last, hlast, (), hlink, (), hfirstHash, (),
      hlastHash, h⟩

theorem checkMutableBlock_eq_ok (s : Store ν) (acc : Continuity) (entry : Nat × Bytes)
    (acc' : Continuity) :
    s.checkMutableBlock acc entry = .ok acc' ↔
      ∃ g, s.MutableRow entry g ∧ acc.Fits g ∧ acc.after 1 g = acc' := by
  simp only [checkMutableBlock, checkHash, bind_eq_ok, ensure_eq_ok, okMapError_eq_ok, pure_eq_ok,
    Except.ok.injEq]
  constructor
  · rintro ⟨_, hkey, record, hdecode, _, ⟨hheight, hlink⟩, _, hhash, h⟩
    exact ⟨⟨entry.1, record, record⟩, ⟨rfl, hdecode, rfl, hheight, hhash⟩, ⟨hkey, hlink⟩, h⟩
  · rintro ⟨g, ⟨hstart, hdecode, hlast, hheight, hhash⟩, ⟨hkey, hlink⟩, h⟩
    rw [Continuity.after, hlast] at h
    exact ⟨(), hstart ▸ hkey, g.first, hdecode, (), ⟨hheight, hlink⟩, (), hhash, h⟩

variable {s : Store ν} {acc acc' : Continuity} {entries : List (Nat × Bytes)} {st : IndexState}
  {tip : BlockId}

theorem foldlM_checkSealedRange_eq_ok :
    entries.foldlM s.checkSealedRange acc = .ok acc' ↔
      ∃ gs, List.Forall₂ s.SealedEnds entries gs ∧ acc.Runs rangeSize gs ∧
        gs.foldl (Continuity.after rangeSize) acc = acc' := by
  simp only [Continuity.runs_iff]
  exact foldlM_eq_ok_scan s.checkSealedRange_eq_ok

theorem foldlM_checkMutableBlock_eq_ok :
    entries.foldlM s.checkMutableBlock acc = .ok acc' ↔
      ∃ gs, List.Forall₂ s.MutableRow entries gs ∧ acc.Runs 1 gs ∧
        gs.foldl (Continuity.after 1) acc = acc' := by
  simp only [Continuity.runs_iff]
  exact foldlM_eq_ok_scan s.checkMutableBlock_eq_ok

/-- The record at the tip is the block that is read there. -/
theorem tipRecord_eq_ok (htip : st.durableTip = some tip) {r : CompactBlockRecord} :
    s.tipRecord st tip = .ok r ↔ s.read CompactBlockRecord st tip.height = .ok r := by
  have hcovers : ∃ t ∈ st.durableTip, tip.height ≤ t.height := ⟨tip, htip, le_rfl⟩
  unfold tipRecord Store.read
  rw [ensure_of _ hcovers, ok_bind]
  split
  · simp only [bind_eq_ok, okOr_eq_ok]
  · simp only [bind_eq_ok, okOr_eq_ok]
    rfl

/-- What the check has found in an index that is not empty. -/
structure Verified (s : Store ν) (st : IndexState) (tip : BlockId) (ranges rows : List Segment) :
    Prop where
  meta_keys : ∀ start ∈ s.rangeMeta, start = rangeStart start ∧ start ∈ s.sealedRanges
  hashes : s.hashToHeight.size = tip.height + 1
  sealed : List.Forall₂ s.SealedEnds s.sealedRanges.toList ranges
  ranges_run : Continuity.Runs rangeSize ⟨0, none⟩ ranges
  ranges_end : rangeSize * ranges.length = st.sealedEnd
  mutable : List.Forall₂ s.MutableRow s.mutableBlocks.toList rows
  rows_run : Continuity.Runs 1
    ⟨st.sealedEnd, ranges.getLast?.map fun g => g.last.hash⟩ rows
  rows_end : st.sealedEnd + rows.length = tip.height + 1
  tip_hash : (rows.getLast?.or ranges.getLast?).map (fun g => g.last.hash) = some tip.hash
  tip_sizes : ∃ r, s.read CompactBlockRecord st tip.height = .ok r ∧
    r.endTreeSizes = st.treeSizes

theorem verifyContinuity_eq_ok (htip : st.durableTip = some tip) :
    s.verifyContinuity st = .ok () ↔ ∃ ranges rows, s.Verified st tip ranges rows := by
  have hlast : ∀ ranges rows : List Segment,
      (rows.getLast?.map fun g => g.last.hash).or (ranges.getLast?.map fun g => g.last.hash) =
        (rows.getLast?.or ranges.getLast?).map fun g => g.last.hash := by
    intro ranges rows
    cases rows.getLast? <;> rfl
  unfold verifyContinuity
  rw [htip]
  -- each check is now a condition, and each loop a run of segments
  simp only [bind_eq_ok, ensure_eq_ok, foldlM_checkSealedRange_eq_ok,
    foldlM_checkMutableBlock_eq_ok, Continuity.foldl_after, tipRecord_eq_ok htip]
  constructor
  · intro h
    obtain ⟨_, hkeys, -, ⟨-, -, hhashes⟩, _, ⟨ranges, hsealed, hranges, rfl⟩, -, hend, _,
      ⟨rows, hmutable, hrows, rfl⟩, r, hread, hnext, hhash, hsizes⟩ := h
    simp only [Nat.zero_add, Option.or_none] at hend hrows hnext hhash
    rw [hend] at hrows hnext
    refine ⟨ranges, rows, ?_, hhashes, hsealed, hranges, hend, hmutable, hrows, ?_, ?_,
      r, hread, hsizes.symm⟩
    · intro start hstart
      obtain ⟨i, hi⟩ := List.mem_iff_getElem?.mp (Std.ExtTreeMap.mem_keys.mpr hstart)
      obtain ⟨_, -, hcheck⟩ := forall₂_getElem? (mapM_eq_ok.mp hkeys) hi
      exact ensure_eq_ok.mp hcheck
    · rw [Nat.one_mul] at hnext
      exact hnext
    · rw [← hlast]
      exact hhash
  · rintro ⟨ranges, rows, h⟩
    have hsizes := h.sealed.length_eq
    have hrowsSize := h.mutable.length_eq
    rw [Std.ExtTreeMap.length_toList] at hsizes hrowsSize
    have hend := h.ranges_end
    have hrowsEnd := h.rows_end
    obtain ⟨r, hread, htree⟩ := h.tip_sizes
    have hkeys : ∀ start ∈ s.rangeMeta.keys, ∃ u, s.checkMetaKey start = .ok u := by
      intro start hstart
      exact ⟨(), ensure_of _ (h.meta_keys start (Std.ExtTreeMap.mem_keys.mp hstart))⟩
    obtain ⟨units, hunits⟩ := mapM_ok hkeys
    refine ⟨units, hunits, (), ⟨?_, by omega, h.hashes⟩, _, ⟨ranges, h.sealed, h.ranges_run, rfl⟩,
      (), ?_, _, ⟨rows, h.mutable, ?_, rfl⟩, r, hread, ?_, ?_, htree.symm⟩
    · rw [hsizes, ← hend, Nat.mul_div_cancel_left _ (by decide : 0 < rangeSize)]
    · rw [Nat.zero_add, hend]
    · rw [Nat.zero_add, hend, Option.or_none]
      exact h.rows_run
    · show 0 + rangeSize * ranges.length + 1 * rows.length = tip.height + 1
      omega
    · rw [Option.or_none, hlast]
      exact h.tip_hash

end Store

/-! ## The tables of a chain pass -/

theorem Connected.nodup_hashes {heightOf : HeightOf} {chain : List CompactBlockRecord}
    (h : Connected heightOf chain) (hfun : heightOf.Functional) :
    (chain.map (·.hash)).Nodup := by
  rw [List.nodup_iff_getElem?_ne_getElem?]
  intro i j hij hj heq
  rw [List.length_map] at hj
  rw [List.getElem?_map, List.getElem?_map, List.getElem?_eq_getElem hj,
    List.getElem?_eq_getElem (by omega)] at heq
  have hsame := h.eq_of_hash_eq hfun (List.getElem?_eq_getElem (by omega))
    (List.getElem?_eq_getElem hj) (Option.some.inj heq)
  omega

section

variable [Proto.Prost] {heightOf : HeightOf} {s : Store ν} {st : IndexState}
  {chain : List CompactBlockRecord}

namespace Represents

variable (h : Represents heightOf s st chain) (hfun : heightOf.Functional)

include h

theorem sealed_keys :
    s.sealedRanges.keys = (List.range (st.sealedEnd / rangeSize)).map (rangeSize * ·) := by
  have haligned := h.holds.sealed_aligned
  apply Table.keys_eq
  · rw [List.pairwise_map]
    refine List.pairwise_lt_range.imp ?_
    intro a b hab
    simp only [rangeSize]
    omega
  · intro start
    rw [List.mem_map]
    constructor
    · rintro ⟨i, hi, hstart⟩
      rw [List.mem_range] at hi
      obtain ⟨blob, hblob, -⟩ := h.holds.sealed_range start
        (by simp only [rangeSize] at *; omega) (by simp only [rangeSize] at *; omega)
      exact ⟨blob, hblob⟩
    · rintro ⟨blob, hblob⟩
      obtain ⟨hmod, hlt⟩ := h.holds.sealed_key start blob hblob
      refine ⟨start / rangeSize, ?_, ?_⟩
      · rw [List.mem_range]
        simp only [rangeSize] at *
        omega
      · simp only [rangeSize] at *
        omega

theorem mutable_keys :
    s.mutableBlocks.keys = List.range' st.sealedEnd (chain.length - st.sealedEnd) := by
  apply Table.keys_eq
  · exact List.pairwise_lt_range'
  · intro height
    rw [List.mem_range'_1]
    constructor
    · intro hheight
      obtain ⟨r, bytes, -, hbytes, -⟩ := h.holds.mutable_row height hheight.1 (by omega)
      exact ⟨bytes, hbytes⟩
    · rintro ⟨bytes, hbytes⟩
      have := h.holds.mutable_key height bytes hbytes
      omega

include hfun

theorem hasHash {i : Nat} {r : CompactBlockRecord} (hr : chain[i]? = some r) : s.HasHash r := by
  unfold Store.HasHash
  rw [h.connected.height_eq hr]
  exact (h.holds.hash_iff hfun _ _).mpr ⟨r, hr, rfl⟩

theorem size_hashToHeight : s.hashToHeight.size = chain.length := by
  rw [Table.size_eq (h.connected.nodup_hashes hfun), List.length_map]
  intro hash
  rw [List.mem_map]
  constructor
  · rintro ⟨r, hr, hhash⟩
    obtain ⟨i, hi⟩ := List.mem_iff_getElem?.mp hr
    exact ⟨i, (h.holds.hash_iff hfun _ _).mpr ⟨r, hi, hhash⟩⟩
  · rintro ⟨i, hi⟩
    obtain ⟨r, hr, hhash⟩ := (h.holds.hash_iff hfun _ _).mp hi
    exact ⟨r, List.mem_of_getElem? hr, hhash⟩

/-- The segments of the sealed ranges end with blocks of the chain. -/
theorem sealed_segments : ∃ ranges, List.Forall₂ s.SealedEnds s.sealedRanges.toList ranges ∧
    rangeSize * ranges.length = st.sealedEnd ∧
    ∀ (i : Nat) (g : Segment), ranges[i]? = some g → g.start = rangeSize * i ∧
      chain[rangeSize * i]? = some g.first ∧
      chain[rangeSize * i + (rangeSize - 1)]? = some g.last := by
  have hends : ∀ entry ∈ s.sealedRanges.toList, ∃ g, s.SealedEnds entry g ∧
      chain[entry.1]? = some g.first ∧ chain[entry.1 + (rangeSize - 1)]? = some g.last := by
    rintro ⟨start, blob⟩ hentry
    have hblob := Std.ExtTreeMap.mem_toList_iff_getElem?_eq_some.mp hentry
    obtain ⟨hmod, hlt⟩ := h.holds.sealed_key start blob hblob
    obtain ⟨blob', hblob', d, hnew, hrecords⟩ := h.holds.sealed_range start hmod hlt
    obtain rfl : blob = blob' := Option.some.inj (hblob.symm.trans hblob')
    obtain ⟨first, hfirst, hreadFirst⟩ := hrecords 0 (by decide)
    obtain ⟨last, hlast, hreadLast⟩ := hrecords (rangeSize - 1) (by decide)
    refine ⟨⟨start, first, last⟩, ⟨rfl, ?_, ?_, h.hasHash hfun hfirst, h.hasHash hfun hlast⟩,
      hfirst, hlast⟩
    · simp only [RangeDecoder.decodeRangeRecord, hnew, ok_bind, hreadFirst]
    · simp only [RangeDecoder.decodeRangeRecord, hnew, ok_bind, hreadLast]
  obtain ⟨ranges, hranges⟩ := exists_forall₂ hends
  refine ⟨ranges, hranges.imp fun _ _ hg => hg.1, ?_, ?_⟩
  · have haligned := h.holds.sealed_aligned
    have hlength := congrArg List.length h.sealed_keys
    rw [Std.ExtTreeMap.length_keys, ← Std.ExtTreeMap.length_toList, hranges.length_eq,
      List.length_map, List.length_range] at hlength
    simp only [rangeSize] at *
    omega
  · intro i g hg
    obtain ⟨entry, hentry, hends, hfirst, hlast⟩ := forall₂_getElem? hranges.flip hg
    have hkey := Table.key_of_row hentry
    rw [h.sealed_keys, List.getElem?_map] at hkey
    obtain ⟨j, hj, hkey⟩ := Option.map_eq_some_iff.mp hkey
    obtain ⟨_, hj⟩ := List.getElem?_eq_some_iff.mp hj
    rw [List.getElem_range] at hj
    rw [← hkey, ← hj] at hfirst hlast
    exact ⟨hends.1.trans (by rw [← hkey, ← hj]), hfirst, hlast⟩

/-- The segments of the mutable rows are blocks of the chain. -/
theorem mutable_segments : ∃ rows, List.Forall₂ s.MutableRow s.mutableBlocks.toList rows ∧
    st.sealedEnd + rows.length = chain.length ∧
    ∀ (i : Nat) (g : Segment), rows[i]? = some g → g.start = st.sealedEnd + i ∧
      chain[st.sealedEnd + i]? = some g.first ∧ g.last = g.first := by
  have hrow : ∀ entry ∈ s.mutableBlocks.toList, ∃ g, s.MutableRow entry g ∧
      chain[entry.1]? = some g.first := by
    rintro ⟨height, bytes⟩ hentry
    have hbytes := Std.ExtTreeMap.mem_toList_iff_getElem?_eq_some.mp hentry
    obtain ⟨hle, hlt⟩ := h.holds.mutable_key height bytes hbytes
    obtain ⟨r, bytes', hr, hbytes', hencode⟩ := h.holds.mutable_row height hle hlt
    obtain rfl : bytes = bytes' := Option.some.inj (hbytes.symm.trans hbytes')
    exact ⟨⟨height, r, r⟩, ⟨rfl, CompactBlockRecord.decode_encode hencode, rfl,
      h.connected.height_eq hr, h.hasHash hfun hr⟩, hr⟩
  obtain ⟨rows, hrows⟩ := exists_forall₂ hrow
  refine ⟨rows, hrows.imp fun _ _ hg => hg.1, ?_, ?_⟩
  · have hle := h.holds.sealed_le
    have hlength := congrArg List.length h.mutable_keys
    rw [Std.ExtTreeMap.length_keys, ← Std.ExtTreeMap.length_toList, hrows.length_eq,
      List.length_range'] at hlength
    omega
  · intro i g hg
    obtain ⟨entry, hentry, hrow, hfirst⟩ := forall₂_getElem? hrows.flip hg
    have hkey := Table.key_of_row hentry
    rw [h.mutable_keys] at hkey
    obtain ⟨_, hkey⟩ := List.getElem?_eq_some_iff.mp hkey
    rw [List.getElem_range', Nat.one_mul] at hkey
    rw [← hkey] at hfirst
    exact ⟨hrow.1.trans hkey.symm, hfirst, hrow.2.2.1⟩

/-- The check accepts the tables of an index that holds nothing. -/
theorem verifyContinuity_empty (htip : st.durableTip = none) : s.verifyContinuity st = .ok () := by
  have hnil : chain = [] := by
    have hnone := h.describes.tip.symm.trans htip
    rwa [Option.map_eq_none_iff, List.getLast?_eq_none_iff] at hnone
  subst hnil
  have hsealed := h.holds.sealed_le
  rw [List.length_nil, Nat.le_zero] at hsealed
  have hranges : s.sealedRanges = ∅ := by
    apply Table.eq_empty
    intro start blob hblob
    have := (h.holds.sealed_key start blob hblob).2
    omega
  have hrows : s.mutableBlocks = ∅ := by
    apply Table.eq_empty
    intro height bytes hbytes
    have := (h.holds.mutable_key height bytes hbytes).2
    rw [List.length_nil] at this
    omega
  have hmeta : s.rangeMeta = ∅ := by
    apply Table.eq_empty
    intro start info hinfo
    have := (h.holds.range_meta start info hinfo).2.1
    omega
  have hhashes : s.hashToHeight = ∅ := by
    apply Table.eq_empty
    intro hash height hget
    obtain ⟨r, hr, -⟩ := (h.holds.hash_iff hfun hash height).mp hget
    cases hr
  unfold Store.verifyContinuity
  rw [htip]
  refine ensure_of _ ⟨?_, ?_⟩
  · rw [Store.hasBlocks, hranges, hrows, hhashes]
    rfl
  · rw [hmeta]
    rfl

/-- The check accepts the tables of a chain. -/
theorem verifyContinuity : s.verifyContinuity st = .ok () := by
  -- neighbours in the chain are linked: the fact behind all the links that are checked
  have hlink : ∀ {i : Nat} {below r : CompactBlockRecord}, chain[i]? = some below →
      chain[i + 1]? = some r → r.previousHash = below.hash := by
    intro i below r hbelow hr
    obtain ⟨hi, rfl⟩ := List.getElem?_eq_some_iff.mp hr
    obtain ⟨-, rfl⟩ := List.getElem?_eq_some_iff.mp hbelow
    exact (List.isChain_iff_getElem.mp h.connected.isChain i hi).2
  cases htip : st.durableTip with
  | none => exact h.verifyContinuity_empty hfun htip
  | some tip =>
    have hlength := h.describes.tip_height h.connected htip
    obtain ⟨ranges, hsealed, hrangesEnd, hranges⟩ := h.sealed_segments hfun
    obtain ⟨rows, hmutable, hrowsEnd, hrows⟩ := h.mutable_segments hfun
    refine (Store.verifyContinuity_eq_ok htip).mpr ⟨ranges, rows, ?_⟩
    constructor
    case meta_keys =>
      intro start hstart
      obtain ⟨info, hinfo⟩ :=
        Option.isSome_iff_exists.mp (Std.ExtTreeMap.mem_iff_isSome_getElem?.mp hstart)
      obtain ⟨hmod, hlt, -⟩ := h.holds.range_meta start info hinfo
      obtain ⟨blob, hblob, -⟩ := h.holds.sealed_range start hmod hlt
      refine ⟨?_, Std.ExtTreeMap.mem_iff_isSome_getElem?.mpr (by rw [hblob]; rfl)⟩
      rw [rangeStart, hmod, Nat.sub_zero]
    case hashes => rw [h.size_hashToHeight hfun, hlength]
    case sealed => exact hsealed
    case ranges_run =>
      constructor
      · intro i g hg
        rw [Nat.zero_add]
        exact (hranges i g hg).1
      · intro g _ hash hhash
        cases hhash
      · intro i below g hbelow hg
        refine hlink (hranges i below hbelow).2.2 ?_
        rw [show rangeSize * i + (rangeSize - 1) + 1 = rangeSize * (i + 1) by
          simp only [rangeSize]
          omega]
        exact (hranges (i + 1) g hg).2.1
    case ranges_end => exact hrangesEnd
    case mutable => exact hmutable
    case rows_run =>
      constructor
      · intro i g hg
        rw [Nat.one_mul]
        exact (hrows i g hg).1
      · intro g hg hash hhash
        -- the first row follows the last block of the last range
        rw [List.head?_eq_getElem?] at hg
        obtain ⟨last, hlast, rfl⟩ := Option.map_eq_some_iff.mp hhash
        rw [List.getLast?_eq_getElem?] at hlast
        have hlt := (List.getElem?_eq_some_iff.mp hlast).1
        refine hlink (hranges _ last hlast).2.2 ?_
        rw [show rangeSize * (ranges.length - 1) + (rangeSize - 1) + 1 = st.sealedEnd + 0 by
          simp only [rangeSize] at *
          omega]
        exact (hrows 0 g hg).2.1
      · intro i below g hbelow hg
        obtain ⟨-, hbelowAt, hsame⟩ := hrows i below hbelow
        rw [hsame]
        exact hlink hbelowAt (hrows (i + 1) g hg).2.1
    case rows_end => omega
    case tip_hash =>
      obtain ⟨last, hlast, rfl⟩ := h.describes.tip_eq_some_iff.mp htip
      rw [List.getLast?_eq_getElem?] at hlast
      -- the last block is a mutable row, or the end of the last range
      cases hn : rows.length with
      | succ n =>
        obtain ⟨g, hg⟩ : ∃ g, rows[n]? = some g := ⟨_, List.getElem?_eq_getElem (by omega)⟩
        obtain ⟨-, hfirst, hsame⟩ := hrows n g hg
        rw [show st.sealedEnd + n = chain.length - 1 by omega, hlast] at hfirst
        rw [List.getLast?_eq_getElem?, hn, Nat.add_sub_cancel, hg]
        show some g.last.hash = some last.hash
        rw [hsame, Option.some.inj hfirst]
      | zero =>
        obtain rfl := List.eq_nil_of_length_eq_zero hn
        obtain ⟨g, hg⟩ : ∃ g, ranges[ranges.length - 1]? = some g :=
          ⟨_, List.getElem?_eq_getElem (by simp only [rangeSize] at *; omega)⟩
        obtain ⟨-, -, hend⟩ := hranges _ g hg
        rw [show rangeSize * (ranges.length - 1) + (rangeSize - 1) = chain.length - 1 by
          simp only [rangeSize] at *
          omega, hlast] at hend
        rw [List.getLast?_nil, Option.none_or, List.getLast?_eq_getElem?, hg]
        show some g.last.hash = some last.hash
        rw [Option.some.inj hend]
    case tip_sizes =>
      obtain ⟨last, hlast, rfl⟩ := h.describes.tip_eq_some_iff.mp htip
      have hsizes := (h.describes.tip_of_getLast hlast).2
      rw [List.getLast?_eq_getElem?, ← hlength, Nat.add_sub_cancel] at hlast
      exact ⟨last, h.read hlast, hsizes.symm⟩

end Represents

end

end Ztreamer
