import Ztreamer.Index.Answers
import Ztreamer.Index.Continuity

/-! # What the check of an opened index establishes

    The check compares the keys of the sealed ranges with each other, and the heights of
    the records with the envelope of their blob. It does not compare the two.

    * `verify_sound_iff`: what the check accepts is sound exactly when each blob is
      stored under the first height of its envelope,
    * `Represents.keyedByEnvelope`: in the tables of a chain each blob is,
    * `verify_accepts_misplaced_range`: an index that passes the check and whose first
      block has the height 1000.
-/

namespace Ztreamer

open Octets Result

variable {ν : Type}

/-! ## The blocks that the check reads -/

section

variable [Proto.Prost] {s : Store ν} {st : IndexState} {tip : BlockId}
  {ranges rows : List Segment}

/-- The ends of a range are the blocks that are read at its ends, at the heights of its
    envelope. -/
theorem Store.SealedEnds.read {start : Nat} {blob : Bytes} {g : Segment}
    (h : s.SealedEnds (start, blob) g) (hblob : s.sealedRanges[start]? = some blob)
    (haligned : start % rangeSize = 0) (hend : start + rangeSize ≤ st.sealedEnd)
    (htip : st.durableTip = some tip) (hsealed : st.sealedEnd ≤ tip.height + 1) :
    s.read CompactBlockRecord st start = .ok g.first ∧
      s.read CompactBlockRecord st (start + (rangeSize - 1)) = .ok g.last ∧
      ∃ d, RangeDecoder.new blob = .ok d ∧ g.first.height.val = d.start.val ∧
        g.last.height.val = d.start.val + (rangeSize - 1) := by
  obtain ⟨-, hfirst, hlast, -⟩ := h
  simp only [RangeDecoder.decodeRangeRecord, bind_eq_ok] at hfirst hlast
  obtain ⟨d, hnew, hfirst⟩ := hfirst
  obtain ⟨d', hnew', hlast⟩ := hlast
  obtain rfl : d = d' := Except.ok.inj (hnew.symm.trans hnew')
  have hread : ∀ i < rangeSize, ∀ r, d.record i = .ok r →
      s.read CompactBlockRecord st (start + i) = .ok r := by
    intro i hi r hr
    have hstart : rangeStart (start + i) = start := by
      simp only [rangeStart, rangeSize] at *
      omega
    have hcovers : ∃ t ∈ st.durableTip, start + i ≤ t.height := ⟨tip, htip, by omega⟩
    have hle : start ≤ start + i := by omega
    simp only [Store.read, Store.find, hstart, hblob, SealedRange.new, hnew, SealedRange.read,
      if_pos (by omega : start + i < st.sealedEnd), ensure_of _ hcovers, ensure_of _ hle,
      Nat.add_sub_cancel_left, okMapError_ok, ok_bind, pure_eq_ok, okOr_some]
    rw [show d.recordAs CompactBlockRecord i = .ok r from hr]
    rfl
  refine ⟨hread 0 (by decide) _ hfirst, hread _ (by decide) _ hlast, d, hnew, ?_, ?_⟩
  · exact ((RangeDecoder.recordAs_eq_ok.mp hfirst).2.2.1).symm
  · exact ((RangeDecoder.recordAs_eq_ok.mp hlast).2.2.1).symm

/-- The record of a row is the block that is read at its height. -/
theorem Store.MutableRow.read {height : Nat} {bytes : Bytes} {g : Segment}
    (h : s.MutableRow (height, bytes) g) (hbytes : s.mutableBlocks[height]? = some bytes)
    (hsealed : st.sealedEnd ≤ height) (htip : st.durableTip = some tip)
    (hle : height ≤ tip.height) : s.read CompactBlockRecord st height = .ok g.first := by
  obtain ⟨-, hdecode, -⟩ := h
  have hcovers : ∃ t ∈ st.durableTip, height ≤ t.height := ⟨tip, htip, hle⟩
  simp only [Store.read, hbytes, if_neg (by omega : ¬ height < st.sealedEnd),
    ensure_of _ hcovers, ok_bind, okOr_some]
  exact okMapError_eq_ok.mpr hdecode

namespace Store.Verified

variable (h : s.Verified st tip ranges rows)

include h

theorem range_of_blob {start : Nat} {blob : Bytes} (hblob : s.sealedRanges[start]? = some blob) :
    ∃ i g, ranges[i]? = some g ∧ start = rangeSize * i ∧ s.SealedEnds (start, blob) g := by
  obtain ⟨i, hi⟩ :=
    List.mem_iff_getElem?.mp (Std.ExtTreeMap.mem_toList_iff_getElem?_eq_some.mpr hblob)
  obtain ⟨g, hg, hends⟩ := forall₂_getElem? h.sealed hi
  have hstart := h.ranges_run.start i g hg
  rw [Nat.zero_add] at hstart
  exact ⟨i, g, hg, hends.1.symm.trans hstart, hends⟩

variable {i : Nat} {g : Segment}

theorem blob_of_range (hg : ranges[i]? = some g) :
    ∃ blob, s.sealedRanges[rangeSize * i]? = some blob ∧ s.SealedEnds (rangeSize * i, blob) g := by
  obtain ⟨⟨start, blob⟩, hi, hends⟩ := forall₂_getElem? h.sealed.flip hg
  have hstart := h.ranges_run.start i g hg
  rw [hends.1, Nat.zero_add] at hstart
  cases hstart
  exact ⟨blob, Std.ExtTreeMap.mem_toList_iff_getElem?_eq_some.mp (List.mem_of_getElem? hi), hends⟩

theorem mem_sealedRanges {start : Nat} :
    start ∈ s.sealedRanges ↔ ∃ i g, ranges[i]? = some g ∧ start = rangeSize * i := by
  rw [Std.ExtTreeMap.mem_iff_isSome_getElem?, Option.isSome_iff_exists]
  constructor
  · rintro ⟨blob, hblob⟩
    obtain ⟨i, g, hg, hstart, -⟩ := h.range_of_blob hblob
    exact ⟨i, g, hg, hstart⟩
  · rintro ⟨i, g, hg, rfl⟩
    obtain ⟨blob, hblob, -⟩ := h.blob_of_range hg
    exact ⟨blob, hblob⟩

theorem row_of_bytes {height : Nat} {bytes : Bytes}
    (hbytes : s.mutableBlocks[height]? = some bytes) :
    ∃ i g, rows[i]? = some g ∧ height = st.sealedEnd + i ∧ s.MutableRow (height, bytes) g := by
  obtain ⟨i, hi⟩ :=
    List.mem_iff_getElem?.mp (Std.ExtTreeMap.mem_toList_iff_getElem?_eq_some.mpr hbytes)
  obtain ⟨g, hg, hrow⟩ := forall₂_getElem? h.mutable hi
  have hstart := h.rows_run.start i g hg
  rw [Nat.one_mul] at hstart
  exact ⟨i, g, hg, hrow.1.symm.trans hstart, hrow⟩

theorem bytes_of_row (hg : rows[i]? = some g) :
    ∃ bytes, s.mutableBlocks[st.sealedEnd + i]? = some bytes ∧
      s.MutableRow (st.sealedEnd + i, bytes) g := by
  obtain ⟨⟨height, bytes⟩, hi, hrow⟩ := forall₂_getElem? h.mutable.flip hg
  have hstart := h.rows_run.start i g hg
  rw [hrow.1, Nat.one_mul] at hstart
  cases hstart
  exact ⟨bytes, Std.ExtTreeMap.mem_toList_iff_getElem?_eq_some.mp (List.mem_of_getElem? hi), hrow⟩

theorem mem_mutableBlocks {height : Nat} :
    height ∈ s.mutableBlocks ↔ st.sealedEnd ≤ height ∧ height ≤ tip.height := by
  have hrows := h.rows_end
  rw [Std.ExtTreeMap.mem_iff_isSome_getElem?, Option.isSome_iff_exists]
  constructor
  · rintro ⟨bytes, hbytes⟩
    obtain ⟨i, g, hg, rfl, -⟩ := h.row_of_bytes hbytes
    have hi := (List.getElem?_eq_some_iff.mp hg).1
    omega
  · rintro ⟨hle, htop⟩
    obtain ⟨bytes, hbytes, -⟩ := h.bytes_of_row (i := height - st.sealedEnd)
      (List.getElem?_eq_getElem (by omega))
    rw [Nat.add_sub_cancel' hle] at hbytes
    exact ⟨bytes, hbytes⟩

variable (htip : st.durableTip = some tip)

include htip

/-- The blocks that are read at the ends of the range `i`. -/
theorem read_range (hg : ranges[i]? = some g) :
    s.read CompactBlockRecord st (rangeSize * i) = .ok g.first ∧
      s.read CompactBlockRecord st (rangeSize * i + (rangeSize - 1)) = .ok g.last := by
  have hi := (List.getElem?_eq_some_iff.mp hg).1
  have hranges := h.ranges_end
  have hrows := h.rows_end
  obtain ⟨blob, hblob, hends⟩ := h.blob_of_range hg
  obtain ⟨hfirst, hlast, -⟩ := hends.read hblob (Nat.mul_mod_right _ _)
    (by simp only [rangeSize] at *; omega) htip (by omega)
  exact ⟨hfirst, hlast⟩

/-- The block that is read at the height of the row `i`. -/
theorem read_row (hg : rows[i]? = some g) :
    s.read CompactBlockRecord st (st.sealedEnd + i) = .ok g.first ∧ g.last = g.first := by
  have hi := (List.getElem?_eq_some_iff.mp hg).1
  have hrows := h.rows_end
  obtain ⟨bytes, hbytes, hrow⟩ := h.bytes_of_row hg
  exact ⟨hrow.read hbytes (by omega) htip (by omega), hrow.2.2.1⟩

/-- The first block of the mutable rows links to the last sealed block. -/
theorem link_below_rows (hg : rows[0]? = some g) {below : Nat} (hbelow : below + 1 = st.sealedEnd) :
    ∃ r, s.read CompactBlockRecord st below = .ok r ∧ g.first.previousHash = r.hash := by
  have hranges := h.ranges_end
  obtain ⟨last, hlast⟩ : ∃ last, ranges[ranges.length - 1]? = some last :=
    ⟨_, List.getElem?_eq_getElem (by simp only [rangeSize] at *; omega)⟩
  obtain ⟨-, hread⟩ := h.read_range htip hlast
  refine ⟨last.last, ?_, h.rows_run.first g (by rw [List.head?_eq_getElem?]; exact hg) _ ?_⟩
  · rw [show below = rangeSize * (ranges.length - 1) + (rangeSize - 1) by
      simp only [rangeSize] at *
      omega]
    exact hread
  · rw [List.getLast?_eq_getElem?, hlast]
    rfl

/-- The record at the tip is that of the last segment. -/
theorem tip_segment {r : CompactBlockRecord}
    (hread : s.read CompactBlockRecord st tip.height = .ok r) :
    r.hash = tip.hash ∧ ((r.height.val = tip.height) ∨
      ∃ g, ranges[ranges.length - 1]? = some g ∧ g.last = r ∧
        tip.height = rangeSize * (ranges.length - 1) + (rangeSize - 1)) := by
  have hranges := h.ranges_end
  have hrows := h.rows_end
  have hhash := h.tip_hash
  cases hn : rows.length with
  | succ n =>
    obtain ⟨g, hg⟩ : ∃ g, rows[n]? = some g := ⟨_, List.getElem?_eq_getElem (by omega)⟩
    have hheight : tip.height = st.sealedEnd + n := by omega
    obtain ⟨hfirst, hsame⟩ := h.read_row htip hg
    rw [hheight, hfirst] at hread
    obtain rfl := Except.ok.inj hread
    rw [List.getLast?_eq_getElem?, hn, Nat.add_sub_cancel, hg] at hhash
    obtain ⟨bytes, -, hrow⟩ := h.bytes_of_row hg
    refine ⟨?_, .inl (hrow.2.2.2.1.trans hheight.symm)⟩
    rw [← hsame]
    exact Option.some.inj hhash
  | zero =>
    obtain rfl := List.eq_nil_of_length_eq_zero hn
    obtain ⟨g, hg⟩ : ∃ g, ranges[ranges.length - 1]? = some g :=
      ⟨_, List.getElem?_eq_getElem (by simp only [rangeSize] at *; omega)⟩
    have hheight : tip.height = rangeSize * (ranges.length - 1) + (rangeSize - 1) := by
      simp only [rangeSize] at *
      omega
    obtain ⟨-, hlast⟩ := h.read_range htip hg
    rw [hheight, hlast] at hread
    obtain rfl := Except.ok.inj hread
    rw [List.getLast?_nil, Option.none_or, List.getLast?_eq_getElem?, hg] at hhash
    exact ⟨Option.some.inj hhash, .inr ⟨g, hg, rfl, hheight⟩⟩

end Store.Verified

end

/-- What the check is for: the keys, the links, the heights and the hash entries of the
    blocks that it reads, and the tip. -/
structure ContinuitySound [Proto.Prost] (s : Store ν) (st : IndexState) (tip : BlockId) :
    Prop where
  sealed_keys : ∀ start : Nat, start ∈ s.sealedRanges ↔
    start % rangeSize = 0 ∧ start < st.sealedEnd
  sealed_ends : ∀ start ∈ s.sealedRanges, ∃ first last,
    s.read CompactBlockRecord st start = .ok first ∧
    s.read CompactBlockRecord st (start + (rangeSize - 1)) = .ok last ∧
    first.height.val = start ∧ last.height.val = start + (rangeSize - 1) ∧
    s.hashToHeight[first.hash]? = some start ∧
    s.hashToHeight[last.hash]? = some (start + (rangeSize - 1))
  sealed_links : ∀ start ∈ s.sealedRanges, start + rangeSize ∈ s.sealedRanges →
    ∃ last first, s.read CompactBlockRecord st (start + (rangeSize - 1)) = .ok last ∧
      s.read CompactBlockRecord st (start + rangeSize) = .ok first ∧
      first.previousHash = last.hash
  mutable_keys : ∀ height : Nat, height ∈ s.mutableBlocks ↔
    st.sealedEnd ≤ height ∧ height ≤ tip.height
  mutable_rows : ∀ (height : Nat) (bytes : Bytes), s.mutableBlocks[height]? = some bytes →
    ∃ r, CompactBlockRecord.decode bytes = .ok r ∧ r.height.val = height ∧
      s.hashToHeight[r.hash]? = some height ∧ ∀ below, below + 1 = height →
        ∃ r', s.read CompactBlockRecord st below = .ok r' ∧ r.previousHash = r'.hash
  tip_block : ∃ r, s.read CompactBlockRecord st tip.height = .ok r ∧
    r.height.val = tip.height ∧ r.hash = tip.hash ∧ r.endTreeSizes = st.treeSizes
  meta_keys : ∀ start ∈ s.rangeMeta, start ∈ s.sealedRanges

/-- Each blob is stored under the first height of its envelope. -/
def Store.KeyedByEnvelope (s : Store ν) : Prop :=
  ∀ (start : Nat) (blob : Bytes) (d : RangeDecoder), s.sealedRanges[start]? = some blob →
    RangeDecoder.new blob = .ok d → d.start.val = start

/-- What the check accepts is sound exactly when each blob is stored under the first
    height of its envelope. -/
theorem verify_sound_iff [Proto.Prost] (s : Store ν) (st : IndexState) (hok : s.verify = .ok st)
    (tip : BlockId) (htip : st.durableTip = some tip) :
    ContinuitySound s st tip ↔ s.KeyedByEnvelope := by
  simp only [Store.verify, bind_eq_ok, pure_eq_ok, Except.ok.injEq] at hok
  obtain ⟨st', _, _, hok, hst⟩ := hok
  obtain rfl : st = st' := hst.symm
  obtain ⟨ranges, rows, h⟩ := (Store.verifyContinuity_eq_ok htip).mp hok
  have hranges := h.ranges_end
  have hrows := h.rows_end
  constructor
  · intro hsound start blob d hblob hnew
    obtain ⟨i, g, hg, rfl, hends⟩ := h.range_of_blob hblob
    have hi := (List.getElem?_eq_some_iff.mp hg).1
    obtain ⟨hread, -, d', hnew', hheight, -⟩ := hends.read hblob (Nat.mul_mod_right _ _)
      (by simp only [rangeSize] at *; omega) htip (by omega)
    obtain rfl : d = d' := Except.ok.inj (hnew.symm.trans hnew')
    obtain ⟨first, -, hfirst, -, hstart, -⟩ :=
      hsound.sealed_ends _ (h.mem_sealedRanges.mpr ⟨i, g, hg, rfl⟩)
    obtain rfl := Except.ok.inj (hread.symm.trans hfirst)
    exact hheight.symm.trans hstart
  · intro hkeyed
    -- the ends of the range `i`
    have hat : ∀ {i g}, ranges[i]? = some g → g.first.height.val = rangeSize * i ∧
        g.last.height.val = rangeSize * i + (rangeSize - 1) ∧ s.HasHash g.first ∧
        s.HasHash g.last := by
      intro i g hg
      have hi := (List.getElem?_eq_some_iff.mp hg).1
      obtain ⟨blob, hblob, hends⟩ := h.blob_of_range hg
      obtain ⟨-, -, d, hnew, hfirst, hlast⟩ := hends.read hblob (Nat.mul_mod_right _ _)
        (by simp only [rangeSize] at *; omega) htip (by omega)
      rw [hkeyed _ blob d hblob hnew] at hfirst hlast
      exact ⟨hfirst, hlast, hends.2.2.2⟩
    constructor
    case sealed_keys =>
      intro start
      rw [h.mem_sealedRanges]
      constructor
      · rintro ⟨i, g, hg, rfl⟩
        have hi := (List.getElem?_eq_some_iff.mp hg).1
        exact ⟨Nat.mul_mod_right _ _, by simp only [rangeSize] at *; omega⟩
      · rintro ⟨haligned, hlt⟩
        obtain ⟨i, rfl⟩ := Nat.dvd_of_mod_eq_zero haligned
        exact ⟨i, _, List.getElem?_eq_getElem (by simp only [rangeSize] at *; omega), rfl⟩
    case sealed_ends =>
      intro start hstart
      obtain ⟨i, g, hg, rfl⟩ := h.mem_sealedRanges.mp hstart
      obtain ⟨hfirst, hlast⟩ := h.read_range htip hg
      obtain ⟨hfirstHeight, hlastHeight, hfirstHash, hlastHash⟩ := hat hg
      refine ⟨g.first, g.last, hfirst, hlast, hfirstHeight, hlastHeight, ?_, ?_⟩
      · rw [← hfirstHeight]
        exact hfirstHash
      · rw [← hlastHeight]
        exact hlastHash
    case sealed_links =>
      intro start hstart hnext
      obtain ⟨i, below, hbelow, rfl⟩ := h.mem_sealedRanges.mp hstart
      obtain ⟨j, g, hg, hj⟩ := h.mem_sealedRanges.mp hnext
      obtain rfl : j = i + 1 := by simp only [rangeSize] at *; omega
      refine ⟨below.last, g.first, (h.read_range htip hbelow).2, ?_,
        h.ranges_run.link i below g hbelow hg⟩
      rw [hj]
      exact (h.read_range htip hg).1
    case mutable_keys => exact fun _ => h.mem_mutableBlocks
    case mutable_rows =>
      intro height bytes hbytes
      obtain ⟨i, g, hg, rfl, -, hdecode, -, hheight, hhash⟩ := h.row_of_bytes hbytes
      have hhash : s.hashToHeight[g.first.hash]? = some g.first.height.val := hhash
      rw [hheight] at hhash
      refine ⟨g.first, hdecode, hheight, hhash, ?_⟩
      intro below hbelow
      cases i with
      | zero => exact h.link_below_rows htip hg hbelow
      | succ i =>
        obtain rfl : below = st.sealedEnd + i := by omega
        obtain ⟨g', hg'⟩ : ∃ g', rows[i]? = some g' :=
          ⟨_, List.getElem?_eq_getElem (by
            have := (List.getElem?_eq_some_iff.mp hg).1
            omega)⟩
        obtain ⟨hread, hsame⟩ := h.read_row htip hg'
        refine ⟨g'.first, hread, ?_⟩
        rw [← hsame]
        exact h.rows_run.link i g' g hg' hg
    case tip_block =>
      obtain ⟨r, hread, hsizes⟩ := h.tip_sizes
      obtain ⟨hhash, hheight | ⟨g, hg, rfl, hheight⟩⟩ := h.tip_segment htip hread
      · exact ⟨r, hread, hheight, hhash, hsizes⟩
      · exact ⟨g.last, hread, (hat hg).2.1.trans hheight.symm, hhash, hsizes⟩
    case meta_keys =>
      intro start hstart
      exact (h.meta_keys start hstart).2

/-- The blobs of a chain are stored under the starts of their envelopes. -/
theorem Represents.keyedByEnvelope [Proto.Prost] {heightOf : HeightOf} {s : Store ν}
    {st : IndexState} {chain : List CompactBlockRecord} (h : Represents heightOf s st chain) :
    s.KeyedByEnvelope := by
  intro start blob d hblob hnew
  obtain ⟨hmod, hlt⟩ := h.holds.sealed_key start blob hblob
  obtain ⟨blob', hblob', d', hnew', hrecords⟩ := h.holds.sealed_range start hmod hlt
  obtain rfl : blob = blob' := Option.some.inj (hblob.symm.trans hblob')
  obtain rfl : d = d' := Except.ok.inj (hnew.symm.trans hnew')
  obtain ⟨first, hfirst, hread⟩ := hrecords 0 (by decide)
  have hheight := (RangeDecoder.recordAs_eq_ok.mp hread).2.2.1
  exact hheight.trans (h.connected.height_eq hfirst)

/-! ## A blob under another key -/

/-- The state of an index with one sealed range. -/
def oneRangeState (hash : Hash) : IndexState :=
  { durableTip := some ⟨rangeSize - 1, hash⟩, sealedThrough := some (rangeSize - 1) }

/-- An index whose one range is `blob`, with the hash entries of `records`. -/
def oneRange (blob : Bytes) (records : List CompactBlockRecord) (hash : Hash) : Store Unit where
  state := some (encodeState ⟨rangeSize - 1, hash⟩ (oneRangeState hash))
  sealedRanges := (∅ : Table Nat Bytes).insert 0 blob
  mutableBlocks := ∅
  hashToHeight := Table.putAll ∅ (records.map fun r => (r.hash, r.height.val))
  rangeMeta := ∅

theorem oneRange_hash {blob : Bytes} {records : List CompactBlockRecord} {hash : Hash}
    (hnodup : (records.map (·.hash)).Nodup) {key : Hash} {height : Nat} :
    (oneRange blob records hash).hashToHeight[key]? = some height ↔
      ∃ r ∈ records, r.hash = key ∧ r.height.val = height := by
  have hsame : ∀ v v', (key, v) ∈ records.map (fun r => (r.hash, r.height.val)) →
      (key, v') ∈ records.map (fun r => (r.hash, r.height.val)) → v = v' := by
    intro v v' hv hv'
    obtain ⟨a, ha, haeq⟩ := List.mem_map.mp hv
    obtain ⟨b, hb, hbeq⟩ := List.mem_map.mp hv'
    obtain ⟨hakey, rfl⟩ := Prod.mk.inj haeq
    obtain ⟨hbkey, rfl⟩ := Prod.mk.inj hbeq
    rw [List.inj_on_of_nodup_map hnodup ha hb (hakey.trans hbkey.symm)]
  rw [oneRange, Table.get_putAll_eq_some hsame, List.mem_map]
  constructor
  · intro h
    rcases h with ⟨r, hr, heq⟩ | ⟨-, hempty⟩
    · exact ⟨r, hr, Prod.mk.inj heq⟩
    · rw [Std.ExtTreeMap.getElem?_empty] at hempty
      cases hempty
  · rintro ⟨r, hr, hkey, hheight⟩
    exact .inl ⟨r, hr, by rw [hkey, hheight]⟩

/-- The check accepts any range as the one range of an index. -/
theorem oneRange_verify [Proto.Prost] {blob : Bytes} {records : List CompactBlockRecord}
    {first last : CompactBlockRecord} {d : RangeDecoder} (hnew : RangeDecoder.new blob = .ok d)
    (hfirst : d.record 0 = .ok first) (hlast : d.record (rangeSize - 1) = .ok last)
    (hnodup : (records.map (·.hash)).Nodup) (hlength : records.length = rangeSize)
    (hfirstMem : first ∈ records) (hlastMem : last ∈ records)
    (hsizes : last.endTreeSizes = default) :
    (oneRange blob records last.hash).verify = .ok (oneRangeState last.hash) ∧
      (oneRange blob records last.hash).read CompactBlockRecord (oneRangeState last.hash) 0 =
        .ok first := by
  -- the check reads the two ends of the range, and no block between them
  have hends : (oneRange blob records last.hash).SealedEnds (0, blob) ⟨0, first, last⟩ := by
    refine ⟨rfl, ?_, ?_, ?_, ?_⟩
    · rw [RangeDecoder.decodeRangeRecord, hnew]
      exact hfirst
    · rw [RangeDecoder.decodeRangeRecord, hnew]
      exact hlast
    · exact (oneRange_hash hnodup).mpr ⟨first, hfirstMem, rfl, rfl⟩
    · exact (oneRange_hash hnodup).mpr ⟨last, hlastMem, rfl, rfl⟩
  have hsealed : (oneRangeState last.hash).sealedEnd = rangeSize := rfl
  have htip : (oneRangeState last.hash).durableTip = some ⟨rangeSize - 1, last.hash⟩ := rfl
  have hblob : (oneRange blob records last.hash).sealedRanges[0]? = some blob :=
    (Table.get_put _ _ _ _).trans (if_pos rfl)
  obtain ⟨hreadFirst, hreadLast, -⟩ := hends.read hblob rfl (by rw [hsealed]; decide) htip
    (le_of_eq hsealed)
  have hstate : (oneRange blob records last.hash).getState = .ok (oneRangeState last.hash) := by
    apply decodeState_encodeState
    refine ⟨htip, (by decide : 999 < 2 ^ 32), (by decide : 0 < 2 ^ 64), ?_, ?_⟩
    · intro through hthrough
      cases hthrough
      exact ⟨le_rfl, by decide⟩
    · intro verified hverified
      cases hverified
  refine ⟨?_, hreadFirst⟩
  rw [Store.verify, hstate, ok_bind, (Store.verifyContinuity_eq_ok htip).mpr, ok_bind]
  · rfl
  refine ⟨[⟨0, first, last⟩], [], ?_⟩
  constructor
  case meta_keys =>
    intro start hstart
    cases Std.ExtTreeMap.not_mem_empty hstart
  case hashes =>
    rw [Table.size_eq hnodup, List.length_map, hlength]
    · rfl
    · intro key
      rw [List.mem_map]
      simp only [oneRange_hash hnodup]
      constructor
      · rintro ⟨r, hr, hkey⟩
        exact ⟨_, r, hr, hkey, rfl⟩
      · rintro ⟨_, r, hr, hkey, _⟩
        exact ⟨r, hr, hkey⟩
  case sealed => exact .cons hends .nil
  case ranges_run =>
    constructor
    · intro i g hg
      cases i with
      | zero =>
        cases hg
        rfl
      | succ i => cases hg
    · intro g _ hash hhash
      cases hhash
    · intro i below g _ hg
      cases hg
  case ranges_end => rfl
  case mutable => exact .nil
  case rows_run => exact ⟨by simp, by simp, by simp⟩
  case rows_end => rfl
  case tip_hash => rfl
  case tip_sizes => exact ⟨last, hreadLast, hsizes⟩

section

attribute [local instance] Proto.wireDecoder zeroDigest

/-- What the check accepts in an index with the first range of a plain chain is sound. -/
theorem verify_sound_installed : ∃ (s : Store Unit) (st : IndexState) (tip : BlockId),
    s.verify = .ok st ∧ 0 ∈ s.sealedRanges ∧ ContinuitySound s st tip := by
  obtain ⟨_, _, _, s, st, -, -, -, hrep, hblob, -⟩ :=
    plainRange_installed 1000 (decode_withUnknownField_plain 1000)
  obtain ⟨tip, htip, -⟩ := hrep.describes.exists_tip hrep.connected (i := 0) (by simp [rangeSize])
  have hverify : s.verify = .ok st := by
    rw [Store.verify, hrep.state, ok_bind, hrep.verifyContinuity (HeightOf.functional_ofFun _),
      ok_bind]
    rfl
  have hsound := (verify_sound_iff s st hverify tip htip).mpr hrep.keyedByEnvelope
  exact ⟨s, st, tip, hverify,
    Std.ExtTreeMap.mem_iff_isSome_getElem?.mpr (by rw [hblob]; rfl), hsound⟩

/-- The check accepts an index whose one range is the second range of a plain chain, and
    the first block of the index then has the height 1000. -/
theorem verify_accepts_misplaced_range : ∃ (s : Store Unit) (st : IndexState) (tip : BlockId)
    (first : CompactBlockRecord), s.verify = .ok st ∧ st.durableTip = some tip ∧
    0 ∈ s.sealedRanges ∧ s.read CompactBlockRecord st 0 = .ok first ∧ first.height.val = 1000 := by
  have hnode := plainBlocks_nodeChain 2000 (n := 2000) (by decide)
  have hlength : (plainRecords 2000 2000).length = 2000 := length_branchRecords _ _ _
  have hsizes : ∀ r ∈ plainRecords 2000 2000, r.endTreeSizes = default := by
    intro r hr
    obtain ⟨height, -, rfl⟩ := List.mem_map.mp hr
    rfl
  obtain ⟨encoded, hencoded⟩ := hnode.encodedAs
  have hconnected := hnode.connected
  generalize plainRecords 2000 2000 = chain at *
  have hrange : ((chain.drop 1000).take rangeSize).length = rangeSize := by
    rw [List.length_take, List.length_drop, hlength]
    rfl
  obtain ⟨blob, hblob⟩ := encodeRange_isOk ((hencoded.drop 1000).take rangeSize).storedAs hrange
    ((hconnected.isChain.drop 1000).take rangeSize) (by
      intro r hr
      rw [List.head?_take, if_neg (by decide), List.head?_drop] at hr
      rw [hconnected.height_eq hr]
      rfl)
  obtain ⟨d, hnew, hread⟩ := StoresRange.of_encodeRange hblob (by rw [hlength]; decide)
  obtain ⟨first, hfirst, hreadFirst⟩ := hread 0 (by decide)
  obtain ⟨last, hlast, hreadLast⟩ := hread (rangeSize - 1) (by decide)
  have hmem : ∀ {i r}, i < rangeSize → chain[1000 + i]? = some r →
      r ∈ (chain.drop 1000).take rangeSize := by
    intro i r hi hr
    refine List.mem_of_getElem? (i := i) ?_
    rw [List.getElem?_take_of_lt hi, List.getElem?_drop, hr]
  have hnodup : (((chain.drop 1000).take rangeSize).map (·.hash)).Nodup :=
    (hconnected.nodup_hashes (HeightOf.functional_ofFun _)).sublist
      (((List.take_sublist _ _).trans (List.drop_sublist _ _)).map _)
  obtain ⟨hverify, hzero⟩ := oneRange_verify hnew hreadFirst hreadLast hnodup hrange
    (hmem (by decide) hfirst) (hmem (by decide) hlast) (hsizes _ (List.mem_of_getElem? hlast))
  refine ⟨_, _, _, first, hverify, rfl, ?_, hzero, hconnected.height_eq hfirst⟩
  exact Std.ExtTreeMap.mem_insert_self

end

end Ztreamer
