import Ztreamer.Index.Coverage

/-! # Sealing

    `Writer.sealRanges` moves the mutable rows of complete ranges, and batch
    rows that are in no table yet, into sealed ranges. It keeps the chain: the
    new blobs are the encoded ranges of the chain, and how far it seals is
    given by `sealTarget`.
-/

namespace Ztreamer

open Octets Result

variable {ν : Type}

/-! ## How far a write seals -/

/-- The number of sealed blocks after sealing `len` blocks through `sealThrough`. -/
def sealTarget (sealThrough : Option Nat) (sealed len : Nat) : Nat :=
  sealThrough.elim sealed fun through =>
    max sealed (min (through + 1) len / rangeSize * rangeSize)

theorem sealTarget_sealTarget {sealThrough : Option Nat} {n m : Nat} (h : n ≤ m) :
    sealTarget sealThrough (sealTarget sealThrough 0 n) m = sealTarget sealThrough 0 m := by
  cases sealThrough with
  | none => rfl
  | some through =>
    simp only [sealTarget, Option.elim_some, rangeSize]
    omega

theorem le_sealTarget (sealThrough : Option Nat) (sealed len : Nat) :
    sealed ≤ sealTarget sealThrough sealed len := by
  cases sealThrough with
  | none => exact le_rfl
  | some through => exact Nat.le_max_left _ _

variable {sealed : Nat} {chain records : List CompactBlockRecord} {blocks : List EncodedBlock}

variable {through len : Nat} {st : IndexState} {block : EncodedBlock}

/-- The next range is complete and may be sealed. -/
theorem sealTarget_step (hmod : sealed % rangeSize = 0)
    (hthrough : sealed + (rangeSize - 1) ≤ through) (hlen : sealed + rangeSize ≤ len) :
    sealTarget (some through) sealed len =
        sealTarget (some through) (sealed + rangeSize) len ∧
      sealed + rangeSize ≤ sealTarget (some through) sealed len := by
  simp only [sealTarget, Option.elim_some, rangeSize] at *
  omega

/-- The next range is not complete or may not be sealed. -/
theorem sealTarget_done (hmod : sealed % rangeSize = 0)
    (h : through < sealed + (rangeSize - 1) ∨ len ≤ sealed + (rangeSize - 1)) :
    sealTarget (some through) sealed len = sealed := by
  simp only [sealTarget, Option.elim_some, rangeSize] at *
  omega

/-- The state after the ranges from `sealedEnd` to `target` are sealed. A verified
    prefix that reaches `sealedEnd` grows with them. -/
def IndexState.sealTo (st : IndexState) (target : Nat) : IndexState :=
  if target ≤ st.sealedEnd then st
  else { st with
    sealedThrough := some (target - 1)
    verifiedThrough := if st.verifiedThrough.map (· + 1) = some st.sealedEnd
      then some (target - 1) else st.verifiedThrough }

namespace IndexState

variable {st : IndexState} {target : Nat}

theorem sealTo_of_le (h : target ≤ st.sealedEnd) :
    st.sealTo target = st := if_pos h

@[simp] theorem sealTo_durableTip (st : IndexState) (target : Nat) :
    (st.sealTo target).durableTip = st.durableTip := by
  unfold sealTo; split <;> rfl

@[simp] theorem sealTo_treeSizes (st : IndexState) (target : Nat) :
    (st.sealTo target).treeSizes = st.treeSizes := by
  unfold sealTo; split <;> rfl

@[simp] theorem sealTo_generation (st : IndexState) (target : Nat) :
    (st.sealTo target).generation = st.generation := by
  unfold sealTo; split <;> rfl

theorem sealTo_sealedThrough (h : st.sealedEnd < target) :
    (st.sealTo target).sealedThrough = some (target - 1) := by
  rw [sealTo, if_neg (by omega)]

theorem sealTo_verifiedThrough (h : st.sealedEnd < target) :
    (st.sealTo target).verifiedThrough =
      if st.verifiedThrough.map (· + 1) = some st.sealedEnd then some (target - 1)
      else st.verifiedThrough := by
  rw [sealTo, if_neg (by omega)]

theorem sealTo_sealedEnd (st : IndexState) (target : Nat) :
    (st.sealTo target).sealedEnd = max st.sealedEnd target := by
  by_cases h : target ≤ st.sealedEnd
  · rw [sealTo_of_le h]
    omega
  · have := sealedThrough_eq_some_iff.mp (sealTo_sealedThrough (Nat.not_le.mp h))
    omega

/-- Sealing in two steps is sealing in one. -/
theorem sealTo_sealTo (hv : ∀ v ∈ st.verifiedThrough, v < st.sealedEnd) {a b : Nat} (h : a ≤ b) :
    (st.sealTo a).sealTo b = st.sealTo b := by
  have hend := sealTo_sealedEnd st a
  by_cases ha : a ≤ st.sealedEnd
  · rw [sealTo_of_le ha]
  by_cases hab : b = a
  · subst hab
    exact sealTo_of_le (by omega)
  have hverified : ((st.sealTo a).sealTo b).verifiedThrough = (st.sealTo b).verifiedThrough := by
    rw [sealTo_verifiedThrough (by omega), sealTo_verifiedThrough (by omega),
      sealTo_verifiedThrough (by omega), hend]
    cases hver : st.verifiedThrough with
    | none => simp
    | some v =>
      have hlt : v < st.sealedEnd := hv v (by simp [hver])
      by_cases hjoin : v + 1 = st.sealedEnd
      · simp [hjoin]; omega
      · simp [hjoin]; omega
  ext1
  · simp
  · rw [sealTo_sealedThrough (by omega), sealTo_sealedThrough (by omega)]
  · exact hverified
  · simp
  · simp

end IndexState

/-! ## What sealing changes -/

/-- From `s` to `s'`, the ranges of the chain from `sealed` to `target` were packed.
    The other ranges and the range metadata did not change. -/
structure Packs (s s' : Store ν) (chain : List CompactBlockRecord) (sealed target : Nat) :
    Prop where
  old : ∀ start < sealed, s'.sealedRanges[start]? = s.sealedRanges[start]?
  new : ∀ start : Nat, start % rangeSize = 0 → sealed ≤ start → start < target →
    ∃ blob, s'.sealedRanges[start]? = some blob ∧
      encodeRange ((chain.drop start).take rangeSize) = .ok blob
  rangeMeta : s'.rangeMeta = s.rangeMeta

theorem Packs.refl (s : Store ν) (chain : List CompactBlockRecord) (sealed : Nat) :
    Packs s s chain sealed sealed :=
  ⟨fun _ _ => rfl, fun _ _ hle hlt => absurd hlt (Nat.not_lt.mpr hle), rfl⟩

theorem Packs.trans {s₁ s₂ s₃ : Store ν} {a b c : Nat} (h : Packs s₁ s₂ chain a b)
    (h' : Packs s₂ s₃ chain b c) (hab : a ≤ b) : Packs s₁ s₃ chain a c where
  old start hlt := (h'.old start (by omega)).trans (h.old start hlt)
  new start hmod hle hlt := by
    by_cases hb : start < b
    · obtain ⟨blob, hblob, hrange⟩ := h.new start hmod hle hb
      exact ⟨blob, by rw [h'.old start hb, hblob], hrange⟩
    · exact h'.new start hmod (by omega) hlt
  rangeMeta := h'.rangeMeta.trans h.rangeMeta

theorem joinSealedRange_eq_sealTo (h : st.sealedEnd = sealed) :
    Writer.joinSealedRangeToVerifiedPrefix
      { st with sealedThrough := some (sealed + (rangeSize - 1)) } sealed
      (sealed + (rangeSize - 1)) = st.sealTo (sealed + rangeSize) := by
  have hlt : st.sealedEnd < sealed + rangeSize := by simp [h, rangeSize]
  have hstop : sealed + rangeSize - 1 = sealed + (rangeSize - 1) := by simp [rangeSize]
  rw [IndexState.sealTo, if_neg (by omega), hstop, h, Writer.joinSealedRangeToVerifiedPrefix]
  split <;> rfl

theorem Describes.sealTo (h : Describes st chain st.sealedEnd) {target : Nat}
    (hmod : target % rangeSize = 0) :
    Describes (st.sealTo target) chain (st.sealTo target).sealedEnd where
  tip := by rw [IndexState.sealTo_durableTip]; exact h.tip
  treeSizes := by rw [IndexState.sealTo_treeSizes]; exact h.treeSizes
  sealedEnd := rfl
  verified through hthrough := by
    rw [IndexState.sealTo_sealedEnd]
    by_cases hle : target ≤ st.sealedEnd
    · rw [IndexState.sealTo_of_le hle] at hthrough
      obtain ⟨hend, hlt⟩ := h.verified through hthrough
      exact ⟨hend, by omega⟩
    · rw [IndexState.sealTo_verifiedThrough (by omega)] at hthrough
      split at hthrough
      · obtain rfl : target - 1 = through := by simpa using hthrough
        simp only [IsRangeEnd, rangeSize] at hmod ⊢
        omega
      · obtain ⟨hend, hlt⟩ := h.verified through hthrough
        exact ⟨hend, by omega⟩

/-! ## One range -/

theorem CompactBlockRecord.encodeBlock_eq_ok {r : CompactBlockRecord} :
    r.encodeBlock = .ok block ↔ r.encode = .ok block.bytes ∧ block.height = r.height.val ∧
      block.hash = r.hash ∧ block.previousHash = r.previousHash := by
  simp only [CompactBlockRecord.encodeBlock, bind_eq_ok, pure_eq_ok, Except.ok.injEq]
  constructor
  · rintro ⟨bytes, hbytes, rfl⟩
    exact ⟨hbytes, rfl, rfl, rfl⟩
  · rintro ⟨hbytes, hheight, hhash, hprevious⟩
    refine ⟨_, hbytes, ?_⟩
    cases block
    simp_all

/-- `blocks` are the encoded `records`. -/
def EncodedAs (records : List CompactBlockRecord) (blocks : List EncodedBlock) : Prop :=
  List.Forall₂ (fun r block => r.encodeBlock = .ok block) records blocks

theorem exists_encodedAs (h : ∀ r ∈ records, ∃ bytes, r.encode = .ok bytes) :
    ∃ blocks, EncodedAs records blocks := by
  induction records with
  | nil => exact ⟨[], .nil⟩
  | cons r records ih =>
    obtain ⟨bytes, hbytes⟩ := h r List.mem_cons_self
    obtain ⟨blocks, hblocks⟩ := ih fun r hr => h r (List.mem_cons_of_mem _ hr)
    exact ⟨⟨_, _, _, _⟩ :: blocks,
      .cons (CompactBlockRecord.encodeBlock_eq_ok.mpr ⟨hbytes, rfl, rfl, rfl⟩) hblocks⟩

theorem EncodedAs.storedAs (h : EncodedAs records blocks) :
    StoredAs records (blocks.map (·.bytes)) := by
  rw [StoredAs, List.forall₂_map_right_iff]
  exact h.imp fun r block hb => (CompactBlockRecord.encodeBlock_eq_ok.mp hb).1

theorem EncodedAs.take (h : EncodedAs records blocks) (n : Nat) :
    EncodedAs (records.take n) (blocks.take n) :=
  List.forall₂_take n h

theorem EncodedAs.drop (h : EncodedAs records blocks) (n : Nat) :
    EncodedAs (records.drop n) (blocks.drop n) :=
  List.forall₂_drop n h

/-- The first pending block is the next of the chain. -/
theorem EncodedAs.head_height {heightOf : HeightOf} {rows : Nat} (hc : Connected heightOf chain)
    (hp : EncodedAs (chain.drop rows) blocks) (hhead : blocks.head? = some block) :
    block.height = rows ∧ rows < chain.length := by
  cases hp' : chain.drop rows with
  | nil =>
    rw [hp'] at hp
    cases hp
    simp at hhead
  | cons r rest =>
    rw [hp'] at hp
    cases hp with
    | cons hblock _ =>
      obtain rfl : _ = block := by simpa using hhead
      have hr : chain[rows]? = some r := by
        have := congrArg (·[0]?) hp'
        simpa using this
      obtain ⟨-, hheight, -⟩ := CompactBlockRecord.encodeBlock_eq_ok.mp hblock
      rw [hheight, hc.height_eq hr]
      exact ⟨rfl, (List.getElem?_eq_some_iff.mp hr).1⟩

section

variable [Proto.Prost] {heightOf : HeightOf} {s s' : Store ν} {w : Writer ν}
  {chain : List CompactBlockRecord} {sealed rows : Nat} {blocks : List EncodedBlock}

/-- The mutable rows of a segment of the chain are the encodings of its blocks. -/
theorem Holds.readChecked_rows (h : Holds heightOf w.tables chain sealed rows) (start : Nat)
    (n : Nat) {height : Nat} (hle : sealed ≤ height) (hlt : height + n ≤ rows) :
    ∃ parts, (List.range' height n).mapM (w.readChecked start) = .ok parts ∧
      StoredAs ((chain.drop height).take n) parts := by
  induction n generalizing height with
  | zero => exact ⟨[], rfl, by simp [StoredAs]⟩
  | succ n ih =>
    obtain ⟨r, bytes, hr, hrow, hencode⟩ := h.mutable_row height hle (by omega)
    obtain ⟨parts, hparts, hstored⟩ := @ih (height + 1) (by omega) (by omega)
    have hread : w.readChecked start height = .ok bytes := by
      have hcheck : r.check = .ok () := by
        obtain ⟨hpayload, -⟩ := CompactBlockRecord.encode_eq_ok.mp hencode
        exact ensure_of _ hpayload
      simp [Writer.readChecked, hrow, CompactBlockRecord.decode_encode hencode, hcheck]
    have hdrop : chain.drop height = r :: chain.drop (height + 1) := by
      obtain ⟨hlt', rfl⟩ := List.getElem?_eq_some_iff.mp hr
      exact List.drop_eq_getElem_cons hlt'
    refine ⟨bytes :: parts, ?_, ?_⟩
    · rw [List.range'_succ, List.mapM_cons, hread, ok_bind, hparts]
      rfl
    · rw [hdrop, List.take_succ_cons]
      exact .cons hencode hstored

/-- Sealing the next complete range succeeds. It packs the blocks of the chain. -/
theorem Holds.sealRange_eq (h : Holds heightOf w.tables chain sealed rows)
    (hp : EncodedAs (chain.drop rows) blocks) (hlen : sealed + rangeSize ≤ chain.length) :
    ∃ blob, encodeRange ((chain.drop sealed).take rangeSize) = .ok blob ∧
      w.sealRange sealed (sealed + (rangeSize - 1)) blocks =
        .ok (⟨{ w.tables with
            sealedRanges := w.tables.sealedRanges.insert sealed blob
            mutableBlocks := Table.deleteAll w.tables.mutableBlocks
              (List.range' sealed (min rows (sealed + rangeSize) - sealed)) },
          Writer.joinSealedRangeToVerifiedPrefix
            { w.state with sealedThrough := some (sealed + (rangeSize - 1)) } sealed
            (sealed + (rangeSize - 1))⟩,
          blocks.drop (sealed + rangeSize - rows)) := by
  have hpos : 0 < rangeSize := by simp [rangeSize]
  have hsealed := h.sealed_le
  have hrows := h.rows_le
  have hblocksLen : blocks.length = chain.length - rows := by
    rw [← hp.length_eq, List.length_drop]
  have hend : min (blocks.head?.elim (sealed + (rangeSize - 1) + 1) (·.height))
      (sealed + (rangeSize - 1) + 1) = min rows (sealed + rangeSize) := by
    cases hhead : blocks.head? with
    | none =>
      have : blocks.length = 0 := by simpa using hhead
      simp only [Option.elim_none]
      omega
    | some block =>
      obtain ⟨hheight, -⟩ := hp.head_height h.connected hhead
      simp only [Option.elim_some, hheight]
      omega
  obtain ⟨parts, hparts, hstored⟩ := h.readChecked_rows sealed
    (min rows (sealed + rangeSize) - sealed) le_rfl (by omega)
  have hpartsLen : parts.length = min rows (sealed + rangeSize) - sealed := by
    rw [← hstored.length_eq, List.length_take, List.length_drop]
    omega
  have hmissing : rangeSize - parts.length = sealed + rangeSize - rows := by omega
  -- the rows and the batch rows together are the range
  have hsegment : (chain.drop sealed).take rangeSize =
      (chain.drop sealed).take (min rows (sealed + rangeSize) - sealed) ++
        (chain.drop rows).take (sealed + rangeSize - rows) := by
    by_cases hle : sealed + rangeSize ≤ rows
    · rw [Nat.min_eq_right hle, Nat.add_sub_cancel_left, Nat.sub_eq_zero_of_le hle]
      simp
    · have hsum : rangeSize = (rows - sealed) + (sealed + rangeSize - rows) := by omega
      rw [Nat.min_eq_left (by omega)]
      conv_lhs => rw [hsum, List.take_add, List.drop_drop, Nat.add_sub_cancel' hsealed]
  have hall : StoredAs ((chain.drop sealed).take rangeSize)
      (parts ++ (blocks.take (sealed + rangeSize - rows)).map (·.bytes)) := by
    rw [hsegment]
    exact List.rel_append hstored (hp.take _).storedAs
  obtain ⟨blob, hblob⟩ := encodeRange_isOk hall
    (by rw [List.length_take, List.length_drop]; omega)
    ((h.connected.isChain.drop sealed).take rangeSize) (by
      intro r hr
      rw [List.head?_take, if_neg (by omega), List.head?_drop] at hr
      rw [h.connected.height_eq hr]
      exact h.sealed_aligned)
  refine ⟨blob, hblob, ?_⟩
  rw [hall.encodeRange_eq] at hblob
  simp only [Writer.sealRange, hend, hparts, ok_bind, hmissing, ensure_of _
    (show sealed + rangeSize - rows ≤ blocks.length by omega), hblob, okMapError_ok, pure_eq_ok]

theorem StoresRange.of_encodeRange {blob : Bytes} {start : Nat}
    (h : encodeRange ((chain.drop start).take rangeSize) = .ok blob)
    (hlen : start + rangeSize ≤ chain.length) : StoresRange blob chain start := by
  obtain ⟨d, hnew, hread⟩ := RangeDecoder.recordAs_encodeRange CompactBlockRecord h
  refine ⟨d, hnew, fun i hi => ?_⟩
  obtain ⟨r, hr⟩ : ∃ r, chain[start + i]? = some r := ⟨_, List.getElem?_eq_getElem (by omega)⟩
  refine ⟨r, hr, (hread i r ?_).1⟩
  rw [List.getElem?_take_of_lt hi, List.getElem?_drop, hr]

/-- The tables hold the same chain after a blob takes the place of its rows. -/
theorem Holds.seal (h : Holds heightOf s chain sealed rows) {blob : Bytes}
    (hblob : StoresRange blob chain sealed) (hlen : sealed + rangeSize ≤ chain.length) :
    Holds heightOf { s with
      sealedRanges := s.sealedRanges.insert sealed blob
      mutableBlocks := Table.deleteAll s.mutableBlocks
        (List.range' sealed (min rows (sealed + rangeSize) - sealed)) }
      chain (sealed + rangeSize) (max rows (sealed + rangeSize)) := by
  have hsealed := h.sealed_le
  have hrows := h.rows_le
  have haligned := h.sealed_aligned
  -- blocks of the range above the rows are new, and have no row to delete
  have hmem : ∀ height : Nat,
      height ∈ List.range' sealed (min rows (sealed + rangeSize) - sealed) ↔
        sealed ≤ height ∧ height < min rows (sealed + rangeSize) := by
    intro height
    rw [List.mem_range'_1]
    omega
  constructor
  case connected => exact h.connected
  case sealed_aligned => rw [Nat.add_mod_right]; exact haligned
  case sealed_le => omega
  case rows_le => omega
  case sealed_key =>
    intro start blob' hget
    rw [Table.get_put] at hget
    split at hget
    · subst_vars
      exact ⟨haligned, by simp [rangeSize]⟩
    · obtain ⟨hmod, hlt⟩ := h.sealed_key start blob' hget
      exact ⟨hmod, by omega⟩
  case sealed_range =>
    intro start hmod hlt
    by_cases heq : sealed = start
    · subst heq
      exact ⟨blob, by rw [Table.get_put, if_pos rfl], hblob⟩
    · have hlt' : start < sealed := by
        simp only [rangeSize] at hmod hlt haligned
        omega
      obtain ⟨blob', hget, hstores⟩ := h.sealed_range start hmod hlt'
      exact ⟨blob', by rw [Table.get_put, if_neg heq, hget], hstores⟩
  case mutable_key =>
    intro height bytes hget
    rw [Table.get_deleteAll] at hget
    split at hget
    · cases hget
    · rename_i hnot
      have := h.mutable_key height bytes hget
      rw [hmem] at hnot
      omega
  case mutable_row =>
    intro height hle hlt
    rw [Table.get_deleteAll, if_neg (by rw [hmem]; omega)]
    exact h.mutable_row height (by omega) (by omega)
  case hash_iff => exact h.hash_iff
  case range_meta =>
    intro start info hget
    obtain ⟨hmod, hlt, hend⟩ := h.range_meta start info hget
    exact ⟨hmod, by omega, hend⟩

/-! ## All complete ranges -/

/-- The writer holds a chain, of which `blocks` are not in the tables yet. -/
structure Writer.Builds (heightOf : HeightOf) (w : Writer ν) (chain : List CompactBlockRecord)
    (rows : Nat) (blocks : List EncodedBlock) : Prop where
  holds : Holds heightOf w.tables chain w.state.sealedEnd rows
  describes : Describes w.state chain w.state.sealedEnd
  pending : EncodedAs (chain.drop rows) blocks

/-- What sealing through `target` gives: the same chain, with the ranges packed,
    or an overflow at the largest heights. -/
def SealsTo (heightOf : HeightOf) (w : Writer ν) (chain : List CompactBlockRecord)
    (rows target : Nat) (result : Except IndexError (Writer ν × List EncodedBlock)) : Prop :=
  (result = .error .overflow ∧ 2 ^ 32 < chain.length + rangeSize) ∨
  ∃ w' blocks', result = .ok (w', blocks') ∧ w'.state = w.state.sealTo target ∧
    w'.Builds heightOf chain (max rows target) blocks' ∧
    Packs w.tables w'.tables chain w.state.sealedEnd target

variable (h : w.Builds heightOf chain rows blocks)

include h

theorem Writer.Builds.sealRange (hlen : w.state.sealedEnd + rangeSize ≤ chain.length) :
    ∃ w' blocks', w.sealRange w.state.sealedEnd (w.state.sealedEnd + (rangeSize - 1)) blocks =
        .ok (w', blocks') ∧ w'.state = w.state.sealTo (w.state.sealedEnd + rangeSize) ∧
      w'.Builds heightOf chain (max rows (w.state.sealedEnd + rangeSize)) blocks' ∧
      Packs w.tables w'.tables chain w.state.sealedEnd (w.state.sealedEnd + rangeSize) := by
  obtain ⟨blob, hblob, heq⟩ := h.holds.sealRange_eq h.pending hlen
  rw [joinSealedRange_eq_sealTo rfl] at heq
  have hend : (w.state.sealTo (w.state.sealedEnd + rangeSize)).sealedEnd =
      w.state.sealedEnd + rangeSize := by
    rw [IndexState.sealTo_sealedEnd]
    omega
  have haligned := h.holds.sealed_aligned
  refine ⟨_, _, heq, rfl, ⟨?_, ?_, ?_⟩, ?_⟩
  · simp only [hend]
    exact h.holds.seal (.of_encodeRange hblob hlen) hlen
  · exact h.describes.sealTo (by rw [Nat.add_mod_right]; exact haligned)
  · have hdrop : chain.drop (max rows (w.state.sealedEnd + rangeSize)) =
        (chain.drop rows).drop (w.state.sealedEnd + rangeSize - rows) := by
      rw [List.drop_drop]
      congr 1
      omega
    rw [hdrop]
    exact h.pending.drop _
  · refine ⟨fun start hlt => ?_, fun start hmod hle hlt => ?_, rfl⟩
    · rw [Table.get_put, if_neg (by omega)]
    · have : w.state.sealedEnd = start := by
        simp only [rangeSize] at hmod hlt haligned
        omega
      subst this
      exact ⟨blob, by rw [Table.get_put, if_pos rfl], hblob⟩

theorem Writer.Builds.sealFrom (through : Nat) :
    SealsTo heightOf w chain rows (sealTarget (some through) w.state.sealedEnd chain.length)
      (Writer.sealFrom through w.state.sealedEnd w blocks) := by
  -- induction on the number of blocks that are not sealed
  induction hn : chain.length - w.state.sealedEnd using Nat.strong_induction_on
    generalizing w rows blocks with
  | _ n ih =>
    have hsealed := h.holds.sealed_le
    have hrows := h.holds.rows_le
    have haligned := h.holds.sealed_aligned
    have hpos : 0 < rangeSize := by simp [rangeSize]
    unfold Writer.sealFrom
    split
    case isFalse => exact .inl ⟨rfl, by omega⟩
    case isTrue hfits =>
    simp only
    split
    case isTrue hdone =>
      have htarget : sealTarget (some through) w.state.sealedEnd chain.length =
          w.state.sealedEnd := by
        refine sealTarget_done haligned (hdone.imp (fun hgt => hgt) fun htip => ?_)
        by_contra hlt
        obtain ⟨tip, htip', hle⟩ := h.describes.exists_tip h.holds.connected (Nat.not_le.mp hlt)
        have := htip tip htip'
        omega
      refine .inr ⟨w, blocks, rfl, ?_, ?_, ?_⟩
      · rw [htarget, IndexState.sealTo_of_le le_rfl]
      · rw [htarget, Nat.max_eq_left hsealed]
        exact h
      · rw [htarget]
        exact .refl _ _ _
    case isFalse hmore =>
      push Not at hmore
      obtain ⟨hthrough, tip, htip, hle⟩ := hmore
      have hheight := h.describes.tip_height h.holds.connected htip
      have hlen : w.state.sealedEnd + rangeSize ≤ chain.length := by omega
      obtain ⟨w₁, blocks₁, heq, hstate, hbuilds, hpacks⟩ := h.sealRange hlen
      have hend : w₁.state.sealedEnd = w.state.sealedEnd + rangeSize := by
        rw [hstate, IndexState.sealTo_sealedEnd]
        omega
      obtain ⟨htarget, hge⟩ := sealTarget_step haligned hthrough hlen
      rw [heq]
      simp only
      split
      case isFalse => exact .inl ⟨rfl, by omega⟩
      case isTrue =>
      have hnext : w.state.sealedEnd + (rangeSize - 1) + 1 = w₁.state.sealedEnd := by omega
      rw [hnext, htarget, ← hend]
      rw [htarget, ← hend] at hge
      rcases ih _ (by omega) hbuilds rfl with ⟨herror, hlarge⟩ | ⟨w₂, blocks₂, hok, hstate₂, hb, hp⟩
      · exact .inl ⟨herror, hlarge⟩
      · refine .inr ⟨w₂, blocks₂, hok, ?_, ?_, ?_⟩
        · have hv : ∀ v ∈ w.state.verifiedThrough, v < w.state.sealedEnd :=
            fun v hv => (h.describes.verified v hv).2
          rw [hstate₂, ← IndexState.sealTo_sealTo hv hge, hend, hstate]
        · rwa [Nat.max_assoc, ← hend, Nat.max_eq_right hge] at hb
        · rw [← hend] at hpacks
          exact hpacks.trans hp (by omega)

theorem Writer.Builds.sealRanges (sealThrough : Option Nat) :
    SealsTo heightOf w chain rows (sealTarget sealThrough w.state.sealedEnd chain.length)
      (w.sealRanges sealThrough blocks) := by
  have hsealed := h.holds.sealed_le
  have hrows := h.holds.rows_le
  cases sealThrough with
  | none =>
    refine .inr ⟨w, blocks, rfl, ?_, ?_, ?_⟩
    · exact (IndexState.sealTo_of_le le_rfl).symm
    · rw [sealTarget, Option.elim_none, Nat.max_eq_left hsealed]
      exact h
    · exact .refl _ _ _
  | some through =>
    rw [Writer.sealRanges, IndexState.nextRangeStart, checkedHeight]
    split
    · exact h.sealFrom through
    · have hpos : 0 < rangeSize := by simp [rangeSize]
      exact .inl ⟨rfl, by omega⟩

end

end Ztreamer
