import Ztreamer.Index.Ingest

/-! # The chain of a store

    The abstract content of an index is one list of records, the chain from
    genesis to the tip. `Holds` says that the tables hold a chain: its first
    `sealed` blocks in sealed ranges, the blocks up to `rows` in mutable rows,
    and the hashes of all of them. `Describes` says that a state is the state
    of the chain. `Represents` puts both together for a committed store.

    A write passes through stores in which the last blocks of the chain are
    not in the tables yet; thus `rows` is a parameter.
-/

namespace Ztreamer

open Octets Result

variable {ν : Type}

/-! ## Heights of hashes -/

/-- The heights at which a block with a hash can stand. -/
structure HeightOf where
  allows : Hash → Nat → Prop

namespace HeightOf

/-- A hash determines a height. -/
def Functional (heightOf : HeightOf) : Prop :=
  ∀ hash a b, heightOf.allows hash a → heightOf.allows hash b → a = b

/-- A hash stands at the height that the function gives. -/
def ofFun (f : Hash → Nat) : HeightOf := ⟨fun hash height => f hash = height⟩

instance : Coe (Hash → Nat) HeightOf := ⟨ofFun⟩

theorem functional_ofFun (f : Hash → Nat) : (ofFun f).Functional :=
  fun _ _ _ ha hb => ha.symm.trans hb

/-- A hash can stand anywhere. -/
def any : HeightOf := ⟨fun _ _ => True⟩

end HeightOf

/-! ## Chains -/

/-- A chain from genesis, in which hashes stand at heights that they can have. -/
structure Connected (heightOf : HeightOf) (chain : List CompactBlockRecord) : Prop where
  isChain : chain.IsChain CompactBlockRecord.Precedes
  genesis : ∀ r ∈ chain.head?, r.height.val = 0
  heightOf_hash : ∀ r ∈ chain, heightOf.allows r.hash r.height.val

/-- In a list of records that follow each other, the heights count up. -/
theorem CompactBlockRecord.height_of_isChain {records : List CompactBlockRecord} {start : Nat}
    (h : records.IsChain CompactBlockRecord.Precedes)
    (hstart : ∀ r ∈ records.head?, r.height.val = start) {i : Nat} {r : CompactBlockRecord}
    (hi : records[i]? = some r) : r.height.val = start + i := by
  induction records generalizing start i with
  | nil => simp at hi
  | cons a records ih =>
    obtain ⟨hnext, hchain⟩ := List.isChain_cons.mp h
    have ha : a.height.val = start := hstart a (by simp)
    cases i with
    | zero =>
      obtain rfl : a = r := by simpa using hi
      exact ha
    | succ i =>
      have := @ih (start + 1) hchain
        (fun b hb => by have := (hnext b hb).1; omega) i (by simpa using hi)
      omega

namespace Connected

variable {heightOf : HeightOf} {chain : List CompactBlockRecord}

section

variable (h : Connected heightOf chain)

include h

theorem height_eq {i : Nat} {r : CompactBlockRecord} (hi : chain[i]? = some r) :
    r.height.val = i := by
  simpa using CompactBlockRecord.height_of_isChain h.isChain h.genesis hi

/-- A hash occurs at one height only. -/
theorem eq_of_hash_eq (hfun : heightOf.Functional) {i j : Nat} {a b : CompactBlockRecord}
    (hi : chain[i]? = some a) (hj : chain[j]? = some b) (hhash : a.hash = b.hash) : i = j := by
  have ha := h.heightOf_hash a (List.mem_of_getElem? hi)
  have hb := h.heightOf_hash b (List.mem_of_getElem? hj)
  rw [h.height_eq hi, hhash] at ha
  rw [h.height_eq hj] at hb
  exact hfun _ _ _ ha hb

theorem length_le : chain.length ≤ 2 ^ 32 := by
  cases hlen : chain.length with
  | zero => simp
  | succ n =>
    have hlast : chain[n]? = some chain[n] := List.getElem?_eq_getElem (by omega)
    have hheight := h.height_eq hlast
    have hlt := chain[n].height.isLt
    omega

theorem take (n : Nat) : Connected heightOf (chain.take n) where
  isChain := h.isChain.take n
  genesis r hr := by
    rw [List.head?_take] at hr
    split at hr
    · simp at hr
    · exact h.genesis r hr
  heightOf_hash r hr := h.heightOf_hash r (List.mem_of_mem_take hr)

theorem mem_drop_heights {n height : Nat} :
    height ∈ (chain.drop n).map (·.height.val) ↔ n ≤ height ∧ height < chain.length := by
  simp only [List.mem_map]
  constructor
  · rintro ⟨r, hr, rfl⟩
    obtain ⟨i, hi⟩ := List.mem_iff_getElem?.mp hr
    rw [List.getElem?_drop] at hi
    rw [h.height_eq hi]
    exact ⟨by omega, (List.getElem?_eq_some_iff.mp hi).1⟩
  · rintro ⟨hle, hlt⟩
    have hr : chain[height]? = some chain[height] := List.getElem?_eq_getElem hlt
    refine ⟨chain[height], List.mem_of_getElem? (i := height - n) ?_, h.height_eq hr⟩
    rw [List.getElem?_drop, Nat.add_sub_cancel' hle, hr]

end

/-- `records` continue the chain: they follow each other, the first follows the
    last block of the chain, and their hashes determine their heights. -/
structure Extends (heightOf : HeightOf) (chain records : List CompactBlockRecord) : Prop where
  isChain : records.IsChain CompactBlockRecord.Precedes
  height : ∀ r ∈ records.head?, r.height.val = chain.length
  link : ∀ last ∈ chain.getLast?, ∀ r ∈ records.head?, r.previousHash = last.hash
  heightOf_hash : ∀ r ∈ records, heightOf.allows r.hash r.height.val

theorem getLast_height (h : Connected heightOf chain) {last : CompactBlockRecord}
    (hlast : last ∈ chain.getLast?) : last.height.val + 1 = chain.length := by
  rw [Option.mem_def, List.getLast?_eq_getElem?] at hlast
  have := h.height_eq hlast
  have := (List.getElem?_eq_some_iff.mp hlast).1
  omega

theorem append (h : Connected heightOf chain) {records : List CompactBlockRecord}
    (hr : Extends heightOf chain records) : Connected heightOf (chain ++ records) where
  isChain := List.isChain_append.mpr ⟨h.isChain, hr.isChain, fun last hlast r hhead =>
    ⟨by rw [h.getLast_height hlast, hr.height r hhead], hr.link last hlast r hhead⟩⟩
  genesis r hhead := by
    cases hc : chain with
    | nil =>
      have := hr.height r (by simpa [hc] using hhead)
      simpa [hc] using this
    | cons a chain => exact h.genesis r (by simpa [hc] using hhead)
  heightOf_hash r hmem := by
    rcases List.mem_append.mp hmem with hmem | hmem
    · exact h.heightOf_hash r hmem
    · exact hr.heightOf_hash r hmem

theorem extends_of_append {records : List CompactBlockRecord}
    (h : Connected heightOf (chain ++ records)) : Extends heightOf chain records where
  isChain := (List.isChain_append.mp h.isChain).2.1
  height r hr := by
    refine h.height_eq (i := chain.length) ?_
    rw [List.getElem?_append_right le_rfl, Nat.sub_self, ← List.head?_eq_getElem?]
    exact hr
  link last hlast r hr := ((List.isChain_append.mp h.isChain).2.2 last hlast r hr).2
  heightOf_hash r hr := h.heightOf_hash r (List.mem_append_right chain hr)

end Connected

/-! ## The state of a chain -/

/-- The state of a chain with `sealed` blocks in ranges. -/
structure Describes (st : IndexState) (chain : List CompactBlockRecord) (sealed : Nat) : Prop where
  tip : st.durableTip = chain.getLast?.map (·.blockId)
  treeSizes : st.treeSizes = chain.getLast?.elim default (·.endTreeSizes)
  sealedEnd : st.sealedEnd = sealed
  verified : ∀ through ∈ st.verifiedThrough, IsRangeEnd through ∧ through < sealed

section

variable {heightOf : HeightOf} {st : IndexState} {chain : List CompactBlockRecord} {sealed : Nat}

namespace Describes

variable (h : Describes st chain sealed)

include h

theorem tip_of_getLast {last : CompactBlockRecord} (hlast : chain.getLast? = some last) :
    st.durableTip = some last.blockId ∧ st.treeSizes = last.endTreeSizes := by
  simp [h.tip, h.treeSizes, hlast]

/-- The tip is the last block of the chain. -/
theorem tip_eq_some_iff {tip : BlockId} :
    st.durableTip = some tip ↔ ∃ last, chain.getLast? = some last ∧ last.blockId = tip := by
  simp [h.tip]

theorem tip_height (hc : Connected heightOf chain) {tip : BlockId}
    (htip : st.durableTip = some tip) : tip.height + 1 = chain.length := by
  obtain ⟨last, hlast, rfl⟩ := h.tip_eq_some_iff.mp htip
  exact hc.getLast_height hlast

theorem exists_tip (hc : Connected heightOf chain) {i : Nat} (hi : i < chain.length) :
    ∃ tip ∈ st.durableTip, i ≤ tip.height := by
  have hne : chain ≠ [] := by rintro rfl; simp at hi
  have hlast := List.getLast?_eq_some_getLast hne
  refine ⟨_, (h.tip_of_getLast hlast).1, ?_⟩
  have : (chain.getLast hne).height.val + 1 = chain.length := hc.getLast_height hlast
  simp only [CompactBlockRecord.blockId]
  omega

theorem nextHeight_eq_some (hc : Connected heightOf chain) {height : Nat} :
    st.nextHeight = some height ↔ height = chain.length ∧ (chain ≠ [] → height < 2 ^ 32) := by
  cases hlast : chain.getLast? with
  | none =>
    have hnil : chain = [] := List.getLast?_eq_none_iff.mp hlast
    simp [IndexState.nextHeight, h.tip, hnil, eq_comm]
  | some last =>
    have hne : chain ≠ [] := by rintro rfl; simp at hlast
    have hheight : last.height.val + 1 = chain.length := hc.getLast_height hlast
    simp only [IndexState.nextHeight, (h.tip_of_getLast hlast).1, CompactBlockRecord.blockId]
    split <;> simp [hne] <;> omega

end Describes

end

/-! ## Tables that hold a chain -/

section

variable [Proto.Prost]

/-- The blob stores the blocks of the chain from `start` on. -/
def StoresRange (blob : Bytes) (chain : List CompactBlockRecord) (start : Nat) : Prop :=
  ∃ d, RangeDecoder.new blob = .ok d ∧
    ∀ i < rangeSize, ∃ r, chain[start + i]? = some r ∧ d.record i = .ok r

/-- The tables hold `chain`: its first `sealed` blocks in ranges, the blocks from
    there to `rows` in rows, and all of its hashes. -/
structure Holds (heightOf : HeightOf) (s : Store ν) (chain : List CompactBlockRecord)
    (sealed rows : Nat) : Prop where
  connected : Connected heightOf chain
  sealed_aligned : sealed % rangeSize = 0
  sealed_le : sealed ≤ rows
  rows_le : rows ≤ chain.length
  sealed_key : ∀ (start : Nat) (blob : Bytes), s.sealedRanges[start]? = some blob →
    start % rangeSize = 0 ∧ start < sealed
  sealed_range : ∀ start : Nat, start % rangeSize = 0 → start < sealed →
    ∃ blob, s.sealedRanges[start]? = some blob ∧ StoresRange blob chain start
  mutable_key : ∀ (h : Nat) (bytes : Bytes), s.mutableBlocks[h]? = some bytes →
    sealed ≤ h ∧ h < rows
  mutable_row : ∀ h : Nat, sealed ≤ h → h < rows →
    ∃ r bytes, chain[h]? = some r ∧ s.mutableBlocks[h]? = some bytes ∧ r.encode = .ok bytes
  hash_iff : heightOf.Functional → ∀ (hash : Hash) (h : Nat), s.hashToHeight[hash]? = some h ↔
    ∃ r, chain[h]? = some r ∧ r.hash = hash
  range_meta : ∀ (start : Nat) (info : RangeMeta ν), s.rangeMeta[start]? = some info →
    start % rangeSize = 0 ∧ start < sealed ∧ (heightOf.Functional →
      ∃ r, chain[start + (rangeSize - 1)]? = some r ∧ info.entry.endHash = r.hash)

/-- The store with the state `st` represents `chain`. -/
structure Represents (heightOf : HeightOf) (s : Store ν) (st : IndexState)
    (chain : List CompactBlockRecord) : Prop where
  state : s.getState = .ok st
  holds : Holds heightOf s chain st.sealedEnd chain.length
  describes : Describes st chain st.sealedEnd

variable {heightOf : HeightOf} {s : Store ν} {st : IndexState}
  {chain : List CompactBlockRecord} {sealed rows : Nat}

theorem represents_empty : Represents heightOf (Store.empty : Store ν) {} [] where
  state := rfl
  holds :=
    { connected := ⟨by simp, by simp, by simp⟩
      sealed_aligned := rfl
      sealed_le := le_rfl
      rows_le := le_rfl
      sealed_key := by intro start blob h; simp [Store.empty] at h
      sealed_range := by intro start _ hlt; simp [IndexState.sealedEnd] at hlt
      mutable_key := by intro h bytes hget; simp [Store.empty] at hget
      mutable_row := by intro h _ hlt; simp at hlt
      hash_iff := by intro _ hash h; simp [Store.empty]
      range_meta := by intro start info h; simp [Store.empty] at h }
  describes := ⟨rfl, rfl, rfl, by simp⟩

/-! ### Reads -/

/-- `bytes` is what the tables store for the block at `height`. -/
def Store.StoredAt (s : Store ν) (st : IndexState) (height : Nat) (bytes : Bytes) : Prop :=
  if height < st.sealedEnd then
    ∃ blob d, s.sealedRanges[rangeStart height]? = some blob ∧ RangeDecoder.new blob = .ok d ∧
      d.Stores (height % rangeSize) bytes
  else s.mutableBlocks[height]? = some bytes

omit [Proto.Prost] in
theorem Store.StoredAt.unique {i : Nat} {bytes bytes' : Bytes} (h : s.StoredAt st i bytes)
    (h' : s.StoredAt st i bytes') : bytes = bytes' := by
  unfold Store.StoredAt at h h'
  split at h
  · rw [if_pos (by assumption)] at h'
    obtain ⟨blob, d, hblob, hnew, hstores⟩ := h
    obtain ⟨blob', d', hblob', hnew', hstores'⟩ := h'
    obtain rfl : blob = blob' := Option.some.inj (hblob.symm.trans hblob')
    obtain rfl : d = d' := Except.ok.inj (hnew.symm.trans hnew')
    exact hstores.unique hstores'
  · rw [if_neg (by assumption)] at h'
    exact Option.some.inj (h.symm.trans h')

/-- A block of the chain that is in the tables is stored as bytes that decode to
    it, and every view reads these bytes. -/
theorem Holds.stored (h : Holds heightOf s chain sealed rows) (hsealed : st.sealedEnd = sealed)
    {i : Nat} {r : CompactBlockRecord} (hr : chain[i]? = some r) (hi : i < rows)
    (htip : ∃ tip ∈ st.durableTip, i ≤ tip.height) :
    ∃ bytes, s.StoredAt st i bytes ∧ CompactBlockRecord.decode bytes = .ok r ∧
      ∀ (α : Type) [StoredBlock α] [LawfulStoredBlock α] (a : α),
        StoredBlock.decode bytes = .ok a → s.read α st i = .ok a := by
  by_cases hlt : i < sealed
  · have hle := rangeStart_le i
    have hmod : i % rangeSize < rangeSize := Nat.mod_lt _ (by simp [rangeSize])
    obtain ⟨blob, hblob, d, hnew, hrecords⟩ := h.sealed_range (rangeStart i) (rangeStart_mod i)
      (by omega)
    obtain ⟨r', hr', hrecord⟩ := hrecords (i % rangeSize) hmod
    rw [rangeStart_add_mod, hr] at hr'
    obtain rfl : r = r' := by simpa using hr'
    have hindex : i - rangeStart i = i % rangeSize := by
      have := rangeStart_add_mod i
      omega
    obtain ⟨bytes, hstores, hdecode, -⟩ :=
      RangeDecoder.recordAs_of_record CompactBlockRecord hrecord
    have hat : s.StoredAt st i bytes := by
      unfold Store.StoredAt
      rw [if_pos (by omega)]
      exact ⟨blob, d, hblob, hnew, hstores⟩
    refine ⟨bytes, hat, hdecode, fun α _ _ a ha => ?_⟩
    obtain ⟨bytes', hstores', -, hread⟩ := RangeDecoder.recordAs_of_record α hrecord
    obtain rfl := hstores.unique hstores'
    simp only [Store.read, Store.find, hsealed, if_pos hlt, hblob, SealedRange.new, hnew,
      SealedRange.read, hindex, ensure_of _ htip, ensure_of _ hle, okMapError_ok, ok_bind,
      pure_eq_ok, okOr_some, hread a ha]
  · obtain ⟨r', bytes, hr', hrow, hencode⟩ := h.mutable_row i (by omega) hi
    rw [hr] at hr'
    obtain rfl : r = r' := by simpa using hr'
    have hat : s.StoredAt st i bytes := by
      unfold Store.StoredAt
      rw [if_neg (by omega)]
      exact hrow
    refine ⟨bytes, hat, CompactBlockRecord.decode_encode hencode, fun α _ _ a ha => ?_⟩
    simp only [Store.read, hsealed, if_neg hlt, hrow, ensure_of _ htip, okMapError_ok, ok_bind,
      okOr_some, ha]

theorem Holds.read_record (h : Holds heightOf s chain sealed rows)
    (hsealed : st.sealedEnd = sealed) {i : Nat} {r : CompactBlockRecord}
    (hr : chain[i]? = some r) (hi : i < rows) (htip : ∃ tip ∈ st.durableTip, i ≤ tip.height) :
    s.read CompactBlockRecord st i = .ok r := by
  obtain ⟨bytes, -, hdecode, hread⟩ := h.stored hsealed hr hi htip
  exact hread CompactBlockRecord r hdecode

namespace Represents

variable (h : Represents heightOf s st chain)

include h

theorem connected : Connected heightOf chain := h.holds.connected

/-- Every block of the chain is read. -/
theorem read {i : Nat} {r : CompactBlockRecord} (hr : chain[i]? = some r) :
    s.read CompactBlockRecord st i = .ok r := by
  have hi : i < chain.length := (List.getElem?_eq_some_iff.mp hr).1
  exact h.holds.read_record rfl hr hi (h.describes.exists_tip h.connected hi)

/-- Only the blocks of the chain are read. -/
theorem read_eq_ok {i : Nat} {r : CompactBlockRecord}
    (hread : s.read CompactBlockRecord st i = .ok r) : chain[i]? = some r := by
  have hi : i < chain.length := by
    simp only [Store.read, bind_eq_ok, ensure_eq_ok] at hread
    obtain ⟨-, ⟨tip, htip, hle⟩, -⟩ := hread
    have := h.describes.tip_height h.connected htip
    omega
  rw [h.read (List.getElem?_eq_getElem hi)] at hread
  rw [List.getElem?_eq_getElem hi]
  simpa using hread

/-- A store represents one chain. -/
theorem chain_unique {heightOf' : HeightOf} {st' : IndexState} {chain' : List CompactBlockRecord}
    (h' : Represents heightOf' s st' chain') : chain = chain' := by
  obtain rfl : st = st' := Except.ok.inj (h.state.symm.trans h'.state)
  refine List.ext_getElem? fun height => Option.ext fun r => ?_
  constructor
  · intro hr
    exact h'.read_eq_ok (h.read hr)
  · intro hr
    exact h.read_eq_ok (h'.read hr)

end Represents

end

end Ztreamer
