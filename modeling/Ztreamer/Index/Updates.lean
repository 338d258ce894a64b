import Ztreamer.Index.Sealing

/-! # Table updates

    What the puts and deletes of a write do to the chain in the tables: hash
    entries extend it, rows store the blocks that are in no table yet, and
    deletes cut it.
-/

namespace Ztreamer

open Octets Result Connected

variable {ν : Type}

/-! ## Lists of puts and deletes -/

/-- The hash entries of `blocks`. -/
def hashRows (blocks : List EncodedBlock) : List (Hash × Nat) :=
  blocks.map fun block => (block.hash, block.height)

/-- The mutable rows of `blocks`. -/
def blockRows (blocks : List EncodedBlock) : List (Nat × Bytes) :=
  blocks.map fun block => (block.height, block.bytes)

variable {records : List CompactBlockRecord}

theorem EncodedAs.mem_hashRows {blocks : List EncodedBlock} (h : EncodedAs records blocks)
    {hash : Hash} {height : Nat} :
    (hash, height) ∈ hashRows blocks ↔
      ∃ r ∈ records, r.hash = hash ∧ r.height.val = height := by
  induction h with
  | nil => simp [hashRows]
  | cons hb _ ih =>
    obtain ⟨-, hheight, hhash, -⟩ := CompactBlockRecord.encodeBlock_eq_ok.mp hb
    simp only [hashRows] at ih
    simp only [hashRows, List.map_cons, List.mem_cons, Prod.mk.injEq, ih, hhash, hheight,
      exists_eq_or_imp]
    simp only [eq_comm]

theorem EncodedAs.mem_blockRows {blocks : List EncodedBlock} (h : EncodedAs records blocks)
    {height : Nat} {bytes : Bytes} :
    (height, bytes) ∈ blockRows blocks ↔
      ∃ r ∈ records, r.height.val = height ∧ r.encode = .ok bytes := by
  induction h with
  | nil => simp [blockRows]
  | cons hb _ ih =>
    obtain ⟨hencode, hheight, -, -⟩ := CompactBlockRecord.encodeBlock_eq_ok.mp hb
    simp only [blockRows] at ih
    simp only [blockRows, List.map_cons, List.mem_cons, Prod.mk.injEq, ih, hheight, hencode,
      exists_eq_or_imp, Except.ok.injEq]
    simp only [eq_comm]

/-- The puts of `putBlock` are those of a batch. -/
theorem foldlM_putBlock_eq_ok {w w' : Writer ν} :
    records.foldlM Writer.putBlock w = .ok w' ↔
      ∃ blocks, EncodedAs records blocks ∧
        w' = (w.putHashes blocks).putMutableBlocks blocks := by
  induction records generalizing w with
  | nil =>
    simp only [List.foldlM_nil, pure_eq_ok, Except.ok.injEq, EncodedAs,
      List.forall₂_nil_left_iff, exists_eq_left]
    exact eq_comm
  | cons r records ih =>
    simp only [List.foldlM_cons, bind_eq_ok, ih]
    constructor
    · rintro ⟨w₁, hput, blocks, hblocks, rfl⟩
      simp only [Writer.putBlock, bind_eq_ok, okMapError_eq_ok, pure_eq_ok, Except.ok.injEq] at hput
      obtain ⟨bytes, hbytes, rfl⟩ := hput
      exact ⟨⟨r.height.val, r.hash, r.previousHash, bytes⟩ :: blocks,
        .cons (CompactBlockRecord.encodeBlock_eq_ok.mpr ⟨hbytes, rfl, rfl, rfl⟩) hblocks, rfl⟩
    · rintro ⟨_, hblocks, rfl⟩
      cases hblocks with
      | @cons _ block _ blocks hb hblocks =>
        obtain ⟨hbytes, hheight, hhash, hprevious⟩ := CompactBlockRecord.encodeBlock_eq_ok.mp hb
        refine ⟨(w.putHashes [block]).putMutableBlocks [block], ?_, blocks, hblocks, rfl⟩
        simp only [Writer.putBlock, hbytes, okMapError_ok, ok_bind, pure_eq_ok, Writer.putHashes,
          Writer.putMutableBlocks, List.map_cons, List.map_nil, hheight, hhash]
        rfl

theorem foldl_deleteBlock (records : List CompactBlockRecord) (w : Writer ν) :
    records.foldl Writer.deleteBlock w = { w with tables := { w.tables with
      hashToHeight := Table.deleteAll w.tables.hashToHeight (records.map (·.hash))
      mutableBlocks := Table.deleteAll w.tables.mutableBlocks
        (records.map (·.height.val)) } } := by
  induction records generalizing w with
  | nil => rfl
  | cons r records ih =>
    rw [List.foldl_cons, ih]
    rfl

/-! ## The chain in the tables -/

section

variable [Proto.Prost] {heightOf : HeightOf} {s s' : Store ν}
  {chain records : List CompactBlockRecord} {sealed rows : Nat} {blocks : List EncodedBlock}

/-- Hash entries extend the chain. The new blocks are in no table. -/
theorem Holds.extend (h : Holds heightOf s chain sealed rows)
    (hext : Extends heightOf chain records) {entries : List (Hash × Nat)}
    (hentries : ∀ {hash : Hash} {height : Nat}, (hash, height) ∈ entries ↔
      ∃ r ∈ records, r.hash = hash ∧ r.height.val = height) :
    Holds heightOf { s with hashToHeight := Table.putAll s.hashToHeight entries }
      (chain ++ records) sealed rows := by
  have hrows := h.rows_le
  have hconnected := h.connected.append hext
  have hget : ∀ {i : Nat} {r : CompactBlockRecord}, chain[i]? = some r →
      (chain ++ records)[i]? = some r := by
    intro i r hr
    rw [List.getElem?_append_left (List.getElem?_eq_some_iff.mp hr).1, hr]
  constructor
  case connected => exact hconnected
  case sealed_aligned => exact h.sealed_aligned
  case sealed_le => exact h.sealed_le
  case rows_le => rw [List.length_append]; omega
  case sealed_key => exact h.sealed_key
  case sealed_range =>
    intro start hmod hlt
    obtain ⟨blob, hblob, d, hnew, hrecords⟩ := h.sealed_range start hmod hlt
    refine ⟨blob, hblob, d, hnew, fun i hi => ?_⟩
    obtain ⟨r, hr, hrecord⟩ := hrecords i hi
    exact ⟨r, hget hr, hrecord⟩
  case mutable_key => exact h.mutable_key
  case mutable_row =>
    intro height hle hlt
    obtain ⟨r, bytes, hr, hrow⟩ := h.mutable_row height hle hlt
    exact ⟨r, bytes, hget hr, hrow⟩
  case hash_iff =>
    intro hfun hash height
    -- a hash has one height, so the entries agree with each other and with the old ones
    have hof : ∀ height, (hash, height) ∈ entries → heightOf.allows hash height := by
      intro height hmem
      obtain ⟨r, hr, rfl, rfl⟩ := hentries.mp hmem
      exact hext.heightOf_hash r hr
    rw [Table.get_putAll_eq_some fun v v' hv hv' => hfun _ _ _ (hof v hv) (hof v' hv')]
    constructor
    · rintro (hmem | ⟨-, hold⟩)
      · obtain ⟨r, hr, rfl, rfl⟩ := hentries.mp hmem
        obtain ⟨i, hi⟩ := List.mem_iff_getElem?.mp (List.mem_append_right chain hr)
        rw [hconnected.height_eq hi]
        exact ⟨r, hi, rfl⟩
      · obtain ⟨r, hr, hhash⟩ := (h.hash_iff hfun hash height).mp hold
        exact ⟨r, hget hr, hhash⟩
    · rintro ⟨r, hr, hhash⟩
      by_cases hmem : (hash, height) ∈ entries
      · exact .inl hmem
      · right
        have hnot : ∀ height', (hash, height') ∉ entries := by
          intro height' hmem'
          have hallows := hconnected.heightOf_hash r (List.mem_of_getElem? hr)
          rw [hhash, hconnected.height_eq hr] at hallows
          have hsame := hfun _ _ _ hallows (hof height' hmem')
          exact hmem (hsame ▸ hmem')
        refine ⟨hnot, (h.hash_iff hfun hash height).mpr ⟨r, ?_, hhash⟩⟩
        by_cases hlt : height < chain.length
        · rwa [List.getElem?_append_left hlt] at hr
        · rw [List.getElem?_append_right (by omega)] at hr
          exact absurd (hentries.mpr ⟨r, List.mem_of_getElem? hr, hhash, rfl⟩)
            (hnot _)
  case range_meta =>
    intro start info hinfo
    obtain ⟨hmod, hlt, hend⟩ := h.range_meta start info hinfo
    refine ⟨hmod, hlt, fun hfun => ?_⟩
    obtain ⟨r, hr, hhash⟩ := hend hfun
    exact ⟨r, hget hr, hhash⟩

/-- The rows of the pending blocks complete the tables. -/
theorem Holds.putRows (h : Holds heightOf s chain sealed rows)
    (hblocks : EncodedAs (chain.drop rows) blocks) :
    Holds heightOf { s with mutableBlocks := Table.putAll s.mutableBlocks (blockRows blocks) }
      chain sealed chain.length := by
  have hsealed := h.sealed_le
  have hrows := h.rows_le
  -- the put rows are those of the blocks that had none
  have hmem : ∀ {height : Nat} {bytes : Bytes}, (height, bytes) ∈ blockRows blocks ↔
      rows ≤ height ∧ ∃ r, chain[height]? = some r ∧ r.encode = .ok bytes := by
    intro height bytes
    rw [hblocks.mem_blockRows]
    constructor
    · rintro ⟨r, hr, rfl, hencode⟩
      obtain ⟨i, hi⟩ := List.mem_iff_getElem?.mp hr
      rw [List.getElem?_drop] at hi
      rw [h.connected.height_eq hi]
      exact ⟨by omega, r, hi, hencode⟩
    · rintro ⟨hle, r, hr, hencode⟩
      refine ⟨r, List.mem_of_getElem? (i := height - rows) ?_, h.connected.height_eq hr, hencode⟩
      rw [List.getElem?_drop, Nat.add_sub_cancel' hle, hr]
  have hagree : ∀ (height : Nat) (bytes bytes' : Bytes), (height, bytes) ∈ blockRows blocks →
      (height, bytes') ∈ blockRows blocks → bytes = bytes' := by
    intro height bytes bytes' hb hb'
    obtain ⟨-, r, hr, hencode⟩ := hmem.mp hb
    obtain ⟨-, r', hr', hencode'⟩ := hmem.mp hb'
    rw [hr] at hr'
    cases hr'
    rw [hencode] at hencode'
    exact Except.ok.inj hencode'
  constructor
  case connected => exact h.connected
  case sealed_aligned => exact h.sealed_aligned
  case sealed_le => omega
  case rows_le => exact le_rfl
  case sealed_key => exact h.sealed_key
  case sealed_range => exact h.sealed_range
  case mutable_key =>
    intro height bytes hget
    rcases (Table.get_putAll_eq_some (hagree height)).mp hget with hput | ⟨-, hold⟩
    · obtain ⟨hle, r, hr, -⟩ := hmem.mp hput
      exact ⟨by omega, (List.getElem?_eq_some_iff.mp hr).1⟩
    · have := h.mutable_key height bytes hold
      omega
  case mutable_row =>
    intro height hle hlt
    by_cases hold : height < rows
    · obtain ⟨r, bytes, hr, hrow, hencode⟩ := h.mutable_row height hle hold
      refine ⟨r, bytes, hr, (Table.get_putAll_eq_some (hagree height)).mpr (.inr ⟨?_, hrow⟩),
        hencode⟩
      intro bytes' hput
      have := (hmem.mp hput).1
      omega
    · obtain ⟨r, hr⟩ : ∃ r, (chain.drop rows)[height - rows]? = some r :=
        ⟨_, List.getElem?_eq_getElem (by rw [List.length_drop]; omega)⟩
      obtain ⟨block, -, hblock⟩ := forall₂_getElem? hblocks hr
      rw [List.getElem?_drop, Nat.add_sub_cancel' (by omega)] at hr
      obtain ⟨hencode, -⟩ := CompactBlockRecord.encodeBlock_eq_ok.mp hblock
      exact ⟨r, block.bytes, hr, (Table.get_putAll_eq_some (hagree height)).mpr
        (.inl (hmem.mpr ⟨by omega, r, hr, hencode⟩)), hencode⟩
  case hash_iff => exact h.hash_iff
  case range_meta => exact h.range_meta

/-- Tables without the rows from `n` on hold the chain up to `n`. -/
theorem Holds.cut (h : Holds heightOf s chain sealed chain.length) (s' : Store ν) {n : Nat}
    (hn : n ≤ chain.length) (hmod : min sealed n % rangeSize = 0)
    (hranges : ∀ start : Nat, s'.sealedRanges[start]? =
      if start < min sealed n then s.sealedRanges[start]? else none)
    (hmutable : ∀ height : Nat, s'.mutableBlocks[height]? =
      if height < n then s.mutableBlocks[height]? else none)
    (hhash : heightOf.Functional → ∀ (hash : Hash) (height : Nat), s'.hashToHeight[hash]? =
      some height ↔
      s.hashToHeight[hash]? = some height ∧ height < n)
    (hmeta : ∀ start : Nat, s'.rangeMeta[start]? =
      if start < min sealed n then s.rangeMeta[start]? else none) :
    Holds heightOf s' (chain.take n) (min sealed n) n := by
  have hget : ∀ {i : Nat} {r : CompactBlockRecord}, chain[i]? = some r → i < n →
      (chain.take n)[i]? = some r := by
    intro i r hr hi
    rw [List.getElem?_take_of_lt hi, hr]
  -- a range that starts below a boundary of ranges ends below it
  have hinside : ∀ {start : Nat}, start % rangeSize = 0 → start < min sealed n →
      ∀ i < rangeSize, start + i < n := by
    intro start hstart hlt i hi
    simp only [rangeSize] at hstart hmod hi
    omega
  constructor
  case connected => exact h.connected.take n
  case sealed_aligned => exact hmod
  case sealed_le => omega
  case rows_le => rw [List.length_take]; omega
  case sealed_key =>
    intro start blob hblob
    rw [hranges] at hblob
    split at hblob
    · exact ⟨(h.sealed_key start blob hblob).1, by assumption⟩
    · cases hblob
  case sealed_range =>
    intro start hstart hlt
    obtain ⟨blob, hblob, d, hnew, hrecords⟩ := h.sealed_range start hstart (by omega)
    refine ⟨blob, by rw [hranges, if_pos hlt, hblob], d, hnew, fun i hi => ?_⟩
    obtain ⟨r, hr, hrecord⟩ := hrecords i hi
    exact ⟨r, hget hr (hinside hstart hlt i hi), hrecord⟩
  case mutable_key =>
    intro height bytes hrow
    rw [hmutable] at hrow
    split at hrow
    · have := h.mutable_key height bytes hrow
      omega
    · cases hrow
  case mutable_row =>
    intro height hle hlt
    obtain ⟨r, bytes, hr, hrow, hencode⟩ := h.mutable_row height (by omega) (by omega)
    exact ⟨r, bytes, hget hr hlt, by rw [hmutable, if_pos hlt, hrow], hencode⟩
  case hash_iff =>
    intro hfun hash height
    rw [hhash hfun, h.hash_iff hfun]
    constructor
    · rintro ⟨⟨r, hr, rfl⟩, hlt⟩
      exact ⟨r, hget hr hlt, rfl⟩
    · rintro ⟨r, hr, rfl⟩
      have hlt : height < n := by
        have := (List.getElem?_eq_some_iff.mp hr).1
        rw [List.length_take] at this
        omega
      rw [List.getElem?_take_of_lt hlt] at hr
      exact ⟨⟨r, hr, rfl⟩, hlt⟩
  case range_meta =>
    intro start info hinfo
    rw [hmeta] at hinfo
    split at hinfo
    · obtain ⟨hstart, -, hend⟩ := h.range_meta start info hinfo
      refine ⟨hstart, by assumption, fun hfun => ?_⟩
      obtain ⟨r, hr, hhash⟩ := hend hfun
      exact ⟨r, hget hr (hinside hstart (by assumption) _ (by simp [rangeSize])), hhash⟩
    · cases hinfo

/-! ### Deletes -/

/-- The mutable rows after the rows of the blocks from `n` on are deleted. -/
theorem Holds.get_deleteRows (h : Holds heightOf s chain sealed chain.length) (n height : Nat) :
    (Table.deleteAll s.mutableBlocks ((chain.drop n).map (·.height.val)))[height]? =
      if height < n then s.mutableBlocks[height]? else none := by
  rw [Table.get_deleteAll]
  simp only [h.connected.mem_drop_heights]
  by_cases hn : height < n
  · rw [if_neg (by omega), if_pos hn]
  · rw [if_neg hn]
    split
    · rfl
    · cases hrow : s.mutableBlocks[height]? with
      | none => rfl
      | some bytes =>
        have := h.mutable_key height bytes hrow
        omega

/-- The hash entries after those of the blocks from `n` on are deleted. -/
theorem Holds.get_deleteHashes (h : Holds heightOf s chain sealed rows) (n : Nat)
    (hfun : heightOf.Functional) (hash : Hash) (height : Nat) :
    (Table.deleteAll s.hashToHeight ((chain.drop n).map (·.hash)))[hash]? = some height ↔
      s.hashToHeight[hash]? = some height ∧ height < n := by
  rw [Table.get_deleteAll]
  have hmem : ∀ {r : CompactBlockRecord}, chain[height]? = some r →
      (r.hash ∈ (chain.drop n).map (·.hash) ↔ n ≤ height) := by
    intro r hr
    simp only [List.mem_map]
    constructor
    · rintro ⟨r', hr', heq⟩
      obtain ⟨i, hi⟩ := List.mem_iff_getElem?.mp hr'
      rw [List.getElem?_drop] at hi
      have := h.connected.eq_of_hash_eq hfun hi hr heq
      omega
    · intro hle
      refine ⟨r, List.mem_of_getElem? (i := height - n) ?_, rfl⟩
      rw [List.getElem?_drop, Nat.add_sub_cancel' hle, hr]
  constructor
  · intro hget
    split at hget
    · cases hget
    · rename_i hnot
      obtain ⟨r, hr, rfl⟩ := (h.hash_iff hfun hash height).mp hget
      rw [hmem hr] at hnot
      exact ⟨hget, by omega⟩
  · rintro ⟨hget, hlt⟩
    obtain ⟨r, hr, rfl⟩ := (h.hash_iff hfun hash height).mp hget
    rw [if_neg (by rw [hmem hr]; omega), hget]

/-- The mutable rows from `height` on are read and deleted. -/
theorem foldlM_deleteMutableBlock {w : Writer ν} (hc : Connected heightOf chain) (n height : Nat)
    (hrows : ∀ i, height ≤ i → i < height + n → ∃ r bytes, chain[i]? = some r ∧
      w.tables.mutableBlocks[i]? = some bytes ∧ r.encode = .ok bytes) :
    (List.range' height n).foldlM Writer.deleteMutableBlock w =
      .ok (((chain.drop height).take n).foldl Writer.deleteBlock w) := by
  induction n generalizing height w with
  | zero => simp
  | succ n ih =>
    obtain ⟨r, bytes, hr, hrow, hencode⟩ := hrows height le_rfl (by omega)
    have hdrop : chain.drop height = r :: chain.drop (height + 1) := by
      obtain ⟨hlt, rfl⟩ := List.getElem?_eq_some_iff.mp hr
      exact List.drop_eq_getElem_cons hlt
    have hdelete : w.deleteMutableBlock height = .ok (w.deleteBlock r) := by
      simp [Writer.deleteMutableBlock, hrow, CompactBlockRecord.decode_encode hencode]
    rw [List.range'_succ, List.foldlM_cons, hdelete, ok_bind, hdrop, List.take_succ_cons,
      List.foldl_cons]
    refine ih (height + 1) fun i hle hlt => ?_
    obtain ⟨r', bytes', hr', hrow', hencode'⟩ := hrows i (by omega) (by omega)
    refine ⟨r', bytes', hr', ?_, hencode'⟩
    have hheight := hc.height_eq hr
    simp only [Writer.deleteBlock]
    rw [Table.get_delete, if_neg (by omega), hrow']

end

end Ztreamer
