import Mathlib.Data.List.Chain
import Ztreamer.Chain.Codec
import Ztreamer.Chain.Parser

/-! # Indexing a chain

    What the records of a chain are, apart from any index: each block is parsed,
    and its record gets the tree sizes that the blocks before it leave.

    * `indexBlocks`: the records of consecutive blocks,
    * `Indexed`: the records of a chain from genesis,
    * `commonLength`: how many blocks two chains have in common.
-/

namespace Ztreamer

open Octets Result

/-! ## Common prefixes -/

section

variable {α : Type} [DecidableEq α]

/-- The length of the longest common prefix. -/
def commonLength : List α → List α → Nat
  | a :: as, b :: bs => if a = b then commonLength as bs + 1 else 0
  | _, _ => 0

theorem commonLength_le_left (as bs : List α) : commonLength as bs ≤ as.length := by
  induction as generalizing bs with
  | nil => simp [commonLength]
  | cons a as ih =>
    cases bs with
    | nil => simp [commonLength]
    | cons b bs =>
      simp only [commonLength, List.length_cons]
      split
      · have := ih bs
        omega
      · omega

theorem commonLength_le_right (as bs : List α) : commonLength as bs ≤ bs.length := by
  induction as generalizing bs with
  | nil => simp [commonLength]
  | cons a as ih =>
    cases bs with
    | nil => simp [commonLength]
    | cons b bs =>
      simp only [commonLength, List.length_cons]
      split
      · have := ih bs
        omega
      · omega

theorem take_commonLength (as bs : List α) :
    as.take (commonLength as bs) = bs.take (commonLength as bs) := by
  induction as generalizing bs with
  | nil => simp [commonLength]
  | cons a as ih =>
    cases bs with
    | nil => simp [commonLength]
    | cons b bs =>
      simp only [commonLength]
      split
      · rename_i heq
        rw [List.take_succ_cons, List.take_succ_cons, ih bs, heq]
      · simp

theorem getElem?_of_lt_commonLength {as bs : List α} {i : Nat} (h : i < commonLength as bs) :
    as[i]? = bs[i]? := by
  rw [← List.getElem?_take_of_lt h, take_commonLength as bs, List.getElem?_take_of_lt h]

/-- A common prefix is not longer than the longest one. -/
theorem le_commonLength {as bs : List α} {n : Nat} (hn : n ≤ as.length)
    (h : as.take n = bs.take n) : n ≤ commonLength as bs := by
  induction as generalizing bs n with
  | nil =>
    have hzero : n = 0 := by simpa using hn
    omega
  | cons a as ih =>
    cases n with
    | zero => simp
    | succ n =>
      cases bs with
      | nil => simp at h
      | cons b bs =>
        rw [List.take_succ_cons, List.take_succ_cons, List.cons.injEq] at h
        have := ih (by simpa using hn) h.2
        simp only [commonLength, if_pos h.1]
        omega

end

/-! ## Records of consecutive blocks -/

/-- A bound of the encoded size of the record of a block. -/
def ParsedCompactBlock.size (b : ParsedCompactBlock) : Nat :=
  192 + (b.transactions.map transactionSizeBound).sum

/-- The tree sizes after records, or `before` when there is none. -/
def endSizes (before : TreeSizes) (records : List CompactBlockRecord) : TreeSizes :=
  records.getLast?.elim before (·.endTreeSizes)

/-- The records of consecutive blocks, after the tree sizes `before` them. -/
def indexBlocks (before : TreeSizes) : List ParsedCompactBlock → Option (List CompactBlockRecord)
  | [] => some []
  | block :: blocks => do
    let record ← block.intoRecord before
    let records ← indexBlocks record.endTreeSizes blocks
    return record :: records

theorem endSizes_cons (before : TreeSizes) (r : CompactBlockRecord)
    (records : List CompactBlockRecord) :
    endSizes before (r :: records) = endSizes r.endTreeSizes records := by
  cases records with
  | nil => rfl
  | cons r' records =>
    simp only [endSizes]
    rw [List.getLast?_cons_cons]
    cases h : (r' :: records).getLast? with
    | none => simp at h
    | some last => rfl

variable {before : TreeSizes} {blocks : List ParsedCompactBlock} {records : List CompactBlockRecord}
  {i : Nat}

theorem indexBlocks_cons_eq_some {block : ParsedCompactBlock} :
    indexBlocks before (block :: blocks) = some records ↔
      ∃ r rest, block.intoRecord before = some r ∧ indexBlocks r.endTreeSizes blocks = some rest ∧
        records = r :: rest := by
  simp only [indexBlocks, Option.bind_eq_bind, Option.bind_eq_some_iff, Option.pure_def,
    Option.some.injEq]
  constructor
  · rintro ⟨r, hr, rest, hrest, rfl⟩
    exact ⟨r, rest, hr, hrest, rfl⟩
  · rintro ⟨r, rest, hr, hrest, rfl⟩
    exact ⟨r, hr, rest, hrest, rfl⟩

theorem indexBlocks_append_eq_some {as bs : List ParsedCompactBlock} :
    indexBlocks before (as ++ bs) = some records ↔
      ∃ ra rb, indexBlocks before as = some ra ∧ indexBlocks (endSizes before ra) bs = some rb ∧
        records = ra ++ rb := by
  induction as generalizing before records with
  | nil => simp [indexBlocks, endSizes]
  | cons a as ih =>
    simp only [List.cons_append, indexBlocks_cons_eq_some, ih]
    constructor
    · rintro ⟨r, rest, hr, ⟨ra, rb, hra, hrb, rfl⟩, rfl⟩
      exact ⟨r :: ra, rb, ⟨r, ra, hr, hra, rfl⟩, by rw [endSizes_cons]; exact hrb, rfl⟩
    · rintro ⟨_, rb, ⟨r, ra, hr, hra, rfl⟩, hrb, rfl⟩
      rw [endSizes_cons] at hrb
      exact ⟨r, ra ++ rb, hr, ⟨ra, rb, hra, hrb, rfl⟩, rfl⟩

theorem indexBlocks_length (h : indexBlocks before blocks = some records) :
    records.length = blocks.length := by
  induction blocks generalizing before records with
  | nil => simp_all [indexBlocks]
  | cons block blocks ih =>
    obtain ⟨r, rest, -, hrest, rfl⟩ := indexBlocks_cons_eq_some.mp h
    simp [ih hrest]

/-- The record at a place is the record of the block there, after the tree sizes
    of the records before it. -/
theorem indexBlocks_getElem (h : indexBlocks before blocks = some records)
    {block : ParsedCompactBlock} (hi : blocks[i]? = some block) :
    ∃ r, records[i]? = some r ∧
      block.intoRecord (endSizes before (records.take i)) = some r := by
  induction blocks generalizing before records i with
  | nil => simp at hi
  | cons b blocks ih =>
    obtain ⟨r, rest, hr, hrest, rfl⟩ := indexBlocks_cons_eq_some.mp h
    cases i with
    | zero =>
      obtain rfl : b = block := by simpa using hi
      exact ⟨r, rfl, hr⟩
    | succ i =>
      obtain ⟨r', hr', hinto⟩ := ih hrest (by simpa using hi)
      exact ⟨r', by simpa using hr', by rw [List.take_succ_cons, endSizes_cons]; exact hinto⟩

/-! ## Chains of raw blocks -/

/-- The hash that the block after `blocks` links to. -/
def tipHash (blocks : List RawIndexBlock) : Hash :=
  blocks.getLast?.elim genesisPreviousBlockHash (·.hash)

/-- The blocks of one chain from genesis: each has its place as its height, and
    its header names the block below it. -/
structure RawChain (blocks : List RawIndexBlock) : Prop where
  height : ∀ (i : Nat) (b : RawIndexBlock), blocks[i]? = some b → b.height.val = i
  parent : ∀ (i : Nat) (b : RawIndexBlock), blocks[i]? = some b →
    headerPreviousHash b.bytes = some (tipHash (blocks.take i))

/-- `records` are the records of the chain `blocks`, whose blocks in parsed form
    are `parsed`. -/
structure Indexed (blocks : List RawIndexBlock) (parsed : List ParsedCompactBlock)
    (records : List CompactBlockRecord) : Prop where
  chain : RawChain blocks
  parse : blocks.mapM parseBlock = .ok parsed
  index : indexBlocks default parsed = some records

/-- Two blocks of the chains with one hash are one block. -/
def NoCollision (as bs : List RawIndexBlock) : Prop :=
  ∀ a ∈ as, ∀ b ∈ bs, a.hash = b.hash → a = b

theorem getLast?_take_succ {α : Type} {l : List α} {a : α} (h : l[i]? = some a) :
    (l.take (i + 1)).getLast? = some a := by
  rw [List.getLast?_take, if_neg (by omega), Nat.add_sub_cancel, h]
  rfl

theorem tipHash_take_succ {blocks : List RawIndexBlock} {b : RawIndexBlock}
    (h : blocks[i]? = some b) : tipHash (blocks.take (i + 1)) = b.hash := by
  rw [tipHash, getLast?_take_succ h]
  rfl

theorem lt_of_getElem?_take {α : Type} {l : List α} {n : Nat} {a : α} (h : (l.take n)[i]? = some a)
    : i < n ∧ l[i]? = some a := by
  rw [List.getElem?_take] at h
  split at h
  · exact ⟨by assumption, h⟩
  · cases h

namespace RawChain

variable {as bs : List RawIndexBlock}

theorem take (h : RawChain as) (n : Nat) : RawChain (as.take n) where
  height i b hi := h.height i b (lt_of_getElem?_take hi).2
  parent i b hi := by
    obtain ⟨hlt, hi⟩ := lt_of_getElem?_take hi
    rw [h.parent i b hi, List.take_take, Nat.min_eq_left (by omega)]

/-- Two chains with one block at one height are the same below it. -/
theorem take_eq (ha : RawChain as) (hb : RawChain bs) (hab : NoCollision as bs)
    {a b : RawIndexBlock} (hi : as[i]? = some a) (hj : bs[i]? = some b) (hhash : a.hash = b.hash) :
    as.take (i + 1) = bs.take (i + 1) := by
  induction i generalizing a b with
  | zero =>
    obtain rfl := hab a (List.mem_of_getElem? hi) b (List.mem_of_getElem? hj) hhash
    rw [List.take_add_one, List.take_add_one, hi, hj]
    rfl
  | succ i ih =>
    obtain rfl := hab a (List.mem_of_getElem? hi) b (List.mem_of_getElem? hj) hhash
    have hilt := (List.getElem?_eq_some_iff.mp hi).1
    have hjlt := (List.getElem?_eq_some_iff.mp hj).1
    obtain ⟨a', ha'⟩ : ∃ a', as[i]? = some a' := ⟨_, List.getElem?_eq_getElem (by omega)⟩
    obtain ⟨b', hb'⟩ : ∃ b', bs[i]? = some b' := ⟨_, List.getElem?_eq_getElem (by omega)⟩
    -- the one header names the hash of both blocks below
    have hbelow : a'.hash = b'.hash := by
      have h1 := ha.parent _ _ hi
      have h2 := hb.parent _ _ hj
      rw [tipHash_take_succ ha'] at h1
      rw [tipHash_take_succ hb', h1] at h2
      exact Option.some.inj h2
    rw [@List.take_add_one _ as (i + 1), @List.take_add_one _ bs (i + 1), ih ha' hb' hbelow, hi,
      hj]

/-- The common blocks of two chains are those with the same hash. -/
theorem lt_commonLength_iff (ha : RawChain as) (hb : RawChain bs) (hab : NoCollision as bs) :
    i < commonLength as bs ↔
      ∃ a b, as[i]? = some a ∧ bs[i]? = some b ∧ a.hash = b.hash := by
  constructor
  · intro hlt
    have hlen := commonLength_le_left as bs
    have hi : as[i]? = some as[i] := List.getElem?_eq_getElem (by omega)
    exact ⟨_, _, hi, by rw [← getElem?_of_lt_commonLength hlt, hi], rfl⟩
  · rintro ⟨a, b, hi, hj, hhash⟩
    have hlt := (List.getElem?_eq_some_iff.mp hi).1
    have := le_commonLength (by omega) (ha.take_eq hb hab hi hj hhash)
    omega

end RawChain

namespace Indexed

variable {blocks : List RawIndexBlock} {parsed : List ParsedCompactBlock}
  {records : List CompactBlockRecord}

variable (h : Indexed blocks parsed records)

include h

theorem parsed_length : parsed.length = blocks.length :=
  (mapM_eq_ok.mp h.parse).length_eq.symm

theorem records_length : records.length = blocks.length := by
  rw [indexBlocks_length h.index, h.parsed_length]

/-- The block, the parsed block and the record at one height. -/
theorem at_height (hi : i < blocks.length) :
    ∃ b p r, blocks[i]? = some b ∧ parsed[i]? = some p ∧ records[i]? = some r ∧
      parseBlock b = .ok p ∧ p.intoRecord (endSizes default (records.take i)) = some r ∧
      p.height.val = i ∧ p.hash = b.hash ∧ p.previousHash = tipHash (blocks.take i) ∧
      ∀ tx ∈ p.transactions, tx.hasPayload := by
  have hb : blocks[i]? = some blocks[i] := List.getElem?_eq_getElem hi
  obtain ⟨p, hp, hparse⟩ := forall₂_getElem? (mapM_eq_ok.mp h.parse) hb
  obtain ⟨r, hr, hinto⟩ := indexBlocks_getElem h.index hp
  obtain ⟨hheight, hhash, hprevious, hpayload⟩ := parseBlock_spec hparse
  rw [h.chain.parent i _ hb, Option.some.injEq] at hprevious
  exact ⟨_, p, r, hb, hp, hr, hparse, hinto, by rw [hheight, h.chain.height i _ hb], hhash,
    hprevious.symm, hpayload⟩

/-- A record has the height of its place, the hash of its block, and links to
    the block below. -/
theorem record_spec {r : CompactBlockRecord} (hr : records[i]? = some r) :
    r.height.val = i ∧ (∃ b, blocks[i]? = some b ∧ b.hash = r.hash) ∧
      r.previousHash = tipHash (blocks.take i) ∧ ∀ tx ∈ r.transactions, tx.hasPayload := by
  have hi := (List.getElem?_eq_some_iff.mp hr).1
  rw [h.records_length] at hi
  obtain ⟨b, p, r', hb, -, hr', -, hinto, hheight, hhash, hprevious, hpayload⟩ := h.at_height hi
  rw [hr] at hr'
  cases hr'
  obtain ⟨sizes, -, rfl⟩ := ParsedCompactBlock.intoRecord_eq_some.mp hinto
  exact ⟨hheight, ⟨b, hb, hhash.symm⟩, hprevious, hpayload⟩

/-- The hash after the records is that of the blocks. -/
theorem tipHash_eq :
    records.getLast?.elim genesisPreviousBlockHash (·.hash) = tipHash blocks := by
  have hlen := h.records_length
  rw [tipHash, List.getLast?_eq_getElem?, List.getLast?_eq_getElem?, hlen]
  cases hr : records[blocks.length - 1]? with
  | none => rw [List.getElem?_eq_none (by rw [List.getElem?_eq_none_iff] at hr; omega)]; rfl
  | some r =>
    obtain ⟨-, ⟨b, hb, hhash⟩, -⟩ := h.record_spec hr
    rw [hb]
    exact hhash.symm

theorem take (n : Nat) :
    Indexed (blocks.take n) (parsed.take n) (records.take n) where
  chain := h.chain.take n
  parse := by
    rw [mapM_eq_ok]
    exact List.forall₂_take n (mapM_eq_ok.mp h.parse)
  index := by
    have hindex := h.index
    rw [← List.take_append_drop n parsed, indexBlocks_append_eq_some] at hindex
    obtain ⟨ra, rb, hra, -, rfl⟩ := hindex
    have hlen := indexBlocks_length hra
    have hle := h.parsed_length
    rw [List.length_take] at hlen
    rw [hra, List.take_append]
    by_cases hn : n ≤ parsed.length
    · rw [List.take_of_length_le (by omega), show n - ra.length = 0 by omega, List.take_zero,
        List.append_nil]
    · have hrecords := h.records_length
      rw [List.length_append] at hrecords
      have hnil : rb = [] := List.eq_nil_of_length_eq_zero (by omega)
      rw [List.take_of_length_le (by omega), hnil, List.take_nil, List.append_nil]

/-- A chain has one list of records. -/
theorem unique {parsed' : List ParsedCompactBlock} {records' : List CompactBlockRecord}
    (h' : Indexed blocks parsed' records') :
    parsed = parsed' ∧ records = records' := by
  have hparse := h.parse.symm.trans h'.parse
  cases hparse
  exact ⟨rfl, Option.some.inj (h.index.symm.trans h'.index)⟩

end Indexed

end Ztreamer
