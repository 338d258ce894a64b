import Ztreamer.Chain.BlockParsers
import Ztreamer.Chain.Indexing

/-! # The size of a record

    The size bound of a record against the bytes of its two forms: the stored
    encoding is not larger than the bound, and the bound is not larger than the
    raw block that the record was made from.
-/

namespace Ztreamer

open Octets Octets.Parser Result TxReader

/-! ## The stored form -/

/-- The same transactions, at other places of a block. -/
def SameTransactions (txs txs' : List CompactTransaction) : Prop :=
  List.Forall₂ (fun tx tx' => tx' = { tx with index := tx'.index }) txs txs'

/-- The bound does not read the index of a transaction. -/
theorem SameTransactions.sizeBound {txs txs' : List CompactTransaction}
    (h : SameTransactions txs txs') : encodedSizeBound txs' = encodedSizeBound txs := by
  have hmap : txs'.map transactionSizeBound = txs.map transactionSizeBound := by
    induction h with
    | nil => rfl
    | cons hhead _ ih =>
      rw [List.map_cons, List.map_cons, ih, hhead]
      rfl
  rw [encodedSizeBound, encodedSizeBound, hmap]

/-- A record within the bound is not refused for its size. -/
theorem CompactBlockRecord.encode_within_sizeBound {r : CompactBlockRecord} {n : Nat}
    (h : encodedSizeBound r.transactions = .ok n) :
    r.encode ≠ .error .length ∧ ((∀ tx ∈ r.transactions, tx.hasPayload) →
      ∃ bytes, r.encode = .ok bytes ∧ bytes.length ≤ n) := by
  obtain ⟨hmax, rfl⟩ := encodedSizeBound_eq_ok.mp h
  have hlen := r.toProto_length_le hmax
  by_cases hpayload : ∀ tx ∈ r.transactions, tx.hasPayload
  · have hencode := CompactBlockRecord.encode_of_sizeBound hpayload h
    rw [hencode]
    exact ⟨by simp, fun _ => ⟨_, rfl, by rw [envelope_length]; omega⟩⟩
  · refine ⟨?_, fun hall => absurd hall hpayload⟩
    rw [CompactBlockRecord.encode, CompactBlockRecord.check, ensure_of_not _ hpayload]
    intro h
    cases h

/-! ## The raw form -/

theorem vectorBytes_length_ge {α : Type} {encode : α → Bytes} {size : Nat}
    (h : ∀ item, (encode item).length = size) (items : List α) :
    1 + items.length * size ≤ (vectorBytes encode items).length := by
  have hcount := compactSizeBytes_length_pos items.length
  rw [vectorBytes, List.length_append, length_flatMap_const h]
  omega

theorem TransparentBundle.encode_length_ge (b : TransparentBundle) : 2 ≤ b.encode.length := by
  have hinputs := compactSizeBytes_length_pos b.inputs.length
  have houtputs := compactSizeBytes_length_pos b.outputs.length
  simp only [TransparentBundle.encode, vectorBytes, List.length_append]
  omega

/-- The bytes of a Sapling bundle of version 4, with its JoinSplits and its signature. -/
theorem SaplingV4.encode_length_ge (b : SaplingV4) :
    3 + 384 * b.spends.length + 948 * b.outputs.length ≤ b.encode.length := by
  have hspends := vectorBytes_length_ge SaplingSpendV4.encode_length b.spends
  have houtputs := vectorBytes_length_ge SaplingOutput.encodeV4_length b.outputs
  have hjoinsplits := compactSizeBytes_length_pos b.joinsplits.items.length
  simp only [SaplingV4.encode, JoinSplits.encode, vectorBytes, List.length_append] at *
  omega

/-- A bundle with spends or outputs has a tail. -/
theorem SaplingV5.encode_length_ge (b : SaplingV5) :
    2 + 96 * b.spends.length + 756 * b.outputs.length ≤ b.encode.length ∧
      (0 < b.spends.length + b.outputs.length →
        74 + 96 * b.spends.length + 756 * b.outputs.length ≤ b.encode.length) := by
  have hspends := vectorBytes_length_ge SaplingSpendV5.encodePrefix_length b.spends
  have houtputs := vectorBytes_length_ge SaplingOutput.encodePrefix_length b.outputs
  rw [SaplingV5.encode, List.length_append, List.length_append]
  by_cases hnil : b.spends = [] ∧ b.outputs = []
  · have hspendCount := List.length_eq_zero_iff.mpr hnil.1
    have houtputCount := List.length_eq_zero_iff.mpr hnil.2
    rw [if_pos hnil, List.length_nil]
    omega
  · rw [if_neg hnil, SaplingV5.encodeTail]
    simp only [List.length_append, ByteVec.val_length]
    omega

theorem ActionBundle.encode_length_ge (b : ActionBundle) :
    1 + 820 * b.actions.length ≤ b.encode.length := by
  have hactions := vectorBytes_length_ge ShieldedAction.encode_length b.actions
  rw [ActionBundle.encode, List.length_append]
  omega

theorem hasPayload_iff (tx : CompactTransaction) : tx.hasPayload ↔
    0 < tx.saplingSpends.length + tx.saplingOutputs.length + tx.orchardActions.length +
      tx.ironwoodActions.length := by
  simp only [CompactTransaction.hasPayload, ← List.length_pos_iff]
  omega

/-- A transaction with shielded data has at least 50 bytes more than its bound. -/
theorem transactionSizeBound_le {tx : WireTransaction} {txid : Hash} {index : U64}
    (h : (tx.compact txid index).hasPayload) :
    transactionSizeBound (tx.compact txid index) + 50 ≤ tx.serialize.length := by
  have htransparent := tx.transparent.encode_length_ge
  rw [hasPayload_iff] at h
  -- versions 1 to 3 have no shielded data
  cases tx <;> simp only [transactionSizeBound, WireTransaction.compact,
    WireTransaction.saplingSpends, WireTransaction.saplingOutputs, WireTransaction.orchardActions,
    WireTransaction.ironwoodActions, WireTransaction.transparent, WireTransaction.serialize,
    List.length_map, List.length_nil, List.length_append, leBytes_length, ByteVec.val_length] at *
  case v1 | v2 | v3 => omega
  case v4 transparent fields sapling =>
    have hsapling := sapling.encode_length_ge
    omega
  case v5 fields transparent sapling orchard =>
    obtain ⟨hsapling, htail⟩ := sapling.encode_length_ge
    have horchard := orchard.encode_length_ge
    omega
  case v6 fields transparent sapling orchard ironwood =>
    obtain ⟨hsapling, htail⟩ := sapling.encode_length_ge
    have horchard := orchard.encode_length_ge
    have hironwood := ironwood.encode_length_ge
    omega

/-- The transactions that a block keeps, against the bytes of all its transactions. -/
theorem parseStoredTransactions_size {height : U32} {index : Nat} {txids : List Hash}
    {parts : List Bytes} {acc acc' : BlockTransactions} (hcount : parts.length = txids.length)
    (h : parseStoredTransactions height index (parts.zip txids) acc = .ok acc') :
    (acc'.transactions.map fun tx => transactionSizeBound tx + 50).sum ≤
      (acc.transactions.map fun tx => transactionSizeBound tx + 50).sum + parts.flatten.length := by
  induction txids generalizing index parts acc with
  | nil =>
    obtain rfl := List.eq_nil_of_length_eq_zero hcount
    cases h
    exact Nat.le_add_right _ _
  | cons txid txids ih =>
    cases parts with
    | nil => cases hcount
    | cons part parts =>
      simp only [List.zip_cons_cons, parseStoredTransactions, bind_eq_ok, okMapError_eq_ok] at h
      obtain ⟨compact, hpart, acc₁, hpush, h⟩ := h
      have hrest := ih (Nat.succ.inj hcount) h
      obtain ⟨-, tx, -, rfl, -, rfl⟩ := parseTransaction_eq_ok.mp hpart
      simp only [BlockTransactions.push, bind_eq_ok, ensure_eq_ok, pure_eq_ok,
        Except.ok.injEq] at hpush
      obtain ⟨-, -, -, -, -, -, rfl⟩ := hpush
      rw [List.flatten_cons, List.length_append]
      by_cases hpayload : (tx.compact txid (Fin.ofNat _ index)).hasPayload
      · have hbound := transactionSizeBound_le hpayload
        simp only [if_pos hpayload, List.map_append, List.map_cons, List.map_nil, List.sum_append,
          List.sum_cons, List.sum_nil] at hrest
        omega
      · simp only [if_neg hpayload] at hrest
        omega

/-- The bound of a parsed block is not larger than the raw block. -/
theorem parseBlock_size_le {block : RawIndexBlock} {parsed : ParsedCompactBlock}
    (h : parseBlock block = .ok parsed) : parsed.size ≤ max 192 block.bytes.length := by
  obtain ⟨front, solution, parts, previousHash, time, hfront, -, -, hbytes, -, -, hcount,
    hstored⟩ := parseBlock_parts h
  simp only [parseStoredBlock, BlockTransactions.intoBlock, bind_eq_ok, pure_eq_ok,
    Except.ok.injEq] at hstored
  obtain ⟨acc, htxs, _, -, _, -, _, -, rfl⟩ := hstored
  have hsum := parseStoredTransactions_size hcount htxs
  have hsolution := compactSizeBytes_length_pos solution.length
  have htxids := compactSizeBytes_length_pos block.txids.length
  have hlen := congrArg List.length hbytes
  simp only [List.length_append, hfront, headerPrefixBytes] at hlen
  simp only [BlockTransactions.new, List.map_nil, List.sum_nil] at hsum
  unfold ParsedCompactBlock.size
  cases hkept : acc.transactions with
  | nil => simp
  | cons tx txs =>
    -- the 50 bytes of one transaction make up for what the header of the block lacks
    have hmap : ∀ l : List CompactTransaction, (l.map transactionSizeBound).sum ≤
        (l.map fun tx => transactionSizeBound tx + 50).sum := by
      intro l
      induction l with
      | nil => exact le_rfl
      | cons a l ih =>
        simp only [List.map_cons, List.sum_cons]
        omega
    have htail := hmap txs
    simp only [hkept, List.map_cons, List.sum_cons] at hsum ⊢
    omega

end Ztreamer
