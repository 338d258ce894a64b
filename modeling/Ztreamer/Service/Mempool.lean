import Mathlib.Data.Finset.Dedup
import Mathlib.Data.List.ReduceOption
import Mathlib.Order.Fin.Basic
import Ztreamer.Chain.TransactionSoundness
import Ztreamer.Lib.Sorted
import Ztreamer.Service.Projection

/-! # Compact transactions of the mempool

    A client gets the compact form of each transaction in the mempool, without those
    that it names by a suffix of their ids. The transparent data comes from the full
    transaction, whose deserializer is not part of the repository: it is a parameter.

    * `excludedTxids`: the transactions that the client has,
    * `compactMempoolTxs`: the answer,
    * `addTransparentTxs`: the same transparent data, in a block,
    * `excluded_txids_iff`: a suffix excludes the only transaction that it names,
    * `mempool_projection_eq`: the answer is that of a block with these transactions.
-/

namespace Ztreamer

open Octets Result Sorted

/-! ## Texts -/

/-- `n` in hex, with at least `width` digits. -/
def hexNumber (width n : Nat) : String :=
  let digits := Nat.toDigits 16 n
  String.ofList (List.replicate (width - digits.length) '0' ++ digits)

/-- The id of a transaction with its bytes in display order. -/
def Hash.bytesInDisplayOrder (hash : Hash) : Hash := ⟨hash.val.reverse, by simp⟩

def Hash.text (hash : Hash) : String :=
  String.join (hash.bytesInDisplayOrder.val.map fun byte => hexNumber 2 byte.val)

def TransactionParseError.text : TransactionParseError → String
  | .tooLarge => s!"transaction is larger than {maxTransactionBytes} bytes"
  | .truncated offset => s!"truncated transaction at byte {offset}"
  | .nonCanonicalCompactSize offset => s!"non-canonical CompactSize at byte {offset}"
  | .lengthLimit offset => s!"count or length at byte {offset} exceeds its bound"
  | .unsupportedHeader header =>
    let digits := hexNumber 8 header
    s!"unsupported transaction header 0x{digits}"
  | .versionGroup actual expected =>
    let actualDigits := hexNumber 8 actual
    let expectedDigits := hexNumber 8 expected
    s!"wrong version group ID 0x{actualDigits}, expected 0x{expectedDigits}"
  | .trailingBytes offset => s!"trailing bytes at byte {offset}"

/-! ## Excluded transactions -/

/-- The only transaction whose displayed id starts with `pre`. -/
def onlyMatch (displayed : List Hash) (pre : Bytes) : Option Hash :=
  let start := partitionPoint (fun txid => txid.val < pre) displayed
  (displayed[start]?.filter fun txid => pre.isPrefixOf txid.val).filter fun _ =>
    !displayed[start + 1]?.any fun next => pre.isPrefixOf next.val

/-- The transactions that are the only ones with one of the suffixes. -/
def excludedTxids (txids : List Hash) (suffixes : List Bytes) : Finset Hash :=
  if suffixes = [] then ∅
  else
    let displayed := (txids.map Hash.bytesInDisplayOrder).mergeSort fun a b => a.val ≤ b.val
    let excluded := (suffixes.filter (·.length ≤ 32)).filterMap fun suffix =>
      (onlyMatch displayed suffix.reverse).map Hash.bytesInDisplayOrder
    excluded.toFinset

theorem Hash.bytesInDisplayOrder_bytesInDisplayOrder (hash : Hash) :
    Hash.bytesInDisplayOrder (Hash.bytesInDisplayOrder hash) = hash :=
  ByteVec.ext (List.reverse_reverse hash.val)

theorem Hash.suffix_bytesInDisplayOrder {suffix : Bytes} {hash : Hash} :
    suffix <:+ (Hash.bytesInDisplayOrder hash).val ↔ suffix.reverse <+: hash.val := by
  rw [← List.reverse_prefix, Hash.bytesInDisplayOrder, List.reverse_reverse]

variable {txid : Hash} {compact : Proto.CompactTx} {α β : Type} {pairs : List ParsedPair}
  {bytes : Bytes} {deserialize : Bytes → Except String FullTransaction}

theorem onlyMatch_eq_some {displayed : List Hash}
    (hsorted : displayed.Pairwise fun a b => a.val < b.val) {pre : Bytes} :
    onlyMatch displayed pre = some txid ↔
      txid ∈ displayed ∧ pre <+: txid.val ∧
        ∀ other ∈ displayed, pre <+: other.val → other = txid := by
  rw [← only_at_partitionPoint hsorted (fun _ => decide_eq_true_iff) (fun _ => le_of_startsWith)
    (fun _ _ => startsWith_of_le_of_le)]
  simp only [onlyMatch, Option.filter_eq_some_iff, List.isPrefixOf_iff_prefix, Bool.not_eq_true',
    ← Bool.not_eq_true, Option.any_eq_true, Option.mem_def, and_assoc]

/-- The ids in display order, sorted, without duplicates. -/
theorem displayed_sorted {txids : List Hash} (hnodup : txids.Nodup) :
    ((txids.map Hash.bytesInDisplayOrder).mergeSort fun a b => a.val ≤ b.val).Pairwise
      fun a b => a.val < b.val := by
  have hinjective : Function.Injective Hash.bytesInDisplayOrder :=
    Function.Involutive.injective Hash.bytesInDisplayOrder_bytesInDisplayOrder
  have hdisplayed := (List.mergeSort_perm (txids.map Hash.bytesInDisplayOrder)
    fun a b => decide (a.val ≤ b.val)).nodup_iff.mpr (hnodup.map hinjective)
  have hle : ((txids.map Hash.bytesInDisplayOrder).mergeSort fun a b => a.val ≤ b.val).Pairwise
      fun a b => decide (a.val ≤ b.val) = true := by
    apply List.pairwise_mergeSort
    · intro a b c hab hbc
      exact decide_eq_true ((of_decide_eq_true hab).trans (of_decide_eq_true hbc))
    · intro a b
      simpa using le_total a.val b.val
  apply hle.imp₂ _ hdisplayed
  intro a b hab hne
  exact lt_of_le_of_ne (of_decide_eq_true hab) fun h => hne (ByteVec.ext h)

/-- A transaction is excluded if and only if it is the only one with one of the suffixes. Longer
    suffixes than an id do not count. -/
theorem excluded_txids_iff {txids : List Hash} (hnodup : txids.Nodup) (suffixes : List Bytes)
    (txid : Hash) :
    txid ∈ excludedTxids txids suffixes ↔
      txid ∈ txids ∧ ∃ suffix ∈ suffixes, suffix.length ≤ 32 ∧ suffix <:+ txid.val ∧
        ∀ other ∈ txids, suffix <:+ other.val → other = txid := by
  unfold excludedTxids
  split
  · next hempty => simp [hempty]
  have hsorted := displayed_sorted hnodup
  -- the transactions of the list, and their places in the sorted list of displayed ids
  have hmem : ∀ displayed : Hash, displayed ∈ ((txids.map Hash.bytesInDisplayOrder).mergeSort
      fun a b => decide (a.val ≤ b.val)) ↔ Hash.bytesInDisplayOrder displayed ∈ txids := by
    intro displayed
    rw [List.mem_mergeSort, List.mem_map]
    constructor
    · rintro ⟨txid, htxid, rfl⟩
      rwa [Hash.bytesInDisplayOrder_bytesInDisplayOrder]
    · intro h
      exact ⟨_, h, Hash.bytesInDisplayOrder_bytesInDisplayOrder displayed⟩
  have honly : ∀ suffix : Bytes, (onlyMatch ((txids.map Hash.bytesInDisplayOrder).mergeSort
      fun a b => decide (a.val ≤ b.val)) suffix.reverse).map Hash.bytesInDisplayOrder = some txid ↔
      txid ∈ txids ∧ suffix <:+ txid.val ∧
        ∀ other ∈ txids, suffix <:+ other.val → other = txid := by
    intro suffix
    rw [Option.map_eq_some_iff]
    constructor
    · rintro ⟨displayed, hmatch, rfl⟩
      obtain ⟨hdisplayed, hsuffix, hothers⟩ := (onlyMatch_eq_some hsorted).mp hmatch
      refine ⟨(hmem displayed).mp hdisplayed, Hash.suffix_bytesInDisplayOrder.mpr hsuffix, ?_⟩
      intro other hother hsuffix'
      have hdisplayed' := (hmem (Hash.bytesInDisplayOrder other)).mpr (by
        rwa [Hash.bytesInDisplayOrder_bytesInDisplayOrder])
      rw [← hothers _ hdisplayed' (List.reverse_prefix.mpr hsuffix'),
        Hash.bytesInDisplayOrder_bytesInDisplayOrder]
    · rintro ⟨htxid, hsuffix, hothers⟩
      refine ⟨Hash.bytesInDisplayOrder txid, (onlyMatch_eq_some hsorted).mpr ⟨?_, ?_, ?_⟩,
        Hash.bytesInDisplayOrder_bytesInDisplayOrder txid⟩
      · rw [hmem, Hash.bytesInDisplayOrder_bytesInDisplayOrder]
        exact htxid
      · exact List.reverse_prefix.mpr hsuffix
      · intro other hother hsuffix'
        rw [← hothers _ ((hmem other).mp hother) (Hash.suffix_bytesInDisplayOrder.mpr hsuffix'),
          Hash.bytesInDisplayOrder_bytesInDisplayOrder]
  simp only [List.mem_toFinset, List.mem_filterMap, List.mem_filter, decide_eq_true_eq, honly]
  tauto

/-- Of two transactions, a whole id excludes its own. The empty suffix names both. -/
theorem excluded_txids_two :
    ByteVec.ofNat 32 1 ∈ excludedTxids [.ofNat 32 1, .ofNat 32 2] [[], (ByteVec.ofNat 32 1).val] ∧
    ByteVec.ofNat 32 2 ∉ excludedTxids [.ofNat 32 1, .ofNat 32 2]
      [[], (ByteVec.ofNat 32 1).val] := by
  rw [excluded_txids_iff (by decide), excluded_txids_iff (by decide)]
  decide

/-! ## Transparent data -/

structure OutPoint where
  hash : Hash
  index : U32
  deriving DecidableEq

structure TransparentOutput where
  value : U64
  lockScript : Bytes
  deriving DecidableEq

/-- What the service reads of a full transaction. -/
structure FullTransaction where
  hash : Hash
  spentOutpoints : List OutPoint
  outputs : List TransparentOutput
  deriving DecidableEq

namespace FullTransaction

def vin (tx : FullTransaction) : List Proto.CompactTxIn :=
  tx.spentOutpoints.map fun outpoint => ⟨outpoint.hash.val, outpoint.index⟩

def vout (tx : FullTransaction) : List Proto.TxOut :=
  tx.outputs.map fun output => ⟨output.value, output.lockScript⟩

end FullTransaction

/-- Adds the transparent data of the transaction at `index` of the block. -/
def addTransparentTx (vtx : List Proto.CompactTx) (tx : FullTransaction) (index : U64) :
    List Proto.CompactTx :=
  if tx.vin = [] ∧ tx.vout = [] then vtx
  else
    let (position, vtx) := match binarySearchByKey vtx index (·.index) with
      | .ok position => (position, vtx)
      | .error position => (position, vtx.insertIdx position { index, txid := tx.hash.val })
    vtx.modify position fun compact => { compact with vin := tx.vin, vout := tx.vout }

def addTransparentTxs (block : Proto.CompactBlock) (transactions : List FullTransaction) :
    Proto.CompactBlock :=
  { block with
    vtx := transactions.zipIdx.foldl (fun vtx (tx, index) =>
      addTransparentTx vtx tx (Fin.ofNat _ index)) block.vtx }

/-! ## The mempool -/

def convertActions (actions : List CompactShieldedAction) : List Proto.CompactOrchardAction :=
  actions.map fun action =>
    { nullifier := action.nullifier.val
      cmx := action.commitment.val
      ephemeralKey := action.ephemeralKey.val
      ciphertext := action.ciphertext.val }

/-- The data of the selected pools, if there is some. -/
def convertTransaction (transaction : CompactTransaction) (pools : PoolSelection) :
    Option Proto.CompactTx :=
  let spends := if pools.sapling then
      transaction.saplingSpends.map fun nullifier => ⟨nullifier.val⟩
    else []
  let outputs := if pools.sapling then
      transaction.saplingOutputs.map fun output =>
        { cmu := output.cmu.val
          ephemeralKey := output.ephemeralKey.val
          ciphertext := output.ciphertext.val }
    else []
  let actions := if pools.orchard then convertActions transaction.orchardActions else []
  let ironwoodActions :=
    if pools.ironwood then convertActions transaction.ironwoodActions else []
  if !spends.isEmpty || !outputs.isEmpty || !actions.isEmpty || !ironwoodActions.isEmpty then
    some { index := transaction.index, txid := transaction.txid.val, fee := 0, spends, outputs,
           actions, ironwoodActions, vin := [], vout := [] }
  else none

section

variable (deserialize : Bytes → Except String FullTransaction)

/-- The compact form of one transaction, if it has data of the selected pools. -/
def compactMempoolTx (pools : PoolSelection) (transaction : Bytes × Hash) :
    Except Status (Option Proto.CompactTx) := do
  let (bytes, txid) := transaction
  let transaction ← okMapError (parseTransaction bytes txid 0) fun error =>
    let id := Hash.text txid
    let text := error.text
    ⟨.internal, s!"mempool transaction {id} is unparsable: {text}"⟩
  let compactTx := convertTransaction transaction pools
  if pools.transparent then
    let transaction ← okMapError (deserialize bytes) fun error => ⟨.internal, error⟩
    if transaction.vin ≠ [] ∨ transaction.vout ≠ [] then
      return some { compactTx.getD { txid := txid.val } with
        vin := transaction.vin, vout := transaction.vout }
  return compactTx

/-- The compact forms of the transactions that are not excluded. -/
def compactMempoolTxs (transactions : List (Bytes × Hash)) (pools : PoolSelection)
    (excludeTxidSuffixes : List Bytes) : Except Status (List Proto.CompactTx) := do
  let excluded := excludedTxids (transactions.map (·.2)) excludeTxidSuffixes
  let compact ← (transactions.filter (·.2 ∉ excluded)).mapM (compactMempoolTx deserialize pools)
  return compact.reduceOption

end

/-! ## One transaction -/

/-- The compact form with the transparent data of a full transaction. -/
def withTransparent (compact : Option Proto.CompactTx) (tx : FullTransaction) (index : U64) :
    Option Proto.CompactTx :=
  if tx.vin = [] ∧ tx.vout = [] then compact
  else some { compact.getD { index, txid := tx.hash.val } with vin := tx.vin, vout := tx.vout }

variable {index : U64} {tx : CompactTransaction} {pools : PoolSelection}

theorem addTransparentTx_append {before after : List Proto.CompactTx}
    {compact : Option Proto.CompactTx} {tx : FullTransaction}
    (hbefore : ∀ a ∈ before, a.index < index) (hafter : ∀ a ∈ after, index < a.index)
    (hcompact : ∀ a ∈ compact, a.index = index) :
    addTransparentTx (before ++ (compact.toList ++ after)) tx index =
      before ++ ((withTransparent compact tx index).toList ++ after) := by
  by_cases hempty : tx.vin = [] ∧ tx.vout = []
  · rw [addTransparentTx, withTransparent, if_pos hempty, if_pos hempty]
  rw [addTransparentTx, withTransparent, if_neg hempty, if_neg hempty]
  cases compact with
  | none =>
    have hle : ∀ a ∈ after, index ≤ a.index := fun a ha => (hafter a ha).le
    have hmissing : ¬ after.head?.map (·.index) = some index := by
      rw [Option.map_eq_some_iff]
      rintro ⟨a, ha, rfl⟩
      exact absurd (hafter a (List.mem_of_mem_head? ha)) (lt_irrefl _)
    rw [Option.toList_none, List.nil_append, binarySearchByKey_append hbefore hle,
      if_neg hmissing]
    dsimp only
    rw [insertIdx_length_append, modify_length_append]
    rfl
  | some compact =>
    have hindex : compact.index = index := hcompact compact rfl
    have hle : ∀ a ∈ compact :: after, index ≤ a.index := by
      intro a ha
      rcases List.mem_cons.mp ha with rfl | ha
      · exact hindex.ge
      · exact (hafter a ha).le
    rw [Option.toList_some, List.singleton_append, binarySearchByKey_append hbefore hle,
      List.head?_cons, Option.map_some, if_pos (congrArg some hindex)]
    dsimp only
    rw [modify_length_append]
    rfl

/-- The conversion of a transaction is its projection in a block. -/
theorem convertTransaction_eq (tx : CompactTransaction) (pools : PoolSelection) :
    convertTransaction tx pools =
      (some (projectTx pools false (transaction tx))).filter isShielded := by
  obtain ⟨transparent, sapling, orchard, ironwood⟩ := pools
  cases sapling <;> cases orchard <;> cases ironwood <;> rfl

theorem convertTransaction_of_not_hasPayload (h : ¬ tx.hasPayload) (pools : PoolSelection) :
    convertTransaction tx pools = none := by
  simp only [CompactTransaction.hasPayload, not_or, ne_eq, not_not] at h
  obtain ⟨hspends, houtputs, horchard, hironwood⟩ := h
  simp [convertTransaction, convertActions, hspends, houtputs, horchard, hironwood]

theorem index_of_convertTransaction (h : convertTransaction tx pools = some compact) :
    compact.index = tx.index := by
  rw [convertTransaction_eq, Option.filter_eq_some_iff] at h
  obtain ⟨h, -⟩ := h
  rw [← Option.some.inj h]
  rfl

theorem index_of_withTransparent {full : FullTransaction}
    (h : withTransparent (convertTransaction tx pools) full tx.index = some compact) :
    compact.index = tx.index := by
  unfold withTransparent at h
  split at h
  · exact index_of_convertTransaction h
  · rw [← Option.some.inj h]
    cases hconvert : convertTransaction tx pools with
    | none => rfl
    | some converted =>
      show converted.index = tx.index
      exact index_of_convertTransaction hconvert

/-! ## All transactions -/

theorem filterMap_cons_toList (f : α → Option β) (a : α) (l : List α) :
    (a :: l).filterMap f = (f a).toList ++ l.filterMap f := by
  rw [List.filterMap_cons]
  cases f a <;> rfl

/-- A transaction as the parser and the deserializer give it. -/
abbrev ParsedPair : Type := CompactTransaction × FullTransaction

/-- The transaction at a position of a block. -/
def numbered (p : ParsedPair × Nat) : CompactTransaction := { p.1.1 with index := Fin.ofNat _ p.2 }

/-- The transparent data of all transactions is added to the transactions that a block keeps. The
    transactions before `start` are already there. -/
theorem foldl_addTransparentTx (pools : PoolSelection) {pairs : List ParsedPair} {start : Nat}
    {before : List Proto.CompactTx} (hlen : start + pairs.length ≤ 2 ^ 64)
    (hbefore : ∀ a ∈ before, a.index.val < start) :
    ((pairs.map (·.2)).zipIdx start).foldl (fun vtx (tx, index) =>
        addTransparentTx vtx tx (Fin.ofNat _ index))
      (before ++ (pairs.zipIdx start).filterMap fun p => convertTransaction (numbered p) pools) =
      before ++ (pairs.zipIdx start).filterMap fun p =>
        withTransparent (convertTransaction (numbered p) pools) p.1.2 (numbered p).index := by
  -- the invariant: all entries in front of the fold have smaller indices
  induction pairs generalizing start before with
  | nil => rfl
  | cons pair pairs ih =>
    rw [List.length_cons] at hlen
    have hindex : (numbered (pair, start)).index.val = start := Nat.mod_eq_of_lt (by omega)
    have hstep : addTransparentTx (before ++
      ((convertTransaction (numbered (pair, start)) pools).toList ++
          (pairs.zipIdx (start + 1)).filterMap fun p => convertTransaction (numbered p) pools))
        pair.2 (numbered (pair, start)).index =
        before ++ ((withTransparent (convertTransaction (numbered (pair, start)) pools) pair.2
          (numbered (pair, start)).index).toList ++
          (pairs.zipIdx (start + 1)).filterMap fun p => convertTransaction (numbered p) pools) := by
      apply addTransparentTx_append
      · intro a ha
        rw [Fin.lt_def, hindex]
        exact hbefore a ha
      · intro a ha
        obtain ⟨p, hp, hconvert⟩ := List.mem_filterMap.mp ha
        obtain ⟨hge, hlt, -⟩ := List.mem_zipIdx hp
        rw [index_of_convertTransaction hconvert, Fin.lt_def, hindex]
        show start < p.2 % 2 ^ 64
        rw [Nat.mod_eq_of_lt (by omega)]
        omega
      · intro a ha
        exact index_of_convertTransaction ha
    have hbefore' : ∀ a ∈ before ++ (withTransparent
      (convertTransaction (numbered (pair, start)) pools)
        pair.2 (numbered (pair, start)).index).toList, a.index.val < start + 1 := by
      intro a ha
      rcases List.mem_append.mp ha with ha | ha
      · exact Nat.lt_succ_of_lt (hbefore a ha)
      · rw [index_of_withTransparent (Option.mem_toList.mp ha), hindex]
        exact Nat.lt_succ_self start
    have hrest := ih (by omega) hbefore'
    rw [List.append_assoc, List.append_assoc, ← hstep] at hrest
    rw [List.map_cons, List.zipIdx_cons, List.zipIdx_cons, List.foldl_cons, filterMap_cons_toList,
      filterMap_cons_toList]
    exact hrest

theorem vtx_projectBlock (pools : PoolSelection) {record : CompactBlockRecord}
    (hrecord : record.transactions = (pairs.zipIdx.map numbered).filter (·.hasPayload)) :
    (projectBlock record.toProto pools false).vtx =
      pairs.zipIdx.filterMap fun p => convertTransaction (numbered p) pools := by
  show ((record.transactions.map transaction).map (projectTx pools false)).filter isShielded = _
  rw [hrecord, ← List.filterMap_eq_filter, List.filterMap_map, List.filterMap_map,
    List.filterMap_filter, List.filterMap_map]
  apply List.filterMap_congr
  intro p _
  show (if decide (numbered p).hasPayload = true then
    (some (projectTx pools false (transaction (numbered p)))).filter isShielded else none) = _
  rw [← convertTransaction_eq]
  split
  · rfl
  · next hpayload =>
    exact (convertTransaction_of_not_hasPayload (by simpa using hpayload) pools).symm

/-- Two lists that correspond, with their positions. -/
theorem forall₂_zipIdx {R : α → β → Prop} {l : List α} {r : List β} (h : List.Forall₂ R l r)
    (start : Nat) :
    List.Forall₂ (fun a b => R a.1 b.1 ∧ a.2 = b.2) (l.zipIdx start) (r.zipIdx start) := by
  induction h generalizing start with
  | nil => exact .nil
  | cons hab _ ih => exact .cons ⟨hab, rfl⟩ (ih (start + 1))

/-- The parser reads the same transaction at every position. -/
theorem parseTransaction_index (h : parseTransaction bytes txid index = .ok tx) (index' : U64) :
    parseTransaction bytes txid index' = .ok { tx with index := index' } := by
  obtain ⟨hmax, wire, hnormal, hbytes, houtputs, rfl⟩ := parseTransaction_eq_ok.mp h
  exact parseTransaction_eq_ok.mpr ⟨hmax, wire, hnormal, hbytes, houtputs, rfl⟩

/-- The compact form of a transaction in the mempool. -/
def mempoolForm (pools : PoolSelection) (pair : ParsedPair) : Option Proto.CompactTx :=
  let compact := convertTransaction { pair.1 with index := 0 } pools
  if pools.transparent then withTransparent compact pair.2 0 else compact

theorem compactMempoolTx_eq_ok {pair : ParsedPair}
    (hparse : parseTransaction bytes pair.2.hash index = .ok pair.1)
    (hfull : deserialize bytes = .ok pair.2) :
    compactMempoolTx deserialize pools (bytes, pair.2.hash) = .ok (mempoolForm pools pair) := by
  have hparse := parseTransaction_index hparse 0
  simp only [compactMempoolTx, hparse, okMapError_ok, ok_bind, mempoolForm, withTransparent, hfull]
  cases pools.transparent with
  | false => rfl
  | true =>
    rw [if_pos rfl, if_pos rfl]
    by_cases hempty : pair.2.vin = [] ∧ pair.2.vout = []
    · have hnone : ¬ (pair.2.vin ≠ [] ∨ pair.2.vout ≠ []) := by tauto
      rw [if_pos hempty, if_neg hnone]
      rfl
    · have hsome : pair.2.vin ≠ [] ∨ pair.2.vout ≠ [] := by tauto
      rw [if_neg hempty, if_pos hsome]
      rfl

/-- Without its position, a transaction of the block is the one of the mempool. -/
theorem convertTransaction_numbered (pools : PoolSelection) (p : ParsedPair × Nat) :
    (convertTransaction (numbered p) pools).map ({ · with index := 0 }) =
      convertTransaction { p.1.1 with index := 0 } pools := by
  have hsame : isShielded (projectTx pools false (transaction { p.1.1 with index := 0 })) =
      isShielded (projectTx pools false (transaction (numbered p))) := rfl
  rw [convertTransaction_eq, convertTransaction_eq, Option.filter_some, Option.filter_some, hsame]
  split <;> rfl

theorem withTransparent_numbered (pools : PoolSelection) (p : ParsedPair × Nat) :
    (withTransparent (convertTransaction (numbered p) pools) p.1.2 (numbered p).index).map
        ({ · with index := 0 }) =
      withTransparent (convertTransaction { p.1.1 with index := 0 } pools) p.1.2 0 := by
  rw [← convertTransaction_numbered pools p]
  unfold withTransparent
  split
  · rfl
  · cases convertTransaction (numbered p) pools <;> rfl

/-- A transaction of the mempool, and what the parser and the deserializer give for it. -/
def ParsesTo (deserialize : Bytes → Except String FullTransaction) (t : Bytes × Hash)
    (pair : ParsedPair) : Prop :=
  parseTransaction t.1 t.2 0 = .ok pair.1 ∧ deserialize t.1 = .ok pair.2 ∧ pair.2.hash = t.2

theorem compactMempoolTxs_eq_ok {transactions : List (Bytes × Hash)}
    (hpairs : List.Forall₂ (ParsesTo deserialize) transactions pairs) (pools : PoolSelection) :
    compactMempoolTxs deserialize transactions pools [] =
      .ok (pairs.filterMap (mempoolForm pools)) := by
  have hforms : transactions.mapM (compactMempoolTx deserialize pools) =
      .ok (pairs.map (mempoolForm pools)) := by
    rw [mapM_eq_ok, List.forall₂_map_right_iff]
    apply hpairs.imp
    rintro ⟨bytes, _⟩ pair ⟨hparse, hfull, rfl⟩
    exact compactMempoolTx_eq_ok hparse hfull
  have hall : transactions.filter
      (fun t => t.2 ∉ excludedTxids (transactions.map (·.2)) []) = transactions := by
    rw [List.filter_eq_self]
    intro t _
    simp [excludedTxids]
  rw [compactMempoolTxs, hall, hforms, ok_bind, List.reduceOption, List.filterMap_map]
  rfl

/-- Transactions of a block that are those of the mempool, one by one. -/
theorem map_filterMap_zipIdx {f : ParsedPair × Nat → Option Proto.CompactTx}
    (hf : ∀ p, (f p).map ({ · with index := 0 }) = mempoolForm pools p.1)
    (pairs : List ParsedPair) :
    (pairs.zipIdx.filterMap f).map ({ · with index := 0 }) =
      pairs.filterMap (mempoolForm pools) := by
  calc (pairs.zipIdx.filterMap f).map ({ · with index := 0 })
      = pairs.zipIdx.filterMap (mempoolForm pools ∘ Prod.fst) := by
        rw [List.map_filterMap]
        exact congrArg (fun g => List.filterMap g _) (funext hf)
    _ = pairs.filterMap (mempoolForm pools) := by
        rw [← List.filterMap_map, List.zipIdx_map_fst]

/-- The transactions in the mempool, without exclusions, are those of the block that has them all.
    Only the positions are missing. -/
theorem mempool_projection_eq (deserialize : Bytes → Except String FullTransaction)
    (transactions : List (Bytes × Hash)) (pools : PoolSelection)
    (hlen : transactions.length ≤ 2 ^ 64)
    (hparse : ∀ t ∈ transactions, ∃ tx, parseTransaction t.1 t.2 0 = .ok tx)
    (hfull : ∀ t ∈ transactions, ∃ full, deserialize t.1 = .ok full ∧ full.hash = t.2) :
    ∃ parsed fulls,
      transactions.zipIdx.mapM (fun (t, index) => parseTransaction t.1 t.2 (Fin.ofNat _ index)) =
        .ok parsed ∧
      transactions.mapM (fun t => deserialize t.1) = .ok fulls ∧
      ∀ record : CompactBlockRecord, record.transactions = parsed.filter (·.hasPayload) →
        let block := projectBlock record.toProto pools false
        compactMempoolTxs deserialize transactions pools [] =
          .ok ((if pools.transparent then addTransparentTxs block fulls else block).vtx.map
            fun compact => { compact with index := 0 }) := by
  have hpairs : ∀ t ∈ transactions, ∃ pair, ParsesTo deserialize t pair := by
    intro t ht
    obtain ⟨tx, htx⟩ := hparse t ht
    obtain ⟨full, hfull, hhash⟩ := hfull t ht
    exact ⟨(tx, full), htx, hfull, hhash⟩
  obtain ⟨pairs, hpairs⟩ := exists_forall₂ hpairs
  have hlength : pairs.length ≤ 2 ^ 64 := hpairs.length_eq ▸ hlen
  refine ⟨pairs.zipIdx.map numbered, pairs.map (·.2), ?_, ?_, ?_⟩
  · rw [mapM_eq_ok, List.forall₂_map_right_iff]
    apply (forall₂_zipIdx hpairs 0).imp
    rintro ⟨t, index⟩ ⟨pair, _⟩ ⟨⟨hparse, -⟩, rfl⟩
    exact parseTransaction_index hparse _
  · rw [mapM_eq_ok, List.forall₂_map_right_iff]
    exact hpairs.imp fun t pair h => h.2.1
  intro record hrecord
  have hvtx := vtx_projectBlock pools hrecord
  rw [compactMempoolTxs_eq_ok hpairs]
  congr 1
  -- without transparent data the block is projected, with it the fold puts it in
  cases htransparent : pools.transparent with
  | false =>
    rw [if_neg (by simp), hvtx, map_filterMap_zipIdx]
    intro p
    rw [convertTransaction_numbered, mempoolForm, htransparent]
    rfl
  | true =>
    have hadded := @foldl_addTransparentTx pools pairs 0 [] (by omega) nofun
    rw [List.nil_append, List.nil_append] at hadded
    rw [if_pos rfl, addTransparentTxs, hvtx]
    dsimp only
    rw [hadded, map_filterMap_zipIdx]
    intro p
    rw [withTransparent_numbered, mempoolForm, htransparent]
    rfl

/-- The transparent data on the wire. An input without an outpoint is that of a coinbase. -/
def WireTransaction.full (tx : WireTransaction) (txid : Hash) : FullTransaction where
  hash := txid
  spentOutpoints := tx.transparent.inputs.filterMap fun input =>
    let hash : Hash := ⟨input.prevout.val.take 32, by simp⟩
    if hash = .ofNat 32 0 then none
    else some ⟨hash, Fin.ofNat _ (leNat (input.prevout.val.drop 32))⟩
  outputs := tx.transparent.outputs.map fun output =>
    ⟨Fin.ofNat _ (leNat output.value.val), output.script⟩

/-- The deserializer of the listed transactions. -/
def wireDeserializer (known : List (WireTransaction × Hash)) (bytes : Bytes) :
    Except String FullTransaction :=
  match known.find? fun (tx, _) => tx.serialize = bytes with
  | some (tx, txid) => .ok (tx.full txid)
  | none => .error "unknown transaction"

/-- A Jubjub point of prime order. -/
def saplingPoint : Digest :=
  .ofNat 32 0x30b5f2aaad325630bcdddbce4d67656d05fd1cc2d037bb5375b6e96d9e01a1d7

/-- A transaction with a transparent input, a transparent output and a Sapling output. -/
def shieldingTx : WireTransaction :=
  .v4 ⟨[⟨.ofNat 36 (2 ^ 32), [81], .ofNat 4 (2 ^ 32 - 1)⟩], [⟨.ofNat 8 (2 ^ 57), [81]⟩]⟩
    (.ofNat 16 0)
    ⟨[], [⟨saplingPoint, .ofNat 32 (2 ^ 248), saplingPoint, .ofNat 52 3, .ofNat 608 4,
      .ofNat 192 5⟩],
      ⟨[], default⟩, .ofNat 64 6⟩

/-- A transaction with one input and one output. -/
def transparentTx : WireTransaction :=
  .v1 ⟨[⟨.ofNat 36 (7 * 2 ^ 32 + 2 ^ 24), [], .ofNat 4 0⟩], [⟨.ofNat 8 (3 * 2 ^ 56), [81]⟩]⟩
    (.ofNat 4 0)

/-- The double SHA-256 of the bytes of `shieldingTx`. -/
def shieldingTxid : Hash :=
  .ofNat 32 0x19e492a57360e446df9020a9de3e76cffe3b5fef9ffe997fab98b8bf8db48c7a

/-- The double SHA-256 of the bytes of `transparentTx`. -/
def transparentTxid : Hash :=
  .ofNat 32 0x25e8451124ece83c4f1f83bc04ceded2e0a84367b2c1f6939fc7556aab68aec5

def twoWireTxs : List (WireTransaction × Hash) :=
  [(shieldingTx, shieldingTxid), (transparentTx, transparentTxid)]

def twoMempoolTxs : List (Bytes × Hash) := twoWireTxs.map fun (tx, txid) => (tx.serialize, txid)

/-- A shielded transaction and a transparent one, each with what it spends and pays. -/
theorem mempool_projection_two : ∃ parsed fulls,
    twoMempoolTxs.zipIdx.mapM (fun (t, index) => parseTransaction t.1 t.2 (Fin.ofNat _ index)) =
      .ok parsed ∧
    twoMempoolTxs.mapM (fun t => wireDeserializer twoWireTxs t.1) = .ok fulls ∧
    fulls.map (fun tx => (tx.spentOutpoints, tx.outputs)) =
      [([⟨.ofNat 32 1, 0⟩], [⟨2, [81]⟩]), ([⟨.ofNat 32 7, 1⟩], [⟨3, [81]⟩])] ∧
    ∀ record : CompactBlockRecord, record.transactions = parsed.filter (·.hasPayload) →
      compactMempoolTxs (wireDeserializer twoWireTxs) twoMempoolTxs ⟨true, true, true, true⟩ [] =
        .ok ((addTransparentTxs (projectBlock record.toProto ⟨true, true, true, true⟩ false)
          fulls).vtx.map fun compact => { compact with index := 0 }) := by
  have hlength : shieldingTx.serialize.length ≤ maxTransactionBytes := by
    simp [shieldingTx, WireTransaction.serialize, TransparentBundle.encode, vectorBytes,
      TxInput.encode, TxOutput.encode, SaplingV4.encode, SaplingOutput.encodeV4, JoinSplits.encode,
      compactSizeBytes, maxTransactionBytes]
  have hnormal : shieldingTx.Normal :=
    ⟨fun _ => rfl, fun h => (List.cons_ne_nil _ _ h.2).elim⟩
  have hne : shieldingTx.serialize ≠ transparentTx.serialize := by
    intro h
    cases congrArg List.head? h
  have hfirst : wireDeserializer twoWireTxs shieldingTx.serialize =
    .ok (shieldingTx.full shieldingTxid) := by
    simp only [wireDeserializer, twoWireTxs, List.find?_cons, decide_true]
  have hsecond : wireDeserializer twoWireTxs transparentTx.serialize =
      .ok (transparentTx.full transparentTxid) := by
    simp only [wireDeserializer, twoWireTxs, List.find?_cons, hne, decide_false, decide_true]
  obtain ⟨parsed, fulls, hparsed, hfulls, hprojection⟩ := mempool_projection_eq
    (wireDeserializer twoWireTxs) twoMempoolTxs ⟨true, true, true, true⟩ (by decide)
    (by
      intro t ht
      rcases List.mem_pair.mp ht with rfl | rfl
      · exact ⟨_, parseTransaction_eq_ok.mpr ⟨hlength, shieldingTx, hnormal, rfl, by decide, rfl⟩⟩
      · exact ⟨_, parseTransaction_eq_ok.mpr ⟨by decide, transparentTx, trivial, rfl,
          by decide, rfl⟩⟩)
    (by
      intro t ht
      rcases List.mem_pair.mp ht with rfl | rfl
      · exact ⟨_, hfirst, rfl⟩
      · exact ⟨_, hsecond, rfl⟩)
  have hpair : twoMempoolTxs.mapM (fun t => wireDeserializer twoWireTxs t.1) =
      .ok [shieldingTx.full shieldingTxid, transparentTx.full transparentTxid] :=
    mapM_eq_ok.mpr (.cons hfirst (.cons hsecond .nil))
  obtain rfl := Except.ok.inj (hfulls.symm.trans hpair)
  exact ⟨parsed, _, hparsed, hfulls, by decide, hprojection⟩

end Ztreamer
