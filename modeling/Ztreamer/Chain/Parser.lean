import Ztreamer.Chain.Types
import Ztreamer.Lib.Cursor
import Ztreamer.Lib.Result

/-! # The selective parser

    Reads the wallet-scanning fields of Zcash transactions of version 1 to 6,
    and of the blocks that hold them. Every other field is skipped.

    * `parseTransaction`: one transaction,
    * `parseBlock`: a serialized block,
    * `parseStoredBlock`: a block from its stored parts.
-/

namespace Ztreamer

open Octets Octets.Parser Result

def maxTransactionBytes : Nat := 2000000
/-- The largest `u16`. -/
def maxVectorItems : Nat := 65535
def maxEquihashSolutionBytes : Nat := 1344
def headerPrefixBytes : Nat := 140
def compactCiphertextBytes : Nat := 52

def overwinterGroupId : Nat := 0x03c48270
def saplingGroupId : Nat := 0x892f2085
def v5GroupId : Nat := 0x26a7270a
def v6GroupId : Nat := 0xd884b698

def saplingV4SpendBytes : Nat := 384
def saplingSpendPrefixBytes : Nat := 96
def saplingOutputPrefixBytes : Nat := 756
def saplingV4OutputBytes : Nat := 948
def orchardActionBytes : Nat := 820
def bctv14JoinsplitBytes : Nat := 1802
def groth16JoinsplitBytes : Nat := 1698

/-- Why a transaction was refused, with the offset where it was. -/
inductive TransactionParseError where
  | tooLarge
  | truncated (offset : Nat)
  | nonCanonicalCompactSize (offset : Nat)
  | lengthLimit (offset : Nat)
  | unsupportedHeader (header : Nat)
  | versionGroup (actual expected : Nat)
  | trailingBytes (offset : Nat)
  deriving DecidableEq

/-- Why a block was refused. -/
inductive CompactParseError where
  | truncatedHeader (height : U32)
  | framing (height : U32) (source : TransactionParseError)
  | transactionCount (height : U32) (transactions txids : Nat)
  | transaction (height : U32) (index : Nat) (source : TransactionParseError)
  | commitmentCount (height : U32)
  deriving DecidableEq

abbrev TxParser (α : Type) : Type := Parser TransactionParseError α

/-! ## The reader -/

namespace TxReader

def take (len : Nat) : TxParser Bytes := fun r =>
  if r.offset + len < 2 ^ 64 then
    if len ≤ r.rest.length then
      .ok (r.rest.take len, ⟨r.rest.drop len, r.offset + len⟩)
    else .error (.truncated r.offset)
  else .error (.lengthLimit r.offset)

def skip (len : Nat) : TxParser Unit := do
  let _ ← take len

def array (n : Nat) : TxParser (ByteVec n) := do
  let bytes ← take n
  if h : bytes.length = n then return ⟨bytes, h⟩
  -- the length was checked
  else throw (.truncated 0)

/-- A little-endian number of `w` bytes. -/
def uint (w : Nat) : TxParser Nat := do
  let bytes ← array w
  return leNat bytes.val

def offset : TxParser Nat := fun r => .ok (r.offset, r)

/-- Refuses a value below `least`, which has a shorter encoding. -/
def canonical (start least value : Nat) : TxParser Nat :=
  if value < least then throw (.nonCanonicalCompactSize start) else return value

/-- The value of a CompactSize that starts with the byte `first`. -/
def compactSizeValue (start first : Nat) : TxParser Nat :=
  match first with
  | 253 => uint 2 >>= canonical start 253
  | 254 => uint 4 >>= canonical start (2 ^ 16)
  | 255 => uint 8 >>= canonical start (2 ^ 32)
  | first => return first

/-- A length or a count of at most `max`. -/
def compactSize (max : Nat) : TxParser Nat := do
  let start ← offset
  let first ← uint 1
  let value ← compactSizeValue start first
  if value ≤ max then return value else throw (.lengthLimit start)

def count : TxParser Nat := compactSize maxVectorItems

def skipItems (count size : Nat) : TxParser Unit := do
  let start ← offset
  if count * size < 2 ^ 64 then skip (count * size) else throw (.lengthLimit start)

/-- Refuses a count of items that the rest of the input cannot hold. -/
def ensureItems (count size : Nat) : TxParser Unit := fun r =>
  if count * size < 2 ^ 64 then
    if r.rest.length < count * size then .error (.truncated r.offset) else .ok ((), r)
  else .error (.lengthLimit r.offset)

def versionGroup (expected : Nat) : TxParser Unit := do
  let actual ← uint 4
  if actual ≠ expected then throw (.versionGroup actual expected) else return ()

def input : TxParser Unit := do
  skip 36
  let script ← compactSize maxTransactionBytes
  skip script
  skip 4

def output : TxParser Unit := do
  skip 8
  let script ← compactSize maxTransactionBytes
  skip script

def transparentBundle : TxParser Unit := do
  let inputs ← count
  let _ ← times inputs input
  let outputs ← count
  let _ ← times outputs output

def joinsplits (itemSize : Nat) : TxParser Unit := do
  let count ← count
  skipItems count itemSize
  whenPos count (skip 96)

def saplingV4Spend : TxParser Digest := do
  skip 64
  let nullifier ← array 32
  skip (saplingV4SpendBytes - 96)
  return nullifier

def saplingSpend : TxParser Digest := do
  skip 32
  let nullifier ← array 32
  skip (saplingSpendPrefixBytes - 64)
  return nullifier

def saplingOutput (includesProof : Bool) : TxParser CompactSaplingOutput := do
  skip 32
  let cmu ← array 32
  let ephemeralKey ← array 32
  let ciphertext ← array compactCiphertextBytes
  skip (580 - compactCiphertextBytes + 80)
  whenPos includesProof.toNat (skip (saplingV4OutputBytes - saplingOutputPrefixBytes))
  return { cmu, ephemeralKey, ciphertext }

def saplingV4 : TxParser (List Digest × List CompactSaplingOutput) := do
  let spendCount ← count
  ensureItems spendCount saplingV4SpendBytes
  let spends ← times spendCount saplingV4Spend
  let outputCount ← count
  ensureItems outputCount saplingV4OutputBytes
  let outputs ← times outputCount (saplingOutput true)
  joinsplits groth16JoinsplitBytes
  whenPos (spendCount + outputCount) (skip 64)
  return (spends, outputs)

/-- The part of a version 5 bundle after its outputs. -/
def saplingV5Tail (spendCount outputCount : Nat) : TxParser Unit := do
  skip 8
  whenPos spendCount (skip 32)
  skipItems spendCount (192 + 64)
  skipItems outputCount 192
  skip 64

def saplingV5 : TxParser (List Digest × List CompactSaplingOutput) := do
  let spendCount ← count
  ensureItems spendCount saplingSpendPrefixBytes
  let spends ← times spendCount saplingSpend
  let outputCount ← count
  ensureItems outputCount saplingOutputPrefixBytes
  let outputs ← times outputCount (saplingOutput false)
  whenPos (spendCount + outputCount) (saplingV5Tail spendCount outputCount)
  return (spends, outputs)

def action : TxParser CompactShieldedAction := do
  skip 32
  let nullifier ← array 32
  skip 32
  let commitment ← array 32
  let ephemeralKey ← array 32
  let ciphertext ← array compactCiphertextBytes
  skip (580 - compactCiphertextBytes + 80)
  return { nullifier, commitment, ephemeralKey, ciphertext }

/-- The part of an action bundle after its actions. -/
def actionsTail (count : Nat) : TxParser Unit := do
  skip (1 + 8 + 32)
  let proof ← compactSize maxTransactionBytes
  skip proof
  skipItems count 64
  skip 64

def actions : TxParser (List CompactShieldedAction) := do
  let count ← count
  ensureItems count orchardActionBytes
  let actions ← times count action
  whenPos count (actionsTail count)
  return actions

def finish : TxParser Unit := fun r =>
  if r.rest = [] then .ok ((), r) else .error (.trailingBytes r.offset)

end TxReader

/-! ## Transactions -/

open TxReader

/-- Parses one transaction. The high bit of the header is the overwinter flag. -/
def parseTransactionFrom (txid : Hash) (index : U64) : TxParser CompactTransaction := do
  let header ← uint 4
  let version := header % 2 ^ 31
  let overwintered := decide (header / 2 ^ 31 ≠ 0)
  let compact : CompactTransaction :=
    { index, txid, saplingSpends := [], saplingOutputs := [], orchardActions := [],
      ironwoodActions := [] }
  match version, overwintered with
  | 1, false =>
    transparentBundle
    skip 4
    return compact
  | 2, false =>
    transparentBundle
    skip 4
    joinsplits bctv14JoinsplitBytes
    return compact
  | 3, true =>
    versionGroup overwinterGroupId
    transparentBundle
    skip 8
    joinsplits bctv14JoinsplitBytes
    return compact
  | 4, true =>
    versionGroup saplingGroupId
    transparentBundle
    skip 16
    let (spends, outputs) ← saplingV4
    return { compact with saplingSpends := spends, saplingOutputs := outputs }
  | 5, true =>
    versionGroup v5GroupId
    skip 12
    transparentBundle
    let (spends, outputs) ← saplingV5
    let orchard ← actions
    return { compact with
      saplingSpends := spends, saplingOutputs := outputs, orchardActions := orchard }
  | 6, true =>
    versionGroup v6GroupId
    skip 12
    transparentBundle
    let (spends, outputs) ← saplingV5
    let orchard ← actions
    let ironwood ← actions
    return { compact with
      saplingSpends := spends, saplingOutputs := outputs, orchardActions := orchard,
      ironwoodActions := ironwood }
  | _, _ => throw (.unsupportedHeader header)

def parseTransaction (bytes : Bytes) (txid : Hash) (index : U64) :
    Except TransactionParseError CompactTransaction := do
  ensure (bytes.length ≤ maxTransactionBytes) .tooLarge
  let (compact, r) ← parseTransactionFrom txid index ⟨bytes, 0⟩
  let _ ← finish r
  return compact

/-! ## Blocks -/

/-- The compact transactions of one block, and the commitments that all its
    transactions add to each pool. -/
structure BlockTransactions where
  height : U32
  transactions : List CompactTransaction
  saplingAdditions : Nat
  orchardAdditions : Nat
  ironwoodAdditions : Nat
  deriving DecidableEq

namespace BlockTransactions

def new (height : U32) : BlockTransactions := ⟨height, [], 0, 0, 0⟩

/-- Adds the commitments of `tx`. Keeps `tx` only if it has shielded data. -/
def push (b : BlockTransactions) (tx : CompactTransaction) :
    Except CompactParseError BlockTransactions := do
  let sapling := b.saplingAdditions + tx.saplingOutputs.length
  ensure (sapling < 2 ^ 64) (.commitmentCount b.height)
  let orchard := b.orchardAdditions + tx.orchardActions.length
  ensure (orchard < 2 ^ 64) (.commitmentCount b.height)
  let ironwood := b.ironwoodAdditions + tx.ironwoodActions.length
  ensure (ironwood < 2 ^ 64) (.commitmentCount b.height)
  return { height := b.height
           transactions := if tx.hasPayload then b.transactions ++ [tx] else b.transactions
           saplingAdditions := sapling
           orchardAdditions := orchard
           ironwoodAdditions := ironwood }

/-- The parsed block with these transactions. -/
def intoBlock (b : BlockTransactions) (hash previousHash : Hash) (time : U32) :
    Except CompactParseError ParsedCompactBlock := do
  let sapling ← okOr (ofNat? _ b.saplingAdditions) (.commitmentCount b.height)
  let orchard ← okOr (ofNat? _ b.orchardAdditions) (.commitmentCount b.height)
  let ironwood ← okOr (ofNat? _ b.ironwoodAdditions) (.commitmentCount b.height)
  return { height := b.height
           hash
           previousHash
           time
           transactions := b.transactions
           saplingAdditions := sapling
           orchardAdditions := orchard
           ironwoodAdditions := ironwood }

end BlockTransactions

/-- Parses the transactions of a block from the one at `index` on. -/
def parseTransactions (height : U32) (index : Nat) (txids : List Hash) (r : Cursor)
    (acc : BlockTransactions) : Except CompactParseError (Cursor × BlockTransactions) :=
  match txids with
  | [] => .ok (r, acc)
  | txid :: txids => do
    let (compact, r') ← okMapError (parseTransactionFrom txid (Fin.ofNat _ index) r)
      (.transaction height index)
    ensure (r'.offset - r.offset ≤ maxTransactionBytes) (.transaction height index .tooLarge)
    let acc ← acc.push compact
    parseTransactions height (index + 1) txids r' acc

/-- The parent hash in a serialized block header. -/
def headerPreviousHash (bytes : Bytes) : Option Hash :=
  ByteVec.ofBytes? 32 ((bytes.drop 4).take 32)

/-- The time in a serialized block header. -/
def headerTime (bytes : Bytes) : Option U32 := do
  let time ← ByteVec.ofBytes? 4 ((bytes.drop 100).take 4)
  ofNat? _ (leNat time.val)

def parseBlock (block : RawIndexBlock) : Except CompactParseError ParsedCompactBlock := do
  let height := block.height
  let (_, r) ← okMapError (skip headerPrefixBytes ⟨block.bytes, 0⟩)
    fun _ => .truncatedHeader height
  let (solutionBytes, r) ← okMapError (compactSize maxEquihashSolutionBytes r) (.framing height)
  let (_, r) ← okMapError (skip solutionBytes r) fun _ => .truncatedHeader height
  let (transactionCount, r) ← okMapError (compactSize maxVectorItems r) (.framing height)
  ensure (transactionCount = block.txids.length)
    (.transactionCount height transactionCount block.txids.length)
  let previousHash ← okOr (headerPreviousHash block.bytes) (.truncatedHeader height)
  let time ← okOr (headerTime block.bytes) (.truncatedHeader height)
  let (r, transactions) ← parseTransactions height 0 block.txids r (.new height)
  let _ ← okMapError (finish r) (.framing height)
  transactions.intoBlock block.hash previousHash time

/-- Parses stored transactions, each with its own bytes, from the one at `index` on. -/
def parseStoredTransactions (height : U32) (index : Nat) (transactions : List (Bytes × Hash))
    (acc : BlockTransactions) : Except CompactParseError BlockTransactions :=
  match transactions with
  | [] => .ok acc
  | (bytes, txid) :: transactions => do
    let compact ← okMapError (parseTransaction bytes txid (Fin.ofNat _ index))
      (.transaction height index)
    let acc ← acc.push compact
    parseStoredTransactions height (index + 1) transactions acc

/-- Parses a block from its stored parts: the header fields that the index keeps,
    and the bytes and the id of each transaction. -/
def parseStoredBlock (height : U32) (hash previousHash : Hash) (time : U32)
    (transactions : List (Bytes × Hash)) : Except CompactParseError ParsedCompactBlock := do
  let compact ← parseStoredTransactions height 0 transactions (.new height)
  compact.intoBlock hash previousHash time

variable {height : U32} {index : Nat} {txids : List Hash} {r r' : Cursor}
  {acc acc' : BlockTransactions} {block : RawIndexBlock} {parsed : ParsedCompactBlock}

theorem parseTransactions_spec (h : parseTransactions height index txids r acc = .ok (r', acc'))
    (hacc : ∀ tx ∈ acc.transactions, tx.hasPayload) :
    acc'.height = acc.height ∧ ∀ tx ∈ acc'.transactions, tx.hasPayload := by
  induction txids generalizing index r acc with
  | nil =>
    cases h
    exact ⟨rfl, hacc⟩
  | cons txid txids ih =>
    simp only [parseTransactions, bind_eq_ok, BlockTransactions.push, ensure_eq_ok, pure_eq_ok,
      Except.ok.injEq, Prod.exists] at h
    obtain ⟨compact, r₁, -, -, -, _, ⟨-, -, -, -, -, -, rfl⟩, h⟩ := h
    have hpush : ∀ tx ∈ (if compact.hasPayload then acc.transactions ++ [compact]
        else acc.transactions), tx.hasPayload := by
      intro tx htx
      split at htx
      · rcases List.mem_append.mp htx with htx | htx
        · exact hacc tx htx
        · rw [List.mem_singleton.mp htx]
          assumption
      · exact hacc tx htx
    obtain ⟨hheight, hpayload⟩ := ih h hpush
    exact ⟨hheight, hpayload⟩

/-- What a parsed block keeps of the raw block: the identity, the parent in the
    header, and only transactions with shielded data. -/
theorem parseBlock_spec (h : parseBlock block = .ok parsed) :
    parsed.height = block.height ∧ parsed.hash = block.hash ∧
      headerPreviousHash block.bytes = some parsed.previousHash ∧
      ∀ tx ∈ parsed.transactions, tx.hasPayload := by
  simp only [parseBlock, bind_eq_ok, BlockTransactions.intoBlock, okOr_eq_ok, ensure_eq_ok,
    pure_eq_ok, Except.ok.injEq, Prod.exists] at h
  obtain ⟨-, r₁, -, n, r₂, -, -, r₃, -, k, r₄, -, -, -, previousHash, hprevious, time, -, r₅,
    transactions, htxs, -, -, -, sapling, -, orchard, -, ironwood, -, rfl⟩ := h
  obtain ⟨hheight, hpayload⟩ := parseTransactions_spec htxs (by simp [BlockTransactions.new])
  exact ⟨hheight, rfl, hprevious, hpayload⟩

/-- The kept transactions have all the commitments that were counted, since a
    transaction without shielded data has none. -/
structure BlockTransactions.Counted (b : BlockTransactions) : Prop where
  sapling : b.saplingAdditions = (b.transactions.map (·.saplingOutputs.length)).sum
  orchard : b.orchardAdditions = (b.transactions.map (·.orchardActions.length)).sum
  ironwood : b.ironwoodAdditions = (b.transactions.map (·.ironwoodActions.length)).sum

theorem BlockTransactions.Counted.push {b b' : BlockTransactions} {tx : CompactTransaction}
    (h : b.Counted) (hpush : b.push tx = .ok b') : b'.Counted := by
  simp only [BlockTransactions.push, bind_eq_ok, ensure_eq_ok, pure_eq_ok, Except.ok.injEq] at hpush
  obtain ⟨-, -, -, -, -, -, rfl⟩ := hpush
  by_cases hpayload : tx.hasPayload
  · constructor
    · simp [if_pos hpayload, h.sapling]
    · simp [if_pos hpayload, h.orchard]
    · simp [if_pos hpayload, h.ironwood]
  · simp only [CompactTransaction.hasPayload, not_or, not_not] at hpayload
    obtain ⟨hspends, houtputs, horchard, hironwood⟩ := hpayload
    constructor
    · simp [CompactTransaction.hasPayload, hspends, houtputs, horchard, hironwood, h.sapling]
    · simp [CompactTransaction.hasPayload, hspends, houtputs, horchard, hironwood, h.orchard]
    · simp [CompactTransaction.hasPayload, hspends, houtputs, horchard, hironwood, h.ironwood]

theorem parseTransactions_counted (h : parseTransactions height index txids r acc = .ok (r', acc'))
    (hacc : acc.Counted) : acc'.Counted := by
  induction txids generalizing index r acc with
  | nil =>
    cases h
    exact hacc
  | cons txid txids ih =>
    simp only [parseTransactions, bind_eq_ok, Prod.exists] at h
    obtain ⟨compact, r₁, -, -, -, acc₁, hpush, h⟩ := h
    exact ih h (hacc.push hpush)

/-- The commitments that a parsed block counts are those of its record. -/
theorem parseBlock_additions (h : parseBlock block = .ok parsed) (endTreeSizes : TreeSizes) :
    (parsed.toRecord endTreeSizes).additions = parsed.additions := by
  simp only [parseBlock, bind_eq_ok, BlockTransactions.intoBlock, okOr_eq_ok, ensure_eq_ok,
    pure_eq_ok, Except.ok.injEq, Prod.exists] at h
  obtain ⟨-, r₁, -, n, r₂, -, -, r₃, -, k, r₄, -, -, -, previousHash, -, time, -, r₅,
    transactions, htxs, -, -, -, sapling, hsapling, orchard, horchard, ironwood, hironwood,
    rfl⟩ := h
  have hcounted := parseTransactions_counted htxs ⟨rfl, rfl, rfl⟩
  have hcount : ∀ {n : Nat} {count : U32}, ofNat? _ n = some count → saturatingCount n = count := by
    intro n count hn
    obtain rfl := ofNat?_eq_some.mp hn
    rw [Fin.ext_iff]
    simp only [saturatingCount]
    omega
  rw [hcounted.sapling] at hsapling
  rw [hcounted.orchard] at horchard
  rw [hcounted.ironwood] at hironwood
  simp only [CompactBlockRecord.additions, ParsedCompactBlock.toRecord,
    ParsedCompactBlock.additions, hcount hsapling, hcount horchard, hcount hironwood]

end Ztreamer
