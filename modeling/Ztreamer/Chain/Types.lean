import Ztreamer.Lib.Octets

/-! # The compact block model

    The types that the parser produces and that the index stores:

    * `CompactTransaction`: the wallet-scanning fields of one transaction,
    * `ParsedCompactBlock`: one block, with the commitments that it adds,
    * `CompactBlockRecord`: one block, with the tree sizes at its end.
-/

namespace Ztreamer

open Octets

/-- A 32-byte digest: a commitment, a nullifier or a key. -/
abbrev Digest : Type := ByteVec 32

/-- The hash of a block or of a transaction. -/
abbrev Hash : Type := ByteVec 32

instance Hash.transOrd : Std.TransOrd Hash := ByteVec.instTransOrd

/-- The first 52 bytes of a shielded output ciphertext. -/
abbrev Ciphertext : Type := ByteVec 52

/-- The number of blocks in a sealed range. -/
def rangeSize : Nat := 1000

/-- The previous hash of the genesis block. -/
def genesisPreviousBlockHash : Hash := ByteVec.ofNat 32 0

/-! ## Tree sizes -/

/-- Cumulative tree sizes per pool, by number of note commitments. -/
@[ext] structure TreeSizes where
  sapling : U32
  orchard : U32
  ironwood : U32
  deriving DecidableEq

namespace TreeSizes

instance : Inhabited TreeSizes := ⟨⟨0, 0, 0⟩⟩

/-- Each pool size is at least the size in `below`. -/
def follows (s below : TreeSizes) : Prop :=
  below.sapling ≤ s.sapling ∧ below.orchard ≤ s.orchard ∧ below.ironwood ≤ s.ironwood

instance (s below : TreeSizes) : Decidable (s.follows below) := by
  unfold follows; infer_instance

/-- The note commitments in all three trees. -/
def total (s : TreeSizes) : Nat := s.sapling.val + s.orchard.val + s.ironwood.val

/-- Adds pool by pool; `none` if a pool size overflows. -/
def checkedAdd (s other : TreeSizes) : Option TreeSizes := do
  let sapling ← Octets.checkedAdd s.sapling other.sapling
  let orchard ← Octets.checkedAdd s.orchard other.orchard
  let ironwood ← Octets.checkedAdd s.ironwood other.ironwood
  return ⟨sapling, orchard, ironwood⟩

/-- Subtracts pool by pool; `none` if a pool size underflows. -/
def checkedSub (s other : TreeSizes) : Option TreeSizes := do
  let sapling ← Octets.checkedSub s.sapling other.sapling
  let orchard ← Octets.checkedSub s.orchard other.orchard
  let ironwood ← Octets.checkedSub s.ironwood other.ironwood
  return ⟨sapling, orchard, ironwood⟩

variable {s other sum : TreeSizes}

theorem checkedAdd_eq_some :
    s.checkedAdd other = some sum ↔
      s.sapling.val + other.sapling.val = sum.sapling.val ∧
      s.orchard.val + other.orchard.val = sum.orchard.val ∧
      s.ironwood.val + other.ironwood.val = sum.ironwood.val := by
  simp only [checkedAdd, Option.bind_eq_bind, Option.bind_eq_some_iff, Octets.checkedAdd_eq_some,
    Option.pure_def, Option.some.injEq]
  constructor
  · rintro ⟨a, ha, b, hb, c, hc, rfl⟩
    exact ⟨ha, hb, hc⟩
  · rintro ⟨ha, hb, hc⟩
    exact ⟨_, ha, _, hb, _, hc, rfl⟩

theorem checkedSub_eq_some {diff : TreeSizes} :
    s.checkedSub other = some diff ↔ diff.checkedAdd other = some s := by
  rw [checkedAdd_eq_some]
  simp only [checkedSub, Option.bind_eq_bind, Option.bind_eq_some_iff, Octets.checkedSub_eq_some,
    Option.pure_def, Option.some.injEq]
  constructor
  · rintro ⟨a, ha, b, hb, c, hc, rfl⟩
    exact ⟨ha.symm, hb.symm, hc.symm⟩
  · rintro ⟨ha, hb, hc⟩
    exact ⟨_, ha.symm, _, hb.symm, _, hc.symm, rfl⟩

theorem follows_of_checkedAdd (h : s.checkedAdd other = some sum) : sum.follows s := by
  rw [checkedAdd_eq_some] at h
  simp only [follows, Fin.le_def]
  omega

/-- Sizes before a block are determined by the sizes after it and its additions. -/
theorem checkedAdd_right_cancel {s' : TreeSizes} (h : s.checkedAdd other = some sum)
    (h' : s'.checkedAdd other = some sum) : s = s' := by
  rw [checkedAdd_eq_some] at h h'
  ext <;> omega

end TreeSizes

/-! ## Transactions -/

structure CompactSaplingOutput where
  cmu : Digest
  ephemeralKey : Digest
  ciphertext : Ciphertext
  deriving DecidableEq

structure CompactShieldedAction where
  nullifier : Digest
  commitment : Digest
  ephemeralKey : Digest
  ciphertext : Ciphertext
  deriving DecidableEq

structure CompactTransaction where
  index : U64
  txid : Hash
  saplingSpends : List Digest
  saplingOutputs : List CompactSaplingOutput
  orchardActions : List CompactShieldedAction
  ironwoodActions : List CompactShieldedAction
  deriving DecidableEq

/-- The transaction has a Sapling spend or output, or an Orchard or Ironwood action. -/
def CompactTransaction.hasPayload (tx : CompactTransaction) : Prop :=
  tx.saplingSpends ≠ [] ∨ tx.saplingOutputs ≠ [] ∨
    tx.orchardActions ≠ [] ∨ tx.ironwoodActions ≠ []

instance (tx : CompactTransaction) : Decidable tx.hasPayload := by
  unfold CompactTransaction.hasPayload; infer_instance

/-! ## Blocks -/

/-- A serialized block, as a source gives it. -/
structure RawIndexBlock where
  height : U32
  hash : Hash
  bytes : Bytes
  txids : List Hash
  deriving DecidableEq

/-- The final index record of one block. -/
structure CompactBlockRecord where
  height : U32
  hash : Hash
  previousHash : Hash
  time : U32
  transactions : List CompactTransaction
  endTreeSizes : TreeSizes
  deriving DecidableEq

/-- Parser output that becomes a `CompactBlockRecord`. -/
structure ParsedCompactBlock where
  height : U32
  hash : Hash
  previousHash : Hash
  time : U32
  transactions : List CompactTransaction
  saplingAdditions : U32
  orchardAdditions : U32
  ironwoodAdditions : U32
  deriving DecidableEq

/-- A count as a `u32`; a count above the maximum saturates. -/
def saturatingCount (n : Nat) : U32 := ⟨min n 4294967295, by omega⟩

/-- The note commitments that the block adds to each tree. -/
def CompactBlockRecord.additions (r : CompactBlockRecord) : TreeSizes where
  sapling := saturatingCount (r.transactions.map (·.saplingOutputs.length)).sum
  orchard := saturatingCount (r.transactions.map (·.orchardActions.length)).sum
  ironwood := saturatingCount (r.transactions.map (·.ironwoodActions.length)).sum

namespace ParsedCompactBlock

/-- The note commitments that the block adds to each pool. -/
def additions (b : ParsedCompactBlock) : TreeSizes :=
  ⟨b.saplingAdditions, b.orchardAdditions, b.ironwoodAdditions⟩

/-- The record of the block with the tree sizes `endTreeSizes` at its end. -/
def toRecord (b : ParsedCompactBlock) (endTreeSizes : TreeSizes) : CompactBlockRecord where
  height := b.height
  hash := b.hash
  previousHash := b.previousHash
  time := b.time
  transactions := b.transactions
  endTreeSizes := endTreeSizes

/-- The record that the index stores for this block, after the tree sizes
    `before` the block; `none` if a tree size overflows. -/
def intoRecord (b : ParsedCompactBlock) (before : TreeSizes) : Option CompactBlockRecord := do
  let endTreeSizes ← before.checkedAdd b.additions
  return b.toRecord endTreeSizes

theorem intoRecord_eq_some {b : ParsedCompactBlock} {before : TreeSizes}
    {r : CompactBlockRecord} :
    b.intoRecord before = some r ↔
      ∃ sizes, before.checkedAdd b.additions = some sizes ∧ b.toRecord sizes = r := by
  simp [intoRecord, Option.bind_eq_some_iff]

end ParsedCompactBlock

end Ztreamer
