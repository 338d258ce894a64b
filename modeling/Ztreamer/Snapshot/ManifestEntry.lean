import Ztreamer.Chain.Types

/-! # Manifest entries

    What a snapshot manifest says about one sealed range: its end, its tree
    frontiers, the subtrees that it completed, and the length and the digest of
    its blob.

    Tree nodes are an arbitrary type `ν`. BLAKE3 is an arbitrary function.
-/

namespace Ztreamer

open Octets

/-- A note commitment pool. -/
inductive Pool where
  | sapling
  | orchard
  | ironwood
  deriving DecidableEq

/-- The root node of a completed note commitment subtree, with its pool. -/
structure SubtreeNode (ν : Type) where
  pool : Pool
  node : ν
  deriving DecidableEq

structure SubtreeRoot (ν : Type) where
  index : U16
  root : SubtreeNode ν
  deriving DecidableEq

/-- The tree roots a node reported for one height. A root is `none` when the
    pool was not active at that height. -/
structure PoolRoots (ν : Type) where
  sapling : Option ν
  orchard : Option ν
  ironwood : Option ν
  deriving DecidableEq

/-- The three tree frontiers at the end of a range, each in the RPC encoding.
    An empty frontier means that the pool was not active. -/
structure Frontiers where
  sapling : Bytes
  orchard : Bytes
  ironwood : Bytes
  deriving DecidableEq

/-- The BLAKE3 digest of a range blob. -/
abbrev BlobDigest : Type := ByteVec 32

class Blake3 where
  hash : Bytes → BlobDigest

/-- A digest that forgets its input. -/
abbrev zeroDigest : Blake3 := ⟨fun _ => .ofNat 32 0⟩

structure ManifestEntry (ν : Type) where
  rangeVersion : Byte
  startHeight : U32
  endHeight : U32
  endHash : Hash
  endTreeSizes : TreeSizes
  frontiers : Frontiers
  subtreeRoots : List (SubtreeRoot ν)
  blobDigest : BlobDigest
  blobLen : U64
  epochEnd : Bool
  deriving DecidableEq

/-- Why a range blob does not match its entry. -/
inductive BlobMismatch where
  | len (expected : U64) (actual : Nat)
  | digest
  deriving DecidableEq

/-- Checks that `blob` has the length and the digest of the entry, the length
    first. -/
def ManifestEntry.checkBlob [Blake3] {ν : Type} (entry : ManifestEntry ν) (blob : Bytes) :
    Except BlobMismatch Unit :=
  if blob.length ≠ entry.blobLen.val then .error (.len entry.blobLen blob.length)
  else if Blake3.hash blob = entry.blobDigest then .ok ()
  else .error .digest

theorem ManifestEntry.checkBlob_eq_ok [Blake3] {ν : Type} {entry : ManifestEntry ν}
    {blob : Bytes} {u : Unit} :
    entry.checkBlob blob = .ok u ↔
      blob.length = entry.blobLen.val ∧ Blake3.hash blob = entry.blobDigest := by
  unfold checkBlob
  split
  · simp_all
  · split <;> simp_all

end Ztreamer
