import Ztreamer.Snapshot.ManifestEntry

/-! # The node behind a state backend

    The answers of a node about its note commitment trees. A node may answer
    anything at any time, so an answer is an arbitrary function of the request.
-/

namespace Ztreamer

open Octets

inductive BackendError where
  | unavailable (message : String)
  | rejected (message : String)
  | unexpected (message : String)
  deriving DecidableEq

/-- A note commitment tree, with its RPC encoding and its root. -/
structure NoteCommitmentTree (ν : Type) where
  toRpcBytes : Bytes
  root : ν

/-- The three trees at one block. A tree is `none` when the pool was not active at
    that block. -/
structure TreeState (ν : Type) where
  sapling : Option (NoteCommitmentTree ν)
  orchard : Option (NoteCommitmentTree ν)
  ironwood : Option (NoteCommitmentTree ν)

variable {ν : Type}

/-- Each frontier in the RPC encoding, or empty when the pool is not active. -/
def TreeState.frontiers (trees : TreeState ν) : Frontiers where
  sapling := trees.sapling.elim [] (·.toRpcBytes)
  orchard := trees.orchard.elim [] (·.toRpcBytes)
  ironwood := trees.ironwood.elim [] (·.toRpcBytes)

/-- Each tree root, or `none` when the pool is not active. -/
def TreeState.poolRoots (trees : TreeState ν) : PoolRoots ν where
  sapling := trees.sapling.map (·.root)
  orchard := trees.orchard.map (·.root)
  ironwood := trees.ironwood.map (·.root)

/-- A completed subtree of one pool. -/
structure NoteCommitmentSubtreeData (ν : Type) where
  endHeight : Nat
  root : ν

/-- Completed subtrees of one pool, in the order of their index. -/
abbrev Subtrees (ν : Type) : Type := List (U16 × NoteCommitmentSubtreeData ν)

/-- What a node answers. `subtrees` is one request for each pool: the completed
    subtrees from an index on, at most a limit of them. -/
structure StateBackend (ν : Type) where
  treeState : Hash → Except BackendError (TreeState ν)
  subtrees : Pool → U16 → Option U16 → Except BackendError (Subtrees ν)

end Ztreamer
