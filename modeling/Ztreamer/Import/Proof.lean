import Mathlib.Order.Fin.Basic
import Ztreamer.Chain.Parser
import Ztreamer.Import.Range
import Ztreamer.Lib.Merkle
import Ztreamer.Snapshot.Manifest

/-! # The proof of an epoch

    A replica checks each range of an epoch and rebuilds the note commitment trees from
    the frontiers before the epoch. A node then attests the hashes of the range ends, the
    roots at the end of the epoch and the roots of the completed subtrees.

    A tree is the list of its leaves. Field elements, the hash of a tree node and the RPC
    encoding of a tree are arbitrary functions.

    * `EpochProof.rebuildRanges` / `EpochProof.attest`: the model,
    * `Trees.Extends`: trees with the commitments of records appended,
    * `EpochProof.rebuildRanges_eq_ok`: what a rebuild accepts,
    * `EpochProof.attest_eq_ok`: what an attestation compares.
-/

namespace Ztreamer

open Octets Result

variable {ν : Type}

/-! ## Pools -/

namespace Pool

def all : List Pool := [.sapling, .orchard, .ironwood]

theorem mem_all (pool : Pool) : pool ∈ all := by
  cases pool <;> decide

/-- The value of the pool among the values of the three pools. -/
def select {α : Type} (pool : Pool) (sapling orchard ironwood : α) : α :=
  match pool with
  | .sapling => sapling
  | .orchard => orchard
  | .ironwood => ironwood

end Pool

def Frontiers.of (frontiers : Frontiers) (pool : Pool) : Bytes :=
  pool.select frontiers.sapling frontiers.orchard frontiers.ironwood

def TreeSizes.of (sizes : TreeSizes) (pool : Pool) : U32 :=
  pool.select sizes.sapling sizes.orchard sizes.ironwood

def PoolRoots.of (roots : PoolRoots ν) (pool : Pool) : Option ν :=
  pool.select roots.sapling roots.orchard roots.ironwood

/-! ## Note commitment trees -/

/-- The note commitment trees of the pools: the field element of a commitment, the leaf
    that is not committed, the hash of two nodes of a level, and the RPC encoding. -/
class NoteTrees (ν : Type) where
  leaf : Pool → Digest → Option ν
  uncommitted : Pool → ν
  combine : Pool → Nat → ν → ν → ν
  toRpcBytes : Pool → List ν → Bytes
  fromRpcBytes : Pool → Bytes → Option (List ν)

open NoteTrees

/-- The depth of a tree. -/
def treeDepth : Nat := 32

/-- The height of the subtrees whose roots a node keeps. -/
def subtreeHeight : Nat := 16

/-- The leaves of a subtree. -/
abbrev subtreeLeafCount : Nat := 2 ^ subtreeHeight

section

variable [NoteTrees ν]

/-- The root of the leaves, with the leaf that is not committed in the places after them. -/
def noteRoot (pool : Pool) (depth : Nat) (leaves : List ν) : ν :=
  Merkle.root (combine pool) (uncommitted pool) depth leaves

/-- Appends leaves. Gives the tree and the subtree that they complete, or `none` when the
    tree is full. -/
def appendBatch (pool : Pool) (tree leaves : List ν) : Option (List ν × Option (SubtreeRoot ν)) :=
  let appended := tree ++ leaves
  let subtrees := appended.length / 2 ^ subtreeHeight
  let last := (appended.drop ((subtrees - 1) * 2 ^ subtreeHeight)).take (2 ^ subtreeHeight)
  if appended.length ≤ 2 ^ treeDepth then
    some (appended,
      if tree.length / 2 ^ subtreeHeight < subtrees then
        some ⟨Fin.ofNat _ (subtrees - 1), ⟨pool, noteRoot pool subtreeHeight last⟩⟩
      else none)
  else none

/-- The commitments of a pool in a block, in the order of the tree. -/
def CompactBlockRecord.noteCommitments (record : CompactBlockRecord) : Pool → List Digest
  | .sapling => record.transactions.flatMap fun tx => tx.saplingOutputs.map (·.cmu)
  | .orchard => record.transactions.flatMap fun tx => tx.orchardActions.map (·.commitment)
  | .ironwood => record.transactions.flatMap fun tx => tx.ironwoodActions.map (·.commitment)

/-- The leaves of a pool in a block. -/
def leaves (record : CompactBlockRecord) (pool : Pool) : Except Check (List ν) :=
  okOr ((record.noteCommitments pool).mapM (leaf pool)) .commitment

end

/-- The three note commitment trees during a rebuild. -/
structure Trees (ν : Type) where
  sapling : List ν
  orchard : List ν
  ironwood : List ν

namespace Trees

def of (trees : Trees ν) (pool : Pool) : List ν :=
  pool.select trees.sapling trees.orchard trees.ironwood

variable [NoteTrees ν]

/-- The tree of a frontier. An empty frontier, a pool that is not active, is an empty
    tree. -/
def parse (pool : Pool) (frontier : Bytes) : Option (List ν) :=
  if frontier = [] then some [] else fromRpcBytes pool frontier

def ofFrontiers (frontiers : Frontiers) : Option (Trees ν) := do
  let sapling ← parse .sapling frontiers.sapling
  let orchard ← parse .orchard frontiers.orchard
  let ironwood ← parse .ironwood frontiers.ironwood
  return { sapling, orchard, ironwood }

omit [NoteTrees ν] in
def haveSizes (trees : Trees ν) (sizes : TreeSizes) : Prop :=
  ∀ pool ∈ Pool.all, (trees.of pool).length = (sizes.of pool).val

omit [NoteTrees ν] in
instance (trees : Trees ν) (sizes : TreeSizes) : Decidable (trees.haveSizes sizes) := by
  unfold haveSizes; infer_instance

/-- Appends the commitments of one block, and the subtrees that they complete. -/
def append (trees : Trees ν) (record : CompactBlockRecord) (completed : List (SubtreeRoot ν)) :
    Except Check (Trees ν × List (SubtreeRoot ν)) := do
  let saplingLeaves ← leaves record .sapling
  let orchardLeaves ← leaves record .orchard
  let ironwoodLeaves ← leaves record .ironwood
  let (sapling, saplingRoot) ← okOr (appendBatch .sapling trees.sapling saplingLeaves) .commitment
  let (orchard, orchardRoot) ← okOr (appendBatch .orchard trees.orchard orchardLeaves) .commitment
  let (ironwood, ironwoodRoot) ←
    okOr (appendBatch .ironwood trees.ironwood ironwoodLeaves) .commitment
  return (⟨sapling, orchard, ironwood⟩,
    completed ++ [saplingRoot, orchardRoot, ironwoodRoot].filterMap id)

/-- The frontiers are those of the trees. An empty frontier, a pool that is not active,
    must be an empty tree. -/
def matchFrontiers (trees : Trees ν) (frontiers : Frontiers) : Prop :=
  ∀ pool ∈ Pool.all, if frontiers.of pool = [] then (trees.of pool).length = 0
    else toRpcBytes pool (trees.of pool) = frontiers.of pool

instance (trees : Trees ν) (frontiers : Frontiers) :
    Decidable (trees.matchFrontiers frontiers) := by
  unfold matchFrontiers; infer_instance

/-- The root of each tree. An empty tree has the root of the empty tree. -/
def roots (trees : Trees ν) : PoolRoots ν where
  sapling := some (noteRoot .sapling treeDepth trees.sapling)
  orchard := some (noteRoot .orchard treeDepth trees.orchard)
  ironwood := some (noteRoot .ironwood treeDepth trees.ironwood)

end Trees

/-! ## The proof -/

/-- What an epoch proves when its ranges check out and its trees rebuild. -/
structure EpochProof (ν : Type) where
  endFrontiers : Frontiers
  endTreeSizes : TreeSizes
  roots : PoolRoots ν
  completed : List (SubtreeRoot ν)

/-- The end of the range before the epoch. -/
def Manifest.Epoch.startLink (epoch : Manifest.Epoch ν) : RangeLink :=
  epoch.previous.elim .genesis .ofEntry

namespace EpochProof

open Manifest

/-- What a rebuild has seen. -/
structure Rebuilt (ν : Type) [Proto.Prost] [Blake3] where
  link : RangeLink
  trees : Trees ν
  frontiers : Frontiers
  completed : List (SubtreeRoot ν)
  ranges : List CheckedRange

variable [NoteTrees ν] [DecidableEq ν] [Proto.Prost] [Blake3]

omit [DecidableEq ν] [Proto.Prost] [Blake3] in
/-- Appends the commitments of a record that passed its checks. -/
def visit (seen : Trees ν × List (SubtreeRoot ν)) (record : CompactBlockRecord) :
    Except Reject (Trees ν × List (SubtreeRoot ν)) :=
  okMapError (seen.1.append record seen.2) (·.at record.height.val)

/-- Checks one range, and compares the trees after it with its entry. -/
def rebuildRange (seen : Rebuilt ν) (range : ManifestEntry ν × Bytes) :
    Except Reject (Rebuilt ν) := do
  let (entry, blob) := range
  let (link, checked, trees, completed) ←
    RangeBlob.checkWith ⟨blob, entry⟩ seen.link (seen.trees, seen.completed) visit
  ensure (entry.frontiers.follows seen.frontiers ∧ trees.matchFrontiers entry.frontiers)
    (Check.frontier.at entry.endHeight.val)
  let rangeCompleted := completed.drop seen.completed.length
  ensure (rangeCompleted.length = entry.subtreeRoots.length ∧
    ∀ root ∈ rangeCompleted, root ∈ entry.subtreeRoots) (Check.subtreeRoots.at entry.endHeight.val)
  return ⟨link, trees, entry.frontiers, completed, seen.ranges ++ [checked]⟩

/-- Checks each range of the epoch, and rebuilds the trees from `start`. Gives the proof
    and the checked ranges. -/
def rebuildRanges (epoch : Epoch ν) (blobs : List Bytes) (start : Frontiers) :
    Except Reject (EpochProof ν × List CheckedRange) := do
  ensure (blobs.length = epoch.entries.length) (.blobCount epoch.entries.length blobs.length)
  let startHeight := epoch.entries.head?.elim 0 (·.startHeight.val)
  let trees ← okOr ((Trees.ofFrontiers start).filter fun trees : Trees ν =>
    trees.haveSizes epoch.startLink.endTreeSizes) (Check.startFrontier.at startHeight)
  let seen ← (epoch.entries.zip blobs).foldlM rebuildRange ⟨epoch.startLink, trees, start, [], []⟩
  return (⟨seen.frontiers, seen.link.endTreeSizes, seen.trees.roots, seen.completed⟩, seen.ranges)

def rebuild (epoch : Epoch ν) (blobs : List Bytes) (start : Frontiers) :
    Except Reject (EpochProof ν) :=
  (·.1) <$> rebuildRanges epoch blobs start

end EpochProof

/-! ## Attestation -/

/-- Why a node call gave no answer that the replica can use. -/
inductive NodeError where
  /-- The call failed, or the answer is not one for the question. -/
  | unanswered
  | parse (error : CompactParseError)
  | encode (error : CodecError)
  deriving DecidableEq

/-- Why an epoch was not accepted. -/
inductive EpochError where
  | reject (reject : Reject)
  | node (height : Nat) (source : NodeError)
  deriving DecidableEq

/-- A trusted source of the chain state at a height. -/
structure Attestor (ν : Type) where
  blockHash : U32 → Except NodeError Hash
  treeRoots : U32 → Except NodeError (PoolRoots ν)
  subtreeRoots : Pool → U16 → U16 → Except NodeError (List (SubtreeNode ν))

/-- The last height of the epoch. -/
def Manifest.Epoch.endHeight (epoch : Manifest.Epoch ν) : U32 :=
  epoch.entries.getLast?.elim 0 (·.endHeight)

namespace EpochProof

open Manifest

variable [DecidableEq ν]

omit [DecidableEq ν] in
/-- The root of the node is the rebuilt root of the pool. A pool without a root, which is
    not active, has no commitments. -/
def matchesRoot (proof : EpochProof ν) (pool : Pool) : Option ν → Prop
  | none => proof.endTreeSizes.of pool = 0
  | some root => proof.roots.of pool = some root

instance (proof : EpochProof ν) (pool : Pool) : DecidablePred (proof.matchesRoot pool)
  | none => inferInstanceAs (Decidable (proof.endTreeSizes.of pool = 0))
  | some root => inferInstanceAs (Decidable (proof.roots.of pool = some root))

omit [DecidableEq ν] in
/-- Each root of the node matches the rebuilt tree of its pool. -/
def matchesRoots (proof : EpochProof ν) (nodeRoots : PoolRoots ν) : Prop :=
  ∀ pool ∈ Pool.all, proof.matchesRoot pool (nodeRoots.of pool)

instance (proof : EpochProof ν) (nodeRoots : PoolRoots ν) :
    Decidable (proof.matchesRoots nodeRoots) := by
  unfold matchesRoots; infer_instance

/-- Compares each subtree root of the proof with the node, with one call for the pool. -/
def attestPool (proof : EpochProof ν) (epoch : Epoch ν) (attestor : Attestor ν) (pool : Pool) :
    Except EpochError Unit := do
  let completed := proof.completed.filter (·.root.pool = pool)
  let indices : List U16 := completed.map (·.index)
  match indices.min?, indices.max? with
  | some start, some last =>
    let count : U16 := ⟨min (last.val - start.val + 1) 65535, by omega⟩
    let answers ← okMapError (attestor.subtreeRoots pool start count) (.node epoch.endHeight.val)
    match completed.find? fun root => answers[root.index.val - start.val]? ≠ some root.root with
    | none => return ()
    | some wrong =>
      let entry := epoch.entries.find? fun entry => wrong ∈ entry.subtreeRoots
      let height := entry.elim epoch.endHeight (·.endHeight)
      throw (.reject (Check.attestedSubtree.at height.val))
  | _, _ => return ()

def attestSubtrees (proof : EpochProof ν) (epoch : Epoch ν) (attestor : Attestor ν) :
    Except EpochError Unit :=
  Pool.all.forM (proof.attestPool epoch attestor)

/-- The hash of the node at the end of the entry is the hash of the entry. -/
def attestHash (attestor : Attestor ν) (entry : ManifestEntry ν) : Except EpochError Unit := do
  let hash ← okMapError (attestor.blockHash entry.endHeight) (.node entry.endHeight.val)
  ensure (hash = entry.endHash) (.reject (Check.attestedHash.at entry.endHeight.val))

variable [NoteTrees ν]

/-- The answers to keep for an entry. The last entry has the `roots` of the node, and an
    entry before it the rebuilt roots of its frontiers. -/
def attestedEntry (epoch : Epoch ν) (roots : PoolRoots ν) (entry : ManifestEntry ν) :
    Except EpochError (Attested ν) := do
  let kept ← if entry.endHeight = epoch.endHeight then pure roots else do
    let trees ← okOr (Trees.ofFrontiers entry.frontiers : Option (Trees ν))
      (.reject (Check.frontier.at entry.endHeight.val))
    let rebuilt := trees.roots
    pure ⟨roots.sapling.bind fun _ => rebuilt.sapling, roots.orchard.bind fun _ => rebuilt.orchard,
      roots.ironwood.bind fun _ => rebuilt.ironwood⟩
  return ⟨entry.endHash, kept, entry.subtreeRoots⟩

/-- Compares the proof of `epoch` with the answers of `attestor`: the hash at the end of
    each entry, the roots at the end of the epoch, and the roots of the completed
    subtrees. Gives the answers to keep for each entry. -/
def attest (proof : EpochProof ν) (epoch : Epoch ν) (attestor : Attestor ν) :
    Except EpochError (List (Attested ν)) := do
  epoch.entries.forM (attestHash attestor)
  let roots ← okMapError (attestor.treeRoots epoch.endHeight) (.node epoch.endHeight.val)
  ensure (proof.matchesRoots roots) (.reject (Check.attestedRoots.at epoch.endHeight.val))
  proof.attestSubtrees epoch attestor
  epoch.entries.mapM (attestedEntry epoch roots)

end EpochProof

/-! ## The trees of a rebuild -/

theorem CompactBlockRecord.additions_of (record : CompactBlockRecord) (pool : Pool) :
    record.additions.of pool = saturatingCount (record.noteCommitments pool).length := by
  cases pool <;>
    simp only [TreeSizes.of, Pool.select, additions, noteCommitments, List.length_flatMap,
      List.length_map]

/-- The commitments of a pool in the blocks. -/
def noteCommitments (records : List CompactBlockRecord) (pool : Pool) : List Digest :=
  records.flatMap (·.noteCommitments pool)

theorem noteCommitments_append (records more : List CompactBlockRecord) (pool : Pool) :
    noteCommitments (records ++ more) pool =
      noteCommitments records pool ++ noteCommitments more pool :=
  List.flatMap_append

/-- The leaves of a pool before the block at a height. -/
def poolSize (chain : List CompactBlockRecord) (pool : Pool) (height : Nat) : Nat :=
  (noteCommitments (chain.take height) pool).length

theorem TreeSizes.checkedAdd_of {sizes other sum : TreeSizes}
    (h : sizes.checkedAdd other = some sum)
    (pool : Pool) : (sizes.of pool).val + (other.of pool).val = (sum.of pool).val := by
  obtain ⟨hsapling, horchard, hironwood⟩ := TreeSizes.checkedAdd_eq_some.mp h
  cases pool
  · exact hsapling
  · exact horchard
  · exact hironwood

/-- The tree sizes after exact records count their commitments. A count that does not fit
    in a size saturates. -/
theorem ExactFrom.treeSizes {link : RangeLink} {records : List CompactBlockRecord}
    (h : ExactFrom link records) (pool : Pool) :
    ((link.after records).endTreeSizes.of pool).val =
        (link.endTreeSizes.of pool).val + (noteCommitments records pool).length ∨
      2 ^ 32 - 1 ≤ ((link.after records).endTreeSizes.of pool).val ∧
        2 ^ 32 - 1 < (noteCommitments records pool).length := by
  induction records generalizing link with
  | nil => exact .inl rfl
  | cons r records ih =>
    obtain ⟨-, hadd, hrest⟩ := h
    have hsum := TreeSizes.checkedAdd_of hadd pool
    rw [r.additions_of] at hsum
    have hrest := ih hrest
    have hlength : (noteCommitments (r :: records) pool).length =
        (r.noteCommitments pool).length + (noteCommitments records pool).length := by
      simp [noteCommitments]
    rw [RangeLink.after_cons, hlength]
    simp only [saturatingCount, RangeLink.ofRecord] at hsum hrest ⊢
    omega

namespace Trees

variable [NoteTrees ν]

omit [NoteTrees ν] in
/-- The trees with more leaves. -/
def add (trees added : Trees ν) : Trees ν :=
  ⟨trees.sapling ++ added.sapling, trees.orchard ++ added.orchard,
    trees.ironwood ++ added.ironwood⟩

omit [NoteTrees ν] in
theorem of_add (trees added : Trees ν) (pool : Pool) :
    (trees.add added).of pool = trees.of pool ++ added.of pool := by
  cases pool <;> rfl

omit [NoteTrees ν] in
theorem add_assoc (trees added more : Trees ν) :
    (trees.add added).add more = trees.add (added.add more) := by
  simp only [add, List.append_assoc]

/-- The leaves are those of the commitments of the records. -/
def LeavesOf (records : List CompactBlockRecord) (added : Trees ν) : Prop :=
  ∀ pool, (noteCommitments records pool).mapM (leaf pool) = some (added.of pool)

theorem leavesOf_nil : LeavesOf [] (⟨[], [], []⟩ : Trees ν) := by
  intro pool
  cases pool <;> rfl

variable {records more : List CompactBlockRecord} {added trees trees' : Trees ν}

theorem LeavesOf.append {added' : Trees ν} (h : LeavesOf records added)
    (h' : LeavesOf more added') :
    LeavesOf (records ++ more) (added.add added') := by
  intro pool
  rw [noteCommitments_append, List.mapM_append, h pool, h' pool, of_add]
  rfl

theorem LeavesOf.length_eq (h : LeavesOf records added) (pool : Pool) :
    (added.of pool).length = (noteCommitments records pool).length :=
  (mapM_eq_some.mp (h pool)).length_eq.symm

/-- The trees after the commitments of the records. -/
def Extends (trees : Trees ν) (records : List CompactBlockRecord) (trees' : Trees ν) : Prop :=
  ∃ added, LeavesOf records added ∧ trees' = trees.add added

theorem Extends.refl (trees : Trees ν) : trees.Extends [] trees := by
  refine ⟨_, leavesOf_nil, ?_⟩
  simp only [add, List.append_nil]

theorem Extends.trans {trees'' : Trees ν} (h : trees.Extends records trees')
    (h' : trees'.Extends more trees'') : trees.Extends (records ++ more) trees'' := by
  obtain ⟨added, hadded, rfl⟩ := h
  obtain ⟨added', hadded', rfl⟩ := h'
  exact ⟨_, hadded.append hadded', add_assoc _ _ _⟩

omit [NoteTrees ν] in
/-- Each tree has room for its leaves. -/
def Fits (trees : Trees ν) : Prop := ∀ pool, (trees.of pool).length ≤ 2 ^ treeDepth

theorem appendBatch_eq_some {pool : Pool} {tree leaves tree' : List ν}
    {completed : Option (SubtreeRoot ν)}
    (h : appendBatch pool tree leaves = some (tree', completed)) :
    tree' = tree ++ leaves ∧ tree'.length ≤ 2 ^ treeDepth := by
  simp only [appendBatch] at h
  split at h
  · next hfits =>
    obtain ⟨rfl, -⟩ := Prod.mk.inj (Option.some.inj h)
    exact ⟨rfl, hfits⟩
  · cases h

theorem append_eq_ok {record : CompactBlockRecord} {completed completed' : List (SubtreeRoot ν)}
    (h : trees.append record completed = .ok (trees', completed')) :
    trees.Extends [record] trees' ∧ trees'.Fits := by
  simp only [append, leaves, bind_eq_ok, okOr_eq_ok, pure_eq_ok, Except.ok.injEq, Prod.exists,
    Prod.mk.injEq] at h
  obtain ⟨saplingLeaves, hsapling, orchardLeaves, horchard, ironwoodLeaves, hironwood, sapling, _,
    hsapling', orchard, _, horchard', ironwood, _, hironwood', rfl, -⟩ := h
  obtain ⟨rfl, hfits⟩ := appendBatch_eq_some hsapling'
  obtain ⟨rfl, hfits'⟩ := appendBatch_eq_some horchard'
  obtain ⟨rfl, hfits''⟩ := appendBatch_eq_some hironwood'
  constructor
  · refine ⟨⟨saplingLeaves, orchardLeaves, ironwoodLeaves⟩, ?_, rfl⟩
    intro pool
    rw [noteCommitments, List.flatMap_singleton]
    cases pool
    · exact hsapling
    · exact horchard
    · exact hironwood
  · intro pool
    cases pool
    · exact hfits
    · exact hfits'
    · exact hfits''

end Trees

namespace EpochProof

open Manifest

variable [NoteTrees ν]

theorem foldlM_visit_eq_ok {records : List CompactBlockRecord}
    {seen seen' : Trees ν × List (SubtreeRoot ν)} (h : records.foldlM visit seen = .ok seen') :
    seen.1.Extends records seen'.1 ∧ (seen.1.Fits → seen'.1.Fits) := by
  induction records generalizing seen with
  | nil =>
    obtain rfl : seen = seen' := Except.ok.inj h
    exact ⟨.refl _, id⟩
  | cons record records ih =>
    simp only [List.foldlM_cons, bind_eq_ok, visit, okMapError_eq_ok] at h
    obtain ⟨next, hstep, hrest⟩ := h
    obtain ⟨hextends, hfits⟩ := Trees.append_eq_ok hstep
    obtain ⟨hextends', hfits'⟩ := ih hrest
    exact ⟨hextends.trans hextends', fun _ => hfits' hfits⟩

variable [DecidableEq ν] [Proto.Prost] [Blake3]

variable {seen seen' : Rebuilt ν} {entry : ManifestEntry ν} {blob : Bytes}
  {ranges : List (ManifestEntry ν × Bytes)} {epoch : Epoch ν} {proof : EpochProof ν}

/-- What one range of a rebuild accepts, and what it gives. -/
theorem rebuildRange_eq_ok (h : rebuildRange seen (entry, blob) = .ok seen') :
    ∃ records, RangeBlob.Accepts ⟨blob, entry⟩ seen.link records ∧
      seen'.link = .ofEntry entry ∧ seen.trees.Extends records seen'.trees ∧
      (seen.trees.Fits → seen'.trees.Fits) ∧ seen'.frontiers = entry.frontiers ∧
      seen'.trees.matchFrontiers entry.frontiers := by
  simp only [rebuildRange, bind_eq_ok, ensure_eq_ok, pure_eq_ok, Except.ok.injEq, Prod.exists] at h
  obtain ⟨link, checked, trees, completed, hcheck, -, ⟨-, hmatch⟩, -, -, rfl⟩ := h
  obtain ⟨first, rest, haccepts, hvisit, rfl, -⟩ := RangeBlob.checkWith_eq_ok hcheck
  obtain ⟨hextends, hfits⟩ := foldlM_visit_eq_ok hvisit
  exact ⟨_, haccepts, haccepts.endLink, hextends, hfits, rfl, hmatch⟩

omit [NoteTrees ν] [DecidableEq ν] [Proto.Prost] [Blake3] in
/-- The end of the range before position `i` of the entries after `link`. -/
def linkBefore (link : RangeLink) : List (ManifestEntry ν) → Nat → RangeLink
  | entry :: entries, i + 1 => linkBefore (.ofEntry entry) entries i
  | _, _ => link

/-- The records of ranges that are accepted one after the other, the first one after
    `link`. -/
inductive AcceptsFrom : RangeLink → List (ManifestEntry ν × Bytes) →
    List (List CompactBlockRecord) → Prop where
  | nil (link : RangeLink) : AcceptsFrom link [] []
  | cons {link : RangeLink} {entry : ManifestEntry ν} {blob : Bytes}
      {ranges : List (ManifestEntry ν × Bytes)} {records : List CompactBlockRecord}
      {parts : List (List CompactBlockRecord)} :
      RangeBlob.Accepts ⟨blob, entry⟩ link records → AcceptsFrom (.ofEntry entry) ranges parts →
      AcceptsFrom link ((entry, blob) :: ranges) (records :: parts)

omit [NoteTrees ν] [DecidableEq ν] in
/-- The range at position `i` is accepted after the end of the range before it. -/
theorem AcceptsFrom.accepts {link : RangeLink} {parts : List (List CompactBlockRecord)}
    (h : AcceptsFrom link ranges parts) {i : Nat} (hi : ranges[i]? = some (entry, blob)) :
    ∃ records, parts[i]? = some records ∧
      RangeBlob.Accepts ⟨blob, entry⟩ (linkBefore link (ranges.map Prod.fst) i) records := by
  induction h generalizing i with
  | nil => cases hi
  | cons haccepts _ ih =>
    cases i with
    | zero =>
      cases hi
      exact ⟨_, rfl, haccepts⟩
    | succ i => exact ih hi

/-- What the ranges of a rebuild accept, and what they give. -/
theorem foldlM_rebuildRange_eq_ok (h : ranges.foldlM rebuildRange seen = .ok seen') :
    ∃ parts, AcceptsFrom seen.link ranges parts ∧ seen.trees.Extends parts.flatten seen'.trees ∧
      (seen.trees.Fits → seen'.trees.Fits) ∧
      ∀ range ∈ ranges.getLast?, seen'.link = .ofEntry range.1 ∧
        seen'.frontiers = range.1.frontiers ∧ seen'.trees.matchFrontiers range.1.frontiers := by
  induction ranges generalizing seen with
  | nil =>
    obtain rfl : seen = seen' := Except.ok.inj h
    exact ⟨[], .nil _, .refl _, id, by simp⟩
  | cons range ranges ih =>
    obtain ⟨next, hstep, hrest⟩ := bind_eq_ok.mp h
    obtain ⟨records, haccepts, hlink, hextends, hfits, hfrontiers, hmatch⟩ :=
      rebuildRange_eq_ok hstep
    obtain ⟨parts, hparts, hextends', hfits', hlast⟩ := ih hrest
    refine ⟨records :: parts, .cons haccepts (hlink ▸ hparts), hextends.trans hextends',
      hfits' ∘ hfits, ?_⟩
    cases ranges with
    | nil =>
      obtain rfl : next = seen' := Except.ok.inj hrest
      rintro _ ⟨⟩
      exact ⟨hlink, hfrontiers, hmatch⟩
    | cons => exact hlast

/-- What a rebuild accepts, and what it gives. -/
theorem rebuildRanges_eq_ok {blobs : List Bytes} {start : Frontiers} {ranges : List CheckedRange}
    (h : rebuildRanges epoch blobs start = .ok (proof, ranges)) :
    ∃ (trees trees' : Trees ν) (parts : List (List CompactBlockRecord)),
      blobs.length = epoch.entries.length ∧ Trees.ofFrontiers start = some trees ∧
      AcceptsFrom epoch.startLink (epoch.entries.zip blobs) parts ∧
      trees.Extends parts.flatten trees' ∧ (trees.Fits → trees'.Fits) ∧
      proof.roots = trees'.roots ∧ ∀ last ∈ epoch.entries.getLast?,
        proof.endTreeSizes = last.endTreeSizes ∧ proof.endFrontiers = last.frontiers ∧
        trees'.matchFrontiers last.frontiers := by
  simp only [rebuildRanges, bind_eq_ok, ensure_eq_ok, okOr_eq_ok, pure_eq_ok, Except.ok.injEq,
    Prod.mk.injEq, Option.filter_eq_some_iff] at h
  obtain ⟨-, hcount, trees, ⟨htrees, -⟩, seen, hfold, rfl, -⟩ := h
  obtain ⟨parts, hparts, hextends, hfits, hlast⟩ := foldlM_rebuildRange_eq_ok hfold
  refine ⟨trees, seen.trees, parts, hcount, htrees, hparts, hextends, hfits, rfl, ?_⟩
  intro last hmem
  -- the last entry is that of the last range
  have hentries : (epoch.entries.zip blobs).map Prod.fst = epoch.entries :=
    List.map_fst_zip (by omega)
  rw [← hentries, List.getLast?_map] at hmem
  obtain ⟨range, hrange, rfl⟩ := Option.map_eq_some_iff.mp hmem
  obtain ⟨hlink, hfrontiers, hmatch⟩ := hlast range hrange
  exact ⟨congrArg RangeLink.endTreeSizes hlink, hfrontiers, hmatch⟩

omit [Proto.Prost] [Blake3] in
theorem attest_eq_ok {attestor : Attestor ν} {attested : List (Attested ν)}
    (h : proof.attest epoch attestor = .ok attested) :
    ∃ roots, attestor.treeRoots epoch.endHeight = .ok roots ∧ proof.matchesRoots roots := by
  simp only [attest, bind_eq_ok, okMapError_eq_ok, ensure_eq_ok] at h
  obtain ⟨-, -, roots, hroots, -, hmatches, -⟩ := h
  exact ⟨roots, hroots, hmatches⟩

end EpochProof

/-! ## Small epochs -/

namespace Trees

variable [NoteTrees ν]

/-- A tree below the size of a subtree takes more leaves and completes none. -/
theorem appendBatch_of_small {pool : Pool} {tree leaves : List ν}
    (h : (tree ++ leaves).length < 2 ^ subtreeHeight) :
    appendBatch pool tree leaves = some (tree ++ leaves, none) := by
  have hfits : (tree ++ leaves).length ≤ 2 ^ treeDepth :=
    h.le.trans (Nat.pow_le_pow_right (by decide) (by decide))
  have hnone : (tree ++ leaves).length / 2 ^ subtreeHeight = 0 := Nat.div_eq_of_lt h
  simp only [appendBatch, if_pos hfits, hnone, Nat.not_lt_zero, if_false]

omit [NoteTrees ν] in
/-- Each tree is smaller than a subtree. -/
def Small (trees : Trees ν) : Prop := ∀ pool, (trees.of pool).length < 2 ^ subtreeHeight

omit [NoteTrees ν] in
theorem Small.of_add {trees added : Trees ν} (h : (trees.add added).Small) : trees.Small := by
  intro pool
  have hpool := h pool
  rw [Trees.of_add, List.length_append] at hpool
  omega

theorem append_of_small {trees added : Trees ν} {record : CompactBlockRecord}
    {completed : List (SubtreeRoot ν)} (hadded : LeavesOf [record] added)
    (hsmall : (trees.add added).Small) :
    trees.append record completed = .ok (trees.add added, completed) := by
  have hleaves : ∀ pool, leaves record pool = .ok (added.of pool) := by
    intro pool
    have hparse := hadded pool
    rw [noteCommitments, List.flatMap_singleton] at hparse
    rw [leaves, hparse, okOr_some]
  have happend : ∀ pool, appendBatch pool (trees.of pool) (added.of pool) =
      some (trees.of pool ++ added.of pool, none) := by
    intro pool
    apply appendBatch_of_small
    rw [← of_add]
    exact hsmall pool
  have hsapling := happend .sapling
  have horchard := happend .orchard
  have hironwood := happend .ironwood
  simp only [of, Pool.select] at hleaves hsapling horchard hironwood
  simp only [append, hleaves, ok_bind, hsapling, horchard, hironwood, okOr_some, pure_eq_ok,
    List.filterMap_cons, List.filterMap_nil, id_eq, List.append_nil]
  rfl

end Trees

namespace EpochProof

open Manifest

variable [NoteTrees ν]

section

/-! Every commitment is a field element. -/

variable {element : Pool → Digest → ν} (helement : ∀ pool digest, leaf pool digest =
  some (element pool digest))

/-- The leaves of the records. -/
def leavesBy (element : Pool → Digest → ν) (records : List CompactBlockRecord) : Trees ν :=
  let leaves pool := (noteCommitments records pool).map (element pool)
  ⟨leaves .sapling, leaves .orchard, leaves .ironwood⟩

omit [NoteTrees ν] in
theorem of_leavesBy (records : List CompactBlockRecord) (pool : Pool) :
    (leavesBy element records).of pool = (noteCommitments records pool).map (element pool) := by
  cases pool <;> rfl

omit [NoteTrees ν] in
theorem leavesBy_cons (record : CompactBlockRecord) (records : List CompactBlockRecord) :
    leavesBy element (record :: records) =
      (leavesBy element [record]).add (leavesBy element records) := by
  simp only [leavesBy, Trees.add, noteCommitments, List.flatMap_cons, List.flatMap_nil,
    List.append_nil,
    List.map_append]

include helement

theorem leavesOf_leavesBy (records : List CompactBlockRecord) :
    Trees.LeavesOf records (leavesBy element records) := by
  intro pool
  rw [of_leavesBy]
  induction noteCommitments records pool with
  | nil => rfl
  | cons digest digests ih =>
    rw [List.mapM_cons, ih, helement]
    rfl

/-- Small trees take the commitments of the records and complete no subtree. -/
theorem foldlM_visit_of_small {records : List CompactBlockRecord} {trees : Trees ν}
    {completed : List (SubtreeRoot ν)} (hsmall : (trees.add (leavesBy element records)).Small) :
    records.foldlM visit (trees, completed) =
      .ok (trees.add (leavesBy element records), completed) := by
  induction records generalizing trees with
  | nil =>
    have hnone : trees.add (leavesBy element []) = trees := by
      simp only [Trees.add, leavesBy, noteCommitments, List.flatMap_nil, List.map_nil,
        List.append_nil]
    rw [hnone]
    rfl
  | cons record records ih =>
    rw [leavesBy_cons, ← Trees.add_assoc] at hsmall ⊢
    have happend : trees.append record completed = _ :=
      Trees.append_of_small (leavesOf_leavesBy helement [record]) hsmall.of_add
    rw [List.foldlM_cons, visit, happend, okMapError_ok, ok_bind]
    exact ih hsmall

variable [DecidableEq ν] [Proto.Prost] [Blake3]

/-- A rebuild from genesis accepts one range with few commitments and without completed
    subtrees. -/
theorem rebuildRanges_of_small (closedByRule : Bool) {entry : ManifestEntry ν} {blob : Bytes}
    {records : List CompactBlockRecord}
    (haccepts : RangeBlob.Accepts ⟨blob, entry⟩ .genesis records)
    (hsmall : (leavesBy element records).Small)
    (hmatch : (leavesBy element records).matchFrontiers entry.frontiers)
    (hroots : entry.subtreeRoots = []) :
    ∃ checked, rebuildRanges ⟨[entry], none, closedByRule⟩ [blob] ⟨[], [], []⟩ =
      .ok (⟨entry.frontiers, entry.endTreeSizes, (leavesBy element records).roots, []⟩,
        [checked]) := by
  let epoch : Epoch ν := ⟨[entry], none, closedByRule⟩
  have hstart : (Trees.ofFrontiers ⟨[], [], []⟩).filter (fun trees : Trees ν =>
      trees.haveSizes epoch.startLink.endTreeSizes) = some ⟨[], [], []⟩ := by
    have hsizes : (⟨[], [], []⟩ : Trees ν).haveSizes epoch.startLink.endTreeSizes := by
      intro pool _
      cases pool <;> rfl
    simp only [Trees.ofFrontiers, Trees.parse, if_true, Option.bind_eq_bind, Option.bind_some,
      Option.pure_def, Option.filter_some, hsizes, decide_true]
  have hnone : (⟨[], [], []⟩ : Trees ν).add (leavesBy element records) =
    leavesBy element records := by
    simp only [Trees.add, List.nil_append]
  have hvisit : records.foldlM visit (⟨[], [], []⟩, []) = .ok (leavesBy element records, []) := by
    have hvisit := @foldlM_visit_of_small _ _ _ helement records ⟨[], [], []⟩ [] (hnone ▸ hsmall)
    rwa [hnone] at hvisit
  have hfollows : entry.frontiers.follows ⟨[], [], []⟩ := by
    simp [Frontiers.follows]
  cases records with
  | nil => cases haccepts.stored.length_eq
  | cons first rest =>
    obtain ⟨checked, hcheck, -⟩ := haccepts.checkWith hvisit
    have hrange : rebuildRange ⟨epoch.startLink, ⟨[], [], []⟩, ⟨[], [], []⟩, [], []⟩ (entry, blob) =
        .ok ⟨.ofEntry entry, leavesBy element (first :: rest), entry.frontiers, [], [checked]⟩ := by
      have hcheck : RangeBlob.checkWith ⟨blob, entry⟩ epoch.startLink _ visit = _ := hcheck
      simp only [rebuildRange, hcheck, ok_bind, hroots, List.drop_nil, List.length_nil,
        List.not_mem_nil, false_implies, implies_true, and_true,
        ensure_of _ (And.intro hfollows hmatch),
        ensure_of _ True.intro, haccepts.endLink]
      rfl
    refine ⟨checked, ?_⟩
    simp only [rebuildRanges, show (⟨[entry], none, closedByRule⟩ : Epoch ν) = epoch from rfl,
      hstart,
      okOr_some, ok_bind]
    have hcount : [blob].length = [entry].length := rfl
    rw [ensure_of _ hcount, ok_bind, List.zip_cons_cons, List.foldlM_cons, hrange]
    rfl

end

end EpochProof

end Ztreamer
