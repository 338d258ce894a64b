import Mathlib.Data.Nat.Pairing
import Mathlib.Logic.Equiv.List
import Ztreamer.Chain.RangeWriter
import Ztreamer.Import.Proof
import Ztreamer.Import.Replica

/-! # What an attestation proves

    Only the roots and the hashes at the range ends come from the node. The blobs, the
    tree sizes and the frontiers come from a source that is not trusted. From the root of
    a tree one can go back to its leaves, up to leaves that are not committed: a source
    can append the uncommitted leaf of a pool, and the root stays as it is.

    * `NoteTreeLaws`: the hash of the trees is collision free,
    * `LeafChain`, `Attestor.Honest`: a node whose answers come from one chain,
    * `AttestedRun`: consecutive epochs from genesis that a replica accepted,
    * `attested_commitments_iff`: when the accepted commitments are the node's.
-/

namespace Ztreamer

open Octets Result Manifest NoteTrees

variable {ν : Type}

/-! ## An honest node -/

/-- The trees hash without collisions, and a frontier gives its tree back. -/
structure NoteTreeLaws (ν : Type) [NoteTrees ν] : Prop where
  collisionFree : ∀ pool, Merkle.CollisionFree (combine pool : Nat → ν → ν → ν)
  fromRpcBytes_toRpcBytes : ∀ (pool : Pool) (leaves : List ν),
    fromRpcBytes pool (toRpcBytes pool leaves) = some leaves

/-- A block of the chain of a node: its hash, and the leaves that it adds to each tree. -/
structure LeafBlock (ν : Type) where
  hash : Hash
  leaves : Pool → List ν

/-- The chain of a node from genesis. A node counts the leaves of a tree in 32 bits. -/
structure LeafChain (ν : Type) where
  blocks : List (LeafBlock ν)
  fits : ∀ pool, (blocks.flatMap (·.leaves pool)).length < 2 ^ 32

namespace LeafChain

/-- The leaves of a pool through the block at `height`. -/
def leavesThrough (chain : LeafChain ν) (pool : Pool) (height : Nat) : List ν :=
  (chain.blocks.take (height + 1)).flatMap (·.leaves pool)

theorem length_leavesThrough_lt (chain : LeafChain ν) (pool : Pool) (height : Nat) :
    (chain.leavesThrough pool height).length < 2 ^ 32 := by
  have hfits := chain.fits pool
  conv at hfits => rw [← List.take_append_drop (height + 1) chain.blocks]
  rw [List.flatMap_append, List.length_append] at hfits
  exact Nat.lt_of_le_of_lt (Nat.le_add_right _ _) hfits

/-- The leaves of the subtree at `index`. -/
def subtree (chain : LeafChain ν) (pool : Pool) (index : Nat) : List ν :=
  ((chain.blocks.flatMap (·.leaves pool)).drop (index * 2 ^ subtreeHeight)).take
    (2 ^ subtreeHeight)

end LeafChain

section

variable [NoteTrees ν]

/-- The answers of the attestor come from the chain. A pool without a root has no leaves. -/
structure Attestor.Honest (attestor : Attestor ν) (chain : LeafChain ν) : Prop where
  blockHash : ∀ {height : U32} {hash : Hash}, attestor.blockHash height = .ok hash →
    ∃ block, chain.blocks[height.val]? = some block ∧ block.hash = hash
  treeRoots : ∀ {height : U32} {roots : PoolRoots ν}, attestor.treeRoots height = .ok roots →
    height.val < chain.blocks.length ∧ ∀ pool,
      (∀ root, roots.of pool = some root →
        root = noteRoot pool treeDepth (chain.leavesThrough pool height.val)) ∧
      (roots.of pool = none → chain.leavesThrough pool height.val = [])
  subtreeRoots : ∀ {pool : Pool} {start count : U16} {answers : List (SubtreeNode ν)},
    attestor.subtreeRoots pool start count = .ok answers → answers.length = count.val ∧
      ∀ (i : Nat) (answer : SubtreeNode ν), answers[i]? = some answer →
        (chain.subtree pool (start.val + i)).length = 2 ^ subtreeHeight ∧
        answer = ⟨pool, noteRoot pool subtreeHeight (chain.subtree pool (start.val + i))⟩

/-! ## Accepted epochs -/

variable [DecidableEq ν] [Proto.Prost] [Blake3]

/-- The blocks of consecutive epochs from genesis that a replica rebuilt and the attestor
    attested, with the last entry and the tree sizes at its end. The blobs, the entries and
    their frontiers are arbitrary. -/
inductive AttestedRun (attestor : Attestor ν) :
    Option (ManifestEntry ν) → List CompactBlockRecord → TreeSizes → Prop where
  | genesis : AttestedRun attestor none [] default
  | epoch {previous : Option (ManifestEntry ν)} {records : List CompactBlockRecord}
      {sizes : TreeSizes} {epoch : Epoch ν} {blobs : List Bytes} {proof : EpochProof ν}
      {attested : List (Attested ν)} {parts : List (List CompactBlockRecord)}
      {last : ManifestEntry ν} :
      AttestedRun attestor previous records sizes → epoch.previous = previous →
      EpochProof.rebuild epoch blobs (previous.elim ⟨[], [], []⟩ (·.frontiers)) = .ok proof →
      proof.attest epoch attestor = .ok attested → epoch.entries.getLast? = some last →
      List.Forall₂ (fun range part => RangeRecords range.2 range.1.startHeight.val part)
        (epoch.entries.zip blobs) parts →
      AttestedRun attestor (some last) (records ++ parts.flatten) proof.endTreeSizes

variable {trees : Trees ν} {parts : List (List CompactBlockRecord)}
  {records : List CompactBlockRecord} {sizes : TreeSizes}

omit [DecidableEq ν] [Proto.Prost] [Blake3] in
/-- The trees of frontiers that match trees are these trees. -/
theorem Trees.ofFrontiers_of_match (laws : NoteTreeLaws ν) {frontiers : Frontiers}
    (h : trees.matchFrontiers frontiers) : Trees.ofFrontiers frontiers = some trees := by
  have hparse : ∀ pool, Trees.parse pool (frontiers.of pool) = some (trees.of pool) := by
    intro pool
    have hpool := h pool pool.mem_all
    unfold Trees.parse
    by_cases hempty : frontiers.of pool = []
    · rw [if_pos hempty] at hpool ⊢
      rw [List.length_eq_zero_iff.mp hpool]
    · rw [if_neg hempty] at hpool ⊢
      rw [← hpool, laws.fromRpcBytes_toRpcBytes]
  have hsapling := hparse .sapling
  have horchard := hparse .orchard
  have hironwood := hparse .ironwood
  simp only [Frontiers.of, Trees.of, Pool.select] at hsapling horchard hironwood
  simp only [Trees.ofFrontiers, hsapling, horchard, hironwood, Option.bind_eq_bind,
    Option.bind_some, Option.pure_def]

omit [NoteTrees ν] [DecidableEq ν] in
/-- Accepted ranges are exact one after the other. -/
theorem EpochProof.AcceptsFrom.exact {link : RangeLink} {ranges : List (ManifestEntry ν × Bytes)}
    (h : AcceptsFrom link ranges parts) :
    ExactFrom link parts.flatten ∧
      ∀ range ∈ ranges.getLast?, link.after parts.flatten = .ofEntry range.1 := by
  induction h with
  | nil => exact ⟨trivial, by simp⟩
  | @cons link entry blob ranges records parts haccepts _ ih =>
    obtain ⟨hexact, hlast⟩ := ih
    rw [List.flatten_cons, exactFrom_append, RangeLink.after_append, haccepts.endLink]
    refine ⟨⟨haccepts.exact, hexact⟩, ?_⟩
    cases ranges with
    | nil =>
      rename_i hrest
      cases hrest
      rintro _ ⟨⟩
      rfl
    | cons => exact hlast

omit [NoteTrees ν] [DecidableEq ν] in
/-- The records that ranges are accepted with are those that they store. -/
theorem EpochProof.AcceptsFrom.unique {link : RangeLink} {ranges : List (ManifestEntry ν × Bytes)}
    {parts' : List (List CompactBlockRecord)} (h : AcceptsFrom link ranges parts)
    (h' : List.Forall₂ (fun range part => RangeRecords range.2 range.1.startHeight.val part)
      ranges parts') : parts = parts' := by
  induction h generalizing parts' with
  | nil =>
    cases h'
    rfl
  | cons haccepts _ ih =>
    cases h' with
    | cons hrecords hrest => rw [haccepts.stored.unique hrecords, ih hrest]

/-- The state of a replica after accepted epochs. -/
structure AttestedRun.Invariant (previous : Option (ManifestEntry ν))
    (records : List CompactBlockRecord) (sizes : TreeSizes) (trees : Trees ν) : Prop where
  leaves : Trees.LeavesOf records trees
  fits : trees.Fits
  exact : ExactFrom .genesis records
  link : RangeLink.genesis.after records = previous.elim .genesis .ofEntry
  sizes : (RangeLink.genesis.after records).endTreeSizes = sizes
  frontiers : Trees.ofFrontiers (previous.elim ⟨[], [], []⟩ (·.frontiers)) = some trees

omit [DecidableEq ν] [Proto.Prost] [Blake3] in
theorem AttestedRun.invariant_genesis :
    Invariant (none : Option (ManifestEntry ν)) [] default ⟨[], [], []⟩ where
  leaves := Trees.leavesOf_nil
  fits pool := by cases pool <;> exact Nat.zero_le _
  exact := trivial
  link := rfl
  sizes := rfl
  frontiers := rfl

/-- An accepted epoch keeps the invariant, and gives the roots of its trees. -/
theorem AttestedRun.Invariant.epoch (laws : NoteTreeLaws ν) {epoch : Epoch ν} {blobs : List Bytes}
    {proof : EpochProof ν} {last : ManifestEntry ν}
    (h : Invariant epoch.previous records sizes trees) (hrebuild : EpochProof.rebuild epoch blobs
      (epoch.previous.elim ⟨[], [], []⟩ (·.frontiers)) = .ok proof)
    (hlast : epoch.entries.getLast? = some last)
    (hparts : List.Forall₂ (fun range part => RangeRecords range.2 range.1.startHeight.val part)
      (epoch.entries.zip blobs) parts) :
    ∃ trees', Invariant (some last) (records ++ parts.flatten) proof.endTreeSizes trees' ∧
      proof.roots = trees'.roots := by
  obtain ⟨⟨proof, ranges⟩, hranges, rfl⟩ := map_eq_ok.mp hrebuild
  obtain ⟨start, trees', parts', hcount, hstart, haccepts, ⟨added, hadded, rfl⟩, hfits, hroots,
    hend⟩ := EpochProof.rebuildRanges_eq_ok hranges
  obtain rfl : start = trees := Option.some.inj (hstart.symm.trans h.frontiers)
  obtain rfl : parts' = parts := haccepts.unique hparts
  obtain ⟨hsizes, -, hmatch⟩ := hend last hlast
  have hlink : RangeLink.genesis.after records = epoch.startLink := h.link
  obtain ⟨hexact, hafter⟩ := haccepts.exact
  -- the last range is that of the last entry
  have hentries : (epoch.entries.zip blobs).map Prod.fst = epoch.entries :=
    List.map_fst_zip (by omega)
  rw [← hentries, List.getLast?_map] at hlast
  obtain ⟨range, hrange, rfl⟩ := Option.map_eq_some_iff.mp hlast
  have hafter : RangeLink.genesis.after (records ++ parts'.flatten) = .ofEntry range.1 := by
    rw [RangeLink.after_append, hlink, hafter range hrange]
  refine ⟨start.add added, ?_, hroots⟩
  exact
    { leaves := h.leaves.append hadded
      fits := hfits h.fits
      exact := exactFrom_append.mpr ⟨h.exact, hlink ▸ hexact⟩
      link := hafter
      sizes := by rw [hafter, hsizes]; rfl
      frontiers := Trees.ofFrontiers_of_match laws hmatch }

theorem AttestedRun.invariant (laws : NoteTreeLaws ν) {attestor : Attestor ν}
    {previous : Option (ManifestEntry ν)} (h : AttestedRun attestor previous records sizes) :
    ∃ trees, Invariant previous records sizes trees := by
  induction h with
  | genesis => exact ⟨_, invariant_genesis⟩
  | epoch _ hprevious hrebuild _ hlast hparts ih =>
    obtain ⟨trees, hinvariant⟩ := ih
    subst hprevious
    obtain ⟨trees', hinvariant', -⟩ := hinvariant.epoch laws hrebuild hlast hparts
    exact ⟨trees', hinvariant'⟩

omit [DecidableEq ν] [Proto.Prost] [Blake3] in
/-- The tree sizes at the end count the leaves, unless a tree is full. -/
theorem AttestedRun.Invariant.length_eq {previous : Option (ManifestEntry ν)}
    (h : Invariant previous records sizes trees) (pool : Pool)
    (hsmall : (trees.of pool).length < 2 ^ 32 ∨ sizes.of pool = 0) :
    (sizes.of pool).val = (trees.of pool).length := by
  have hsizes := h.exact.treeSizes pool
  rw [h.sizes, ← h.leaves.length_eq] at hsizes
  have hzero : (RangeLink.genesis.endTreeSizes.of pool).val = 0 := by
    cases pool <;> rfl
  rw [hzero] at hsizes
  rcases hsmall with hsmall | hnone
  · omega
  · rw [hnone] at hsizes ⊢
    simp only [Fin.val_zero] at hsizes ⊢
    omega

omit [Proto.Prost] [Blake3] in
/-- In one pool, the accepted leaves are the node's exactly when both end with equally many
    uncommitted leaves. -/
theorem AttestedRun.Invariant.leaves_iff (laws : NoteTreeLaws ν) {attestor : Attestor ν}
    {chain : LeafChain ν} (honest : attestor.Honest chain) {epoch : Epoch ν} {proof : EpochProof ν}
    {attested : List (Attested ν)} {last : ManifestEntry ν}
    (h : Invariant (some last) records proof.endTreeSizes trees)
    (hroots : proof.roots = trees.roots) (hlast : epoch.entries.getLast? = some last)
    (hattest : proof.attest epoch attestor = .ok attested) (pool : Pool) :
    (trees.of pool = chain.leavesThrough pool last.endHeight.val ∧
        (proof.endTreeSizes.of pool).val =
          (chain.leavesThrough pool last.endHeight.val).length) ↔
      Merkle.trailing (uncommitted pool) (trees.of pool) =
        Merkle.trailing (uncommitted pool) (chain.leavesThrough pool last.endHeight.val) := by
  obtain ⟨roots, hanswer, hmatches⟩ := EpochProof.attest_eq_ok hattest
  have hend : epoch.endHeight = last.endHeight := by
    rw [Epoch.endHeight, hlast]
    rfl
  rw [hend] at hanswer
  obtain ⟨-, hhonest⟩ := honest.treeRoots hanswer
  obtain ⟨hsome, hnone⟩ := hhonest pool
  have hmatch := hmatches pool pool.mem_all
  cases hroot : roots.of pool with
  | none =>
    -- the pool is not active: neither side has a leaf
    rw [hroot] at hmatch
    have hempty := h.length_eq pool (.inr hmatch)
    have hmatch : proof.endTreeSizes.of pool = 0 := hmatch
    rw [hmatch, Fin.val_zero] at hempty
    rw [hnone hroot, List.length_eq_zero_iff.mp hempty.symm, hmatch]
    simp
  | some root =>
    rw [hroot] at hmatch
    have hmatch : proof.roots.of pool = some root := hmatch
    have hsame : noteRoot pool treeDepth (trees.of pool) =
        noteRoot pool treeDepth (chain.leavesThrough pool last.endHeight.val) := by
      rw [← hsome root hroot]
      rw [hroots] at hmatch
      cases pool <;> exact Option.some.inj hmatch
    have hlt := chain.length_leavesThrough_lt pool last.endHeight.val
    rw [← Merkle.eq_iff_trailing (laws.collisionFree pool) hsame (h.fits pool) hlt.le]
    constructor
    · exact And.left
    · intro heq
      refine ⟨heq, ?_⟩
      rw [← heq] at hlt ⊢
      exact h.length_eq pool (.inl hlt)

/-- After every epoch of a run from genesis that a replica rebuilt and an honest node
    attested, the accepted commitments and the tree sizes are the node's exactly when in each
    pool the accepted leaves and the node's end with equally many uncommitted leaves. -/
theorem attested_commitments_iff (laws : NoteTreeLaws ν) {attestor : Attestor ν}
    {chain : LeafChain ν} (honest : attestor.Honest chain) {last : ManifestEntry ν}
    {records : List CompactBlockRecord} {sizes : TreeSizes}
    (h : AttestedRun attestor (some last) records sizes) :
    ∃ trees : Trees ν, Trees.LeavesOf records trees ∧
      ((∀ pool, trees.of pool = chain.leavesThrough pool last.endHeight.val ∧
          (sizes.of pool).val = (chain.leavesThrough pool last.endHeight.val).length) ↔
        ∀ pool, Merkle.trailing (uncommitted pool) (trees.of pool) =
          Merkle.trailing (uncommitted pool) (chain.leavesThrough pool last.endHeight.val)) := by
  cases h with
  | epoch hrun hprevious hrebuild hattest hlast hparts =>
    obtain ⟨trees, hinvariant⟩ := hrun.invariant laws
    subst hprevious
    obtain ⟨trees', hinvariant', hroots⟩ := hinvariant.epoch laws hrebuild hlast hparts
    exact ⟨trees', hinvariant'.leaves,
      forall_congr' (hinvariant'.leaves_iff laws honest hroots hlast hattest)⟩

end

/-! ## A leaf that is not committed -/

/-- Trees over numbers: a node is the code of the pair of the nodes below it. -/
@[reducible] def pairTrees : NoteTrees Nat where
  leaf _ digest := some (leNat digest.val)
  uncommitted pool := pool.select 1 2 2
  combine _ _ := Nat.pair
  toRpcBytes _ leaves := List.replicate (Encodable.encode leaves + 1) 0
  fromRpcBytes _ bytes := Encodable.decode (bytes.length - 1)

section

attribute [local instance] Proto.wireDecoder zeroDigest pairTrees

theorem pairTrees_laws : NoteTreeLaws Nat where
  collisionFree pool := by
    intro level a b a' b' h
    exact Nat.pair_eq_pair.mp h
  fromRpcBytes_toRpcBytes pool leaves := by
    show Encodable.decode ((List.replicate (Encodable.encode leaves + 1) (0 : Byte)).length - 1) = _
    rw [List.length_replicate, Nat.add_sub_cancel, Encodable.encodek]

/-- A transaction with one output, whose note commitment is `cmu`. -/
def outputTransaction (cmu : Digest) : CompactTransaction where
  index := 0
  txid := .ofNat 32 0
  saplingSpends := []
  saplingOutputs := [⟨cmu, .ofNat 32 0, .ofNat 52 0⟩]
  orchardActions := []
  ironwoodActions := []

/-- The commitment of a leaf. -/
def cmuOf (note : Nat) : Digest := ⟨leBytes 32 note, leBytes_length 32 note⟩

/-- A plain record with an output. -/
def paddedRecord (note fork height : Nat) : CompactBlockRecord :=
  { plainRecord fork height with
    transactions := [outputTransaction (cmuOf note)]
    endTreeSizes := ⟨1, 0, 0⟩ }

theorem paddedRecord_encode (note fork height : Nat) :
    ∃ part, (paddedRecord note fork height).encode = .ok part := by
  have htxs : (paddedRecord note fork height).transactions = [outputTransaction (cmuOf note)] := rfl
  refine ⟨_, @CompactBlockRecord.encode_of_sizeBound _ 384 ?_ ?_⟩
  · rw [htxs]
    intro tx htx
    rw [List.mem_singleton.mp htx]
    exact .inr (.inl (List.cons_ne_nil _ _))
  · rw [htxs]
    rfl

/-- Plain records, and one more with an output. -/
def paddedRecords (note fork n : Nat) : List CompactBlockRecord :=
  plainRecords fork n ++ [paddedRecord note fork n]

section

variable {note fork n : Nat} (h : (plainRecords fork (n + 1)).IsChain CompactBlockRecord.Precedes)

include h

theorem paddedRecords_isChain :
    (paddedRecords note fork n).IsChain CompactBlockRecord.Precedes := by
  -- a padded record has the id of the plain one
  have hids : (paddedRecords note fork n).map (·.recordId) =
      (plainRecords fork (n + 1)).map (·.recordId) := by
    rw [paddedRecords, plainRecords_append, List.map_append, List.map_append]
    rfl
  have hfollows : ((plainRecords fork (n + 1)).map (·.recordId)).IsChain RecordId.Follows :=
    (List.isChain_map _).mpr h
  rw [← hids, List.isChain_map] at hfollows
  exact hfollows

theorem paddedRecords_exact : ExactFrom .genesis (paddedRecords note fork n) := by
  rw [plainRecords_append] at h
  have hexact : ExactFrom .genesis (plainRecords fork n) := by
    apply exactFrom_of_isChain (List.IsChain.left_of_append h)
    · intro r hr
      cases n with
      | zero => cases hr
      | succ n =>
        rw [plainRecords_succ] at hr
        obtain rfl := Option.some.inj hr
        rfl
    · rfl
    · intro r hr
      obtain ⟨height, -, rfl⟩ := List.mem_map.mp hr
      exact ⟨rfl, rfl⟩
  have hafter : RangeLink.genesis.after (plainRecords fork n) = ⟨plainParent fork n, default⟩ := by
    cases n with
    | zero => rfl
    | succ n =>
      rw [plainRecords_append, RangeLink.after_append]
      rfl
  rw [paddedRecords, exactFrom_append, hafter]
  exact ⟨hexact, rfl, rfl, trivial⟩

end

theorem noteCommitments_paddedRecords (note fork n : Nat) (pool : Pool) :
    noteCommitments (paddedRecords note fork n) pool = pool.select [cmuOf note] [] [] := by
  have hplain : noteCommitments (plainRecords fork n) pool = [] := by
    rw [noteCommitments, List.flatMap_eq_nil_iff]
    intro r hr
    obtain ⟨height, -, rfl⟩ := List.mem_map.mp hr
    cases pool <;> rfl
  rw [paddedRecords, noteCommitments_append, hplain, List.nil_append]
  cases pool <;> rfl

/-- The plain chain of a node, whose block `n` may have a leaf. -/
def plainLeafChain (fork n : Nat) (note : Option Nat) : LeafChain Nat where
  blocks := (List.range n).map (fun height => ⟨plainHash fork height, fun _ => []⟩) ++
    [⟨plainHash fork n, (·.select note.toList [] [])⟩]
  fits pool := by
    rw [List.flatMap_append, List.flatMap_map]
    cases pool <;> cases note <;> simp [Pool.select]

theorem leavesThrough_plain (fork n : Nat) (note : Option Nat) (pool : Pool) :
    (plainLeafChain fork n note).leavesThrough pool n = pool.select note.toList [] [] := by
  rw [LeafChain.leavesThrough, List.take_of_length_le (by simp [plainLeafChain]), plainLeafChain,
    List.flatMap_append, List.flatMap_map]
  simp

/-- The answers of a node with the plain chain. All pools are active. -/
def plainAttestor (fork n : Nat) (note : Option Nat) : Attestor Nat where
  blockHash height :=
    okOr ((plainLeafChain fork n note).blocks[height.val]?.map (·.hash)) .unanswered
  treeRoots height := if height.val = n then .ok (⟨note.toList, [], []⟩ : Trees Nat).roots
    else .error .unanswered
  subtreeRoots _ _ count := if count = 0 then .ok [] else .error .unanswered

theorem plainAttestor_honest (fork n : Nat) (note : Option Nat) :
    (plainAttestor fork n note).Honest (plainLeafChain fork n note) where
  blockHash h := by
    obtain ⟨block, hblock, hhash⟩ := Option.map_eq_some_iff.mp (okOr_eq_ok.mp h)
    exact ⟨block, hblock, hhash⟩
  treeRoots := by
    intro height roots h
    simp only [plainAttestor] at h
    split at h
    · next heq =>
      obtain rfl := Except.ok.inj h
      rw [heq]
      refine ⟨by simp [plainLeafChain], fun pool => ?_⟩
      rw [leavesThrough_plain]
      constructor
      · intro root hroot
        cases pool <;> exact (Option.some.inj hroot).symm
      · intro hnone
        cases pool <;> cases hnone
    · cases h
  subtreeRoots := by
    intro pool start count answers h
    simp only [plainAttestor] at h
    split at h
    · next hzero =>
      obtain rfl := Except.ok.inj h
      rw [hzero]
      exact ⟨rfl, by simp⟩
    · cases h

/-- The leaf of a commitment in the trees over numbers. -/
def pairLeaf (_ : Pool) (digest : Digest) : Nat := leNat digest.val

/-- The node with the plain chain attests a proof with its roots. -/
theorem attest_plain {entry : ManifestEntry Nat} {trees : Trees Nat}
    (hend : entry.endHeight.val = n) (hhash : entry.endHash = plainHash fork n)
    (hroots : trees.roots = (⟨note.toList, [], []⟩ : Trees Nat).roots) :
    (⟨entry.frontiers, entry.endTreeSizes, trees.roots, []⟩ : EpochProof Nat).attest
      ⟨[entry], none, false⟩ (plainAttestor fork n note) =
      .ok [⟨entry.endHash, trees.roots, entry.subtreeRoots⟩] := by
  have hblock : (plainAttestor fork n note).blockHash entry.endHeight = .ok entry.endHash := by
    rw [hhash]
    simp [plainAttestor, plainLeafChain, hend]
  have hhashes : [entry].forM (EpochProof.attestHash (plainAttestor fork n note)) = .ok () := by
    simp only [List.forM_eq_forM, List.forM_cons, List.forM_nil, EpochProof.attestHash, hblock,
      okMapError_ok, ok_bind]
    rfl
  have hmatches : (⟨entry.frontiers, entry.endTreeSizes, trees.roots, []⟩ :
      EpochProof Nat).matchesRoots trees.roots := by
    intro pool _
    cases pool <;> rfl
  have hanswer : (plainAttestor fork n note).treeRoots entry.endHeight = .ok trees.roots := by
    simp only [plainAttestor, if_pos hend, hroots]
  have hend : (⟨[entry], none, false⟩ : Epoch Nat).endHeight = entry.endHeight := rfl
  rw [EpochProof.attest, hhashes, ok_bind, hend, hanswer, okMapError_ok, ok_bind,
    ensure_of _ hmatches, ok_bind]
  simp [EpochProof.attestSubtrees, Pool.all, EpochProof.attestPool, EpochProof.attestedEntry, hend]

/-- The padded records of the first range are the records of a blob. -/
theorem exists_accepts_padded (note fork : Nat) (hn : rangeSize = n + 1) (frontiers : Frontiers) :
    ∃ b : RangeBlob Nat, b.Accepts .genesis (paddedRecords note fork n) ∧
      Manifest.IsRange b.entry 0 ∧ b.entry.frontiers = frontiers ∧ b.entry.subtreeRoots = [] ∧
      b.entry.epochEnd = true := by
  have hplain := (plainRecords_isRange fork).chain
  rw [hn] at hplain
  have hlen : (paddedRecords note fork n).length = rangeSize := by
    rw [paddedRecords, List.length_append, length_branchRecords, hn]
    rfl
  have hzero : ∀ r ∈ (paddedRecords note fork n).head?, r.height.val = 0 := by
    intro r hr
    cases n with
    | zero =>
      obtain rfl := Option.some.inj hr
      rfl
    | succ n =>
      rw [paddedRecords, plainRecords_succ] at hr
      obtain rfl := Option.some.inj hr
      rfl
  have hencode : ∀ r ∈ paddedRecords note fork n, ∃ part, r.encode = .ok part := by
    intro r hr
    rcases List.mem_append.mp hr with hr | hr
    · obtain ⟨height, -, rfl⟩ := List.mem_map.mp hr
      exact plainRecord_encode fork height
    · rw [List.mem_singleton.mp hr]
      exact paddedRecord_encode note fork n
  obtain ⟨parts, hparts⟩ := exists_forall₂ hencode
  obtain ⟨b, haccepts, hstart, hend, hfrontiers, hsubtrees, hflag, -⟩ :=
    @RangeBlob.exists_accepts_of_parts Nat _ _ _ _ _ _ frontiers
      (hparts.imp fun r part hpart => ⟨CompactBlockRecord.decode_encode hpart,
        (CompactBlockRecord.encode_eq_ok.mp hpart).1⟩)
      hlen (paddedRecords_isChain hplain) hzero rfl (paddedRecords_exact hplain)
  exact ⟨b, haccepts, ⟨hstart, hend⟩, hfrontiers, hsubtrees, hflag⟩

/-- The padded records of the first range are rebuilt and attested, when their trees have the
    roots of the node. -/
theorem attestedRun_padded {note fork n : Nat} (hn : rangeSize = n + 1) (hnote : note < 256 ^ 32)
    {note' : Option Nat} (hroots : (⟨[note], [], []⟩ : Trees Nat).roots =
      (⟨note'.toList, [], []⟩ : Trees Nat).roots) :
    ∃ entry : ManifestEntry Nat, checkEntries [entry] = .ok () ∧ entry.endHeight.val = n ∧
      AttestedRun (plainAttestor fork n note') (some entry) (paddedRecords note fork n)
        ⟨1, 0, 0⟩ := by
  let trees : Trees Nat := ⟨[note], [], []⟩
  -- the entry has the frontiers of the trees that a rebuild of the records gives
  obtain ⟨⟨blob, entry⟩, haccepts, hrange, hfrontiers, hsubtrees, hflag⟩ :=
    exists_accepts_padded note fork hn ⟨toRpcBytes .sapling trees.sapling,
      toRpcBytes .orchard trees.orchard, toRpcBytes .ironwood trees.ironwood⟩
  have hleaves : EpochProof.leavesBy pairLeaf (paddedRecords note fork n) = trees := by
    simp only [EpochProof.leavesBy, noteCommitments_paddedRecords, Pool.select, List.map_cons,
      List.map_nil, pairLeaf, cmuOf, leNat_leBytes 32 note hnote, trees]
  have hsmall : trees.Small := by
    intro pool
    cases pool <;> simp [Trees.of, Pool.select, trees, subtreeHeight]
  have hmatch : trees.matchFrontiers entry.frontiers := by
    rw [hfrontiers]
    intro pool _
    rw [if_neg]
    · cases pool <;> rfl
    · cases pool <;> exact List.cons_ne_nil _ _
  obtain ⟨checked, hrebuild⟩ := @EpochProof.rebuildRanges_of_small Nat _ pairLeaf (fun _ _ => rfl)
    _ _ _ false _ _ _ haccepts (hleaves ▸ hsmall) (hleaves ▸ hmatch) hsubtrees
  rw [hleaves] at hrebuild
  have hproof : EpochProof.rebuild ⟨[entry], none, false⟩ [blob] ⟨[], [], []⟩ =
      .ok ⟨entry.frontiers, entry.endTreeSizes, trees.roots, []⟩ :=
    map_eq_ok.mpr ⟨_, hrebuild, rfl⟩
  -- the last record is the padded one, so the entry ends with its hash and sizes
  have hlink : (⟨plainHash fork n, ⟨1, 0, 0⟩⟩ : RangeLink) = .ofEntry entry := by
    rw [← haccepts.endLink, paddedRecords, RangeLink.after_append]
    rfl
  have hsizes : entry.endTreeSizes = ⟨1, 0, 0⟩ := (congrArg RangeLink.endTreeSizes hlink).symm
  have hend : entry.endHeight.val = n := by
    rw [hrange.2, hn, Nat.zero_mul]
    exact Nat.zero_add n
  have hattest := attest_plain hend (congrArg RangeLink.endHash hlink).symm hroots
  have hrun := AttestedRun.genesis.epoch rfl hproof hattest rfl (.cons haccepts.stored .nil)
  rw [hsizes] at hrun
  exact ⟨entry, checkEntries_singleton hrange hflag, hend, by simpa using hrun⟩

/-- A replica accepts the first range of a chain with one commitment, and has the trees of the
    node. -/
theorem attested_commitments_one : ∃ (chain : LeafChain Nat) (attestor : Attestor Nat)
    (last : ManifestEntry Nat) (records : List CompactBlockRecord) (sizes : TreeSizes),
    NoteTreeLaws Nat ∧ attestor.Honest chain ∧ AttestedRun attestor (some last) records sizes ∧
    chain.leavesThrough .sapling last.endHeight.val = [7] ∧
    ∀ pool, (sizes.of pool).val = (chain.leavesThrough pool last.endHeight.val).length := by
  obtain ⟨n, hn⟩ : ∃ n, rangeSize = n + 1 := ⟨999, rfl⟩
  obtain ⟨entry, -, hend, hrun⟩ := @attestedRun_padded 7 1000 n hn (by decide) (some 7) rfl
  have hhonest := plainAttestor_honest 1000 n (some 7)
  obtain ⟨trees, htrees, hiff⟩ := attested_commitments_iff pairTrees_laws hhonest hrun
  refine ⟨_, _, entry, _, _, pairTrees_laws, hhonest, hrun, hend ▸ leavesThrough_plain _ _ _ _,
    fun pool => (hiff.mpr ?_ pool).2⟩
  intro pool
  have hpool := htrees pool
  rw [noteCommitments_paddedRecords] at hpool
  rw [hend, leavesThrough_plain]
  cases pool <;> rw [← Option.some.inj hpool] <;> rfl

/-- The last block of a range has one more output, and its commitment is the uncommitted leaf.
    The roots are those of the node, so a replica accepts the range, and counts a leaf that
    the node does not have. -/
theorem attested_uncommitted_leaf : ∃ (chain : LeafChain Nat) (attestor : Attestor Nat)
    (last : ManifestEntry Nat) (records : List CompactBlockRecord) (sizes : TreeSizes),
    NoteTreeLaws Nat ∧ attestor.Honest chain ∧ checkEntries [last] = .ok () ∧
    AttestedRun attestor (some last) records sizes ∧
    (noteCommitments records .sapling).mapM (leaf .sapling) = some [(uncommitted .sapling : Nat)] ∧
    chain.leavesThrough .sapling last.endHeight.val = [] ∧ sizes = ⟨1, 0, 0⟩ := by
  obtain ⟨n, hn⟩ : ∃ n, rangeSize = n + 1 := ⟨999, rfl⟩
  -- the uncommitted leaf is in the place of a missing leaf
  have hroots : (⟨[1], [], []⟩ : Trees Nat).roots = (⟨[], [], []⟩ : Trees Nat).roots := by
    have hsapling : noteRoot .sapling treeDepth [1] =
        noteRoot .sapling treeDepth ([] : List Nat) := by
      apply Merkle.root_congr
      intro i _
      cases i <;> rfl
    simp only [Trees.roots, hsapling]
  obtain ⟨entry, hchecked, hend, hrun⟩ := @attestedRun_padded 1 1000 n hn (by decide) none hroots
  refine ⟨_, _, entry, _, _, pairTrees_laws, plainAttestor_honest 1000 n none, hchecked, hrun, ?_,
    hend ▸ leavesThrough_plain _ _ _ _, rfl⟩
  rw [noteCommitments_paddedRecords]
  rfl

end

end Ztreamer
