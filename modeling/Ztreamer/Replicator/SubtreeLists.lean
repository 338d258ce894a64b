import Ztreamer.Import.Sample
import Ztreamer.Replicator.RowEpochs

/-! # The subtree roots of a range

    The filler lists the subtrees that complete in a range, from the tree sizes before and after
    it and from the answers of a node. A replica compares the list of an entry with the subtrees
    that its own appends complete.

    * `CompletedIn`: a block of a range appends the last leaf of a subtree,
    * `StateBackend.AnswersFrom`: a node that knows where its subtrees end,
    * `RangeMetaFiller.run_read_subtreeRoots`: the list of the filler,
    * `RangeMetaFiller.requested_ranges`: the subtrees that it asks for, range by range,
    * `EpochProof.Rebuilds`: what a rebuild accepts,
    * `subtree_lists_agree`: the list of the filler is one that a rebuild of the chain accepts.
-/

namespace Ztreamer

open Octets Result Atomic

variable {ν : Type}

/-! ## Where a subtree ends -/

/-- The block at `height` appends the leaf at this position of the tree. -/
def AppendsLeaf (chain : List CompactBlockRecord) (pool : Pool) (leaf height : Nat) : Prop :=
  poolSize chain pool height ≤ leaf ∧ leaf < poolSize chain pool (height + 1)

/-- The position of the last leaf of a subtree. -/
def lastLeaf (index : Nat) : Nat := (index + 1) * subtreeLeafCount - 1

/-- A block of the range at `start` appends the last leaf of the subtree. -/
def CompletedIn (chain : List CompactBlockRecord) (pool : Pool) (index start : Nat) : Prop :=
  ∃ height, start ≤ height ∧ height < start + rangeSize ∧
    AppendsLeaf chain pool (lastLeaf index) height

/-- The records have the tree sizes of their chain. -/
def TrueSizes (chain : List CompactBlockRecord) : Prop :=
  ∀ (height : Nat) (record : CompactBlockRecord), chain[height]? = some record →
    ∀ pool, (record.endTreeSizes.of pool).val = poolSize chain pool (height + 1)

section

variable {chain nodeChain : List CompactBlockRecord} {pool : Pool} {index start height : Nat}

theorem poolSize_mono {height' : Nat} (h : height ≤ height') :
    poolSize chain pool height ≤ poolSize chain pool height' := by
  obtain ⟨rest, hrest⟩ := List.take_prefix_take_left h (l := chain)
  unfold poolSize
  rw [← hrest, noteCommitments_append, List.length_append]
  exact Nat.le_add_right _ _

theorem poolSize_succ {record : CompactBlockRecord} (h : chain[height]? = some record) :
    poolSize chain pool (height + 1) =
      poolSize chain pool height + (record.noteCommitments pool).length := by
  rw [poolSize, List.take_add_one, h, noteCommitments_append, List.length_append]
  simp [noteCommitments, poolSize]

/-- Two chains with the same blocks have the same sizes. -/
theorem poolSize_of_take {n : Nat} (h : chain.take n <+: nodeChain) (hn : n ≤ chain.length)
    (hheight : height ≤ n) : poolSize nodeChain pool height = poolSize chain pool height := by
  obtain ⟨rest, rfl⟩ := h
  unfold poolSize
  rw [List.take_append_of_le_length (by rw [List.length_take]; omega), List.take_take,
    Nat.min_eq_left hheight]

/-- A block crosses each value between two sizes. -/
theorem exists_step {size : Nat → Nat} {a b value : Nat} (hab : a ≤ b) (ha : size a ≤ value)
    (hb : value < size b) : ∃ i, a ≤ i ∧ i < b ∧ size i ≤ value ∧ value < size (i + 1) := by
  induction b, hab using Nat.le_induction with
  | base => omega
  | succ b hab ih =>
    by_cases hlt : value < size b
    · obtain ⟨i, hi, hib, hstep⟩ := ih hlt
      exact ⟨i, hi, Nat.lt_succ_of_lt hib, hstep⟩
    · exact ⟨b, hab, Nat.lt_succ_self b, Nat.not_lt.mp hlt, hb⟩

theorem le_lastLeaf_iff {size : Nat} : size ≤ lastLeaf index ↔ size / subtreeLeafCount ≤ index := by
  simp only [lastLeaf, subtreeLeafCount, subtreeHeight]
  omega

/-- A range completes the subtrees between the sizes before and after it. -/
theorem completedIn_iff : CompletedIn chain pool index start ↔
    poolSize chain pool start / subtreeLeafCount ≤ index ∧
      index < poolSize chain pool (start + rangeSize) / subtreeLeafCount := by
  rw [← le_lastLeaf_iff, ← Nat.not_le, ← le_lastLeaf_iff, Nat.not_le]
  constructor
  · rintro ⟨height, hstart, hend, hleaf, hleaf'⟩
    exact ⟨(poolSize_mono hstart).trans hleaf, hleaf'.trans_le (poolSize_mono hend)⟩
  · rintro ⟨hstart, hend⟩
    exact exists_step (Nat.le_add_right _ _) hstart hend

theorem TrueSizes.before (h : TrueSizes chain) (hheight : height ≤ chain.length) (pool : Pool) :
    ((RangeMetaFiller.treeSizesBefore chain height).of pool).val = poolSize chain pool height := by
  cases height with
  | zero => cases pool <;> rfl
  | succ height =>
    have hget : chain[height]? = some chain[height] := List.getElem?_eq_getElem hheight
    rw [RangeMetaFiller.treeSizesBefore_succ hget]
    exact h height _ hget pool

end

/-! ## The node -/

/-- The node answers a request with the subtrees that its chain completes, in the order of their
    index, each with the height of the block that completes it. -/
def StateBackend.AnswersFrom (node : StateBackend ν) (chain : List CompactBlockRecord)
    (root : Pool → Nat → ν) : Prop :=
  ∀ (pool : Pool) (first limit : U16), ∃ subtrees,
    node.subtrees pool first (some limit) = .ok subtrees ∧
    subtrees.map (·.1.val) =
      ((List.range (poolSize chain pool chain.length / subtreeLeafCount)).drop first.val).take
        limit.val ∧
    ∀ subtree ∈ subtrees, subtree.2.root = root pool subtree.1.val ∧
      AppendsLeaf chain pool (lastLeaf subtree.1.val) subtree.2.endHeight

/-- There is such a node for each chain whose subtrees have indices of 16 bits. -/
theorem StateBackend.exists_answersFrom {chain : List CompactBlockRecord}
    (hindices : ∀ pool, poolSize chain pool chain.length / subtreeLeafCount ≤ 65536)
    (root : Pool → Nat → ν) : ∃ node : StateBackend ν, node.AnswersFrom chain root := by
  have hend : ∀ pool index, ∃ height, index < poolSize chain pool chain.length / subtreeLeafCount →
      AppendsLeaf chain pool (lastLeaf index) height := by
    intro pool index
    by_cases hlt : index < poolSize chain pool chain.length / subtreeLeafCount
    · rw [← Nat.not_le, ← le_lastLeaf_iff, Nat.not_le] at hlt
      obtain ⟨height, -, -, hleaf⟩ := exists_step (Nat.zero_le _)
        (by simp [poolSize, noteCommitments]) hlt
      exact ⟨height, fun _ => hleaf⟩
    · exact ⟨0, fun h => absurd h hlt⟩
  choose height hheight using hend
  let answer (pool : Pool) (index : Nat) : U16 × NoteCommitmentSubtreeData ν :=
    (Fin.ofNat _ index, ⟨height pool index, root pool index⟩)
  refine ⟨⟨fun _ => .ok ⟨none, none, none⟩, fun pool first limit =>
    .ok ((((List.range (poolSize chain pool chain.length / subtreeLeafCount)).drop first.val).take
      (limit.elim 0 (·.val))).map (answer pool))⟩, fun pool first limit => ⟨_, rfl, ?_, ?_⟩⟩
  · rw [List.map_map]
    refine (List.map_congr_left fun index hmem => ?_).trans (List.map_id _)
    have hlt := List.mem_range.mp (List.mem_of_mem_drop (List.mem_of_mem_take hmem))
    exact Nat.mod_eq_of_lt (hlt.trans_le (hindices pool))
  · intro subtree hmem
    obtain ⟨index, hindex, rfl⟩ := List.mem_map.mp hmem
    have hlt := List.mem_range.mp (List.mem_of_mem_drop (List.mem_of_mem_take hindex))
    have hval : index % 65536 = index := Nat.mod_eq_of_lt (hlt.trans_le (hindices pool))
    simp only [answer, Fin.val_ofNat, hval, true_and]
    exact hheight pool index hlt

/-! ## The list of the filler -/

namespace RangeMetaFiller

/-- The subtrees of a pool that the filler asks the node for. -/
def SubtreeSpan.indices (before after : U32) : List Nat :=
  (SubtreeSpan.between before after).elim [] fun span => List.range' span.first.val span.count.val

theorem SubtreeSpan.between_eq_some {before after : U32} {span : SubtreeSpan}
    (h : SubtreeSpan.between before after = some span) :
    span.first.val = index before ∧ span.first.val + span.count.val = index after := by
  have hbefore := before.isLt
  have hafter := after.isLt
  unfold between at h
  split at h
  · next hlt =>
    obtain rfl := Option.some.inj h
    simp only [Fin.val_ofNat, index] at hlt ⊢
    omega
  · cases h

theorem SubtreeSpan.indices_eq (before after : U32) :
    SubtreeSpan.indices before after = List.range' (index before) (index after - index before) := by
  unfold indices
  cases hbetween : between before after with
  | none =>
    unfold between at hbetween
    split at hbetween
    · cases hbetween
    · rw [Nat.sub_eq_zero_of_le (by omega)]
      rfl
  | some span =>
    obtain ⟨hfirst, hend⟩ := between_eq_some hbetween
    rw [← hfirst, ← hend, Nat.add_sub_cancel_left]
    rfl

/-- The roots of the node for the subtrees of a pool. -/
def listed (root : Pool → Nat → ν) (pool : Pool) (indices : List Nat) : List (SubtreeRoot ν) :=
  indices.map fun index => ⟨Fin.ofNat _ index, pool, root pool index⟩

section

variable {chain nodeChain : List CompactBlockRecord} {pool : Pool} {start : Nat} {w : World ν}
  {root : Pool → Nat → ν} {before after : U32}

theorem drop_take_range {n first count : Nat} (h : first + count ≤ n) :
    ((List.range n).drop first).take count = List.range' first count := by
  rw [List.take_drop, List.take_range, Nat.min_eq_left h, List.range_eq_range', List.drop_range',
    Nat.zero_add, Nat.mul_one, Nat.add_sub_cancel_left]

/-- The node gives the subtrees that complete in the range, and the filler keeps each of them. -/
theorem run_poolSubtreeRoots (hnode : w.node.AnswersFrom nodeChain root)
    (hnodeChain : chain.take (start + rangeSize) <+: nodeChain)
    (hlength : start + rangeSize ≤ chain.length) {read : RangeRead} (hstart : read.start = start)
    (hlast : read.last.height.val = start + (rangeSize - 1))
    (hbefore : before.val = poolSize chain pool start)
    (hafter : after.val = poolSize chain pool (start + rangeSize)) :
    (poolSubtreeRoots pool read before after : Fill ν _).run w =
      (.ok (listed root pool (SubtreeSpan.indices before after)), w) := by
  have hbefore : before.val = poolSize nodeChain pool start :=
    hbefore.trans (poolSize_of_take hnodeChain hlength (Nat.le_add_right _ _)).symm
  have hafter : after.val = poolSize nodeChain pool (start + rangeSize) :=
    hafter.trans (poolSize_of_take hnodeChain hlength le_rfl).symm
  unfold SubtreeSpan.indices poolSubtreeRoots
  cases hbetween : SubtreeSpan.between before after with
  | none => rfl
  | some span =>
    obtain ⟨hfirst, hend⟩ := SubtreeSpan.between_eq_some hbetween
    obtain ⟨subtrees, hok, hmap, hsubtrees⟩ := hnode pool span.first span.count
    -- the chain of the node has every subtree of the span
    have hcomplete : span.first.val + span.count.val ≤
        poolSize nodeChain pool nodeChain.length / subtreeLeafCount := by
      have hle := hnodeChain.length_le
      rw [List.length_take, Nat.min_eq_left hlength] at hle
      rw [hend, SubtreeSpan.index, hafter]
      exact Nat.div_le_div_right (poolSize_mono hle)
    rw [drop_take_range hcomplete] at hmap
    have hkept : ∀ subtree ∈ subtrees, start ≤ subtree.2.endHeight ∧
        subtree.2.endHeight ≤ start + (rangeSize - 1) := by
      intro subtree hmem
      obtain ⟨-, hleaf, hleaf'⟩ := hsubtrees subtree hmem
      have hindex : subtree.1.val ∈ List.range' span.first.val span.count.val :=
        hmap ▸ List.mem_map_of_mem hmem
      rw [List.mem_range'_1, hend, hfirst] at hindex
      have hstarts : before.val ≤ lastLeaf subtree.1.val := le_lastLeaf_iff.mpr hindex.1
      have hends : lastLeaf subtree.1.val < after.val := by
        rw [← Nat.not_le, le_lastLeaf_iff, Nat.not_le]
        exact hindex.2
      constructor
      · by_contra hlt
        have hmono : poolSize nodeChain pool (subtree.2.endHeight + 1) ≤
            poolSize nodeChain pool start := poolSize_mono (by omega)
        omega
      · by_contra hlt
        have hmono : poolSize nodeChain pool (start + rangeSize) ≤
            poolSize nodeChain pool subtree.2.endHeight := poolSize_mono (by omega)
        omega
    rw [Prog.run_bind (by rw [Prog.run_read, hok, okMapError_ok])]
    show (Except.ok (SubtreeSpan.roots pool read.start read.last.height.val subtrees), w) = _
    rw [hstart, hlast, SubtreeSpan.roots, List.filter_eq_self.mpr, Option.elim_some, listed, ← hmap,
      List.map_map]
    · congr 2
      apply List.map_congr_left
      intro subtree hmem
      have hroot := (hsubtrees subtree hmem).1
      simp only [Function.comp_apply, hroot, Fin.ofNat_val_eq_self]
    · intro subtree hmem
      exact decide_eq_true (hkept subtree hmem)

/-- The subtrees of a pool that the filler asks for when it fills the range at `start`. -/
def requested (chain : List CompactBlockRecord) (pool : Pool) (start : Nat) : List Nat :=
  SubtreeSpan.indices ((treeSizesBefore chain start).of pool)
    ((treeSizesBefore chain (start + rangeSize)).of pool)

/-- The same, from what the filler read of the range. -/
def RangeRead.requested (read : RangeRead) (pool : Pool) : List Nat :=
  SubtreeSpan.indices (read.startTreeSizes.of pool) (read.last.endTreeSizes.of pool)

theorem mem_requested (hsizes : TrueSizes chain) (hlength : start + rangeSize ≤ chain.length)
    {index : Nat} : index ∈ requested chain pool start ↔ CompletedIn chain pool index start := by
  rw [requested, SubtreeSpan.indices_eq, List.mem_range'_1, SubtreeSpan.index, SubtreeSpan.index,
    hsizes.before hlength, hsizes.before (by omega), completedIn_iff]
  simp only [subtreeLeafCount, subtreeHeight]
  omega

/-- The requests of consecutive ranges are next to each other. -/
theorem requested_ranges (hsizes : TrueSizes chain) (pool : Pool) {n : Nat}
    (hlength : n * rangeSize ≤ chain.length) :
    (List.range n).flatMap (fun i => requested chain pool (i * rangeSize)) =
      List.range (SubtreeSpan.index ((treeSizesBefore chain (n * rangeSize)).of pool)) := by
  induction n with
  | zero =>
    rw [SubtreeSpan.index, hsizes.before hlength, Nat.zero_mul]
    simp [poolSize, noteCommitments]
  | succ n ih =>
    rw [Nat.succ_mul] at hlength ⊢
    have hmono : SubtreeSpan.index ((treeSizesBefore chain (n * rangeSize)).of pool) ≤
        SubtreeSpan.index ((treeSizesBefore chain (n * rangeSize + rangeSize)).of pool) := by
      unfold SubtreeSpan.index
      rw [hsizes.before hlength, hsizes.before (by omega)]
      exact Nat.div_le_div_right (poolSize_mono (Nat.le_add_right _ _))
    rw [List.range_succ, List.flatMap_append, ih (by omega), List.flatMap_singleton, requested,
      SubtreeSpan.indices_eq, List.range_eq_range', List.range_eq_range']
    have happend := @List.range'_append_1 0
      (SubtreeSpan.index ((treeSizesBefore chain (n * rangeSize)).of pool))
      (SubtreeSpan.index ((treeSizesBefore chain (n * rangeSize + rangeSize)).of pool) -
        SubtreeSpan.index ((treeSizesBefore chain (n * rangeSize)).of pool))
    rwa [Nat.zero_add, Nat.add_sub_cancel' hmono] at happend

/-- The list of the filler for the range at `start`. -/
def subtreeList (root : Pool → Nat → ν) (chain : List CompactBlockRecord) (start : Nat) :
    List (SubtreeRoot ν) :=
  Pool.all.flatMap fun pool => listed root pool (requested chain pool start)

theorem run_read_subtreeRoots [Proto.Prost] [Blake3] {heightOf : HeightOf} {st : IndexState}
    (h : Represents heightOf w.index st chain) (hsizes : TrueSizes chain)
    (haligned : start % rangeSize = 0) (hsealed : start < st.sealedEnd)
    (hnodeChain : chain.take (start + rangeSize) <+: nodeChain)
    (hnode : w.node.AnswersFrom nodeChain root) :
    (RangeRead.read start >>= subtreeRoots : Fill ν _).run w =
      (.ok (subtreeList root chain start), w) := by
  obtain ⟨read, hread, hstart, hbefore, hlast⟩ := run_read h haligned hsealed
  have hlength : start + rangeSize ≤ chain.length := (List.getElem?_eq_some_iff.mp hlast).1
  have hafter : treeSizesBefore chain (start + rangeSize) = read.last.endTreeSizes :=
    treeSizesBefore_succ hlast
  have hpool : ∀ pool, (poolSubtreeRoots pool read (read.startTreeSizes.of pool)
      (read.last.endTreeSizes.of pool) : Fill ν _).run w =
        (.ok (listed root pool (requested chain pool start)), w) := by
    intro pool
    rw [requested, ← hbefore, hafter]
    apply run_poolSubtreeRoots hnode hnodeChain hlength hstart (h.connected.height_eq hlast)
    · rw [hbefore, hsizes.before (by omega)]
    · rw [← hafter, hsizes.before hlength]
  have hsapling := hpool .sapling
  have horchard := hpool .orchard
  have hironwood := hpool .ironwood
  simp only [TreeSizes.of, Pool.select] at hsapling horchard hironwood
  rw [Prog.run_bind hread, subtreeRoots, Prog.run_bind hsapling, Prog.run_bind horchard,
    Prog.run_bind hironwood, List.append_assoc]
  simp only [subtreeList, Pool.all, List.flatMap_cons, List.flatMap_nil, List.append_nil]
  rfl

theorem run_read_requested [Proto.Prost] [Blake3] {heightOf : HeightOf} {st : IndexState}
    (h : Represents heightOf w.index st chain) (haligned : start % rangeSize = 0)
    (hsealed : start < st.sealedEnd) :
    ∃ read, (RangeRead.read start : Fill ν _).run w = (.ok read, w) ∧
      ∀ pool, read.requested pool = requested chain pool start := by
  obtain ⟨read, hread, -, hbefore, hlast⟩ := run_read h haligned hsealed
  have hafter : treeSizesBefore chain (start + rangeSize) = read.last.endTreeSizes :=
    treeSizesBefore_succ hlast
  refine ⟨read, hread, fun pool => ?_⟩
  rw [RangeRead.requested, requested, hbefore, hafter]

theorem lt_of_mem_requested {index : Nat} (h : index ∈ requested chain pool start) :
    index < 65536 := by
  have hafter := ((treeSizesBefore chain (start + rangeSize)).of pool).isLt
  rw [requested, SubtreeSpan.indices_eq, List.mem_range'_1, SubtreeSpan.index,
    SubtreeSpan.index] at h
  omega

/-- The filler lists the subtrees that complete in the range. -/
theorem mem_subtreeList (hsizes : TrueSizes chain) (hlength : start + rangeSize ≤ chain.length)
    {subtree : SubtreeRoot ν} : subtree ∈ subtreeList root chain start ↔
      CompletedIn chain subtree.root.pool subtree.index.val start ∧
        subtree.root.node = root subtree.root.pool subtree.index.val := by
  simp only [subtreeList, listed, List.mem_flatMap, List.mem_map, ← mem_requested hsizes hlength]
  constructor
  · rintro ⟨pool, -, index, hindex, rfl⟩
    have hval : index % 65536 = index := Nat.mod_eq_of_lt (lt_of_mem_requested hindex)
    simp only [Fin.val_ofNat, hval, and_true]
    exact hindex
  · rintro ⟨hindex, hnode⟩
    refine ⟨subtree.root.pool, Pool.mem_all _, subtree.index.val, hindex, ?_⟩
    rw [← hnode, Fin.ofNat_val_eq_self]

theorem indices_listed : (listed root pool (requested chain pool start)).map (·.index.val) =
    requested chain pool start := by
  rw [listed, List.map_map]
  refine (List.map_congr_left fun index hindex => ?_).trans (List.map_id _)
  exact Nat.mod_eq_of_lt (lt_of_mem_requested hindex)

/-- The subtrees of a pool are in the order of the request. -/
theorem indices_subtreeList (pool : Pool) :
    ((subtreeList root chain start).filter (·.root.pool = pool)).map (·.index.val) =
      requested chain pool start := by
  have hpool : ((listed root pool (requested chain pool start)).filter (·.root.pool = pool)).map
      (·.index.val) = requested chain pool start := by
    rw [List.filter_eq_self.mpr (by simp [listed]), indices_listed]
  have hother : ∀ other, other ≠ pool → (listed root other (requested chain other start)).filter
      (·.root.pool = pool) = [] := by
    intro other hne
    simp [listed, hne]
  simp only [subtreeList, Pool.all, List.flatMap_cons, List.flatMap_nil, List.filter_append,
    List.append_nil]
  cases pool with
  | sapling =>
    rwa [hother .orchard (by decide), hother .ironwood (by decide), List.append_nil,
      List.append_nil]
  | orchard => rwa [hother .sapling (by decide), hother .ironwood (by decide), List.append_nil]
  | ironwood => rwa [hother .sapling (by decide), hother .orchard (by decide)]

theorem nodup_subtreeList : (subtreeList root chain start).Nodup := by
  rw [subtreeList, List.nodup_flatMap]
  constructor
  · intro pool _
    apply List.Nodup.of_map (·.index.val)
    rw [indices_listed, requested, SubtreeSpan.indices_eq]
    exact List.nodup_range'
  · have hpools : Pool.all.Pairwise (· ≠ ·) := by decide
    refine hpools.imp fun {pool other} hne subtree hmem hmem' => hne ?_
    obtain ⟨_, -, rfl⟩ := List.mem_map.mp hmem
    obtain ⟨_, -, heq⟩ := List.mem_map.mp hmem'
    exact (congrArg (·.root.pool) heq).symm

end

end RangeMetaFiller

/-! ## The subtrees of a rebuild -/

namespace Trees

variable [NoteTrees ν]

/-- The root of a subtree of the tree. -/
def subtreeRoot (pool : Pool) (tree : List ν) (index : Nat) : ν :=
  noteRoot pool subtreeHeight ((tree.drop (index * subtreeLeafCount)).take subtreeLeafCount)

/-- The last subtree that more leaves complete. -/
def completes (pool : Pool) (tree tree' : List ν) : Option (SubtreeRoot ν) :=
  let subtrees := tree'.length / subtreeLeafCount
  if tree.length / subtreeLeafCount < subtrees then
    some ⟨Fin.ofNat _ (subtrees - 1), pool, subtreeRoot pool tree' (subtrees - 1)⟩
  else none

theorem appendBatch_completes {pool : Pool} {tree leaves tree' : List ν}
    {completed : Option (SubtreeRoot ν)}
    (h : appendBatch pool tree leaves = some (tree', completed)) :
    completed = completes pool tree tree' := by
  simp only [appendBatch] at h
  split at h
  · obtain ⟨rfl, rfl⟩ := Prod.mk.inj (Option.some.inj h)
    rfl
  · cases h

section

variable {trees trees' : Trees ν} {record : CompactBlockRecord} {records : List CompactBlockRecord}
  {completed completed' : List (SubtreeRoot ν)} {subtree : SubtreeRoot ν}

/-- The subtrees of a block go after the ones before. -/
theorem append_completed : trees.append record completed =
    Prod.map id (completed ++ ·) <$> trees.append record [] := by
  simp only [append, map_bind, map_pure, List.nil_append]
  rfl

theorem completed_of_append (h : trees.append record [] = .ok (trees', completed)) :
    completed = Pool.all.filterMap fun pool => completes pool (trees.of pool) (trees'.of pool) := by
  simp only [append, leaves, bind_eq_ok, okOr_eq_ok, pure_eq_ok, Except.ok.injEq, Prod.exists,
    Prod.mk.injEq] at h
  obtain ⟨_, -, _, -, _, -, _, _, hsapling, _, _, horchard, _, _, hironwood, rfl, rfl⟩ := h
  rw [appendBatch_completes hsapling, appendBatch_completes horchard,
    appendBatch_completes hironwood]
  rfl

/-- The blocks are appended one after the other, and complete these subtrees. -/
inductive Appends : Trees ν → List CompactBlockRecord → Trees ν → List (SubtreeRoot ν) → Prop where
  | nil (trees : Trees ν) : Appends trees [] trees []
  | cons {trees next trees' : Trees ν} {record : CompactBlockRecord}
      {records : List CompactBlockRecord} {first rest : List (SubtreeRoot ν)} :
      trees.append record [] = .ok (next, first) → Appends next records trees' rest →
      Appends trees (record :: records) trees' (first ++ rest)

theorem foldlM_visit_iff : records.foldlM EpochProof.visit (trees, completed) =
      .ok (trees', completed') ↔
    ∃ added, Appends trees records trees' added ∧ completed' = completed ++ added := by
  induction records generalizing trees completed with
  | nil =>
    simp only [List.foldlM_nil, pure_eq_ok, Except.ok.injEq, Prod.mk.injEq]
    constructor
    · rintro ⟨rfl, rfl⟩
      exact ⟨[], .nil _, (List.append_nil _).symm⟩
    · rintro ⟨added, ⟨⟩, rfl⟩
      exact ⟨rfl, (List.append_nil _).symm⟩
  | cons record records ih =>
    simp only [List.foldlM_cons, bind_eq_ok, EpochProof.visit, okMapError_eq_ok, Prod.exists,
      @append_completed ν _ trees record completed, map_eq_ok, Prod.map, id_eq, Prod.mk.injEq]
    constructor
    · rintro ⟨_, _, ⟨next, first, happend, rfl, rfl⟩, hrest⟩
      obtain ⟨rest, happends, rfl⟩ := ih.mp hrest
      exact ⟨first ++ rest, .cons happend happends, List.append_assoc _ _ _⟩
    · rintro ⟨added, hadded, rfl⟩
      cases hadded with
      | @cons _ next _ _ _ first rest happend happends =>
        exact ⟨next, _, ⟨next, first, happend, rfl, rfl⟩,
          ih.mpr ⟨rest, happends, (List.append_assoc _ _ _).symm⟩⟩

theorem Extends.length (h : trees.Extends records trees') (pool : Pool) :
    (trees'.of pool).length = (trees.of pool).length + (noteCommitments records pool).length := by
  obtain ⟨added, hadded, rfl⟩ := h
  rw [of_add, List.length_append, hadded.length_eq]

theorem Appends.extends (h : Appends trees records trees' completed) :
    trees.Extends records trees' := by
  induction h with
  | nil trees => exact .refl trees
  | cons happend _ ih => exact (append_eq_ok happend).1.trans ih

theorem completes_eq_some {pool : Pool} {tree tree' : List ν}
    (hfits : tree'.length ≤ 2 ^ treeDepth) : completes pool tree tree' = some subtree ↔
      subtree.root.pool = pool ∧ tree.length / subtreeLeafCount ≤ subtree.index.val ∧
      subtree.index.val + 1 = tree'.length / subtreeLeafCount ∧
      subtree.root.node = subtreeRoot pool tree' subtree.index.val := by
  constructor
  · intro h
    simp only [completes] at h
    split at h
    · next hlt =>
      have hindex : (tree'.length / subtreeLeafCount - 1) % 65536 =
          tree'.length / subtreeLeafCount - 1 := by
        simp only [treeDepth, subtreeLeafCount, subtreeHeight] at *
        omega
      obtain rfl := Option.some.inj h
      simp only [Fin.val_ofNat, hindex, true_and, and_true]
      exact ⟨Nat.le_sub_one_of_lt hlt, Nat.sub_add_cancel (Nat.one_le_of_lt hlt)⟩
    · cases h
  · rintro ⟨rfl, hle, heq, hnode⟩
    rw [completes, ← heq, if_pos (Nat.lt_succ_of_le hle), Nat.add_sub_cancel,
      Fin.ofNat_val_eq_self, ← hnode]

/-- A block completes a subtree of a pool when the tree of the pool does. -/
theorem mem_completed_of_append (h : trees.append record [] = .ok (trees', completed)) :
    subtree ∈ completed ↔ completes subtree.root.pool (trees.of subtree.root.pool)
      (trees'.of subtree.root.pool) = some subtree := by
  rw [completed_of_append h, List.mem_filterMap]
  constructor
  · rintro ⟨pool, -, hpool⟩
    obtain ⟨rfl, -⟩ := (completes_eq_some ((append_eq_ok h).2 pool)).mp hpool
    exact hpool
  · intro hpool
    exact ⟨_, Pool.mem_all _, hpool⟩

theorem nodup_of_append (h : trees.append record [] = .ok (trees', completed)) :
    completed.Nodup := by
  have hfits := (append_eq_ok h).2
  rw [completed_of_append h]
  refine List.Nodup.filterMap ?_ (by decide)
  intro pool pool' subtree hpool hpool'
  rw [← ((completes_eq_some (hfits pool)).mp hpool).1,
    ← ((completes_eq_some (hfits pool')).mp hpool').1]

/-- The subtrees that appends complete are different ones. -/
theorem Appends.nodup (h : Appends trees records trees' completed) : completed.Nodup ∧
    ∀ subtree ∈ completed,
      (trees.of subtree.root.pool).length / subtreeLeafCount ≤ subtree.index.val ∧
      subtree.index.val < (trees'.of subtree.root.pool).length / subtreeLeafCount := by
  induction h with
  | nil trees => exact ⟨List.nodup_nil, by simp⟩
  | @cons trees next trees' record records first rest happend happends ih =>
    obtain ⟨hnodup, hrest⟩ := ih
    have hfirst : ∀ subtree ∈ first,
        (trees.of subtree.root.pool).length / subtreeLeafCount ≤ subtree.index.val ∧
        subtree.index.val + 1 = (next.of subtree.root.pool).length / subtreeLeafCount := by
      intro subtree hmem
      obtain ⟨-, hle, heq, -⟩ := (completes_eq_some ((append_eq_ok happend).2 _)).mp
        ((mem_completed_of_append happend).mp hmem)
      exact ⟨hle, heq⟩
    have hmono : ∀ pool, (trees.of pool).length / subtreeLeafCount ≤
          (next.of pool).length / subtreeLeafCount ∧
        (next.of pool).length / subtreeLeafCount ≤ (trees'.of pool).length / subtreeLeafCount := by
      intro pool
      rw [happends.extends.length pool, (append_eq_ok happend).1.length pool]
      exact ⟨Nat.div_le_div_right (by omega), Nat.div_le_div_right (by omega)⟩
    constructor
    · rw [List.nodup_append']
      refine ⟨nodup_of_append happend, hnodup, ?_⟩
      intro subtree hmem hmem'
      have := hfirst subtree hmem
      have := hrest subtree hmem'
      omega
    · intro subtree hmem
      have := hmono subtree.root.pool
      rcases List.mem_append.mp hmem with hmem | hmem
      · have := hfirst subtree hmem
        omega
      · have := hrest subtree hmem
        omega

/-- More leaves do not change a subtree that is complete. -/
theorem subtreeRoot_append {pool : Pool} {tree : List ν} {index : Nat}
    (h : index < tree.length / subtreeLeafCount) (more : List ν) :
    subtreeRoot pool (tree ++ more) index = subtreeRoot pool tree index := by
  have hend : (index + 1) * subtreeLeafCount ≤ tree.length :=
    (Nat.le_div_iff_mul_le (by decide)).mp h
  rw [Nat.succ_mul] at hend
  rw [subtreeRoot, subtreeRoot, List.drop_append_of_le_length (by omega),
    List.take_append_of_le_length (by rw [List.length_drop]; omega)]

/-- Blocks with at most the leaves of one subtree complete each subtree on the way. -/
theorem Appends.mem_iff (h : Appends trees records trees' completed)
    (hsmall : ∀ record ∈ records, ∀ pool, (record.noteCommitments pool).length ≤ subtreeLeafCount) :
    subtree ∈ completed ↔
      (trees.of subtree.root.pool).length / subtreeLeafCount ≤ subtree.index.val ∧
      subtree.index.val < (trees'.of subtree.root.pool).length / subtreeLeafCount ∧
      subtree.root.node = subtreeRoot subtree.root.pool (trees'.of subtree.root.pool)
        subtree.index.val := by
  induction h with
  | nil trees =>
    simp only [List.not_mem_nil, false_iff]
    omega
  | @cons trees next trees' record records first rest happend happends ih =>
    obtain ⟨hrecord, hsmall⟩ := List.forall_mem_cons.mp hsmall
    have hlength := (append_eq_ok happend).1.length subtree.root.pool
    rw [noteCommitments, List.flatMap_singleton] at hlength
    -- the block completes one subtree of the pool at most
    have hone : (next.of subtree.root.pool).length / subtreeLeafCount ≤
        (trees.of subtree.root.pool).length / subtreeLeafCount + 1 := by
      have hgrows := hrecord subtree.root.pool
      rw [← Nat.add_div_right _ (by decide), hlength]
      exact Nat.div_le_div_right (Nat.add_le_add_left hgrows _)
    have hmono : (trees.of subtree.root.pool).length / subtreeLeafCount ≤
        (next.of subtree.root.pool).length / subtreeLeafCount := by
      rw [hlength]
      exact Nat.div_le_div_right (Nat.le_add_right _ _)
    obtain ⟨added, -, rfl⟩ := happends.extends
    have hmono' : (next.of subtree.root.pool).length / subtreeLeafCount ≤
        ((next.add added).of subtree.root.pool).length / subtreeLeafCount := by
      rw [of_add, List.length_append]
      exact Nat.div_le_div_right (Nat.le_add_right _ _)
    have hroot : subtree.index.val < (next.of subtree.root.pool).length / subtreeLeafCount →
        subtreeRoot subtree.root.pool ((next.add added).of subtree.root.pool) subtree.index.val =
          subtreeRoot subtree.root.pool (next.of subtree.root.pool) subtree.index.val := by
      intro hlt
      rw [of_add, subtreeRoot_append hlt]
    rw [List.mem_append, ih hsmall, mem_completed_of_append happend,
      completes_eq_some ((append_eq_ok happend).2 _)]
    constructor
    · rintro (⟨-, hle, heq, hnode⟩ | ⟨hle, hlt, hnode⟩)
      · exact ⟨hle, by omega, hnode.trans (hroot (by omega)).symm⟩
      · exact ⟨by omega, hlt, hnode⟩
    · rintro ⟨hle, hlt, hnode⟩
      by_cases hnext : subtree.index.val < (next.of subtree.root.pool).length / subtreeLeafCount
      · exact .inl ⟨rfl, hle, by omega, hnode.trans (hroot hnext)⟩
      · exact .inr ⟨Nat.not_lt.mp hnext, hlt, hnode⟩

end

end Trees

namespace EpochProof

open Manifest

variable [NoteTrees ν] [DecidableEq ν] [Proto.Prost] [Blake3]

/-- The ranges after `link` are accepted, and extend the trees from `frontiers` on. The entry of a
    range lists the subtrees that the appends of the range complete, in any order. -/
def Rebuilds : RangeLink → Trees ν → Frontiers → List (ManifestEntry ν × Bytes) → Prop
  | _, _, _, [] => True
  | link, trees, frontiers, (entry, blob) :: ranges =>
    ∃ records trees' completed, RangeBlob.Accepts ⟨blob, entry⟩ link records ∧
      Trees.Appends trees records trees' completed ∧ entry.frontiers.follows frontiers ∧
      trees'.matchFrontiers entry.frontiers ∧ entry.subtreeRoots.Perm completed ∧
      Rebuilds (.ofEntry entry) trees' entry.frontiers ranges

omit [NoteTrees ν] [DecidableEq ν] [Proto.Prost] [Blake3] in
/-- The comparison of a range accepts the permutations. -/
theorem perm_iff {completed roots : List (SubtreeRoot ν)} (hnodup : completed.Nodup) :
    (completed.length = roots.length ∧ ∀ root ∈ completed, root ∈ roots) ↔
      roots.Perm completed := by
  constructor
  · rintro ⟨hlength, hsubset⟩
    exact ((hnodup.subperm hsubset).perm_of_length_le hlength.ge).symm
  · intro hperm
    exact ⟨hperm.length_eq.symm, fun root hroot => hperm.mem_iff.mpr hroot⟩

/-- A range is accepted, and what holds then of the state after it. -/
theorem rebuildRange_iff {seen : Rebuilt ν} {entry : ManifestEntry ν} {blob : Bytes}
    {P : RangeLink → Trees ν → Frontiers → Prop} :
    (∃ seen', rebuildRange seen (entry, blob) = .ok seen' ∧
        P seen'.link seen'.trees seen'.frontiers) ↔
      ∃ records trees' completed, RangeBlob.Accepts ⟨blob, entry⟩ seen.link records ∧
        Trees.Appends seen.trees records trees' completed ∧
        entry.frontiers.follows seen.frontiers ∧ trees'.matchFrontiers entry.frontiers ∧
        entry.subtreeRoots.Perm completed ∧ P (.ofEntry entry) trees' entry.frontiers := by
  simp only [rebuildRange, bind_eq_ok, ensure_eq_ok, pure_eq_ok, Except.ok.injEq, Prod.exists]
  constructor
  · rintro ⟨seen', ⟨link, checked, trees', completed, hcheck, -, ⟨hfollows, hmatch⟩, -, hroots,
      rfl⟩, hP⟩
    obtain ⟨first, rest, haccepts, hvisit, rfl, -⟩ := RangeBlob.checkWith_eq_ok hcheck
    obtain ⟨added, happends, rfl⟩ := Trees.foldlM_visit_iff.mp hvisit
    rw [List.drop_left, perm_iff happends.nodup.1] at hroots
    exact ⟨_, trees', added, haccepts, happends, hfollows, hmatch, hroots, haccepts.endLink ▸ hP⟩
  · rintro ⟨records, trees', added, haccepts, happends, hfollows, hmatch, hperm, hP⟩
    obtain ⟨first, rest, rfl⟩ := List.exists_cons_of_length_pos
      (haccepts.stored.length_eq.symm ▸ (by decide : 0 < rangeSize))
    have hvisit : (first :: rest).foldlM visit (seen.trees, seen.completed) =
        .ok (trees', seen.completed ++ added) :=
      Trees.foldlM_visit_iff.mpr ⟨added, happends, rfl⟩
    obtain ⟨checked, hcheck, -⟩ := haccepts.checkWith hvisit
    refine ⟨_, ⟨_, checked, trees', _, hcheck, (), ⟨hfollows, hmatch⟩, (), ?_, rfl⟩,
      haccepts.endLink.symm ▸ hP⟩
    rwa [List.drop_left, perm_iff happends.nodup.1]

theorem foldlM_rebuildRange_iff {ranges : List (ManifestEntry ν × Bytes)} {seen : Rebuilt ν} :
    (∃ seen', ranges.foldlM rebuildRange seen = .ok seen') ↔
      Rebuilds seen.link seen.trees seen.frontiers ranges := by
  induction ranges generalizing seen with
  | nil => exact ⟨fun _ => trivial, fun _ => ⟨seen, rfl⟩⟩
  | cons range ranges ih =>
    rw [Rebuilds, ← rebuildRange_iff (P := fun link trees frontiers =>
      Rebuilds link trees frontiers ranges)]
    simp only [List.foldlM_cons, bind_eq_ok, ← ih]
    constructor
    · rintro ⟨seen', next, hrange, hrest⟩
      exact ⟨next, hrange, seen', hrest⟩
    · rintro ⟨next, hrange, seen', hrest⟩
      exact ⟨seen', next, hrange, hrest⟩

/-- A rebuild accepts an epoch when each of its lists is a permutation of the subtrees that its
    own appends complete in that range, and its other checks pass. -/
theorem rebuildRanges_iff {epoch : Epoch ν} {blobs : List Bytes} {start : Frontiers} :
    (∃ rebuilt, rebuildRanges epoch blobs start = .ok rebuilt) ↔
      blobs.length = epoch.entries.length ∧ ∃ trees : Trees ν,
        (Trees.ofFrontiers start = some trees ∧ trees.haveSizes epoch.startLink.endTreeSizes) ∧
        Rebuilds epoch.startLink trees start (epoch.entries.zip blobs) := by
  simp only [rebuildRanges, bind_eq_ok, ensure_eq_ok, okOr_eq_ok, pure_eq_ok, Except.ok.injEq,
    Option.filter_eq_some_iff, decide_eq_true_eq]
  constructor
  · rintro ⟨rebuilt, -, hcount, trees, htrees, seen, hfold, -⟩
    exact ⟨hcount, trees, htrees, foldlM_rebuildRange_iff.mp ⟨seen, hfold⟩⟩
  · rintro ⟨hcount, trees, htrees, hranges⟩
    obtain ⟨seen, hfold⟩ : ∃ seen, (epoch.entries.zip blobs).foldlM rebuildRange
        ⟨epoch.startLink, trees, start, [], []⟩ = .ok seen := foldlM_rebuildRange_iff.mpr hranges
    exact ⟨_, (), hcount, trees, htrees, seen, hfold, rfl⟩

end EpochProof

/-! ## Filler and replica -/

section

open RangeMetaFiller

variable [NoteTrees ν] {chain nodeChain : List CompactBlockRecord} {start : Nat} {w : World ν}
  {root : Pool → Nat → ν}

/-- The list of the filler is the one of a rebuild, when the node has the roots of the trees. -/
theorem subtreeList_perm (hsizes : TrueSizes chain) (hlength : start + rangeSize ≤ chain.length)
    {trees trees' : Trees ν} {completed : List (SubtreeRoot ν)}
    (hstart : ∀ pool, (trees.of pool).length = poolSize chain pool start)
    (happends : trees.Appends ((chain.drop start).take rangeSize) trees' completed)
    (hsmall : ∀ record ∈ chain, ∀ pool, (record.noteCommitments pool).length ≤ subtreeLeafCount)
    (hroot : ∀ pool index, index < (trees'.of pool).length / subtreeLeafCount →
      root pool index = Trees.subtreeRoot pool (trees'.of pool) index) :
    (subtreeList root chain start).Perm completed := by
  have hend : ∀ pool, (trees'.of pool).length = poolSize chain pool (start + rangeSize) := by
    intro pool
    rw [happends.extends.length, hstart, poolSize, poolSize, List.take_add, noteCommitments_append,
      List.length_append]
  rw [List.perm_ext_iff_of_nodup nodup_subtreeList happends.nodup.1]
  intro subtree
  rw [mem_subtreeList hsizes hlength, completedIn_iff, ← hstart, ← hend, and_assoc,
    happends.mem_iff fun record hmem =>
      hsmall record (List.mem_of_mem_drop (List.mem_of_mem_take hmem))]
  refine and_congr_right fun _ => and_congr_right fun hlt => ?_
  rw [hroot _ _ hlt]

/-- The filler lists for a sealed range exactly the subtrees whose last leaf a block of the range
    appends, in the order of their index in each pool. What it asks for over consecutive ranges
    covers the complete subtrees, each once. A rebuild accepts the permutations of the subtrees
    that its own appends complete in a range, and the list of the filler is one. -/
theorem subtree_lists_agree [DecidableEq ν] [Proto.Prost] [Blake3] {heightOf : HeightOf}
    {st : IndexState} (h : Represents heightOf w.index st chain) (hsizes : TrueSizes chain)
    (hnodeChain : chain.take st.sealedEnd <+: nodeChain)
    (hnode : w.node.AnswersFrom nodeChain root) :
    (∀ start, start % rangeSize = 0 → start < st.sealedEnd → ∃ roots,
      (RangeRead.read start >>= subtreeRoots : Fill ν _).run w = (.ok roots, w) ∧
      (∀ subtree, subtree ∈ roots ↔
        CompletedIn chain subtree.root.pool subtree.index.val start ∧
          subtree.root.node = root subtree.root.pool subtree.index.val) ∧
      (∀ pool, ((roots.filter (·.root.pool = pool)).map (·.index.val)).Pairwise (· < ·)) ∧
      ∀ (trees trees' : Trees ν) (completed : List (SubtreeRoot ν)),
        (∀ pool, (trees.of pool).length = poolSize chain pool start) →
        trees.Appends ((chain.drop start).take rangeSize) trees' completed →
        (∀ record ∈ chain, ∀ pool, (record.noteCommitments pool).length ≤ subtreeLeafCount) →
        (∀ pool index, index < (trees'.of pool).length / subtreeLeafCount →
          root pool index = Trees.subtreeRoot pool (trees'.of pool) index) →
        roots.Perm completed) ∧
    (∀ n, n * rangeSize ≤ st.sealedEnd → ∃ reads : Fin n → RangeRead,
      (∀ i, (RangeRead.read (i.val * rangeSize) : Fill ν _).run w = (.ok (reads i), w)) ∧
      ∀ pool, (List.finRange n).flatMap (fun i => (reads i).requested pool) =
        List.range (SubtreeSpan.index ((treeSizesBefore chain (n * rangeSize)).of pool))) ∧
    ∀ (epoch : Manifest.Epoch ν) (blobs : List Bytes) (frontiers : Frontiers),
      (∃ rebuilt, EpochProof.rebuildRanges epoch blobs frontiers = .ok rebuilt) ↔
        blobs.length = epoch.entries.length ∧ ∃ trees : Trees ν,
          (Trees.ofFrontiers frontiers = some trees ∧
            trees.haveSizes epoch.startLink.endTreeSizes) ∧
          EpochProof.Rebuilds epoch.startLink trees frontiers (epoch.entries.zip blobs) := by
  refine ⟨fun start haligned hsealed => ?_, fun n hn => ?_, fun _ _ _ =>
    EpochProof.rebuildRanges_iff⟩
  · have hend : start + rangeSize ≤ st.sealedEnd := by
      have := h.holds.sealed_aligned
      simp only [rangeSize] at *
      omega
    have hlength := hend.trans h.holds.sealed_le
    refine ⟨_, run_read_subtreeRoots h hsizes haligned hsealed
      ((List.take_prefix_take_left hend).trans hnodeChain) hnode,
      fun subtree => mem_subtreeList hsizes hlength, ?_, ?_⟩
    · intro pool
      rw [indices_subtreeList, requested, SubtreeSpan.indices_eq]
      exact List.pairwise_lt_range'
    · intro trees trees' completed hstart happends hsmall hroot
      exact subtreeList_perm hsizes hlength hstart happends hsmall hroot
  · have hread : ∀ i : Fin n, ∃ read : RangeRead,
        (RangeRead.read (i.val * rangeSize) : Fill ν _).run w = (.ok read, w) ∧
        ∀ pool, read.requested pool = requested chain pool (i.val * rangeSize) := by
      intro i
      exact run_read_requested h (Nat.mul_mod_left _ _)
        (lt_of_lt_of_le (Nat.mul_lt_mul_of_pos_right i.isLt (by decide)) hn)
    choose reads hreads hrequested using hread
    refine ⟨reads, hreads, fun pool => ?_⟩
    rw [← requested_ranges hsizes pool (hn.trans h.holds.sealed_le),
      ← List.map_coe_finRange_eq_range, List.flatMap_map]
    simp only [hrequested]

end

section

open RangeMetaFiller

attribute [local instance] Proto.wireDecoder zeroDigest unitTrees

theorem length_noteCommitments_busyRecord (height : Nat) (pool : Pool) :
    ((busyRecord height).noteCommitments pool).length =
      pool.select (if 0 < height ∧ height < 1000 then 1002 else 0) 0 0 := by
  have houtputs : busyTransaction.saplingOutputs.length = 1002 := List.length_replicate
  by_cases h : 0 < height ∧ height < 1000
  · have htransactions : (busyRecord height).transactions = [busyTransaction] := if_pos h
    rw [if_pos h]
    cases pool with
    | sapling => simp [CompactBlockRecord.noteCommitments, htransactions, Pool.select, houtputs]
    | orchard => rw [CompactBlockRecord.noteCommitments, htransactions]; rfl
    | ironwood => rw [CompactBlockRecord.noteCommitments, htransactions]; rfl
  · have htransactions : (busyRecord height).transactions = [] := if_neg h
    rw [if_neg h]
    cases pool <;> simp [CompactBlockRecord.noteCommitments, htransactions, Pool.select]

theorem poolSize_busyRecords {height : Nat} (h : height ≤ 3000) (pool : Pool) :
    poolSize busyRecords pool height = pool.select (min (height - 1) 999 * 1002) 0 0 := by
  induction height with
  | zero => cases pool <;> rfl
  | succ height ih =>
    rw [poolSize_succ (busyRecords_getElem? h), ih (Nat.le_of_lt h),
      length_noteCommitments_busyRecord]
    cases pool with
    | sapling =>
      simp only [Pool.select]
      split <;> omega
    | orchard => rfl
    | ironwood => rfl

theorem trueSizes_busyRecords : TrueSizes busyRecords := by
  intro height record hget pool
  have hlt : height < 3000 := by
    have := (List.getElem?_eq_some_iff.mp hget).1
    rwa [busyRecords, List.length_map, List.length_range] at this
  obtain rfl := Option.some.inj ((busyRecords_getElem? hlt).symm.trans hget)
  rw [poolSize_busyRecords hlt]
  cases pool with
  | sapling => exact busyRecord_sizes height
  | orchard => rfl
  | ironwood => rfl

/-- The range 0 of the branch completes 15 Sapling subtrees. -/
theorem subtree_lists_agree_busy : ∃ (w : World Unit) (st : IndexState)
    (roots : List (SubtreeRoot Unit)), Represents plainHeight w.index st busyRecords ∧
      st.sealedEnd = 3000 ∧ TrueSizes busyRecords ∧
      w.node.AnswersFrom busyRecords (fun _ _ => ()) ∧
      (RangeRead.read 0 >>= subtreeRoots : Fill Unit _).run w = (.ok roots, w) ∧
      ∀ index, (⟨index, .sapling, ()⟩ : SubtreeRoot Unit) ∈ roots ↔ index.val < 15 := by
  obtain ⟨w, st, -, -, hbranch, -⟩ := stale_row
  have hlength : busyRecords.length = 3000 := by
    rw [busyRecords, List.length_map, List.length_range]
  have hindices : ∀ pool,
      poolSize busyRecords pool busyRecords.length / subtreeLeafCount ≤ 65536 := by
    intro pool
    rw [hlength, poolSize_busyRecords le_rfl]
    cases pool <;> decide
  obtain ⟨node, hnode⟩ := StateBackend.exists_answersFrom hindices fun _ _ => ()
  have hrep : Represents plainHeight ({ w with node } : World Unit).index st busyRecords :=
    hbranch.represents
  obtain ⟨hrange, -, -⟩ := subtree_lists_agree hrep trueSizes_busyRecords
    ⟨_, List.take_append_drop _ _⟩ hnode
  obtain ⟨roots, hrun, hmem, -⟩ := hrange 0 rfl (by rw [hbranch.sealedEnd]; decide)
  refine ⟨_, st, roots, hrep, hbranch.sealedEnd, trueSizes_busyRecords, hnode, hrun, ?_⟩
  intro index
  rw [hmem, completedIn_iff, poolSize_busyRecords (by decide), poolSize_busyRecords (by decide)]
  simp [Pool.select, subtreeLeafCount, subtreeHeight, rangeSize]

end

end Ztreamer
