import Ztreamer.Import.Replica
import Ztreamer.Sync.Preparation

/-! # Tree sizes by block hash

    A block hash determines its parsed block, and so its ancestors and the tree
    sizes at its end. A builder, a reorg replacement and a checked range each carry
    tree sizes from a place where they were read once. They stay right because they
    are carried together with the hash of the block that they belong to.

    * `BlockWorld`: the blocks by their hashes,
    * `BlockWorld.Ends`: the tree sizes at the end of a block, from its ancestors,
    * `BlockWorld.Exact`: a record with the tree sizes of its block,
    * `OrderedBuilder.Stands`: what a builder carries belongs together.
-/

namespace Ztreamer

open Octets Result Connected

variable {ν : Type}

/-! ## Blocks and their ends -/

/-- The blocks by their hashes. The parent hash of a genesis block is not the hash of
    a block. -/
structure BlockWorld where
  blockOf : Hash → Option ParsedCompactBlock
  parsed : ∀ hash p, blockOf hash = some p → p.hash = hash ∧ ∃ raw, parseBlock raw = .ok p
  genesis : blockOf genesisPreviousBlockHash = none

namespace BlockWorld

variable {world : BlockWorld}

/-- The block with the hash of `p` is `p`. -/
def Has (world : BlockWorld) (p : ParsedCompactBlock) : Prop := world.blockOf p.hash = some p

/-- `r` is the record of the block with its hash, with some tree sizes. -/
def Records (world : BlockWorld) (r : CompactBlockRecord) : Prop :=
  ∃ p, world.blockOf r.hash = some p ∧ p.toRecord r.endTreeSizes = r

/-- `link` is the end of a chain of `n` blocks: the hash of its last block, and the
    sum of the additions of all of them. -/
inductive Ends (world : BlockWorld) : RangeLink → Nat → Prop where
  | genesis : Ends world .genesis 0
  | block {link : RangeLink} {n : Nat} {p : ParsedCompactBlock} {sizes : TreeSizes} :
      Ends world link n → world.Has p → p.height.val = n →
      (n ≠ 0 → p.previousHash = link.endHash) →
      link.endTreeSizes.checkedAdd p.additions = some sizes → Ends world ⟨p.hash, sizes⟩ (n + 1)

variable {link : RangeLink} {r : CompactBlockRecord}

theorem Ends.eq_genesis (h : world.Ends link 0) : link = .genesis := by
  cases h
  rfl

/-- A hash has one end. -/
theorem Ends.unique {link' : RangeLink} {n n' : Nat} (h : world.Ends link n)
    (h' : world.Ends link' n') (hhash : link.endHash = link'.endHash) : n = n' ∧ link = link' := by
  induction h generalizing link' n' with
  | genesis =>
    cases h' with
    | genesis => exact ⟨rfl, rfl⟩
    | block _ hp =>
      have hnone := world.genesis
      rw [show genesisPreviousBlockHash = _ from hhash] at hnone
      rw [Has, hnone] at hp
      cases hp
  | @block link n p sizes hends₀ hp hheight hprevious hadd ih =>
    cases h' with
    | genesis =>
      have hnone := world.genesis
      rw [show genesisPreviousBlockHash = _ from hhash.symm] at hnone
      rw [Has, hnone] at hp
      cases hp
    | @block link' n' p' sizes' hends hp' hheight' hprevious' hadd' =>
      -- the two blocks have one hash
      have hsame : p.hash = p'.hash := hhash
      rw [Has, hsame] at hp
      obtain rfl : p = p' := Option.some.inj (hp.symm.trans hp')
      obtain rfl : n = n' := hheight.symm.trans hheight'
      have hlink : link = link' := by
        by_cases hzero : n = 0
        · subst hzero
          exact hends₀.eq_genesis.trans hends.eq_genesis.symm
        · exact (ih hends ((hprevious hzero).symm.trans (hprevious' hzero))).2
      rw [← hlink, hadd] at hadd'
      rw [Option.some.inj hadd']
      exact ⟨rfl, rfl⟩

/-! ## Exact records -/

/-- The record of a block, with the tree sizes at the end of the block. -/
structure Exact (world : BlockWorld) (r : CompactBlockRecord) : Prop where
  records : world.Records r
  ends : world.Ends (.ofRecord r) (r.height.val + 1)

theorem Records.additions {p : ParsedCompactBlock} (h : world.Records r) (hp : world.Has p)
    (hhash : p.hash = r.hash) : p.toRecord r.endTreeSizes = r ∧ r.additions = p.additions := by
  obtain ⟨p', hp', hrecord⟩ := h
  rw [← hhash, hp] at hp'
  obtain rfl := Option.some.inj hp'
  obtain ⟨-, raw, hparse⟩ := world.parsed _ _ hp
  have hadditions := parseBlock_additions hparse r.endTreeSizes
  rw [hrecord] at hadditions
  exact ⟨hrecord, hadditions⟩

/-- A record whose additions are added to the end below it is exact. -/
theorem Ends.exact (h : world.Ends link r.height.val) (hrecords : world.Records r)
    (hprevious : r.height.val ≠ 0 → r.previousHash = link.endHash)
    (hadd : link.endTreeSizes.checkedAdd r.additions = some r.endTreeSizes) : world.Exact r := by
  obtain ⟨p, hp, hrecord⟩ := hrecords
  have hhash := (world.parsed _ _ hp).1
  have hhas : world.Has p := by
    rw [Has, hhash]
    exact hp
  rw [(Records.additions ⟨p, hp, hrecord⟩ hhas hhash).2] at hadd
  have hheight : p.height = r.height := by rw [← hrecord]; rfl
  have hparent : p.previousHash = r.previousHash := by rw [← hrecord]; rfl
  refine ⟨⟨p, hp, hrecord⟩, ?_⟩
  have hends := Ends.block h hhas (congrArg Fin.val hheight)
    (fun hzero => hparent.trans (hprevious hzero)) hadd
  rw [hhash] at hends
  exact hends

theorem Exact.below (h : world.Exact r) :
    ∃ link, world.Ends link r.height.val ∧
      (r.height.val ≠ 0 → r.previousHash = link.endHash) ∧
      link.endTreeSizes.checkedAdd r.additions = some r.endTreeSizes := by
  have hends := h.ends
  generalize hlink : RangeLink.ofRecord r = link at hends
  cases hends with
  | @block link n p sizes hends hp hheight hprevious hadd =>
    rw [RangeLink.ofRecord, RangeLink.mk.injEq] at hlink
    obtain ⟨hrecord, hadditions⟩ := h.records.additions hp hlink.1.symm
    have hparent : p.previousHash = r.previousHash := by rw [← hrecord]; rfl
    exact ⟨link, hends, fun hzero => hparent ▸ hprevious hzero, by rw [hadditions, hadd, hlink.2]⟩

section

variable {chain : List CompactBlockRecord}

theorem ends_after (hconnected : Connected .any chain) (hexact : ∀ r ∈ chain, world.Exact r) :
    world.Ends (RangeLink.genesis.after chain) chain.length := by
  unfold RangeLink.after
  cases hlast : chain.getLast? with
  | none =>
    rw [List.getLast?_eq_none_iff.mp hlast]
    exact .genesis
  | some last =>
    rw [← hconnected.getLast_height hlast]
    exact (hexact last (List.mem_of_getLast? hlast)).ends

/-- In a chain of exact records each adds to the one below it. -/
theorem exactFrom_chain (hconnected : Connected .any chain) (hexact : ∀ r ∈ chain, world.Exact r)
    {i : Nat} (hr : chain[i]? = some r) :
    (RangeLink.genesis.after (chain.take i)).endTreeSizes.checkedAdd r.additions =
      some r.endTreeSizes := by
  have hlt := (List.getElem?_eq_some_iff.mp hr).1
  have hheight := hconnected.height_eq hr
  obtain ⟨link, hends, hprevious, hadd⟩ := (hexact r (List.mem_of_getElem? hr)).below
  rw [hheight] at hends hprevious
  have hbelow := ends_after (hconnected.take i) fun r hr => hexact r (List.mem_of_mem_take hr)
  rw [List.length_take, Nat.min_eq_left (by omega)] at hbelow
  have hsame : link = RangeLink.genesis.after (chain.take i) := by
    by_cases hzero : i = 0
    · subst hzero
      rw [hends.eq_genesis, hbelow.eq_genesis]
    · apply (hends.unique hbelow ?_).2
      -- both are the hash of the record below
      obtain ⟨below, hget⟩ : ∃ below, chain[i - 1]? = some below :=
        ⟨_, List.getElem?_eq_getElem (by omega)⟩
      have hlink := (List.isChain_iff_getElem.mp hconnected.isChain (i - 1) (by omega)).2
      have htake := getLast?_take_succ hget
      obtain ⟨_, rfl⟩ := List.getElem?_eq_some_iff.mp hget
      obtain ⟨_, rfl⟩ := List.getElem?_eq_some_iff.mp hr
      simp only [Nat.sub_add_cancel (Nat.pos_of_ne_zero hzero)] at hlink htake
      rw [← hprevious hzero, hlink, RangeLink.after, htake]
      rfl
  rw [← hsame]
  exact hadd

end

end BlockWorld

/-! ## Builders -/

/-- The tip of the state is the end of the blocks below its next height. -/
def IndexState.Stands (world : BlockWorld) (st : IndexState) : Prop :=
  ∀ height, st.nextHeight = some height → world.Ends st.tipLink height

/-- The hash and the tree sizes that a builder carries are those of one block. -/
structure OrderedBuilder.Stands (world : BlockWorld) (b : OrderedBuilder) : Prop where
  keyed : b.Keyed
  pends : b.Pends world.Has
  ends : world.Ends ⟨b.previousHash.getD genesisPreviousBlockHash, b.treeSizes⟩ b.nextHeight
  start : b.previousHash = none → b.nextHeight = 0

namespace OrderedBuilder

variable {world : BlockWorld} {b b' : OrderedBuilder}

variable {block : ParsedCompactBlock} {blocks : List ParsedCompactBlock}
  {records : List CompactBlockRecord} {maxBatchBytes : Nat} {st : IndexState}

section

variable (hb : b.Stands world)

include hb

/-- A taken block gives an exact record. -/
theorem Stands.takeNext {bytes : Nat} {record : CompactBlockRecord}
    (hget : b.pending[b.nextHeight]? = some (block, bytes))
    (h : b.takeNext block bytes = .ok (b', record)) : b'.Stands world ∧ world.Exact record := by
  have hkeyed := hb.keyed.takeNext h
  have hpends := hb.pends.takeNext h
  have hheight := hb.keyed _ _ _ hget
  have hhas := hb.pends _ _ _ hget
  obtain ⟨hparent, hinto, -, rfl⟩ := takeNext_eq_ok.mp h
  obtain ⟨sizes, hadd, rfl⟩ := ParsedCompactBlock.intoRecord_eq_some.mp hinto
  have hends : world.Ends ⟨block.hash, sizes⟩ (b.nextHeight + 1) := by
    apply hb.ends.block hhas hheight _ hadd
    intro hzero
    cases hprevious : b.previousHash with
    | none => exact absurd (hb.start hprevious) hzero
    | some previous => exact hparent previous hprevious
  refine ⟨⟨hkeyed, hpends, hends, fun hnone => by cases hnone⟩, ⟨block, hhas, rfl⟩, ?_⟩
  show world.Ends ⟨block.hash, sizes⟩ (block.height.val + 1)
  rw [hheight]
  exact hends

theorem Stands.takes (h : Takes b blocks records b') :
    b'.Stands world ∧ ∀ r ∈ records, world.Exact r := by
  induction h with
  | nil => exact ⟨hb, by simp⟩
  | cons hget hnext _ ih =>
    obtain ⟨hb₁, hrecord⟩ := hb.takeNext hget hnext
    obtain ⟨hb₂, hrecords⟩ := ih hb₁
    exact ⟨hb₂, List.forall_mem_cons.mpr ⟨hrecord, hrecords⟩⟩

theorem Stands.buildBatch {durableThrough sealThrough : Option Nat} {batch : Option WriteBatch}
    (h : b.buildBatch durableThrough sealThrough maxBatchBytes = .ok (b', batch)) :
    b'.Stands world ∧ ∀ made ∈ batch, ∀ r ∈ made.records, world.Exact r := by
  cases batch with
  | none =>
    rw [buildBatch_eq_none h]
    exact ⟨hb, by simp⟩
  | some batch =>
    obtain ⟨blocks, b₁, htakes, -, -, -, rfl⟩ := buildBatch_eq_some h
    obtain ⟨hb₁, hrecords⟩ := hb.takes htakes
    refine ⟨⟨hb₁.keyed, hb₁.pends, hb₁.ends, hb₁.start⟩, ?_⟩
    intro made hmade
    cases hmade
    exact hrecords

theorem Stands.push (hblock : world.Has block) (h : b.push block = .ok b') :
    b'.Stands world := by
  obtain ⟨-, hheight, hprevious, hsizes, -⟩ := push_eq_ok h
  refine ⟨hb.keyed.push h, hb.pends.push (fun _ _ => hblock) h, ?_, ?_⟩
  · rw [hheight, hprevious, hsizes]
    exact hb.ends
  · rw [hheight, hprevious]
    exact hb.start

theorem Stands.foldlM_push (hblocks : ∀ block ∈ blocks, world.Has block)
    (h : blocks.foldlM OrderedBuilder.push b = .ok b') : b'.Stands world := by
  induction blocks generalizing b with
  | nil =>
    cases h
    exact hb
  | cons block blocks ih =>
    rw [List.foldlM_cons, bind_eq_ok] at h
    obtain ⟨b₁, hpush, h⟩ := h
    rw [List.forall_mem_cons] at hblocks
    exact ih (hb.push hblocks.1 hpush) hblocks.2 h

end

theorem stands_new {maxPendingBytes : Nat} (hst : st.Stands world)
    (h : new st maxPendingBytes = .ok b) : b.Stands world := by
  have hkeyed : b.Keyed := .new h
  have hpends : b.Pends world.Has := .new h
  simp only [OrderedBuilder.new, bind_eq_ok, okOr_eq_ok, pure_eq_ok, Except.ok.injEq] at h
  obtain ⟨height, hheight, rfl⟩ := h
  refine ⟨hkeyed, hpends, ?_, ?_⟩
  · have hends := hst height hheight
    unfold IndexState.tipLink IndexState.installParentHash at hends
    cases htip : st.durableTip with
    | none =>
      rw [htip] at hends
      exact hends
    | some tip =>
      rw [htip] at hends
      exact hends
  · intro hnone
    have htip : st.durableTip = none := by simpa using hnone
    rw [IndexState.nextHeight, htip] at hheight
    exact (Option.some.inj hheight).symm

theorem FedFrom.stands (hst : st.Stands world) (h : FedFrom world.Has st b) : b.Stands world := by
  induction h with
  | new h => exact stands_new hst h
  | push _ hblock h ih => exact ih.push hblock h
  | build _ _ _ _ h ih => exact (ih.buildBatch h).1

/-- The records that a builder drains are exact. -/
theorem Stands.drainRecords {through : Nat} (hb : b.Stands world)
    (h : b.drainRecords through maxBatchBytes = .ok (b', records)) :
    ∀ r ∈ records, world.Exact r := by
  induction hn : 2 ^ 32 - b.nextHeight using Nat.strong_induction_on generalizing b records with
  | _ n ih =>
    rw [OrderedBuilder.drainRecords] at h
    split at h
    · cases h
    · cases h
      simp
    case h_3 b₁ batch hbatch =>
      obtain ⟨⟨b₂, rest⟩, hrest, h⟩ := bind_eq_ok.mp h
      cases h
      obtain ⟨hb₁, hrecords⟩ := hb.buildBatch hbatch
      have hmove := buildBatch_nextHeight hbatch
      have hexact := ih (2 ^ 32 - b₁.nextHeight) (by omega) hb₁ hrest rfl
      intro r hr
      rcases List.mem_append.mp hr with hr | hr
      · exact hrecords batch rfl r hr
      · exact hexact r hr

end OrderedBuilder

/-- The records built on an exact block are exact. -/
theorem buildRecords_exact {world : BlockWorld} {st : IndexState} {base : CompactBlockRecord}
    {blocks : List ParsedCompactBlock} {visibleTip : Nat} {config : PipelineConfig}
    {records : List CompactBlockRecord} (hbase : world.Exact base)
    (hblocks : ∀ block ∈ blocks, world.Has block)
    (h : buildRecords st base.blockId base.endTreeSizes blocks visibleTip config = .ok records) :
    ∀ r ∈ records, world.Exact r := by
  simp only [buildRecords, bind_eq_ok, pure_eq_ok, Except.ok.injEq, Prod.exists] at h
  obtain ⟨b, hnew, b₁, hpush, b₂, _, hdrain, rfl⟩ := h
  have hst : (st.withDurableTip base.blockId base.endTreeSizes).Stands world := by
    intro height hheight
    simp only [IndexState.nextHeight, IndexState.withDurableTip, CompactBlockRecord.blockId]
      at hheight
    split at hheight
    · rw [← Option.some.inj hheight]
      exact hbase.ends
    · cases hheight
  exact ((OrderedBuilder.stands_new hst hnew).foldlM_push hblocks hpush).drainRecords hdrain

/-! ## Reorg replacements -/

section

variable [Proto.Prost] {world : BlockWorld} {s : Store ν} {st : IndexState}
  {chain head : List CompactBlockRecord}

/-- The store represents a chain of exact records. -/
structure Store.HoldsExact (world : BlockWorld) (s : Store ν) (st : IndexState)
    (chain : List CompactBlockRecord) : Prop where
  represents : Represents .any s st chain
  exact : ∀ r ∈ chain, world.Exact r

namespace Store.HoldsExact

theorem ends (h : s.HoldsExact world st chain) : world.Ends st.tipLink chain.length := by
  rw [h.represents.describes.tipLink]
  exact BlockWorld.ends_after h.represents.connected h.exact

theorem stands (h : s.HoldsExact world st chain) : st.Stands world := by
  intro height hheight
  rw [((h.represents.describes.nextHeight_eq_some h.represents.connected).mp hheight).1]
  exact h.ends

variable (h : s.HoldsExact world st chain) (hhead : ∀ r ∈ head, world.Exact r)

include h hhead

variable {height : Nat} {r : CompactBlockRecord} {poll : Poll} {config : PipelineConfig}

/-- A record of the current chain is exact. The head need not continue the chain:
    another writer can have moved the tip. -/
theorem currentRecord (hr : Ztreamer.currentRecord s st head height = .ok (some r)) :
    world.Exact r ∧ r.height.val = height := by
  unfold Ztreamer.currentRecord at hr
  split at hr
  · simp only [h.represents.snapshot, ok_bind, bind_eq_ok, pure_eq_ok, Except.ok.injEq,
      Option.some.injEq] at hr
    obtain ⟨_, hread, rfl⟩ := hr
    have hget := h.represents.read_eq_ok hread
    exact ⟨h.exact _ (List.mem_of_getElem? hget), h.represents.connected.height_eq hget⟩
  · rw [pure_eq_ok, Except.ok.injEq] at hr
    have hheight := List.find?_some hr
    exact ⟨hhead r (List.mem_of_find?_eq_some hr), by simpa using hheight⟩

theorem requireRecord (hr : Ztreamer.requireRecord s st head height = .ok r) :
    world.Exact r ∧ r.height.val = height := by
  simp only [Ztreamer.requireRecord, bind_eq_ok, okOr_eq_ok] at hr
  obtain ⟨_, hcurrent, rfl⟩ := hr
  exact h.currentRecord hhead hcurrent

/-- The records that a reconciliation keeps and builds are exact. -/
theorem prepareReplacement (hpoll : poll.RetainsKnown)
    (hblocks : ∀ start previousHash known suffix, poll start previousHash known = .ok suffix →
      ∀ block ∈ suffix.blocks, world.Has block) {oldVisibleTip : Nat} {r : Replacement}
    (hprepare : Ztreamer.prepareReplacement s poll head config oldVisibleTip = .ok r) :
    r.state = st ∧ ∀ record ∈ r.canonical, world.Exact record := by
  obtain ⟨rfl, c, blocks, kept, records, hprepared⟩ := prepareReplacement_eq_ok
    (fun _ _ hr => (h.currentRecord hhead hr).2) h.represents.state hpoll hprepare
  obtain ⟨_, _, _, _, hpolled, hmem⟩ := hprepared.polled
  refine ⟨rfl, ?_⟩
  intro record hrecord
  rw [hprepared.canonical] at hrecord
  rcases List.mem_append.mp hrecord with hrecord | hrecord
  · obtain ⟨i, hi⟩ := List.mem_iff_getElem?.mp hrecord
    obtain ⟨height, -, hread⟩ := forall₂_getElem? (mapM_eq_ok.mp hprepared.read).flip hi
    exact (h.requireRecord hhead hread).1
  · exact buildRecords_exact (h.currentRecord hhead hprepared.current).1
      (fun block hblock => hblocks _ _ _ _ hpolled block (hmem block hblock)) hprepared.built
      record hrecord

/-- The records that a recovery builds are exact. -/
theorem prepareRecovery {block : Nat → Except HeadError (Option RawIndexBlock)}
    (hblocks : ∀ start previousHash known suffix, poll start previousHash known = .ok suffix →
      ∀ block ∈ suffix.blocks, world.Has block) {r : Recovery}
    (hprepare : Ztreamer.prepareRecovery s block poll head config = .ok r) :
    r.state = st ∧ ∀ record ∈ r.canonical, world.Exact record := by
  simp only [Ztreamer.prepareRecovery, bind_eq_ok, okMapError_eq_ok, pure_eq_ok,
    Except.ok.injEq] at hprepare
  obtain ⟨plan, hplan, canonical, hrecords, rfl⟩ := hprepare
  obtain ⟨hst, hcommon, prepared, hpoll, hprepared⟩ := planRecovery_eq_ok hplan
  obtain rfl : st = plan.state := Except.ok.inj (h.represents.state.symm.trans hst)
  rw [← hprepared] at hrecords
  exact ⟨rfl, buildRecords_exact (h.currentRecord hhead hcommon).1 (hblocks _ _ _ _ hpoll) hrecords⟩

end Store.HoldsExact

end

end Ztreamer
