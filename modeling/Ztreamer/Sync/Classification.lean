import Ztreamer.Sync.Agreement

/-! # Runs of head sync, and deep reorgs

    A follower calls `syncHeadOnce` again and again, each time with the head that
    the last successful call gave. Between two calls the node may change to any
    other chain. In every state of such a run the index and the head are one
    chain (`HeadRun.follows`).

    A call polls from `sealDepth` below the visible tip, but the ranges were
    sealed below an older tip, which may have been higher. While the anchor is
    not below the seal, a reorg below the seal is a deep reorg
    (`syncHeadOnce_classifies`). After the chain got shorter it is not
    (`syncHeadOnce_sealed_of_shorter`).
-/

namespace Ztreamer

open Octets Result Connected

variable {ν : Type}

/-- What a follower has between two calls. -/
structure FollowerState (ν : Type) where
  store : Store ν
  head : List CompactBlockRecord

/-- One call: the chain of the node during it, what the node answers, and the budgets. -/
structure HeadCall where
  blocks : List RawIndexBlock
  src : CanonicalBlockSource
  config : PipelineConfig

/-- The chains that the node can have. A hash determines a block, and its height. -/
structure World (heightOf : Hash → Nat) (chains : Set (List RawIndexBlock)) : Prop where
  node : ∀ blocks ∈ chains, ∃ parsed records, NodeChain heightOf blocks parsed records
  noCollision : ∀ as ∈ chains, ∀ bs ∈ chains, NoCollision as bs

/-- A hash determines a block of the chains and of their parts. -/
theorem World.noCollision_take {heightOf : Hash → Nat} {chains : Set (List RawIndexBlock)}
    (world : World heightOf chains) {cur blocks : List RawIndexBlock}
    (hcur : cur = [] ∨ ∃ blocks ∈ chains, ∃ n, cur = blocks.take n) (hmem : blocks ∈ chains) :
    NoCollision cur blocks := by
  rcases hcur with rfl | ⟨whole, hwhole, n, rfl⟩
  · intro a ha
    cases ha
  · intro a ha b hb
    exact world.noCollision whole hwhole blocks hmem a (List.mem_of_mem_take ha) b hb

/-- The node has one of the chains during the call. -/
def HeadCall.Of (chains : Set (List RawIndexBlock)) (c : HeadCall) : Prop :=
  c.blocks ∈ chains ∧ c.src.Serves c.blocks

/-! ## Chains of empty blocks -/

/-- The chains of empty blocks that share the genesis block. -/
def plainChains : Set (List RawIndexBlock) :=
  { blocks | ∃ fork n, 0 < fork ∧ n ≤ 2 ^ 31 ∧ blocks = plainBlocks fork n }

theorem plainChains_world : World plainHeight plainChains where
  node := by
    rintro _ ⟨fork, n, -, hn, rfl⟩
    exact ⟨_, _, plainBlocks_nodeChain fork hn⟩
  noCollision := by
    rintro _ ⟨fork, n, -, hn, rfl⟩ _ ⟨fork', n', -, hn', rfl⟩
    exact branchBlocks_noCollision (by omega) (by omega)

/-- A call to a node with a chain of empty blocks, with the default budgets. -/
def plainCall (fork n : Nat) : HeadCall :=
  ⟨plainBlocks fork n, .ofBlocks (plainBlocks fork n), .ofParallelism 8⟩

theorem plainCall_of {fork n : Nat} (hfork : 0 < fork) (hn : n ≤ 2 ^ 31) :
    (plainCall fork n).Of plainChains :=
  ⟨⟨fork, n, hfork, hn, rfl⟩, CanonicalBlockSource.ofBlocks_serves _⟩

/-! ## Runs -/

section

variable [Proto.Prost]

namespace FollowerState

def call (f : FollowerState ν) (c : HeadCall) : HeadResult ν :=
  syncHeadOnce f.store c.src f.head c.config

/-- The state after a call. A failed call leaves the head, and the batches that it wrote. -/
def after (f : FollowerState ν) (c : HeadCall) : FollowerState ν where
  store := (f.call c).1
  head := match (f.call c).2 with
    | .ok (_, head) => head
    | .error _ => f.head

theorem after_of_ok {f : FollowerState ν} {c : HeadCall} {s : Store ν} {st : IndexState}
    {head : List CompactBlockRecord} (h : f.call c = (s, .ok (st, head))) :
    f.after c = ⟨s, head⟩ := by
  unfold after
  rw [h]

theorem after_of_error {f : FollowerState ν} {c : HeadCall} {s : Store ν} {e : HeadSyncError}
    (h : f.call c = (s, .error e)) : f.after c = ⟨s, f.head⟩ := by
  unfold after
  rw [h]

end FollowerState

/-- The states that calls reach from an empty index, each call as `Allowed` permits. -/
inductive HeadRun (Allowed : FollowerState ν → HeadCall → Prop) : FollowerState ν → Prop where
  | start : HeadRun Allowed ⟨Store.empty, []⟩
  | call {f : FollowerState ν} (c : HeadCall) : HeadRun Allowed f → Allowed f c →
      HeadRun Allowed (f.after c)

variable {heightOf : Hash → Nat} {chains : Set (List RawIndexBlock)} {f : FollowerState ν}
  {s : Store ν} {st : IndexState} {durable head : List CompactBlockRecord}
  {cur blocks : List RawIndexBlock} {parsed : List ParsedCompactBlock}
  {records : List CompactBlockRecord} {c : HeadCall}
  {Allowed : FollowerState ν → HeadCall → Prop} {n m n' : Nat}

/-! ## What a call leaves -/

/-- What a call does, when the node has the chain of `records`. -/
inductive CallOutcome (heightOf : Hash → Nat) (f : FollowerState ν) (c : HeadCall)
    (durable records : List CompactBlockRecord) : Prop where
  /-- The durable blocks and the head are the chain of the node. -/
  | agrees (s' : Store ν) (st' : IndexState) (n : Nat) :
      f.call c = (s', .ok (st', records.drop n)) → Represents heightOf s' st' (records.take n) →
      CallOutcome heightOf f c durable records
  | keeps (e : HeadSyncError) : f.call c = (f.store, .error e) →
      CallOutcome heightOf f c durable records
  /-- The batches before the one that failed continue the durable blocks. -/
  | continues (s' : Store ν) (e : HeadSyncError) (st' : IndexState) (n : Nat) : f.head = [] →
      f.call c = (s', .error e) → durable <+: records.take n →
      Represents heightOf s' st' (records.take n) → CallOutcome heightOf f c durable records

theorem Follows.callOutcome (h : Follows heightOf f.store st durable f.head cur)
    (hnode : NodeChain heightOf c.blocks parsed records) (hcol : NoCollision cur c.blocks)
    (hserves : c.src.Serves c.blocks) : CallOutcome heightOf f c durable records := by
  by_cases hhead : f.head = []
  case pos =>
    have hext := h
    rw [hhead] at hext
    have hcall : f.call c = syncHeadOnce f.store c.src [] c.config := by
      rw [FollowerState.call, hhead]
    rcases hext.syncHeadOnce_extension hnode hcol hserves c.config with ⟨-, hdeep⟩ |
      ⟨hcommon, s', st', n, hwrote, ⟨⟨e, he, -⟩, -⟩ | ⟨hok, -⟩⟩
    · exact .keeps _ (hcall.trans hdeep)
    · -- the node has all durable blocks
      have hshared := hext.take_common hnode
      rw [List.append_nil, hcommon, List.take_length] at hshared
      refine .continues s' e st' n hhead (hcall.trans he) ?_ hwrote.represents
      rw [hshared]
      exact List.take_prefix_take_left hwrote.le
    · exact .agrees s' st' n (hcall.trans hok) hwrote.represents
  have hlast := List.getLast?_eq_some_getLast hhead
  obtain ⟨hvisible, hcall⟩ := h.syncHeadOnce_of_getLast hserves hlast c.config
  split at hcall
  next htip =>
    have hrecords := h.records_eq_of_tip hnode hcol hserves hlast htip
    refine .agrees f.store st durable.length ?_ ?_
    · rw [← hrecords, List.drop_left]
      exact hcall
    · rw [← hrecords, List.take_left]
      exact h.represents
  have hcall : f.call c = _ := hcall
  -- an anchor that is not common fails the call before anything is written
  by_cases hanchor : cur.length - sealDepth ≤ commonLength cur c.blocks
  case neg =>
    rw [h.replaceSuffix_anchor hnode hcol hserves hvisible (by omega)] at hcall
    exact .keeps _ hcall
  rcases h.replaceSuffix hnode hcol hserves hvisible hanchor c.config with ⟨⟨e, he, -⟩, -⟩ |
    ⟨-, he⟩ | ⟨-, s', st', newTip, newDurable, hok, -, -, -, hrep, -⟩
  · exact .keeps e (by rw [hcall, he]; rfl)
  · exact .keeps _ (by rw [hcall, he]; rfl)
  · exact .agrees s' st' _ (by rw [hcall, hok]; rfl) hrep

/-! ## The chain of a run -/

/-- A part of a node's chain in the index, and the rest of that part as the head. -/
theorem NodeChain.follows (hnode : NodeChain heightOf blocks parsed records)
    (hrep : Represents heightOf s st (records.take n)) :
    Follows heightOf s st (records.take n) (records.drop n) blocks :=
  ⟨hrep, parsed, by rw [List.take_append_drop]; exact hnode⟩

/-- The chain after a call is the old one, or a part of the node's chain. -/
theorem Follows.after (h : Follows heightOf f.store st durable f.head cur)
    (hnode : NodeChain heightOf c.blocks parsed records) (hcol : NoCollision cur c.blocks)
    (hserves : c.src.Serves c.blocks) :
    ∃ st' durable' cur', Follows heightOf (f.after c).store st' durable' (f.after c).head cur' ∧
      (cur' = cur ∨ ∃ n, cur' = c.blocks.take n) := by
  cases h.callOutcome hnode hcol hserves with
  | agrees s' st' n hcall hrep =>
    rw [FollowerState.after_of_ok hcall]
    exact ⟨st', _, c.blocks, hnode.follows hrep, .inr ⟨c.blocks.length, by rw [List.take_length]⟩⟩
  | keeps e hcall =>
    rw [FollowerState.after_of_error hcall]
    exact ⟨st, durable, cur, h, .inl rfl⟩
  | continues s' e st' n hhead hcall _ hrep =>
    rw [FollowerState.after_of_error hcall, hhead]
    refine ⟨st', records.take n, c.blocks.take n, ⟨hrep, parsed.take n, ?_⟩, .inr ⟨n, rfl⟩⟩
    rw [List.append_nil]
    exact hnode.take n

/-- In every state of a run the index and the head are one chain, which is a part
    of a chain of the node. -/
theorem HeadRun.follows (world : World heightOf chains)
    (hallowed : ∀ f c, Allowed f c → c.Of chains) (h : HeadRun Allowed f) :
    ∃ st durable cur, Follows heightOf f.store st durable f.head cur ∧
      (cur = [] ∨ ∃ blocks ∈ chains, ∃ n, cur = blocks.take n) := by
  induction h with
  | start =>
    refine ⟨{}, [], [], ⟨represents_empty, [], ?_⟩, .inl rfl⟩
    exact {
      chain := ⟨by simp, by simp⟩
      parse := rfl
      index := rfl
      size_le := by simp
      heightOf_hash := by simp
      length_le := by simp }
  | call c _ hc ih =>
    obtain ⟨st, durable, cur, hfollows, hcur⟩ := ih
    obtain ⟨hmem, hserves⟩ := hallowed _ c hc
    obtain ⟨parsed, records, hnode⟩ := world.node _ hmem
    have hcol := world.noCollision_take hcur hmem
    obtain ⟨st', durable', cur', hfollows', hcur'⟩ := hfollows.after hnode hcol hserves
    refine ⟨st', durable', cur', hfollows', ?_⟩
    rcases hcur' with rfl | ⟨n, rfl⟩
    · exact hcur
    · exact .inr ⟨c.blocks, hmem, n, rfl⟩

/-! ## Classification -/

/-- The last common block of the current chain and the node's chain is below
    `sealedThrough`: the block at `sealedThrough` is not on the node's chain. -/
def FollowerState.DivergesBelowSeal (f : FollowerState ν) (blocks : List RawIndexBlock) : Prop :=
  ∃ st through r, f.store.getState = .ok st ∧ st.sealedThrough = some through ∧
    currentRecord f.store st f.head through = .ok (some r) ∧ ¬ OnChain blocks r.blockId

/-- There is no head, or the anchor below its tip is not below `sealedThrough`. -/
def FollowerState.AnchorAtSeal (f : FollowerState ν) : Prop :=
  f.head = [] ∨ ∀ st through last, f.store.getState = .ok st → st.sealedThrough = some through →
    f.head.getLast? = some last → through + sealDepth ≤ last.height.val

/-- A call in a state whose anchor is not below the seal. -/
theorem Follows.classifies (h : Follows heightOf f.store st durable f.head cur)
    (hnode : NodeChain heightOf c.blocks parsed records) (hcol : NoCollision cur c.blocks)
    (hserves : c.src.Serves c.blocks) (hseal : f.AnchorAtSeal) :
    (commonLength cur c.blocks < st.sealedEnd →
      ∃ height, (f.call c).2 = .error (.deepReorg height)) ∧
    ∀ height, (f.call c).2 ≠ .error (.index (.sealed height)) := by
  have hsealed := h.represents.holds.sealed_le
  by_cases hhead : f.head = []
  case pos =>
    have hext := h
    rw [hhead] at hext
    have hcall : f.call c = syncHeadOnce f.store c.src [] c.config := by
      rw [FollowerState.call, hhead]
    rw [hcall]
    rcases hext.syncHeadOnce_extension hnode hcol hserves c.config with ⟨-, hdeep⟩ |
      ⟨hcommon, s', st', n, -, ⟨⟨e, he, hkind⟩, -⟩ | ⟨hok, -⟩⟩
    · rw [hdeep]
      exact ⟨fun _ => ⟨_, rfl⟩, fun height => by simp⟩
    · rw [he]
      refine ⟨fun hlt => by omega, fun height heq => ?_⟩
      cases heq
      exact hkind trivial
    · rw [hok]
      exact ⟨fun hlt => by omega, fun height => by simp⟩
  case neg =>
    have hlast := List.getLast?_eq_some_getLast hhead
    generalize f.head.getLast hhead = last at hlast
    obtain ⟨hvisible, heq⟩ := h.syncHeadOnce_of_getLast hserves hlast c.config
    -- the anchor is not below the seal
    have hstart : st.sealedEnd ≤ cur.length - sealDepth := by
      rcases Nat.eq_zero_or_pos st.sealedEnd with hzero | hpos
      · omega
      · have hthrough : st.sealedThrough = some (st.sealedEnd - 1) :=
          IndexState.sealedThrough_eq_some_iff.mpr (by omega)
        have hle := (hseal.resolve_left hhead) st _ last h.represents.state hthrough hlast
        omega
    have hright := commonLength_le_left cur c.blocks
    have hcall : f.call c = syncHeadOnce f.store c.src f.head c.config := rfl
    rw [hcall, heq]
    by_cases htip : c.src.tip = .ok (some last.blockId)
    · rw [if_pos htip]
      have hrecords := h.records_eq_of_tip hnode hcol hserves hlast htip
      refine ⟨fun hlt => ?_, fun height => by simp⟩
      -- the whole current chain is common
      have hlastGet : (durable ++ f.head)[cur.length - 1]? = some last := by
        rw [← h.length_eq, ← List.getLast?_eq_getElem?, List.getLast?_append, hlast]
        rfl
      have hon : OnChain c.blocks last.blockId := by
        rw [hrecords] at hlastGet
        obtain ⟨hheight, ⟨b, hb, hhash⟩, -⟩ := hnode.record_spec hlastGet
        refine Ztreamer.onChain_iff.mpr ⟨b, ?_, hhash⟩
        rw [CompactBlockRecord.blockId, hheight, hb]
      have hcommon := (h.onChain_iff hnode hcol hlastGet).mp hon
      omega
    rw [if_neg htip]
    by_cases hanchor : cur.length - sealDepth ≤ commonLength cur c.blocks
    case neg =>
      rw [h.replaceSuffix_anchor hnode hcol hserves hvisible (by omega)]
      exact ⟨fun _ => ⟨_, rfl⟩, fun height => by simp [HeadResult.ofCommit]⟩
    refine ⟨fun hlt => by omega, fun height hfail => ?_⟩
    rcases h.replaceSuffix hnode hcol hserves hvisible hanchor c.config with ⟨⟨e, he, hkind⟩, -⟩ |
      ⟨hlt, -⟩ | ⟨-, s', st', newTip, newDurable, hok, -⟩
    · rw [he] at hfail
      cases hfail
      exact hkind trivial
    · omega
    · rw [hok] at hfail
      cases hfail

/-- In a run whose states all have their anchor at or above the seal, a call of a
    node that diverges below the seal is a deep reorg, and no call is refused as
    sealed. -/
theorem syncHeadOnce_classifies (world : World heightOf chains)
    (h : HeadRun (fun f c => c.Of chains ∧ f.AnchorAtSeal) f) {c : HeadCall} (hc : c.Of chains)
    (hseal : f.AnchorAtSeal) :
    (f.DivergesBelowSeal c.blocks → ∃ height, (f.call c).2 = .error (.deepReorg height)) ∧
    ∀ height, (f.call c).2 ≠ .error (.index (.sealed height)) := by
  obtain ⟨st, durable, cur, hfollows, hcur⟩ := h.follows world fun _ _ hand => hand.1
  obtain ⟨hmem, hserves⟩ := hc
  obtain ⟨parsed, records, hnode⟩ := world.node _ hmem
  have hcol := world.noCollision_take hcur hmem
  obtain ⟨hdeep, hnever⟩ := hfollows.classifies hnode hcol hserves hseal
  refine ⟨fun hdiverges => hdeep ?_, hnever⟩
  obtain ⟨st', through, r, hst, hthrough, hr, hnot⟩ := hdiverges
  rw [hfollows.represents.state] at hst
  cases hst
  rw [hfollows.current.currentRecord] at hr
  have hlt := mt (hfollows.onChain_iff hnode hcol (Except.ok.inj hr)).mpr hnot
  have hend := IndexState.sealedThrough_eq_some_iff.mp hthrough
  omega

/-! ## A chain that gets shorter -/

/-- A follower with `n` blocks of the main chain, of which `m` are durable. -/
structure PlainState (f : FollowerState ν) (st : IndexState) (n m : Nat) : Prop where
  represents : Represents plainHeight f.store st ((plainRecords 5000 n).take m)
  head : f.head = (plainRecords 5000 n).drop m
  le : m ≤ n
  length_le : n ≤ 10000
  generation_le : st.generation ≤ 10000

theorem PlainState.follows (h : PlainState f st n m) :
    Follows plainHeight f.store st ((plainRecords 5000 n).take m) f.head (plainBlocks 5000 n) := by
  have hle := h.length_le
  rw [h.head]
  exact (plainBlocks_nodeChain 5000 (by omega)).follows h.represents

/-- The node extends the main chain, and the follower has no head. -/
theorem PlainState.extend (h : PlainState f st n n) (n' : Nat) (hle : n ≤ n')
    (hwindow : n' ≤ n + maxBlockReorgHeight) (hn' : n' ≤ 10000)
    (hgen : st.generation + n' ≤ 10000) :
    ∃ st', PlainState (f.after (plainCall 5000 n')) st' n' (max n (n' - persistDepth)) ∧
      st.sealedEnd ≤ st'.sealedEnd ∧ st'.generation ≤ st.generation + n' := by
  have hlen := h.length_le
  have hnode := plainBlocks_nodeChain 5000 (n := n') (by omega)
  have hhead : f.head = [] := by
    rw [h.head, List.drop_eq_nil_of_le (by simp)]
  have hfollows := h.follows
  rw [hhead] at hfollows
  have hcommon : commonLength (plainBlocks 5000 n) (plainBlocks 5000 n') = n := by
    rw [branchBlocks_commonLength (by omega) (by omega), if_pos rfl]
    omega
  have hdurable : ((plainRecords 5000 n).take n).length = n := by simp
  rcases hfollows.syncHeadOnce_extension hnode (branchBlocks_noCollision (by omega) (by omega))
    (CanonicalBlockSource.ofBlocks_serves _) (.ofParallelism 8) with ⟨hlt, -⟩ |
      ⟨-, s', st', k, hwrote, ⟨-, hreason⟩ | ⟨hok, hk⟩⟩
  · omega
  · refine absurd ⟨?_, plainBlocks_budget 5000 _ 8 (by omega) (by omega)⟩ hreason
    rw [hdurable, length_branchBlocks]
    exact hwindow
  · rw [hdurable] at hwrote hk
    rw [length_branchRecords] at hk
    subst hk
    have hcall : f.call (plainCall 5000 n') = (s', .ok (st', (plainRecords 5000 n').drop
        (max n (n' - persistDepth)))) := by
      rw [FollowerState.call, hhead]
      exact hok
    have hgenLe := hwrote.generation_le
    rw [FollowerState.after_of_ok hcall]
    exact ⟨st', ⟨hwrote.represents, rfl, by omega, hn', by omega⟩, hwrote.sealed_le, by omega⟩

/-- A call of a follower with a head, when the node has another chain that
    contains the anchor. -/
theorem PlainState.call_eq (h : PlainState f st n m) (fork : Nat) (hhead : m < n) (hn' : n' ≤ 10000)
    (hne : n' ≠ n) :
    f.call (plainCall fork n') = HeadResult.ofCommit f.store (replaceSuffix f.store
      (.ofBlocks (plainBlocks fork n')) f.head (.ofParallelism 8) (n - 1)) := by
  have hlen := h.length_le
  have hfollows := h.follows
  have hnode := plainBlocks_nodeChain fork (n := n') (by omega)
  have hserves := CanonicalBlockSource.ofBlocks_serves (plainBlocks fork n')
  have hcons : f.head ≠ [] := by
    rw [h.head]
    refine List.ne_nil_of_length_pos ?_
    rw [List.length_drop, length_branchRecords]
    omega
  have hlast := List.getLast?_eq_some_getLast hcons
  obtain ⟨hvisible, heq⟩ := hfollows.syncHeadOnce_of_getLast hserves hlast (.ofParallelism 8)
  rw [length_branchBlocks] at hvisible
  have htip : ¬ (CanonicalBlockSource.ofBlocks (plainBlocks fork n')).tip =
      .ok (some (f.head.getLast hcons).blockId) := by
    intro htip
    have hrecords := hfollows.records_eq_of_tip hnode
      (branchBlocks_noCollision (by omega) (by omega)) hserves hlast htip
    have hlengths := congrArg List.length hrecords
    rw [hfollows.length_eq, length_branchBlocks, length_branchRecords] at hlengths
    omega
  rw [if_neg htip, show (f.head.getLast hcons).height.val = n - 1 by omega] at heq
  exact heq

/-- The node has a longer or a shorter main chain that contains the anchor. -/
theorem PlainState.replace (h : PlainState f st n m) (n' : Nat) (hhead : m < n) (hm : 0 < m)
    (hne : n' ≠ n) (hpos : 0 < n') (hanchor : n - sealDepth ≤ n')
    (hwindow : n' ≤ n - sealDepth + maxBlockReorgHeight) (hsealed : st.sealedEnd ≤ min n n')
    (hn' : n' ≤ 10000) (hgen : st.generation + n' ≤ 10000) :
    ∃ s' st', f.after (plainCall 5000 n') = ⟨s', (plainRecords 5000 n').drop
        (newDurableTip (n' - 1) (min (min n n') m - 1) + 1)⟩ ∧
      PlainState (f.after (plainCall 5000 n')) st' n'
        (newDurableTip (n' - 1) (min (min n n') m - 1) + 1) ∧
      Advances f.store s' st st' (heightBelow (n' - 1) sealDepth)
        (newDurableTip (n' - 1) (min (min n n') m - 1) + 1) := by
  have hlen := h.length_le
  have hle := h.le
  have hnode := plainBlocks_nodeChain 5000 (n := n') (by omega)
  have hcommon : commonLength (plainBlocks 5000 n) (plainBlocks 5000 n') = min n n' := by
    rw [branchBlocks_commonLength (by omega) (by omega), if_pos rfl]
  have hcall := h.call_eq 5000 hhead hn' hne
  have hdurable : ((plainRecords 5000 n).take m).length = m := by
    rw [List.length_take, length_branchRecords]
    omega
  have hvisible : n - 1 + 1 = (plainBlocks 5000 n).length := by
    rw [length_branchBlocks]
    omega
  rcases h.follows.replaceSuffix hnode (branchBlocks_noCollision (by omega) (by omega))
    (CanonicalBlockSource.ofBlocks_serves _) hvisible
    (by rw [hcommon, length_branchBlocks]; omega) (.ofParallelism 8) with ⟨-, hreason⟩ | ⟨hlt, -⟩ |
      ⟨-, s', st', newTip, newDurable, hok, hnewTip, hnewDurable, hnewLe, hrep, hadvances⟩
  · rw [hcommon, length_branchBlocks, length_branchBlocks] at hreason
    refine absurd ⟨?_, by omega, hwindow, plainBlocks_budget 5000 _ 8 (by omega) (by omega)⟩ hreason
    exact List.ne_nil_of_length_pos (by omega)
  · omega
  · rw [hcommon, hdurable] at hnewDurable
    rw [length_branchRecords] at hnewTip
    obtain rfl : newTip = n' - 1 := by omega
    subst hnewDurable
    rw [hok] at hcall
    have hafter := FollowerState.after_of_ok hcall
    have hgen' : st'.generation ≤ 10000 := by
      rcases hadvances with ⟨-, rfl⟩ | ⟨hgen', -⟩ <;> omega
    refine ⟨s', st', hafter, ?_, hadvances⟩
    rw [hafter]
    exact ⟨hrep, rfl, by omega, hn', hgen'⟩

/-- A node that leaves the main chain below a sealed block. -/
theorem PlainState.diverges {fork through : Nat} (h : PlainState f st n m)
    (hthrough : st.sealedThrough = some through) (hfork : fork ≤ through) (hlt : through < n)
    (hn' : n' ≤ 10000) (hmain : fork < 5000) : f.DivergesBelowSeal (plainCall fork n').blocks := by
  have hlen := h.length_le
  have hfollows := h.follows
  have hnode := plainBlocks_nodeChain fork (n := n') (by omega)
  have hr := List.getElem?_eq_getElem (i := through)
    (l := (plainRecords 5000 n).take m ++ f.head)
    (by rw [hfollows.length_eq, length_branchBlocks]; exact hlt)
  refine ⟨st, through, _, hfollows.represents.state, hthrough,
    by rw [hfollows.current.currentRecord, hr], ?_⟩
  show ¬ OnChain (plainBlocks fork n') _
  rw [hfollows.onChain_iff hnode (branchBlocks_noCollision (by omega) (by omega)) hr,
    branchBlocks_commonLength (by omega) (by omega), if_neg (by omega)]
  omega

theorem HeadRun.mono {Allowed' : FollowerState ν → HeadCall → Prop}
    (himp : ∀ f c, Allowed f c → Allowed' f c) (h : HeadRun Allowed f) : HeadRun Allowed' f := by
  induction h with
  | start => exact .start
  | call c _ hc ih => exact .call c ih (himp _ _ hc)

/-- Two calls of a node with the main chain seal the first range. -/
theorem exists_plainState_sealed :
    ∃ (f : FollowerState ν) (st : IndexState),
      HeadRun (fun f c => c.Of plainChains ∧ f.AnchorAtSeal) f ∧ PlainState f st 1101 1091 ∧
      st.sealedEnd = 1000 ∧ st.generation ≤ 2000 := by
  have hstart : PlainState (⟨Store.empty, []⟩ : FollowerState ν) {} 0 0 :=
    ⟨represents_empty, rfl, le_rfl, by omega, Nat.zero_le _⟩
  -- 1000 blocks: the first 990 are durable, and none is sealed
  obtain ⟨st₁, h₁, -, hgen₁⟩ := hstart.extend 1000 (by omega) (by decide) (by omega) (by decide)
  have hrun₁ : HeadRun (fun f c => c.Of plainChains ∧ f.AnchorAtSeal)
      ((⟨Store.empty, []⟩ : FollowerState ν).after (plainCall 5000 1000)) :=
    .call _ .start ⟨plainCall_of (by omega) (by omega), .inl rfl⟩
  generalize (⟨Store.empty, []⟩ : FollowerState ν).after (plainCall 5000 1000) = f₁ at h₁ hrun₁
  rw [show max 0 (1000 - persistDepth) = 990 from rfl] at h₁
  have hsealed₁ : st₁.sealedEnd = 0 := by
    have hle := h₁.represents.holds.sealed_le
    have hmod := h₁.represents.holds.sealed_aligned
    rw [List.length_take, length_branchRecords] at hle
    simp only [rangeSize] at hmod
    omega
  have hgenZero : ({} : IndexState).generation = 0 := rfl
  -- 1101 blocks: the anchor moves to 1000, and the first range is sealed
  obtain ⟨s₂, st₂, hafter, h₂, hadvances⟩ := h₁.replace 1101 (by omega) (by omega) (by omega)
    (by omega) (by decide) (by decide) (by omega) (by omega) (by omega)
  rw [show newDurableTip (1101 - 1) (min (min 1000 1101) 990 - 1) + 1 = 1091 from rfl]
    at h₂ hadvances
  have hseal₁ : f₁.AnchorAtSeal := by
    refine .inr fun st through last hst hthrough _ => ?_
    rw [h₁.represents.state] at hst
    cases hst
    have := IndexState.sealedThrough_eq_some_iff.mp hthrough
    omega
  refine ⟨f₁.after (plainCall 5000 1101), st₂,
    .call _ hrun₁ ⟨plainCall_of (by omega) (by omega), hseal₁⟩, h₂, ?_, ?_⟩
  · rcases hadvances with ⟨rfl, rfl⟩ | ⟨-, hsealed⟩
    · -- the durable chain is longer than before
      have hshort := h₁.represents
      have hlong := h₂.represents
      rw [hafter] at hlong
      obtain ⟨tip, htip, -⟩ := hshort.describes.exists_tip hshort.connected (i := 0) (by simp)
      have hlow := hshort.describes.tip_height hshort.connected htip
      have hhigh := hlong.describes.tip_height hlong.connected htip
      rw [hlow, List.length_take, List.length_take, length_branchRecords, length_branchRecords]
        at hhigh
      omega
    · rw [hsealed, hsealed₁]
      rfl
  · rcases hadvances with ⟨-, rfl⟩ | ⟨hgen, -⟩ <;> omega

/-- In every state of a run, a call leaves the chain of the node, or it fails and no durable
    block is lost. With a head, a call that fails leaves the index as it was. -/
theorem headRun_call (world : World heightOf chains)
    (hallowed : ∀ f c, Allowed f c → c.Of chains) (h : HeadRun Allowed f) (hc : c.Of chains) :
    ∃ st durable parsed records, Represents heightOf f.store st durable ∧
      NodeChain heightOf c.blocks parsed records ∧ CallOutcome heightOf f c durable records := by
  obtain ⟨st, durable, cur, hfollows, hcur⟩ := h.follows world hallowed
  obtain ⟨parsed, records, hnode⟩ := world.node _ hc.1
  have hcol := world.noCollision_take hcur hc.1
  exact ⟨st, durable, parsed, records, hfollows.represents, hnode,
    hfollows.callOutcome hnode hcol hc.2⟩

end

section

attribute [local instance] Proto.wireDecoder

/-- A fork below the seal, while the anchor is above it. -/
theorem syncHeadOnce_classifies_fork : ∃ f : FollowerState Unit,
    HeadRun (fun f c => c.Of plainChains ∧ f.AnchorAtSeal) f ∧ f.AnchorAtSeal ∧
    f.DivergesBelowSeal (plainCall 961 1057).blocks ∧
    ∃ height, (f.call (plainCall 961 1057)).2 = .error (.deepReorg height) := by
  obtain ⟨f, st, hrun, hstate, hsealed, -⟩ := exists_plainState_sealed (ν := Unit)
  have hthrough : st.sealedThrough = some 999 := IndexState.sealedThrough_eq_some_iff.mpr hsealed
  have hdiverges : f.DivergesBelowSeal (plainCall 961 1057).blocks :=
    hstate.diverges hthrough (by omega) (by omega) (by omega) (by omega)
  have hseal : f.AnchorAtSeal := by
    refine .inr fun st' through last hst hthrough' hlast => ?_
    rw [hstate.represents.state] at hst
    cases hst
    rw [hthrough] at hthrough'
    cases hthrough'
    obtain ⟨hvisible, -⟩ := hstate.follows.syncHeadOnce_of_getLast
      (CanonicalBlockSource.ofBlocks_serves []) hlast (.ofParallelism 8)
    rw [length_branchBlocks] at hvisible
    simp only [sealDepth]
    omega
  have hof : (plainCall 961 1057).Of plainChains := plainCall_of (by omega) (by omega)
  exact ⟨f, hrun, hseal, hdiverges,
    (syncHeadOnce_classifies plainChains_world hrun hof hseal).1 hdiverges⟩

/-- The chain grows to 1101 blocks, so the first range is sealed, and then shrinks
    to 1051 blocks. A fork at height 961 contains the new anchor 955, and the call
    fails as sealed. -/
theorem syncHeadOnce_sealed_of_shorter : ∃ f : FollowerState Unit,
    HeadRun (fun _ c => c.Of plainChains) f ∧ (plainCall 961 1057).Of plainChains ∧
    f.DivergesBelowSeal (plainCall 961 1057).blocks ∧
    (f.call (plainCall 961 1057)).2 = .error (.index (.sealed 961)) := by
  obtain ⟨f₂, st₂, hrun₂, h₂, hsealed₂, hgen₂⟩ := exists_plainState_sealed (ν := Unit)
  have hrun₂ : HeadRun (fun _ c => c.Of plainChains) f₂ := hrun₂.mono fun _ _ hand => hand.1
  -- 1051 blocks: the head is empty
  obtain ⟨s₃, st₃, -, h₃, hadvances₃⟩ := h₂.replace 1051 (by omega) (by omega) (by omega) (by omega)
    (by decide) (by decide) (by omega) (by omega) (by omega)
  rw [show newDurableTip (1051 - 1) (min (min 1101 1051) 1091 - 1) + 1 = 1051 from rfl]
    at h₃ hadvances₃
  have hsealed₃ : st₃.sealedEnd = 1000 ∧ st₃.generation ≤ 2001 := by
    rcases hadvances₃ with ⟨-, rfl⟩ | ⟨hgen, hsealed⟩
    · omega
    · rw [hsealed, hsealed₂]
      exact ⟨rfl, by omega⟩
  have hrun₃ := HeadRun.call _ hrun₂ (plainCall_of (by omega : 0 < 5000) (by omega : 1051 ≤ 2 ^ 31))
  -- 1056 blocks: five of them are in the head
  obtain ⟨st₄, h₄, hsealed₄, hgen₄⟩ := h₃.extend 1056 (by omega) (by decide) (by omega) (by omega)
  rw [show max 1051 (1056 - persistDepth) = 1051 from rfl] at h₄
  have hrun₄ := HeadRun.call _ hrun₃ (plainCall_of (by omega : 0 < 5000) (by omega : 1056 ≤ 2 ^ 31))
  have hend : st₄.sealedEnd = 1000 := by
    have hle := h₄.represents.holds.sealed_le
    have hmod := h₄.represents.holds.sealed_aligned
    rw [List.length_take, length_branchRecords] at hle
    simp only [rangeSize] at hmod
    omega
  have hthrough : st₄.sealedThrough = some 999 := IndexState.sealedThrough_eq_some_iff.mpr hend
  refine ⟨_, hrun₄, plainCall_of (by omega) (by omega),
    h₄.diverges hthrough (by omega) (by omega) (by omega) (by omega), ?_⟩
  rw [h₄.call_eq 961 (by omega) (by omega) (by omega)]
  have hcommon : commonLength (plainBlocks 5000 1056) (plainBlocks 961 1057) = 961 :=
    branchBlocks_commonLength (by omega) (by omega)
  rcases h₄.follows.replaceSuffix (plainBlocks_nodeChain 961 (n := 1057) (by omega))
    (branchBlocks_noCollision (by omega) (by omega)) (CanonicalBlockSource.ofBlocks_serves _)
    (by rw [length_branchBlocks]) (by rw [hcommon, length_branchBlocks]; decide)
      (.ofParallelism 8) with
    ⟨-, hreason⟩ | ⟨-, herror⟩ | ⟨hle, -⟩
  · refine absurd ⟨?_, by omega, by rw [length_branchBlocks, length_branchBlocks]; decide,
      plainBlocks_budget 961 _ 8 (by omega) (by omega)⟩ hreason
    exact List.ne_nil_of_length_pos (by rw [List.length_take, length_branchRecords]; omega)
  · rw [herror, hcommon]
    rfl
  · omega

/-- A fork below the seal of a follower with a head. -/
theorem headRun_call_fork : ∃ f : FollowerState Unit,
    HeadRun (fun f c => c.Of plainChains ∧ f.AnchorAtSeal) f ∧ f.head.length = 10 ∧
    ∃ st durable parsed records, Represents plainHeight f.store st durable ∧
      NodeChain plainHeight (plainCall 961 1057).blocks parsed records ∧
      CallOutcome plainHeight f (plainCall 961 1057) durable records := by
  obtain ⟨f, st, hrun, hstate, -⟩ := exists_plainState_sealed (ν := Unit)
  exact ⟨f, hrun, by rw [hstate.head]; simp, headRun_call plainChains_world
    (fun _ _ hand => hand.1) hrun (plainCall_of (by omega) (by omega))⟩

end

end Ztreamer
