import Ztreamer.Backend.State
import Ztreamer.Import.Proof
import Ztreamer.Index.Blocks
import Ztreamer.Service.RangeSession

/-! # Subtree roots

    A request for subtree roots asks the node for the roots and their completing
    heights, takes the serving snapshot after the answer, and looks the completing
    blocks up in that snapshot. The node and the snapshot can be on two chains.

    * `nodeSubtrees`: what a node answers from its chain,
    * `subtreeItem`: one item of the stream,
    * `SubtreeSystem`: a node that reorganizes, an index that is written, snapshots
      that are published, and a request,
    * `subtree_roots_consistent_iff`: when the items are true on one chain.
-/

namespace Ztreamer

open Octets Result Connected

variable {ν : Type}

/-! ## Trees -/

/-- The `ShieldedProtocol` of a request. -/
def Pool.ofProto : Int → Option Pool
  | 0 => some .sapling
  | 1 => some .orchard
  | 2 => some .ironwood
  | _ => none

def subtreeLeaves (pool : Pool) (chain : List CompactBlockRecord) (index : Nat) :
    List Digest :=
  ((noteCommitments chain pool).drop (index * subtreeLeafCount)).take subtreeLeafCount

/-- The root of a subtree from its leaves, as bytes. -/
class SubtreeHash where
  root : Pool → List Digest → Bytes

section

variable [SubtreeHash]

/-- The last block of the chain completes a subtree with this root. -/
def Completes (pool : Pool) (chain : List CompactBlockRecord) (root : Bytes) : Prop :=
  ∃ index, poolSize chain pool (chain.length - 1) < (index + 1) * subtreeLeafCount ∧
    (index + 1) * subtreeLeafCount ≤ poolSize chain pool chain.length ∧
    SubtreeHash.root pool (subtreeLeaves pool chain index) = root

/-- The height of the block that completes a subtree. -/
def endHeight (pool : Pool) (chain : List CompactBlockRecord) (index : Nat) :
    Option Nat :=
  (List.range chain.length).find? fun height =>
    (index + 1) * subtreeLeafCount ≤ poolSize chain pool (height + 1)

/-- The subtrees that a node gives from its chain: roots and completing heights from the
    subtree `start` on, at most `limit`. -/
def nodeSubtrees (chain : List CompactBlockRecord) (pool : Pool) (start : Nat)
    (limit : Option Nat) : List (Bytes × Nat) :=
  let indices := (List.range (poolSize chain pool chain.length / subtreeLeafCount)).drop start
  (limit.elim indices indices.take).filterMap fun index =>
    (endHeight pool chain index).map fun height =>
      (SubtreeHash.root pool (subtreeLeaves pool chain index), height)

omit [SubtreeHash] in
/-- The blocks above the one that completes a subtree do not change it. -/
theorem subtreeLeaves_take {pool : Pool} {chain : List CompactBlockRecord} {index n : Nat}
    (h : (index + 1) * subtreeLeafCount ≤ poolSize chain pool n) :
    subtreeLeaves pool chain index = subtreeLeaves pool (chain.take n) index := by
  have hsplit : noteCommitments chain pool =
      noteCommitments (chain.take n) pool ++ noteCommitments (chain.drop n) pool := by
    rw [← noteCommitments_append, List.take_append_drop]
  unfold poolSize at h
  rw [Nat.add_mul, Nat.one_mul] at h
  unfold subtreeLeaves
  rw [hsplit, List.drop_append_of_le_length (by omega),
    List.take_append_of_le_length (by rw [List.length_drop]; omega)]

/-- A node gives the subtrees that the blocks of its chain complete. -/
theorem completes_of_mem_nodeSubtrees {chain : List CompactBlockRecord} {pool : Pool}
    {start : Nat} {limit : Option Nat} {root : Bytes × Nat}
    (h : root ∈ nodeSubtrees chain pool start limit) :
    root.2 < chain.length ∧ Completes pool (chain.take (root.2 + 1)) root.1 := by
  obtain ⟨index, -, hmap⟩ := List.mem_filterMap.mp h
  obtain ⟨height, hend, rfl⟩ := Option.map_eq_some_iff.mp hmap
  obtain ⟨hsize, hmem, hfirst⟩ := List.find?_range_eq_some.mp hend
  have hlt := List.mem_range.mp hmem
  have hsize := of_decide_eq_true hsize
  have hlength : (chain.take (height + 1)).length = height + 1 := by
    rw [List.length_take]
    omega
  have htake : ∀ n ≤ height + 1,
      poolSize (chain.take (height + 1)) pool n = poolSize chain pool n := by
    intro n hn
    rw [poolSize, List.take_take, Nat.min_eq_left hn, poolSize]
  refine ⟨hlt, index, ?_, ?_, by rw [subtreeLeaves_take hsize]⟩
  · rw [hlength, Nat.add_sub_cancel, htake height (Nat.le_succ _)]
    cases height with
    | zero => exact Nat.mul_pos (Nat.succ_pos _) (by decide)
    | succ height =>
      -- the block below does not reach the end of the subtree
      have hnot := hfirst height (Nat.lt_succ_self _)
      simpa using hnot
  · rw [hlength, htake _ le_rfl]
    exact hsize

end

/-! ## The request and the stream -/

def BackendError.toStatus : BackendError → Status
  | unavailable message => ⟨.unavailable, message⟩
  | rejected message => ⟨.invalidArgument, message⟩
  | unexpected message => ⟨.internal, message⟩

structure Proto.GetSubtreeRootsArg where
  startIndex : U32
  shieldedProtocol : Int
  maxEntries : U32

structure Proto.SubtreeRoot where
  rootHash : Bytes
  completingBlockHash : Bytes
  completingBlockHeight : Nat
  deriving DecidableEq

/-- The pool, the first subtree and the limit of a request. -/
def subtreeQuery (request : Proto.GetSubtreeRootsArg) :
    Except Status (Pool × Nat × Option Nat) := do
  ensure (request.startIndex.val < 2 ^ 16)
    ⟨.invalidArgument, "subtree start index exceeds u16"⟩
  ensure (request.maxEntries.val < 2 ^ 16)
    ⟨.invalidArgument, "subtree entry limit exceeds u16"⟩
  let pool ← okOr (Pool.ofProto request.shieldedProtocol)
    ⟨.invalidArgument, "invalid shielded protocol"⟩
  let limit := if request.maxEntries.val = 0 then none else some request.maxEntries.val
  return (pool, request.startIndex.val, limit)

/-- The roots and completing heights of a request, from the backend. -/
def subtreeRoots (backend : Pool → Nat → Option Nat →
    Except BackendError (List (Bytes × Nat))) (request : Proto.GetSubtreeRootsArg) :
    Except Status (Pool × List (Bytes × Nat)) := do
  let (pool, start, limit) ← subtreeQuery request
  let roots ← okMapError (backend pool start limit) BackendError.toStatus
  return (pool, roots)

/-- The completing block: it is looked up in the head, and below it in the index at the
    generation of the snapshot. -/
def completingBlock [Proto.Prost] (s : Store ν) (snapshot : ServingSnapshot) (height : Nat) :
    Except IndexError CompactBlockRecord :=
  match snapshot.volatile height with
  | some block => .ok block
  | none => do
    let st ← s.snapshot snapshot.generation
    s.read CompactBlockRecord st height

/-- One item of the stream. -/
def subtreeItem [Proto.Prost] (s : Store ν) (snapshot : ServingSnapshot) (root : Bytes × Nat) :
    Except Status Proto.SubtreeRoot := do
  let block ← okMapError (completingBlock s snapshot root.2) IndexError.toStatus
  return ⟨root.1, block.hash.val, root.2⟩

/-! ## The system -/

section

variable [Proto.Prost] [SubtreeHash]

/-- A request: not made, answered by the node, or a stream. `node` is the chain of the
    node at the time of its answer, `served` the chain of the snapshot of the stream, and
    `sent` the roots of the answer that have an item. -/
inductive SubtreeSession where
  | idle
  | answered (pool : Pool) (node : List CompactBlockRecord)
      (roots : List (Bytes × Nat))
  | streaming (pool : Pool) (node : List CompactBlockRecord)
      (snapshot : ServingSnapshot) (served : List CompactBlockRecord)
      (sent remaining : List (Bytes × Nat)) (items : List (Except Status Proto.SubtreeRoot))

/-- The chain of the node, the index, and the published snapshot with its chain. Another
    request changes nothing of this, so there is one. -/
structure SubtreeSystem (ν : Type) where
  node : List CompactBlockRecord
  index : Store ν
  snapshot : ServingSnapshot
  served : List CompactBlockRecord
  session : SubtreeSession

variable [Blake3] (Blocks : CompactBlockRecord → Prop)

/-- The node reorganizes, the follower writes to the index or publishes, and the request
    goes on. The follower has its blocks from the node. -/
inductive SubtreeSystem.Step : SubtreeSystem ν → SubtreeSystem ν → Prop where
  | reorg {x : SubtreeSystem ν} (node : List CompactBlockRecord) : NodeBlocks Blocks node →
      Step x { x with node }
  | write {x : SubtreeSystem ν} {index : Store ν} (c : Call ν) : c.FromBuilder →
      c.run x.index = .ok index →
      (∀ st chain, Represents .any index st chain → ∀ r ∈ chain, Blocks r) →
      Step x { x with index }
  | publish {x : SubtreeSystem ν} {st : IndexState} {durable head : List CompactBlockRecord}
      {now : Instant} {snapshot : ServingSnapshot} : Represents .any x.index st durable →
      ServingSnapshot.withHead st head now = .ok snapshot → (∀ r ∈ head, Blocks r) →
      Step x { x with snapshot, served := durable ++ head }
  | mark {x : SubtreeSystem ν} (ready tipFresh : Bool) (lastSourceSuccess : Option Instant)
      (sourceError : Option String) :
      Step x { x with
        snapshot := { x.snapshot with ready, tipFresh, lastSourceSuccess, sourceError } }
  | ask {x : SubtreeSystem ν} {request : Proto.GetSubtreeRootsArg} {pool : Pool}
      {roots : List (Bytes × Nat)} : x.session = .idle →
      subtreeRoots (fun pool start limit => .ok (nodeSubtrees x.node pool start limit)) request =
        .ok (pool, roots) →
      Step x { x with session := .answered pool x.node roots }
  | start {x : SubtreeSystem ν} {pool : Pool} {node : List CompactBlockRecord}
      {roots : List (Bytes × Nat)} : x.session = .answered pool node roots →
      Step x { x with session := .streaming pool node x.snapshot x.served [] roots [] }
  | send {x : SubtreeSystem ν} {pool : Pool} {node served : List CompactBlockRecord}
      {snapshot : ServingSnapshot} {root : Bytes × Nat} {sent remaining : List (Bytes × Nat)}
      {items : List (Except Status Proto.SubtreeRoot)} {item : Proto.SubtreeRoot} :
      x.session = .streaming pool node snapshot served sent (root :: remaining) items →
      subtreeItem x.index snapshot root = .ok item →
      Step x { x with
        session := .streaming pool node snapshot served (sent ++ [root]) remaining
          (items ++ [.ok item]) }
  | fail {x : SubtreeSystem ν} {pool : Pool} {node served : List CompactBlockRecord}
      {snapshot : ServingSnapshot} {root : Bytes × Nat} {sent remaining : List (Bytes × Nat)}
      {items : List (Except Status Proto.SubtreeRoot)} {error : Status} :
      x.session = .streaming pool node snapshot served sent (root :: remaining) items →
      subtreeItem x.index snapshot root = .error error →
      Step x { x with
        session := .streaming pool node snapshot served sent [] (items ++ [.error error]) }

/-- An index of blocks of the node, with the snapshot of its state. -/
def SubtreeSystem.Starts (x : SubtreeSystem ν) : Prop :=
  ∃ st, Represents .any x.index st x.served ∧ x.snapshot = st.toServingSnapshot ∧
    (∀ r ∈ x.served, Blocks r) ∧ NodeBlocks Blocks x.node ∧ x.session = .idle

/-- On one chain of blocks of the node, the block with this hash is at this height, and
    completes a subtree with this root. -/
def Proto.SubtreeRoot.TrueOnChain (pool : Pool) (item : Proto.SubtreeRoot) : Prop :=
  ∃ chain last, NodeBlocks Blocks chain ∧ chain.length = item.completingBlockHeight + 1 ∧
    chain.getLast? = some last ∧ last.hash.val = item.completingBlockHash ∧
    Completes pool chain item.rootHash

/-! ## One item -/

variable {Blocks}

omit [Proto.Prost] [Blake3] in
/-- An item with the block of a chain is true on one chain when it is true on this one. -/
theorem NodeBlocks.trueOnChain_iff
    (hdetermined : ∀ r r', Blocks r → Blocks r' → r.hash = r'.hash → r = r')
    {served : List CompactBlockRecord} (h : NodeBlocks Blocks served) {pool : Pool}
    {root : Bytes} {height : Nat} {block : CompactBlockRecord}
    (hblock : served[height]? = some block) :
    Proto.SubtreeRoot.TrueOnChain Blocks pool ⟨root, block.hash.val, height⟩ ↔
      Completes pool (served.take (height + 1)) root := by
  have hlt := (List.getElem?_eq_some_iff.mp hblock).1
  have hlength : (served.take (height + 1)).length = height + 1 := by
    rw [List.length_take]
    omega
  have hlast := getLast?_take_succ hblock
  constructor
  · rintro ⟨chain, last, hchain, hlen, hchainLast, hhash, hcompletes⟩
    have hhash : last.hash = block.hash := ByteVec.ext hhash
    have hsame : chain = served.take (height + 1) :=
      hchain.eq_of_last hdetermined (h.take _) (hlen.trans hlength.symm)
        (by rw [hchainLast, hlast, Option.map_some, Option.map_some, hhash])
    rw [← hsame]
    exact hcompletes
  · intro hcompletes
    exact ⟨_, block, h.take _, hlength, hlast, rfl, hcompletes⟩

/-! ## The chain of a snapshot -/

/-- The snapshot serves the chain: its head is in it, and while the index is at its
    generation, so is the durable chain. -/
structure ServedBy (Blocks : CompactBlockRecord → Prop) (snapshot : ServingSnapshot)
    (served : List CompactBlockRecord) (st : IndexState) (durable : List CompactBlockRecord) :
    Prop where
  nodeBlocks : NodeBlocks Blocks served
  volatile : ∀ (n : Nat) (r : CompactBlockRecord), snapshot.volatile n = some r →
    served[n]? = some r
  generation_le : snapshot.generation ≤ st.generation
  durable : snapshot.generation = st.generation → durable <+: served

variable {s : Store ν} {st st' : IndexState} {durable durable' served : List CompactBlockRecord}
  {snapshot : ServingSnapshot}

omit [Proto.Prost] [SubtreeHash] [Blake3] in
/-- A write takes the index to another generation, or keeps its chain. -/
theorem ServedBy.write (h : ServedBy Blocks snapshot served st durable)
    (hgen : st'.generation = st.generation + 1 ∨ st' = st ∧ durable' = durable) :
    ServedBy Blocks snapshot served st' durable' := by
  have hle := h.generation_le
  rcases hgen with hnext | ⟨rfl, rfl⟩
  · exact ⟨h.nodeBlocks, h.volatile, by omega, by omega⟩
  · exact h

omit [SubtreeHash] [Blake3] in
/-- A head that is published continues the durable chain. -/
theorem ServedBy.publish (hrep : Represents .any s st durable) (hdurable : ∀ r ∈ durable, Blocks r)
    {head : List CompactBlockRecord} {now : Instant}
    (hwith : ServingSnapshot.withHead st head now = .ok snapshot) (hhead : ∀ r ∈ head, Blocks r) :
    ServedBy Blocks snapshot (durable ++ head) st durable := by
  have hconsistent := (ServingSnapshot.Published.withHead hwith).consistent
  simp only [ServingSnapshot.withHead, bind_eq_ok, pure_eq_ok, Except.ok.injEq] at hwith
  obtain ⟨_, -, rfl⟩ := hwith
  have hdescribed : RangeSession.Described _ s st durable := ⟨hconsistent, hrep, rfl⟩
  have hconnected : Connected .any (durable ++ head) := hdescribed.connected
  refine ⟨⟨hconnected, ?_⟩, ?_, le_rfl, fun _ => List.prefix_append _ _⟩
  · intro r hr
    rcases List.mem_append.mp hr with hr | hr
    · exact hdurable r hr
    · exact hhead r hr
  · intro n r hr
    have hmem : r ∈ durable ++ head :=
      List.mem_append_right durable (List.mem_of_find?_eq_some hr)
    obtain ⟨i, hi⟩ := List.mem_iff_getElem?.mp hmem
    rw [← ServingSnapshot.volatile_height hr, hconnected.height_eq hi]
    exact hi

/-- The item has the root, and the block of the chain at its height. -/
def SentFor (served : List CompactBlockRecord) (root : Bytes × Nat)
    (item : Proto.SubtreeRoot) : Prop :=
  ∃ block, served[root.2]? = some block ∧ item = ⟨root.1, block.hash.val, root.2⟩

omit [SubtreeHash] [Blake3] in
/-- The block of an item is that of the chain of the snapshot. -/
theorem ServedBy.item (h : ServedBy Blocks snapshot served st durable)
    (hrep : Represents .any s st durable) {root : Bytes × Nat} {item : Proto.SubtreeRoot}
    (hitem : subtreeItem s snapshot root = .ok item) :
    SentFor served root item := by
  simp only [subtreeItem, bind_eq_ok, pure_eq_ok, Except.ok.injEq, okMapError_eq_ok] at hitem
  obtain ⟨block, hblock, rfl⟩ := hitem
  refine ⟨block, ?_, rfl⟩
  unfold completingBlock at hblock
  split at hblock
  case h_1 r hvolatile =>
    cases hblock
    exact h.volatile _ _ hvolatile
  case h_2 =>
    simp only [Store.snapshot, hrep.state, ok_bind, bind_eq_ok, ensure_eq_ok, pure_eq_ok,
      Except.ok.injEq] at hblock
    obtain ⟨_, ⟨-, hgen, rfl⟩, hread⟩ := hblock
    obtain ⟨rest, rfl⟩ := h.durable hgen.symm
    have hr := hrep.read_eq_ok hread
    rw [List.getElem?_append_left (List.getElem?_eq_some_iff.mp hr).1, hr]

/-! ## Runs -/

/-- The node gave the root from its chain. -/
def AnsweredFrom (pool : Pool) (node : List CompactBlockRecord) (root : Bytes × Nat) : Prop :=
  root.2 < node.length ∧ Completes pool (node.take (root.2 + 1)) root.1

/-- The roots of a request come from the node, and its items have the blocks of the chain
    that the snapshot serves. -/
def SubtreeSession.Ok (Blocks : CompactBlockRecord → Prop) (st : IndexState)
    (durable : List CompactBlockRecord) : SubtreeSession → Prop
  | .idle => True
  | .answered pool node roots =>
    NodeBlocks Blocks node ∧ ∃ start limit, roots = nodeSubtrees node pool start limit
  | .streaming pool node snapshot served sent remaining items =>
    ServedBy Blocks snapshot served st durable ∧ NodeBlocks Blocks node ∧
      (∃ start limit, sent ++ remaining <+: nodeSubtrees node pool start limit) ∧
      List.Forall₂ (SentFor served) sent (items.filterMap Except.toOption)

omit [Proto.Prost] [Blake3] in
theorem SubtreeSession.Ok.write {session : SubtreeSession} (h : session.Ok Blocks st durable)
    (hgen : st'.generation = st.generation + 1 ∨ st' = st ∧ durable' = durable) :
    session.Ok Blocks st' durable' := by
  cases session with
  | idle => trivial
  | answered pool node roots => exact h
  | streaming => exact ⟨h.1.write hgen, h.2⟩

/-- The index and the published snapshot have blocks of the node, and the request goes
    as it should. -/
def SubtreeSystem.Inv (Blocks : CompactBlockRecord → Prop) (x : SubtreeSystem ν) : Prop :=
  NodeBlocks Blocks x.node ∧ ∃ st durable, Represents .any x.index st durable ∧
    (∀ r ∈ durable, Blocks r) ∧ ServedBy Blocks x.snapshot x.served st durable ∧
    x.session.Ok Blocks st durable

namespace SubtreeSystem

variable {x y : SubtreeSystem ν}

omit [Blake3] in
theorem Starts.inv (h : x.Starts Blocks) : x.Inv Blocks := by
  obtain ⟨st, hrep, hsnapshot, hblocks, hnode, hidle⟩ := h
  refine ⟨hnode, st, x.served, hrep, hblocks, ?_, ?_⟩
  · rw [hsnapshot]
    refine ⟨⟨hrep.connected, hblocks⟩, ?_, le_rfl, fun _ => List.prefix_rfl⟩
    intro n r hr
    cases hr
  · rw [hidle]
    trivial

theorem Inv.step (h : x.Inv Blocks) (hstep : x.Step Blocks y) : y.Inv Blocks := by
  obtain ⟨hnode, st, durable, hrep, hblocks, hserved, hsession⟩ := h
  cases hstep with
  | reorg node hnode' => exact ⟨hnode', st, durable, hrep, hblocks, hserved, hsession⟩
  | write c hbuilder hrun hall =>
    -- a new generation changes nothing that is known of the snapshot and the stream
    obtain ⟨st', hcommits⟩ := Call.run_eq_ok.mp hrun
    obtain ⟨⟨durable', hrep', hgen⟩, -⟩ := hcommits.represents hrep hbuilder c.respects_any
    exact ⟨hnode, st', durable', hrep', hall st' durable' hrep', hserved.write hgen,
      hsession.write hgen⟩
  | @publish st₀ durable₀ _ _ _ hrep₀ hwith hhead =>
    obtain rfl : st = st₀ := Except.ok.inj (hrep.state.symm.trans hrep₀.state)
    obtain rfl := hrep.chain_unique hrep₀
    exact ⟨hnode, st, durable, hrep, hblocks, .publish hrep hblocks hwith hhead, hsession⟩
  | mark ready tipFresh lastSourceSuccess sourceError =>
    exact ⟨hnode, st, durable, hrep, hblocks,
      ⟨hserved.nodeBlocks, hserved.volatile, hserved.generation_le, hserved.durable⟩, hsession⟩
  | ask hidle hask =>
    refine ⟨hnode, st, durable, hrep, hblocks, hserved, hnode, ?_⟩
    simp only [subtreeRoots, bind_eq_ok, okMapError_ok, ok_bind, pure_eq_ok, Except.ok.injEq,
      Prod.mk.injEq] at hask
    obtain ⟨⟨pool, start, limit⟩, -, rfl, rfl⟩ := hask
    exact ⟨start, limit, rfl⟩
  | start hanswered =>
    rw [hanswered] at hsession
    obtain ⟨hanswer, start, limit, rfl⟩ := hsession
    exact ⟨hnode, st, durable, hrep, hblocks, hserved, hserved, hanswer,
      ⟨start, limit, List.prefix_rfl⟩, .nil⟩
  | @send pool node served snapshot root sent remaining items item hstream hitem =>
    rw [hstream] at hsession
    obtain ⟨hsnapshot, hanswer, hroots, hitems⟩ := hsession
    refine ⟨hnode, st, durable, hrep, hblocks, hserved, hsnapshot, hanswer, ?_, ?_⟩
    · rw [List.append_assoc]
      exact hroots
    · rw [List.filterMap_append]
      exact List.rel_append hitems (.cons (hsnapshot.item hrep hitem) .nil)
  | @fail pool node served snapshot root sent remaining items error hstream herror =>
    rw [hstream] at hsession
    obtain ⟨hsnapshot, hanswer, ⟨start, limit, hroots⟩, hitems⟩ := hsession
    refine ⟨hnode, st, durable, hrep, hblocks, hserved, hsnapshot, hanswer,
      ⟨start, limit, ?_⟩, ?_⟩
    · rw [List.append_nil]
      exact (List.prefix_append _ _).trans hroots
    · rw [List.filterMap_append]
      show List.Forall₂ _ sent (items.filterMap Except.toOption ++ [])
      rw [List.append_nil]
      exact hitems

theorem Inv.run (h : x.Inv Blocks) (hrun : Relation.ReflTransGen (Step Blocks) x y) :
    y.Inv Blocks := by
  induction hrun with
  | refl => exact h
  | tail _ hstep ih => exact ih.step hstep

end SubtreeSystem

end

/-- In every run, the roots that a stream has sent begin the answer of the node, and each
    has one item. The items are true on one chain exactly when the block that the snapshot
    serves at each completing height of these answers completes a subtree with the root, as
    it does when it is the block of the node. -/
theorem subtree_roots_consistent_iff [Proto.Prost] [SubtreeHash] [Blake3]
    (Blocks : CompactBlockRecord → Prop)
    (hdetermined : ∀ r r', Blocks r → Blocks r' → r.hash = r'.hash → r = r')
    (x₀ x : SubtreeSystem ν) (hstarts : x₀.Starts Blocks)
    (hrun : Relation.ReflTransGen (SubtreeSystem.Step Blocks) x₀ x) (pool : Pool)
    (node served : List CompactBlockRecord) (snapshot : ServingSnapshot)
    (sent remaining : List (Bytes × Nat)) (items : List (Except Status Proto.SubtreeRoot))
    (hsession : x.session = .streaming pool node snapshot served sent remaining items) :
    (∃ start limit, sent ++ remaining <+: nodeSubtrees node pool start limit) ∧
    (∀ root ∈ sent, AnsweredFrom pool node root) ∧
    List.Forall₂ (SentFor served) sent (items.filterMap Except.toOption) ∧
    ((∀ item, .ok item ∈ items → item.TrueOnChain Blocks pool) ↔
      ∀ root ∈ sent, Completes pool (served.take (root.2 + 1)) root.1) ∧
    ∀ item, .ok item ∈ items →
      (served[item.completingBlockHeight]?.map (·.hash) =
        node[item.completingBlockHeight]?.map (·.hash)) → item.TrueOnChain Blocks pool := by
  obtain ⟨-, st, durable, -, -, -, hok⟩ := hstarts.inv.run hrun
  rw [hsession] at hok
  obtain ⟨hserved, hnode, ⟨start, limit, hroots⟩, hitems⟩ := hok
  have hanswered : ∀ root ∈ sent, AnsweredFrom pool node root := fun root hroot =>
    completes_of_mem_nodeSubtrees (hroots.subset (List.mem_append_left _ hroot))
  have hmem : ∀ item, item ∈ items.filterMap Except.toOption ↔ .ok item ∈ items := by
    intro item
    rw [List.mem_filterMap]
    constructor
    · rintro ⟨_ | item', hitem', heq⟩
      · cases heq
      · cases heq
        exact hitem'
    · exact fun hitem => ⟨_, hitem, rfl⟩
  have htrue : ∀ root item, SentFor served root item → (item.TrueOnChain Blocks pool ↔
      Completes pool (served.take (root.2 + 1)) root.1) := by
    rintro root _ ⟨block, hblock, rfl⟩
    exact hserved.nodeBlocks.trueOnChain_iff hdetermined hblock
  -- each item is that of a root, and each root has its item
  have hroot : ∀ item, .ok item ∈ items → ∃ root ∈ sent, SentFor served root item := by
    intro item hitem
    obtain ⟨i, hi⟩ := List.mem_iff_getElem?.mp ((hmem item).mpr hitem)
    obtain ⟨root, hget, hsent⟩ := forall₂_getElem? hitems.flip hi
    exact ⟨root, List.mem_of_getElem? hget, hsent⟩
  have hitem : ∀ root ∈ sent, ∃ item, .ok item ∈ items ∧ SentFor served root item := by
    intro root hsent
    obtain ⟨i, hi⟩ := List.mem_iff_getElem?.mp hsent
    obtain ⟨item, hget, hfor⟩ := forall₂_getElem? hitems hi
    exact ⟨item, (hmem item).mp (List.mem_of_getElem? hget), hfor⟩
  refine ⟨⟨start, limit, hroots⟩, hanswered, hitems, ⟨?_, ?_⟩, ?_⟩
  · intro hall root hsent
    obtain ⟨item, hsend, hfor⟩ := hitem root hsent
    exact (htrue root item hfor).mp (hall item hsend)
  · intro hall item hsend
    obtain ⟨root, hsent, hfor⟩ := hroot item hsend
    exact (htrue root item hfor).mpr (hall root hsent)
  · intro item hsend hsame
    obtain ⟨root, hsent, hfor⟩ := hroot item hsend
    obtain ⟨hlt, hcompletes⟩ := hanswered root hsent
    rw [htrue root item hfor]
    obtain ⟨block, hblock, rfl⟩ := hfor
    have hltServed := (List.getElem?_eq_some_iff.mp hblock).1
    -- the chains are the same up to the block
    have htake : served.take (root.2 + 1) = node.take (root.2 + 1) := by
      apply (hserved.nodeBlocks.take _).eq_of_last hdetermined (hnode.take _)
      · rw [List.length_take, List.length_take]
        omega
      · have hget := List.getElem?_eq_getElem hlt
        rw [getLast?_take_succ hblock, getLast?_take_succ hget, ← hblock, ← hget, hsame]
    rw [htake]
    exact hcompletes

/-! ## A reorg between the follower and the node -/

/-- A branch block at height 1 with the leaves of one subtree. -/
def fullBlock : CompactBlockRecord :=
  { plainRecord 100 1 with
    hash := plainHash 1 1
    transactions := [{
      index := 0
      txid := default
      saplingSpends := []
      saplingOutputs := List.replicate subtreeLeafCount ⟨default, default, default⟩
      orchardActions := []
      ironwoodActions := [] }]
    endTreeSizes := ⟨65536, 0, 0⟩ }

theorem noteCommitments_fullBlock :
    (noteCommitments [plainRecord 100 0, fullBlock] .sapling).length = subtreeLeafCount := by
  have hfull : noteCommitments [plainRecord 100 0, fullBlock] .sapling =
      (List.replicate subtreeLeafCount
        (⟨default, default, default⟩ : CompactSaplingOutput)).map (·.cmu) := by
    simp only [noteCommitments, CompactBlockRecord.noteCommitments, fullBlock,
      List.flatMap_cons, List.flatMap_nil, List.append_nil]
    rfl
  rw [hfull, List.length_map, List.length_replicate]

theorem nodeSubtrees_pair [SubtreeHash] {pool : Pool} {a b : CompactBlockRecord}
    (hempty : noteCommitments [a] pool = [])
    (hfull : (noteCommitments [a, b] pool).length = subtreeLeafCount) :
    nodeSubtrees [a, b] pool 0 none =
      [(SubtreeHash.root pool (subtreeLeaves pool [a, b] 0), 1)] := by
  have hpos : ¬ subtreeLeafCount ≤ 0 := by decide
  have hend : endHeight pool [a, b] 0 = some 1 := by
    simp [endHeight, List.range_succ, poolSize, hempty, hfull, hpos]
  have hcount : poolSize [a, b] pool 2 / subtreeLeafCount = 1 := by
    rw [poolSize, List.take_of_length_le (by simp), hfull]
    exact Nat.div_self (by decide)
  simp only [nodeSubtrees, List.length_cons, List.length_nil, hcount, Option.elim_none]
  simp [hend]

section

attribute [local instance] Proto.wireDecoder zeroDigest

/-- A root that is the bytes of all leaves. -/
@[reducible] def joinLeaves : SubtreeHash where
  root _ leaves := leaves.flatMap (·.val)

/-- The blocks of two branches above block 0. -/
def twoBranches (r : CompactBlockRecord) : Prop :=
  r = plainRecord 100 0 ∨ r = plainRecord 100 1 ∨ r = fullBlock

theorem twoBranches_determined (r r' : CompactBlockRecord) (h : twoBranches r)
    (h' : twoBranches r') (hhash : r.hash = r'.hash) : r = r' := by
  have hbranch : plainHash 100 1 ≠ plainHash 1 1 := by
    rw [Ne, plainHash_eq_iff (by decide)]
    decide
  have hheight : ∀ fork, plainHash 100 0 ≠ plainHash fork 1 := by
    intro fork heq
    have := congrArg plainHeight heq
    rw [plainHeight_plainHash (by decide), plainHeight_plainHash (by decide)] at this
    cases this
  rcases h with rfl | rfl | rfl <;> rcases h' with rfl | rfl | rfl
  · rfl
  · exact absurd hhash (hheight 100)
  · exact absurd hhash (hheight 1)
  · exact absurd hhash.symm (hheight 100)
  · rfl
  · exact absurd hhash hbranch
  · exact absurd hhash.symm (hheight 1)
  · exact absurd hhash.symm hbranch
  · rfl

theorem twoBranches_nodeBlocks {b : CompactBlockRecord} (hb : twoBranches b)
    (hheight : b.height = 1) (hlink : b.previousHash = plainHash 100 0) :
    NodeBlocks twoBranches [plainRecord 100 0, b] := by
  refine ⟨⟨?_, ?_, fun _ _ => trivial⟩, ?_⟩
  · rw [List.isChain_pair]
    exact ⟨by rw [hheight]; rfl, hlink⟩
  · intro r hr
    obtain rfl : plainRecord 100 0 = r := Option.some.inj hr
    rfl
  · intro r hr
    rcases List.mem_pair.mp hr with rfl | rfl
    · exact .inl rfl
    · exact hb

/-- The root of the subtree that the full block completes. -/
def fullRoot [SubtreeHash] : Bytes :=
  SubtreeHash.root .sapling (subtreeLeaves .sapling [plainRecord 100 0, fullBlock] 0)

/-- The node is on the branch of the full block, the follower has block `b` above block 0,
    and the request sends the root with the hash of `b`. -/
theorem exists_subtree_run [SubtreeHash] {b : CompactBlockRecord} (hb : twoBranches b)
    (hheight : b.height = 1) (hlink : b.previousHash = plainHash 100 0) :
    ∃ (x₀ x : SubtreeSystem Unit) (snapshot : ServingSnapshot), x₀.Starts twoBranches ∧
      Relation.ReflTransGen (SubtreeSystem.Step twoBranches) x₀ x ∧
      x.session = .streaming .sapling [plainRecord 100 0, fullBlock] snapshot
        [plainRecord 100 0, b] [(fullRoot, 1)] [] [.ok ⟨fullRoot, b.hash.val, 1⟩] := by
  obtain ⟨s, st₀, hreach, hplain, -⟩ : ∃ (s : Store Unit) (st : IndexState),
      Reachable (Call.Honest .any) s ∧ _ :=
    reachable_plain 100 (n := 1) (by decide) none fun _ hc _ => ⟨hc.1, Call.respects_any _⟩
  obtain ⟨st, durable, hrep⟩ := hreach.represents fun _ hc => hc
  obtain rfl : durable = [plainRecord 100 0] := hrep.chain_unique hplain
  have hhead : HeadOn st [b] := by
    unfold HeadOn
    rw [hrep.headHeight, hrep.tipHash]
    refine ⟨by rw [hheight]; rfl, ?_, by decide, trivial⟩
    intro hash hhash
    obtain rfl : plainHash 100 0 = hash := Option.some.inj hhash
    exact hlink
  obtain ⟨snapshot, hwith, hvolatile, -⟩ := hhead.withHead 0
  have hblock : snapshot.volatile 1 = some b := by
    simp [ServingSnapshot.volatile, hvolatile, hheight]
  let roots := nodeSubtrees [plainRecord 100 0, fullBlock] .sapling 0 none
  have hroots : roots = [(fullRoot, 1)] :=
    nodeSubtrees_pair rfl noteCommitments_fullBlock
  -- publish the head, ask the node, start the stream, send its item
  let x₀ : SubtreeSystem Unit :=
    ⟨[plainRecord 100 0, fullBlock], s, st.toServingSnapshot, [plainRecord 100 0], .idle⟩
  let x₁ : SubtreeSystem Unit := { x₀ with snapshot, served := [plainRecord 100 0] ++ [b] }
  let x₂ : SubtreeSystem Unit :=
    { x₁ with session := .answered .sapling [plainRecord 100 0, fullBlock] roots }
  let x₃ : SubtreeSystem Unit := { x₂ with
    session := .streaming .sapling [plainRecord 100 0, fullBlock] snapshot
      [plainRecord 100 0, b] [] roots [] }
  have hheadBlocks : ∀ r ∈ [b], twoBranches r := by
    intro r hr
    rw [List.mem_singleton.mp hr]
    exact hb
  have hpublish : SubtreeSystem.Step twoBranches x₀ x₁ := .publish hrep hwith hheadBlocks
  have hrequest : subtreeRoots (fun pool start limit => .ok (nodeSubtrees x₁.node pool start limit))
      ⟨0, 0, 0⟩ = .ok (.sapling, roots) := rfl
  have hask : SubtreeSystem.Step twoBranches x₁ x₂ := .ask rfl hrequest
  have hstart : SubtreeSystem.Step twoBranches x₂ x₃ := .start rfl
  have hitem : subtreeItem s snapshot (fullRoot, 1) = .ok ⟨fullRoot, b.hash.val, 1⟩ := by
    simp only [subtreeItem, completingBlock, hblock]
    rfl
  have hsession : x₃.session = .streaming .sapling [plainRecord 100 0, fullBlock] snapshot
      [plainRecord 100 0, b] [] ((fullRoot, 1) :: []) [] := by
    show SubtreeSession.streaming _ _ _ _ _ roots _ = _
    rw [hroots]
  have hblocks : ∀ r ∈ [plainRecord 100 0], twoBranches r := by
    intro r hr
    rw [List.mem_singleton.mp hr]
    exact .inl rfl
  have hbranch : NodeBlocks twoBranches [plainRecord 100 0, fullBlock] :=
    twoBranches_nodeBlocks (.inr (.inr rfl)) rfl rfl
  have hsend : SubtreeSystem.Step twoBranches x₃ _ := .send hsession hitem
  exact ⟨x₀, _, snapshot, ⟨st, hrep, rfl, hblocks, hbranch, rfl⟩,
    .tail (.tail (.tail (.single hpublish) hask) hstart) hsend, rfl⟩

attribute [local instance] joinLeaves

/-- The follower and the node are on one branch, and the stream sends the root with the
    block that completes it. -/
theorem subtree_root_true_on_branch : ∃ (x₀ x : SubtreeSystem Unit)
    (snapshot : ServingSnapshot) (item : Proto.SubtreeRoot), x₀.Starts twoBranches ∧
    Relation.ReflTransGen (SubtreeSystem.Step twoBranches) x₀ x ∧
    x.session = .streaming .sapling [plainRecord 100 0, fullBlock] snapshot
      [plainRecord 100 0, fullBlock] [(fullRoot, 1)] [] [.ok item] ∧
    item.completingBlockHash = fullBlock.hash.val ∧ item.TrueOnChain twoBranches .sapling := by
  obtain ⟨x₀, x, snapshot, hstarts, hrun, hsession⟩ :=
    exists_subtree_run (.inr (.inr rfl) : twoBranches fullBlock) rfl rfl
  obtain ⟨-, -, -, -, htrue⟩ := subtree_roots_consistent_iff twoBranches twoBranches_determined
    x₀ x hstarts hrun _ _ _ _ _ _ _ hsession
  exact ⟨x₀, x, snapshot, _, hstarts, hrun, hsession, rfl, htrue _ List.mem_cons_self rfl⟩

/-- The node has changed to the branch with the full block, and the follower has not: the
    root is sent with the hash of a block that adds no leaf. -/
theorem subtree_root_of_other_branch : ∃ (x₀ x : SubtreeSystem Unit)
    (pool : Pool) (node served : List CompactBlockRecord) (snapshot : ServingSnapshot)
    (sent remaining : List (Bytes × Nat)) (item : Proto.SubtreeRoot),
    x₀.Starts twoBranches ∧
    Relation.ReflTransGen (SubtreeSystem.Step twoBranches) x₀ x ∧
    x.session = .streaming pool node snapshot served sent remaining [.ok item] ∧
    ¬ item.TrueOnChain twoBranches pool := by
  obtain ⟨x₀, x, snapshot, hstarts, hrun, hsession⟩ :=
    exists_subtree_run (.inr (.inl rfl) : twoBranches (plainRecord 100 1)) rfl rfl
  refine ⟨x₀, x, _, _, _, _, _, _, _, hstarts, hrun, hsession, ?_⟩
  have hserved : NodeBlocks twoBranches [plainRecord 100 0, plainRecord 100 1] :=
    twoBranches_nodeBlocks (.inr (.inl rfl)) rfl rfl
  have hblock : [plainRecord 100 0, plainRecord 100 1][1]? = some (plainRecord 100 1) := rfl
  rw [hserved.trueOnChain_iff twoBranches_determined hblock]
  rintro ⟨index, _, hsize, _⟩
  have hpos : 0 < (index + 1) * subtreeLeafCount := Nat.mul_pos (Nat.succ_pos _) (by decide)
  exact absurd (Nat.lt_of_lt_of_le hpos hsize) (Nat.lt_irrefl 0)

end

end Ztreamer
