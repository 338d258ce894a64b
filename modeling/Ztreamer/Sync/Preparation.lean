import Ztreamer.Sync.Reconcile
import Ztreamer.Sync.Serving

/-! # Heads that connect

    Whatever the source answers, the head that an extension, a reconciliation or
    a recovery returns continues the durable chain of the state that it returns.

    * `RunsFrom`: what `checkHead` accepts; `HeadOn`: a head above a state,
    * `Replacement.Found` / `Recovery.Found`: what a reconciliation and a recovery
      have found before they write,
    * `syncExtensionOnceBy_headOn`, `Current.replaceSuffixBy`,
      `Current.recoverDeepReorg`: the heads that are returned.
-/

namespace Ztreamer

open Octets Result Connected

variable {ν : Type}

/-! ## Heads that connect -/

/-- The records have the heights from `height` on, and each links to the one before
    it. Every record has a height above it. -/
def RunsFrom (height : Nat) (previousHash : Option Hash) : List CompactBlockRecord → Prop
  | [] => True
  | r :: records =>
    r.height.val = height ∧ (∀ hash ∈ previousHash, r.previousHash = hash) ∧ height + 1 < 2 ^ 32 ∧
      RunsFrom (height + 1) (some r.hash) records

/-- The link that the next record after `records` must have. -/
def lastHash (previousHash : Option Hash) (records : List CompactBlockRecord) : Option Hash :=
  records.getLast?.elim previousHash fun r => some r.hash

theorem lastHash_cons (previousHash : Option Hash) (r : CompactBlockRecord)
    (records : List CompactBlockRecord) :
    lastHash previousHash (r :: records) = lastHash (some r.hash) records := by
  unfold lastHash
  cases records with
  | nil => rfl
  | cons a records =>
    rw [List.getLast?_cons_cons, List.getLast?_eq_some_getLast (List.cons_ne_nil a records)]
    rfl

variable {height : Nat} {blocks : List ParsedCompactBlock} {b : OrderedBuilder}

theorem checkHead_eq_ok {previousHash : Option Hash} {head : List CompactBlockRecord} :
    checkHead height previousHash head = .ok () ↔ RunsFrom height previousHash head := by
  induction head generalizing height previousHash with
  | nil => exact ⟨fun _ => trivial, fun _ => rfl⟩
  | cons r head ih =>
    simp only [checkHead, RunsFrom, bind_eq_ok, ensure_eq_ok, ih]
    constructor
    · rintro ⟨-, ⟨hheight, hlink⟩, -, hlt, hrest⟩
      exact ⟨hheight, hlink, hlt, hrest⟩
    · rintro ⟨hheight, hlink, hlt, hrest⟩
      exact ⟨(), ⟨hheight, hlink⟩, (), hlt, hrest⟩

namespace RunsFrom

variable {height : Nat} {previousHash : Option Hash} {as bs records : List CompactBlockRecord}

theorem append_iff : RunsFrom height previousHash (as ++ bs) ↔
    RunsFrom height previousHash as ∧ RunsFrom (height + as.length)
    (lastHash previousHash as) bs := by
  induction as generalizing height previousHash with
  | nil => simp [RunsFrom, lastHash]
  | cons r as ih =>
    have hlen : height + (r :: as).length = height + 1 + as.length := by
      rw [List.length_cons]
      omega
    rw [List.cons_append, RunsFrom, RunsFrom, ih, lastHash_cons, hlen]
    tauto

variable (h : RunsFrom height previousHash records)

include h

theorem height_eq {i : Nat} {r : CompactBlockRecord} (hi : records[i]? = some r) :
    r.height.val = height + i := by
  induction records generalizing height previousHash i with
  | nil => simp at hi
  | cons a records ih =>
    obtain ⟨ha, -, -, hrest⟩ := h
    cases i with
    | zero =>
      obtain rfl : a = r := by simpa using hi
      exact ha
    | succ i =>
      have := ih hrest (by simpa using hi)
      omega

/-- Records that run from a position follow each other, and continue it. -/
theorem isChain :
    records.IsChain CompactBlockRecord.Precedes ∧ ∀ r ∈ records.head?, r.height.val = height ∧
      ∀ hash ∈ previousHash, r.previousHash = hash := by
  induction records generalizing height previousHash with
  | nil => exact ⟨.nil, by simp⟩
  | cons a records ih =>
    obtain ⟨ha, hlink, -, hrest⟩ := h
    obtain ⟨hchain, hhead⟩ := ih hrest
    refine ⟨List.isChain_cons.mpr ⟨?_, hchain⟩, ?_⟩
    · intro r hr
      obtain ⟨hheight, hprevious⟩ := hhead r hr
      exact ⟨by omega, hprevious _ rfl⟩
    · intro r hr
      obtain rfl : a = r := by simpa using hr
      exact ⟨ha, hlink⟩

/-- The records up to a height at or above the position, and those above it. -/
theorem filter_height (through : Nat) :
    (records.filter fun r => decide (r.height.val ≤ through)) =
    records.take (through + 1 - height) ∧
      (records.filter fun r => decide (through < r.height.val)) =
        records.drop (through + 1 - height) :=
  Ztreamer.filter_height (fun _ _ hi => h.height_eq hi) through

theorem drop (n : Nat) (hn : n ≤ records.length) :
    RunsFrom (height + n) (lastHash previousHash (records.take n)) (records.drop n) := by
  rw [← List.take_append_drop n records, append_iff, List.length_take, Nat.min_eq_left hn] at h
  exact h.2

theorem take (n : Nat) :
    RunsFrom height previousHash (records.take n) := by
  rw [← List.take_append_drop n records, append_iff] at h
  exact h.1

end RunsFrom

/-- The first height above the durable chain of a state. -/
def IndexState.headHeight (st : IndexState) : Nat := st.durableTip.elim 0 (·.height + 1)

variable {st : IndexState}

theorem IndexState.headHeight_of_tip {tip : BlockId} (htip : st.durableTip = some tip) :
    st.headHeight = tip.height + 1 := by
  rw [IndexState.headHeight, htip]
  rfl

/-- The head continues the durable chain of the state. -/
def HeadOn (st : IndexState) (head : List CompactBlockRecord) : Prop :=
  RunsFrom st.headHeight (st.durableTip.map (·.hash)) head

theorem HeadOn.withHead {st : IndexState} {head : List CompactBlockRecord} (h : HeadOn st head)
    (now : Instant) : ∃ snapshot, ServingSnapshot.withHead st head now = .ok snapshot ∧
      snapshot.volatileHead = head ∧ snapshot.generation = st.generation := by
  have hcheck : checkHead (st.durableTip.elim 0 fun tip => min (tip.height + 1) (2 ^ 32 - 1))
      (st.durableTip.map (·.hash)) head = .ok () := by
    rw [checkHead_eq_ok]
    cases head with
    | nil => trivial
    | cons r head =>
      -- the addition saturates only below a head that is empty
      have hlt := h.2.2.1
      unfold HeadOn at h
      unfold IndexState.headHeight at h hlt
      cases htip : st.durableTip with
      | none =>
        rw [htip] at h
        exact h
      | some tip =>
        rw [htip] at h hlt
        simp only [Option.elim_some] at h hlt ⊢
        rw [Nat.min_eq_left (by omega)]
        exact h
  unfold ServingSnapshot.withHead
  rw [hcheck, ok_bind]
  exact ⟨_, rfl, rfl, rfl⟩

section

variable [Proto.Prost] {s : Store ν} {st : IndexState} {durable head : List CompactBlockRecord}

theorem Represents.headHeight (h : Represents .any s st durable) :
    st.headHeight = durable.length := by
  unfold IndexState.headHeight
  cases htip : st.durableTip with
  | none =>
    rw [h.describes.tip, Option.map_eq_none_iff, List.getLast?_eq_none_iff] at htip
    rw [htip]
    rfl
  | some tip => exact h.describes.tip_height h.connected htip

theorem Represents.tipHash (h : Represents .any s st durable) :
    st.durableTip.map (·.hash) = lastHash none durable := by
  rw [h.describes.tip, lastHash]
  cases durable.getLast? <;> rfl

/-- A head that continues the state of a store makes one chain with it. -/
theorem Represents.current (h : Represents .any s st durable) (hhead : HeadOn st head) :
    Current .any s st durable head := by
  refine ⟨h, h.connected.append ⟨hhead.isChain.1, ?_, ?_, fun _ _ => trivial⟩⟩
  · intro r hr
    rw [← h.headHeight]
    exact (hhead.isChain.2 r hr).1
  · intro last hlast r hr
    refine (hhead.isChain.2 r hr).2 last.hash ?_
    rw [(h.describes.tip_of_getLast hlast).1]
    rfl

/-- What stands above a block of the current chain and in the head runs from it. -/
theorem Current.runsFrom_drop (h : Current .any s st durable head) (hhead : HeadOn st head)
    {n : Nat} (hle : durable.length ≤ n) (hn : n ≤ (durable ++ head).length) :
    RunsFrom n (lastHash none ((durable ++ head).take n)) ((durable ++ head).drop n) := by
  have hrun : RunsFrom durable.length (lastHash none durable) head := by
    rw [← h.represents.headHeight, ← h.represents.tipHash]
    exact hhead
  rw [List.length_append] at hn
  have hdrop := hrun.drop (n - durable.length) (by omega)
  rw [Nat.add_sub_cancel' hle] at hdrop
  rw [List.drop_append, List.drop_eq_nil_of_le hle, List.nil_append, List.take_append,
    List.take_of_length_le hle]
  have hlast : lastHash none (durable ++ head.take (n - durable.length)) =
      lastHash (lastHash none durable) (head.take (n - durable.length)) := by
    unfold lastHash
    rw [List.getLast?_append]
    cases (head.take (n - durable.length)).getLast? <;> rfl
  rw [hlast]
  exact hdrop

end

/-! ## What a builder gives -/

namespace OrderedBuilder

variable {b b' : OrderedBuilder} {records : List CompactBlockRecord}

/-- The records of a batch run from the position of the builder, and the builder
    moves to their end. -/
theorem Takes.runsFrom {blocks : List ParsedCompactBlock} (h : Takes b blocks records b')
    (hb : b.Keyed) : RunsFrom b.nextHeight b.previousHash records ∧
      b'.nextHeight = b.nextHeight + records.length ∧
      b'.previousHash = lastHash b.previousHash records := by
  induction h with
  | nil => exact ⟨trivial, rfl, rfl⟩
  | @cons b b₁ b₂ block bytes record blocks records hget hnext _ ih =>
    obtain ⟨hrun, hheight, hhash⟩ := ih (hb.takeNext hnext)
    obtain ⟨hparent, hrecord, hlt, rfl⟩ := takeNext_eq_ok.mp hnext
    obtain ⟨sizes, -, rfl⟩ := ParsedCompactBlock.intoRecord_eq_some.mp hrecord
    refine ⟨⟨hb _ _ _ hget, hparent, hlt, hrun⟩, ?_, ?_⟩
    · rw [hheight, List.length_cons]
      simp only
      omega
    · rw [hhash, lastHash_cons]
      rfl

theorem buildBatch_runsFrom {durableThrough sealThrough : Option Nat} {maxBatchBytes : Nat}
    {batch : WriteBatch} (hb : b.Keyed)
    (h : b.buildBatch durableThrough sealThrough maxBatchBytes = .ok (b', some batch)) :
    RunsFrom b.nextHeight b.previousHash batch.records ∧
      b'.nextHeight = b.nextHeight + batch.records.length ∧
      b'.previousHash = lastHash b.previousHash batch.records ∧ b'.Keyed := by
  have hb' : b'.Keyed := AllPending.buildBatch hb h
  obtain ⟨blocks, b₁, htakes, -, -, -, rfl⟩ := buildBatch_eq_some h
  obtain ⟨hrun, hheight, hhash⟩ := htakes.runsFrom hb
  exact ⟨hrun, hheight, hhash, hb'⟩

/-- The drained records run from the position of the builder. -/
theorem drainRecords_runsFrom {through maxBatchBytes : Nat} (hb : b.Keyed)
    (h : b.drainRecords through maxBatchBytes = .ok (b', records)) :
    RunsFrom b.nextHeight b.previousHash records := by
  induction hn : 2 ^ 32 - b.nextHeight using Nat.strong_induction_on generalizing b records with
  | _ n ih =>
    rw [drainRecords] at h
    split at h
    · cases h
    · cases h
      trivial
    case h_3 b₁ batch hbatch =>
      obtain ⟨⟨b₂, rest⟩, hrest, h⟩ := bind_eq_ok.mp h
      cases h
      obtain ⟨hrun, hheight, hhash, hkeyed⟩ := buildBatch_runsFrom hb hbatch
      have hmove := buildBatch_nextHeight hbatch
      have hruns := ih (2 ^ 32 - b₁.nextHeight) (by omega) hkeyed hrest rfl
      rw [hheight, hhash] at hruns
      exact RunsFrom.append_iff.mpr ⟨hrun, hruns⟩

/-- Pushes do not move a builder. -/
theorem foldlM_push_keyed {blocks : List ParsedCompactBlock} (hb : b.Keyed)
    (h : blocks.foldlM push b = .ok b') :
    b'.Keyed ∧ b'.nextHeight = b.nextHeight ∧ b'.previousHash = b.previousHash := by
  induction blocks generalizing b with
  | nil =>
    cases h
    exact ⟨hb, rfl, rfl⟩
  | cons block blocks ih =>
    rw [List.foldlM_cons] at h
    obtain ⟨b₁, hpush, h⟩ := bind_eq_ok.mp h
    obtain ⟨hkeyed, hheight, hhash⟩ := ih (hb.push hpush) h
    obtain ⟨-, hheight₁, hhash₁, -⟩ := push_eq_ok hpush
    exact ⟨hkeyed, hheight.trans hheight₁, hhash.trans hhash₁⟩

theorem new_eq_ok {maxPendingBytes : Nat} (h : new st maxPendingBytes = .ok b) :
    b.Keyed ∧ st.nextHeight = some b.nextHeight ∧ b.previousHash = st.durableTip.map (·.hash) := by
  have hkeyed : b.Keyed := .new h
  simp only [OrderedBuilder.new, bind_eq_ok, okOr_eq_ok, pure_eq_ok, Except.ok.injEq] at h
  obtain ⟨height, hheight, rfl⟩ := h
  exact ⟨hkeyed, hheight, rfl⟩

end OrderedBuilder

theorem IndexState.nextHeight_eq_headHeight (h : st.nextHeight = some height) :
    height = st.headHeight := by
  unfold IndexState.nextHeight at h
  unfold IndexState.headHeight
  split at h
  · simp_all
  · split at h
    · simp_all
    · cases h

/-- The records of polled blocks run from the block that they were built on. -/
theorem buildRecords_runsFrom {base : BlockId} {treeSizes : TreeSizes} {visibleTip : Nat}
    {config : PipelineConfig} {records : List CompactBlockRecord}
    (h : buildRecords st base treeSizes blocks visibleTip config = .ok records) :
    RunsFrom (base.height + 1) (some base.hash) records := by
  simp only [buildRecords, bind_eq_ok, Prod.exists, pure_eq_ok, Except.ok.injEq] at h
  obtain ⟨b, hnew, b₁, hpush, b₂, _, hdrain, rfl⟩ := h
  obtain ⟨hkeyed, hheight, hhash⟩ := OrderedBuilder.new_eq_ok hnew
  obtain ⟨hkeyed₁, hheight₁, hhash₁⟩ := OrderedBuilder.foldlM_push_keyed hkeyed hpush
  have hrun := OrderedBuilder.drainRecords_runsFrom hkeyed₁ hdrain
  rw [hheight₁, hhash₁, hhash, IndexState.nextHeight_eq_headHeight hheight] at hrun
  exact hrun

/-! ## Extensions -/

/-- The builder stands at the end of the durable chain of the state. -/
structure OrderedBuilder.At (b : OrderedBuilder) (st : IndexState) : Prop where
  keyed : b.Keyed
  nextHeight : b.nextHeight = st.headHeight
  previousHash : b.previousHash = st.durableTip.map (·.hash)

theorem OrderedBuilder.at_new {maxPendingBytes : Nat}
    (h : OrderedBuilder.new st maxPendingBytes = .ok b) : b.At st := by
  obtain ⟨hkeyed, hheight, hhash⟩ := OrderedBuilder.new_eq_ok h
  exact ⟨hkeyed, IndexState.nextHeight_eq_headHeight hheight, hhash⟩

theorem OrderedBuilder.At.foldlM_push {b' : OrderedBuilder} (h : b.At st)
    (hpush : blocks.foldlM OrderedBuilder.push b = .ok b') : b'.At st := by
  obtain ⟨hkeyed, hheight, hhash⟩ := OrderedBuilder.foldlM_push_keyed h.keyed hpush
  exact ⟨hkeyed, hheight.trans h.nextHeight, hhash.trans h.previousHash⟩

section

variable [Proto.Prost] {s s' : Store ν} {st st' : IndexState}
  {chain durable head head' : List CompactBlockRecord} {config : PipelineConfig} {poll : Poll}

/-- A batch that is written moves the builder and the state together. -/
theorem OrderedBuilder.At.write {b b' : OrderedBuilder} {durableThrough sealThrough : Option Nat}
    {maxBatchBytes : Nat} {batch : WriteBatch} (h : b.At st) (hrep : Represents .any s st chain)
    (hbatch : b.buildBatch durableThrough sealThrough maxBatchBytes = .ok (b', some batch))
    (hwrite : s.write batch = .ok (s', st')) :
    Represents .any s' st' (chain ++ batch.records) ∧ b'.At st' := by
  obtain ⟨hrun, hheight, hhash, hkeyed⟩ := OrderedBuilder.buildBatch_runsFrom h.keyed hbatch
  obtain ⟨-, -, -, hne, -⟩ := OrderedBuilder.buildBatch_eq_some hbatch
  simp only [Store.write, bind_eq_ok, okMapError_eq_ok] at hwrite
  obtain ⟨encoded, hencode, hwrite⟩ := hwrite
  obtain ⟨hrep', -⟩ := hrep.writeEncoded hencode hne hrun.isChain.1 (fun _ _ => trivial) hwrite
  refine ⟨hrep', hkeyed, ?_, ?_⟩
  · rw [hheight, h.nextHeight, hrep.headHeight, hrep'.headHeight, List.length_append]
  · rw [hhash, h.previousHash, hrep.tipHash, hrep'.tipHash]
    unfold lastHash
    rw [List.getLast?_append]
    cases batch.records.getLast? <;> rfl

/-- However many batches are written, the store represents a chain, and a builder
    that ran out of batches stands at its end. -/
theorem writeBatches_at {durableThrough sealThrough : Option Nat} {maxBatchBytes : Nat}
    {b : OrderedBuilder} {result : Except HeadSyncError (IndexState × OrderedBuilder)}
    (hrep : Represents .any s st chain) (hb : b.At st)
    (h : writeBatches durableThrough sealThrough maxBatchBytes s st b = (s', result)) :
    ∃ st' chain', Represents .any s' st' chain' ∧
      ∀ st'' b', result = .ok (st'', b') → st'' = st' ∧ b'.At st' := by
  induction hn : 2 ^ 32 - b.nextHeight using Nat.strong_induction_on
    generalizing s st chain b with
  | _ n ih =>
    rw [writeBatches] at h
    split at h
    · cases h
      exact ⟨st, chain, hrep, fun _ _ hok => by cases hok⟩
    case h_2 b₁ hnone =>
      cases h
      refine ⟨st, chain, hrep, ?_⟩
      intro st'' b' hok
      cases hok
      rw [OrderedBuilder.buildBatch_eq_none hnone]
      exact ⟨rfl, hb⟩
    case h_3 b₁ batch hbatch =>
      split at h
      · cases h
        exact ⟨st, chain, hrep, fun _ _ hok => by cases hok⟩
      case h_2 s₁ st₁ hwrite =>
        obtain ⟨hrep₁, hb₁⟩ := hb.write hrep hbatch hwrite
        have hmove := OrderedBuilder.buildBatch_nextHeight hbatch
        exact ih (2 ^ 32 - b₁.nextHeight) (by omega) hrep₁ hb₁ h rfl

/-- An extension leaves an index that represents a chain, and a head that it returns
    continues the state that it returns. -/
theorem syncExtensionOnceBy_headOn
    {result : Except HeadSyncError (IndexState × List CompactBlockRecord)}
    (hrep : Represents .any s st chain)
    (h : syncExtensionOnceBy s poll st config = (s', result)) :
    ∃ st' chain', Represents .any s' st' chain' ∧
      ∀ st'' head', result = .ok (st'', head') → st'' = st' ∧ HeadOn st' head' := by
  unfold syncExtensionOnceBy at h
  split at h
  · cases h
    exact ⟨st, chain, hrep, fun _ _ hok => by cases hok⟩
  · cases h
    refine ⟨st, chain, hrep, ?_⟩
    intro st'' head' hok
    cases hok
    exact ⟨rfl, trivial⟩
  case h_3 visibleTip b hprepare =>
    -- the builder starts at the state, and pushes do not move it
    have hb : b.At st := by
      simp only [prepareExtensionBy, bind_eq_ok] at hprepare
      obtain ⟨-, -, prepared, -, hprepare⟩ := hprepare
      split at hprepare
      · cases hprepare
      · simp only [bind_eq_ok, okMapError_eq_ok, pure_eq_ok, Except.ok.injEq, Option.some.injEq,
          Prod.mk.injEq] at hprepare
        obtain ⟨_, ⟨b₀, hnew, hpush⟩, -, rfl⟩ := hprepare
        exact (OrderedBuilder.at_new hnew).foldlM_push hpush
    split at h
    case h_1 s₁ error hwrite =>
      cases h
      obtain ⟨st₁, chain₁, hrep₁, -⟩ := writeBatches_at hrep hb hwrite
      exact ⟨st₁, chain₁, hrep₁, fun _ _ hok => by cases hok⟩
    case h_2 s₁ st₁ b₁ hwrite =>
      obtain ⟨st₂, chain₂, hrep₂, hat⟩ := writeBatches_at hrep hb hwrite
      obtain ⟨rfl, hb₁⟩ := hat st₁ b₁ rfl
      split at h
      · cases h
        exact ⟨st₁, chain₂, hrep₂, fun _ _ hok => by cases hok⟩
      case h_2 b₂ volatile hdrain =>
        cases h
        refine ⟨st₁, chain₂, hrep₂, ?_⟩
        intro st'' head' hok
        cases hok
        have hrun := OrderedBuilder.drainRecords_runsFrom hb₁.keyed hdrain
        rw [hb₁.nextHeight, hb₁.previousHash] at hrun
        exact ⟨rfl, hrun⟩

/-! ## Reconciliations and recoveries -/

/-- A block of the current chain, under its height. -/
def OnCurrent (durable head : List CompactBlockRecord) (r : CompactBlockRecord) : Prop :=
  (durable ++ head)[r.height.val]? = some r

/-- A poll retains only blocks that it knew. -/
def Poll.RetainsKnown (poll : Poll) : Prop :=
  ∀ start previousHash known suffix, poll start previousHash known = .ok suffix →
    ∀ block ∈ suffix.retained, ∃ r ∈ known, r.blockId = block

omit [Proto.Prost] in
theorem MovingSource.pollAt_retainsKnown (src : MovingSource) (time : Nat) :
    (src.pollAt time).RetainsKnown := by
  intro start previousHash known suffix h block hblock
  obtain ⟨⟨_, time'⟩, hpoll, rfl⟩ := map_eq_ok.mp h
  obtain ⟨count, _, _, hretained, -⟩ := MovingSource.pollCanonicalHead_spec hpoll
  rw [hretained] at hblock
  obtain ⟨r, hlast, rfl⟩ := Option.map_eq_some_iff.mp hblock
  have hmem := List.mem_of_mem_take (List.mem_of_getLast? hlast)
  rw [(linkedPrefix_linkedFrom start previousHash known).2] at hmem
  exact ⟨r, List.mem_of_mem_take hmem, rfl⟩

namespace Current

variable (h : Current .any s st durable head)

include h

theorem onCurrent_of_currentRecord {height : Nat} {r : CompactBlockRecord}
    (hr : Ztreamer.currentRecord s st head height = .ok (some r)) :
    r.height.val = height ∧ OnCurrent durable head r := by
  rw [h.currentRecord, Except.ok.injEq] at hr
  have hheight := h.connected.height_eq hr
  exact ⟨hheight, by rw [OnCurrent, hheight]; exact hr⟩

end Current

omit [Proto.Prost] in
theorem deepReorgOfAnchor_eq_ok {α : Type} {result : Except HeadError α} {a : α}
    (h : deepReorgOfAnchor result = .ok a) : result = .ok a := by
  unfold deepReorgOfAnchor at h
  split at h
  · cases h
    rfl
  · cases h
  · cases h

/-- The current chain gives each record under its height. -/
def CurrentKeyed (s : Store ν) (st : IndexState) (head : List CompactBlockRecord) : Prop :=
  ∀ height r, currentRecord s st head height = .ok (some r) → r.height.val = height

/-- The known records are those of the current chain. -/
theorem current_of_knownRecords (hkeyed : CurrentKeyed s st head) {heights : List Nat}
    {known : List CompactBlockRecord} (hknown : knownRecords s st head heights = .ok known) :
    ∀ r ∈ known, currentRecord s st head r.height.val = .ok (some r) := by
  induction heights generalizing known with
  | nil =>
    cases hknown
    intro r hr
    cases hr
  | cons height heights ih =>
    rw [knownRecords] at hknown
    obtain ⟨record, hrecord, hknown⟩ := bind_eq_ok.mp hknown
    cases record with
    | none =>
      cases hknown
      intro r hr
      cases hr
    | some record =>
      obtain ⟨records, hrecords, hknown⟩ := bind_eq_ok.mp hknown
      cases hknown
      intro r hr
      rcases List.mem_cons.mp hr with rfl | hr
      · rw [hkeyed height r hrecord]
        exact hrecord
      · exact ih hrecords r hr

/-- The common block stays on the current chain. -/
theorem current_of_extendCommon (hkeyed : CurrentKeyed s st head) {common common' : Option BlockId}
    {blocks : List ParsedCompactBlock}
    (hcommon : ∀ block ∈ common, ∃ r, currentRecord s st head r.height.val = .ok (some r) ∧
      r.blockId = block)
    (hextend : extendCommon s st head common blocks = .ok common') :
    ∀ block ∈ common', ∃ r, currentRecord s st head r.height.val = .ok (some r) ∧
      r.blockId = block := by
  induction blocks generalizing common with
  | nil =>
    cases hextend
    exact hcommon
  | cons block blocks ih =>
    rw [extendCommon] at hextend
    obtain ⟨old, hold, hextend⟩ := bind_eq_ok.mp hextend
    cases old with
    | none =>
      cases hextend
      exact hcommon
    | some old =>
      simp only at hextend
      split at hextend
      · refine ih ?_ hextend
        intro block hblock
        cases hblock
        rw [← hkeyed _ old hold] at hold
        exact ⟨old, hold, rfl⟩
      · cases hextend
        exact hcommon

/-- What a reconciliation has read: a common block of the current chain, the ancestor and the
    records above it through the common block, and the records of polled blocks that were built
    on the common block. -/
structure Replacement.Prepared (r : Replacement) (s : Store ν) (head : List CompactBlockRecord)
    (poll : Poll) (config : PipelineConfig) (common : CompactBlockRecord)
    (blocks : List ParsedCompactBlock) (kept records : List CompactBlockRecord) : Prop where
  tip : r.state.durableTip = some r.oldDurableTip
  current : currentRecord s r.state head common.height.val = .ok (some common)
  ancestor : requireRecord s r.state head (min common.height.val r.oldDurableTip.height) =
    .ok r.ancestor
  read : (List.range' (min common.height.val r.oldDurableTip.height + 1) (common.height.val -
    min common.height.val r.oldDurableTip.height)).mapM (requireRecord s r.state head) = .ok kept
  polled : ∃ start previousHash known suffix, poll start previousHash known = .ok suffix ∧
    ∀ block ∈ blocks, block ∈ suffix.blocks
  built : buildRecords r.state common.blockId common.endTreeSizes blocks r.visibleTip config =
    .ok records
  canonical : r.canonical = kept ++ records

theorem prepareReplacement_eq_ok (hkeyed : CurrentKeyed s st head) (hst : s.getState = .ok st)
    (hpoll : poll.RetainsKnown) {oldVisibleTip : Nat} {r : Replacement}
    (hprepare : prepareReplacement s poll head config oldVisibleTip = .ok r) :
    r.state = st ∧ ∃ common blocks kept records,
      r.Prepared s head poll config common blocks kept records := by
  simp only [prepareReplacement, planReplacement, bind_assoc, bind_eq_ok,
    okMapError_eq_ok, okOr_eq_ok, pure_eq_ok, Except.ok.injEq] at hprepare
  obtain ⟨st₁, hst₁, anchor, hanchor, known, hknown, suffix, hsuffix, common?, hcommon, _, rfl,
    tip, htip, ancestor, hancestor, kept, hkept, _, rfl, records, hrecords, rfl⟩ := hprepare
  obtain rfl : st = st₁ := Except.ok.inj (hst.symm.trans hst₁)
  have hsuffix := deepReorgOfAnchor_eq_ok hsuffix
  -- the common block is a known one, the anchor, or one that the poll read again
  obtain ⟨c, hc, rfl⟩ : ∃ c, currentRecord s st head c.height.val = .ok (some c) ∧
      c.blockId = _ := by
    refine current_of_extendCommon hkeyed ?_ hcommon _ rfl
    intro block hblock
    cases hretained : suffix.retained with
    | some retained =>
      rw [hretained] at hblock
      obtain rfl : retained = block := by simpa using hblock
      obtain ⟨k, hk, rfl⟩ := hpoll _ _ _ _ hsuffix retained hretained
      exact ⟨k, current_of_knownRecords hkeyed hknown k hk, rfl⟩
    | none =>
      rw [hretained, Option.none_or] at hblock
      obtain ⟨a, rfl, rfl⟩ := Option.map_eq_some_iff.mp hblock
      cases hheight : heightBelow oldVisibleTip sealDepth with
      | none =>
        rw [hheight] at hanchor
        cases hanchor
      | some height =>
        rw [hheight] at hanchor
        have hrecord : currentRecord s st head height = .ok (some a) := hanchor
        rw [← hkeyed _ a hrecord] at hrecord
        exact ⟨a, hrecord, rfl⟩
  have hrequire : requireRecord s st head c.height.val = .ok c := by
    rw [requireRecord, hc, ok_bind]
    rfl
  have hread := mapM_eq_ok.mp hkept
  have hlen := hread.length_eq
  rw [List.length_range'] at hlen
  -- the record that the new records are built on is the common block
  have hbase : kept.getLast?.getD ancestor = c := by
    cases hlast : kept.getLast? with
    | none =>
      rw [List.getLast?_eq_none_iff.mp hlast, List.length_nil] at hlen
      have hle : min c.blockId.height tip.height = c.height.val := by
        simp only [CompactBlockRecord.blockId] at hlen ⊢
        omega
      rw [hle] at hancestor
      exact Except.ok.inj (hancestor.symm.trans hrequire)
    | some last =>
      rw [List.getLast?_eq_getElem?] at hlast
      obtain ⟨height, hheight, hread⟩ := forall₂_getElem? hread.flip hlast
      have hlt := (List.getElem?_eq_some_iff.mp hlast).1
      obtain ⟨hlt', rfl⟩ := List.getElem?_eq_some_iff.mp hheight
      simp only [List.getElem_range', CompactBlockRecord.blockId] at hread hlen
      rw [show min c.height.val tip.height + 1 + 1 * (kept.length - 1) = c.height.val by omega,
        hrequire] at hread
      exact (Except.ok.inj hread).symm
  rw [hbase] at hrecords
  exact ⟨rfl, c, _, kept, records, htip, hc, hancestor, hkept,
    ⟨_, _, known, suffix, hsuffix, fun _ hblock => List.mem_of_mem_filter hblock⟩, hrecords, rfl⟩

/-- What a reconciliation has found: a common block of the current chain, the
    records above the ancestor through it, and the records of polled blocks that
    were built on it. -/
structure Replacement.Found (r : Replacement) (st : IndexState)
    (durable head : List CompactBlockRecord) (poll : Poll) (config : PipelineConfig)
    (common : CompactBlockRecord) (blocks : List ParsedCompactBlock)
    (records : List CompactBlockRecord) : Prop where
  state : r.state = st
  tip : st.durableTip = some r.oldDurableTip
  onCurrent : OnCurrent durable head common
  ancestor : durable[min common.height.val r.oldDurableTip.height]? = some r.ancestor
  polled : ∃ start previousHash known suffix, poll start previousHash known = .ok suffix ∧
    ∀ block ∈ blocks, block ∈ suffix.blocks
  built : buildRecords st common.blockId common.endTreeSizes blocks r.visibleTip config =
    .ok records
  canonical : r.canonical = ((durable ++ head).take (common.height.val + 1)).drop
    (min common.height.val r.oldDurableTip.height + 1) ++ records

theorem Current.prepareReplacement (h : Current .any s st durable head)
    (hpoll : poll.RetainsKnown) {oldVisibleTip : Nat} {r : Replacement}
    (hprepare : prepareReplacement s poll head config oldVisibleTip = .ok r) :
    ∃ common blocks records, r.Found st durable head poll config common blocks records := by
  obtain ⟨rfl, c, blocks, kept, records, hprepared⟩ := prepareReplacement_eq_ok
    (fun _ _ hr => (h.onCurrent_of_currentRecord hr).1) h.represents.state hpoll hprepare
  have hc := (h.onCurrent_of_currentRecord hprepared.current).2
  have htipHeight := h.represents.describes.tip_height h.represents.connected hprepared.tip
  have hclt : c.height.val < (durable ++ head).length := (List.getElem?_eq_some_iff.mp hc).1
  have hancestor := hprepared.ancestor
  simp only [Ztreamer.requireRecord, bind_eq_ok, h.currentRecord, okOr_eq_ok] at hancestor
  obtain ⟨_, hrecord, rfl⟩ := hancestor
  have hkept := h.mapM_requireRecord (min c.height.val r.oldDurableTip.height + 1)
    (c.height.val + 1) hclt
  rw [Nat.add_sub_add_right] at hkept
  obtain rfl := Except.ok.inj (hkept.symm.trans hprepared.read)
  refine ⟨c, blocks, records, rfl, hprepared.tip, hc, ?_, hprepared.polled, hprepared.built,
    hprepared.canonical⟩
  rw [← Except.ok.inj hrecord, List.getElem?_append_left (by omega)]

/-- The records of a reconciliation run from the ancestor. -/
theorem Replacement.Found.runsFrom {r : Replacement} {common : CompactBlockRecord}
    {blocks : List ParsedCompactBlock} {records : List CompactBlockRecord}
    (h : r.Found st durable head poll config common blocks records)
    (hcur : Current .any s st durable head) (hhead : HeadOn st head) :
    r.ancestor.height.val = min common.height.val r.oldDurableTip.height ∧
      RunsFrom (r.ancestor.height.val + 1) (some r.ancestor.hash) r.canonical := by
  have htipHeight := hcur.represents.describes.tip_height hcur.represents.connected h.tip
  have hheight := hcur.represents.connected.height_eq h.ancestor
  have hclt : common.height.val < (durable ++ head).length :=
    (List.getElem?_eq_some_iff.mp h.onCurrent).1
  have hbuilt := buildRecords_runsFrom h.built
  refine ⟨hheight, ?_⟩
  rw [h.canonical, hheight, RunsFrom.append_iff]
  have hlen : (((durable ++ head).take (common.height.val + 1)).drop
      (min common.height.val r.oldDurableTip.height + 1)).length =
      common.height.val - min common.height.val r.oldDurableTip.height := by
    rw [List.length_drop, List.length_take]
    omega
  have hgetLast := getLast?_take_succ h.onCurrent
  by_cases hle : common.height.val ≤ r.oldDurableTip.height
  case pos =>
    -- nothing is kept above the ancestor, which is the common block
    have hsame : r.ancestor = common := by
      have hancestor := h.ancestor
      have hcommon := h.onCurrent
      unfold OnCurrent at hcommon
      rw [Nat.min_eq_left hle] at hancestor
      rw [List.getElem?_append_left (by omega), hancestor] at hcommon
      exact Option.some.inj hcommon
    rw [Nat.min_eq_left hle] at hlen ⊢
    rw [Nat.sub_self] at hlen
    rw [List.length_eq_zero_iff.mp hlen, hsame]
    exact ⟨trivial, hbuilt⟩
  case neg =>
    rw [Nat.min_eq_right (by omega)] at hlen ⊢
    have hdrop := hcur.runsFrom_drop hhead (show durable.length ≤
      r.oldDurableTip.height + 1 by omega)
      (by omega)
    have hancestor : lastHash none ((durable ++ head).take (r.oldDurableTip.height + 1)) =
        some r.ancestor.hash := by
      have hget := h.ancestor
      rw [Nat.min_eq_right (by omega)] at hget
      have hget' : (durable ++ head)[r.oldDurableTip.height]? = some r.ancestor := by
        rw [List.getElem?_append_left (by omega), hget]
      unfold lastHash
      rw [getLast?_take_succ hget']
      rfl
    rw [hancestor] at hdrop
    constructor
    · rw [List.drop_take]
      exact hdrop.take _
    · have hlast : lastHash (some r.ancestor.hash) (((durable ++ head).take
          (common.height.val + 1)).drop (r.oldDurableTip.height + 1)) = some common.hash := by
        unfold lastHash
        rw [List.getLast?_drop, if_neg (by rw [List.length_take]; omega), hgetLast]
        rfl
      rw [hlast, hlen, show r.oldDurableTip.height + 1 +
        (common.height.val - r.oldDurableTip.height) = common.height.val + 1 by omega]
      exact hbuilt

/-- A store with the first `n` records above a block, and the rest of them. -/
theorem Represents.headOn_drop {n height : Nat} {base : CompactBlockRecord}
    {canonical : List CompactBlockRecord} (hbase : durable[height]? = some base)
    (hrun : RunsFrom (height + 1) (some base.hash) canonical) (hn : n ≤ canonical.length)
    (h : Represents .any s st (replaced durable height (canonical.take n))) :
    st.headHeight = height + 1 + n ∧ HeadOn st (canonical.drop n) := by
  have hlt := (List.getElem?_eq_some_iff.mp hbase).1
  have hheight : st.headHeight = height + 1 + n := by
    rw [h.headHeight, replaced, List.length_append, List.length_take, List.length_take]
    omega
  refine ⟨hheight, ?_⟩
  have hlast : lastHash none (replaced durable height (canonical.take n)) =
      lastHash (some base.hash) (canonical.take n) := by
    unfold lastHash replaced
    rw [List.getLast?_append, getLast?_take_succ hbase]
    cases (canonical.take n).getLast? <;> rfl
  unfold HeadOn
  rw [hheight, h.tipHash, hlast]
  exact hrun.drop n hn

/-- A reconciliation that succeeds gives a head that continues its state. -/
theorem Current.replaceSuffixBy (h : Current .any s st durable head) (hhead : HeadOn st head)
    (hpoll : poll.RetainsKnown) {oldVisibleTip : Nat}
    (hok : replaceSuffixBy s poll head config oldVisibleTip = .ok (s', st', head')) :
    ∃ durable', Represents .any s' st' durable' ∧ HeadOn st' head' := by
  obtain ⟨r, hprepare, hpersist⟩ := bind_eq_ok.mp hok
  obtain ⟨common, blocks, records, hfound⟩ := h.prepareReplacement hpoll hprepare
  obtain ⟨hheight, hrun⟩ := hfound.runsFrom h hhead
  have hancestor := hfound.ancestor
  rw [← hheight] at hancestor
  have htipHeight := h.represents.describes.tip_height h.represents.connected hfound.tip
  generalize hdurable : (heightBelow r.visibleTip persistDepth).elim r.ancestor.height.val
    (max · r.ancestor.height.val) = durableTip
  have hreplacement : (r.canonical.filter fun block => decide (r.ancestor.height.val <
      block.height.val ∧ block.height.val ≤ durableTip)) =
      r.canonical.take (durableTip + 1 - (r.ancestor.height.val + 1)) := by
    rw [← (hrun.filter_height durableTip).1]
    refine List.filter_congr ?_
    intro block hblock
    obtain ⟨i, hi⟩ := List.mem_iff_getElem?.mp hblock
    have := hrun.height_eq hi
    exact decide_eq_decide.mpr ⟨fun hand => hand.2, fun hle => ⟨by omega, hle⟩⟩
  -- the store has the first records of the new chain, written or not
  obtain ⟨n, tip, hn, hrep, htip, rfl⟩ : ∃ n tip, n ≤ r.canonical.length ∧
      Represents .any s' st' (replaced durable r.ancestor.height.val (r.canonical.take n)) ∧
      st'.durableTip = some tip ∧
      head' = r.canonical.filter fun block => decide (tip.height < block.height.val) := by
    simp only [persistSuffix, hfound.state, hdurable, hreplacement] at hpersist
    split at hpersist
    case isTrue =>
      simp only [bind_eq_ok, okMapError_eq_ok, okOr_eq_ok, pure_eq_ok, Except.ok.injEq,
        Prod.mk.injEq] at hpersist
      obtain ⟨⟨s₁, st₁⟩, hreplace, tip, htip, rfl, rfl, rfl⟩ := hpersist
      obtain ⟨-, _, last, -, -, hfinish⟩ :=
        h.represents.of_mutableReorg (fun _ _ => trivial) hreplace
      refine ⟨min (durableTip + 1 - (r.ancestor.height.val + 1)) r.canonical.length, tip,
        Nat.min_le_right _ _, ?_, htip, rfl⟩
      rw [← List.take_eq_take_min]
      exact hfinish.ok.1
    case isFalse hnot =>
      rw [not_or, not_not, not_not] at hnot
      simp only [bind_eq_ok, okOr_eq_ok, pure_eq_ok, Except.ok.injEq, Prod.mk.injEq] at hpersist
      obtain ⟨_, rfl, tip, htip, rfl, rfl, rfl⟩ := hpersist
      refine ⟨0, tip, Nat.zero_le _, ?_, htip, rfl⟩
      rw [List.take_zero, replaced, List.append_nil, hnot.1, htipHeight, List.take_length]
      exact h.represents
  obtain ⟨hheadHeight, hheadOn⟩ := hrep.headOn_drop hancestor hrun hn
  have htip' := IndexState.headHeight_of_tip htip
  refine ⟨_, hrep, ?_⟩
  rw [(hrun.filter_height tip.height).2,
    show tip.height + 1 - (r.ancestor.height.val + 1) = n by omega]
  exact hheadOn

/-- What a recovery has found: a block of the current chain, and the records of
    polled blocks that were built on it. -/
structure Recovery.Found (r : Recovery) (st : IndexState)
    (durable head : List CompactBlockRecord) (poll : Poll) (config : PipelineConfig)
    (blocks : List ParsedCompactBlock) : Prop where
  state : r.state = st
  matching : r.common.height.val = r.matching
  onCurrent : OnCurrent durable head r.common
  polled : ∃ start previousHash known suffix, poll start previousHash known = .ok suffix ∧
    ∀ block ∈ blocks, block ∈ suffix.blocks
  built : buildRecords st r.common.blockId r.common.endTreeSizes blocks r.visibleTip config =
    .ok r.canonical

theorem planRecovery_eq_ok {block : Nat → Except HeadError (Option RawIndexBlock)}
    {plan : RecoveryPlan} (hplan : planRecovery s block poll head = .ok plan) :
    s.getState = .ok plan.state ∧
      currentRecord s plan.state head plan.matching = .ok (some plan.common) ∧
      ∃ prepared, poll (plan.matching + 1) plan.common.hash [] = .ok prepared ∧
        prepared.blocks = plan.blocks := by
  simp only [planRecovery, bind_eq_ok, okMapError_eq_ok, okOr_eq_ok, ensure_eq_ok, pure_eq_ok,
    Except.ok.injEq] at hplan
  obtain ⟨st, hst, -, -, -, -, -, -, -, -, -, -, -, -, matching, -, _, hcommon, common, rfl,
    prepared, hprepared, rfl⟩ := hplan
  exact ⟨hst, hcommon, prepared, hprepared, rfl⟩

theorem Current.prepareRecovery (h : Current .any s st durable head)
    {block : Nat → Except HeadError (Option RawIndexBlock)} {r : Recovery}
    (hprepare : prepareRecovery s block poll head config = .ok r) :
    ∃ blocks, r.Found st durable head poll config blocks := by
  simp only [Ztreamer.prepareRecovery, bind_eq_ok, okMapError_eq_ok, pure_eq_ok,
    Except.ok.injEq] at hprepare
  obtain ⟨plan, hplan, canonical, hrecords, rfl⟩ := hprepare
  obtain ⟨hst, hcommon, prepared, hpoll, hblocks⟩ := planRecovery_eq_ok hplan
  obtain rfl : st = plan.state := Except.ok.inj (h.represents.state.symm.trans hst)
  obtain ⟨hheight, hon⟩ := h.onCurrent_of_currentRecord hcommon
  exact ⟨plan.blocks, rfl, hheight, hon, ⟨_, _, _, prepared, hpoll, fun _ hb => hblocks ▸ hb⟩,
    hrecords⟩

/-- A recovery that succeeds gives a head that continues its state. -/
theorem Current.recoverDeepReorg (h : Current .any s st durable head)
    {block : Nat → Except HeadError (Option RawIndexBlock)} {r : Recovery}
    (hprepare : Ztreamer.prepareRecovery s block poll head config = .ok r)
    (hpersist : persistRecovery s r = .ok (s', st', head')) :
    ∃ durable', Represents .any s' st' durable' ∧ HeadOn st' head' := by
  obtain ⟨blocks, hfound⟩ := h.prepareRecovery hprepare
  have hrun := buildRecords_runsFrom hfound.built
  rw [show r.common.blockId.height = r.matching from hfound.matching] at hrun
  simp only [persistRecovery, hfound.state] at hpersist
  obtain ⟨⟨s₁, st₁⟩, hwrite, hpersist⟩ := bind_eq_ok.mp hpersist
  simp only [bind_eq_ok, okOr_eq_ok, pure_eq_ok, Except.ok.injEq, Prod.mk.injEq] at hpersist
  obtain ⟨tip, htip, rfl, rfl, rfl⟩ := hpersist
  generalize (heightBelow r.visibleTip persistDepth).elim r.matching (max · r.matching) =
    durableTip at hwrite
  rw [(hrun.filter_height durableTip).1, okMapError_eq_ok] at hwrite
  obtain ⟨-, commonRecord, _, _, hget, hhash, -, -, hfinish⟩ :=
    h.represents.of_deepReorg (fun _ _ => trivial) hwrite
  have hrep := hfinish.ok.1
  simp only [show r.common.blockId.height = r.matching from hfound.matching] at hget hrep
  -- the common block of the write is the one that was found
  have hrun' : RunsFrom (r.matching + 1) (some commonRecord.hash) r.canonical := by
    rw [hhash]
    exact hrun
  rw [List.take_eq_take_min] at hrep
  obtain ⟨hheadHeight, hheadOn⟩ := hrep.headOn_drop hget hrun' (Nat.min_le_right _ _)
  have htip' := IndexState.headHeight_of_tip htip
  refine ⟨_, hrep, ?_⟩
  rw [(hrun.filter_height tip.height).2, show tip.height + 1 - (r.matching + 1) =
    min (durableTip + 1 - (r.matching + 1)) r.canonical.length by omega]
  exact hheadOn

end

end Ztreamer
