import Ztreamer.Index.Answers
import Ztreamer.Sync.Extension
import Ztreamer.Sync.Preparation

/-! # Published snapshots are connected

    The follower is the only writer of an index. It publishes each head that an
    attempt returns, and gives the published head to the next attempt, with a state
    that it reads anew.

    * `HeadFollower.Inv`: a published head continues the state of the index, and
      belongs to its generation,
    * `HeadFollower.Inv.tick`: every tick keeps it, and does not panic,
    * `follower_publishes_connected`: every run of a follower.
-/

namespace Ztreamer

open Octets Result

variable {ν : Type}

section

variable [Proto.Prost] {s : Store ν} {st : IndexState} {durable head : List CompactBlockRecord}

/-! ## One call -/

/-- What a call leaves: on success a head that continues the state that it returns,
    on failure the index as it was. Only an extension, which has no head below it,
    can fail after a write. -/
def HeadResult.Connects (s : Store ν) (head : List CompactBlockRecord) (out : HeadResult ν) :
    Prop :=
  match out.2 with
  | .ok (st', head') => ∃ durable', Represents .any out.1 st' durable' ∧ HeadOn st' head'
  | .error _ => out.1 = s ∨ head = [] ∧ ∃ st' durable', Represents .any out.1 st' durable'

theorem HeadResult.connects_ofCommit
    {result : Except HeadSyncError (Store ν × IndexState × List CompactBlockRecord)}
    (h : ∀ s' st' head', result = .ok (s', st', head') →
      ∃ durable', Represents .any s' st' durable' ∧ HeadOn st' head') :
    HeadResult.Connects s head (.ofCommit s result) := by
  cases result with
  | error e => exact .inl rfl
  | ok out => exact h _ _ _ rfl

theorem HeadResult.Connects.deepReorgOfAnchor {out : HeadResult ν}
    (h : HeadResult.Connects s head out) : HeadResult.Connects s head out.deepReorgOfAnchor := by
  unfold HeadResult.deepReorgOfAnchor
  split
  · exact h
  · exact h

theorem Represents.syncHeadOnceBy (h : Represents .any s st durable) (hhead : HeadOn st head)
    (tip : Except HeadError (Option BlockId)) {poll : Poll} (hpoll : poll.RetainsKnown)
    (config : PipelineConfig) :
    HeadResult.Connects s head (syncHeadOnceBy s tip poll head config) := by
  have hcur := h.current hhead
  unfold Ztreamer.syncHeadOnceBy
  rw [h.state]
  cases hlast : head.getLast? with
  | none =>
    have hnil : head = [] := List.getLast?_eq_none_iff.mp hlast
    apply HeadResult.Connects.deepReorgOfAnchor
    cases hout : syncExtensionOnceBy s poll st config with
    | mk s' result =>
      obtain ⟨st', durable', hrep, hok⟩ := syncExtensionOnceBy_headOn h hout
      cases result with
      | error e => exact .inr ⟨hnil, st', durable', hrep⟩
      | ok out =>
        obtain ⟨st'', head'⟩ := out
        obtain ⟨rfl, hhead'⟩ := hok st'' head' rfl
        exact ⟨durable', hrep, hhead'⟩
  | some last =>
    cases tip with
    | error e => exact .inl rfl
    | ok tip =>
      simp only
      split
      · exact ⟨durable, h, hhead⟩
      · apply HeadResult.connects_ofCommit
        intro s' st' head' hok
        exact hcur.replaceSuffixBy hhead hpoll hok

theorem Represents.recoverDeepReorgBy (h : Represents .any s st durable) (hhead : HeadOn st head)
    (block : Nat → Except HeadError (Option RawIndexBlock)) (poll : Poll)
    (config : PipelineConfig) :
    HeadResult.Connects s head (recoverDeepReorgBy s block poll head config) := by
  apply HeadResult.connects_ofCommit
  intro s' st' head' hok
  obtain ⟨r, hprepare, hpersist⟩ := bind_eq_ok.mp hok
  exact (h.current hhead).recoverDeepReorg hprepare hpersist

/-! ## The invariant -/

/-- The published head continues the state of the index. If there is one, it belongs
    to the generation of the index; after a failed extension an empty head can belong
    to an older one. -/
def HeadFollower.Inv (f : HeadFollower ν) : Prop :=
  ∃ st durable, Represents .any f.index st durable ∧ HeadOn st f.snapshot.volatileHead ∧
    (f.snapshot.volatileHead ≠ [] → f.snapshot.generation = st.generation)

namespace HeadFollower.Inv

variable {f : HeadFollower ν}

/-- The end of an attempt, with the index that its call left. -/
theorem publishResult (h : f.Inv) {out : HeadResult ν}
    (hout : HeadResult.Connects f.index f.snapshot.volatileHead out) (now : Instant) :
    ∃ f' result, { f with index := out.1 }.publishResult now out.2 = some (f', result) ∧
      f'.Inv := by
  obtain ⟨s', result⟩ := out
  cases result with
  | error e =>
    refine ⟨_, _, rfl, ?_⟩
    rcases hout with hsame | ⟨hnil, st', durable', hrep⟩
    · obtain ⟨st, durable, hrep, hrest⟩ := h
      exact ⟨st, durable, hsame ▸ hrep, hrest⟩
    · refine ⟨st', durable', hrep, ?_, fun hne => absurd hnil hne⟩
      rw [hnil]
      trivial
  | ok published =>
    obtain ⟨st', head'⟩ := published
    obtain ⟨durable', hrep, hhead⟩ := hout
    obtain ⟨snapshot, hsnapshot, hvolatile, hgen⟩ := hhead.withHead now
    refine ⟨⟨s', snapshot⟩, .ok st', ?_, st', durable', hrep, ?_, fun _ => hgen⟩
    · simp only [HeadFollower.publishResult, HeadFollower.publishHead, hsnapshot, ok_bind]
      rfl
    · rw [hvolatile]
      exact hhead

theorem beginRecovery (h : f.Inv) : f.beginRecovery.Inv := h

theorem markSourceFailure (h : f.Inv) (error : String) (freshnessTimeout now : Nat) :
    (f.markSourceFailure error freshnessTimeout now).Inv := h

theorem syncHead (h : f.Inv) (tip : Except HeadError (Option BlockId)) (src : MovingSource)
    (config : PipelineConfig) (now : Instant) :
    ∃ f' result, f.syncHead tip src config now = some (f', result) ∧ f'.Inv := by
  obtain ⟨st, durable, hrep, hhead, -⟩ := id h
  have hout : HeadResult.Connects f.index f.snapshot.volatileHead
      (syncHeadOnceBy f.index tip (src.pollAt 0) f.snapshot.volatileHead config) :=
    hrep.syncHeadOnceBy hhead tip (src.pollAt_retainsKnown 0) config
  have hpublish := h.publishResult hout now
  unfold HeadFollower.syncHead
  simp only
  split
  · rename_i height hresult
    rw [hresult] at hpublish
    obtain ⟨f', result, heq, hinv⟩ := hpublish
    cases heq
    exact ⟨_, _, rfl, hinv.beginRecovery⟩
  · exact hpublish

theorem recoverDeepReorg (h : f.Inv) (block : Nat → Except HeadError (Option RawIndexBlock))
    (src : MovingSource) (config : PipelineConfig) (now : Instant) :
    ∃ f' result, f.recoverDeepReorg block src config now = some (f', result) ∧ f'.Inv := by
  obtain ⟨st, durable, hrep, hhead, -⟩ := id h
  exact h.beginRecovery.publishResult (hrep.recoverDeepReorgBy hhead block _ config) now

/-- An attempt does not panic, and keeps the invariant. -/
theorem attempt (h : f.Inv) (answers : Answers) (config : PipelineConfig) (now : Instant) :
    ∃ f' result, f.attempt answers config now = some (f', result) ∧ f'.Inv := by
  unfold HeadFollower.attempt
  split
  · obtain ⟨f', result, hsync, hinv⟩ := h.syncHead answers.tip answers.poll config now
    rw [hsync]
    split
    · rename_i heq
      cases heq
      exact hinv.recoverDeepReorg answers.block answers.recoveryPoll config now
    · exact ⟨f', result, rfl, hinv⟩
  · exact h.recoverDeepReorg answers.block answers.recoveryPoll config now

theorem tick (h : f.Inv) (answers : Answers) (config : PipelineConfig) (now : Instant)
    (failure : Option (String × Nat)) :
    ∃ f', f.tick answers config now failure = some f' ∧ f'.Inv := by
  obtain ⟨f', result, hattempt, hinv⟩ := h.attempt answers config now
  unfold HeadFollower.tick
  rw [hattempt]
  cases result with
  | ok st => exact ⟨f', rfl, hinv⟩
  | error e =>
    cases failure with
    | none => exact ⟨f', rfl, hinv⟩
    | some failure => exact ⟨_, rfl, hinv.markSourceFailure failure.1 failure.2 now⟩

end HeadFollower.Inv

/-! ## Runs -/

/-- The followers that ticks reach from `f`. -/
inductive HeadFollower.Ticks (f : HeadFollower ν) : HeadFollower ν → Prop where
  | refl : Ticks f f
  | tick {f₁ f₂ : HeadFollower ν} (answers : Answers) (config : PipelineConfig) (now : Instant)
      (failure : Option (String × Nat)) : Ticks f f₁ →
      f₁.tick answers config now failure = some f₂ → Ticks f f₂

theorem HeadFollower.Inv.ticks {f f' : HeadFollower ν} (h : f.Inv)
    (hticks : HeadFollower.Ticks f f') : f'.Inv := by
  induction hticks with
  | refl => exact h
  | tick answers config now failure _ htick ih =>
    obtain ⟨f'', heq, hinv⟩ := ih.tick answers config now failure
    rw [htick] at heq
    cases heq
    exact hinv

theorem HeadFollower.inv_new (h : Represents .any s st durable) (st₀ : IndexState) :
    (HeadFollower.new s st₀).Inv :=
  ⟨st, durable, h, trivial, fun hne => absurd rfl hne⟩

/-- In every run of a follower, no tick panics: each head that a reconciliation or a
    recovery returns connects to the state that it returns. A published head that is
    not empty belongs to the generation of the index. -/
theorem follower_publishes_connected [Blake3] (s : Store ν)
    (hs : Reachable Call.FromBuilder s) (st₀ : IndexState) (f : HeadFollower ν)
    (hticks : HeadFollower.Ticks (.new s st₀) f) :
    (∀ answers config now failure, ∃ f', f.tick answers config now failure = some f') ∧
    (∀ (tip : Except HeadError (Option BlockId)) (src : MovingSource) config s' st head,
      syncHeadOnceBy f.index tip (src.pollAt 0) f.snapshot.volatileHead config =
        (s', .ok (st, head)) →
      ∀ now, ∃ snapshot, ServingSnapshot.withHead st head now = .ok snapshot) ∧
    (∀ (block : Nat → Except HeadError (Option RawIndexBlock)) (src : MovingSource) config s' st
      head, recoverDeepReorgBy f.index block (src.pollAt 0) f.snapshot.volatileHead config =
        (s', .ok (st, head)) →
      ∀ now, ∃ snapshot, ServingSnapshot.withHead st head now = .ok snapshot) ∧
    (f.snapshot.volatileHead ≠ [] →
      ∃ st, f.index.getState = .ok st ∧ f.snapshot.generation = st.generation) := by
  obtain ⟨st₁, durable₁, hrep₁⟩ := hs.represents fun c hc => ⟨hc, c.respects_any⟩
  have hinv := (HeadFollower.inv_new hrep₁ st₀).ticks hticks
  obtain ⟨st, durable, hrep, hhead, hgen⟩ := id hinv
  refine ⟨?_, ?_, ?_, ?_⟩
  · intro answers config now failure
    obtain ⟨f', htick, -⟩ := hinv.tick answers config now failure
    exact ⟨f', htick⟩
  · intro tip src config s' st' head' hok now
    have hout := hrep.syncHeadOnceBy hhead tip (src.pollAt_retainsKnown 0) config
    rw [hok] at hout
    obtain ⟨durable', -, hhead'⟩ := hout
    obtain ⟨snapshot, hsnapshot, -⟩ := hhead'.withHead now
    exact ⟨snapshot, hsnapshot⟩
  · intro block src config s' st' head' hok now
    have hout := hrep.recoverDeepReorgBy hhead block (src.pollAt 0) config
    rw [hok] at hout
    obtain ⟨durable', -, hhead'⟩ := hout
    obtain ⟨snapshot, hsnapshot, -⟩ := hhead'.withHead now
    exact ⟨snapshot, hsnapshot⟩
  · intro hne
    exact ⟨st, hrep.state, hgen hne⟩

end

section

attribute [local instance] Proto.wireDecoder zeroDigest

/-- A follower of an empty index that has seen five blocks. -/
theorem follower_publishes_connected_five : ∃ f : HeadFollower Unit,
    HeadFollower.Ticks (.new Store.empty {}) f ∧ f.snapshot.volatileHead = plainRecords 5000 5 ∧
      ∃ st, f.index.getState = .ok st ∧ f.snapshot.generation = st.generation := by
  let src : CanonicalBlockSource := .ofBlocks (plainBlocks 5000 5)
  let config : PipelineConfig := .ofParallelism 8
  have hnode := plainBlocks_nodeChain 5000 (n := 5) (by decide)
  have hserves := CanonicalBlockSource.ofBlocks_serves (plainBlocks 5000 5)
  have hempty : Represents plainHeight (Store.empty : Store Unit) {}
      ((plainRecords 5000 5).take 0) := represents_empty
  obtain ⟨s, st, n, -, hresult⟩ := hnode.syncExtensionOnce hserves hempty (Nat.zero_le _) config
  rcases hresult with ⟨-, hreason⟩ | ⟨hok, hn⟩
  · exact absurd ⟨by rw [length_branchBlocks]; decide,
      plainBlocks_budget 5000 0 8 (by decide) (by decide)⟩ hreason
  rw [length_branchRecords] at hn
  obtain rfl : n = 0 := hn
  have hcall : syncHeadOnceBy (Store.empty : Store Unit) src.tip
      (MovingSource.pollAt (fun _ => src) 0) [] config = (s, .ok (st, plainRecords 5000 5)) := by
    unfold syncExtensionOnce at hok
    unfold syncHeadOnceBy
    rw [hempty.state]
    show (syncExtensionOnceBy _ (pollCanonicalHead src) _ config).deepReorgOfAnchor = _
    rw [hok]
    rfl
  -- what the call returns is published
  have hout : HeadResult.Connects (Store.empty : Store Unit) []
      (syncHeadOnceBy Store.empty src.tip (MovingSource.pollAt (fun _ => src) 0) [] config) :=
    represents_empty.syncHeadOnceBy (show HeadOn {} [] from trivial) src.tip
      (MovingSource.pollAt_retainsKnown _ 0) config
  rw [hcall] at hout
  obtain ⟨_, -, hhead⟩ := hout
  obtain ⟨snapshot, hsnapshot, hvolatile, -⟩ := hhead.withHead 0
  have htick : (HeadFollower.new (Store.empty : Store Unit) {}).tick
      ⟨src.tip, fun _ => src, src.block, fun _ => src⟩ config 0 none = some ⟨s, snapshot⟩ := by
    simp only [HeadFollower.tick, HeadFollower.attempt, HeadFollower.new,
      IndexState.toServingSnapshot, if_true, HeadFollower.syncHead, hcall,
      HeadFollower.publishResult, HeadFollower.publishHead, hsnapshot, ok_bind]
    rfl
  have hticks := HeadFollower.Ticks.tick _ _ _ _ .refl htick
  refine ⟨_, hticks, hvolatile, ?_⟩
  refine (follower_publishes_connected Store.empty .empty {} _ hticks).2.2.2 ?_
  show snapshot.volatileHead ≠ []
  rw [hvolatile]
  exact List.cons_ne_nil _ _

end

end Ztreamer
