import Ztreamer.Index.Answers
import Ztreamer.Service.RangeStream
import Mathlib.Logic.Relation

/-! # Range streams under writes

    Polls of a stream and writes to the index, interleaved in any order.

    * `RangeSession.Step`: a poll of a stream or a write to the index,
    * `range_stream_consistent`: what the stream gives, and what it gives while the
      index does not change.
-/

namespace Ztreamer

open Octets Result Connected

variable {ν α β : Type}

/-! ## Sessions -/

/-- A stream, the index that it reads, the items it has given, and whether its last
    poll gave its end. -/
structure RangeSession (ν α β : Type) where
  store : Store ν
  stream : RangeStream α
  items : List (Except Status β)
  ended : Bool

section

variable [Proto.Prost] [Blake3] [StoredBlock α]

/-- A write to the index, or a poll of the stream. -/
inductive RangeSession.Step (project : α → Except Status β) :
    RangeSession ν α β → RangeSession ν α β → Prop where
  | write {x : RangeSession ν α β} {store : Store ν} (c : Call ν) :
      c.Honest .any → c.run x.store = .ok store → Step project x { x with store }
  | poll {x : RangeSession ν α β} {item : Option (Except Status β)} {stream : RangeStream α} :
      RangeStream.Polls project x.store x.stream item stream →
      Step project x
        { x with stream, items := x.items ++ item.toList, ended := item.isNone }

/-- The stream of an accepted request, before its first poll. -/
def RangeSession.start (β : Type) (s : Store ν) (stream : RangeStream α) : RangeSession ν α β :=
  ⟨s, stream, [], false⟩

end

/-! ## Requests and streams -/

theorem endpointHeight_lt {name : String} {endpoint : Option RequestedBlock} {height : Nat}
    (h : endpointHeight name endpoint = .ok height) : height < 2 ^ 32 := by
  simp only [endpointHeight, bind_eq_ok, ensure_eq_ok, pure_eq_ok, Except.ok.injEq] at h
  obtain ⟨_, -, -, -, -, hlt, rfl⟩ := h
  exact hlt

/-- What an accepted request has checked, and where its stream starts. -/
theorem rangeAs_eq_ok [StoredBlock α] {snapshot : ServingSnapshot} {request : BlockRange}
    {start finish : Nat} {stream : RangeStream α} (Got : Nat → α → Prop)
    (hheights : rangeHeights request = .ok (start, finish))
    (h : rangeAs α snapshot request = .ok stream) :
    start < 2 ^ 32 ∧ finish < 2 ^ 32 ∧
      (∃ tip, snapshot.visibleTip = some tip ∧ start ≤ tip.height ∧ finish ≤ tip.height) ∧
      RangeStream.Progress snapshot start finish Got stream [] := by
  simp only [rangeAs, hheights, bind_eq_ok, okOr_eq_ok, ensure_eq_ok, pure_eq_ok,
    Except.ok.injEq, ok_bind] at h
  obtain ⟨-, -, tip, htip, -, hle, -, -, rfl⟩ := h
  simp only [rangeHeights, bind_eq_ok, pure_eq_ok, Except.ok.injEq, Prod.mk.injEq] at hheights
  obtain ⟨_, hstart, _, hfinish, rfl, rfl⟩ := hheights
  refine ⟨endpointHeight_lt hstart, endpointHeight_lt hfinish, ⟨tip, htip, hle⟩, ?_⟩
  refine ⟨rfl, rfl, rfl, piece_nil, by simp, by simp, ?_, rfl⟩
  rw [List.append_nil, List.length_nil, if_neg (by omega), Walk.toward_zero]

namespace RangeSession

variable [StoredBlock α] {snapshot : ServingSnapshot} {start finish : Nat}
  {Got : Nat → α → Prop} {project : α → Except Status β} {x y : RangeSession ν α β}

/-- What the stream has given: the items of a piece of a chain, of the whole range if the
    stream has ended; or an error as the last item. -/
inductive Gives (project : α → Except Status β) (snapshot : ServingSnapshot)
    (start finish : Nat) (Got : Nat → α → Prop) : RangeSession ν α β → Prop where
  | running {x : RangeSession ν α β} {sent : List α} {oks : List β} :
      RangeStream.Progress snapshot start finish Got x.stream sent →
      sent.mapM project = .ok oks → x.items = oks.map .ok →
      (x.ended = true → sent.length = Walk.absDiff start finish + 1) →
      Gives project snapshot start finish Got x
  | stopped {x : RangeSession ν α β} {sent : List α} {oks : List β} {e : Status} :
      x.stream.Stopped → Piece (decide (start ≤ finish)) start sent →
      sent.length ≤ Walk.absDiff start finish + 1 →
      sent.mapM project = .ok oks → x.items = oks.map .ok ++ [.error e] →
      Gives project snapshot start finish Got x

/-- The session after a poll. -/
def polled (x : RangeSession ν α β) (item : Option (Except Status β)) (stream : RangeStream α) :
    RangeSession ν α β :=
  { x with stream, items := x.items ++ item.toList, ended := item.isNone }

/-- A stream that runs gives an item, ends, or stops with an error. -/
theorem running_poll (hstart : start < 2 ^ 32) (hfinish : finish < 2 ^ 32)
    {sent : List α} {oks : List β}
    (hprogress : RangeStream.Progress snapshot start finish Got x.stream sent)
    (hoks : sent.mapM project = .ok oks) (hitems : x.items = oks.map .ok)
    (hchunks : RangeStream.Chunks snapshot start finish Got x.store)
    {item : Option (Except Status β)} {stream : RangeStream α}
    (hpoll : RangeStream.Polls project x.store x.stream item stream) :
    Gives project snapshot start finish Got (x.polled item stream) := by
  rcases hprogress.poll hstart hfinish hchunks hpoll with
    ⟨a, b, rfl, hproject, hnext⟩ | ⟨e, -, rfl, hstopped, -⟩ | ⟨rfl, -, hlength, hnext⟩
  · refine .running hnext (mapM_snoc hoks hproject) ?_ (by simp [polled])
    simp [polled, hitems]
  · have hpiece := hprogress.piece.take sent.length
    have hle := hprogress.length_le
    rw [List.take_left] at hpiece
    rw [List.length_append] at hle
    exact .stopped (e := e) hstopped hpiece (by omega) hoks (by simp [polled, hitems])
  · exact .running hnext hoks (by simp [polled, hitems]) fun _ => hlength

theorem Gives.poll (h : Gives project snapshot start finish Got x) (hstart : start < 2 ^ 32)
    (hfinish : finish < 2 ^ 32) (hchunks : RangeStream.Chunks snapshot start finish Got x.store)
    {item : Option (Except Status β)} {stream : RangeStream α}
    (hpoll : RangeStream.Polls project x.store x.stream item stream) :
    Gives project snapshot start finish Got (x.polled item stream) := by
  cases h with
  | running hprogress hoks hitems _ =>
    exact running_poll hstart hfinish hprogress hoks hitems hchunks hpoll
  | stopped hstopped hpiece hle hoks hitems =>
    -- a stream that has stopped gives its end to every poll
    cases hpoll with
    | item hturn =>
      rw [hstopped.turn] at hturn
      cases hturn
      exact .stopped hstopped hpiece hle hoks ((List.append_nil _).trans hitems)
    | again hturn _ =>
      rw [hstopped.turn] at hturn
      cases hturn

section

variable [Proto.Prost] [Blake3] [LawfulStoredBlock α]

/-- What holds in every session that writes and polls reach. -/
theorem gives_of_steps (hconsistent : snapshot.Consistent) (hstart : start < 2 ^ 32)
    (hfinish : finish < 2 ^ 32) {s : Store ν} {stream : RangeStream α}
    (hreach : Reachable (Call.Honest .any) s)
    (hprogress : RangeStream.Progress snapshot start finish (fun _ _ => True) stream [])
    (hsteps : Relation.ReflTransGen (Step project) (.start β s stream) x) :
    Reachable (Call.Honest .any) x.store ∧
      Gives project snapshot start finish (fun _ _ => True) x := by
  induction hsteps with
  | refl => exact ⟨hreach, .running hprogress rfl rfl (by simp [RangeSession.start])⟩
  | tail _ hstep ih =>
    obtain ⟨hstore, hgives⟩ := ih
    cases hstep with
    | write c hhonest hrun =>
      refine ⟨.commit c hstore hhonest hrun, ?_⟩
      cases hgives with
      | running hprogress hoks hitems hended => exact .running hprogress hoks hitems hended
      | stopped hstopped hpiece hle hoks hitems => exact .stopped hstopped hpiece hle hoks hitems
    | poll hpoll =>
      obtain ⟨st, chain, hrep⟩ := hstore.represents fun _ hc => hc
      exact ⟨hstore, hgives.poll hstart hfinish (RangeStream.chunks_of_represents hrep hconsistent
        hstart hfinish fun _ _ _ => trivial) hpoll⟩

end

/-! ## An index that does not change -/

section

variable [Proto.Prost] [LawfulStoredBlock α] {s : Store ν} {st : IndexState}
  {chain : List CompactBlockRecord} {tip : BlockId}

/-- The snapshot is of the index: the head continues the chain that the index represents. -/
structure Described (snapshot : ServingSnapshot) (s : Store ν) (st : IndexState)
    (chain : List CompactBlockRecord) : Prop where
  consistent : snapshot.Consistent
  represents : Represents .any s st chain
  durableTip : snapshot.durableTip = st.durableTip

namespace Described

variable (h : Described snapshot s st chain)

include h

theorem connected : Connected .any (chain ++ snapshot.volatileHead) := by
  have hhead : HeadOn st snapshot.volatileHead := by
    have hruns := h.consistent.runs
    rw [ServingSnapshot.headStart, h.durableTip] at hruns
    exact hruns
  exact (h.represents.current hhead).connected

theorem headStart : snapshot.headStart = chain.length := by
  rw [ServingSnapshot.headStart, h.durableTip]
  exact h.represents.headHeight

omit [LawfulStoredBlock α] in
theorem durable_iff {n : Nat} :
    (∃ tip ∈ snapshot.durableTip, n ≤ tip.height) ↔ n < chain.length := by
  rw [h.durableTip]
  constructor
  · intro hand
    obtain ⟨tip, htip, hle⟩ := hand
    have := h.represents.describes.tip_height h.represents.connected htip
    omega
  · exact h.represents.describes.exists_tip h.represents.connected

/-- The block at a height is that of the chain with the head. -/
theorem block_view {n : Nat} {a : α} (ha : snapshot.block α s st n = .ok a) :
    ∃ r, (chain ++ snapshot.volatileHead)[n]? = some r ∧ IsView a r := by
  unfold ServingSnapshot.block at ha
  split at ha
  · rename_i hdurable
    obtain ⟨r, hr, hview⟩ := h.represents.of_view ha
    exact ⟨r, by rw [List.getElem?_append_left (h.durable_iff.mp hdurable), hr], hview⟩
  · rename_i hvolatile
    have hle : chain.length ≤ n := Nat.le_of_not_lt fun hlt => hvolatile (h.durable_iff.mpr hlt)
    obtain ⟨r, hr, rfl⟩ := map_eq_ok.mp ha
    rw [okOr_eq_ok, h.consistent.volatile_eq (h.headStart ▸ hle), h.headStart] at hr
    exact ⟨r, by rw [List.getElem?_append_right hle, hr], isView_fromRecord r⟩

theorem exists_block (htip : snapshot.visibleTip = some tip) {n : Nat} (hn : n ≤ tip.height) :
    ∃ a, snapshot.block α s st n = .ok a := by
  unfold ServingSnapshot.block
  split
  · rename_i hdurable
    have hlt := h.durable_iff.mp hdurable
    obtain ⟨a, ha, -⟩ := h.represents.view (α := α) (List.getElem?_eq_getElem hlt)
    exact ⟨a, ha⟩
  · rename_i hvolatile
    have hle : chain.length ≤ n := Nat.le_of_not_lt fun hlt => hvolatile (h.durable_iff.mpr hlt)
    obtain ⟨r, hr⟩ := h.consistent.exists_volatile htip (h.headStart ▸ hle) hn
    rw [hr]
    exact ⟨_, rfl⟩

theorem block_linked {n : Nat} {a b : α} (ha : snapshot.block α s st n = .ok a)
    (hb : snapshot.block α s st (n + 1) = .ok b) :
    StoredBlock.previousHash b = StoredBlock.hash a := by
  obtain ⟨ra, hra, hviewa⟩ := h.block_view ha
  obtain ⟨rb, hrb, hviewb⟩ := h.block_view hb
  obtain ⟨hlt, rfl⟩ := List.getElem?_eq_some_iff.mp hrb
  obtain ⟨_, rfl⟩ := List.getElem?_eq_some_iff.mp hra
  rw [hviewb.previousHash, hviewa.hash]
  exact (List.isChain_iff_getElem.mp h.connected.isChain n hlt).2

theorem exists_blocks (htip : snapshot.visibleTip = some tip) (hstart : start ≤ tip.height)
    (hfinish : finish ≤ tip.height) :
    ∃ blocks : List α, (Walk.walk start finish).mapM (snapshot.block α s st) = .ok blocks := by
  apply mapM_ok
  intro n hn
  have hle := (Walk.mem_walk.mp hn).2
  exact h.exists_block htip (by omega)

theorem readChunk_ok (htip : snapshot.visibleTip = some tip) {stream : RangeStream α}
    (hsnapshot : stream.snapshot = snapshot) {height : Nat} (htoward : stream.Toward height)
    (hlt : height < 2 ^ 32) (hheight : height ≤ tip.height) (hfinish : stream.finish ≤ tip.height) :
    ∃ chunk, stream.readChunk s height (stream.chunkEnd height) = .ok chunk := by
  obtain ⟨hdirection, hend, hside⟩ := RangeStream.chunkEnd_spec htoward hlt
  have hendMem : stream.chunkEnd height ∈ Walk.walk height (stream.chunkEnd height) := by
    rw [Walk.mem_walk]
    omega
  have hcovered : stream.durable height → ∃ tip ∈ st.durableTip, height ≤ tip.height ∧
      stream.chunkEnd height ≤ tip.height := by
    intro hdurable
    obtain ⟨durableTip, hmem, hle⟩ := RangeStream.durable_iff.mp hdurable
    have hendLe := (hside durableTip hmem _ hendMem).mpr hle
    rw [hsnapshot, h.durableTip] at hmem
    exact ⟨durableTip, hmem, hle, hendLe⟩
  rw [RangeStream.readChunk_eq h.represents.state h.represents.holds.sealed_aligned htoward hlt
    hcovered, hsnapshot, RangeStream.chunkHeights_eq htoward hlt]
  refine h.exists_blocks htip hheight ?_
  unfold Walk.Before at hend
  omega

end Described

end

section

variable {s : Store ν} {st : IndexState} {blocks sent : List α}

/-- A stream on an index that does not change gives the blocks `blocks` of its range,
    up to the first one that cannot be projected. -/
inductive Serves (project : α → Except Status β) (snapshot : ServingSnapshot) (start finish : Nat)
    (s : Store ν) (st : IndexState) (blocks : List α) : RangeSession ν α β → Prop where
  | running {x : RangeSession ν α β} {sent : List α} {oks : List β} : x.store = s →
      RangeStream.Progress snapshot start finish (fun n a => snapshot.block α s st n = .ok a)
        x.stream sent →
      sent.mapM project = .ok oks → x.items = oks.map .ok →
      (x.ended = true → sent.length = Walk.absDiff start finish + 1) →
      Serves project snapshot start finish s st blocks x
  | stopped {x : RangeSession ν α β} : x.store = s → x.stream.Stopped →
      x.items = untilError (blocks.map project) →
      Serves project snapshot start finish s st blocks x

variable (hblocks : (Walk.walk start finish).mapM (snapshot.block α s st) = .ok blocks)

include hblocks

theorem block_at {n : Nat} {a : α} (hn : n ≤ Walk.absDiff start finish)
    (ha : snapshot.block α s st (Walk.toward (decide (start ≤ finish)) start n) = .ok a) :
    blocks[n]? = some a := by
  obtain ⟨b, hb, hblock⟩ := forall₂_getElem? (mapM_eq_ok.mp hblocks) (Walk.walk_getElem? hn)
  rw [ha] at hblock
  cases hblock
  exact hb

/-- What was sent are the first blocks of the range. -/
theorem sent_eq {stream : RangeStream α} (hprogress : RangeStream.Progress snapshot start finish
      (fun n a => snapshot.block α s st n = .ok a) stream sent) :
    blocks.length = Walk.absDiff start finish + 1 ∧ ∃ rest, blocks = sent ++ rest := by
  have hlength : blocks.length = Walk.absDiff start finish + 1 := by
    rw [← (mapM_eq_ok.mp hblocks).length_eq, Walk.length_walk]
  have hle := hprogress.length_le
  rw [List.length_append] at hle
  have htake : blocks.take sent.length = sent := by
    apply List.ext_getElem?
    intro i
    rw [List.getElem?_take]
    split
    · rename_i hi
      have hsent : sent[i]? = some sent[i] := List.getElem?_eq_getElem hi
      have hgot := hprogress.got i sent[i] (by rw [List.getElem?_append_left hi, hsent])
      rw [hsent, block_at hblocks (by omega) hgot]
    · rename_i hi
      exact (List.getElem?_eq_none (by omega)).symm
  refine ⟨hlength, blocks.drop sent.length, ?_⟩
  rw [← htake, List.length_take, Nat.min_eq_left (by omega), List.take_append_drop]

/-- What the stream gives is what it should give, as far as it has come. -/
theorem Serves.items (h : Serves project snapshot start finish s st blocks x) :
    x.items <+: untilError (blocks.map project) ∧
      (x.ended = true → x.items = untilError (blocks.map project)) := by
  cases h with
  | stopped _ _ hitems =>
    rw [hitems]
    exact ⟨List.prefix_rfl, fun _ => rfl⟩
  | running _ hprogress hoks hitems hended =>
    obtain ⟨hlength, rest, rfl⟩ := sent_eq hblocks hprogress
    rw [untilError_append hoks rest, hitems]
    refine ⟨List.prefix_append _ _, ?_⟩
    intro hend
    have hsent := hended hend
    rw [List.length_append] at hlength
    rw [List.eq_nil_of_length_eq_zero (by omega : rest.length = 0)]
    exact (List.append_nil _).symm

end

section

variable [Proto.Prost] [LawfulStoredBlock α] {s : Store ν} {st : IndexState}
  {chain : List CompactBlockRecord} {tip : BlockId} {blocks sent : List α}

theorem Described.continues (h : Described snapshot s st chain) {stream : RangeStream α}
    {height : Nat} {chunk : List α} {first : α} (hlt : height < 2 ^ 32)
    (hprogress : RangeStream.Progress snapshot start finish
      (fun n a => snapshot.block α s st n = .ok a) stream sent)
    (hrecords : stream.records = []) (hcursor : stream.cursor = some height)
    (hread : stream.readChunk s height (stream.chunkEnd height) = .ok chunk)
    (hfirst : chunk.head? = some first) : stream.Continues first := by
  obtain ⟨hheight, hle, htoward⟩ := hprogress.toward hcursor
  rw [hrecords, List.append_nil] at hheight hle
  have hnext := (RangeStream.readChunk_eq_ok h.represents.state
    h.represents.holds.sealed_aligned htoward hlt hread).2 0 first (by
      rw [← List.head?_eq_getElem?, hfirst])
  rw [Walk.toward_zero, hheight, hprogress.snapshot_eq] at hnext
  intro ids hids
  rw [hprogress.last_eq, Option.mem_def, Option.map_eq_some_iff] at hids
  obtain ⟨last, hlast, rfl⟩ := hids
  have hpos : 0 < sent.length := List.length_pos_of_mem (List.mem_of_getLast? hlast)
  rw [List.getLast?_eq_getElem?] at hlast
  have hgot := hprogress.got (sent.length - 1) last (by
    rw [hrecords, List.append_nil]
    exact hlast)
  rw [hprogress.ascending_eq]
  unfold Walk.absDiff at hle
  by_cases hup : start ≤ finish
  · simp only [hup, decide_true, if_true, Walk.toward] at hgot hnext ⊢
    refine h.block_linked hgot ?_
    rw [show start + (sent.length - 1) + 1 = start + sent.length by omega]
    exact hnext
  · simp only [hup, decide_false, Bool.false_eq_true, if_false, Walk.toward] at hgot hnext ⊢
    refine h.block_linked hnext ?_
    rw [show start - sent.length + 1 = start - (sent.length - 1) by omega]
    exact hgot

variable (h : Described snapshot s st chain) (hstart : start < 2 ^ 32) (hfinish : finish < 2 ^ 32)
  (htip : snapshot.visibleTip = some tip) (hstartTip : start ≤ tip.height)
  (hfinishTip : finish ≤ tip.height)
  (hblocks : (Walk.walk start finish).mapM (snapshot.block α s st) = .ok blocks)

include h hstart hfinish htip hstartTip hfinishTip hblocks

/-- A poll of an index that does not change. -/
theorem Serves.poll (hserves : Serves project snapshot start finish s st blocks x)
    {item : Option (Except Status β)} {stream : RangeStream α}
    (hpoll : RangeStream.Polls project x.store x.stream item stream) :
    Serves project snapshot start finish s st blocks (x.polled item stream) := by
  cases hserves with
  | stopped hstore hstopped hitems =>
    cases hpoll with
    | item hturn =>
      rw [hstopped.turn] at hturn
      cases hturn
      exact .stopped hstore hstopped ((List.append_nil _).trans hitems)
    | again hturn _ =>
      rw [hstopped.turn] at hturn
      cases hturn
  | @running sent oks hstore hprogress hoks hitems hended =>
    rw [hstore] at hpoll
    have hchunks : RangeStream.Chunks snapshot start finish
        (fun n a => snapshot.block α s st n = .ok a) s :=
      RangeStream.chunks_of_represents h.represents h.consistent hstart hfinish fun _ _ ha => ha
    rcases hprogress.poll hstart hfinish hchunks hpoll with
      ⟨a, b, rfl, hproject, hnext⟩ | ⟨e, stream₁, rfl, hstopped, hprogress₁, hcause⟩ |
      ⟨rfl, -, hlength, hnext⟩
    · refine .running hstore hnext (mapM_snoc hoks hproject) ?_ (by simp [polled])
      simp [polled, hitems]
    · -- only a projection can fail
      refine .stopped hstore hstopped ?_
      have hheights : ∀ height, stream₁.cursor = some height → height < 2 ^ 32 ∧
          height ≤ tip.height := by
        intro height hcursor
        obtain ⟨hheight, hle, -⟩ := hprogress₁.toward hcursor
        have hmem := Walk.mem_walk.mp (List.mem_of_getElem? (Walk.walk_getElem? hle))
        rw [← hheight] at hmem
        omega
      cases hcause with
      | @project a hle hgot hproject =>
        obtain ⟨-, rest, rfl⟩ := sent_eq hblocks hprogress
        have hat := block_at hblocks hle hgot
        rw [List.getElem?_append_right le_rfl, Nat.sub_self, ← List.head?_eq_getElem?] at hat
        obtain ⟨rest, rfl⟩ := List.head?_eq_some_iff.mp hat
        rw [untilError_append hoks, List.map_cons, hproject]
        simp [polled, hitems, untilError]
      | read _ hcursor hread =>
        obtain ⟨-, -, htoward⟩ := hprogress₁.toward hcursor
        obtain ⟨hlt, hle⟩ := hheights _ hcursor
        obtain ⟨chunk, hok⟩ := h.readChunk_ok htip hprogress₁.snapshot_eq htoward hlt hle
          (hprogress₁.finish_eq ▸ hfinishTip)
        rw [hok] at hread
        cases hread
      | link hrecords hcursor hread hfirst hnot =>
        exact absurd (h.continues (hheights _ hcursor).1 hprogress₁ hrecords hcursor hread hfirst)
          hnot
    · exact .running hstore hnext hoks (by simp [polled, hitems]) fun _ => hlength

/-! ## Whole runs -/

variable [Blake3]

/-- A step that does not change the index. -/
def Stable (project : α → Except Status β) (x y : RangeSession ν α β) : Prop :=
  Step project x y ∧ y.store = x.store

end

end RangeSession

section

attribute [local instance] Proto.wireDecoder zeroDigest

/-- A request for the blocks 2, 1 and 0. -/
def threeDown : BlockRange := ⟨some ⟨2, []⟩, some ⟨0, []⟩⟩

/-- An index of plain blocks accepts a request from its last block down. -/
theorem plain_accepted (α : Type) {request : BlockRange} {start finish : Nat}
    (hheights : rangeHeights request = .ok (start, finish)) (hfinish : finish ≤ start)
    (hstart : start < 2 ^ 31) :
    ∃ (s : Store Unit) (st : IndexState) (stream : RangeStream α),
      Reachable (Call.Honest .any) s ∧ Represents .any s st (plainRecords 5000 (start + 1)) ∧
      Represents plainHeight s st (plainRecords 5000 (start + 1)) ∧ st.generation = start + 1 ∧
      st.sealedEnd = 0 ∧ rangeAs α st.toServingSnapshot request = .ok stream := by
  obtain ⟨s, st, hreach, hplain, hsealed, hgen, -⟩ : ∃ (s : Store Unit) (st : IndexState),
      Reachable (Call.Honest .any) s ∧ _ :=
    reachable_plain 5000 hstart none fun _ hc _ => ⟨hc.1, Call.respects_any _⟩
  obtain ⟨st', chain, hrep⟩ := hreach.represents fun _ hc => hc
  obtain rfl : st' = st := Except.ok.inj (hrep.state.symm.trans hplain.state)
  obtain rfl := hrep.chain_unique hplain
  obtain ⟨tip, htip, hle⟩ := hplain.describes.exists_tip hplain.connected (i := start) (by simp)
  have htip : st'.durableTip = some tip := htip
  refine ⟨s, st', ⟨st'.toServingSnapshot, finish, decide (start ≤ finish), some start, [], none⟩,
    hreach, hrep, hplain, hgen, hsealed, ?_⟩
  have hready : ensureReady st'.toServingSnapshot = .ok () := rfl
  have hvisible : st'.toServingSnapshot.visibleTip = some tip := htip
  have hbelow : start ≤ tip.height ∧ finish ≤ tip.height := ⟨hle, hfinish.trans hle⟩
  have hdurable : st'.toServingSnapshot.tipFresh = true ∨
      ∃ durable ∈ st'.toServingSnapshot.durableTip,
        start ≤ durable.height ∧ finish ≤ durable.height :=
    .inr ⟨tip, htip, hbelow⟩
  simp only [rangeAs, hheights, ok_bind, hready, hvisible, okOr_some, ensure_of _ hbelow,
    ensure_of _ hdurable]
  rfl

end

end Ztreamer
