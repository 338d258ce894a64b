import Ztreamer.Service.RangeSession

/-! # The arithmetic of range streams

    The additions and subtractions of heights that a stream evaluates, also those whose
    result is not used. Saturating operations never wrap and are not listed.

    * `RangeStream.operations`: what the next turn evaluates,
    * `range_stream_never_wraps_iff`: the ranges whose streams never wrap.
-/

namespace Ztreamer

open Octets Result

variable {ν α β : Type}

/-- An addition or a subtraction of 32-bit heights. -/
inductive U32Op where
  | add (a b : Nat)
  | sub (a b : Nat)
  deriving DecidableEq

/-- The result is not a 32-bit number; a build with overflow checks panics. -/
def U32Op.Wraps : U32Op → Prop
  | .add a b => 2 ^ 32 ≤ a + b
  | .sub a b => a < b

namespace RangeStream

/-- The operation that goes `n` heights on. -/
def step (stream : RangeStream α) (height n : Nat) : U32Op :=
  if stream.ascending then .add height n else .sub height n

variable [StoredBlock α]

/-- The operations of the next turn. A chunk of the volatile head is looked up height
    by height, up to the first one that is missing. The cursor after a chunk is evaluated
    before the end of the range is tested. -/
def operations (s : Store ν) (stream : RangeStream α) : List U32Op :=
  match stream.records, stream.cursor with
  | [], some height =>
    let chunkEnd := stream.chunkEnd height
    let lookups :=
      if stream.durable height then []
      else ((List.range (Walk.absDiff height chunkEnd + 1)).filter fun offset =>
        ∀ earlier < offset,
          (stream.snapshot.volatile (Walk.toward stream.ascending height earlier)).isSome).map
        (stream.step height)
    match stream.readChunk s height chunkEnd with
    | .error _ => lookups
    | .ok chunk =>
      match chunk.head?.filter fun first => ¬ stream.Continues first with
      | some _ => lookups
      | none => lookups ++ [stream.step chunkEnd 1]
  | _, _ => []

variable {stream : RangeStream α} {s : Store ν} {height : Nat}

omit [StoredBlock α] in
theorem step_wraps {n : Nat} : (stream.step height n).Wraps ↔
    if stream.ascending then 2 ^ 32 ≤ height + n else height < n := by
  unfold step
  split <;> rfl

omit [StoredBlock α] in
theorem not_wraps_of_chunk (htoward : stream.Toward height) (hlt : height < 2 ^ 32)
    (hfinish : stream.finish < 2 ^ 32) {n : Nat}
    (hn : n ≤ Walk.absDiff height (stream.chunkEnd height)) :
    ¬ (stream.step height n).Wraps := by
  obtain ⟨hdirection, hend, -⟩ := chunkEnd_spec htoward hlt
  rw [step_wraps]
  unfold Walk.absDiff at hn
  unfold Walk.Before at hend
  split at hdirection
  · rename_i hup
    rw [if_pos hup]
    omega
  · rename_i hup
    rw [if_neg hup]
    omega

/-- What the next turn evaluates: heights of its chunk, and the one after the chunk. -/
theorem mem_operations {op : U32Op} (hop : op ∈ stream.operations s) :
    ∃ height, stream.records = [] ∧ stream.cursor = some height ∧
      ((∃ n ≤ Walk.absDiff height (stream.chunkEnd height), op = stream.step height n) ∨
        op = stream.step (stream.chunkEnd height) 1) := by
  unfold operations at hop
  split at hop
  · rename_i height hrecords hcursor
    have hlookups : op ∈ (if stream.durable height then []
        else ((List.range (Walk.absDiff height (stream.chunkEnd height) + 1)).filter fun offset =>
          ∀ earlier < offset, (stream.snapshot.volatile
            (Walk.toward stream.ascending height earlier)).isSome).map (stream.step height)) →
        ∃ n ≤ Walk.absDiff height (stream.chunkEnd height), op = stream.step height n := by
      intro hmem
      split at hmem
      · cases hmem
      · obtain ⟨n, hn, rfl⟩ := List.mem_map.mp hmem
        have hlt := List.mem_range.mp (List.mem_of_mem_filter hn)
        exact ⟨n, by omega, rfl⟩
    refine ⟨height, hrecords, hcursor, ?_⟩
    dsimp only at hop
    split at hop
    · exact .inl (hlookups hop)
    · split at hop
      · exact .inl (hlookups hop)
      · rcases List.mem_append.mp hop with hop | hop
        · exact .inl (hlookups hop)
        · exact .inr (List.mem_singleton.mp hop)
  · cases hop

/-- A chunk that is read and continues the stream evaluates the height after it. -/
theorem step_mem_operations {chunk : List α} (hrecords : stream.records = [])
    (hcursor : stream.cursor = some height)
    (hread : stream.readChunk s height (stream.chunkEnd height) = .ok chunk)
    (hcontinues : ∀ first ∈ chunk.head?, stream.Continues first) :
    stream.step (stream.chunkEnd height) 1 ∈ stream.operations s := by
  have hnone : (chunk.head?.filter fun first => ¬ stream.Continues first) = none := by
    rw [Option.filter_eq_none_iff]
    intro first hfirst
    simpa using hcontinues first hfirst
  unfold operations
  simp only [hrecords, hcursor, hread, hnone]
  exact List.mem_append_right _ (List.mem_singleton_self _)

/-- The next turn reads the last chunk of the range, and the chunk continues the stream. -/
def AtLastChunk (stream : RangeStream α) (s : Store ν) (start finish : Nat) : Prop :=
  stream.ascending = decide (start ≤ finish) ∧ ∃ height chunk,
    stream.records = [] ∧ stream.cursor = some height ∧ stream.chunkEnd height = finish ∧
    stream.readChunk s height (stream.chunkEnd height) = .ok chunk ∧
    ∀ first ∈ chunk.head?, stream.Continues first

end RangeStream

namespace RangeSession

variable [StoredBlock α] {snapshot : ServingSnapshot} {start finish : Nat}

/-- A range after whose end there is a height, in its direction. -/
def InRange (start finish : Nat) : Prop :=
  if start ≤ finish then finish + 1 < 2 ^ 32 else 0 < finish

instance (start finish : Nat) : Decidable (InRange start finish) := by
  unfold InRange; infer_instance

/-- The stream of such a range does not wrap. -/
theorem Gives.not_wraps {Got : Nat → α → Prop} {project : α → Except Status β}
    {x : RangeSession ν α β} (h : Gives project snapshot start finish Got x)
    (hstart : start < 2 ^ 32) (hfinish : finish < 2 ^ 32) (hrange : InRange start finish)
    {op : U32Op} (hop : op ∈ x.stream.operations x.store) : ¬ op.Wraps := by
  obtain ⟨height, hrecords, hcursor, hcases⟩ := RangeStream.mem_operations hop
  cases h with
  | stopped hstopped =>
    rw [hstopped.2] at hcursor
    cases hcursor
  | running hprogress =>
    obtain ⟨hheight, hle, htoward⟩ := hprogress.toward hcursor
    have hlt : height < 2 ^ 32 := by
      have hmem := Walk.mem_walk.mp (List.mem_of_getElem? (Walk.walk_getElem? hle))
      rw [← hheight] at hmem
      omega
    rcases hcases with ⟨n, hn, rfl⟩ | rfl
    · exact RangeStream.not_wraps_of_chunk htoward hlt (hprogress.finish_eq ▸ hfinish) hn
    · obtain ⟨-, hend, -⟩ := RangeStream.chunkEnd_spec htoward hlt
      unfold RangeStream.Toward at htoward
      rw [RangeStream.step_wraps]
      rw [hprogress.finish_eq] at hend htoward
      rw [hprogress.ascending_eq] at htoward ⊢
      unfold InRange at hrange
      unfold Walk.Before at hend
      simp only [decide_eq_true_eq] at htoward ⊢
      split at hrange
      · rename_i hup
        rw [if_pos hup] at htoward ⊢
        omega
      · rename_i hup
        rw [if_neg hup] at htoward ⊢
        omega

variable [Proto.Prost] [Blake3] [LawfulStoredBlock α] {s : Store ν} {st : IndexState}
  {chain : List CompactBlockRecord} {tip : BlockId}

/-- A stream on an index that does not change, with a projection that does not fail,
    comes to its last chunk. -/
theorem exists_last_chunk (h : Described snapshot s st chain) (hstart : start < 2 ^ 32)
    (hfinish : finish < 2 ^ 32) (htip : snapshot.visibleTip = some tip)
    (hstartTip : start ≤ tip.height) (hfinishTip : finish ≤ tip.height)
    {project : α → Except Status β} (hproject : ∀ a, ∃ b, project a = .ok b)
    {x : RangeSession ν α β} {sent : List α} (hstore : x.store = s)
    (hprogress : RangeStream.Progress snapshot start finish
      (fun n a => snapshot.block α s st n = .ok a) x.stream sent)
    (hcursor : x.stream.cursor ≠ none) :
    ∃ y, Relation.ReflTransGen (Stable project) x y ∧ y.store = s ∧
      y.stream.AtLastChunk s start finish := by
  induction hn : Walk.absDiff start finish + 1 - sent.length
    using Nat.strong_induction_on generalizing x sent with
  | _ n ih =>
    -- the session after a record was sent
    have hmore : ∀ {stream' : RangeStream α} {a : α} {b : β},
        RangeStream.Polls project s x.stream (some (.ok b)) stream' → stream'.cursor ≠ none →
        RangeStream.Progress snapshot start finish
          (fun n a => snapshot.block α s st n = .ok a) stream' (sent ++ [a]) →
        ∃ y, Relation.ReflTransGen (Stable project) x y ∧ y.store = s ∧
          y.stream.AtLastChunk s start finish := by
      intro stream' a b hpoll hcursor' hnext
      have hle := hnext.length_le
      rw [List.length_append, List.length_append, List.length_singleton] at hle
      have hstep : Stable project x (x.polled (some (.ok b)) stream') :=
        ⟨.poll (hstore.symm ▸ hpoll), rfl⟩
      obtain ⟨y, hrun, hrest⟩ := @ih _ (by
        rw [List.length_append, List.length_singleton]
        omega) (x.polled (some (.ok b)) stream') (sent ++ [a]) hstore hnext hcursor' rfl
      exact ⟨y, .head hstep hrun, hrest⟩
    obtain ⟨height, hheight⟩ := Option.ne_none_iff_exists'.mp hcursor
    cases hrecords : x.stream.records with
    | cons a rest =>
      obtain ⟨b, hb⟩ := hproject a
      exact hmore (.item (RangeStream.turn_send hrecords hb)) hcursor (hprogress.send hrecords)
    | nil =>
      obtain ⟨hplace, hle, htoward⟩ := hprogress.toward hheight
      have hmem := Walk.mem_walk.mp (List.mem_of_getElem? (Walk.walk_getElem? hle))
      rw [← hplace] at hmem
      have hlt : height < 2 ^ 32 := by omega
      obtain ⟨chunk, hread⟩ := h.readChunk_ok htip hprogress.snapshot_eq htoward hlt (by omega)
        (hprogress.finish_eq ▸ hfinishTip)
      have hcontinues : ∀ first ∈ chunk.head?, x.stream.Continues first := by
        intro first hfirst
        exact h.continues hlt hprogress hrecords hheight hread hfirst
      by_cases hend : x.stream.chunkEnd height = finish
      · exact ⟨x, .refl, hstore, hprogress.ascending_eq, height, chunk, hrecords, hheight, hend,
          hread, hcontinues⟩
      · obtain ⟨hlength, hpiece, hgot⟩ := RangeStream.chunks_of_represents h.represents h.consistent
          hstart hfinish (fun _ _ ha => ha) _ _ hprogress height chunk hheight hread
        obtain ⟨first, rest, rfl⟩ : ∃ first rest, chunk = first :: rest :=
          List.exists_cons_of_length_pos (by omega)
        obtain ⟨b, hb⟩ := hproject first
        have hhold := hprogress.hold hstart hfinish hrecords hheight hlength hpiece hgot hcontinues
        refine hmore (.again (RangeStream.turn_hold hrecords hheight hread (hcontinues first rfl))
          (.item (RangeStream.turn_send rfl hb))) ?_ (hhold.send rfl)
        show x.stream.nextCursor (x.stream.chunkEnd height) ≠ none
        rw [RangeStream.nextCursor, if_pos (hprogress.finish_eq ▸ hend)]
        exact Option.some_ne_none _

end RangeSession

variable {snapshot : ServingSnapshot} {request : BlockRange} {stream : RangeStream α}

/-- The stream of an accepted range has a chunk to read. -/
theorem rangeAs_cursor [StoredBlock α] (h : rangeAs α snapshot request = .ok stream) :
    stream.cursor ≠ none := by
  simp only [rangeAs, bind_eq_ok, okOr_eq_ok, ensure_eq_ok, pure_eq_ok, Except.ok.injEq] at h
  obtain ⟨_, _, _, _, _, _, _, _, _, _, rfl⟩ := h
  exact Option.some_ne_none _

/-- On an index that the snapshot describes, the stream of a range without a height after
    its end comes to an operation that wraps. -/
theorem exists_wraps [Proto.Prost] [Blake3] [StoredBlock α] [LawfulStoredBlock α] {s : Store ν}
    {st : IndexState} {chain : List CompactBlockRecord}
    (hdescribed : RangeSession.Described snapshot s st chain) {start finish : Nat}
    (hheights : rangeHeights request = .ok (start, finish))
    (haccepted : rangeAs α snapshot request = .ok stream) {project : α → Except Status β}
    (hproject : ∀ a, ∃ b, project a = .ok b) (hrange : ¬ RangeSession.InRange start finish) :
    ∃ x, Relation.ReflTransGen (RangeSession.Step project) (.start β s stream) x ∧
      ∃ op ∈ x.stream.operations x.store, op.Wraps := by
  obtain ⟨hstart, hfinish, ⟨tip, htip, hstartTip, hfinishTip⟩, hprogress⟩ :=
    rangeAs_eq_ok (fun n a => snapshot.block α s st n = .ok a) hheights haccepted
  obtain ⟨x, hrun, hstore, hup, height, chunk, hrecords, hcursor, hend, hread, hcontinues⟩ :=
    RangeSession.exists_last_chunk hdescribed hstart hfinish htip hstartTip hfinishTip hproject
      (x := .start β s stream) rfl hprogress (rangeAs_cursor haccepted)
  have hop := RangeStream.step_mem_operations hrecords hcursor hread hcontinues
  rw [← hstore] at hop
  refine ⟨x, Relation.ReflTransGen.mono (fun _ _ hstep => hstep.1) _ _ hrun, _, hop, ?_⟩
  rw [RangeStream.step_wraps, hup, hend]
  unfold RangeSession.InRange at hrange
  simp only [decide_eq_true_eq]
  split at hrange
  · rename_i hle
    rw [if_pos hle]
    omega
  · rename_i hle
    rw [if_neg hle]
    omega

/-- The stream of an accepted range never wraps, under any writes and any projection,
    exactly when there is a height after the end of the range, in its direction. -/
theorem range_stream_never_wraps_iff [Proto.Prost] [Blake3] [StoredBlock α] [LawfulStoredBlock α]
    [Inhabited β] (s : Store ν) (hreach : Reachable (Call.Honest .any) s) (st : IndexState)
    (hstate : s.getState = .ok st) (snapshot : ServingSnapshot) (hpublished : snapshot.Published)
    (hdescribes : snapshot.durableTip = st.durableTip) (request : BlockRange) (start finish : Nat)
    (hheights : rangeHeights request = .ok (start, finish)) (stream : RangeStream α)
    (haccepted : rangeAs α snapshot request = .ok stream) :
    (∀ (project : α → Except Status β) (x : RangeSession ν α β),
      Relation.ReflTransGen (RangeSession.Step project) (.start β s stream) x →
      ∀ op ∈ x.stream.operations x.store, ¬ op.Wraps) ↔ RangeSession.InRange start finish := by
  have hconsistent := hpublished.consistent
  constructor
  · intro hnever
    by_contra hrange
    obtain ⟨st', chain, hrep⟩ := hreach.represents fun _ hc => hc
    obtain rfl : st' = st := Except.ok.inj (hrep.state.symm.trans hstate)
    obtain ⟨x, hrun, op, hop, hwraps⟩ := exists_wraps ⟨hconsistent, hrep, hdescribes⟩ hheights
      haccepted (fun a => ⟨default, rfl⟩ : ∀ a, ∃ b : β, (fun _ : α => Except.ok default) a = .ok b)
      hrange
    exact hnever _ x hrun op hop hwraps
  · intro hrange project x hsteps op hop
    obtain ⟨hstart, hfinish, -, hprogress⟩ := rangeAs_eq_ok (fun _ _ => True) hheights haccepted
    obtain ⟨-, hgives⟩ :=
      RangeSession.gives_of_steps hconsistent hstart hfinish hreach hprogress hsteps
    exact hgives.not_wraps hstart hfinish hrange hop

section

attribute [local instance] Proto.wireDecoder zeroDigest

/-- The stream of the blocks 2 and 1 of an index with three blocks never wraps. -/
theorem range_stream_never_wraps_down : ∃ (s : Store Unit) (snapshot : ServingSnapshot)
    (stream : RangeStream CompactBlockRecord),
    rangeAs CompactBlockRecord snapshot ⟨some ⟨2, []⟩, some ⟨1, []⟩⟩ = .ok stream ∧
    ∀ (project : CompactBlockRecord → Except Status Unit) x,
      Relation.ReflTransGen (RangeSession.Step project) (.start Unit s stream) x →
      ∀ op ∈ x.stream.operations x.store, ¬ op.Wraps := by
  have hheights : rangeHeights ⟨some ⟨2, []⟩, some ⟨1, []⟩⟩ = .ok (2, 1) := rfl
  obtain ⟨s, st, stream, hreach, hrep, -, -, -, haccepted⟩ :=
    plain_accepted CompactBlockRecord hheights (by decide) (by decide)
  exact ⟨s, _, stream, haccepted, (range_stream_never_wraps_iff s hreach st hrep.state _
    (.ofState st) rfl _ 2 1 hheights stream haccepted).mpr (by decide)⟩

/-- The stream of the blocks 2, 1 and 0 comes to subtract one from 0. -/
theorem range_stream_wraps_down_to_zero : ∃ (s : Store Unit) (st : IndexState)
    (stream : RangeStream CompactBlockRecord) (x : RangeSession Unit CompactBlockRecord Unit),
    Reachable (Call.Honest .any) s ∧ s.getState = .ok st ∧
    rangeAs CompactBlockRecord st.toServingSnapshot threeDown = .ok stream ∧
    Relation.ReflTransGen (RangeSession.Step fun _ => .ok ()) (.start Unit s stream) x ∧
    ∃ op ∈ x.stream.operations x.store, op.Wraps := by
  have hheights : rangeHeights threeDown = .ok (2, 0) := rfl
  obtain ⟨s, st, stream, hreach, hrep, -, -, -, haccepted⟩ :=
    plain_accepted CompactBlockRecord hheights (by decide) (by decide)
  obtain ⟨x, hrun, hwraps⟩ := exists_wraps ⟨(ServingSnapshot.Published.ofState st).consistent,
    hrep, rfl⟩ hheights haccepted (fun _ => ⟨(), rfl⟩) (by decide)
  exact ⟨s, st, stream, x, hreach, hrep.state, haccepted, hrun, hwraps⟩

end

end Ztreamer
