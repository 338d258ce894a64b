import Mathlib.Data.List.Basic
import Mathlib.Order.WellFounded
import Ztreamer.Lib.Result
import Ztreamer.Snapshot.ManifestEntry

/-! # The fetch of a blob

    `Fetcher::blob` reads the blob of a manifest entry from a source that nobody
    trusts. A transfer that fails is resumed from the last byte received. The
    fetch is a machine that sends requests and reads chunks, and the source answers
    each request as it likes.

    * `Fetch.step`, `Fetch.run`: the machine,
    * `Fetch.Counted`: requests, progress and stalled resumes,
    * `Fetch.Idle`: a stream that a fetch reads for ever,
    * `Fetch.run_ends_iff`: a fetch ends exactly when it is given no such stream,
    * `Fetch.Delivers`: what a source has to do for the fetch to succeed,
    * `Fetch.run_peer`: a peer that has the blob does it,
    * `blob_fetch`: requests, buffer and result of every fetch.
-/

namespace Ztreamer

open Octets

variable {ν : Type}

/-! ## Errors and the resume rule -/

inductive GrpcCode where
  | ok
  | cancelled
  | unknown
  | invalidArgument
  | deadlineExceeded
  | notFound
  | alreadyExists
  | permissionDenied
  | resourceExhausted
  | failedPrecondition
  | aborted
  | outOfRange
  | unimplemented
  | internal
  | unavailable
  | dataLoss
  | unauthenticated
  deriving DecidableEq

/-- Why a source gave no manifest or no blob. -/
inductive FetchError where
  | url
  | http
  | body
  | status
  | tls
  | connect
  | grpc (code : GrpcCode)
  | latest
  | latestHeight
  | utf8
  | manifest
  | wire
  | version
  | signature
  | digest (startHeight : U32) (mismatch : BlobMismatch)
  | stalled
  deriving DecidableEq

/-- An error of the transfer, which a new request can avoid. -/
def FetchError.isTransfer : FetchError → Bool
  | .http => true
  | .body => true
  | .grpc code => code ∉ [.notFound, .outOfRange, .invalidArgument, .failedPrecondition,
      .permissionDenied, .unauthenticated, .unimplemented]
  | _ => false

def maxResumesWithoutProgress : Nat := 5

structure ResumeRule where
  /-- The bytes that a failed transfer must receive to count as progress. -/
  progressBytes : Nat
  /-- The wait after the first failed transfer with no progress. -/
  firstWait : Nat

/-- What to do after a failed transfer. -/
inductive Resume where
  | now
  | after (wait : Nat)
  | stop
  deriving DecidableEq

/-- What to do after a failed transfer that received `received` bytes, and the new
    count of stalled transfers in a row. -/
def ResumeRule.after (rule : ResumeRule) (count received : Nat) : Resume × Nat :=
  if rule.progressBytes ≤ received then (.now, 0)
  else if count = maxResumesWithoutProgress then (.stop, count)
  else (.after (rule.firstWait * 2 ^ count), count + 1)

/-! ## The machine -/

/-- The answers to the reads of a stream, one after another. Nothing is the end of
    the stream. -/
abbrev BlobStream : Type := Nat → Option (Except FetchError Bytes)

/-- The answer to each request, by its number and its offset. -/
abbrev BlobSource : Type := Nat → Nat → Except FetchError BlobStream

inductive FetchPhase where
  /-- The next request is sent. -/
  | request
  /-- The stream of a request from `offset` is read at `next`. -/
  | reading (offset : Nat) (chunks : BlobStream) (next : Nat)
  | done (result : Except FetchError Bytes)

structure Fetch where
  blob : Bytes := []
  /-- The failed transfers in a row with no progress. -/
  stalled : Nat := 0
  /-- The offsets of the requests so far. -/
  offsets : List Nat := []
  /-- The bytes that each failed transfer received. -/
  failures : List Nat := []
  phase : FetchPhase := .request

namespace Fetch

section

variable [Blake3] (entry : ManifestEntry ν) (rule : ResumeRule) (source : BlobSource)

/-- No more is read: the digest decides. -/
def finish (f : Fetch) : Fetch :=
  { f with phase := .done (match entry.checkBlob f.blob with
    | .ok _ => .ok f.blob
    | .error mismatch => .error (.digest entry.startHeight mismatch)) }

/-- The transfer from `offset` failed with `error`. -/
def transferFailed (f : Fetch) (offset : Nat) (error : FetchError) : Fetch :=
  if entry.blobLen.val ≤ f.blob.length then f.finish entry
  else
    let received := f.blob.length - offset
    let f := { f with failures := f.failures ++ [received] }
    if error.isTransfer then
      match rule.after f.stalled received with
      | (.stop, _) => { f with phase := .done (.error error) }
      | (_, count) => { f with stalled := count, phase := .request }
    else { f with phase := .done (.error error) }

/-- A request, or one read of a stream. -/
def step (f : Fetch) : Fetch :=
  match f.phase with
  | .request =>
    let asked := { f with offsets := f.offsets ++ [f.blob.length] }
    match source f.offsets.length f.blob.length with
    | .error error => asked.transferFailed entry rule f.blob.length error
    | .ok chunks => { asked with phase := .reading f.blob.length chunks 0 }
  | .reading offset chunks next =>
    if f.blob.length ≤ entry.blobLen.val then
      match chunks next with
      | none => f.finish entry
      | some (.error error) => f.transferFailed entry rule offset error
      | some (.ok chunk) =>
        { f with blob := f.blob ++ chunk, phase := .reading offset chunks (next + 1) }
    else f.finish entry
  | .done _ => f

/-- The fetch after `n` steps. -/
def run : Nat → Fetch
  | 0 => {}
  | n + 1 => (run n).step entry rule source

/-! ## What a step does -/

/-- What a failed transfer from `offset` leads to. -/
inductive Fails (f : Fetch) (offset : Nat) (error : FetchError) : Fetch → Prop where
  | complete : entry.blobLen.val ≤ f.blob.length → Fails f offset error (f.finish entry)
  | progress : f.blob.length < entry.blobLen.val → error.isTransfer = true →
      rule.progressBytes ≤ f.blob.length - offset →
      Fails f offset error { f with
        failures := f.failures ++ [f.blob.length - offset], stalled := 0, phase := .request }
  | stalled : f.blob.length < entry.blobLen.val → error.isTransfer = true →
      f.blob.length - offset < rule.progressBytes → f.stalled ≠ maxResumesWithoutProgress →
      Fails f offset error { f with
        failures := f.failures ++ [f.blob.length - offset], stalled := f.stalled + 1,
        phase := .request }
  | stop : f.blob.length < entry.blobLen.val →
      (error.isTransfer = true → f.blob.length - offset < rule.progressBytes ∧
        f.stalled = maxResumesWithoutProgress) →
      Fails f offset error { f with
        failures := f.failures ++ [f.blob.length - offset], phase := .done (.error error) }

theorem transferFailed_fails (f : Fetch) (offset : Nat) (error : FetchError) :
    Fails entry rule f offset error (f.transferFailed entry rule offset error) := by
  unfold transferFailed
  split
  case isTrue hcomplete => exact .complete hcomplete
  case isFalse hshort =>
    rw [Nat.not_le] at hshort
    simp only
    split
    case isTrue htransfer =>
      unfold ResumeRule.after
      by_cases hprogress : rule.progressBytes ≤ f.blob.length - offset
      · simp only [if_pos hprogress]
        exact .progress hshort htransfer hprogress
      · rw [Nat.not_le] at hprogress
        by_cases hcount : f.stalled = maxResumesWithoutProgress
        · simp only [if_neg (Nat.not_le.mpr hprogress), if_pos hcount]
          exact .stop hshort fun _ => ⟨hprogress, hcount⟩
        · simp only [if_neg (Nat.not_le.mpr hprogress), if_neg hcount]
          exact .stalled hshort htransfer hprogress hcount
    case isFalse htransfer => exact .stop hshort fun h => absurd h htransfer

/-- What one step of a fetch that is not done leads to. -/
inductive Moves (f : Fetch) : Fetch → Prop where
  | opened {chunks : BlobStream} : f.phase = .request →
      source f.offsets.length f.blob.length = .ok chunks →
      Moves f { f with
        offsets := f.offsets ++ [f.blob.length], phase := .reading f.blob.length chunks 0 }
  | refused {error : FetchError} {f' : Fetch} : f.phase = .request →
      source f.offsets.length f.blob.length = .error error →
      Fails entry rule { f with offsets := f.offsets ++ [f.blob.length] } f.blob.length error f' →
      Moves f f'
  | ended {offset next : Nat} {chunks : BlobStream} : f.phase = .reading offset chunks next →
      (f.blob.length ≤ entry.blobLen.val → chunks next = none) → Moves f (f.finish entry)
  | failed {offset next : Nat} {chunks : BlobStream} {error : FetchError} {f' : Fetch} :
      f.phase = .reading offset chunks next → f.blob.length ≤ entry.blobLen.val →
      chunks next = some (.error error) → Fails entry rule f offset error f' → Moves f f'
  | received {offset next : Nat} {chunks : BlobStream} {chunk : Bytes} :
      f.phase = .reading offset chunks next → f.blob.length ≤ entry.blobLen.val →
      chunks next = some (.ok chunk) →
      Moves f { f with blob := f.blob ++ chunk, phase := .reading offset chunks (next + 1) }

theorem step_moves (f : Fetch) :
    Moves entry rule source f (f.step entry rule source) ∨
      (∃ result, f.phase = .done result) ∧ f.step entry rule source = f := by
  unfold step
  split
  case h_1 hphase =>
    left
    simp only
    split
    case h_1 error hsource => exact .refused hphase hsource (transferFailed_fails ..)
    case h_2 chunks hsource => exact .opened hphase hsource
  case h_2 offset chunks next hphase =>
    left
    split
    case isTrue hle =>
      split
      case h_1 hnone => exact .ended hphase fun _ => hnone
      case h_2 error herror => exact .failed hphase hle herror (transferFailed_fails ..)
      case h_3 chunk hchunk => exact .received hphase hle hchunk
    case isFalse hgt => exact .ended hphase fun hle => absurd hle hgt
  case h_3 result hphase => exact .inr ⟨⟨result, hphase⟩, rfl⟩

variable {entry rule source}

/-- What holds at the start and is kept by each step holds in the whole run. -/
theorem run_induction {P : Fetch → Prop} (hstart : P {})
    (hstep : ∀ f f', P f → Moves entry rule source f f' → P f') (n : Nat) :
    P (run entry rule source n) := by
  induction n with
  | zero => exact hstart
  | succ n ih =>
    rcases step_moves entry rule source (run entry rule source n) with hmoves | ⟨-, hsame⟩
    · exact hstep _ _ ih hmoves
    · rw [run, hsame]
      exact ih

/-! ## Requests -/

/-- After `k` transfers with progress there were at most six requests for each of
    them, and one for each stalled resume after the last. -/
def Counted (entry : ManifestEntry ν) (rule : ResumeRule) (f : Fetch) : Prop :=
  f.stalled ≤ maxResumesWithoutProgress ∧ ∃ k, match f.phase with
    | .request => k * rule.progressBytes ≤ f.blob.length ∧ f.blob.length ≤ entry.blobLen.val ∧
        f.offsets.length ≤ 6 * k + f.stalled
    | .reading offset _ _ => k * rule.progressBytes ≤ offset ∧ offset ≤ entry.blobLen.val ∧
        offset ≤ f.blob.length ∧ f.offsets.length ≤ 6 * k + f.stalled + 1
    | .done _ => k * rule.progressBytes ≤ entry.blobLen.val ∧ f.offsets.length ≤ 6 * k + 6

variable {f f' : Fetch} {offset : Nat} {error : FetchError} {blob : Bytes}

theorem Fails.counted {k : Nat} (h : Fails entry rule f offset error f')
    (hstalled : f.stalled ≤ maxResumesWithoutProgress) (hk : k * rule.progressBytes ≤ offset)
    (hoffset : offset ≤ entry.blobLen.val) (hle : offset ≤ f.blob.length)
    (hrequests : f.offsets.length ≤ 6 * k + f.stalled + 1) : f'.Counted entry rule := by
  simp only [maxResumesWithoutProgress] at hstalled
  cases h with
  | complete => exact ⟨hstalled, k, hk.trans hoffset, by simp only [finish]; omega⟩
  | progress hlt _ hprogress =>
    refine ⟨Nat.zero_le _, k + 1, ?_, hlt.le, ?_⟩
    · rw [Nat.succ_mul]
      simp only
      omega
    · simp only
      omega
  | stalled hlt _ _ hcount =>
    simp only [maxResumesWithoutProgress] at hcount
    refine ⟨?_, k, hk.trans hle, hlt.le, ?_⟩
    · simp only [maxResumesWithoutProgress]
      omega
    · simp only
      omega
  | stop => exact ⟨hstalled, k, hk.trans hoffset, by simp only; omega⟩

theorem Counted.moves (h : f.Counted entry rule) (hmoves : Moves entry rule source f f') :
    f'.Counted entry rule := by
  obtain ⟨hstalled, k, hk⟩ := h
  cases hmoves with
  | opened hphase =>
    rw [hphase] at hk
    obtain ⟨hprogress, hle, hrequests⟩ := hk
    refine ⟨hstalled, k, hprogress, hle, le_rfl, ?_⟩
    simp only [List.length_append, List.length_singleton]
    omega
  | refused hphase _ hfails =>
    rw [hphase] at hk
    obtain ⟨hprogress, hle, hrequests⟩ := hk
    refine hfails.counted hstalled hprogress hle le_rfl ?_
    simp only [List.length_append, List.length_singleton]
    omega
  | ended hphase =>
    rw [hphase] at hk
    obtain ⟨hprogress, hoffset, -, hrequests⟩ := hk
    simp only [maxResumesWithoutProgress] at hstalled
    exact ⟨hstalled, k, hprogress.trans hoffset, by simp only [finish]; omega⟩
  | failed hphase _ _ hfails =>
    rw [hphase] at hk
    obtain ⟨hprogress, hoffset, hle, hrequests⟩ := hk
    exact hfails.counted hstalled hprogress hoffset hle hrequests
  | received hphase =>
    rw [hphase] at hk
    obtain ⟨hprogress, hoffset, hle, hrequests⟩ := hk
    refine ⟨hstalled, k, hprogress, hoffset, ?_, hrequests⟩
    rw [List.length_append]
    omega

omit [Blake3] in
theorem Counted.requests_le (h : f.Counted entry rule) (hprogress : 1 ≤ rule.progressBytes) :
    f.offsets.length ≤ 6 * (entry.blobLen.val / rule.progressBytes + 1) := by
  obtain ⟨hstalled, k, hk⟩ := h
  simp only [maxResumesWithoutProgress] at hstalled
  have hdiv : ∀ {m}, k * rule.progressBytes ≤ m → m ≤ entry.blobLen.val →
      k ≤ entry.blobLen.val / rule.progressBytes := fun hm hle =>
    (Nat.le_div_iff_mul_le hprogress).mpr (hm.trans hle)
  split at hk
  · have := hdiv hk.1 hk.2.1
    omega
  · have := hdiv hk.1 hk.2.1
    omega
  · have := hdiv hk.1 le_rfl
    omega

omit [Blake3] in
/-- A request is for a byte of the blob, or for its end. -/
theorem Counted.request_le (h : f.Counted entry rule) (hphase : f.phase = .request) :
    f.blob.length ≤ entry.blobLen.val := by
  obtain ⟨-, k, hk⟩ := h
  rw [hphase] at hk
  exact hk.2.1

theorem counted_run (n : Nat) : (run entry rule source n).Counted entry rule := by
  refine run_induction ?_ (fun f f' h hmoves => h.moves hmoves) n
  exact ⟨Nat.zero_le _, 0, by simp, Nat.zero_le _, le_rfl⟩

/-! ## The buffer and the result -/

/-- A chunk of some stream of the source. -/
def Sends (source : BlobSource) (chunk : Bytes) : Prop :=
  ∃ request offset chunks next, source request offset = .ok chunks ∧
    chunks next = some (.ok chunk)

/-- The bytes of the first `n` chunks of a stream, if it gives as many. -/
def received (chunks : BlobStream) : Nat → Option Bytes
  | 0 => some []
  | n + 1 => do
    let sent ← received chunks n
    match chunks n with
    | some (.ok chunk) => some (sent ++ chunk)
    | _ => none

omit [Blake3] in
theorem received_succ {chunks : BlobStream} {n : Nat} {sent chunk : Bytes}
    (hsent : received chunks n = some sent) (hchunk : chunks n = some (.ok chunk)) :
    received chunks (n + 1) = some (sent ++ chunk) := by
  rw [received, hsent, Option.bind_eq_bind, Option.bind_some, hchunk]

omit [Blake3] in
theorem received_eq_some_succ {chunks : BlobStream} {n : Nat} {sent : Bytes}
    (h : received chunks (n + 1) = some sent) :
    ∃ before chunk, received chunks n = some before ∧ chunks n = some (.ok chunk) ∧
      sent = before ++ chunk := by
  rw [received, Option.bind_eq_bind, Option.bind_eq_some_iff] at h
  obtain ⟨before, hbefore, h⟩ := h
  split at h
  case h_1 chunk hchunk => exact ⟨before, chunk, hbefore, hchunk, (Option.some.inj h).symm⟩
  case h_2 => cases h

/-- The buffer is not longer than the blob and one chunk, what is read comes from the
    source, and a result has been checked. -/
structure Sound (entry : ManifestEntry ν) (source : BlobSource) (f : Fetch) : Prop where
  stream : ∀ offset chunks next, f.phase = .reading offset chunks next →
    ∃ request sent, f.offsets[request]? = some offset ∧ source request offset = .ok chunks ∧
      received chunks next = some sent ∧ f.blob.length = offset + sent.length
  buffer : ∃ before chunk, f.blob = before ++ chunk ∧ before.length ≤ entry.blobLen.val ∧
    (chunk = [] ∨ Sends source chunk)
  result : ∀ blob, f.phase = .done (.ok blob) →
    blob.length = entry.blobLen.val ∧ Blake3.hash blob = entry.blobDigest

theorem Sound.finish {f : Fetch} (h : f.Sound entry source) :
    (f.finish entry).Sound entry source := by
  refine ⟨fun _ _ _ hphase => ?_, h.buffer, fun blob hphase => ?_⟩
  · cases hphase
  · simp only [Fetch.finish, FetchPhase.done.injEq] at hphase
    cases hcheck : entry.checkBlob f.blob with
    | error mismatch =>
      rw [hcheck] at hphase
      cases hphase
    | ok u =>
      rw [hcheck] at hphase
      cases hphase
      exact ManifestEntry.checkBlob_eq_ok.mp hcheck

theorem Fails.sound {f f' : Fetch} {offset : Nat} {error : FetchError}
    (h : Fails entry rule f offset error f') (hf : f.Sound entry source) :
    f'.Sound entry source := by
  cases h with
  | complete => exact hf.finish
  | progress => exact ⟨nofun, hf.buffer, nofun⟩
  | stalled => exact ⟨nofun, hf.buffer, nofun⟩
  | stop => exact ⟨nofun, hf.buffer, nofun⟩

theorem Sound.moves (h : f.Sound entry source) (hmoves : Moves entry rule source f f') :
    f'.Sound entry source := by
  cases hmoves with
  | opened hphase hsource =>
    refine ⟨fun offset chunks next hreading => ?_, h.buffer, nofun⟩
    cases hreading
    exact ⟨f.offsets.length, [], List.getElem?_concat_length, hsource, rfl, rfl⟩
  | refused hphase hsource hfails =>
    refine hfails.sound ⟨fun offset chunks next hreading => ?_, h.buffer, fun blob hdone => ?_⟩
    · rw [hphase] at hreading
      cases hreading
    · rw [hphase] at hdone
      cases hdone
  | ended => exact h.finish
  | failed _ _ _ hfails => exact hfails.sound h
  | received hphase hle hchunk =>
    obtain ⟨request, sent, hasked, hsource, hsent, hblob⟩ := h.stream _ _ _ hphase
    refine ⟨fun offset chunks next hreading => ?_, ⟨f.blob, _, rfl, hle, ?_⟩, nofun⟩
    · cases hreading
      refine ⟨request, _, hasked, hsource, received_succ hsent hchunk, ?_⟩
      rw [List.length_append, List.length_append, hblob, Nat.add_assoc]
    · exact .inr ⟨request, _, _, _, hsource, hchunk⟩

theorem sound_run (n : Nat) : (run entry rule source n).Sound entry source := by
  refine run_induction ?_ (fun f f' h hmoves => h.moves hmoves) n
  exact ⟨nofun, ⟨[], [], rfl, Nat.zero_le _, .inl rfl⟩, nofun⟩

theorem Fails.same (h : Fails entry rule f offset error f') :
    f'.offsets = f.offsets ∧ f'.blob = f.blob := by
  cases h with
  | complete => exact ⟨rfl, rfl⟩
  | progress => exact ⟨rfl, rfl⟩
  | stalled => exact ⟨rfl, rfl⟩
  | stop => exact ⟨rfl, rfl⟩

/-- A step sends at most one request, for the bytes after those received, and
    receives at most one chunk. -/
theorem step_trace (f : Fetch) :
    ((f.step entry rule source).offsets = f.offsets ∨
      f.phase = .request ∧
        (f.step entry rule source).offsets = f.offsets ++ [f.blob.length]) ∧
    ((f.step entry rule source).blob = f.blob ∨
      ∃ offset chunks next chunk, f.phase = .reading offset chunks next ∧
        chunks next = some (.ok chunk) ∧ (f.step entry rule source).blob = f.blob ++ chunk) := by
  rcases step_moves entry rule source f with hmoves | ⟨-, hsame⟩
  · generalize f.step entry rule source = f' at hmoves ⊢
    cases hmoves with
    | opened hphase => exact ⟨.inr ⟨hphase, rfl⟩, .inl rfl⟩
    | refused hphase _ h => exact ⟨.inr ⟨hphase, h.same.1⟩, .inl h.same.2⟩
    | ended => exact ⟨.inl rfl, .inl rfl⟩
    | failed _ _ _ h => exact ⟨.inl h.same.1, .inl h.same.2⟩
    | received hphase _ hchunk => exact ⟨.inl rfl, .inr ⟨_, _, _, _, hphase, hchunk, rfl⟩⟩
  · rw [hsame]
    exact ⟨.inl rfl, .inl rfl⟩

/-! ## Every fetch ends -/

/-- The stream gives at most `room` bytes, and then empty chunks for ever. The timeout of a
    source does not end it, as it starts again at each chunk. -/
def Idle (chunks : BlobStream) (room : Nat) : Prop :=
  ∃ n sent, received chunks n = some sent ∧ sent.length ≤ room ∧
    ∀ j, n ≤ j → chunks j = some (.ok [])

/-- The source gives no idle stream to a request of the fetch. -/
def NeverIdle (entry : ManifestEntry ν) (rule : ResumeRule) (source : BlobSource) : Prop :=
  ∀ n request offset chunks, (run entry rule source n).offsets[request]? = some offset →
    source request offset = .ok chunks → ¬ Idle chunks (entry.blobLen.val - offset)

omit [Blake3] in
/-- A bounded counter that never falls comes to a stop. -/
theorem eventually_constant {count : Nat → Nat} (hmono : Monotone count) {bound : Nat}
    (hbound : ∀ n, count n ≤ bound) : ∃ n, ∀ m, n ≤ m → count m = count n := by
  obtain ⟨n, -, hmin⟩ := (measure fun n => bound - count n).wf.has_min Set.univ ⟨0, trivial⟩
  refine ⟨n, fun m hm => Nat.le_antisymm ?_ (hmono hm)⟩
  by_contra hgt
  have := hbound m
  exact hmin m trivial (show bound - count m < bound - count n by omega)

theorem offsets_mono : Monotone fun n => (run entry rule source n).offsets.length := by
  refine monotone_nat_of_le_succ fun n => ?_
  rcases (step_trace (run entry rule source n)).1 with hsame | ⟨-, hasked⟩
  · exact (congrArg List.length hsame).ge
  · rw [run, hasked, List.length_append]
    exact Nat.le_add_right _ _

theorem blob_mono : Monotone fun n => (run entry rule source n).blob.length := by
  refine monotone_nat_of_le_succ fun n => ?_
  rcases (step_trace (run entry rule source n)).2 with hsame | ⟨_, _, _, _, -, -, hmore⟩
  · exact (congrArg List.length hsame).ge
  · rw [run, hmore, List.length_append]
    exact Nat.le_add_right _ _

theorem Fails.not_reading (h : Fails entry rule f offset error f') (offset' : Nat)
    (chunks : BlobStream) (next : Nat) : f'.phase ≠ .reading offset' chunks next := by
  cases h with
  | complete => nofun
  | progress => nofun
  | stalled => nofun
  | stop => nofun

theorem step_request (hphase : f.phase = .request) :
    (f.step entry rule source).offsets.length = f.offsets.length + 1 := by
  unfold step
  rw [hphase]
  simp only
  split
  case h_1 error _ =>
    rw [(transferFailed_fails entry rule _ f.blob.length error).same.1]
    exact List.length_append
  case h_2 => exact List.length_append

/-- A fetch that goes on reading has received a chunk. -/
theorem step_reading {next : Nat} {chunks : BlobStream}
    (hphase : f.phase = .reading offset chunks next) (hreading : ∃ offset' chunks' next',
      (f.step entry rule source).phase = .reading offset' chunks' next') :
    f.blob.length ≤ entry.blobLen.val ∧ ∃ chunk, chunks next = some (.ok chunk) ∧
      f.step entry rule source =
        { f with blob := f.blob ++ chunk, phase := .reading offset chunks (next + 1) } := by
  obtain ⟨offset', chunks', next', hreading⟩ := hreading
  unfold step at hreading ⊢
  rw [hphase] at hreading ⊢
  simp only at hreading ⊢
  split at hreading
  case isTrue hle =>
    split at hreading
    case h_1 => cases hreading
    case h_2 error _ =>
      exact absurd hreading (Fails.not_reading (transferFailed_fails ..) offset' chunks' next')
    case h_3 chunk hchunk => exact ⟨hle, chunk, hchunk, if_pos hle⟩
  case isFalse => cases hreading

/-- A fetch that is never done reads one stream in the end. -/
theorem reading_of_not_done (hprogress : 1 ≤ rule.progressBytes)
    (hnever : ∀ n result, (run entry rule source n).phase ≠ .done result) :
    ∃ n₀, ∀ n, n₀ ≤ n → ∃ offset chunks next,
      (run entry rule source n).phase = .reading offset chunks next := by
  have hbound : ∀ n, (run entry rule source n).offsets.length ≤
      6 * (entry.blobLen.val / rule.progressBytes + 1) := fun n =>
    (counted_run n).requests_le hprogress
  obtain ⟨n₀, hconstant⟩ := eventually_constant offsets_mono hbound
  refine ⟨n₀, fun n hn => ?_⟩
  cases hphase : (run entry rule source n).phase with
  | request =>
    have hmore : (run entry rule source (n + 1)).offsets.length =
        (run entry rule source n).offsets.length + 1 := step_request hphase
    have h := hconstant n hn
    have h' := hconstant (n + 1) (by omega)
    omega
  | reading offset chunks next => exact ⟨offset, chunks, next, rfl⟩
  | done result => exact absurd hphase (hnever n result)

/-- A fetch ends, unless a stream gives empty chunks for ever. -/
theorem run_ends (hprogress : 1 ≤ rule.progressBytes) (hidle : NeverIdle entry rule source) :
    ∃ n result, (run entry rule source n).phase = .done result := by
  by_contra hnever
  have hnever : ∀ n result, (run entry rule source n).phase ≠ .done result :=
    fun n result hdone => hnever ⟨n, result, hdone⟩
  obtain ⟨n₀, hreading⟩ := reading_of_not_done hprogress hnever
  -- the buffer is bounded while the fetch reads
  have hbound : ∀ n, (run entry rule source n).blob.length ≤ entry.blobLen.val := by
    intro n
    obtain ⟨offset, chunks, next, hphase⟩ := hreading (max n n₀) (Nat.le_max_right ..)
    have hle := (step_reading hphase (hreading (max n n₀ + 1) (by omega))).1
    exact (blob_mono (Nat.le_max_left n n₀)).trans hle
  obtain ⟨n₁, hconstant⟩ := eventually_constant blob_mono hbound
  obtain ⟨offset, chunks, next, hphase⟩ := hreading (max n₀ n₁) (Nat.le_max_left ..)
  -- from here on the stream gives empty chunks
  have hempty : ∀ d, (run entry rule source (max n₀ n₁ + d)).phase =
      .reading offset chunks (next + d) ∧ chunks (next + d) = some (.ok []) := by
    intro d
    have hone : ∀ d, (run entry rule source (max n₀ n₁ + d)).phase =
        .reading offset chunks (next + d) → chunks (next + d) = some (.ok []) ∧
          (run entry rule source (max n₀ n₁ + (d + 1))).phase =
            .reading offset chunks (next + (d + 1)) := by
      intro d hphase
      obtain ⟨-, chunk, hchunk, hstep⟩ :=
        step_reading hphase (hreading (max n₀ n₁ + d + 1) (by omega))
      have hrun : run entry rule source (max n₀ n₁ + (d + 1)) = _ := hstep
      have h := hconstant (max n₀ n₁ + d) (by omega)
      have h' := hconstant (max n₀ n₁ + (d + 1)) (by omega)
      rw [hrun, List.length_append, ← h] at h'
      have hnil : chunk = [] := List.eq_nil_of_length_eq_zero (by omega)
      rw [hrun, hchunk, hnil]
      exact ⟨rfl, rfl⟩
    induction d with
    | zero => exact ⟨hphase, (hone 0 hphase).1⟩
    | succ d ih => exact ⟨(hone d ih.1).2, (hone (d + 1) (hone d ih.1).2).1⟩
  obtain ⟨request, sent, hasked, hsource, hsent, hblob⟩ := (sound_run _).stream _ _ _ hphase
  have hle := hbound (max n₀ n₁)
  refine hidle _ request offset chunks hasked hsource ⟨next, sent, hsent, by omega, fun j hj => ?_⟩
  have h := (hempty (j - next)).2
  rwa [Nat.add_sub_cancel' hj] at h

/-- A fetch that is done stays so. -/
theorem run_done {n : Nat} {result : Except FetchError Bytes}
    (hdone : (run entry rule source n).phase = .done result) (d : Nat) :
    (run entry rule source (n + d)).phase = .done result := by
  induction d with
  | zero => exact hdone
  | succ d ih =>
    have hstep : run entry rule source (n + (d + 1)) =
        step entry rule source (run entry rule source (n + d)) := rfl
    rw [hstep, step, ih]
    exact ih

omit [Blake3] in
/-- An idle stream gives a chunk at each read, and never more than `room` bytes. -/
theorem Idle.received {chunks : BlobStream} {room : Nat} (h : Idle chunks room) (k : Nat) :
    ∃ j sent, k ≤ j ∧ received chunks j = some sent ∧ sent.length ≤ room := by
  obtain ⟨n, sent, hsent, hroom, hempty⟩ := h
  refine ⟨n + k, sent, Nat.le_add_left _ _, ?_, hroom⟩
  induction k with
  | zero => exact hsent
  | succ k ih =>
    have hmore := received_succ ih (hempty (n + k) (Nat.le_add_right _ _))
    rwa [List.append_nil] at hmore

/-- A request was sent in some step. -/
theorem exists_asked {n request : Nat}
    (h : (run entry rule source n).offsets[request]? = some offset) :
    ∃ m, (run entry rule source m).phase = .request ∧
      (run entry rule source m).offsets.length = request ∧
      (run entry rule source m).blob.length = offset := by
  induction n with
  | zero => cases h
  | succ n ih =>
    rcases (step_trace (run entry rule source n)).1 with hsame | ⟨hphase, hasked⟩
    · rw [run, hsame] at h
      exact ih h
    · rw [run, hasked] at h
      rcases Nat.lt_trichotomy request (run entry rule source n).offsets.length with hlt | rfl | hgt
      · rw [List.getElem?_append_left hlt] at h
        exact ih h
      · rw [List.getElem?_concat_length] at h
        exact ⟨n, hphase, rfl, Option.some.inj h⟩
      · rw [List.getElem?_eq_none (by rw [List.length_append]; exact hgt)] at h
        cases h

/-- The fetch reads the chunks of a stream while they are in its room. -/
theorem run_received {m k : Nat} {chunks : BlobStream} {sent : Bytes}
    (hphase : (run entry rule source m).phase = .reading offset chunks 0)
    (hblob : (run entry rule source m).blob.length = offset)
    (hsent : received chunks k = some sent) (hroom : offset + sent.length ≤ entry.blobLen.val) :
    (run entry rule source (m + k)).phase = .reading offset chunks k ∧
      (run entry rule source (m + k)).blob.length = offset + sent.length := by
  induction k generalizing sent with
  | zero =>
    cases hsent
    exact ⟨hphase, hblob⟩
  | succ k ih =>
    obtain ⟨before, chunk, hbefore, hchunk, rfl⟩ := received_eq_some_succ hsent
    rw [List.length_append] at hroom
    obtain ⟨hreading, hlength⟩ := ih hbefore (by omega)
    have hstep : run entry rule source (m + (k + 1)) =
        step entry rule source (run entry rule source (m + k)) := rfl
    have hle : (run entry rule source (m + k)).blob.length ≤ entry.blobLen.val := by omega
    rw [hstep, step, hreading]
    simp only [if_pos hle, hchunk]
    rw [List.length_append, List.length_append, hlength, Nat.add_assoc]
    exact ⟨trivial, rfl⟩

/-- A fetch ends exactly when its requests are given no idle stream. -/
theorem run_ends_iff (hprogress : 1 ≤ rule.progressBytes) :
    (∃ n result, (run entry rule source n).phase = .done result) ↔
      NeverIdle entry rule source := by
  refine ⟨?_, run_ends hprogress⟩
  rintro ⟨n, result, hdone⟩ n' request offset chunks hasked hsource hidle
  -- from the step that sent the request on, the fetch reads the stream
  obtain ⟨m, hphase, rfl, rfl⟩ := exists_asked hasked
  have hstep : run entry rule source (m + 1) =
      step entry rule source (run entry rule source m) := rfl
  rw [step, hphase] at hstep
  simp only [hsource] at hstep
  have hle := Counted.request_le (counted_run m) hphase
  have hopened : (run entry rule source (m + 1)).phase =
      .reading (run entry rule source m).blob.length chunks 0 := by rw [hstep]
  -- also in a step after it was done
  obtain ⟨k, sent, hk, hsent, hroom⟩ := hidle.received n
  obtain ⟨hreading, -⟩ := run_received hopened (by rw [hstep]) hsent (by omega)
  have hlater := run_done hdone (m + 1 + k - n)
  rw [show n + (m + 1 + k - n) = m + 1 + k by omega, hreading] at hlater
  cases hlater

/-! ## Sources that send the blob -/

/-- The stream sends bytes of `rest` from its beginning. It ends after the last
    byte, or with an error of the transfer. -/
structure Delivers (chunks : BlobStream) (rest : Bytes) : Prop where
  bytes : ∀ n sent, received chunks n = some sent → sent <+: rest
  ended : ∀ n sent, received chunks n = some sent → chunks n = none → sent = rest
  failed : ∀ n sent error, received chunks n = some sent → chunks n = some (.error error) →
    sent = rest ∨ error.isTransfer = true

/-- The answer to a request for the bytes `rest`. -/
def Answers (answer : Except FetchError BlobStream) (rest : Bytes) : Prop :=
  match answer with
  | .error error => rest = [] ∨ error.isTransfer = true
  | .ok chunks => Delivers chunks rest

/-- More failed transfers in a row with no progress than the fetch resumes. -/
def StalledRow (rule : ResumeRule) (failures : List Nat) : Prop :=
  ∃ before row after, failures = before ++ row ++ after ∧
    row.length = maxResumesWithoutProgress + 1 ∧ ∀ received ∈ row, received < rule.progressBytes

/-- The fetch has received a beginning of `blob`, and it counts the failed transfers
    in a row. -/
structure Trusts (rule : ResumeRule) (blob : Bytes) (f : Fetch) : Prop where
  row : ∃ before row, f.failures = before ++ row ∧ row.length = f.stalled ∧
    ∀ received ∈ row, received < rule.progressBytes
  phase : match f.phase with
    | .request => f.blob <+: blob
    | .reading offset chunks next => offset ≤ blob.length ∧
        Delivers chunks (blob.drop offset) ∧
        ∃ sent, received chunks next = some sent ∧ f.blob = blob.take offset ++ sent
    | .done result => result = .ok blob

theorem finish_eq (hlen : blob.length = entry.blobLen.val)
    (hdigest : Blake3.hash blob = entry.blobDigest) (hblob : f.blob = blob) :
    (f.finish entry).phase = .done (.ok blob) := by
  have hcheck : entry.checkBlob blob = .ok () :=
    ManifestEntry.checkBlob_eq_ok.mpr ⟨hlen, hdigest⟩
  simp only [finish, hblob, hcheck]

theorem Fails.trusts (h : Fails entry rule f offset error f')
    (hlen : blob.length = entry.blobLen.val) (hdigest : Blake3.hash blob = entry.blobDigest)
    (hblob : f.blob <+: blob)
    (htransfer : f.blob.length < entry.blobLen.val → error.isTransfer = true)
    (hrow : ∃ before row, f.failures = before ++ row ∧ row.length = f.stalled ∧
      ∀ received ∈ row, received < rule.progressBytes) (hno : ¬ StalledRow rule f'.failures) :
    f'.Trusts rule blob := by
  obtain ⟨before, row, hfailures, hcount, hstalled⟩ := hrow
  -- one more stalled transfer in the row
  have hmore : f.blob.length - offset < rule.progressBytes →
      ∀ received ∈ row ++ [f.blob.length - offset], received < rule.progressBytes := by
    intro hlt received hreceived
    rcases List.mem_append.mp hreceived with hold | hnew
    · exact hstalled received hold
    · rw [List.mem_singleton.mp hnew]
      exact hlt
  cases h with
  | complete hcomplete =>
    refine ⟨⟨before, row, hfailures, hcount, hstalled⟩, ?_⟩
    rw [finish_eq hlen hdigest (hblob.eq_of_length_le (hlen ▸ hcomplete))]
  | progress =>
    refine ⟨⟨f.failures ++ [f.blob.length - offset], [], by simp, rfl, by simp⟩, hblob⟩
  | stalled _ _ hlt =>
    refine ⟨⟨before, row ++ [f.blob.length - offset], ?_, ?_, hmore hlt⟩, hblob⟩
    · simp only [hfailures, List.append_assoc]
    · simp only [List.length_append, List.length_singleton, hcount]
  | stop hlt hstop =>
    obtain ⟨hreceived, hfull⟩ := hstop (htransfer hlt)
    refine absurd ⟨before, row ++ [f.blob.length - offset], [], ?_, ?_, hmore hreceived⟩ hno
    · simp only [hfailures, List.append_assoc, List.append_nil]
    · rw [List.length_append, hcount, hfull]
      rfl

theorem Trusts.moves (h : f.Trusts rule blob) (hmoves : Moves entry rule source f f')
    (hlen : blob.length = entry.blobLen.val) (hdigest : Blake3.hash blob = entry.blobDigest)
    (hanswer : f.phase = .request →
      Answers (source f.offsets.length f.blob.length) (blob.drop f.blob.length))
    (hno : ¬ StalledRow rule f'.failures) : f'.Trusts rule blob := by
  obtain ⟨hrow, hphaseInv⟩ := h
  cases hmoves with
  | opened hphase hsource =>
    rw [hphase] at hphaseInv
    have hanswer := hanswer hphase
    rw [hsource] at hanswer
    refine ⟨hrow, hphaseInv.length_le, hanswer, [], rfl, ?_⟩
    rw [List.append_nil]
    exact List.prefix_iff_eq_take.mp hphaseInv
  | refused hphase hsource hfails =>
    rw [hphase] at hphaseInv
    have hanswer := hanswer hphase
    rw [hsource] at hanswer
    refine hfails.trusts hlen hdigest hphaseInv (fun hlt => ?_) hrow hno
    refine hanswer.resolve_left fun hnil => ?_
    rw [List.drop_eq_nil_iff] at hnil
    simp only at hlt
    omega
  | ended hphase hend =>
    rw [hphase] at hphaseInv
    obtain ⟨hoffset, hdelivers, sent, hsent, hblob⟩ := hphaseInv
    have hle : f.blob.length ≤ entry.blobLen.val := by
      have := (hdelivers.bytes _ _ hsent).length_le
      rw [List.length_drop] at this
      rw [hblob, List.length_append, List.length_take]
      omega
    refine ⟨hrow, ?_⟩
    -- a trusted stream ends only after the last byte of the blob
    have hall : f.blob = blob := by
      rw [hblob, hdelivers.ended _ _ hsent (hend hle), List.take_append_drop]
    rw [finish_eq hlen hdigest hall]
  | failed hphase hle herror hfails =>
    rw [hphase] at hphaseInv
    obtain ⟨hoffset, hdelivers, sent, hsent, hblob⟩ := hphaseInv
    have hpre : f.blob <+: blob := by
      obtain ⟨rest, hrest⟩ := hdelivers.bytes _ _ hsent
      exact ⟨rest, by rw [hblob, List.append_assoc, hrest, List.take_append_drop]⟩
    refine hfails.trusts hlen hdigest hpre (fun hlt => ?_) hrow hno
    refine (hdelivers.failed _ _ _ hsent herror).resolve_left fun hall => ?_
    rw [hblob, hall, List.take_append_drop] at hlt
    omega
  | @received offset next chunks chunk hphase hle hchunk =>
    rw [hphase] at hphaseInv
    obtain ⟨hoffset, hdelivers, sent, hsent, hblob⟩ := hphaseInv
    refine ⟨hrow, hoffset, hdelivers, sent ++ chunk, ?_, ?_⟩
    · exact received_succ hsent hchunk
    · rw [hblob, List.append_assoc]

/-- A source that sends the blob, with errors of the transfer in between, is enough. -/
theorem run_delivers (hprogress : 1 ≤ rule.progressBytes) (hlen : blob.length = entry.blobLen.val)
    (hdigest : Blake3.hash blob = entry.blobDigest)
    (hnever : NeverIdle entry rule source)
    (hanswers : ∀ n, (run entry rule source n).phase = .request →
      Answers (source (run entry rule source n).offsets.length
        (run entry rule source n).blob.length) (blob.drop (run entry rule source n).blob.length))
    (hno : ∀ n, ¬ StalledRow rule (run entry rule source n).failures) :
    ∃ n, (run entry rule source n).phase = .done (.ok blob) := by
  have htrusts : ∀ n, (run entry rule source n).Trusts rule blob := by
    intro n
    induction n with
    | zero => exact ⟨⟨[], [], rfl, rfl, by simp⟩, List.nil_prefix⟩
    | succ n ih =>
      rcases step_moves entry rule source (run entry rule source n) with hmoves | ⟨-, hsame⟩
      · exact ih.moves hmoves hlen hdigest (hanswers n) (hno (n + 1))
      · rw [run, hsame]
        exact ih
  obtain ⟨n, result, hdone⟩ := (run_ends_iff hprogress).mpr hnever
  have hresult := (htrusts n).phase
  rw [hdone] at hresult
  exact ⟨n, hresult ▸ hdone⟩

end

end Fetch

/-! ## A peer -/

def chunkBytes : Nat := 1048576

/-- The parts of a blob from `position` on. -/
def rangeChunks (blob : Bytes) (position : Nat) : List Bytes :=
  if position < blob.length then
    (blob.take (min blob.length (position + chunkBytes))).drop position ::
      rangeChunks blob (position + chunkBytes)
  else []
termination_by blob.length - position
decreasing_by
  simp only [chunkBytes]
  omega

/-- The answer of a peer to a request for the range at `start` from byte `offset`.
    `blob` is the listed range there. -/
def getRange (blob : Option Bytes) (start offset : Nat) :
    Except (GrpcCode × String) (List Bytes) :=
  match blob with
  | none => .error (.notFound, s!"no listed sealed range starts at {start}")
  | some blob =>
    if offset ≤ blob.length then .ok (rangeChunks blob offset)
    else
      let stop := blob.length
      .error (.outOfRange, s!"offset {offset} is past the blob end {stop}")

/-- A peer as a source. -/
def peerSource (blob : Option Bytes) (start : Nat) : BlobSource := fun _ offset =>
  match getRange blob start offset with
  | .error (code, _) => .error (.grpc code)
  | .ok chunks => .ok fun next => chunks[next]?.map .ok

theorem flatten_rangeChunks (blob : Bytes) (position : Nat) :
    (rangeChunks blob position).flatten = blob.drop position := by
  fun_induction rangeChunks blob position with
  | case1 position hlt ih =>
    rw [List.flatten_cons, ih]
    by_cases hlast : position + chunkBytes ≤ blob.length
    · rw [Nat.min_eq_right hlast]
      have hsplit := List.take_append_drop chunkBytes (blob.drop position)
      rwa [List.drop_drop, List.take_drop] at hsplit
    · have hend : blob.drop (position + chunkBytes) = [] := List.drop_eq_nil_of_le (by omega)
      rw [Nat.min_eq_left (by omega), List.take_length, hend, List.append_nil]
  | case2 position hge =>
    rw [List.drop_eq_nil_of_le (by omega)]
    rfl

namespace Fetch

theorem received_list {chunks : List Bytes} {n : Nat} {sent : Bytes}
    (h : received (fun next => chunks[next]?.map .ok) n = some sent) :
    n ≤ chunks.length ∧ sent = (chunks.take n).flatten := by
  induction n generalizing sent with
  | zero =>
    cases h
    exact ⟨Nat.zero_le _, rfl⟩
  | succ n ih =>
    obtain ⟨before, chunk, hbefore, hchunk, rfl⟩ := received_eq_some_succ h
    obtain ⟨-, rfl⟩ := ih hbefore
    obtain ⟨_, hchunk, heq⟩ := Option.map_eq_some_iff.mp hchunk
    cases heq
    refine ⟨(List.getElem?_eq_some_iff.mp hchunk).1, ?_⟩
    rw [List.take_add_one, hchunk, Option.toList_some, List.flatten_append, List.flatten_singleton]

/-- A list of chunks delivers their bytes. -/
theorem delivers_list (chunks : List Bytes) :
    Delivers (fun next => chunks[next]?.map .ok) chunks.flatten := by
  refine ⟨fun n sent hsent => ?_, fun n sent hsent hnone => ?_, fun n sent error _ herror => ?_⟩
  · obtain ⟨-, rfl⟩ := received_list hsent
    exact ⟨(chunks.drop n).flatten, by rw [← List.flatten_append, List.take_append_drop]⟩
  · obtain ⟨-, rfl⟩ := received_list hsent
    rw [Option.map_eq_none_iff, List.getElem?_eq_none_iff] at hnone
    rw [List.take_of_length_le hnone]
  · obtain ⟨_, -, herror⟩ := Option.map_eq_some_iff.mp herror
    cases herror

section

variable [Blake3] {entry : ManifestEntry ν} {rule : ResumeRule} {blob : Bytes} {start : Nat}

omit [Blake3] in
theorem peerSource_eq (request : Nat) {offset : Nat} (h : offset ≤ blob.length) :
    peerSource (some blob) start request offset =
      .ok fun next => (rangeChunks blob offset)[next]?.map .ok := by
  simp only [peerSource, getRange, if_pos h]

/-- No transfer from a peer that has the blob fails. -/
theorem peer_run (hlen : blob.length = entry.blobLen.val) (n : Nat) :
    (run entry rule (peerSource (some blob) start) n).failures = [] ∧
      ∀ offset chunks next, (run entry rule (peerSource (some blob) start) n).phase =
        .reading offset chunks next →
        ∃ list : List Bytes, chunks = fun next => list[next]?.map .ok := by
  induction n with
  | zero => exact ⟨rfl, nofun⟩
  | succ n ih =>
    obtain ⟨hfailures, hstream⟩ := ih
    have hrequest : (run entry rule (peerSource (some blob) start) n).phase = .request → _ :=
      (counted_run n).request_le
    rw [← hlen] at hrequest
    rcases step_moves entry rule (peerSource (some blob) start)
      (run entry rule (peerSource (some blob) start) n) with hmoves | ⟨-, hsame⟩
    · rw [run]
      generalize step entry rule (peerSource (some blob) start)
        (run entry rule (peerSource (some blob) start) n) = f' at hmoves ⊢
      cases hmoves with
      | opened hphase hsource =>
        rw [peerSource_eq _ (hrequest hphase), Except.ok.injEq] at hsource
        refine ⟨hfailures, fun offset chunks next hreading => ?_⟩
        cases hreading
        exact ⟨_, hsource.symm⟩
      | refused hphase hsource =>
        rw [peerSource_eq _ (hrequest hphase)] at hsource
        cases hsource
      | ended => exact ⟨hfailures, nofun⟩
      | failed hphase _ herror =>
        obtain ⟨list, rfl⟩ := hstream _ _ _ hphase
        obtain ⟨_, -, herror⟩ := Option.map_eq_some_iff.mp herror
        cases herror
      | received hphase =>
        refine ⟨hfailures, fun offset chunks next hreading => ?_⟩
        cases hreading
        exact hstream _ _ _ hphase
    · rw [run, hsame]
      exact ⟨hfailures, hstream⟩

theorem peer_neverIdle : NeverIdle entry rule (peerSource (some blob) start) := by
  rintro n request offset chunks - hsource ⟨k, sent, -, -, hempty⟩
  simp only [peerSource, getRange] at hsource
  split at hsource
  · cases hsource
  next list _ =>
    cases hsource
    have hend := hempty (max k list.length) (Nat.le_max_left ..)
    beta_reduce at hend
    rw [List.getElem?_eq_none (Nat.le_max_right ..)] at hend
    cases hend

theorem peer_answers (hlen : blob.length = entry.blobLen.val) (n : Nat)
    (hphase : (run entry rule (peerSource (some blob) start) n).phase = .request) :
    Answers (peerSource (some blob) start
      (run entry rule (peerSource (some blob) start) n).offsets.length
      (run entry rule (peerSource (some blob) start) n).blob.length)
      (blob.drop (run entry rule (peerSource (some blob) start) n).blob.length) := by
  rw [peerSource_eq _ (hlen ▸ (counted_run n).request_le hphase), ← flatten_rangeChunks]
  exact delivers_list _

theorem peer_failures (hlen : blob.length = entry.blobLen.val) (n : Nat) :
    ¬ StalledRow rule (run entry rule (peerSource (some blob) start) n).failures := by
  rw [(peer_run hlen n).1]
  rintro ⟨before, row, after, hnil, hrow, _⟩
  rw [List.nil_eq, List.append_eq_nil_iff, List.append_eq_nil_iff] at hnil
  rw [hnil.1.2] at hrow
  cases hrow

/-- A peer that has the blob of the entry is enough. -/
theorem run_peer (hprogress : 1 ≤ rule.progressBytes) (hlen : blob.length = entry.blobLen.val)
    (hdigest : Blake3.hash blob = entry.blobDigest) :
    ∃ n, (run entry rule (peerSource (some blob) start) n).phase = .done (.ok blob) :=
  run_delivers hprogress hlen hdigest peer_neverIdle (peer_answers hlen) (peer_failures hlen)

end

end Fetch

/-- A fetch sends a bounded number of requests, each for the bytes after those that
    it has received, and it ends exactly when the source gives it no stream of empty
    chunks for ever. Its buffer stays below the length of the blob and one chunk, and a
    blob that it returns has the length and the digest of the entry. A source that gives
    no such stream and sends the blob, with errors of the transfer in between and not more
    than five of them in a row without progress, makes it return the blob. -/
theorem blob_fetch [Blake3] (entry : ManifestEntry ν) (rule : ResumeRule) (source : BlobSource)
    (hprogress : 1 ≤ rule.progressBytes) :
    (∀ n, (Fetch.run entry rule source n).offsets.length ≤
      6 * (entry.blobLen.val / rule.progressBytes + 1)) ∧
    ((∃ n result, (Fetch.run entry rule source n).phase = .done result) ↔
      Fetch.NeverIdle entry rule source) ∧
    (∀ n, ((Fetch.run entry rule source (n + 1)).offsets =
          (Fetch.run entry rule source n).offsets ∨
        (Fetch.run entry rule source n).phase = .request ∧
          (Fetch.run entry rule source (n + 1)).offsets =
            (Fetch.run entry rule source n).offsets ++
              [(Fetch.run entry rule source n).blob.length]) ∧
      ((Fetch.run entry rule source (n + 1)).blob = (Fetch.run entry rule source n).blob ∨
        ∃ offset chunks next chunk,
          (Fetch.run entry rule source n).phase = .reading offset chunks next ∧
          chunks next = some (.ok chunk) ∧ (Fetch.run entry rule source (n + 1)).blob =
            (Fetch.run entry rule source n).blob ++ chunk)) ∧
    (∀ n, ∃ before chunk, (Fetch.run entry rule source n).blob = before ++ chunk ∧
      before.length ≤ entry.blobLen.val ∧ (chunk = [] ∨ Fetch.Sends source chunk)) ∧
    (∀ n blob, (Fetch.run entry rule source n).phase = .done (.ok blob) →
      blob.length = entry.blobLen.val ∧ Blake3.hash blob = entry.blobDigest) ∧
    ∀ blob : Bytes, blob.length = entry.blobLen.val → Blake3.hash blob = entry.blobDigest →
      Fetch.NeverIdle entry rule source →
      (∀ n, (Fetch.run entry rule source n).phase = .request →
        Fetch.Answers (source (Fetch.run entry rule source n).offsets.length
          (Fetch.run entry rule source n).blob.length)
          (blob.drop (Fetch.run entry rule source n).blob.length)) →
      (∀ n, ¬ Fetch.StalledRow rule (Fetch.run entry rule source n).failures) →
      ∃ n, (Fetch.run entry rule source n).phase = .done (.ok blob) := by
  refine ⟨fun n => ?_, Fetch.run_ends_iff hprogress, fun n => Fetch.step_trace _,
    fun n => (Fetch.sound_run n).buffer, fun n => (Fetch.sound_run n).result, ?_⟩
  · exact (Fetch.counted_run n).requests_le hprogress
  · intro blob hlen hdigest hnever hanswers hno
    exact Fetch.run_delivers hprogress hlen hdigest hnever hanswers hno

section

/-- One digest for all bytes. -/
abbrev constantDigest : Blake3 := ⟨fun _ => .ofNat 32 0⟩

attribute [local instance] constantDigest

def shortEntry : ManifestEntry Unit where
  rangeVersion := 1
  startHeight := 0
  endHeight := 999
  endHash := .ofNat 32 0
  endTreeSizes := default
  frontiers := ⟨[], [], []⟩
  subtreeRoots := []
  blobDigest := .ofNat 32 0
  blobLen := 3
  epochEnd := true

/-- A fetch of three bytes from a peer that has them. -/
theorem blob_fetch_short :
    (∀ n, (Fetch.run shortEntry ⟨1, 1⟩ (peerSource (some [1, 2, 3]) 0) n).offsets.length ≤ 24) ∧
      ∃ n, (Fetch.run shortEntry ⟨1, 1⟩ (peerSource (some [1, 2, 3]) 0) n).phase =
        .done (.ok [1, 2, 3]) := by
  have hlen : ([1, 2, 3] : Bytes).length = shortEntry.blobLen.val := rfl
  obtain ⟨hrequests, -, -, -, -, hdelivers⟩ :=
    blob_fetch shortEntry ⟨1, 1⟩ (peerSource (some [1, 2, 3]) 0) (by decide)
  exact ⟨hrequests, hdelivers [1, 2, 3] hlen rfl Fetch.peer_neverIdle
    (Fetch.peer_answers hlen) (Fetch.peer_failures hlen)⟩

/-- A source that answers each request with empty chunks for ever. -/
def idleSource : BlobSource := fun _ _ => .ok fun _ => some (.ok [])

/-- A fetch from it sends one request, receives no byte and never ends. -/
theorem blob_fetch_idle :
    (∀ n, (Fetch.run shortEntry ⟨1, 1⟩ idleSource (n + 1)).offsets = [0] ∧
      (Fetch.run shortEntry ⟨1, 1⟩ idleSource (n + 1)).blob = []) ∧
      ∀ n result, (Fetch.run shortEntry ⟨1, 1⟩ idleSource (n + 1)).phase ≠ .done result := by
  have hrun (n : Nat) : Fetch.run shortEntry ⟨1, 1⟩ idleSource (n + 1) =
      { offsets := [0], phase := .reading 0 (fun _ => some (.ok [])) n } := by
    induction n with
    | zero => rfl
    | succ n ih =>
      rw [Fetch.run, ih]
      rfl
  simp [hrun]

/-- A fetch of the same bytes with another rule. -/
theorem Fetch.run_peer_short :
    ∃ n, (run shortEntry ⟨2, 5⟩ (peerSource (some [1, 2, 3]) 0) n).phase = .done (.ok [1, 2, 3]) :=
  run_peer (by decide) rfl rfl

end

end Ztreamer
