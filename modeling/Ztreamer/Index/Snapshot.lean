import Ztreamer.Index.Coverage
import Ztreamer.Lib.Walk

/-! # Snapshots

    The reads of an index in one read transaction: all reads of a snapshot see
    one committed store.

    * `Store.readBlocks`: the blocks from one height to another, range by range,
    * `Represents.readBlocks`: they are the blocks of the chain.
-/

namespace Ztreamer

open Octets Result

variable {ν : Type}

/-- The state of a snapshot at `generation`. An index at another generation refuses. -/
def Store.snapshot (s : Store ν) (generation : Nat) : Except IndexError IndexState := do
  let st ← s.getState
  ensure (st.generation = generation) (.generation generation st.generation)
  return st

theorem Represents.snapshot [Proto.Prost] {heightOf : HeightOf} {s : Store ν} {st : IndexState}
    {chain : List CompactBlockRecord} (h : Represents heightOf s st chain) :
    s.snapshot st.generation = .ok st := by
  rw [Store.snapshot, h.state, ok_bind, ensure_of _ rfl, ok_bind]
  rfl

/-! ## Runs of blocks -/

theorem Store.find_start {s : Store ν} {height : Nat} {range : SealedRange}
    (h : s.find height = .ok (some range)) : range.start = rangeStart height := by
  unfold Store.find at h
  split at h
  · cases h
  · simp only [bind_eq_ok, okMapError_eq_ok, SealedRange.new, pure_eq_ok, Except.ok.injEq,
      Option.some.injEq] at h
    obtain ⟨_, ⟨_, -, rfl⟩, rfl⟩ := h
    rfl

/-- The last height toward `last` that is in the range. The end of a range saturates
    at the largest height, which is above every `last`. -/
def SealedRange.chunkEnd (range : SealedRange) (height last : Nat) : Nat :=
  if height ≤ last then min last (range.start + (rangeSize - 1)) else max last range.start

/-- The walk to the end of a chunk stays in the range, and reaches `last` or stops
    before it. -/
theorem SealedRange.chunkEnd_spec {range : SealedRange} {height : Nat}
    (h : range.start = rangeStart height) (last : Nat) :
    (range.chunkEnd height last = last ∨ Walk.Before height (range.chunkEnd height last) last) ∧
      ∀ n ∈ Walk.walk height (range.chunkEnd height last), rangeStart n = rangeStart height := by
  simp only [Walk.mem_walk, SealedRange.chunkEnd, Walk.Before, h, rangeStart, rangeSize]
  split
  · refine ⟨by omega, ?_⟩
    intro n hn
    omega
  · refine ⟨by omega, ?_⟩
    intro n hn
    omega

/-- The blocks from `height` to `last`. The blocks of a sealed range are read from
    one decoder of it. The direction stays the same up to the end. -/
def Store.readFrom (α : Type) [StoredBlock α] (s : Store ν) (st : IndexState)
    (last height : Nat) : Except IndexError (List α) :=
  if height < st.sealedEnd then
    match _hfound : s.find height with
    | .error error => .error error
    | .ok none => .error (.coverage height)
    | .ok (some range) => do
      let records ← okMapError
        ((Walk.walk height (range.chunkEnd height last)).mapM (range.read α)) .codec
      if _hend : range.chunkEnd height last = last then return records
      else
        let rest ← s.readFrom α st last
          (Walk.toward (decide (height ≤ last)) (range.chunkEnd height last) 1)
        return records ++ rest
  else do
    let record ← s.read α st height
    if _hend : height = last then return [record]
    else
      let rest ← s.readFrom α st last (Walk.toward (decide (height ≤ last)) height 1)
      return record :: rest
termination_by Walk.absDiff height last
decreasing_by
  · have hspec := (SealedRange.chunkEnd_spec (Store.find_start _hfound) last).1
    exact Walk.absDiff_lt (hspec.resolve_left _hend)
  · exact Walk.absDiff_lt (.refl _hend)

/-- The blocks from `start` to `last`, both included; `last` below `start` reads in
    descending order. The callback of the source keeps every block. -/
def Store.readBlocks (α : Type) [StoredBlock α] (s : Store ν) (st : IndexState)
    (start last : Nat) : Except IndexError (List α) := do
  let tip ← okOr st.durableTip (.coverage start)
  ensure (start ≤ tip.height) (.coverage start)
  ensure (last ≤ tip.height) (.coverage last)
  s.readFrom α st last start

section

variable {α : Type} [StoredBlock α] {s : Store ν} {st : IndexState}

variable {n height last : Nat}

theorem Store.read_sealed (htip : ∃ tip ∈ st.durableTip, n ≤ tip.height)
    (hsealed : n < st.sealedEnd) :
    s.read α st n = (do
      let found ← s.find n
      let range ← okOr found (.coverage n)
      okMapError (range.read α n) .codec) := by
  rw [Store.read, ensure_of _ htip, ok_bind, if_pos hsealed]

/-- A range reads each of its sealed blocks as the index does. -/
theorem Store.read_of_find {range : SealedRange} (hfind : s.find height = .ok (some range))
    (hn : rangeStart n = rangeStart height) (htip : ∃ tip ∈ st.durableTip, n ≤ tip.height)
    (hsealed : n < st.sealedEnd) : s.read α st n = okMapError (range.read α n) .codec := by
  have hfind' : s.find n = .ok (some range) := by
    rw [← hfind]
    unfold Store.find
    rw [hn]
  rw [Store.read_sealed htip hsealed, hfind', ok_bind, okOr_some, ok_bind]

section

variable (haligned : st.sealedEnd % rangeSize = 0)

include haligned

/-- A range reads the blocks of a chunk as the index does: the sealed blocks end with a
    range. -/
theorem Store.read_of_chunk {range : SealedRange} {tip : BlockId}
    (hfind : s.find height = .ok (some range)) (htip : st.durableTip = some tip)
    (hheight : height ≤ tip.height) (hlast : last ≤ tip.height) (hsealed : height < st.sealedEnd)
    (hn : n ∈ Walk.walk height (range.chunkEnd height last)) :
    s.read α st n = okMapError (range.read α n) .codec := by
  obtain ⟨hend, hinside⟩ := SealedRange.chunkEnd_spec (Store.find_start hfind) last
  have hsame := hinside n hn
  have hwalk := (Walk.mem_walk.mp hn).2
  unfold Walk.Before at hend
  apply Store.read_of_find hfind hsame ⟨tip, htip, by omega⟩
  have h₁ := rangeStart_add_mod n
  have h₂ := rangeStart_add_mod height
  simp only [rangeStart, rangeSize] at hsame h₁ h₂ haligned
  omega

/-- The blocks are read one by one. -/
theorem Store.readFrom_eq (htip : ∃ tip ∈ st.durableTip, height ≤ tip.height ∧ last ≤ tip.height) :
    s.readFrom α st last height = (Walk.walk height last).mapM (s.read α st) := by
  obtain ⟨tip, htip, hheight, hlast⟩ := htip
  induction hn : Walk.absDiff height last using Nat.strong_induction_on generalizing height with
  | _ n ih =>
    -- the reads after a cut of the walk
    have hrest : ∀ c, Walk.Before height c last → c ≤ tip.height →
        s.readFrom α st last (Walk.toward (decide (height ≤ last)) c 1) =
          (Walk.walk (Walk.toward (decide (height ≤ last)) c 1) last).mapM (s.read α st) := by
      intro c hbefore hc
      refine ih _ (hn ▸ Walk.absDiff_lt hbefore) ?_ rfl
      unfold Walk.Before at hbefore
      simp only [Walk.toward, decide_eq_true_eq]
      split <;> omega
    rw [Store.readFrom]
    split
    · rename_i hsealed
      have hread := Store.read_sealed (α := α) (s := s) ⟨tip, htip, hheight⟩ hsealed
      -- the walk starts at `height`, so its first read fails as the range does
      have hfail : ∀ error, s.read α st height = .error error →
          (Walk.walk height last).mapM (s.read α st) = .error error := by
        intro error herror
        rw [Walk.walk_cons, List.mapM_cons, herror]
        rfl
      split
      · rename_i error herror
        rw [herror] at hread
        exact (hfail error hread).symm
      · rename_i hnone
        rw [hnone] at hread
        exact (hfail _ hread).symm
      · rename_i range hfound
        have hend := (SealedRange.chunkEnd_spec (Store.find_start hfound) last).1
        have hle : range.chunkEnd height last ≤ tip.height := by
          unfold Walk.Before at hend
          omega
        have hchunk : okMapError ((Walk.walk height (range.chunkEnd height last)).mapM
            (range.read α)) .codec =
            (Walk.walk height (range.chunkEnd height last)).mapM (s.read α st) := by
          rw [okMapError_mapM]
          apply mapM_congr
          intro n hn
          exact (Store.read_of_chunk haligned hfound htip hheight hlast hsealed hn).symm
        rw [hchunk]
        split
        · rename_i heq
          rw [heq]
          exact bind_pure _
        · rename_i hne
          have hbefore := hend.resolve_left hne
          rw [hrest _ hbefore hle, Walk.walk_append hbefore, List.mapM_append]
    · split
      · rename_i heq
        rw [heq, Walk.walk_self]
        rfl
      · rename_i hne
        have hbefore := Walk.Before.refl hne
        rw [hrest _ hbefore hheight, Walk.walk_append hbefore, Walk.walk_self,
          List.singleton_append, List.mapM_cons]

theorem Store.readBlocks_eq {start : Nat}
    (htip : ∃ tip ∈ st.durableTip, start ≤ tip.height ∧ last ≤ tip.height) :
    s.readBlocks α st start last = (Walk.walk start last).mapM (s.read α st) := by
  obtain ⟨tip, hsome, hstart, hlast⟩ := htip
  rw [Store.readBlocks, hsome, okOr_some, ok_bind, ensure_of _ hstart, ok_bind, ensure_of _ hlast,
    ok_bind, Store.readFrom_eq haligned ⟨tip, hsome, hstart, hlast⟩]

end

/-- The view has the identity of the record. -/
structure IsView (a : α) (r : CompactBlockRecord) : Prop where
  height : StoredBlock.height a = r.height
  hash : StoredBlock.hash a = r.hash
  previousHash : StoredBlock.previousHash a = r.previousHash

section

variable [Proto.Prost] [LawfulStoredBlock α] {heightOf : HeightOf}
  {chain : List CompactBlockRecord}

theorem isView_fromRecord (r : CompactBlockRecord) : IsView (StoredBlock.fromRecord r : α) r :=
  ⟨LawfulStoredBlock.height_fromRecord r, LawfulStoredBlock.hash_fromRecord r,
    LawfulStoredBlock.previousHash_fromRecord r⟩

/-- Every view reads every block of the chain. -/
theorem Represents.view (h : Represents heightOf s st chain) {i : Nat} {r : CompactBlockRecord}
    (hr : chain[i]? = some r) : ∃ a : α, s.read α st i = .ok a ∧ IsView a r := by
  have hi : i < chain.length := (List.getElem?_eq_some_iff.mp hr).1
  obtain ⟨bytes, -, hdecode, hread⟩ :=
    h.holds.stored rfl hr hi (h.describes.exists_tip h.connected hi)
  obtain ⟨a, ha⟩ := LawfulStoredBlock.decode_of_record (α := α) hdecode
  have hrecord : StoredBlock.decode bytes = .ok r := hdecode
  obtain ⟨hheight, hhash, hprevious⟩ := LawfulStoredBlock.sameId ha hrecord
  exact ⟨a, hread α a ha, hheight, hhash, hprevious⟩

/-- A view reads only blocks of the chain. -/
theorem Represents.of_view (h : Represents heightOf s st chain) {i : Nat} {a : α}
    (ha : s.read α st i = .ok a) : ∃ r, chain[i]? = some r ∧ IsView a r := by
  have hi : i < chain.length := by
    simp only [Store.read, bind_eq_ok, ensure_eq_ok] at ha
    obtain ⟨-, ⟨tip, htip, hle⟩, -⟩ := ha
    have := h.describes.tip_height h.connected htip
    omega
  have hr : chain[i]? = some chain[i] := List.getElem?_eq_getElem hi
  obtain ⟨b, hb, hview⟩ := h.view (α := α) hr
  rw [hb] at ha
  cases ha
  exact ⟨_, hr, hview⟩

end

end

end Ztreamer
