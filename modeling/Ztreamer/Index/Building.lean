import Mathlib.Algebra.BigOperators.Intervals
import Mathlib.Algebra.Order.BigOperators.Group.Finset
import Ztreamer.Chain.Indexing
import Ztreamer.Index.Ingest

/-! # The ordered builder on the blocks of one chain

    `Tracks` says what a builder is when every block that it got is of one
    chain: its next height, the heights that it holds, and the sums of their
    sizes. A push adds a height. A batch takes the records of the next heights,
    and a drain takes all of them.
-/

namespace Ztreamer

open Octets Result

/-- `records` are the records of the parsed blocks of one chain from genesis. -/
structure ParsedChain (parsed : List ParsedCompactBlock) (records : List CompactBlockRecord) :
    Prop where
  length_eq : records.length = parsed.length
  height : ∀ (i : Nat) (p : ParsedCompactBlock), parsed[i]? = some p → p.height.val = i
  link : ∀ (i : Nat) (p : ParsedCompactBlock), parsed[i]? = some p →
    ∀ last ∈ (records.take i).getLast?, p.previousHash = last.hash
  record : ∀ (i : Nat) (p : ParsedCompactBlock), parsed[i]? = some p →
    ∃ r, records[i]? = some r ∧ p.intoRecord (endSizes default (records.take i)) = some r

/-- The size of the block at `height`. -/
def sizeAt (parsed : List ParsedCompactBlock) (height : Nat) : Nat :=
  parsed[height]?.elim 0 (·.size)

theorem sizeAt_eq {parsed : List ParsedCompactBlock} {height : Nat} {p : ParsedCompactBlock}
    (h : parsed[height]? = some p) : sizeAt parsed height = p.size := by
  simp [sizeAt, h]

namespace OrderedBuilder

/-- The builder holds the blocks at the heights `held`, and is ready up to
    `readyEnd`, which it may hold too. -/
structure Holding (b : OrderedBuilder) (parsed : List ParsedCompactBlock) (held : Finset Nat) :
    Prop where
  pending : ∀ (height : Nat) (entry : ParsedCompactBlock × Nat),
    b.pending[height]? = some entry ↔
      height ∈ held ∧ ∃ p, parsed[height]? = some p ∧ entry = (p, p.size)
  held_lt : ∀ height ∈ held, b.nextHeight ≤ height ∧ height < parsed.length
  pendingBytes : b.pendingBytes = ∑ height ∈ held, sizeAt parsed height
  next_le : b.nextHeight ≤ b.readyEnd
  ready : ∀ height, b.nextHeight ≤ height → height < b.readyEnd → height ∈ held
  readyBytes : b.readyBytes = ∑ height ∈ Finset.Ico b.nextHeight b.readyEnd, sizeAt parsed height

/-- The builder has taken the records below its next height, and holds the
    blocks at the heights `held`. -/
structure Tracks (b : OrderedBuilder) (parsed : List ParsedCompactBlock)
    (records : List CompactBlockRecord) (held : Finset Nat) : Prop extends
    b.Holding parsed held where
  previousHash : b.previousHash = (records.take b.nextHeight).getLast?.map (·.hash)
  treeSizes : b.treeSizes = endSizes default (records.take b.nextHeight)
  missing : b.readyEnd ∉ held

variable {b b' : OrderedBuilder} {parsed : List ParsedCompactBlock}
  {records : List CompactBlockRecord} {held : Finset Nat}

namespace Holding

variable (h : b.Holding parsed held)

include h

theorem pending_eq {height : Nat} (hheld : height ∈ held) :
    ∃ p, parsed[height]? = some p ∧ b.pending[height]? = some (p, p.size) := by
  have hlt := (h.held_lt height hheld).2
  exact ⟨parsed[height], List.getElem?_eq_getElem hlt,
    (h.pending height _).mpr ⟨hheld, _, List.getElem?_eq_getElem hlt, rfl⟩⟩

theorem pending_eq_none {height : Nat} (hheld : height ∉ held) :
    b.pending[height]? = none := by
  rw [Option.eq_none_iff_forall_ne_some]
  intro entry hentry
  exact hheld ((h.pending height entry).mp hentry).1

theorem size_le {height : Nat} (hheld : height ∈ held) :
    sizeAt parsed height ≤ b.pendingBytes := by
  rw [h.pendingBytes]
  exact Finset.single_le_sum (fun _ _ => Nat.zero_le _) hheld

/-- The ready blocks are among the pending blocks. -/
theorem readyBytes_add_le (hheld : b.readyEnd ∈ held) :
    b.readyBytes + sizeAt parsed b.readyEnd ≤ b.pendingBytes := by
  rw [h.readyBytes, h.pendingBytes, ← Finset.sum_Ico_succ_top h.next_le]
  refine Finset.sum_le_sum_of_subset fun height hheight => ?_
  rw [Finset.mem_Ico] at hheight
  by_cases heq : height = b.readyEnd
  · rwa [heq]
  · exact h.ready height hheight.1 (by omega)

/-- The ready prefix moves up to the first height that the builder misses. -/
theorem advanceReady (hlen : parsed.length ≤ 2 ^ 32) (hbytes : b.pendingBytes < 2 ^ 64) :
    ∃ b', b.advanceReady = .ok b' ∧ b'.Holding parsed held ∧ b'.readyEnd ∉ held ∧
      b'.nextHeight = b.nextHeight ∧ b'.previousHash = b.previousHash ∧
      b'.treeSizes = b.treeSizes ∧ b'.generation = b.generation ∧
      b'.pendingBytes = b.pendingBytes ∧ b'.maxPendingBytes = b.maxPendingBytes := by
  fun_induction OrderedBuilder.advanceReady b with
  | case1 b hlt hnone =>
    refine ⟨b, rfl, h, fun hheld => ?_, rfl, rfl, rfl, rfl, rfl, rfl⟩
    obtain ⟨p, -, hsome⟩ := h.pending_eq hheld
    rw [hnone] at hsome
    cases hsome
  | case2 b hlt block bytes hsome hfits ih =>
    obtain ⟨hheld, p, hp, hentry⟩ := (h.pending _ _).mp hsome
    cases hentry
    have hsize := sizeAt_eq hp
    have hnext : Holding { b with
        readyBytes := b.readyBytes + block.size
        readyEnd := b.readyEnd + 1 } parsed held :=
      { pending := h.pending
        held_lt := h.held_lt
        pendingBytes := h.pendingBytes
        next_le := by have := h.next_le; simp only; omega
        ready := by
          intro height hge hlt
          simp only at hge hlt
          by_cases heq : height = b.readyEnd
          · rwa [heq]
          · exact h.ready height hge (by omega)
        readyBytes := by
          simp only
          rw [Finset.sum_Ico_succ_top h.next_le, ← h.readyBytes, hsize] }
    exact ih hnext hbytes
  | case3 b hlt block bytes hsome hfits =>
    obtain ⟨hheld, p, hp, hentry⟩ := (h.pending _ _).mp hsome
    cases hentry
    -- the ready blocks are pending too, so their bytes do not overflow
    have := h.readyBytes_add_le hheld
    rw [sizeAt_eq hp] at this
    omega
  | case4 b hge =>
    refine ⟨b, rfl, h, fun hheld => ?_, rfl, rfl, rfl, rfl, rfl, rfl⟩
    have := (h.held_lt _ hheld).2
    omega

end Holding

variable {p : ParsedCompactBlock} {start stop : Nat}

/-- A block above the taken ones is pushed unless a size limit refuses it. -/
theorem Tracks.push (h : b.Tracks parsed records held) (hlen : parsed.length ≤ 2 ^ 32)
    {height : Nat} (hp : parsed[height]? = some p) (hheight : p.height.val = height)
    (hnext : b.nextHeight ≤ height) (hheld : height ∉ held) :
    ((∃ e, b.push p = .error e) ∧ (maxRecordBytes < p.size ∨
      b.maxPendingBytes < b.pendingBytes + p.size ∨ 2 ^ 64 ≤ b.pendingBytes + p.size)) ∨
    ∃ b', b.push p = .ok b' ∧ b'.Tracks parsed records (insert height held) ∧
      b'.nextHeight = b.nextHeight ∧ b'.generation = b.generation ∧
      b'.pendingBytes = b.pendingBytes + p.size ∧ b'.maxPendingBytes = b.maxPendingBytes ∧
      b'.pendingBytes ≤ b.maxPendingBytes := by
  have hnew : b.nextHeight ≤ p.height.val ∧ b.pending[p.height.val]? = none := by
    rw [hheight]
    exact ⟨hnext, h.pending_eq_none hheld⟩
  simp only [OrderedBuilder.push, ensure_of _ hnew, ok_bind]
  -- the checks of a push, in the order of the source
  by_cases hsize : p.size ≤ maxRecordBytes
  case neg =>
    refine .inl ⟨⟨.codec .length, ?_⟩, .inl (by omega)⟩
    have : encodedSizeBound p.transactions = .error .length := by
      unfold encodedSizeBound
      exact if_neg hsize
    rw [this]
    rfl
  have hbound : encodedSizeBound p.transactions = .ok p.size :=
    encodedSizeBound_eq_ok.mpr ⟨hsize, rfl⟩
  rw [hbound, okMapError_ok, ok_bind]
  by_cases hfits : b.pendingBytes + p.size < 2 ^ 64
  case neg =>
    exact .inl ⟨⟨_, by rw [ensure_of_not _ hfits, error_bind]⟩, .inr (.inr (by omega))⟩
  rw [ensure_of _ hfits, ok_bind]
  by_cases hmax : b.pendingBytes + p.size ≤ b.maxPendingBytes
  case neg =>
    exact .inl ⟨⟨_, by rw [ensure_of_not _ hmax, error_bind]⟩, .inr (.inl (by omega))⟩
  rw [ensure_of _ hmax, ok_bind, hheight]
  right
  have hlt := (List.getElem?_eq_some_iff.mp hp).1
  -- the block is pending now, and only the ready prefix can still move
  have hholding : Holding { b with
      pendingBytes := b.pendingBytes + p.size
      pending := b.pending.insert height (p, p.size) } parsed (insert height held) :=
    { pending := by
        intro height' entry
        simp only
        rw [Table.get_put, Finset.mem_insert]
        split
        · subst height'
          simp [hp, eq_comm]
        · rename_i hne
          rw [h.pending height' entry]
          simp [Ne.symm hne]
      held_lt := by
        intro height' hmem
        rcases Finset.mem_insert.mp hmem with rfl | hmem
        · exact ⟨hnext, hlt⟩
        · exact h.held_lt height' hmem
      pendingBytes := by
        rw [Finset.sum_insert hheld, ← h.pendingBytes, sizeAt_eq hp, Nat.add_comm]
      next_le := h.next_le
      ready := fun height' hge hlt => Finset.mem_insert_of_mem (h.ready height' hge hlt)
      readyBytes := h.readyBytes }
  by_cases hready : height = b.readyEnd
  · rw [if_pos hready]
    obtain ⟨b', hadvance, hholds, hmissing, hnext', hprevious, hsizes, hgen, hbytes, hmaxb⟩ :=
      hholding.advanceReady hlen hfits
    refine ⟨b', hadvance, ⟨hholds, ?_, ?_, hmissing⟩, hnext', hgen, hbytes, hmaxb, ?_⟩
    · rw [hprevious, hnext']
      exact h.previousHash
    · rw [hsizes, hnext']
      exact h.treeSizes
    · rw [hbytes]
      exact hmax
  · rw [if_neg hready]
    refine ⟨_, rfl, ⟨hholding, h.previousHash, h.treeSizes, ?_⟩, rfl, rfl, rfl, rfl, hmax⟩
    intro hmem
    rcases Finset.mem_insert.mp hmem with heq | hmem
    · exact hready heq.symm
    · exact h.missing hmem

theorem drop_take_cons {r : CompactBlockRecord} (hr : records[start]? = some r)
    (hlt : start < stop) :
    (records.take stop).drop start = r :: (records.take stop).drop (start + 1) := by
  obtain ⟨hlen, rfl⟩ := List.getElem?_eq_some_iff.mp hr
  rw [List.drop_eq_getElem_cons (by rw [List.length_take]; omega), List.getElem_take]

theorem Tracks.takeNext (h : b.Tracks parsed records held) (hchain : ParsedChain parsed records)
    (hlt : b.nextHeight + 1 < 2 ^ 32) (hheld : b.nextHeight ∈ held)
    (hp : parsed[b.nextHeight]? = some p) :
    ∃ b' r, b.takeNext p p.size = .ok (b', r) ∧ records[b.nextHeight]? = some r ∧
      b'.Tracks parsed records (held.erase b.nextHeight) ∧ b'.nextHeight = b.nextHeight + 1 ∧
      b'.generation = b.generation ∧ b'.maxPendingBytes = b.maxPendingBytes ∧
      b'.readyEnd = b.readyEnd ∧ b'.pendingBytes + p.size = b.pendingBytes := by
  obtain ⟨r, hr, hinto⟩ := hchain.record _ p hp
  have hsize := sizeAt_eq hp
  have hle := h.size_le hheld
  -- the next block is ready, because the first missing one is not the next
  have hready : b.nextHeight < b.readyEnd := by
    have hne : b.nextHeight ≠ b.readyEnd := fun heq => h.missing (heq ▸ hheld)
    have := h.next_le
    omega
  have hsum := Finset.sum_eq_sum_Ico_succ_bot hready (sizeAt parsed)
  have hlast := getLast?_take_succ hr
  refine ⟨_, r, takeNext_eq_ok.mpr ⟨?_, ?_, hlt, rfl⟩, hr, ?_, rfl, rfl, rfl, rfl, by
    simp only; omega⟩
  · intro previous hprevious
    rw [h.previousHash, Option.mem_def, Option.map_eq_some_iff] at hprevious
    obtain ⟨last, hlast, rfl⟩ := hprevious
    exact hchain.link _ p hp last hlast
  · rw [h.treeSizes]
    exact hinto
  · obtain ⟨sizes, -, hrecord⟩ := ParsedCompactBlock.intoRecord_eq_some.mp hinto
    refine ⟨⟨?_, ?_, ?_, ?_, ?_, ?_⟩, ?_, ?_, ?_⟩
    · intro height entry
      simp only
      rw [Table.get_delete, Finset.mem_erase]
      split
      · subst height
        simp
      · rename_i hne
        rw [h.pending height entry]
        simp [Ne.symm hne]
    · intro height hmem
      rw [Finset.mem_erase] at hmem
      have := h.held_lt height hmem.2
      simp only
      omega
    · simp only
      have := h.pendingBytes
      rw [← Finset.sum_erase_add held (sizeAt parsed) hheld, hsize] at this
      omega
    · exact hready
    · intro height hge hlt
      rw [Finset.mem_erase]
      exact ⟨by simp only at hge; omega, h.ready height (by simp only at hge; omega) hlt⟩
    · simp only
      rw [h.readyBytes, hsum, hsize]
      omega
    · simp only
      rw [hlast, ← hrecord]
      rfl
    · simp only [endSizes]
      rw [hlast]
      rfl
    · exact fun hmem => h.missing (Finset.mem_of_mem_erase hmem)

/-- A batch is refused only when its first block is larger than the batch, and it
    is full only when it has a block. -/
theorem isFull_spec (batchBytes maxBatchBytes : Nat) (taken : List CompactBlockRecord)
    (sealThrough : Option Nat) (hbytes : batchBytes + p.size < 2 ^ 64)
    (hheight : rangeEnd p.height.val < 2 ^ 32) :
    ((∃ e, isFull batchBytes maxBatchBytes taken sealThrough p p.size = .error e) ∧ taken = [] ∧
      maxBatchBytes < batchBytes + p.size) ∨
    ∃ full, isFull batchBytes maxBatchBytes taken sealThrough p p.size = .ok full ∧
      (full = true → taken ≠ []) := by
  rw [isFull, ensure_of _ hbytes, ok_bind]
  split
  · exact .inr ⟨false, rfl, by simp⟩
  · by_cases hne : taken ≠ []
    · rw [ensure_of _ hne, ok_bind, ensure_of _ hheight, ok_bind]
      exact .inr ⟨_, rfl, fun _ => hne⟩
    · rw [ensure_of_not _ hne, error_bind]
      exact .inl ⟨⟨_, rfl⟩, by simpa using hne, by omega⟩

/-- The next pending block of a builder, with the bounds that its heights and
    sizes have. -/
theorem Tracks.next_pending (h : b.Tracks parsed records held)
    (hchain : ParsedChain parsed records) (hlen : parsed.length + rangeSize ≤ 2 ^ 32)
    {block : ParsedCompactBlock} {bytes : Nat}
    (hsome : b.pending[b.nextHeight]? = some (block, bytes)) :
    b.nextHeight ∈ held ∧ parsed[b.nextHeight]? = some block ∧ bytes = block.size ∧
      block.height.val = b.nextHeight ∧ block.size ≤ b.pendingBytes ∧
      rangeEnd block.height.val < 2 ^ 32 := by
  obtain ⟨hheld, p, hp, hentry⟩ := (h.pending _ _).mp hsome
  cases hentry
  have hsize := h.size_le hheld
  have hlt := (h.held_lt _ hheld).2
  have hheight := hchain.height _ _ hp
  rw [sizeAt_eq hp] at hsize
  refine ⟨hheld, hp, rfl, hheight, hsize, ?_⟩
  simp only [rangeEnd, rangeSize] at hlen ⊢
  omega

/-- The builder after it has taken the records up to `stop`. -/
structure Took (b b' : OrderedBuilder) (parsed : List ParsedCompactBlock)
    (records : List CompactBlockRecord) (held : Finset Nat) (durableThrough : Option Nat)
    (stop : Nat) : Prop where
  nextHeight : b'.nextHeight = stop
  le : b.nextHeight ≤ stop
  tracks : b'.Tracks parsed records (held.filter (stop ≤ ·))
  generation : b'.generation = b.generation
  maxPendingBytes : b'.maxPendingBytes = b.maxPendingBytes
  readyEnd : b'.readyEnd = b.readyEnd
  pendingBytes_le : b'.pendingBytes ≤ b.pendingBytes
  taken : ∀ height, b.nextHeight ≤ height → height < stop →
    height ∈ held ∧ ∃ through ∈ durableThrough, height ≤ through

theorem Tracks.took_nil (h : b.Tracks parsed records held) (durableThrough : Option Nat) :
    b.Took b parsed records held durableThrough b.nextHeight where
  nextHeight := rfl
  le := le_rfl
  tracks := by
    rw [Finset.filter_true_of_mem fun height hheight => (h.held_lt height hheight).1]
    exact h
  generation := rfl
  maxPendingBytes := rfl
  readyEnd := rfl
  pendingBytes_le := le_rfl
  taken height hge hlt := by omega

/-- A builder of a chain takes the records of its next blocks, unless a block is
    larger than a batch. -/
theorem Tracks.takeBatch (hchain : ParsedChain parsed records)
    (hlen : parsed.length + rangeSize ≤ 2 ^ 32) (durableThrough sealThrough : Option Nat)
    (maxBatchBytes : Nat) {batchBytes : Nat} {acc : List CompactBlockRecord}
    (h : b.Tracks parsed records held) (hbytes : batchBytes + b.pendingBytes < 2 ^ 64)
    (hacc : acc = [] → batchBytes = 0) :
    ((∃ e, b.takeBatch durableThrough sealThrough maxBatchBytes batchBytes acc = .error e) ∧
      ∃ height ∈ held, maxBatchBytes < sizeAt parsed height) ∨
    ∃ stop b', b.takeBatch durableThrough sealThrough maxBatchBytes batchBytes acc =
        .ok (b', acc ++ (records.take stop).drop b.nextHeight) ∧
      b.Took b' parsed records held durableThrough stop ∧
      (acc = [] → b.nextHeight ∈ held → (∃ through ∈ durableThrough, b.nextHeight ≤ through) →
        b.nextHeight < stop) := by
  fun_induction OrderedBuilder.takeBatch durableThrough sealThrough maxBatchBytes b batchBytes acc
    generalizing held with
  | case1 b batchBytes acc hnone =>
    have hnot : b.nextHeight ∉ held := fun hheld => by
      obtain ⟨p, -, hp⟩ := h.pending_eq hheld
      rw [hnone] at hp
      cases hp
    refine .inr ⟨b.nextHeight, b, ?_, h.took_nil _, fun _ hheld => absurd hheld hnot⟩
    rw [List.drop_eq_nil_of_le (by simp), List.append_nil]
  | case2 b batchBytes acc block bytes hsome hdurable =>
    have hheight : block.height.val = b.nextHeight := by
      obtain ⟨-, p, hp, hentry⟩ := (h.pending _ _).mp hsome
      cases hentry
      exact hchain.height _ _ hp
    refine .inr ⟨b.nextHeight, b, ?_, h.took_nil _, fun _ _ hle => ?_⟩
    · rw [List.drop_eq_nil_of_le (by simp), List.append_nil]
    · obtain ⟨through, hthrough, hle⟩ := hle
      have := hdurable through hthrough
      omega
  | case3 b batchBytes acc block bytes hsome hdurable error hfull =>
    -- a block that is not the first one only closes the batch
    obtain ⟨hheld, hp, rfl, hheight, hsize, hend⟩ := h.next_pending hchain hlen hsome
    refine .inl ⟨⟨error, rfl⟩, b.nextHeight, hheld, ?_⟩
    rw [sizeAt_eq hp]
    rcases isFull_spec batchBytes maxBatchBytes acc sealThrough (by omega) hend with
      ⟨-, hnil, hmax⟩ | ⟨full, hok, -⟩
    · have := hacc hnil
      omega
    · rw [hfull] at hok
      cases hok
  | case4 b batchBytes acc block bytes hsome hdurable hfull =>
    obtain ⟨hheld, hp, rfl, hheight, hsize, hend⟩ := h.next_pending hchain hlen hsome
    refine .inr ⟨b.nextHeight, b, ?_, h.took_nil _, fun hnil _ _ => ?_⟩
    · rw [List.drop_eq_nil_of_le (by simp), List.append_nil]
    · rcases isFull_spec batchBytes maxBatchBytes acc sealThrough (by omega) hend with
        ⟨⟨e, he⟩, -⟩ | ⟨full, hok, hne⟩
      · rw [hfull] at he
        cases he
      · rw [hfull] at hok
        cases hok
        exact absurd hnil (hne rfl)
  | case5 b batchBytes acc block bytes hsome hdurable hfull error hnext =>
    obtain ⟨hheld, hp, rfl, hheight, hsize, hend⟩ := h.next_pending hchain hlen hsome
    have hlt := (h.held_lt _ hheld).2
    simp only [rangeSize] at hlen
    -- a tracked block is always taken
    obtain ⟨b₁, r, hok, -⟩ := h.takeNext hchain (by omega) hheld hp
    rw [hnext] at hok
    cases hok
  | case6 b batchBytes acc block bytes hsome hdurable hfull b₁ record hnext ih =>
    obtain ⟨hheld, hp, rfl, hheight, hsize, hend⟩ := h.next_pending hchain hlen hsome
    have hlt := (h.held_lt _ hheld).2
    have hlt32 : b.nextHeight + 1 < 2 ^ 32 := by
      simp only [rangeSize] at hlen
      omega
    obtain ⟨_, _, hok, hr, htracks, hnextHeight, hgen, hmax, hready, hbytes'⟩ :=
      h.takeNext hchain hlt32 hheld hp
    rw [hnext] at hok
    cases hok
    -- the rest of the batch starts one height above
    rcases ih htracks (by omega) (by simp) with ⟨herror, height, hmem, hlarge⟩ |
      ⟨stop, b', hok, htook, -⟩
    · exact .inl ⟨herror, height, Finset.mem_of_mem_erase hmem, hlarge⟩
    · have hle := htook.le
      rw [hnextHeight] at hle hok
      refine .inr ⟨stop, b', ?_, ?_, fun _ _ _ => by omega⟩
      · rw [hok, drop_take_cons hr (by omega), List.append_assoc]
        rfl
      · refine ⟨htook.nextHeight, by omega, ?_, htook.generation.trans hgen,
          htook.maxPendingBytes.trans hmax, htook.readyEnd.trans hready,
          by have := htook.pendingBytes_le; omega, fun height hge hlt => ?_⟩
        · have hfilter : (held.erase b.nextHeight).filter (stop ≤ ·) = held.filter (stop ≤ ·) := by
            ext height
            simp only [Finset.mem_filter, Finset.mem_erase]
            constructor
            · rintro ⟨⟨-, hmem⟩, hle⟩
              exact ⟨hmem, hle⟩
            · rintro ⟨hmem, hle⟩
              exact ⟨⟨by omega, hmem⟩, hle⟩
          rw [← hfilter]
          exact htook.tracks
        · by_cases heq : height = b.nextHeight
          · subst heq
            refine ⟨hheld, ?_⟩
            by_contra hnone
            refine hdurable fun through hthrough => ?_
            by_contra hle
            exact hnone ⟨through, hthrough, by omega⟩
          · obtain ⟨hmem, hthrough⟩ := htook.taken height (by omega) hlt
            exact ⟨Finset.mem_of_mem_erase hmem, hthrough⟩

theorem Took.stop_le {durableThrough : Option Nat}
    (h : b.Took b' parsed records held durableThrough stop) (hb : b.Tracks parsed records held)
    (hnext : b.nextHeight ≤ parsed.length) : stop ≤ parsed.length := by
  by_contra hgt
  have := h.le
  have hmem := (h.taken (stop - 1) (by omega) (by omega)).1
  have := (hb.held_lt _ hmem).2
  omega

theorem Tracks.withGeneration (h : b.Tracks parsed records held) (generation : Nat) :
    Tracks { b with generation } parsed records held :=
  ⟨⟨h.pending, h.held_lt, h.pendingBytes, h.next_le, h.ready, h.readyBytes⟩, h.previousHash,
    h.treeSizes, h.missing⟩

/-- The builder waits for the rest of a range that can be sealed. -/
def Waits (b : OrderedBuilder) (sealThrough : Option Nat) (maxBatchBytes : Nat) : Prop :=
  (∃ through ∈ sealThrough, rangeEnd b.nextHeight ≤ through) ∧
    b.readyEnd ≤ rangeEnd b.nextHeight ∧
    b.pendingBytes ≤ partialRangeFlushThreshold b.maxPendingBytes maxBatchBytes

/-- What a builder of a chain makes: nothing, because it waits or has no next
    block, or the records of its next blocks. -/
theorem Tracks.buildBatch (hchain : ParsedChain parsed records)
    (hlen : parsed.length + rangeSize ≤ 2 ^ 32) (h : b.Tracks parsed records held)
    (hnext : b.nextHeight ≤ parsed.length) (hbytes : b.pendingBytes < 2 ^ 64)
    (durableThrough sealThrough : Option Nat) (maxBatchBytes : Nat) :
    ((∃ e, b.buildBatch durableThrough sealThrough maxBatchBytes = .error e) ∧
      ((∃ height ∈ held, maxBatchBytes < sizeAt parsed height) ∨
        2 ^ 64 ≤ b.generation + 1 ∧ ∃ through ∈ durableThrough, b.nextHeight ≤ through)) ∨
    (b.buildBatch durableThrough sealThrough maxBatchBytes = .ok (b, none) ∧
      (b.Waits sealThrough maxBatchBytes ∨ b.nextHeight ∉ held ∨
        ¬ ∃ through ∈ durableThrough, b.nextHeight ≤ through)) ∨
    ∃ stop b₁, b.nextHeight < stop ∧ stop ≤ parsed.length ∧
      b.Took b₁ parsed records held durableThrough stop ∧
      ¬ b.Waits sealThrough maxBatchBytes ∧
      b.buildBatch durableThrough sealThrough maxBatchBytes =
        .ok ({ b₁ with generation := b.generation + 1 },
          some ⟨b.generation, sealThrough, (records.take stop).drop b.nextHeight⟩) := by
  have hend : rangeEnd b.nextHeight < 2 ^ 32 := by
    simp only [rangeEnd, rangeSize] at hlen ⊢
    omega
  simp only [OrderedBuilder.buildBatch, ensure_of _ hend, ok_bind]
  by_cases hwaits : b.Waits sealThrough maxBatchBytes
  · rw [if_pos (by exact hwaits)]
    exact .inr (.inl ⟨rfl, .inl hwaits⟩)
  rw [if_neg (by exact hwaits)]
  rcases h.takeBatch hchain hlen durableThrough sealThrough maxBatchBytes (by omega)
    (fun _ => rfl) with ⟨⟨e, he⟩, hlarge⟩ | ⟨stop, b₁, hok, htook, hprogress⟩
  · rw [he, error_bind]
    exact .inl ⟨⟨e, rfl⟩, .inl hlarge⟩
  rw [hok, ok_bind, List.nil_append]
  have hstop := htook.stop_le h hnext
  have hle := htook.le
  by_cases hlt : b.nextHeight < stop
  · have hne : (records.take stop).drop b.nextHeight ≠ [] := by
      refine List.ne_nil_of_length_pos ?_
      rw [List.length_drop, List.length_take, hchain.length_eq]
      omega
    simp only [if_neg hne]
    rw [htook.generation]
    by_cases hgen : b.generation + 1 < 2 ^ 64
    · rw [ensure_of _ hgen, ok_bind]
      exact .inr (.inr ⟨stop, b₁, hlt, hstop, htook, hwaits, rfl⟩)
    · rw [ensure_of_not _ hgen, error_bind]
      exact .inl ⟨⟨_, rfl⟩, .inr ⟨by omega, (htook.taken _ le_rfl hlt).2⟩⟩
  · obtain rfl : b.nextHeight = stop := by omega
    have hnil : (records.take b.nextHeight).drop b.nextHeight = [] :=
      List.drop_eq_nil_of_le (by simp)
    -- an empty batch leaves the builder as it was
    have hsame : b₁ = b := by
      rw [hnil] at hok
      obtain ⟨blocks, taken, htakes, htaken⟩ := takeBatch_takes hok
      obtain rfl : taken = [] := by simpa using htaken.symm
      cases htakes
      rfl
    refine .inr (.inl ⟨by simp only [if_pos hnil, hsame, pure_eq_ok], .inr ?_⟩)
    by_contra hcon
    rw [not_or, not_not, not_not] at hcon
    exact hlt (hprogress rfl hcon.1 hcon.2)

theorem drop_take_append {middle : Nat} (hle : start ≤ middle) (hle' : middle ≤ stop) :
    (records.take middle).drop start ++ (records.take stop).drop middle =
      (records.take stop).drop start := by
  have hsplit := List.take_append_drop middle (records.take stop)
  rw [List.take_take, Nat.min_eq_left hle'] at hsplit
  by_cases hlen : start ≤ (records.take middle).length
  · rw [← List.drop_append_of_le_length hlen, hsplit]
  · rw [List.length_take] at hlen
    rw [List.drop_eq_nil_of_le (by rw [List.length_take]; omega),
      List.drop_eq_nil_of_le (by rw [List.length_take]; omega),
      List.drop_eq_nil_of_le (by rw [List.length_take]; omega)]
    rfl

/-- A builder that holds every block up to `through` gives all of their records,
    unless a block is larger than a batch. -/
theorem Tracks.drainRecords (hchain : ParsedChain parsed records)
    (hlen : parsed.length + rangeSize ≤ 2 ^ 32) (through maxBatchBytes : Nat)
    (h : b.Tracks parsed records held)
    (hnext : b.nextHeight ≤ parsed.length) (hbytes : b.pendingBytes < 2 ^ 64)
    (hall : ∀ height, b.nextHeight ≤ height → height ≤ through → height ∈ held) :
    ((∃ e, b.drainRecords through maxBatchBytes = .error e) ∧
      ((∃ height ∈ held, maxBatchBytes < sizeAt parsed height) ∨
        2 ^ 64 ≤ b.generation + (through + 1 - b.nextHeight))) ∨
    ∃ b', b.drainRecords through maxBatchBytes =
      .ok (b', (records.take (through + 1)).drop b.nextHeight) := by
  fun_induction OrderedBuilder.drainRecords b through maxBatchBytes generalizing held with
  | case1 b error herror =>
    refine .inl ⟨⟨error, rfl⟩, ?_⟩
    rcases h.buildBatch hchain hlen hnext hbytes (some through) none maxBatchBytes with
      ⟨-, hlarge | ⟨hgen, hle⟩⟩ | ⟨hok, -⟩ | ⟨stop, b₁, -, -, -, -, hok⟩
    · exact .inl hlarge
    · simp only [Option.mem_some_iff, exists_eq_left'] at hle
      exact .inr (by omega)
    · rw [herror] at hok
      cases hok
    · rw [herror] at hok
      cases hok
  | case2 b b' hnone =>
    refine .inr ⟨b', ?_⟩
    rcases h.buildBatch hchain hlen hnext hbytes (some through) none maxBatchBytes with
      ⟨⟨e, he⟩, -⟩ | ⟨-, ⟨⟨_, hwait, -⟩, -⟩ | hnot | hnot⟩ | ⟨stop, b₁, -, -, -, -, hok⟩
    · rw [hnone] at he
      cases he
    · cases hwait
    · -- the next block is above the last one
      have hgt : through < b.nextHeight := by
        by_contra hle
        exact hnot (hall _ le_rfl (by omega))
      rw [List.drop_eq_nil_of_le (by rw [List.length_take]; omega)]
    · simp only [Option.mem_some_iff, exists_eq_left', Nat.not_le] at hnot
      rw [List.drop_eq_nil_of_le (by rw [List.length_take]; omega)]
    · rw [hnone] at hok
      cases hok
  | case3 b b' batch hsome ih =>
    rcases h.buildBatch hchain hlen hnext hbytes (some through) none maxBatchBytes with
      ⟨⟨e, he⟩, -⟩ | ⟨hok, -⟩ | ⟨stop, b₁, hlt, hstop, htook, -, hok⟩
    · rw [hsome] at he
      cases he
    · rw [hsome] at hok
      cases hok
    rw [hsome] at hok
    cases hok
    have hthrough : stop ≤ through + 1 := by
      obtain ⟨-, d, hd, hle⟩ := htook.taken (stop - 1) (by omega) (by omega)
      cases hd
      omega
    have hnext' := htook.nextHeight
    rcases ih (htook.tracks.withGeneration _) (by simp only; omega)
      (by have := htook.pendingBytes_le; simp only; omega)
      (fun height hge hle => Finset.mem_filter.mpr
        ⟨hall height (by simp only at hge; omega) hle, by simp only at hge; omega⟩) with
      ⟨⟨e, he⟩, hlarge | hgen⟩ | ⟨b'', hok⟩
    · obtain ⟨height, hmem, hlarge⟩ := hlarge
      exact .inl ⟨⟨e, by rw [he, error_bind]⟩,
        .inl ⟨height, (Finset.mem_filter.mp hmem).1, hlarge⟩⟩
    · simp only at hgen
      exact .inl ⟨⟨e, by rw [he, error_bind]⟩, .inr (by omega)⟩
    · refine .inr ⟨b'', ?_⟩
      rw [hok, ok_bind]
      simp only [hnext', drop_take_append (by omega : b.nextHeight ≤ stop) hthrough]
      rfl

/-- A new builder holds nothing. -/
theorem Tracks.new {st : IndexState} {next : Nat} (hnext : st.nextHeight = some next)
    (htip : st.durableTip.map (·.hash) = (records.take next).getLast?.map (·.hash))
    (hsizes : st.treeSizes = endSizes default (records.take next)) (maxPendingBytes : Nat) :
    ∃ b, OrderedBuilder.new st maxPendingBytes = .ok b ∧ b.Tracks parsed records ∅ ∧
      b.nextHeight = next ∧ b.generation = st.generation ∧ b.pendingBytes = 0 ∧
      b.maxPendingBytes = maxPendingBytes := by
  refine ⟨_, by rw [OrderedBuilder.new, hnext]; rfl, ⟨⟨?_, ?_, ?_, le_rfl, ?_, ?_⟩, htip, hsizes,
    ?_⟩, rfl, rfl, rfl, rfl⟩
  · intro height entry
    simp
  · simp
  · simp
  · intro height hge hlt
    simp only at hge hlt
    omega
  · simp
  · simp

/-- Blocks that follow the held ones are pushed, unless their sizes are above a limit. -/
theorem Tracks.pushAll (hlen : parsed.length ≤ 2 ^ 32) (hstop : stop ≤ parsed.length)
    (hle : start ≤ stop) (hnext : b.nextHeight ≤ start)
    (hheights : ∀ (i : Nat) (p : ParsedCompactBlock), parsed[i]? = some p → p.height.val = i)
    (h : b.Tracks parsed records (Finset.Ico b.nextHeight start))
    (hmax : b.maxPendingBytes < 2 ^ 64) (hbytes : b.pendingBytes ≤ b.maxPendingBytes) :
    ((∃ e, ((parsed.take stop).drop start).foldlM OrderedBuilder.push b = .error e) ∧
      ((∃ height, start ≤ height ∧ height < stop ∧ maxRecordBytes < sizeAt parsed height) ∨
        b.maxPendingBytes < b.pendingBytes + ∑ height ∈ Finset.Ico start stop,
        sizeAt parsed height)) ∨
    ∃ b', ((parsed.take stop).drop start).foldlM OrderedBuilder.push b = .ok b' ∧
      b'.Tracks parsed records (Finset.Ico b.nextHeight stop) ∧ b'.nextHeight = b.nextHeight ∧
      b'.generation = b.generation ∧ b'.maxPendingBytes = b.maxPendingBytes ∧
      b'.pendingBytes ≤ b.maxPendingBytes := by
  induction hn : stop - start generalizing b start with
  | zero =>
    obtain rfl : start = stop := by omega
    rw [List.drop_eq_nil_of_le (by simp)]
    exact .inr ⟨b, rfl, h, rfl, rfl, rfl, hbytes⟩
  | succ n ih =>
    have hlt : start < stop := by omega
    have hp : parsed[start]? = some parsed[start] := List.getElem?_eq_getElem (by omega)
    have hcons : (parsed.take stop).drop start =
      parsed[start] :: (parsed.take stop).drop (start + 1) := by
      rw [List.drop_eq_getElem_cons (by rw [List.length_take]; omega), List.getElem_take]
    have hsum := Finset.sum_eq_sum_Ico_succ_bot hlt (sizeAt parsed)
    have hsize := sizeAt_eq hp
    rw [hcons, List.foldlM_cons]
    rcases h.push hlen hp (hheights _ _ hp) hnext (by simp) with
      ⟨⟨e, he⟩, hlarge⟩ | ⟨b₁, hok, htracks, hnext₁, hgen, hbytes₁, hmax₁, hle₁⟩
    · refine .inl ⟨⟨e, by rw [he, error_bind]⟩, ?_⟩
      rcases hlarge with hlarge | hlarge | hlarge
      · exact .inl ⟨start, le_rfl, hlt, by omega⟩
      · exact .inr (by omega)
      · exact .inr (by omega)
    · rw [hok, ok_bind]
      have hinsert : insert start (Finset.Ico b.nextHeight start) =
          Finset.Ico b₁.nextHeight (start + 1) := by
        rw [hnext₁, Finset.insert_Ico_right_eq_Ico_add_one hnext]
      rw [hinsert] at htracks
      rcases ih (by omega) (by omega) htracks (by omega) (by omega) (by omega) with
        ⟨herror, hlarge⟩ | ⟨b', hok', htracks', hnext', hgen', hmax', hle'⟩
      · refine .inl ⟨herror, ?_⟩
        rcases hlarge with ⟨height, hge, hlt', hlarge⟩ | hlarge
        · exact .inl ⟨height, by omega, hlt', hlarge⟩
        · exact .inr (by omega)
      · rw [hnext₁] at htracks'
        exact .inr ⟨b', hok', htracks', by omega, by omega, by omega, by omega⟩

end OrderedBuilder

theorem Indexed.parsedChain {blocks : List RawIndexBlock} {parsed : List ParsedCompactBlock}
    {records : List CompactBlockRecord} (h : Indexed blocks parsed records) :
    ParsedChain parsed records where
  length_eq := by rw [h.records_length, h.parsed_length]
  height i p hp := by
    have hi := (List.getElem?_eq_some_iff.mp hp).1
    rw [h.parsed_length] at hi
    obtain ⟨b, p', r, -, hp', -, -, -, hheight, -⟩ := h.at_height hi
    rw [hp] at hp'
    cases hp'
    exact hheight
  link i p hp last hlast := by
    have hi := (List.getElem?_eq_some_iff.mp hp).1
    rw [h.parsed_length] at hi
    obtain ⟨b, p', r, -, hp', -, -, -, -, -, hprevious, -⟩ := h.at_height hi
    rw [hp] at hp'
    cases hp'
    rw [hprevious]
    cases i with
    | zero => simp at hlast
    | succ i =>
      rw [Option.mem_def, List.getLast?_take, if_neg (by omega), Nat.add_sub_cancel] at hlast
      have hr : records[i]? = some last := by
        rw [List.getElem?_eq_getElem (by rw [h.records_length]; omega)] at hlast ⊢
        simpa using hlast
      obtain ⟨-, ⟨b', hb', hhash⟩, -⟩ := h.record_spec hr
      rw [tipHash_take_succ hb', hhash]
  record i p hp := by
    have hi := (List.getElem?_eq_some_iff.mp hp).1
    rw [h.parsed_length] at hi
    obtain ⟨b, p', r, -, hp', hr, -, hinto, -⟩ := h.at_height hi
    rw [hp] at hp'
    cases hp'
    exact ⟨r, hr, hinto⟩

end Ztreamer
