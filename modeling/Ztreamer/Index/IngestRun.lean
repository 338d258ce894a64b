import Ztreamer.Index.NodeChain

/-! # Indexing one chain through builders

    Any number of builders, each made from a state of the index and fed with
    blocks of one chain in any order, make batches, and some of the batches are
    written. Whatever the order, the index holds a beginning of the chain.
-/

namespace Ztreamer

open Octets Result Connected

variable {ν : Type}

namespace OrderedBuilder

variable {parsed : List ParsedCompactBlock} {records : List CompactBlockRecord}
  {b b' : OrderedBuilder}

/-- The builder stands in the chain: its tree sizes are those below its next height. -/
structure InChain (parsed : List ParsedCompactBlock) (records : List CompactBlockRecord)
    (b : OrderedBuilder) : Prop where
  keyed : b.Keyed
  pends : b.Pends (· ∈ parsed)
  treeSizes : b.treeSizes = endSizes default (records.take b.nextHeight)

variable (hchain : ParsedChain parsed records)

include hchain

/-- What the builder gives up are the next records of the chain. -/
theorem InChain.takes {blocks : List ParsedCompactBlock} {taken : List CompactBlockRecord}
    (hb : b.InChain parsed records) (h : Takes b blocks taken b') : b'.InChain parsed records ∧
      taken = (records.drop b.nextHeight).take taken.length := by
  induction h with
  | nil => exact ⟨hb, by simp⟩
  | @cons b b₁ b₂ block bytes record blocks taken hget hnext htakes ih =>
    have hkeyed := hb.keyed.takeNext hnext
    have hpends := hb.pends.takeNext hnext
    obtain ⟨-, hrecord, -, rfl⟩ := takeNext_eq_ok.mp hnext
    -- the block at the next height is the one of the chain
    obtain ⟨i, hi⟩ := List.mem_iff_getElem?.mp (hb.pends _ _ _ hget)
    have hheight : i = b.nextHeight := by
      rw [← hchain.height i block hi]
      exact hb.keyed _ _ _ hget
    obtain ⟨r, hr, hinto⟩ := hchain.record i block hi
    rw [hheight] at hr hinto
    rw [hb.treeSizes, hinto] at hrecord
    obtain rfl := Option.some.inj hrecord
    obtain ⟨hin, heq⟩ := ih ⟨hkeyed, hpends, by
      simp only
      rw [endSizes, getLast?_take_succ hr]
      rfl⟩
    refine ⟨hin, ?_⟩
    obtain ⟨hlt, hget'⟩ := List.getElem?_eq_some_iff.mp hr
    rw [List.length_cons, List.drop_eq_getElem_cons hlt, List.take_succ_cons, hget', ← heq]

theorem InChain.buildBatch {durableThrough sealThrough : Option Nat} {maxBatchBytes : Nat}
    {batch : WriteBatch} (hb : b.InChain parsed records)
    (h : b.buildBatch durableThrough sealThrough maxBatchBytes = .ok (b', some batch)) :
    b'.InChain parsed records ∧
      batch.records = (records.drop b.nextHeight).take batch.records.length ∧
      ∀ r ∈ batch.records.head?, r.height.val = b.nextHeight := by
  obtain ⟨blocks, b₁, htakes, -, -, -, rfl⟩ := buildBatch_eq_some h
  obtain ⟨hin, heq⟩ := hb.takes hchain htakes
  exact ⟨⟨hin.keyed, hin.pends, hin.treeSizes⟩, heq,
    fun r hr => ((htakes.isChain hb.keyed).2 r hr).1⟩

/-- A builder made from a state of the chain stays in the chain. -/
theorem FedFrom.inChain {st : IndexState} {n : Nat}
    (hnext : ∀ next, st.nextHeight = some next → next = n)
    (hsizes : st.treeSizes = endSizes default (records.take n)) (h : FedFrom (· ∈ parsed) st b) :
    b.InChain parsed records := by
  induction h with
  | @new _ b hnew =>
    refine ⟨.new hnew, .new hnew, ?_⟩
    simp only [OrderedBuilder.new, bind_eq_ok, okOr_eq_ok, pure_eq_ok, Except.ok.injEq] at hnew
    obtain ⟨next, hsome, rfl⟩ := hnew
    rw [hnext next hsome]
    exact hsizes
  | push hfed hblock hpush ih =>
    obtain ⟨-, hheight, -, hsizes', -⟩ := push_eq_ok hpush
    exact ⟨ih.keyed.push hpush, ih.pends.push (fun _ _ => hblock) hpush,
      by rw [hsizes', hheight, ih.treeSizes]⟩
  | @build _ _ batch _ _ _ _ hbuild ih =>
    cases batch with
    | none => rw [buildBatch_eq_none hbuild]; exact ih
    | some batch => exact (ih.buildBatch hchain hbuild).1

end OrderedBuilder

section

variable [Proto.Prost]

/-- The stores that batches of builders reach. Each builder was made from the state
    of such a store, and fed with blocks of one chain. -/
inductive IngestRun (parsed : List ParsedCompactBlock) : Store ν → Prop where
  | empty : IngestRun parsed Store.empty
  | write {s₀ s s' : Store ν} {st₀ st' : IndexState} {b b' : OrderedBuilder} {batch : WriteBatch}
      (durableThrough sealThrough : Option Nat) (maxBatchBytes : Nat) :
      IngestRun parsed s₀ → s₀.getState = .ok st₀ → OrderedBuilder.FedFrom (· ∈ parsed) st₀ b →
      b.buildBatch durableThrough sealThrough maxBatchBytes = .ok (b', some batch) →
      IngestRun parsed s → s.write batch = .ok (s', st') → IngestRun parsed s'

variable {records : List CompactBlockRecord}

/-- A written batch that stands in the chain continues the chain in the index. -/
theorem Represents.write_inChain {s : Store ν} {st : IndexState} {n start : Nat}
    (h : Represents .any s st (records.take n)) (hn : n ≤ records.length) {batch : WriteBatch}
    (hne : batch.records ≠ []) (hchain : batch.records.IsChain CompactBlockRecord.Precedes)
    (hstart : ∀ r ∈ batch.records.head?, r.height.val = start)
    (heq : batch.records = (records.drop start).take batch.records.length)
    {out : Store ν × IndexState} (hwrite : s.write batch = .ok out) :
    start = n ∧ ∃ m ≤ records.length, Represents .any out.1 out.2 (records.take m) := by
  simp only [Store.write, bind_eq_ok, okMapError_eq_ok] at hwrite
  obtain ⟨encoded, hencode, hwrite⟩ := hwrite
  obtain ⟨hrep, -⟩ := h.writeEncoded hencode hne hchain (fun _ _ => trivial) hwrite
  obtain ⟨first, hfirst⟩ : ∃ first, batch.records.head? = some first :=
    ⟨_, List.head?_eq_some_head hne⟩
  have hsame : start = n := by
    rw [← hstart first hfirst, hrep.connected.extends_of_append.height first hfirst,
      List.length_take, Nat.min_eq_left hn]
  refine ⟨hsame, n + min batch.records.length (records.length - n), by omega, ?_⟩
  rw [heq, hsame] at hrep
  rw [List.take_add, ← List.length_drop, ← List.take_eq_take_min]
  exact hrep

/-- The index holds a beginning of the chain. -/
theorem IngestRun.represents {parsed : List ParsedCompactBlock}
    (hchain : ParsedChain parsed records) {s : Store ν} (h : IngestRun parsed s) :
    ∃ n st, n ≤ records.length ∧ Represents .any s st (records.take n) := by
  induction h with
  | empty => exact ⟨0, {}, Nat.zero_le _, represents_empty⟩
  | @write s₀ s s' st₀ st' b b' batch _ _ _ _ hst₀ hfed hbuild _ hwrite ih₀ ih =>
    obtain ⟨n₀, st₁, hn₀, hrep₀⟩ := ih₀
    obtain ⟨n, st, hn, hrep⟩ := ih
    obtain rfl : st₁ = st₀ := Except.ok.inj (hrep₀.state.symm.trans hst₀)
    have hnext : ∀ next, st₁.nextHeight = some next → next = n₀ := by
      intro next hsome
      rw [((hrep₀.describes.nextHeight_eq_some hrep₀.connected).mp hsome).1, List.length_take,
        Nat.min_eq_left hn₀]
    have hb := hfed.inChain hchain hnext hrep₀.describes.treeSizes
    obtain ⟨-, heq, hstart⟩ := hb.buildBatch hchain hbuild
    obtain ⟨blocks, b₁, htakes, hne, -⟩ := OrderedBuilder.buildBatch_eq_some hbuild
    obtain ⟨-, m, hm, hrep'⟩ :=
      hrep.write_inChain hn hne (htakes.isChain hfed.keyed).1 hstart heq hwrite
    exact ⟨m, st', hm, hrep'⟩

/-- Every prefix of a chain of a node is reached, sealed up to any height. -/
theorem NodeChain.ingestRun {heightOf : Hash → Nat} {blocks : List RawIndexBlock}
    {parsed : List ParsedCompactBlock} (hnode : NodeChain heightOf blocks parsed records)
    (sealThrough : Option Nat) {n : Nat} (hn : n ≤ records.length)
    (hroom : n + rangeSize ≤ 2 ^ 32) :
    ∃ (s : Store ν) (st : IndexState), IngestRun parsed s ∧
      Represents heightOf s st (records.take n) ∧ st.sealedEnd = sealTarget sealThrough 0 n ∧
      st.generation = n := by
  have hlen := hnode.length_le
  have hrlen := hnode.records_length
  -- one batch for each block
  induction n with
  | zero => exact ⟨_, _, .empty, represents_empty, by cases sealThrough <;> simp [sealTarget,
      IndexState.sealedEnd], rfl⟩
  | succ n ih =>
    obtain ⟨s, st, hrun, hrep, hsealed, hgen⟩ := ih (by omega) (by omega)
    obtain ⟨b, b', hfed, hbuild⟩ := hnode.exists_fed hrep hn (by omega) sealThrough
    obtain ⟨last, -, hfinish⟩ := hnode.write hrep (Nat.lt_succ_self n) hn sealThrough
    rcases hfinish with ⟨-, hnear⟩ | ⟨out, hok, hrest⟩
    · simp only [NearOverflow, List.length_take, IndexState.withDurableTip] at hnear
      omega
    obtain ⟨hrep', hgen', hsealed', -⟩ := Finishes.of_ok (.inr ⟨out, hok, hrest⟩) hok
    have hend : (st.withDurableTip last.blockId last.endTreeSizes).sealedEnd = st.sealedEnd := rfl
    refine ⟨out.1, out.2, .write _ _ _ hrun hrep.state hfed hbuild hrun hok, hrep', ?_, ?_⟩
    · rw [hsealed', hend, hsealed, List.length_take, Nat.min_eq_left hn]
      exact sealTarget_sealTarget (Nat.le_succ n)
    · rw [hgen']
      exact congrArg (· + 1) hgen

end

end Ztreamer
