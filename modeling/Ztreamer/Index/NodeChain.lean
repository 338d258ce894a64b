import Ztreamer.Chain.Plain
import Ztreamer.Index.Building
import Ztreamer.Index.Writes

/-! # The chain of a node in the index

    `NodeChain` is a chain that a node can have and that the index can store. Any
    prefix of it can be in the index, and a batch of its next records is written.
-/

namespace Ztreamer

open Octets Result Connected

variable {ν : Type}

/-- A chain that a node can have: it can be indexed, its records fit in the index,
    a hash determines a height, and a height is at most that of the node's type. -/
structure NodeChain (heightOf : Hash → Nat) (blocks : List RawIndexBlock)
    (parsed : List ParsedCompactBlock) (records : List CompactBlockRecord) : Prop extends
    Indexed blocks parsed records where
  size_le : ∀ p ∈ parsed, p.size ≤ maxRecordBytes
  heightOf_hash : ∀ b ∈ blocks, heightOf b.hash = b.height.val
  length_le : blocks.length ≤ 2 ^ 31

namespace NodeChain

variable {heightOf : Hash → Nat} {blocks : List RawIndexBlock}
  {parsed : List ParsedCompactBlock} {records : List CompactBlockRecord}

variable (h : NodeChain heightOf blocks parsed records)

include h

theorem connected : Connected heightOf records where
  isChain := by
    rw [List.isChain_iff_getElem]
    intro i hi
    have hlow : records[i]? = some records[i] := List.getElem?_eq_getElem (by omega)
    have hhigh : records[i + 1]? = some records[i + 1] := List.getElem?_eq_getElem hi
    obtain ⟨hheight, ⟨b, hb, hhash⟩, -⟩ := h.record_spec hlow
    obtain ⟨hheight', -, hprevious, -⟩ := h.record_spec hhigh
    exact ⟨by omega, by rw [hprevious, tipHash_take_succ hb, hhash]⟩
  genesis r hr := by
    rw [Option.mem_def, List.head?_eq_getElem?] at hr
    exact (h.record_spec hr).1
  heightOf_hash r hr := by
    obtain ⟨i, hi⟩ := List.mem_iff_getElem?.mp hr
    obtain ⟨hheight, ⟨b, hb, hhash⟩, -⟩ := h.record_spec hi
    show heightOf r.hash = r.height.val
    rw [← hhash, h.heightOf_hash b (List.mem_of_getElem? hb), h.chain.height i b hb, hheight]

theorem encodedAs :
    ∃ encoded, EncodedAs records encoded := by
  refine exists_encodedAs fun r hr => ?_
  obtain ⟨i, hi⟩ := List.mem_iff_getElem?.mp hr
  have hlt := (List.getElem?_eq_some_iff.mp hi).1
  rw [h.records_length] at hlt
  obtain ⟨b, p, r', -, hp, hr', -, hinto, -, -, -, hpayload⟩ := h.at_height hlt
  rw [hi] at hr'
  cases hr'
  obtain ⟨sizes, -, rfl⟩ := ParsedCompactBlock.intoRecord_eq_some.mp hinto
  have hsize := h.size_le p (List.mem_of_getElem? hp)
  exact ⟨_, @CompactBlockRecord.encode_of_sizeBound (p.toRecord sizes) _ hpayload
    (encodedSizeBound_eq_ok.mpr ⟨hsize, rfl⟩)⟩

theorem take (n : Nat) :
    NodeChain heightOf (blocks.take n) (parsed.take n) (records.take n) where
  toIndexed := h.toIndexed.take n
  size_le p hp := h.size_le p (List.mem_of_mem_take hp)
  heightOf_hash b hb := h.heightOf_hash b (List.mem_of_mem_take hb)
  length_le := by
    have := h.length_le
    rw [List.length_take]
    omega

end NodeChain

/-! ## Chains of small blocks -/

theorem branchParsed_size (n fork height : Nat) :
    (branchParsed (n + 1) fork height).size = 256 + 128 * (n + 1) := by
  simp [branchParsed, branchTxs, ParsedCompactBlock.size, transactionSizeBound, outputsOnly,
    WireTransaction.compact, WireTransaction.saplingSpends, WireTransaction.saplingOutputs,
    WireTransaction.orchardActions, WireTransaction.ironwoodActions]
  omega

/-- A block of the family is at most 2,000,000 bytes, so its record is small, too. -/
theorem branchBlocks_nodeChain (fork : Nat) {n length : Nat}
    (hn : 101 + 948 * n ≤ maxTransactionBytes) (hlength : length ≤ 2 ^ 31)
    (hsizes : length * n < 2 ^ 32) :
    NodeChain plainHeight (branchBlocks n fork length)
      ((List.range length).map (branchParsed n fork)) (branchRecords n fork length) where
  toIndexed := branchBlocks_indexed fork hn (by omega) hsizes
  size_le p hp := by
    obtain ⟨height, -, rfl⟩ := List.mem_map.mp hp
    cases n with
    | zero => exact (by decide : 192 ≤ maxRecordBytes)
    | succ n =>
      rw [branchParsed_size]
      simp only [maxTransactionBytes, maxRecordBytes] at hn ⊢
      omega
  heightOf_hash b hb := by
    obtain ⟨height, hheight⟩ := List.mem_iff_getElem?.mp hb
    obtain ⟨hlt, rfl⟩ := branchBlocks_getElem?.mp hheight
    simp only [branchRaw, plainHeight_plainHash (by omega : height < 2 ^ 32), Fin.val_ofNat]
    omega
  length_le := by simpa using hlength

theorem plainBlocks_nodeChain (fork : Nat) {n : Nat} (hn : n ≤ 2 ^ 31) :
    NodeChain plainHeight (plainBlocks fork n) ((List.range n).map (plainParsed fork))
      (plainRecords fork n) :=
  branchBlocks_nodeChain fork (by decide) hn (by omega)

/-! ## Writing the chain -/

section

variable [Proto.Prost] {heightOf : Hash → Nat} {s : Store ν} {st : IndexState}
  {blocks : List RawIndexBlock} {parsed : List ParsedCompactBlock}
  {records : List CompactBlockRecord}

variable (hnode : NodeChain heightOf blocks parsed records)

include hnode

theorem NodeChain.write {n stop : Nat} (h : Represents heightOf s st (records.take n))
    (hlt : n < stop) (hstop : stop ≤ records.length) (sealThrough : Option Nat) :
    ∃ last, records[stop - 1]? = some last ∧
      Finishes heightOf s (st.withDurableTip last.blockId last.endTreeSizes) (records.take stop)
        sealThrough (s.write ⟨st.generation, sealThrough, (records.take stop).drop n⟩) := by
  have hsplit := List.take_append_drop n (records.take stop)
  rw [List.take_take, Nat.min_eq_left (by omega)] at hsplit
  have hlast : records[stop - 1]? = some records[stop - 1] := List.getElem?_eq_getElem (by omega)
  have htake := getLast?_take_succ hlast
  rw [Nat.sub_add_cancel (by omega)] at htake
  obtain ⟨encoded, hencoded⟩ := hnode.encodedAs
  have hconnected := hnode.connected.take stop
  rw [← hsplit] at hconnected
  have hlast' : ((records.take stop).drop n).getLast? = some records[stop - 1] := by
    rw [List.getLast?_drop, if_neg (by rw [List.length_take]; omega), htake]
  have hfinish := h.write ((hencoded.take stop).drop n) hlast' hconnected.extends_of_append
    sealThrough
  rw [hsplit] at hfinish
  exact ⟨_, hlast, hfinish⟩

/-- A builder without room to wait makes a batch of the next block of a chain. -/
theorem NodeChain.exists_fed {n : Nat} (h : Represents heightOf s st (records.take n))
    (hn : n < records.length) (hgen : st.generation + 1 < 2 ^ 64) (sealThrough : Option Nat) :
    ∃ b b', OrderedBuilder.FedFrom (· ∈ parsed) st b ∧
      b.buildBatch (some n) sealThrough maxRecordBytes =
        .ok (b', some ⟨st.generation, sealThrough, (records.take (n + 1)).drop n⟩) := by
  have hlen := hnode.length_le
  have hplen := hnode.parsed_length
  have hrlen := hnode.records_length
  have hnext : st.nextHeight = some n := by
    rw [h.describes.nextHeight_eq_some h.connected, List.length_take]
    exact ⟨by omega, fun _ => by omega⟩
  obtain ⟨b, hnew, htracks, hbnext, hbgen, hbytes, hmax⟩ :=
    @OrderedBuilder.Tracks.new parsed records st n hnext
      (by rw [h.describes.tip, Option.map_map]; rfl) (by rw [h.describes.treeSizes]; rfl)
      maxRecordBytes
  have hp : parsed[n]? = some parsed[n] := List.getElem?_eq_getElem (by omega)
  have hmem := List.mem_of_getElem? hp
  have hsize := hnode.size_le _ hmem
  have hmaxBytes : maxRecordBytes < 2 ^ 64 := by decide
  rcases htracks.push (by omega) hp (hnode.parsedChain.height _ _ hp) (by omega)
    (Finset.notMem_empty n) with ⟨-, hlarge⟩ |
    ⟨b₁, hpush, htracks₁, hnext₁, hgen₁, hbytes₁, hmax₁, -⟩
  · omega
  rcases htracks₁.buildBatch hnode.parsedChain (by simp only [rangeSize]; omega) (by omega)
    (by omega)
    (some n) sealThrough maxRecordBytes with ⟨-, hlarge | hlarge⟩ | ⟨-, hwaits | hnot | hnot⟩ |
      ⟨stop, b₂, hlt, -, htook, -, hbatch⟩
  · obtain ⟨height, hmem, hlarge⟩ := hlarge
    obtain rfl : height = n := by simpa using hmem
    rw [sizeAt_eq hp] at hlarge
    omega
  · omega
  · -- the builder has room for one record, so it flushes a part of a range
    obtain ⟨-, -, hroom⟩ := hwaits
    have hpos : 0 < parsed[n].size := by
      unfold ParsedCompactBlock.size
      omega
    rw [hmax₁, hmax, partialRangeFlushThreshold] at hroom
    omega
  · exact absurd (by rw [hnext₁, hbnext]; simp) hnot
  · exact absurd ⟨n, rfl, by omega⟩ hnot
  · have hstop : stop = n + 1 := by
      have hle := (htook.taken (stop - 1) (by omega) (by omega)).1
      simp only [insert_empty_eq, Finset.mem_singleton] at hle
      omega
    rw [hstop, hnext₁, hbnext, hgen₁, hbgen] at hbatch
    exact ⟨b₁, _, .push (.new hnew) hmem hpush, hbatch⟩

/-- A builder makes a batch of the next block of a chain. -/
theorem NodeChain.madeFrom {n : Nat} (h : Represents heightOf s st (records.take n))
    (hn : n < records.length) (hgen : st.generation + 1 < 2 ^ 64) (sealThrough : Option Nat) :
    WriteBatch.MadeFrom st ⟨st.generation, sealThrough, (records.take (n + 1)).drop n⟩ := by
  obtain ⟨b, b', hfed, hbatch⟩ := hnode.exists_fed h hn hgen sealThrough
  exact ⟨b, b', _, _, _, hfed.imp fun _ _ => trivial, hbatch⟩

end

end Ztreamer
