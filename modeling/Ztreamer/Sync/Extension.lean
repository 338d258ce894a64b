import Ztreamer.Sync.Replace

/-! # Extending the durable chain

    A call without a head polls the blocks above the durable tip, and appends
    them in batches up to `persistDepth` below the new visible tip. The rest is
    the new head. A batch that fails leaves the batches before it.
-/

namespace Ztreamer

open Octets Result Connected

variable {ν : Type}

section

variable [Proto.Prost] {heightOf : Hash → Nat} {s : Store ν} {st : IndexState}
  {blocks : List RawIndexBlock} {parsed : List ParsedCompactBlock}
  {records : List CompactBlockRecord} {src : CanonicalBlockSource}

/-- The store after some batches of a chain, of which it had the first `n` records. -/
structure Wrote (heightOf : Hash → Nat) (records : List CompactBlockRecord) (st : IndexState)
    (n : Nat) (s' : Store ν) (st' : IndexState) (n' : Nat) : Prop where
  represents : Represents heightOf s' st' (records.take n')
  le : n ≤ n'
  le_length : n' ≤ records.length
  generation_le : st'.generation ≤ st.generation + (n' - n)
  sealed_le : st.sealedEnd ≤ st'.sealedEnd

variable {n : Nat} {b : OrderedBuilder} {durableThrough sealThrough : Option Nat}

theorem Wrote.refl (h : Represents heightOf s st (records.take n)) (hn : n ≤ records.length) :
    Wrote heightOf records st n s st n :=
  ⟨h, le_rfl, hn, by omega, le_rfl⟩

theorem writeBatches_of_error {maxBatchBytes : Nat} {e : IngestError}
    (h : b.buildBatch durableThrough sealThrough maxBatchBytes = .error e) :
    writeBatches durableThrough sealThrough maxBatchBytes s st b = (s, .error (.ingest e)) := by
  rw [Ztreamer.writeBatches]
  split <;> simp_all

theorem writeBatches_of_none {b' : OrderedBuilder} {maxBatchBytes : Nat}
    (h : b.buildBatch durableThrough sealThrough maxBatchBytes = .ok (b', none)) :
    writeBatches durableThrough sealThrough maxBatchBytes s st b = (s, .ok (st, b')) := by
  rw [Ztreamer.writeBatches]
  split <;> simp_all

theorem writeBatches_of_some {b b' : OrderedBuilder} {durableThrough sealThrough : Option Nat}
    {maxBatchBytes : Nat} {batch : WriteBatch}
    (h : b.buildBatch durableThrough sealThrough maxBatchBytes = .ok (b', some batch)) :
    writeBatches durableThrough sealThrough maxBatchBytes s st b =
      match s.write batch with
      | .error error => (s, .error (.index error))
      | .ok out => writeBatches durableThrough sealThrough maxBatchBytes out.1 out.2 b' := by
  rw [Ztreamer.writeBatches]
  split
  · simp_all
  · simp_all
  · rename_i h'
    rw [h] at h'
    cases h'
    cases s.write batch <;> rfl

variable (hnode : NodeChain heightOf blocks parsed records)

include hnode

/-- A builder with every block of a chain from its next height on writes the
    blocks up to `durableThrough`, or stops at a limit. -/
theorem NodeChain.writeBatches (maxBatchBytes : Nat)
    (hrep : Represents heightOf s st (records.take b.nextHeight))
    (hb : b.Tracks parsed records (Finset.Ico b.nextHeight parsed.length))
    (hnext : b.nextHeight ≤ parsed.length) (hgen : b.generation = st.generation)
    (hbytes : b.pendingBytes < 2 ^ 64)
    (hdurable : ∀ through ∈ durableThrough, through < parsed.length)
    (hseal : ∀ through ∈ sealThrough, through < parsed.length) :
    ∃ s' st' n, Wrote heightOf records st b.nextHeight s' st' n ∧
      (((∃ e, writeBatches durableThrough sealThrough maxBatchBytes s st b = (s', .error e) ∧
          ¬ e.IsReorg) ∧
        ((∃ height ∈ Finset.Ico b.nextHeight parsed.length, maxBatchBytes < sizeAt parsed height) ∨
          2 ^ 64 ≤ b.generation + (parsed.length - b.nextHeight))) ∨
      ∃ b', writeBatches durableThrough sealThrough maxBatchBytes s st b = (s', .ok (st', b')) ∧
        b'.Tracks parsed records (Finset.Ico n parsed.length) ∧ b'.nextHeight = n ∧
        b'.generation ≤ b.generation + (n - b.nextHeight) ∧ b'.pendingBytes < 2 ^ 64 ∧
        n = max b.nextHeight (durableThrough.elim 0 (· + 1))) := by
  have hlen := hnode.length_le
  have hplen := hnode.parsed_length
  have hrlen := hnode.records_length
  have hlarge : parsed.length + rangeSize ≤ 2 ^ 32 := by
    simp only [rangeSize]
    omega
  -- each batch takes at least the next block
  induction hn : parsed.length - b.nextHeight using Nat.strong_induction_on generalizing s st b with
  | _ n ih =>
  subst hn
  have hwaits : ¬ b.Waits sealThrough maxBatchBytes := by
    rintro ⟨⟨through, hthrough, hle⟩, hready, -⟩
    have := hseal through hthrough
    exact hb.missing (Finset.mem_Ico.mpr ⟨hb.next_le, by omega⟩)
  rcases hb.buildBatch hnode.parsedChain hlarge hnext hbytes durableThrough sealThrough
    maxBatchBytes
    with ⟨⟨e, he⟩, hreason⟩ | ⟨hnone, hreason⟩ | ⟨stop, b₁, hlt, hstop, htook, -, hsome⟩
  · refine ⟨s, st, _, .refl hrep (by omega), .inl ⟨⟨_, writeBatches_of_error he, id⟩, ?_⟩⟩
    rcases hreason with hsize | ⟨hoverflow, through, hthrough, hle⟩
    · exact .inl hsize
    · have := hdurable through hthrough
      exact .inr (by omega)
  · refine ⟨s, st, _, .refl hrep (by omega), .inr ⟨b, writeBatches_of_none hnone, hb, rfl, by omega,
      hbytes, ?_⟩⟩
    have hdone : ∀ through ∈ durableThrough, through < b.nextHeight := by
      intro through hthrough
      by_contra hle
      have := hdurable through hthrough
      rcases hreason with hw | hnot | hnot
      · exact hwaits hw
      · exact hnot (Finset.mem_Ico.mpr ⟨le_rfl, by omega⟩)
      · exact hnot ⟨through, hthrough, by omega⟩
    cases durableThrough with
    | none => simp
    | some through =>
      have := hdone through rfl
      simp only [Option.elim_some]
      omega
  · obtain ⟨last, -, hfinish⟩ := hnode.write hrep hlt (by omega) sealThrough
    rw [← hgen] at hfinish
    have hstep := @writeBatches_of_some ν _ s st _ _ _ _ _ _ hsome
    rcases hfinish with ⟨herror, hnear⟩ | ⟨out, hok, hrest⟩
    · rw [herror] at hstep
      refine ⟨s, st, _, .refl hrep (by omega), .inl ⟨⟨_, hstep, id⟩, .inr ?_⟩⟩
      simp only [NearOverflow, List.length_take, rangeSize, IndexState.withDurableTip] at hnear
      omega
    · obtain ⟨hrep', hgen', hsealed, -⟩ := Finishes.of_ok (.inr ⟨out, hok, hrest⟩) hok
      have hsealedLe := le_sealTarget sealThrough st.sealedEnd (records.take stop).length
      have hsealed' : st.sealedEnd ≤ out.2.sealedEnd := hsealed ▸ hsealedLe
      have hgen'' : out.2.generation = st.generation + 1 := hgen'
      have hfilter : (Finset.Ico b.nextHeight parsed.length).filter (stop ≤ ·) =
          Finset.Ico stop parsed.length := by
        ext height
        simp only [Finset.mem_filter, Finset.mem_Ico]
        omega
      have htracks := htook.tracks.withGeneration (b.generation + 1)
      have hbytes' := htook.pendingBytes_le
      obtain rfl := htook.nextHeight
      rw [hfilter] at htracks
      rw [hok] at hstep
      simp only at hstep
      obtain ⟨s', st', n, hwrote, hresult⟩ := @ih (parsed.length - b₁.nextHeight) (by omega) out.1
        out.2 { b₁ with generation := b.generation + 1 } hrep' htracks hstop
        (by simp only; omega) (by simp only; omega) rfl
      rw [← hstep] at hresult
      simp only at hwrote hresult
      have hle := hwrote.le
      have hgenLe := hwrote.generation_le
      refine ⟨s', st', n, ⟨hwrote.represents, by omega, hwrote.le_length, by omega,
        hsealed'.trans hwrote.sealed_le⟩, ?_⟩
      rcases hresult with ⟨herror, ⟨height, hmem, hsize⟩ | hoverflow⟩ |
        ⟨b', hdone, hb', hnext', hbgen, hbbytes, hn⟩
      · rw [Finset.mem_Ico] at hmem
        exact .inl ⟨herror, .inl ⟨height, Finset.mem_Ico.mpr ⟨by omega, hmem.2⟩, hsize⟩⟩
      · exact .inl ⟨herror, .inr (by omega)⟩
      · refine .inr ⟨b', hdone, hb', hnext', by omega, hbbytes, ?_⟩
        -- the batch ends at or below the last durable height
        obtain ⟨-, through, hthrough, hle'⟩ := htook.taken (b₁.nextHeight - 1) (by omega) (by omega)
        cases hthrough
        simp only [Option.elim_some] at hn ⊢
        omega

/-- The blocks of a chain after the durable tip, or why they are refused. -/
theorem NodeChain.prepareExtension (hserves : src.Serves blocks)
    (hrep : Represents heightOf s st (records.take n)) (hn : n ≤ records.length)
    (config : PipelineConfig) :
    ((∃ e, prepareExtension src st config = .error e ∧ ¬ e.IsReorg) ∧
      ¬ (blocks.length ≤ n + maxBlockReorgHeight ∧ Budget config parsed n st.generation)) ∨
    (n = records.length ∧ prepareExtension src st config = .ok none) ∨
    ∃ visibleTip b, visibleTip + 1 = records.length ∧
      prepareExtension src st config = .ok (some (visibleTip, b)) ∧
      b.Tracks parsed records (Finset.Ico n parsed.length) ∧ b.nextHeight = n ∧
      b.generation = st.generation ∧ b.pendingBytes < 2 ^ 64 := by
  have hlen := hnode.length_le
  have hplen := hnode.parsed_length
  have hrlen := hnode.records_length
  have htake : (records.take n).length = n := by
    rw [List.length_take]
    omega
  have hnext : st.nextHeight = some n := by
    rw [hrep.describes.nextHeight_eq_some hrep.connected, htake]
    exact ⟨rfl, fun _ => by omega⟩
  have hhash : st.durableTip.elim genesisPreviousBlockHash (·.hash) = tipHash (blocks.take n) := by
    rw [← (hnode.toIndexed.take n).tipHash_eq, hrep.describes.tip]
    cases (records.take n).getLast? <;> rfl
  have hpoll := pollCanonicalHead_eq hserves hnode.toIndexed (by omega) n 0 [] (by omega) rfl
    (by simp) le_rfl (by simp) (by simp)
  simp only [Ztreamer.prepareExtension, prepareExtensionBy, hnext, okOr_some, ok_bind, hhash, hpoll]
  by_cases hwindow : blocks.length ≤ n + maxBlockReorgHeight
  case neg =>
    rw [if_neg hwindow]
    exact .inl ⟨⟨_, rfl, id⟩, fun hand => hwindow hand.1⟩
  simp only [if_pos hwindow, okMapError_ok, ok_bind, Nat.add_zero]
  cases hlast : (parsed.drop n).getLast? with
  | none =>
    rw [List.getLast?_eq_none_iff, List.drop_eq_nil_iff] at hlast
    exact .inr (.inl ⟨by omega, rfl⟩)
  | some last =>
    have hheight : last.height.val + 1 = records.length := by
      rw [List.getLast?_eq_getElem?, List.getElem?_drop] at hlast
      have hlt := (List.getElem?_eq_some_iff.mp hlast).1
      rw [hnode.parsedChain.height _ _ hlast, List.length_drop]
      rw [List.length_drop] at hlt
      omega
    obtain ⟨b, hnew, htracks, hbnext, hgen, hbytes, hmax⟩ :=
      @OrderedBuilder.Tracks.new parsed records st n hnext
        (by rw [hrep.describes.tip, Option.map_map]; rfl)
        (by rw [hrep.describes.treeSizes]; rfl) config.maxPendingBytes.val
    obtain rfl := hbnext
    simp only [hnew, ok_bind]
    rcases hnode.pushAll htracks (by omega) hbytes hmax with ⟨⟨e, he⟩, hbudget⟩ |
      ⟨b', hok, htracks', hnext', hgen', hbytes'⟩
    · rw [he]
      exact .inl ⟨⟨_, rfl, id⟩, fun hand => hbudget (hgen ▸ hand.2)⟩
    · rw [hok]
      exact .inr (.inr ⟨_, b', hheight, rfl, htracks', hnext', by omega, hbytes'⟩)

theorem NodeChain.syncExtensionOnce (hserves : src.Serves blocks)
    (hrep : Represents heightOf s st (records.take n)) (hn : n ≤ records.length)
    (config : PipelineConfig) :
    ∃ s' st' n', Wrote heightOf records st n s' st' n' ∧
      (((∃ e, syncExtensionOnce s src st config = (s', .error e) ∧ ¬ e.IsReorg) ∧
        ¬ (blocks.length ≤ n + maxBlockReorgHeight ∧ Budget config parsed n st.generation)) ∨
      (syncExtensionOnce s src st config = (s', .ok (st', records.drop n')) ∧
        n' = max n (records.length - persistDepth))) := by
  have hlen := hnode.length_le
  have hplen := hnode.parsed_length
  have hrlen := hnode.records_length
  have hprepare := hnode.prepareExtension hserves hrep hn config
  unfold Ztreamer.prepareExtension at hprepare
  rcases hprepare with ⟨⟨e, he, hkind⟩, hreason⟩ |
    ⟨heq, hnone⟩ | ⟨visibleTip, b, htip, hsome, htracks, hnext, hgen, hbytes⟩
  · refine ⟨s, st, n, .refl hrep hn, .inl ⟨⟨e, ?_, hkind⟩, hreason⟩⟩
    simp only [Ztreamer.syncExtensionOnce, syncExtensionOnceBy, he]
  · refine ⟨s, st, n, .refl hrep hn, .inr ⟨?_, by omega⟩⟩
    simp only [Ztreamer.syncExtensionOnce, syncExtensionOnceBy, hnone]
    rw [List.drop_eq_nil_of_le (by omega)]
  · subst hnext
    have hbelow : ∀ depth, ∀ through ∈ heightBelow visibleTip depth, through < parsed.length := by
      intro depth through hthrough
      simp only [heightBelow, Option.mem_def, Option.ite_none_right_eq_some, Option.some.injEq]
        at hthrough
      omega
    obtain ⟨s', st', n', hwrote, hresult⟩ :=
      hnode.writeBatches config.maxBatchBytes.val hrep htracks
      (by omega) hgen hbytes (hbelow persistDepth) (hbelow sealDepth)
    refine ⟨s', st', n', hwrote, ?_⟩
    have hle := hwrote.le
    rcases hresult with ⟨⟨e, he, hkind⟩, hreason⟩ | ⟨b', hok, htracks', hnext', hgen', hbytes', hn'⟩
    · refine .inl ⟨⟨e, ?_, hkind⟩, fun hand => hand.2.fits (hgen ▸ hreason)⟩
      simp only [Ztreamer.syncExtensionOnce, syncExtensionOnceBy, hsome, he]
    have hpersist : n' = max b.nextHeight (records.length - persistDepth) := by
      rw [hn', heightBelow]
      split
      · simp only [Option.elim_some]
        omega
      · simp only [Option.elim_none]
        omega
    -- the blocks above the new durable tip are the new head
    rcases htracks'.drainRecords hnode.parsedChain (by simp only [rangeSize]; omega) visibleTip
      config.maxBatchBytes.val (by omega) hbytes' (fun height hge hle => Finset.mem_Ico.mpr
        ⟨by omega, by omega⟩) with ⟨⟨e, he⟩, hlarge⟩ | ⟨b'', hdrain⟩
    · refine .inl ⟨⟨.ingest e, ?_, id⟩, fun hand => hand.2.fits ?_⟩
      · simp only [Ztreamer.syncExtensionOnce, syncExtensionOnceBy, hsome, hok, he]
      · rcases hlarge with ⟨height, hmem, hsize⟩ | hoverflow
        · rw [Finset.mem_Ico] at hmem
          exact .inl ⟨height, Finset.mem_Ico.mpr ⟨by omega, hmem.2⟩, hsize⟩
        · exact .inr (by omega)
    · refine .inr ⟨?_, hpersist⟩
      simp only [Ztreamer.syncExtensionOnce, syncExtensionOnceBy, hsome, hok, hdrain]
      rw [hnext', htip, List.take_length]

end

end Ztreamer
