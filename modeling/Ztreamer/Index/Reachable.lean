import Ztreamer.Index.Install
import Ztreamer.Index.NodeChain

/-! # Reachable stores

    `Call` is one call on an index. `Reachable` is every store that calls reach
    from an empty index, each committed or failed.

    * `Call.run_represents`: a committed call keeps the chain representation,
    * `reachable_storeInvariant`: the rules of the index in every reachable store.
-/

namespace Ztreamer

open Octets Result Connected

variable {ν : Type}

theorem rangesFrom_insert {s s' : Store ν} {start : Nat} {blob : Bytes}
    (h : s'.sealedRanges = s.sealedRanges.insert start blob) : RangesFrom s s' (some blob) := by
  intro key blob' hget
  rw [h, Table.get_put] at hget
  split at hget
  · exact .inr (.inr hget)
  · exact .inl hget

section

variable [Proto.Prost] [Blake3]

/-- One write call on an index, with its arguments. -/
inductive Call (ν : Type) where
  | write (batch : WriteBatch)
  | writeEncoded (batch : EncodedBatch)
  | replaceMutableSuffix (baseGeneration : Nat) (ancestor : BlockId)
      (records : List CompactBlockRecord) (sealThrough : Option Nat)
  | replaceDeepSuffix (baseGeneration : Nat) (commonAncestor : BlockId)
      (replacement : List CompactBlockRecord) (sealThrough : Option Nat)
  | installSealedRange (start : Nat) (blob : Bytes) (info : RangeMeta ν)
  | installCheckedRange (range : CheckedRange) (info : RangeMeta ν)
  | putRangeMeta (start : Nat) (info : RangeMeta ν)

namespace Call

/-- The store that the call commits. -/
def run (c : Call ν) (s : Store ν) : Except IndexError (Store ν) :=
  match c with
  | .write batch => (·.1) <$> s.write batch
  | .writeEncoded batch => (·.1) <$> s.writeEncoded batch
  | .replaceMutableSuffix baseGeneration ancestor records sealThrough =>
    (·.1) <$> s.replaceMutableSuffix baseGeneration ancestor records sealThrough
  | .replaceDeepSuffix baseGeneration commonAncestor replacement sealThrough =>
    (·.1) <$> s.replaceDeepSuffix baseGeneration commonAncestor replacement sealThrough
  | .installSealedRange start blob info => (·.1) <$> s.installSealedRange start blob info
  | .installCheckedRange range info => (·.1) <$> s.installCheckedRange range info
  | .putRangeMeta start info => s.putRangeMeta start info

/-- The call commits the store `s'`, which then has the state `st'`. A write of metadata
    does not change the state. -/
def Commits (c : Call ν) (s s' : Store ν) (st' : IndexState) : Prop :=
  match c with
  | .write batch => s.write batch = .ok (s', st')
  | .writeEncoded batch => s.writeEncoded batch = .ok (s', st')
  | .replaceMutableSuffix baseGeneration ancestor records sealThrough =>
    s.replaceMutableSuffix baseGeneration ancestor records sealThrough = .ok (s', st')
  | .replaceDeepSuffix baseGeneration commonAncestor replacement sealThrough =>
    s.replaceDeepSuffix baseGeneration commonAncestor replacement sealThrough = .ok (s', st')
  | .installSealedRange start blob info => s.installSealedRange start blob info = .ok (s', st')
  | .installCheckedRange range info => s.installCheckedRange range info = .ok (s', st')
  | .putRangeMeta start info => s.putRangeMeta start info = .ok s' ∧ s.getState = .ok st'

/-- The records in the arguments have the heights of their hashes. -/
def Respects (heightOf : HeightOf) : Call ν → Prop
  | .write batch => ∀ r ∈ batch.records, heightOf.allows r.hash r.height.val
  | .writeEncoded batch => ∀ block ∈ batch.blocks, heightOf.allows block.hash block.height
  | .replaceMutableSuffix _ _ records _ => ∀ r ∈ records, heightOf.allows r.hash r.height.val
  | .replaceDeepSuffix _ _ replacement _ => ∀ r ∈ replacement, heightOf.allows r.hash r.height.val
  | .installSealedRange _ blob _ => BlobRespects heightOf blob
  | .installCheckedRange range _ => BlobRespects heightOf range.blob
  | .putRangeMeta _ _ => True

/-- The batches in the arguments come from an ordered builder that was made from
    some state. -/
def FromBuilder : Call ν → Prop
  | .write batch => ∃ st, batch.MadeFrom st
  | .writeEncoded batch => ∃ st source, WriteBatch.MadeFrom st source ∧ source.encode = .ok batch
  | _ => True

/-- The blob that the call installs. -/
def blob? : Call ν → Option Bytes
  | .installSealedRange _ blob _ => some blob
  | .installCheckedRange range _ => some range.blob
  | _ => none

def IsDeepReorg : Call ν → Prop
  | .replaceDeepSuffix .. => True
  | _ => False

end Call

/-- The stores that the allowed calls reach from an empty index. -/
inductive Reachable (Allowed : Call ν → Prop) : Store ν → Prop where
  | empty : Reachable Allowed Store.empty
  | commit {s s' : Store ν} (c : Call ν) : Reachable Allowed s → Allowed c → c.run s = .ok s' →
      Reachable Allowed s'
  /-- A call that fails, also in LMDB itself, discards its transaction. -/
  | fail {s : Store ν} (c : Call ν) : Reachable Allowed s → Allowed c → Reachable Allowed s

/-! ## One call -/

variable {heightOf : HeightOf} {s s' : Store ν} {st : IndexState}
  {chain records : List CompactBlockRecord}

variable {c : Call ν} {Allowed : Call ν → Prop}

theorem Call.run_eq_ok : c.run s = .ok s' ↔ ∃ st', c.Commits s s' st' := by
  cases c with
  | putRangeMeta start info =>
    constructor
    · intro hrun
      have hput : s.putRangeMeta start info = .ok s' := hrun
      simp only [Call.run, Store.putRangeMeta, bind_eq_ok] at hrun
      obtain ⟨-, -, st', hstate, -⟩ := hrun
      exact ⟨st', hput, hstate⟩
    · rintro ⟨st', hput, _⟩
      exact hput
  | _ => simp [Call.run, Call.Commits, map_eq_ok]

/-- The records of an encoded batch have the heights of their hashes when its blocks have. -/
theorem Call.Respects.of_encode {batch : WriteBatch} {encoded : EncodedBatch}
    (hencode : batch.encode = .ok encoded)
    (h : (Call.writeEncoded encoded : Call ν).Respects heightOf) :
    ∀ r ∈ batch.records, heightOf.allows r.hash r.height.val := by
  intro r hr
  obtain ⟨i, hi⟩ := List.mem_iff_getElem?.mp hr
  obtain ⟨block, hblock, hb⟩ := forall₂_getElem? (WriteBatch.encode_eq_ok.mp hencode).1 hi
  obtain ⟨-, hheight, hhash, -⟩ := CompactBlockRecord.encodeBlock_eq_ok.mp hb
  rw [← hheight, ← hhash]
  exact h block (List.mem_of_getElem? hblock)

/-- The call passes in the record. -/
def Call.Brings (c : Call ν) (r : CompactBlockRecord) : Prop :=
  match c with
  | .write batch => r ∈ batch.records
  | .writeEncoded batch => ∃ block ∈ batch.blocks, CompactBlockRecord.decode block.bytes = .ok r
  | .replaceMutableSuffix _ _ records _ => r ∈ records
  | .replaceDeepSuffix _ _ replacement _ => r ∈ replacement
  | .installSealedRange _ blob _ => ∃ i, RangeDecoder.decodeRangeRecord blob i = .ok r
  | .installCheckedRange range _ => ∃ i, RangeDecoder.decodeRangeRecord range.blob i = .ok r
  | .putRangeMeta _ _ => False

/-- The call installs the blob with the row. -/
def Call.Installs (c : Call ν) (blob : Bytes) (info : RangeMeta ν) : Prop :=
  match c with
  | .installSealedRange _ blob' info' => blob' = blob ∧ info' = info
  | .installCheckedRange range info' => range.blob = blob ∧ info' = info
  | _ => False

theorem Call.Installs.blob?_eq {blob : Bytes} {info : RangeMeta ν} (h : c.Installs blob info) :
    c.blob? = some blob := by
  cases c with
  | installSealedRange _ _ _ => exact congrArg some h.1
  | installCheckedRange _ _ => exact congrArg some h.1
  | _ => exact h.elim

/-- The digest that a checked range keeps is that of its blob. -/
theorem CheckedRange.checkBlob_of_checkEntryBlob (range : CheckedRange)
    {entry : ManifestEntry ν} {u : Unit} (h : range.checkEntryBlob entry = .ok u) :
    entry.checkBlob range.blob = .ok () := by
  unfold CheckedRange.checkEntryBlob at h
  split at h
  · cases h
  next hlen =>
    split at h
    next hdigest =>
      exact ManifestEntry.checkBlob_eq_ok.mpr
        ⟨(not_not.mp hlen).symm, range.digest_eq.trans hdigest.symm⟩
    next => cases h

/-- What a committed call wrote: blocks above those of the chain that it kept, a range with
    its row, or a row. Only a deep reorg cuts ranges off. -/
inductive Call.Wrote (heightOf : HeightOf) (s : Store ν) (st : IndexState)
    (chain : List CompactBlockRecord) (s' : Store ν) (st' : IndexState) : Call ν → Prop where
  | blocks {c : Call ν} {bound kept : Nat} {s₁ : Store ν} {st₁ : IndexState}
      {added : List CompactBlockRecord} {sealThrough : Option Nat} :
      CutAt s st bound s₁ st₁ → bound % rangeSize = 0 → bound ≤ kept → kept ≤ chain.length →
      (bound = st.sealedEnd ∨ ∃ baseGeneration common replacement sealThrough,
        c = .replaceDeepSuffix baseGeneration common replacement sealThrough ∧
        bound = min st.sealedEnd (rangeStart common.height) ∧ kept = common.height + 1) →
      c.blob? = none → (∀ r ∈ added, c.Brings r) →
      Finishes heightOf s₁ st₁ (chain.take kept ++ added) sealThrough (.ok (s', st')) →
      Wrote heightOf s st chain s' st' c
  | range {c : Call ν} {blob : Bytes} {info : RangeMeta ν} : c.Installs blob info →
      info.entry.checkBlob blob = .ok () →
      (∀ r i, RangeDecoder.decodeRangeRecord blob i = .ok r → c.Brings r) →
      InstallsOn heightOf s st chain blob info (s', st') → Wrote heightOf s st chain s' st' c
  | row {start : Nat} {info : RangeMeta ν} : s.putRangeMeta start info = .ok s' → st' = st →
      Wrote heightOf s st chain s' st' (.putRangeMeta start info)

section

variable (h : Represents heightOf s st chain) {st' : IndexState}

include h

theorem Represents.wrote_batch {batch : WriteBatch} {encoded : EncodedBatch}
    (hencode : batch.encode = .ok encoded) (hmade : ∃ st, batch.MadeFrom st)
    (hheights : ∀ r ∈ batch.records, heightOf.allows r.hash r.height.val)
    (hwrite : s.writeEncoded encoded = .ok (s', st')) (hblob : c.blob? = none)
    (hbrings : ∀ r ∈ batch.records, c.Brings r) : c.Wrote heightOf s st chain s' st' := by
  obtain ⟨_, hmade⟩ := hmade
  obtain ⟨hne, hchain⟩ := hmade.isChain
  obtain ⟨-, last, hfinish⟩ := h.of_writeEncoded hencode hne hchain hheights hwrite
  rw [← chain.take_length] at hfinish
  exact .blocks (h.cutAt _ _) h.holds.sealed_aligned h.holds.sealed_le le_rfl (.inl rfl) hblob
    hbrings hfinish

/-- Every invariant of the calls is a property of what one of them writes. -/
theorem Call.Commits.wrote (hbuilder : c.FromBuilder) (hrespects : c.Respects heightOf)
    (hcommits : c.Commits s s' st') : c.Wrote heightOf s st chain s' st' := by
  cases c with
  | write batch =>
    have hwrite : s.write batch = .ok (s', st') := hcommits
    simp only [Store.write, bind_eq_ok, okMapError_eq_ok] at hwrite
    obtain ⟨encoded, hencode, hwrite⟩ := hwrite
    exact h.wrote_batch hencode hbuilder hrespects hwrite rfl fun _ hr => hr
  | writeEncoded encoded =>
    obtain ⟨st₀, batch, hmade, hencode⟩ := hbuilder
    exact h.wrote_batch hencode ⟨st₀, hmade⟩ (Call.Respects.of_encode hencode hrespects) hcommits
      rfl fun _ hr => WriteBatch.decode_of_encode hencode hr
  | replaceMutableSuffix baseGeneration ancestor records sealThrough =>
    obtain ⟨-, _, last, hget, hsealed, hfinish⟩ := h.of_mutableReorg hrespects hcommits
    exact .blocks (h.cutAt _ _) h.holds.sealed_aligned hsealed
      (List.getElem?_eq_some_iff.mp hget).1 (.inl rfl) rfl (fun _ hr => hr) hfinish
  | replaceDeepSuffix baseGeneration common replacement sealThrough =>
    obtain ⟨-, _, s₁, st₁, hget, -, -, hcut, hfinish⟩ := h.of_deepReorg hrespects hcommits
    have hle := rangeStart_le common.height
    have haligned : min st.sealedEnd (rangeStart common.height) % rangeSize = 0 := by
      rcases Nat.le_total st.sealedEnd (rangeStart common.height) with hmin | hmin
      · rw [Nat.min_eq_left hmin, h.holds.sealed_aligned]
      · rw [Nat.min_eq_right hmin, rangeStart_mod]
    exact .blocks hcut haligned (by omega) (List.getElem?_eq_some_iff.mp hget).1
      (.inr ⟨_, _, _, _, rfl, rfl, rfl⟩) rfl (fun _ hr => hr) hfinish
  | installSealedRange start blob info =>
    have hinstall := h.of_installSealedRange hrespects hcommits
    simp only [Call.Commits, Store.installSealedRange, bind_eq_ok, okMapError_eq_ok] at hcommits
    obtain ⟨_, -, _, hblob, -⟩ := hcommits
    exact .range ⟨rfl, rfl⟩ hblob (fun r i hr => ⟨i, hr⟩) hinstall
  | installCheckedRange range info =>
    have hinstall := h.of_installCheckedRange hrespects hcommits
    simp only [Call.Commits, Store.installCheckedRange, bind_eq_ok, okMapError_eq_ok] at hcommits
    obtain ⟨_, -, _, hblob, -⟩ := hcommits
    exact .range ⟨rfl, rfl⟩ (range.checkBlob_of_checkEntryBlob hblob) (fun r i hr => ⟨i, hr⟩)
      hinstall
  | putRangeMeta start info =>
    obtain ⟨hput, hstate⟩ := hcommits
    exact .row hput (Except.ok.inj (hstate.symm.trans h.state))

/-- A committed call represents a chain again, with the state that it commits. Only a call
    that keeps the state and the chain keeps the generation. -/
theorem Call.Commits.represents (hbuilder : c.FromBuilder) (hrespects : c.Respects heightOf)
    (hcommits : c.Commits s s' st') :
    (∃ chain', Represents heightOf s' st' chain' ∧
      (st'.generation = st.generation + 1 ∨ st' = st ∧ chain' = chain)) ∧
      RangesFrom s s' c.blob? := by
  cases hcommits.wrote h hbuilder hrespects with
  | blocks hcut _ _ _ _ hnone _ hfinish =>
    obtain ⟨hrep, hgen, -, hranges⟩ := hfinish.of_ok rfl
    rw [hnone]
    refine ⟨⟨_, hrep, .inl (hcut.generation ▸ hgen)⟩, fun start blob hblob => ?_⟩
    refine (hranges start blob hblob).imp_left fun hold => ?_
    rw [hcut.sealedRanges] at hold
    split at hold
    · exact hold
    · cases hold
  | range hinstalls _ _ hinstall =>
    obtain ⟨records, -, hrep, hgen, hranges⟩ := hinstall.installed h
    rw [hinstalls.blob?_eq]
    exact ⟨⟨_, hrep, .inl hgen⟩, rangesFrom_insert hranges⟩
  | row hput hstate =>
    obtain ⟨hrep, hranges⟩ := h.putRangeMeta hput
    exact ⟨⟨_, hstate ▸ hrep, .inr ⟨hstate, rfl⟩⟩, fun start blob hblob => .inl (hranges ▸ hblob)⟩

end

/-- A committed call represents a chain again. -/
theorem Call.run_represents (h : Represents heightOf s st chain) (hbuilder : c.FromBuilder)
    (hrespects : c.Respects heightOf) (hrun : c.run s = .ok s') :
    (∃ st' chain', Represents heightOf s' st' chain') ∧ RangesFrom s s' c.blob? := by
  obtain ⟨st', hcommits⟩ := Call.run_eq_ok.mp hrun
  obtain ⟨⟨chain', hrep, -⟩, hranges⟩ := hcommits.represents h hbuilder hrespects
  exact ⟨⟨st', chain', hrep⟩, hranges⟩

/-- The calls of the invariant: batches come from builders, and a block hash
    determines its height. -/
def Call.Honest (heightOf : HeightOf) (c : Call ν) : Prop :=
  c.FromBuilder ∧ c.Respects heightOf

theorem Call.respects_any (c : Call ν) : c.Respects .any := by
  cases c <;> simp [Call.Respects, HeightOf.any, BlobRespects]

theorem Reachable.represents (hallowed : ∀ c, Allowed c → c.Honest heightOf)
    (h : Reachable Allowed s) : ∃ st chain, Represents heightOf s st chain := by
  induction h with
  | empty => exact ⟨_, _, represents_empty⟩
  | commit c _ hc hrun ih =>
    obtain ⟨st, chain, hrep⟩ := ih
    obtain ⟨hbuilder, hrespects⟩ := hallowed c hc
    exact (Call.run_represents hrep hbuilder hrespects hrun).1
  | fail c _ _ ih => exact ih

theorem Reachable.mono {Allowed' : Call ν → Prop} (h : Reachable Allowed s)
    (hmono : ∀ c, Allowed c → Allowed' c) : Reachable Allowed' s := by
  induction h with
  | empty => exact .empty
  | commit c _ hc hrun ih => exact .commit c ih (hmono c hc) hrun
  | fail c _ hc ih => exact .fail c ih (hmono c hc)

/-- Every sealed range has the property. -/
def Store.AllRanges (P : Bytes → Prop) (s : Store ν) : Prop :=
  ∀ (start : Nat) (blob : Bytes), s.sealedRanges[start]? = some blob → P blob

section

variable {P : Bytes → Prop} (hencoded : ∀ records blob, encodeRange records = .ok blob → P blob)

include hencoded

omit [Proto.Prost] [Blake3] in
theorem Store.AllRanges.of_rangesFrom {installed : Option Bytes} (h : s.AllRanges P)
    (hranges : RangesFrom s s' installed) (hinstalled : ∀ blob ∈ installed, P blob) :
    s'.AllRanges P := by
  intro start blob hblob
  rcases hranges start blob hblob with hold | ⟨records, hnew⟩ | hblob
  · exact h start blob hold
  · exact hencoded records blob hnew
  · exact hinstalled blob hblob

/-- A property of the blobs that the range encoder writes and of those that are installed. -/
theorem Reachable.allRanges (hallowed : ∀ c, Allowed c → c.FromBuilder ∧ ∀ blob ∈ c.blob?, P blob)
    (h : Reachable Allowed s) : s.AllRanges P := by
  induction h with
  | empty =>
    intro start blob hblob
    simp [Store.empty] at hblob
  | commit c hreach hc hrun ih =>
    obtain ⟨hbuilder, hblob⟩ := hallowed c hc
    obtain ⟨st, chain, hrep⟩ := hreach.represents fun c hc => ⟨(hallowed c hc).1, c.respects_any⟩
    exact ih.of_rangesFrom hencoded (Call.run_represents hrep hbuilder c.respects_any hrun).2 hblob
  | fail c _ _ ih => exact ih

end

variable {blocks : List RawIndexBlock} {parsed : List ParsedCompactBlock} {n : Nat}

/-- Writes of its own blocks reach every prefix of a chain, sealed up to any height, with
    no row of metadata. -/
theorem NodeChain.reachable_writes {heightOf : Hash → Nat}
    (hnode : NodeChain heightOf blocks parsed records) (sealThrough : Option Nat)
    (hallowed : ∀ batch : WriteBatch, (Call.write batch : Call ν).Honest heightOf →
      (∀ r ∈ batch.records, r ∈ records) → Allowed (.write batch)) (hn : n ≤ records.length) :
    ∃ (s : Store ν) (st : IndexState), Reachable Allowed s ∧
      Represents heightOf s st (records.take n) ∧ st.sealedEnd = sealTarget sealThrough 0 n ∧
      st.generation = n ∧ ∀ start : Nat, s.rangeMeta[start]? = none := by
  have hlen := hnode.length_le
  have hrlen := hnode.records_length
  -- one batch for each block
  induction n with
  | zero =>
    refine ⟨_, _, .empty, represents_empty, ?_, rfl, fun start => by simp [Store.empty]⟩
    cases sealThrough <;> simp [sealTarget, IndexState.sealedEnd]
  | succ n ih =>
    obtain ⟨s, st, hreach, hrep, hsealed, hgen, hrows⟩ := ih (by omega)
    obtain ⟨last, -, hfinish⟩ := hnode.write hrep (Nat.lt_succ_self n) hn sealThrough
    rcases hfinish with ⟨-, hnear⟩ | ⟨out, hok, hrest⟩
    · simp only [NearOverflow, List.length_take, rangeSize, IndexState.withDurableTip] at hnear
      omega
    obtain ⟨hrep', hgen', hsealed', -⟩ := Finishes.of_ok (.inr ⟨out, hok, hrest⟩) hok
    have hmem : ∀ r ∈ (records.take (n + 1)).drop n, r ∈ records := fun r hr =>
      List.mem_of_mem_take (List.mem_of_mem_drop hr)
    refine ⟨out.1, out.2, .commit (.write _) hreach
      (hallowed _ ⟨⟨st, hnode.madeFrom hrep hn (by omega) sealThrough⟩, ?_⟩ hmem)
      (map_eq_ok.mpr ⟨out, hok, rfl⟩), hrep', ?_, ?_, ?_⟩
    · intro r hr
      exact hnode.connected.heightOf_hash r (hmem r hr)
    · have hend : (st.withDurableTip last.blockId last.endTreeSizes).sealedEnd = st.sealedEnd := rfl
      rw [hsealed', hend, hsealed, List.length_take, Nat.min_eq_left hn]
      exact sealTarget_sealTarget (Nat.le_succ n)
    · rw [hgen']
      exact congrArg (· + 1) hgen
    · intro start
      rw [hrest.2.2.rangeMeta, hrows]

/-- Calls that install nothing reach every prefix of a chain. -/
theorem NodeChain.reachable {heightOf : Hash → Nat}
    (hnode : NodeChain heightOf blocks parsed records)
    (hallowed : ∀ c : Call ν, c.Honest heightOf → c.blob? = none → Allowed c)
    (hn : n ≤ records.length) :
    ∃ (s : Store ν) (st : IndexState), Reachable Allowed s ∧
      Represents heightOf s st (records.take n) ∧ st.sealedEnd = 0 ∧ st.generation = n := by
  obtain ⟨s, st, hreach, hrep, hsealed, hgen, -⟩ :=
    hnode.reachable_writes none (fun _ hhonest _ => hallowed _ hhonest rfl) hn
  exact ⟨s, st, hreach, hrep, hsealed, hgen⟩

theorem reachable_plain (fork : Nat) (hn : n ≤ 2 ^ 31) (sealThrough : Option Nat)
    (hallowed : ∀ batch : WriteBatch, (Call.write batch : Call ν).Honest plainHeight →
      (∀ r ∈ batch.records, r ∈ plainRecords fork n) → Allowed (.write batch)) :
    ∃ (s : Store ν) (st : IndexState), Reachable Allowed s ∧
      Represents plainHeight s st (plainRecords fork n) ∧
      st.sealedEnd = sealTarget sealThrough 0 n ∧ st.generation = n ∧
      ∀ start : Nat, s.rangeMeta[start]? = none := by
  have h := (plainBlocks_nodeChain fork hn).reachable_writes sealThrough hallowed (n := n)
    (by rw [length_branchRecords])
  rwa [List.take_of_length_le (by rw [length_branchRecords])] at h

end

/-! ## The rules of the index -/

/-- The height is at or below the durable tip. -/
def IndexState.Covers (st : IndexState) (height : Nat) : Prop :=
  ∃ tip ∈ st.durableTip, height ≤ tip.height

/-- The rules that apply after each commit, for the store and its state. -/
structure StoreInvariant [Proto.Prost] (s : Store ν) (st : IndexState) : Prop where
  /-- `sealedThrough` is the last height of a range, at or below the tip. -/
  sealed_end : ∀ through ∈ st.sealedThrough, IsRangeEnd through ∧ st.Covers through
  /-- The keys of the sealed ranges are the range starts up to `sealedThrough`. -/
  sealed_keys : ∀ start : Nat, start ∈ s.sealedRanges ↔
    start % rangeSize = 0 ∧ ∃ through ∈ st.sealedThrough, start ≤ through
  /-- The keys of the mutable rows are the heights above `sealedThrough` up to the tip. -/
  mutable_keys : ∀ height : Nat, height ∈ s.mutableBlocks ↔
    (∀ through ∈ st.sealedThrough, through < height) ∧ st.Covers height
  /-- The record at each height has this height and links to the record below it. -/
  reads : ∀ height : Nat, st.Covers height →
    ∃ r, s.read CompactBlockRecord st height = .ok r ∧ r.height.val = height ∧
      ∀ below, below + 1 = height →
        ∃ r', s.read CompactBlockRecord st below = .ok r' ∧ r.previousHash = r'.hash
  /-- The hash entries are those of the blocks up to the tip. -/
  hashes : ∀ (hash : Hash) (height : Nat), s.hashToHeight[hash]? = some height ↔
    st.Covers height ∧ ∃ r, s.read CompactBlockRecord st height = .ok r ∧ r.hash = hash
  /-- The state has the hash and the tree sizes of the tip record. -/
  tip : ∀ tip ∈ st.durableTip, ∃ r, s.read CompactBlockRecord st tip.height = .ok r ∧
    r.hash = tip.hash ∧ r.endTreeSizes = st.treeSizes
  /-- Range metadata is of a sealed range, and its end hash is that of the last block. -/
  range_meta : ∀ (start : Nat) (info : RangeMeta ν), s.rangeMeta[start]? = some info →
    start ∈ s.sealedRanges ∧ ∃ r,
      s.read CompactBlockRecord st (start + (rangeSize - 1)) = .ok r ∧ info.entry.endHash = r.hash

section

variable [Proto.Prost] {heightOf : HeightOf} {s : Store ν} {st : IndexState}
  {chain : List CompactBlockRecord}

theorem Represents.covers_iff (h : Represents heightOf s st chain) {height : Nat} :
    st.Covers height ↔ height < chain.length := by
  constructor
  · rintro ⟨tip, htip, hle⟩
    have := h.describes.tip_height h.connected htip
    omega
  · exact h.describes.exists_tip h.connected

theorem Represents.read_iff (h : Represents heightOf s st chain) {height : Nat}
    {r : CompactBlockRecord} :
    s.read CompactBlockRecord st height = .ok r ↔ chain[height]? = some r :=
  ⟨h.read_eq_ok, h.read⟩

/-- The tables of a chain follow the rules. -/
theorem Represents.storeInvariant (h : Represents heightOf s st chain)
    (hfun : heightOf.Functional) : StoreInvariant s st := by
  have hsealed := h.holds.sealed_le
  have hmod := h.holds.sealed_aligned
  have hthrough : ∀ {through : Nat}, through ∈ st.sealedThrough ↔ st.sealedEnd = through + 1 :=
    IndexState.sealedThrough_eq_some_iff
  -- the rules are about `sealedThrough`, the tables about the end above it
  have hbelow : ∀ {start : Nat}, (∃ through ∈ st.sealedThrough, start ≤ through) ↔
      start < st.sealedEnd := by
    intro start
    constructor
    · rintro ⟨through, hth, hle⟩
      have := hthrough.mp hth
      omega
    · intro hlt
      exact ⟨st.sealedEnd - 1, hthrough.mpr (by omega), by omega⟩
  constructor
  case sealed_end =>
    intro through hth
    have := hthrough.mp hth
    refine ⟨?_, h.covers_iff.mpr (by omega)⟩
    simp only [IsRangeEnd, rangeSize] at hmod ⊢
    omega
  case sealed_keys =>
    intro start
    rw [hbelow, Std.ExtTreeMap.mem_iff_isSome_getElem?, Option.isSome_iff_exists]
    constructor
    · rintro ⟨blob, hblob⟩
      exact h.holds.sealed_key start blob hblob
    · rintro ⟨hstart, hlt⟩
      obtain ⟨blob, hblob, -⟩ := h.holds.sealed_range start hstart hlt
      exact ⟨blob, hblob⟩
  case mutable_keys =>
    intro height
    have habove : (∀ through ∈ st.sealedThrough, through < height) ↔ st.sealedEnd ≤ height := by
      rw [← Nat.not_lt, ← hbelow]
      simp
    rw [habove, h.covers_iff, Std.ExtTreeMap.mem_iff_isSome_getElem?, Option.isSome_iff_exists]
    constructor
    · rintro ⟨bytes, hbytes⟩
      exact h.holds.mutable_key height bytes hbytes
    · rintro ⟨hle, hlt⟩
      obtain ⟨r, bytes, -, hrow, -⟩ := h.holds.mutable_row height hle hlt
      exact ⟨bytes, hrow⟩
  case reads =>
    intro height hcovers
    have hlt := h.covers_iff.mp hcovers
    have hr : chain[height]? = some chain[height] := List.getElem?_eq_getElem hlt
    refine ⟨_, h.read hr, h.connected.height_eq hr, ?_⟩
    rintro below rfl
    exact ⟨chain[below], h.read (List.getElem?_eq_getElem (by omega)),
      ((List.isChain_iff_getElem.mp h.connected.isChain) below hlt).2⟩
  case hashes =>
    intro hash height
    rw [h.holds.hash_iff hfun, h.covers_iff]
    simp only [h.read_iff]
    constructor
    · rintro ⟨r, hr, hhash⟩
      exact ⟨(List.getElem?_eq_some_iff.mp hr).1, r, hr, hhash⟩
    · rintro ⟨-, hr⟩
      exact hr
  case tip =>
    intro tip htip
    obtain ⟨last, hlast, rfl⟩ := h.describes.tip_eq_some_iff.mp htip
    have hheight := h.connected.getLast_height hlast
    refine ⟨last, h.read ?_, rfl, ((h.describes.tip_of_getLast hlast).2).symm⟩
    rw [List.getLast?_eq_getElem?, ← hheight, Nat.add_sub_cancel] at hlast
    exact hlast
  case range_meta =>
    intro start info hinfo
    obtain ⟨hstart, hlt, hend⟩ := h.holds.range_meta start info hinfo
    obtain ⟨r, hr, hhash⟩ := hend hfun
    obtain ⟨blob, hblob, -⟩ := h.holds.sealed_range start hstart hlt
    refine ⟨?_, r, h.read hr, hhash⟩
    rw [Std.ExtTreeMap.mem_iff_isSome_getElem?, hblob]
    rfl

/-- Every store that honest calls reach has a readable state and follows the rules. -/
theorem reachable_storeInvariant [Blake3] (heightOf : Hash → Nat) (s : Store ν)
    (h : Reachable (Call.Honest heightOf) s) : ∃ st, s.getState = .ok st ∧ StoreInvariant s st := by
  obtain ⟨st, chain, hrep⟩ := h.represents fun _ hc => hc
  exact ⟨st, hrep.state, hrep.storeInvariant (HeightOf.functional_ofFun heightOf)⟩

/-! ## Generations -/

variable [Blake3] {s' : Store ν} {st' : IndexState} {Allowed : Call ν → Prop}

/-- The stores that the allowed calls reach from a store. -/
def Later (Allowed : Call ν → Prop) : Store ν → Store ν → Prop :=
  Relation.ReflTransGen fun s s' => ∃ c, Allowed c ∧ c.run s = .ok s'

theorem Reachable.later (h : Reachable Allowed s) : Later Allowed Store.empty s := by
  induction h with
  | empty => exact .refl
  | commit c _ hc hrun ih => exact ih.tail ⟨c, hc, hrun⟩
  | fail _ _ _ ih => exact ih

theorem Later.represents (h : Represents heightOf s st chain)
    (hlater : Later (Call.Honest heightOf) s s') : ∃ st' chain', Represents heightOf s' st' chain' ∧
      (st.generation < st'.generation ∨ st' = st ∧ chain' = chain) := by
  induction hlater with
  | refl => exact ⟨st, chain, h, .inr ⟨rfl, rfl⟩⟩
  | tail _ hstep ih =>
    obtain ⟨st₁, chain₁, h₁, hgen⟩ := ih
    obtain ⟨c, ⟨hbuilder, hrespects⟩, hrun⟩ := hstep
    obtain ⟨st₂, hcommits⟩ := Call.run_eq_ok.mp hrun
    obtain ⟨⟨chain₂, h₂, hgen' | ⟨rfl, rfl⟩⟩, -⟩ := hcommits.represents h₁ hbuilder hrespects
    · exact ⟨st₂, chain₂, h₂, .inl (by rcases hgen with hlt | ⟨rfl, -⟩ <;> omega)⟩
    · exact ⟨st₂, chain₂, h₂, hgen⟩

/-- A later store has a larger generation, or the same state and the same blocks. So the
    generation that a write checks is enough to know the state that it was built on. -/
theorem generation_determines (hreach : Reachable (Call.Honest heightOf) s)
    (hst : s.getState = .ok st) (hlater : Later (Call.Honest heightOf) s s')
    (hst' : s'.getState = .ok st') : st.generation < st'.generation ∨ st' = st ∧
      ∀ (height : Nat) (r : CompactBlockRecord), s'.read CompactBlockRecord st height = .ok r ↔
        s.read CompactBlockRecord st height = .ok r := by
  obtain ⟨_, chain, h⟩ := hreach.represents fun _ hc => hc
  cases h.state.symm.trans hst
  obtain ⟨_, chain', h', hgen⟩ := hlater.represents h
  cases h'.state.symm.trans hst'
  refine hgen.imp_right ?_
  rintro ⟨rfl, rfl⟩
  exact ⟨rfl, fun height r => by rw [h'.read_iff, h.read_iff]⟩

end

section

attribute [local instance] Proto.wireDecoder zeroDigest

/-- An index with three blocks follows the rules. -/
theorem reachable_storeInvariant_three : ∃ (s : Store Unit) (st : IndexState),
    Reachable (Call.Honest plainHeight) s ∧ s.getState = .ok st ∧ st.Covers 2 ∧
      StoreInvariant s st := by
  obtain ⟨s, st, hreach, hrep, -⟩ :=
    reachable_plain (ν := Unit) 100 (n := 3) (by decide) none fun _ hc _ => hc
  obtain ⟨st', hst, hinv⟩ := reachable_storeInvariant plainHeight s hreach
  obtain rfl : st' = st := Except.ok.inj (hst.symm.trans hrep.state)
  exact ⟨s, st', hreach, hst, hrep.covers_iff.mpr (by simp), hinv⟩

/-- An empty index, and the index after three blocks. -/
theorem generation_determines_three : ∃ (s : Store Unit) (st : IndexState),
    Later (Call.Honest plainHeight) Store.empty s ∧ s.getState = .ok st ∧ 0 < st.generation := by
  obtain ⟨s, st, hreach, hrep, -, hgen⟩ :=
    (plainBlocks_nodeChain 100 (n := 3) (by decide)).reachable
    (ν := Unit) (fun _ hc _ => hc) (n := 3) (by simp)
  refine ⟨s, st, hreach.later, hrep.state, ?_⟩
  rcases generation_determines .empty rfl hreach.later hrep.state with hlt | ⟨rfl, -⟩
  · exact hlt
  · cases hgen

end

end Ztreamer
