import Ztreamer.Import.World

/-! # Concurrent writers

    Any number of writers share one index: builders that carry a tip and a
    generation of their own, head followers that replace a suffix, recoveries, and
    imports that install checked ranges. Each of them has read some store that the
    index had, and writes to the store that it has now. A call that fails changes
    nothing.

    * `Writers.Step`: one call of one writer,
    * `Writers.Inv`: what every store and every head keeps,
    * `writers_keep_tree_sizes`: the tree sizes and the generation in every run.
-/

namespace Ztreamer

open Octets Result Connected

variable {ν : Type}

/-! ## The model -/

/-- The index, the stores that it had and a writer can have read, and the volatile
    heads of the followers. -/
structure Writers (ν : Type) where
  index : Store ν
  past : List (Store ν)
  heads : List (List CompactBlockRecord)

namespace Writers

def start : Writers ν := ⟨Store.empty, [Store.empty], [[]]⟩

def commit (c : Writers ν) (s : Store ν) : Writers ν := { c with index := s, past := s :: c.past }

def follow (c : Writers ν) (head : List CompactBlockRecord) : Writers ν :=
  { c with heads := head :: c.heads }

end Writers

/-- The source answers blocks of the world. -/
def MovingSource.AnswersIn (src : MovingSource) (world : BlockWorld) : Prop :=
  ∀ (time height : Nat) (raw : RawIndexBlock) (p : ParsedCompactBlock),
    (src time).block height = .ok (some raw) → parseBlock raw = .ok p → world.Has p

section

variable [Proto.Prost] [Blake3]

/-- The records of a blob are those of the blocks with their hashes. -/
def BlockWorld.RecordsBlob (world : BlockWorld) (blob : Bytes) : Prop :=
  ∀ d, RangeDecoder.new blob = .ok d → ∀ (i : Nat) (r : CompactBlockRecord),
    d.record i = .ok r → world.Records r

/-- One call of one writer. The label is the generation that a write is based on. -/
inductive Writers.Step (world : BlockWorld) (c : Writers ν) : Option Nat → Writers ν → Prop where
  /-- A batch of a builder that was made from a store of the past. -/
  | write {s₀ s' : Store ν} {st₀ st' : IndexState} {b b' : OrderedBuilder} {batch : WriteBatch}
      (durableThrough sealThrough : Option Nat) (maxBatchBytes : Nat) :
      s₀ ∈ c.past → s₀.getState = .ok st₀ → OrderedBuilder.FedFrom world.Has st₀ b →
      b.buildBatch durableThrough sealThrough maxBatchBytes = .ok (b', some batch) →
      c.index.write batch = .ok (s', st') → Step world c (some batch.baseGeneration) (c.commit s')
  /-- The records that an extension does not write are a head. -/
  | drain {s₀ : Store ν} {st₀ : IndexState} {b b' : OrderedBuilder}
      {records : List CompactBlockRecord} (through maxBatchBytes : Nat) :
      s₀ ∈ c.past → s₀.getState = .ok st₀ → OrderedBuilder.FedFrom world.Has st₀ b →
      b.drainRecords through maxBatchBytes = .ok (b', records) →
        Step world c none (c.follow records)
  | replaceSuffix {s₀ s' : Store ν} {st' : IndexState} {head head' : List CompactBlockRecord}
      {r : Replacement} (src : MovingSource) (time : Nat) (config : PipelineConfig)
      (oldVisibleTip : Nat) : s₀ ∈ c.past → head ∈ c.heads → src.AnswersIn world →
      prepareReplacement s₀ (src.pollAt time) head config oldVisibleTip = .ok r →
      persistSuffix c.index r.state r.oldDurableTip r.ancestor r.canonical r.visibleTip =
        .ok (s', st', head') →
      Step world c (some r.state.generation) ((c.commit s').follow head')
  | recoverDeepReorg {s₀ s' : Store ν} {st' : IndexState} {head head' : List CompactBlockRecord}
      {r : Recovery} (block : Nat → Except HeadError (Option RawIndexBlock)) (src : MovingSource)
      (time : Nat) (config : PipelineConfig) : s₀ ∈ c.past → head ∈ c.heads →
      src.AnswersIn world → prepareRecovery s₀ block (src.pollAt time) head config = .ok r →
      persistRecovery c.index r = .ok (s', st', head') →
      Step world c (some r.state.generation) ((c.commit s').follow head')
  /-- A range that the check accepted against the tip of a store of the past. -/
  | install {s₀ s' : Store ν} {st₀ st' : IndexState} {b : RangeBlob ν} {link : RangeLink}
      {checked : CheckedRange} (info : RangeMeta ν) : s₀ ∈ c.past → s₀.getState = .ok st₀ →
      world.RecordsBlob b.bytes →
      b.checkWith st₀.tipLink () (fun _ _ => .ok ()) = .ok (link, checked, ()) →
      c.index.installCheckedRange checked info = .ok (s', st') → Step world c none (c.commit s')
  | putRangeMeta {s' : Store ν} (start : Nat) (info : RangeMeta ν) :
      c.index.putRangeMeta start info = .ok s' → Step world c none (c.commit s')
  /-- A call that fails, as a stale write does. -/
  | fail (generation : Option Nat) : Step world c generation c

/-- What the calls of the writers reach from an empty index. -/
inductive Writers.Reached (world : BlockWorld) : Writers ν → Prop where
  | start : Reached world Writers.start
  | step {c c' : Writers ν} {generation : Option Nat} : Reached world c →
      c.Step world generation c' → Reached world c'

end

/-! ## One call -/

variable {world : BlockWorld}

/-- A poll reads blocks of the world. -/
theorem MovingSource.AnswersIn.pollAt {src : MovingSource} (h : src.AnswersIn world) (time : Nat) :
    ∀ start previousHash known suffix, src.pollAt time start previousHash known = .ok suffix →
      ∀ block ∈ suffix.blocks, world.Has block := by
  intro start previousHash known suffix hpoll block hblock
  obtain ⟨⟨_, time'⟩, hpolled, rfl⟩ := map_eq_ok.mp hpoll
  obtain ⟨_, _, raw, -, -, -, hread, hparse, -⟩ := MovingSource.pollCanonicalHead_spec hpolled
  obtain ⟨i, hi⟩ := List.mem_iff_getElem?.mp hblock
  obtain ⟨b, hb, hparsed⟩ := forall₂_getElem? (mapM_eq_ok.mp hparse).flip hi
  obtain ⟨t, hanswer⟩ := hread.getElem? hb
  exact h t _ b block hanswer hparsed

/-- Exact records above the end of a chain, each with its own additions. -/
theorem BlockWorld.Ends.exact_of_exactFrom {link : RangeLink} {n : Nat}
    {records : List CompactBlockRecord} (h : world.Ends link n) (hexact : ExactFrom link records)
    (hheights : ∀ (i : Nat) (r : CompactBlockRecord), records[i]? = some r → r.height.val = n + i)
    (hrecords : ∀ r ∈ records, world.Records r) : ∀ r ∈ records, world.Exact r := by
  induction records generalizing link n with
  | nil => simp
  | cons r records ih =>
    obtain ⟨hprevious, hadd, hrest⟩ := hexact
    rw [List.forall_mem_cons] at hrecords
    have hheight : r.height.val = n := hheights 0 r rfl
    have hr : world.Exact r := by
      rw [← hheight] at h
      exact h.exact hrecords.1 (fun _ => hprevious) hadd
    have hnext := hr.ends
    rw [hheight] at hnext
    rw [List.forall_mem_cons]
    refine ⟨hr, ih hnext hrest ?_ hrecords.2⟩
    intro i r' hr'
    have := hheights (i + 1) r' (by simpa using hr')
    omega

section

variable [Proto.Prost] {s : Store ν} {st : IndexState} {chain : List CompactBlockRecord}

/-- A write that is based on a generation raises it by one. -/
structure Store.Advances (world : BlockWorld) (s : Store ν) (st : IndexState) (generation : Nat)
    (out : Store ν × IndexState) : Prop where
  based : st.generation = generation
  raised : out.2.generation = generation + 1
  holds : ∃ chain, out.1.HoldsExact world out.2 chain

namespace Store.HoldsExact

variable (h : s.HoldsExact world st chain)

include h

theorem write {batch : WriteBatch} (hne : batch.records ≠ [])
    (hchain : batch.records.IsChain CompactBlockRecord.Precedes)
    (hexact : ∀ r ∈ batch.records, world.Exact r) {out : Store ν × IndexState}
    (hwrite : s.write batch = .ok out) : s.Advances world st batch.baseGeneration out := by
  simp only [Store.write, bind_eq_ok, okMapError_eq_ok] at hwrite
  obtain ⟨encoded, hencode, hwrite⟩ := hwrite
  obtain ⟨hgen, last, hfinish⟩ :=
    h.represents.of_writeEncoded hencode hne hchain (fun _ _ => trivial) hwrite
  obtain ⟨hrep, hraised, -⟩ := hfinish.of_ok rfl
  refine ⟨hgen, by rw [hraised, ← hgen]; rfl, chain ++ batch.records, hrep, ?_⟩
  intro r hr
  rcases List.mem_append.mp hr with hr | hr
  · exact h.exact r hr
  · exact hexact r hr

variable {records : List CompactBlockRecord} {out : Store ν × IndexState}

theorem exact_replaced (hexact : ∀ r ∈ records, world.Exact r) (height : Nat) :
    ∀ r ∈ replaced chain height records, world.Exact r := by
  intro r hr
  rcases List.mem_append.mp hr with hr | hr
  · exact h.exact r (List.mem_of_mem_take hr)
  · exact hexact r hr

variable {generation : Nat} {sealThrough : Option Nat} {s' : Store ν} {st' : IndexState}
  {head' : List CompactBlockRecord}

theorem replaceMutableSuffix {ancestor : BlockId} (hexact : ∀ r ∈ records, world.Exact r)
    (hok : s.replaceMutableSuffix generation ancestor records sealThrough = .ok out) :
    s.Advances world st generation out := by
  obtain ⟨hgen, _, last, -, -, hfinish⟩ := h.represents.of_mutableReorg (fun _ _ => trivial) hok
  obtain ⟨hrep, hraised, -⟩ := hfinish.of_ok rfl
  exact ⟨hgen, by rw [hraised, ← hgen]; rfl, _, hrep, h.exact_replaced hexact _⟩

theorem replaceDeepSuffix {common : BlockId} (hexact : ∀ r ∈ records, world.Exact r)
    (hok : s.replaceDeepSuffix generation common records sealThrough = .ok out) :
    s.Advances world st generation out := by
  obtain ⟨hgen, _, s₁, st₁, -, -, -, hcut, hfinish⟩ :=
    h.represents.of_deepReorg (fun _ _ => trivial) hok
  obtain ⟨hrep, hraised, -⟩ := hfinish.of_ok rfl
  exact ⟨hgen, by rw [hraised, hcut.generation, hgen], _, hrep, h.exact_replaced hexact _⟩

/-- A reconciliation writes nothing, or it advances the generation. -/
theorem persistSuffix {r : Replacement} (hexact : ∀ record ∈ r.canonical, world.Exact record)
    (hok : Ztreamer.persistSuffix s r.state r.oldDurableTip r.ancestor r.canonical r.visibleTip =
      .ok (s', st', head')) :
    (s' = s ∨ s.Advances world st r.state.generation (s', st')) ∧
      ∀ record ∈ head', world.Exact record := by
  simp only [Ztreamer.persistSuffix] at hok
  split at hok
  · obtain ⟨⟨s₁, st₁⟩, hreplace, hok⟩ := bind_eq_ok.mp hok
    obtain ⟨tip, -, hok⟩ := bind_eq_ok.mp hok
    cases hok
    refine ⟨.inr (h.replaceMutableSuffix ?_ (okMapError_eq_ok.mp hreplace)), ?_⟩
    · intro record hrecord
      exact hexact record (List.mem_of_mem_filter hrecord)
    · intro record hrecord
      exact hexact record (List.mem_of_mem_filter hrecord)
  · obtain ⟨_, hsame, hok⟩ := bind_eq_ok.mp hok
    cases hsame
    obtain ⟨tip, -, hok⟩ := bind_eq_ok.mp hok
    cases hok
    refine ⟨.inl rfl, ?_⟩
    intro record hrecord
    exact hexact record (List.mem_of_mem_filter hrecord)

theorem persistRecovery {r : Recovery} (hexact : ∀ record ∈ r.canonical, world.Exact record)
    (hok : Ztreamer.persistRecovery s r = .ok (s', st', head')) :
    s.Advances world st r.state.generation (s', st') ∧ ∀ record ∈ head', world.Exact record := by
  simp only [Ztreamer.persistRecovery, bind_eq_ok, okMapError_eq_ok, pure_eq_ok, Except.ok.injEq,
    Prod.exists, Prod.mk.injEq] at hok
  obtain ⟨s₁, st₁, hreplace, tip, -, rfl, rfl, rfl⟩ := hok
  refine ⟨h.replaceDeepSuffix ?_ hreplace, ?_⟩
  · intro record hrecord
    exact hexact record (List.mem_of_mem_filter hrecord)
  · intro record hrecord
    exact hexact record (List.mem_of_mem_filter hrecord)

/-- An installed range was checked against another store, whose tip has the hash of
    this tip. -/
theorem install [Blake3] {st₀ : IndexState} {n : Nat} (hst₀ : world.Ends st₀.tipLink n)
    {b : RangeBlob ν} (hblob : world.RecordsBlob b.bytes) {link : RangeLink}
    {checked : CheckedRange}
    (hcheck : b.checkWith st₀.tipLink () (fun _ _ => .ok ()) = .ok (link, checked, ()))
    {info : RangeMeta ν} (hinstall : s.installCheckedRange checked info = .ok out) :
    ∃ chain, out.1.HoldsExact world out.2 chain := by
  obtain ⟨first, rest, haccepts, -, -, hbytes, -, hchain⟩ := RangeBlob.checkWith_eq_ok hcheck
  have hrespects : BlobRespects .any checked.blob := fun _ _ _ _ _ => trivial
  obtain ⟨records, hrecords, hrep, -⟩ := h.represents.installCheckedRange hrespects hinstall
  rw [hbytes] at hrecords
  obtain rfl := hrecords.unique haccepts.stored
  -- the range links to this tip and to the tip that it was checked against
  have hlink : st₀.tipLink.endHash = st.tipLink.endHash := by
    simp only [Store.installCheckedRange, bind_eq_ok, ensure_eq_ok] at hinstall
    obtain ⟨w, hstart, -, -, -, hlinks, -⟩ := hinstall
    obtain ⟨rfl, -⟩ := h.represents.startInstall_eq_ok hstart
    rw [hchain] at hlinks
    exact haccepts.exact.1.symm.trans hlinks.1
  obtain ⟨-, hsame⟩ := hst₀.unique h.ends hlink
  have hexact := haccepts.exact
  rw [hsame] at hexact
  refine ⟨chain ++ first :: rest, hrep, ?_⟩
  intro r hr
  rcases List.mem_append.mp hr with hr | hr
  · exact h.exact r hr
  · apply h.ends.exact_of_exactFrom hexact hrecords.height _ r hr
    obtain ⟨d, hnew, hread⟩ := hrecords.decoder
    intro r hr
    obtain ⟨i, hi⟩ := List.mem_iff_getElem?.mp hr
    exact hblob d hnew i r (hread i r hi)

end Store.HoldsExact

end

/-! ## Runs -/

section

variable [Proto.Prost]

/-- Every store of the past represents a chain of exact records, and every head is of
    exact records. -/
structure Writers.Inv (world : BlockWorld) (c : Writers ν) : Prop where
  index : c.index ∈ c.past
  past : ∀ s ∈ c.past, ∃ st chain, s.HoldsExact world st chain
  heads : ∀ head ∈ c.heads, ∀ r ∈ head, world.Exact r

/-- What a step does to the index. -/
def Writers.Moves (c : Writers ν) (generation : Option Nat) (c' : Writers ν) : Prop :=
  ∀ g ∈ generation, c'.index = c.index ∨ ∃ st st', c.index.getState = .ok st ∧
    c'.index.getState = .ok st' ∧ st.generation = g ∧ st'.generation = g + 1

namespace Writers.Inv

variable {c c' : Writers ν}

theorem start : (Writers.start : Writers ν).Inv world where
  index := List.mem_singleton_self _
  past s hs := by
    obtain rfl := List.mem_singleton.mp hs
    exact ⟨{}, [], represents_empty, by simp⟩
  heads head hhead := by
    obtain rfl := List.mem_singleton.mp hhead
    simp

variable {s : Store ν} {st : IndexState} {chain : List CompactBlockRecord}

theorem commit (h : c.Inv world) (hs : s.HoldsExact world st chain) : (c.commit s).Inv world where
  index := List.mem_cons_self
  past s' hs' := by
    rcases List.mem_cons.mp hs' with rfl | hs'
    · exact ⟨st, chain, hs⟩
    · exact h.past s' hs'
  heads := h.heads

theorem follow (h : c.Inv world) {head : List CompactBlockRecord}
    (hhead : ∀ r ∈ head, world.Exact r) : (c.follow head).Inv world :=
  ⟨h.index, h.past, List.forall_mem_cons.mpr ⟨hhead, h.heads⟩⟩

/-- The state that a writer has read is that of the chain. -/
theorem holds (h : c.Inv world) (hs : s ∈ c.past) (hst : s.getState = .ok st) :
    ∃ chain, s.HoldsExact world st chain := by
  obtain ⟨st', chain, hholds⟩ := h.past s hs
  obtain rfl : st' = st := Except.ok.inj (hholds.represents.state.symm.trans hst)
  exact ⟨chain, hholds⟩

/-- A write that advances the generation keeps the invariant. -/
theorem advance (h : c.Inv world) (hindex : c.index.HoldsExact world st chain) {generation : Nat}
    {s' : Store ν} {st' : IndexState} (hadvances : c.index.Advances world st generation (s', st')) :
    (c.commit s').Inv world ∧ c.Moves (some generation) (c.commit s') := by
  obtain ⟨chain', hholds⟩ := hadvances.holds
  refine ⟨h.commit hholds, ?_⟩
  intro g hg
  obtain rfl := Option.some.inj hg
  exact .inr ⟨st, st', hindex.represents.state, hholds.represents.state, hadvances.based,
    hadvances.raised⟩

theorem step [Blake3] (h : c.Inv world) {generation : Option Nat}
    (hstep : c.Step world generation c') : c'.Inv world ∧ c.Moves generation c' := by
  obtain ⟨st, chain, hindex⟩ := h.past c.index h.index
  cases hstep with
  | write durableThrough sealThrough maxBatchBytes hs₀ hst₀ hfed hbuild hwrite =>
    -- the batch was built on a state of the past; its records are exact all the same
    obtain ⟨chain₀, hholds₀⟩ := h.holds hs₀ hst₀
    obtain ⟨-, hexact⟩ := (hfed.stands hholds₀.stands).buildBatch hbuild
    obtain ⟨blocks, b₁, htakes, hne, -⟩ := OrderedBuilder.buildBatch_eq_some hbuild
    have hchain := (htakes.isChain hfed.keyed).1
    exact h.advance hindex (hindex.write hne hchain (hexact _ rfl) hwrite)
  | drain through maxBatchBytes hs₀ hst₀ hfed hdrain =>
    obtain ⟨chain₀, hholds₀⟩ := h.holds hs₀ hst₀
    exact ⟨h.follow ((hfed.stands hholds₀.stands).drainRecords hdrain), fun _ _ => .inl rfl⟩
  | @replaceSuffix s₀ _ _ _ _ r src time config oldVisibleTip hs₀ hhead hsrc hprepare hpersist =>
    obtain ⟨st₀, chain₀, hholds₀⟩ := h.past s₀ hs₀
    obtain ⟨-, hexact⟩ := hholds₀.prepareReplacement (h.heads _ hhead)
      (src.pollAt_retainsKnown time) (hsrc.pollAt time) hprepare
    obtain ⟨hwritten, hhead'⟩ := hindex.persistSuffix hexact hpersist
    rcases hwritten with rfl | hadvances
    · exact ⟨(h.commit hindex).follow hhead', fun _ _ => .inl rfl⟩
    · obtain ⟨hinv, hmoves⟩ := h.advance hindex hadvances
      exact ⟨hinv.follow hhead', hmoves⟩
  | @recoverDeepReorg s₀ _ _ _ _ r block src time config hs₀ hhead hsrc hprepare hpersist =>
    obtain ⟨st₀, chain₀, hholds₀⟩ := h.past s₀ hs₀
    obtain ⟨-, hexact⟩ := hholds₀.prepareRecovery (h.heads _ hhead) (hsrc.pollAt time) hprepare
    obtain ⟨hadvances, hhead'⟩ := hindex.persistRecovery hexact hpersist
    obtain ⟨hinv, hmoves⟩ := h.advance hindex hadvances
    exact ⟨hinv.follow hhead', hmoves⟩
  | install info hs₀ hst₀ hblob hcheck hinstall =>
    obtain ⟨chain₀, hholds₀⟩ := h.holds hs₀ hst₀
    obtain ⟨chain', hholds⟩ := hindex.install hholds₀.ends hblob hcheck hinstall
    exact ⟨h.commit hholds, fun _ hg => by cases hg⟩
  | putRangeMeta start info hput =>
    have hrep := (hindex.represents.putRangeMeta hput).1
    exact ⟨h.commit ⟨hrep, hindex.exact⟩, fun _ hg => by cases hg⟩
  | fail => exact ⟨h, fun _ _ => .inl rfl⟩

theorem of_reached [Blake3] (h : c.Reached world) : c.Inv world := by
  induction h with
  | start => exact .start
  | step _ hstep ih => exact (ih.step hstep).1

end Writers.Inv

/-- After every commit, each stored record adds exactly its own additions to the tree
    sizes of the record below it. A write that is based on a generation changes the
    index only at that generation, and raises it by one. -/
theorem writers_keep_tree_sizes [Blake3] (world : BlockWorld) (c : Writers ν)
    (hc : c.Reached world) :
    (∃ st, c.index.getState = .ok st ∧ ∀ height, st.Covers height →
      ∃ r, c.index.read CompactBlockRecord st height = .ok r ∧
        (height = 0 → (default : TreeSizes).checkedAdd r.additions = some r.endTreeSizes) ∧
        ∀ below, below + 1 = height → ∃ r', c.index.read CompactBlockRecord st below = .ok r' ∧
          r'.endTreeSizes.checkedAdd r.additions = some r.endTreeSizes) ∧
    ∀ (generation : Option Nat) (c' : Writers ν), c.Step world generation c' →
      c.Moves generation c' := by
  have hinv := Writers.Inv.of_reached hc
  refine ⟨?_, fun generation c' hstep => (hinv.step hstep).2⟩
  obtain ⟨st, chain, hindex⟩ := hinv.past c.index hinv.index
  refine ⟨st, hindex.represents.state, ?_⟩
  intro height hcovers
  have hlt := hindex.represents.covers_iff.mp hcovers
  have hr := List.getElem?_eq_getElem hlt
  have hadd := BlockWorld.exactFrom_chain hindex.represents.connected hindex.exact hr
  refine ⟨_, hindex.represents.read hr, ?_, ?_⟩
  · intro hzero
    subst hzero
    exact hadd
  · intro below hbelow
    subst hbelow
    have hr' : chain[below]? = some chain[below] := List.getElem?_eq_getElem (by omega)
    refine ⟨_, hindex.represents.read hr', ?_⟩
    rw [RangeLink.after, getLast?_take_succ hr'] at hadd
    exact hadd

end

/-! ## A race of two writers -/

/-- The fork of a hash: the branch in it, or any fork above the height on the main chain. -/
def plainFork (hash : Hash) : Nat :=
  if beNat hash.val / 2 ^ 33 = 0 then plainHeight hash + 1 else beNat hash.val / 2 ^ 33 - 1

/-- The blocks of all chains of blocks with one output. -/
def branchWorld : BlockWorld where
  blockOf hash :=
    if plainHash (plainFork hash) (plainHeight hash) = hash then
      some (branchParsed 1 (plainFork hash) (plainHeight hash))
    else none
  parsed hash p h := by
    split at h
    · obtain rfl := Option.some.inj h
      exact ⟨by assumption, branchRaw 1 (plainFork hash) (plainHeight hash),
        parseBlock_branchRaw (by decide) _ _⟩
    · cases h
  genesis := if_neg (by decide)

theorem branchWorld_has (fork : Nat) {height : Nat} (hheight : height < 2 ^ 32) :
    branchWorld.Has (branchParsed 1 fork height) := by
  have hround := @plainHeight_plainHash fork height hheight
  have hsame : plainHash (plainFork (plainHash fork height)) height = plainHash fork height := by
    rw [plainHash_eq_iff hheight, plainFork, hround, beNat_plainHash hheight]
    split <;> split <;> omega
  have hparent := (plainHash_inj hheight hheight hsame).2
  show (if plainHash (plainFork (plainHash fork height)) (plainHeight (plainHash fork height)) =
    plainHash fork height then _ else none) = _
  rw [hround, if_pos hsame]
  simp only [hround, branchParsed, hsame, hparent]

section

attribute [local instance] Proto.wireDecoder zeroDigest

/-- A builder made from the index writes the next block of a chain. -/
theorem Writers.exists_step {c : Writers Unit} {st : IndexState} {fork n length : Nat}
    (hlength : length ≤ 2 ^ 31)
    (h : Represents plainHeight c.index st ((branchRecords 1 fork length).take n))
    (hindex : c.index ∈ c.past) (hn : n < length) (hgen : st.generation ≤ 2 ^ 32) :
    ∃ (s : Store Unit) (st' : IndexState) (b b' : OrderedBuilder) (batch : WriteBatch),
      Represents plainHeight s st' ((branchRecords 1 fork length).take (n + 1)) ∧
      st'.generation = st.generation + 1 ∧ batch.baseGeneration = st.generation ∧
      OrderedBuilder.FedFrom branchWorld.Has st b ∧
      b.buildBatch (some n) none maxRecordBytes = .ok (b', some batch) ∧
      c.Step branchWorld (some st.generation) (c.commit s) := by
  have hnode := @branchBlocks_nodeChain fork 1 length (by decide) hlength (by omega)
  have hcount : n < (branchRecords 1 fork length).length := by
    simpa [plainRecords, branchRecords] using hn
  obtain ⟨b, b', hfed, hbuild⟩ := hnode.exists_fed h hcount (by omega) none
  obtain ⟨last, -, hfinish⟩ := hnode.write h n.lt_succ_self hcount none
  rcases hfinish with ⟨-, hnear⟩ | ⟨⟨s, st'⟩, hok, hrep, rfl, -⟩
  · simp only [NearOverflow, List.length_take, IndexState.withDurableTip, rangeSize] at hnear
    omega
  have hfed' : OrderedBuilder.FedFrom branchWorld.Has st b := by
    refine hfed.imp fun block hblock => ?_
    obtain ⟨height, hheight, rfl⟩ := List.mem_map.mp hblock
    have hlt := List.mem_range.mp hheight
    exact branchWorld_has fork (by omega)
  exact ⟨s, _, b, b', _, hrep, congrArg (· + 1) (IndexState.sealTo_generation _ _), rfl, hfed',
    hbuild, .write _ _ _ hindex h.state hfed' hbuild hok⟩

/-- Two builders are made from an index with one block. One writes the next block, and the
    batch of the other, with the block of another branch, is stale. Each stored block adds
    one commitment. -/
theorem writers_keep_tree_sizes_race : ∃ (c : Writers Unit) (st st₁ : IndexState)
    (s₁ : Store Unit) (r₀ r₁ : CompactBlockRecord) (b b' : OrderedBuilder) (batch : WriteBatch),
    c.Reached branchWorld ∧ c.index.getState = .ok st ∧ st.generation = 2 ∧
    c.index.read CompactBlockRecord st 0 = .ok r₀ ∧ r₀.endTreeSizes.sapling = 1 ∧
    c.index.read CompactBlockRecord st 1 = .ok r₁ ∧ r₁.endTreeSizes.sapling = 2 ∧
    r₀.endTreeSizes.checkedAdd r₁.additions = some r₁.endTreeSizes ∧
    s₁ ∈ c.past ∧ s₁.getState = .ok st₁ ∧ OrderedBuilder.FedFrom branchWorld.Has st₁ b ∧
    b.buildBatch (some 1) none maxRecordBytes = .ok (b', some batch) ∧ batch.baseGeneration = 1 ∧
    ∀ s st', c.index.write batch ≠ .ok (s, st') := by
  have hempty : Represents plainHeight (Store.empty : Store Unit) {}
      ((branchRecords 1 100 2).take 0) := represents_empty
  obtain ⟨s₁, st₁, -, -, -, hrep₁, hgen₁, -, -, -, hstep₁⟩ := Writers.exists_step
    (c := Writers.start) (by decide) hempty (List.mem_singleton_self _) (by decide) (Nat.zero_le _)
  have hreached₁ := Writers.Reached.step .start hstep₁
  -- block 0 is on both branches
  have hfork : (branchRecords 1 100 2).take (0 + 1) = (branchRecords 1 1 2).take 1 :=
    branchRecords_take_eq (by decide) (by decide) (by decide) (by decide)
  obtain ⟨-, -, b, b', batch, -, -, hbase, hfed, hbuild, -⟩ := Writers.exists_step
    (c := Writers.start.commit s₁) (by decide) (hfork ▸ hrep₁) List.mem_cons_self (by decide)
    (by rw [hgen₁]; decide)
  obtain ⟨s₂, st₂, -, -, -, hrep₂, hgen₂, -, -, -, hstep₂⟩ := Writers.exists_step
    (c := Writers.start.commit s₁) (by decide) hrep₁ List.mem_cons_self (by decide)
    (by rw [hgen₁]; decide)
  have hreached₂ := Writers.Reached.step hreached₁ hstep₂
  obtain ⟨⟨st', hst', hsizes⟩, -⟩ := writers_keep_tree_sizes branchWorld _ hreached₂
  obtain rfl : st' = st₂ := Except.ok.inj (hst'.symm.trans hrep₂.state)
  have hread₀ := hrep₂.read (i := 0) rfl
  have hread₁ := hrep₂.read (i := 1) rfl
  obtain ⟨r₁, hr₁, -, hbelow⟩ := hsizes 1 (hrep₂.covers_iff.mpr (by decide))
  obtain ⟨r₀, hr₀, hadd⟩ := hbelow 0 rfl
  obtain rfl := Except.ok.inj (hr₁.symm.trans hread₁)
  obtain rfl := Except.ok.inj (hr₀.symm.trans hread₀)
  refine ⟨_, st', st₁, s₁, _, _, b, b', batch, .step hreached₂ (.fail (some 1)), hst', ?_, hr₀, rfl,
    hr₁, rfl, hadd, List.mem_cons_of_mem _ List.mem_cons_self, hrep₁.state, hfed, hbuild, ?_, ?_⟩
  · rw [hgen₂, hgen₁]
  · rw [hbase, hgen₁]
  · intro s st' hwrite
    simp only [Store.write, Store.writeEncoded, bind_eq_ok, okMapError_eq_ok] at hwrite
    obtain ⟨encoded, hencode, w, hstart, -⟩ := hwrite
    have hgen := (hrep₂.start_eq_ok.mp hstart).2
    rw [(WriteBatch.encode_eq_ok.mp hencode).2.1, hbase, hgen₂] at hgen
    omega

end

end Ztreamer
