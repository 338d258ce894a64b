import Ztreamer.Index.Answers

/-! # Where the verified blocks come from

    A block is vouched for by a call that passed in its record as a block of a node, or
    by the install of a verified range that holds it. `verifiedThrough` should cover such
    blocks only.

    A seal joins a range to the verified prefix without a look at its blocks. The blocks
    of a range that was installed unverified become mutable rows again when a deep reorg
    ends inside it, and are then sealed next to the verified prefix.

    * `verified_vouched_of_history`: in every history in which no deep reorg keeps such
      blocks, all blocks through `verifiedThrough` are vouched for,
    * `verified_covers_unverified`: a history of three calls in which they are not.
-/

namespace Ztreamer

open Octets Result Connected

variable {ν : Type}

section

variable [Proto.Prost] [Blake3]

/-! ## Histories -/

/-- The call passes in the record as a block of a node, or in a verified range. -/
def Call.Vouches (c : Call ν) (r : CompactBlockRecord) : Prop :=
  c.Brings r ∧ ∀ blob ∈ c.blob?, ∃ info, c.Installs blob info ∧ info.state = .verified

/-- Some call vouches for the record. -/
def Vouched (calls : List (Call ν)) (r : CompactBlockRecord) : Prop :=
  ∃ c ∈ calls, c.Vouches r

/-- The calls that were committed on an index, the last one first, and its store. A call
    may depend on the calls before it. -/
inductive History (Allowed : List (Call ν) → Store ν → Call ν → Prop) :
    List (Call ν) → Store ν → Prop where
  | empty : History Allowed [] Store.empty
  | commit {calls : List (Call ν)} {s s' : Store ν} (c : Call ν) : History Allowed calls s →
      Allowed calls s c → c.run s = .ok s' → History Allowed (c :: calls) s'

/-- Every block through `verifiedThrough` is vouched for. -/
def VerifiedVouched (calls : List (Call ν)) (s : Store ν) (st : IndexState) : Prop :=
  ∀ height, (∃ through ∈ st.verifiedThrough, height ≤ through) →
    ∃ r, s.read CompactBlockRecord st height = .ok r ∧ Vouched calls r

/-- A deep reorg that ends in the range after the verified prefix keeps only blocks of
    that range that are vouched for. -/
def Call.KeepsVouched (calls : List (Call ν)) (s : Store ν) (c : Call ν) : Prop :=
  match c with
  | .replaceDeepSuffix _ common _ _ => ∀ st, s.getState = .ok st →
    st.verifiedThrough.map (· + 1) = some (rangeStart common.height) →
    ∀ (height : Nat) (r : CompactBlockRecord), rangeStart common.height ≤ height →
      height ≤ common.height → s.read CompactBlockRecord st height = .ok r → Vouched calls r
  | _ => True

/-! ## The blocks of the chain -/

/-- The blocks through `verified` are vouched for, and all blocks are while the verified
    prefix reaches the end of the `sealed` ones, where the next range may join it. -/
structure Covered (calls : List (Call ν)) (chain : List CompactBlockRecord)
    (verified : Option Nat) (sealed : Nat) : Prop where
  below : ∀ through ∈ verified, ∀ (i : Nat) (r : CompactBlockRecord), i ≤ through →
    chain[i]? = some r → Vouched calls r
  joined : verified.map (· + 1) = some sealed → ∀ r ∈ chain, Vouched calls r

theorem Vouched.cons {calls : List (Call ν)} {r : CompactBlockRecord} (h : Vouched calls r)
    (c : Call ν) : Vouched (c :: calls) r := by
  obtain ⟨c', hc', hvouches⟩ := h
  exact ⟨c', List.mem_cons_of_mem c hc', hvouches⟩

namespace Covered

variable {calls : List (Call ν)} {chain added : List CompactBlockRecord} {c : Call ν}
  {verified : Option Nat} {sealed : Nat} {st : IndexState}

/-- Sealed ranges that join the verified prefix hold only blocks that are vouched for. -/
theorem sealTo (h : Covered calls chain st.verifiedThrough st.sealedEnd)
    (hlt : ∀ through ∈ st.verifiedThrough, through < st.sealedEnd) (target : Nat) :
    Covered calls chain (st.sealTo target).verifiedThrough (st.sealTo target).sealedEnd := by
  by_cases hle : target ≤ st.sealedEnd
  · rw [IndexState.sealTo_of_le hle]
    exact h
  rw [IndexState.sealTo_sealedEnd, IndexState.sealTo_verifiedThrough (by omega)]
  split
  case isTrue hjoin =>
    have hall := h.joined hjoin
    exact ⟨fun _ _ i r _ hr => hall r (List.mem_of_getElem? hr), fun _ => hall⟩
  case isFalse hjoin =>
    refine ⟨h.below, ?_⟩
    intro hend
    obtain ⟨through, hthrough, heq⟩ := Option.map_eq_some_iff.mp hend
    have := hlt through hthrough
    omega

/-- New blocks above the sealed ones. -/
theorem replace (h : Covered calls chain verified sealed)
    (hlt : ∀ through ∈ verified, through < sealed) {kept : Nat} (hkept : sealed ≤ kept)
    (hlength : kept ≤ chain.length) (hadded : ∀ r ∈ added, c.Vouches r) :
    Covered (c :: calls) (chain.take kept ++ added) verified sealed := by
  constructor
  · intro through hthrough i r hi hr
    have hbelow := hlt through hthrough
    rw [List.getElem?_append_left (by rw [List.length_take]; omega),
      List.getElem?_take_of_lt (by omega)] at hr
    exact (h.below through hthrough i r hi hr).cons c
  · intro hend r hr
    rcases List.mem_append.mp hr with hold | hnew
    · exact (h.joined hend r (List.mem_of_mem_take hold)).cons c
    · exact ⟨c, List.mem_cons_self, hadded r hnew⟩

/-- The blocks of an installed range. -/
theorem install (h : Covered calls chain st.verifiedThrough st.sealedEnd)
    (hlt : ∀ through ∈ st.verifiedThrough, through < st.sealedEnd)
    (hfull : st.sealedEnd = chain.length) {info : RangeMeta ν}
    (hend : info.entry.endHeight.val = chain.length + (rangeSize - 1))
    (hadded : info.state = .verified → ∀ r ∈ added, c.Vouches r) :
    Covered (c :: calls) (chain ++ added) (st.installVerified chain.length info)
      (chain.length + rangeSize) := by
  have hpos : 0 < rangeSize := by decide
  unfold IndexState.installVerified
  split
  case isTrue hjoin =>
    obtain ⟨hstate, hnext⟩ := hjoin
    -- the verified prefix is the whole chain
    have hall : ∀ r ∈ chain ++ added, Vouched (c :: calls) r := by
      intro r hr
      rcases List.mem_append.mp hr with hold | hnew
      · cases hthrough : st.verifiedThrough with
        | none =>
          rw [hthrough] at hnext
          rw [List.eq_nil_of_length_eq_zero hnext.symm] at hold
          cases hold
        | some through =>
          rw [hthrough] at hnext
          obtain ⟨i, hi⟩ := List.mem_iff_getElem?.mp hold
          have hlength : through + 1 = chain.length := hnext
          have := (List.getElem?_eq_some_iff.mp hi).1
          exact (h.below through hthrough i r (by omega) hi).cons c
      · exact ⟨c, List.mem_cons_self, hadded hstate r hnew⟩
    exact ⟨fun _ _ i r _ hr => hall r (List.mem_of_getElem? hr), fun _ => hall⟩
  case isFalse hjoin =>
    constructor
    · intro through hthrough i r hi hr
      have := hlt through hthrough
      rw [List.getElem?_append_left (by omega)] at hr
      exact (h.below through hthrough i r hi hr).cons c
    · intro hjoined
      obtain ⟨through, hthrough, heq⟩ := Option.map_eq_some_iff.mp hjoined
      have := hlt through hthrough
      omega

/-- The blocks that a deep reorg keeps. -/
theorem cut (h : Covered calls chain st.verifiedThrough st.sealedEnd)
    (hranges : ∀ through ∈ st.verifiedThrough, IsRangeEnd through ∧ through < st.sealedEnd)
    {common : Nat}
    (hkeeps : st.verifiedThrough.map (· + 1) = some (rangeStart common) →
      ∀ (i : Nat) (r : CompactBlockRecord), rangeStart common ≤ i → i ≤ common →
        chain[i]? = some r → Vouched calls r) :
    Covered calls (chain.take (common + 1))
      (if min st.sealedEnd (rangeStart common) = 0 then none
        else st.verifiedThrough.map (min · (min st.sealedEnd (rangeStart common) - 1)))
      (min st.sealedEnd (rangeStart common)) := by
  have hstart := rangeStart_add_mod common
  have hmod := rangeStart_mod common
  have hlt : common % rangeSize < rangeSize := Nat.mod_lt _ (by decide)
  have htake : ∀ {i r}, (chain.take (common + 1))[i]? = some r → i ≤ common ∧
      chain[i]? = some r := by
    intro i r hi
    rw [List.getElem?_take] at hi
    -- no sealed block is left, or the prefix is cut at the start of the range
    split at hi
    · exact ⟨by omega, hi⟩
    · cases hi
  split
  case isTrue =>
    constructor
    · intro through hthrough
      cases hthrough
    · intro hend
      cases hend
  case isFalse hbound =>
    constructor
    · intro through hthrough i r hi hr
      obtain ⟨old, hold, rfl⟩ := Option.map_eq_some_iff.mp hthrough
      exact h.below old hold i r (by omega) (htake hr).2
    · intro hend r hr
      obtain ⟨_, hcut, hend⟩ := Option.map_eq_some_iff.mp hend
      obtain ⟨old, hold, rfl⟩ := Option.map_eq_some_iff.mp hcut
      obtain ⟨hrange, hsealed⟩ := hranges old hold
      obtain ⟨i, hi⟩ := List.mem_iff_getElem?.mp hr
      obtain ⟨hle, hget⟩ := htake hi
      by_cases hall : old + 1 = st.sealedEnd
      · exact h.joined (by rw [hold, Option.map_some, hall]) r (List.mem_of_getElem? hget)
      by_cases hbelow : i ≤ old
      · exact h.below old hold i r hbelow hget
      · -- the prefix ends at the start of the range
        refine hkeeps ?_ i r ?_ hle hget
        · rw [hold, Option.map_some, Option.some.injEq]
          simp only [IsRangeEnd, rangeSize] at *
          omega
        · simp only [IsRangeEnd, rangeSize] at *
          omega

end Covered

/-! ## One call -/

variable {calls : List (Call ν)} {s s' : Store ν} {st st' : IndexState}
  {chain : List CompactBlockRecord} {c : Call ν}

section

variable (h : Represents .any s st chain)

include h

/-- The blocks of a chain through `verifiedThrough` are those that the index reads. -/
theorem Represents.verifiedVouched_iff :
    VerifiedVouched calls s st ↔ ∀ through ∈ st.verifiedThrough, ∀ (i : Nat)
      (r : CompactBlockRecord), i ≤ through → chain[i]? = some r → Vouched calls r := by
  constructor
  · intro hvouched through hthrough i r hi hr
    obtain ⟨r', hread, hr'⟩ := hvouched i ⟨through, hthrough, hi⟩
    obtain rfl := Option.some.inj (hr.symm.trans (h.read_eq_ok hread))
    exact hr'
  · rintro hbelow height ⟨through, hthrough, hle⟩
    have hlt := (h.describes.verified through hthrough).2
    have hsealed := h.holds.sealed_le
    have hr : chain[height]? = some chain[height] := List.getElem?_eq_getElem (by omega)
    exact ⟨_, h.read hr, hbelow through hthrough height _ hle hr⟩

variable (hcovered : Covered calls chain st.verifiedThrough st.sealedEnd)

include hcovered

/-- A committed call that keeps only blocks that are vouched for. -/
theorem Call.Commits.covered (hbuilder : c.FromBuilder) (hkeeps : c.KeepsVouched calls s)
    (hcommits : c.Commits s s' st') :
    ∃ chain', Represents .any s' st' chain' ∧
      Covered (c :: calls) chain' st'.verifiedThrough st'.sealedEnd := by
  have hlt : ∀ through ∈ st.verifiedThrough, through < st.sealedEnd :=
    fun through hthrough => (h.describes.verified through hthrough).2
  cases hcommits.wrote h hbuilder (Call.respects_any c) with
  | @blocks _ bound kept s₁ st₁ added sealThrough hcut _ hbound hkept hdeep hnone hbrings hfinish =>
    have hvouches : ∀ r ∈ added, c.Vouches r := by
      intro r hr
      refine ⟨hbrings r hr, ?_⟩
      simp [hnone]
    have hsealed := hcut.sealedEnd
    have hverified := hcut.verifiedThrough
    have hlt₁ : ∀ through ∈ st₁.verifiedThrough, through < st₁.sealedEnd := by
      intro through hthrough
      rw [hverified] at hthrough
      split at hthrough
      · cases hthrough
      · obtain ⟨old, -, rfl⟩ := Option.map_eq_some_iff.mp hthrough
        omega
    have hcovered₁ : Covered (c :: calls) (chain.take kept ++ added) st₁.verifiedThrough
        st₁.sealedEnd := by
      -- a deep reorg cuts the covered blocks before it replaces blocks
      rcases hdeep with rfl | ⟨_, common, _, _, rfl, rfl, rfl⟩
      · rw [hverified, hsealed, ← h.describes.verifiedThrough_eq]
        exact hcovered.replace hlt hbound hkept hvouches
      · have hcut := hcovered.cut h.describes.verified fun hnext i r hstart hle hr =>
          hkeeps st h.state hnext i r hstart hle (h.read hr)
        rw [← hverified, ← hsealed] at hcut
        have hlength : (chain.take (common.height + 1)).length = common.height + 1 := by
          rw [List.length_take]
          omega
        have hreplace := hcut.replace hlt₁ (by omega) (le_of_eq hlength.symm) hvouches
        rwa [List.take_take, Nat.min_self] at hreplace
    obtain ⟨hrep, rfl, -⟩ := hfinish.ok
    exact ⟨_, hrep, hcovered₁.sealTo hlt₁ _⟩
  | range hinstalls _ hbrings hinstall =>
    obtain ⟨hsealed, hend, hverified⟩ := hinstall.state
    obtain ⟨records, hrecords, hrep, -⟩ := hinstall.installed h
    refine ⟨_, hrep, ?_⟩
    rw [hsealed, hverified]
    refine hcovered.install hlt hinstall.1 hend fun hstate r hr => ?_
    obtain ⟨i, hi⟩ := hrecords.decodes hr
    refine ⟨hbrings r i hi, ?_⟩
    rw [hinstalls.blob?_eq]
    rintro _ ⟨⟩
    exact ⟨_, hinstalls, hstate⟩
  | row hput hstate =>
    refine ⟨chain, hstate ▸ (h.putRangeMeta hput).1, ?_⟩
    rw [hstate]
    exact ⟨fun through hthrough i r hi hr => (hcovered.below through hthrough i r hi hr).cons _,
      fun hend r hr => (hcovered.joined hend r hr).cons _⟩

end

/-! ## Histories in which no deep reorg keeps other blocks -/

theorem History.covered
    (h : History (fun calls s c => c.FromBuilder ∧ c.KeepsVouched calls s) calls s) :
    ∃ st chain, Represents .any s st chain ∧
      Covered calls chain st.verifiedThrough st.sealedEnd := by
  induction h with
  | empty =>
    refine ⟨{}, [], represents_empty, ?_, ?_⟩
    · intro through hthrough
      cases hthrough
    · intro hend
      cases hend
  | commit c _ hc hrun ih =>
    obtain ⟨st, chain, hrep, hcovered⟩ := ih
    obtain ⟨st', hcommits⟩ := Call.run_eq_ok.mp hrun
    obtain ⟨chain', hrep', hcovered'⟩ := hcommits.covered hrep hcovered hc.1 hc.2
    exact ⟨st', chain', hrep', hcovered'⟩

/-- A deep reorg that seals the range of its common ancestor again, and after which the
    verified blocks are vouched for, has kept only blocks that are. -/
theorem Represents.keepsVouched (h : Represents .any s st chain)
    (hcommits : s.replaceDeepSuffix baseGeneration common replacement sealThrough = .ok (s', st'))
    (hsealed : rangeStart common.height + rangeSize ≤ st'.sealedEnd) (hvouched : VerifiedVouched
      (.replaceDeepSuffix baseGeneration common replacement sealThrough :: calls) s' st') :
    (Call.replaceDeepSuffix baseGeneration common replacement sealThrough).KeepsVouched calls
      s := by
  intro st₀ hst₀ hnext i r hstart hle hread
  obtain rfl : st = st₀ := Except.ok.inj (h.state.symm.trans hst₀)
  obtain ⟨-, _, s₁, st₁, hget, -, hext, hcut, hfinish⟩ :=
    h.of_deepReorg (fun _ _ => trivial) hcommits
  obtain ⟨hrep, rfl, -⟩ := hfinish.ok
  have hlt := (List.getElem?_eq_some_iff.mp hget).1
  have hend₁ := hcut.sealedEnd
  have hverified₁ := hcut.verifiedThrough
  obtain ⟨through, hthrough, hjoin⟩ := Option.map_eq_some_iff.mp hnext
  have hbelow := (h.describes.verified through hthrough).2
  have hr := h.read_eq_ok hread
  -- the verified prefix ends where the ranges were cut, so the new range joins it
  have hbound : min st.sealedEnd (rangeStart common.height) = through + 1 := by omega
  rw [hbound] at hend₁
  rw [hbound, if_neg (by omega), hthrough, Option.map_some, Nat.add_sub_cancel, Nat.min_self]
    at hverified₁
  have hsealedEnd : through + 1 + rangeSize ≤ max st₁.sealedEnd (sealTarget sealThrough
      st₁.sealedEnd (replaced chain common.height replacement).length) := by
    rw [← IndexState.sealTo_sealedEnd, hjoin]
    exact hsealed
  have hpos : 0 < rangeSize := by decide
  have hjoined : (st₁.sealTo (sealTarget sealThrough st₁.sealedEnd
      (replaced chain common.height replacement).length)).verifiedThrough =
      some (sealTarget sealThrough st₁.sealedEnd
        (replaced chain common.height replacement).length - 1) := by
    rw [IndexState.sealTo_verifiedThrough (by omega), if_pos]
    rw [hverified₁, hend₁, Option.map_some]
  have hmod := rangeStart_add_mod common.height
  have hrest : common.height % rangeSize < rangeSize := Nat.mod_lt _ hpos
  have hkept : (replaced chain common.height replacement)[i]? = some r := by
    rw [replaced, List.getElem?_append_left (by rw [List.length_take]; omega),
      List.getElem?_take_of_lt (by omega), hr]
  obtain ⟨c, hc, hvouches⟩ :=
    hrep.verifiedVouched_iff.mp hvouched _ hjoined i r (by omega) hkept
  rcases List.mem_cons.mp hc with rfl | hc
  · -- the replacement is above the common ancestor
    obtain ⟨j, hj⟩ := List.mem_iff_getElem?.mp hvouches.1
    have hheight := CompactBlockRecord.height_of_isChain hext.isChain hext.height hj
    have := h.connected.height_eq hr
    rw [List.length_take] at hheight
    omega
  · exact ⟨c, hc, hvouches⟩

end

/-- In every history in which each deep reorg meets the condition, the blocks through
    `verifiedThrough` are vouched for. A next deep reorg that seals the range of its
    common ancestor again keeps this exactly when it meets the condition. -/
theorem verified_vouched_of_history [Proto.Prost] [Blake3] (calls : List (Call ν)) (s : Store ν)
    (hhistory : History (fun calls s c => c.FromBuilder ∧ c.KeepsVouched calls s) calls s) :
    ∃ st, s.getState = .ok st ∧ VerifiedVouched calls s st ∧
      ∀ (baseGeneration : Nat) (common : BlockId) (replacement : List CompactBlockRecord)
        (sealThrough : Option Nat) (s' : Store ν) (st' : IndexState),
        s.replaceDeepSuffix baseGeneration common replacement sealThrough = .ok (s', st') →
        rangeStart common.height + rangeSize ≤ st'.sealedEnd →
        (VerifiedVouched
            (.replaceDeepSuffix baseGeneration common replacement sealThrough :: calls) s' st' ↔
          (Call.replaceDeepSuffix baseGeneration common replacement sealThrough).KeepsVouched
            calls s) := by
  obtain ⟨st, chain, hrep, hcovered⟩ := hhistory.covered
  refine ⟨st, hrep.state, hrep.verifiedVouched_iff.mpr hcovered.below, ?_⟩
  intro baseGeneration common replacement sealThrough s' st' hcommits hsealed
  constructor
  · intro hvouched
    exact hrep.keepsVouched hcommits hsealed hvouched
  · intro hkeeps
    have hc : (Call.replaceDeepSuffix baseGeneration common replacement sealThrough).Commits
        s s' st' := hcommits
    have hbuilder : (Call.replaceDeepSuffix baseGeneration common replacement sealThrough :
        Call ν).FromBuilder := trivial
    obtain ⟨chain', hrep', hcovered'⟩ := hc.covered hrep hcovered hbuilder hkeeps
    exact hrep'.verifiedVouched_iff.mpr hcovered'.below

/-! ## A range that was never verified -/

/-- A next plain range is installed, with the verification state that is given. -/
theorem Represents.installs_plain_as [Proto.Prost] [Blake3] {s : Store Unit} {st : IndexState}
    {fork n : Nat} (h : Represents plainHeight s st (plainRecords fork n))
    (hfull : st.sealedEnd = n) (hn : n + rangeSize ≤ 2 ^ 31) (hgen : st.generation + 1 < 2 ^ 64)
    {state : VerifyState} (hstate : state ≠ .rejected) :
    ∃ (info : RangeMeta Unit) (range : CheckedRange) (s' : Store Unit) (st' : IndexState),
      info.state = state ∧ (Call.installCheckedRange range info).run s = .ok s' ∧
      Represents plainHeight s' st' (plainRecords fork (n + rangeSize)) ∧
      st'.sealedEnd = n + rangeSize ∧ st'.generation = st.generation + 1 ∧
      st'.verifiedThrough = (if state = .verified ∧ st.verifiedThrough.elim 0 (· + 1) = n
        then some (n + (rangeSize - 1)) else st.verifiedThrough) ∧
      ∀ i r, RangeDecoder.decodeRangeRecord range.blob i = .ok r → r.height.val <
        n + rangeSize := by
  obtain ⟨info, range, s', st', hinfo, -, hinstall, hrespects, hrep, -, hrecords, -⟩ :=
    h.installs_plain hfull hn hgen hstate (decode_withUnknownField_plain fork)
  have hon := h.of_installCheckedRange hrespects hinstall
  obtain ⟨hsealed, hend, hverified⟩ := hon.state
  obtain ⟨-, -, -, hgeneration, -⟩ := hon.installed h
  rw [length_branchRecords] at hsealed hend hverified
  refine ⟨info, range, s', st', hinfo, map_eq_ok.mpr ⟨_, hinstall, rfl⟩, hrep, hsealed,
    hgeneration, ?_, ?_⟩
  · rw [hverified, IndexState.installVerified, hinfo, hend]
  · intro i r hr
    obtain ⟨d, hnew, hread⟩ := hrecords.decoder
    rw [RangeDecoder.decodeRangeRecord, hnew, ok_bind] at hr
    have hlt : i < rangeSize := by
      simp only [RangeDecoder.record, RangeDecoder.recordAs, bind_eq_ok, ensure_eq_ok] at hr
      obtain ⟨-, hlt, -⟩ := hr
      exact hlt
    obtain ⟨r', hr'⟩ : ∃ r', ((List.range rangeSize).map fun i => plainRecord fork (n + i))[i]? =
        some r' := ⟨_, List.getElem?_eq_getElem (by rw [hrecords.length_eq]; exact hlt)⟩
    obtain rfl : r' = r := Except.ok.inj ((hread i r' hr').symm.trans hr)
    have := hrecords.height i r' hr'
    omega

section

attribute [local instance] Proto.wireDecoder zeroDigest

/-- Range 0 is installed verified and range 1 in some state. A deep reorg with a common
    ancestor inside range 1 seals that range next to the verified one. -/
theorem exists_deepReorg {state : VerifyState} (hstate : state ≠ .rejected) :
    ∃ (range₀ range₁ : CheckedRange) (info₀ info₁ : RangeMeta Unit) (s₀ s₁ s : Store Unit)
      (st₁ st : IndexState) (common : CompactBlockRecord), info₁.state = state ∧
      (Call.installCheckedRange range₀ info₀).run Store.empty = .ok s₀ ∧
      (Call.installCheckedRange range₁ info₁).run s₀ = .ok s₁ ∧ s₁.getState = .ok st₁ ∧
      st₁.verifiedThrough = (if state = .verified then some 1999 else some 999) ∧
      plainRecord 5000 1500 = common ∧
      (Call.replaceDeepSuffix st₁.generation common.blockId ((plainRecords 1501 2000).drop 1501)
        (some 1999)).run s₁ = .ok s ∧
      Represents plainHeight s st (plainRecords 1501 2000) ∧ st.verifiedThrough = some 1999 ∧
      ∀ i r, RangeDecoder.decodeRangeRecord range₀.blob i = .ok r → r.height.val < 1000 := by
  have hempty : Represents plainHeight (Store.empty : Store Unit) {} (plainRecords 5000 0) :=
    represents_empty
  obtain ⟨info₀, range₀, s₀, st₀, -, hrun₀, hrep₀, hsealed₀, hgen₀, hverified₀, hbelow₀⟩ :=
    hempty.installs_plain_as rfl (by decide) (by decide)
      (by decide : VerifyState.verified ≠ .rejected)
  have hgen₀ : st₀.generation = 1 := hgen₀
  have hverified₀ : st₀.verifiedThrough = some 999 := hverified₀
  obtain ⟨info₁, range₁, s₁, st₁, hinfo₁, hrun₁, hrep₁, hsealed₁, hgen₁, hverified₁, -⟩ :=
    hrep₀.installs_plain_as hsealed₀ (by decide) (by rw [hgen₀]; decide) hstate
  rw [hgen₀] at hgen₁
  have hverified₁ : st₁.verifiedThrough = if state = .verified then some 1999 else some 999 := by
    rw [hverified₁, hverified₀]
    simp [rangeSize]
  have hsealed₁ : st₁.sealedEnd = 2000 := hsealed₁
  have hrep₁ : Represents plainHeight s₁ st₁ (plainRecords 5000 2000) := hrep₁
  -- the branch from block 1501 on
  have hnode := plainBlocks_nodeChain 1501 (n := 2000) (by decide)
  have hcut : min st₁.sealedEnd (rangeStart 1500) = 1000 := by
    rw [hsealed₁]
    decide
  obtain ⟨encoded, hencoded⟩ := hnode.encodedAs
  obtain ⟨common, s, st, st₂, hcommon, hcommits, hrep, hsealed₂, hverified₂, hst, -⟩ :=
    hrep₁.deepReorgs (m := 1500) (by rw [length_branchRecords]; decide)
      (branchRecords_take_eq (by decide) (by decide) (by decide) (by decide)) hnode.connected
      hencoded (by rw [length_branchRecords]; decide) (by rw [hgen₁]; decide) (some 1999)
  rw [branchRecords_getElem? (by decide), Option.some.injEq] at hcommon
  rw [hcut] at hsealed₂ hverified₂
  have hverified₂ : st₂.verifiedThrough = some 999 := by
    rw [hverified₂, if_neg (by decide), hverified₁]
    split <;> rfl
  refine ⟨range₀, range₁, info₀, info₁, s₀, s₁, s, st₁, st, common, hinfo₁, hrun₀, hrun₁,
    hrep₁.state, hverified₁, hcommon, map_eq_ok.mpr ⟨_, hcommits, rfl⟩, hrep, ?_, hbelow₀⟩
  rw [hst, length_branchRecords, hsealed₂]
  show (st₂.sealTo 2000).verifiedThrough = _
  rw [IndexState.sealTo_verifiedThrough (by rw [hsealed₂]; decide), hsealed₂, hverified₂]
  rfl

/-- Both ranges are installed verified, so that all blocks are vouched for after the deep
    reorg. -/
theorem verified_vouched_reorganised : ∃ (calls : List (Call Unit)) (s : Store Unit)
    (st : IndexState),
    History (fun calls s c => c.FromBuilder ∧ c.KeepsVouched calls s) calls s ∧ calls.length = 3 ∧
      s.getState = .ok st ∧ st.verifiedThrough = some 1999 ∧ VerifiedVouched calls s st := by
  obtain ⟨range₀, range₁, info₀, info₁, s₀, s₁, s, st₁, st, common, -, hrun₀, hrun₁, hst₁,
    hverified₁, hcommon, hrun, hrep, hverified, -⟩ :=
    exists_deepReorg (by decide : VerifyState.verified ≠ .rejected)
  have hhistory : History (fun calls s c => c.FromBuilder ∧ c.KeepsVouched calls s)
      [.installCheckedRange range₁ info₁, .installCheckedRange range₀ info₀] s₁ :=
    .commit _ (.commit _ .empty ⟨trivial, trivial⟩ hrun₀) ⟨trivial, trivial⟩ hrun₁
  have hhistory := hhistory.commit (.replaceDeepSuffix st₁.generation common.blockId _ _) (by
    refine ⟨trivial, fun st' hst' hjoin => ?_⟩
    -- the verified prefix ends after the range of the common ancestor
    obtain rfl := Except.ok.inj (hst₁.symm.trans hst')
    rw [hverified₁, ← hcommon] at hjoin
    cases hjoin) hrun
  obtain ⟨st', hst', hvouched, -⟩ := verified_vouched_of_history _ s hhistory
  obtain rfl : st = st' := Except.ok.inj (hrep.state.symm.trans hst')
  exact ⟨_, s, st, hhistory, rfl, hst', hverified, hvouched⟩

/-- Range 1 is installed unverified. After the deep reorg the blocks that it kept of that
    range are verified. -/
theorem verified_covers_unverified : ∃ (calls : List (Call Unit)) (s : Store Unit)
    (st : IndexState), History (fun _ _ c => c.FromBuilder) calls s ∧ s.getState = .ok st ∧
      st.verifiedThrough = some 1999 ∧ ¬ VerifiedVouched calls s st := by
  obtain ⟨range₀, range₁, info₀, info₁, s₀, s₁, s, st₁, st, common, hinfo₁, hrun₀, hrun₁, -, -, -,
    hrun, hrep, hverified, hbelow₀⟩ :=
    exists_deepReorg (by decide : VerifyState.unverified ≠ .rejected)
  refine ⟨_, s, st, .commit (.replaceDeepSuffix _ _ _ _) (.commit (.installCheckedRange _ _)
    (.commit (.installCheckedRange _ _) .empty trivial hrun₀) trivial hrun₁) trivial hrun,
    hrep.state, hverified, ?_⟩
  intro hvouched
  obtain ⟨r, hread, c, hc, hvouches⟩ := hvouched 1200 ⟨1999, hverified, by decide⟩
  have hheight : r.height.val = 1200 := hrep.connected.height_eq (hrep.read_eq_ok hread)
  simp only [List.mem_cons, List.not_mem_nil, or_false] at hc
  obtain rfl | rfl | rfl := hc
  · -- the replacement begins at block 1501
    obtain ⟨i, hi⟩ := List.mem_iff_getElem?.mp hvouches.1
    rw [List.getElem?_drop] at hi
    have := hrep.connected.height_eq hi
    omega
  · obtain ⟨info, ⟨-, rfl⟩, hstate⟩ := hvouches.2 _ rfl
    rw [hinfo₁] at hstate
    cases hstate
  · obtain ⟨⟨i, hi⟩, -⟩ := hvouches
    have := hbelow₀ i r hi
    omega

end

end Ztreamer
