import Ztreamer.Index.Answers
import Ztreamer.Index.Continuity

/-! # Opening an index

    The files of an index are the row of its chain identity and its tables. An open
    writes the identity of a new index, refuses an index with another identity, and
    checks the tables.

    * `IndexFiles.openIndex`: the open,
    * `index_reopens`: an index that the code itself wrote opens again, with the state
      of its last commit.
-/

namespace Ztreamer

open Octets Result

variable {ν : Type}

def schemaVersion : Nat := 1

/-- The identity row: the schema version and the fixed policy, the genesis hash, and the
    network name in UTF-8. -/
def identity (network : Bytes) (genesisHash : Hash) : Bytes :=
  beBytes 4 schemaVersion ++ beBytes 4 rangeSize ++ beBytes 4 persistDepth ++
    beBytes 4 sealDepth ++ genesisHash.val ++ network

structure IndexFiles (ν : Type) where
  identity : Option Bytes
  tables : Store ν

namespace IndexFiles

/-- An environment without rows. -/
def empty : IndexFiles ν := ⟨none, .empty⟩

/-- Stores the identity of a new index, and refuses an index made for another chain or
    with another fixed policy. -/
def putOrCheckIdentity (network : Bytes) (genesisHash : Hash) (files : IndexFiles ν) :
    Except IndexError (IndexFiles ν) :=
  match files.identity with
  | some stored => do
    ensure (stored = Ztreamer.identity network genesisHash) .identity
    return files
  | none => return { files with identity := some (Ztreamer.identity network genesisHash) }

section

variable [Proto.Prost]

/-- Opens the index of a chain. -/
def openIndex (network : Bytes) (genesisHash : Hash) (files : IndexFiles ν) :
    Except IndexError (IndexFiles ν × IndexState) := do
  let files ← files.putOrCheckIdentity network genesisHash
  let st ← files.tables.verify
  return (files, st)

variable [Blake3]

/-- The files that opens for one chain and the allowed calls make from an empty
    environment. -/
inductive Written (network : Bytes) (genesisHash : Hash) (Allowed : Call ν → Prop) :
    IndexFiles ν → Prop where
  | create {files : IndexFiles ν} {st : IndexState} :
      empty.openIndex network genesisHash = .ok (files, st) →
      Written network genesisHash Allowed files
  | reopen {files files' : IndexFiles ν} {st : IndexState} :
      Written network genesisHash Allowed files →
      files.openIndex network genesisHash = .ok (files', st) →
      Written network genesisHash Allowed files'
  | commit {files : IndexFiles ν} {s' : Store ν} (c : Call ν) :
      Written network genesisHash Allowed files → Allowed c → c.run files.tables = .ok s' →
      Written network genesisHash Allowed { files with tables := s' }

variable {network : Bytes} {genesisHash : Hash} {Allowed : Call ν → Prop} {files : IndexFiles ν}

omit [Blake3] in
theorem openIndex_eq_ok {files' : IndexFiles ν} {st : IndexState} :
    files.openIndex network genesisHash = .ok (files', st) ↔
      (∀ stored ∈ files.identity, stored = Ztreamer.identity network genesisHash) ∧
      files' = ⟨some (Ztreamer.identity network genesisHash), files.tables⟩ ∧
      files.tables.verify = .ok st := by
  obtain ⟨stored, tables⟩ := files
  cases stored with
  | none =>
    simp only [openIndex, putOrCheckIdentity, pure_eq_ok, ok_bind, bind_eq_ok, Except.ok.injEq,
      Prod.mk.injEq]
    constructor
    · intro h
      obtain ⟨_, hverify, rfl, rfl⟩ := h
      exact ⟨by simp, rfl, hverify⟩
    · rintro ⟨_, hfiles, hverify⟩
      exact ⟨st, hverify, hfiles.symm, rfl⟩
  | some stored =>
    simp only [openIndex, putOrCheckIdentity, pure_eq_ok, ensure_eq_ok, bind_eq_ok,
      Except.ok.injEq, Prod.mk.injEq, Option.mem_some_iff, forall_eq']
    constructor
    · intro h
      obtain ⟨_, ⟨-, rfl, rfl⟩, _, hverify, rfl, rfl⟩ := h
      exact ⟨rfl, rfl, hverify⟩
    · intro h
      obtain ⟨rfl, rfl, hverify⟩ := h
      exact ⟨_, ⟨(), rfl, rfl⟩, st, hverify, rfl, rfl⟩

/-- The files have the identity of the chain, and their tables are reached by calls. -/
theorem Written.reachable (h : Written network genesisHash Allowed files) :
    files.identity = some (Ztreamer.identity network genesisHash) ∧
      Reachable Allowed files.tables := by
  induction h with
  | create hopen =>
    obtain ⟨-, rfl, -⟩ := openIndex_eq_ok.mp hopen
    exact ⟨rfl, .empty⟩
  | reopen _ hopen ih =>
    obtain ⟨-, rfl, -⟩ := openIndex_eq_ok.mp hopen
    exact ⟨rfl, ih.2⟩
  | commit c _ hc hrun ih => exact ⟨ih.1, .commit c ih.2 hc hrun⟩

omit [Blake3] in
/-- Files with the identity of the chain and the tables of a chain of blocks open. -/
theorem openIndex_of_represents {heightOf : HeightOf} {st : IndexState}
    {chain : List CompactBlockRecord}
    (hidentity : files.identity = some (Ztreamer.identity network genesisHash))
    (h : Represents heightOf files.tables st chain) (hfun : heightOf.Functional) :
    files.openIndex network genesisHash = .ok (files, st) := by
  refine openIndex_eq_ok.mpr ⟨?_, ?_, ?_⟩
  · intro stored hstored
    exact (Option.some.inj (hidentity.symm.trans hstored)).symm
  · rw [← hidentity]
  · rw [Store.verify, h.state, ok_bind, h.verifyContinuity hfun, ok_bind]
    rfl

/-- Calls that reach a store from an empty one write it in an index that was created. -/
theorem written_of_reachable {s : Store ν} (h : Reachable Allowed s) :
    Written network genesisHash Allowed ⟨some (Ztreamer.identity network genesisHash), s⟩ := by
  induction h with
  | empty =>
    have hempty : Represents (plainHeight : HeightOf) (Store.empty : Store ν) {} [] :=
      represents_empty
    have hverify : (Store.empty : Store ν).verify = .ok {} := by
      rw [Store.verify, hempty.state, ok_bind,
        hempty.verifyContinuity (HeightOf.functional_ofFun _), ok_bind]
      rfl
    refine .create (openIndex_eq_ok.mpr ⟨?_, rfl, hverify⟩)
    intro stored hstored
    cases hstored
  | commit c _ hc hrun ih => exact .commit c ih hc hrun
  | fail c _ _ ih => exact ih

end

end IndexFiles

/-- An index that the code itself wrote opens again. After each commit the state that is
    read back is the state that was committed. -/
theorem index_reopens [Proto.Prost] [Blake3] (heightOf : HeightOf) (hfun : heightOf.Functional)
    (network : Bytes) (genesisHash : Hash) (files : IndexFiles ν)
    (hwritten : files.Written network genesisHash (Call.Honest heightOf)) :
    (∃ st, files.tables.getState = .ok st ∧ files.tables.verifyContinuity st = .ok () ∧
      files.openIndex network genesisHash = .ok (files, st)) ∧
    ∀ (c : Call ν) (s' : Store ν) (st' : IndexState), c.Honest heightOf →
      c.Commits files.tables s' st' →
      s'.getState = .ok st' ∧ s'.verifyContinuity st' = .ok () ∧
        IndexFiles.openIndex network genesisHash { files with tables := s' } =
          .ok ({ files with tables := s' }, st') := by
  obtain ⟨hidentity, hreach⟩ := hwritten.reachable
  obtain ⟨st, chain, hrep⟩ := hreach.represents fun _ hc => hc
  refine ⟨⟨st, hrep.state, hrep.verifyContinuity hfun,
    IndexFiles.openIndex_of_represents hidentity hrep hfun⟩, ?_⟩
  intro c s' st' hc hcommits
  obtain ⟨⟨chain', hrep', -⟩, -⟩ := hcommits.represents hrep hc.1 hc.2
  exact ⟨hrep'.state, hrep'.verifyContinuity hfun,
    IndexFiles.openIndex_of_represents hidentity hrep' hfun⟩

section

attribute [local instance] Proto.wireDecoder zeroDigest

/-- An index with a sealed range and three blocks above it opens again, before and after a
    deep reorg that replaces the blocks from 500 on. -/
theorem index_reopens_sealed : ∃ (s s' : Store Unit) (st st' : IndexState) (common : BlockId)
    (identity : Option Bytes), st.sealedThrough = some 999 ∧
    IndexFiles.openIndex [] (plainHash 5000 0) ⟨identity, s⟩ = .ok (⟨identity, s⟩, st) ∧
    s.replaceDeepSuffix st.generation common ((plainRecords 500 1200).drop 500) (some 999) =
      .ok (s', st') ∧
    IndexFiles.openIndex [] (plainHash 5000 0) ⟨identity, s'⟩ = .ok (⟨identity, s'⟩, st') := by
  have hfork := plainBlocks_nodeChain 500 (n := 1200) (by decide)
  obtain ⟨s, st, hreach, hrep, hsealed, hgen, -⟩ :=
    reachable_plain (ν := Unit) 5000 (n := 1003) (by decide) (some 999) fun _ hhonest _ => hhonest
  obtain ⟨_, hencoded⟩ := hfork.encodedAs
  obtain ⟨common, s', st', -, -, hcommits, -⟩ := hrep.deepReorgs (m := 499)
    (by rw [length_branchRecords]; decide)
    (branchRecords_take_eq (by decide) (by decide) (by decide) (by decide)) hfork.connected
    hencoded (by rw [length_branchRecords]; decide) (by omega) (some 999)
  obtain ⟨⟨_, hstate, -, hopen⟩, hcall⟩ := index_reopens plainHeight (HeightOf.functional_ofFun _)
    [] (plainHash 5000 0) _ (IndexFiles.written_of_reachable hreach)
  obtain rfl := Except.ok.inj (hrep.state.symm.trans hstate)
  obtain ⟨-, -, hopen'⟩ := hcall (.replaceDeepSuffix st.generation common.blockId _ (some 999)) s'
    st' ⟨trivial, fun r hr => hfork.connected.heightOf_hash r (List.mem_of_mem_drop hr)⟩ hcommits
  exact ⟨s, s', st, st', common.blockId, _,
    IndexState.sealedThrough_eq_some_iff.mpr (hsealed.trans (by decide)), hopen, hcommits, hopen'⟩

end

end Ztreamer
