import Ztreamer.Lib.Result
import Ztreamer.Snapshot.ManifestEntry
import Ztreamer.Chain.Range
import Mathlib.Data.List.ModifyLast

/-! # Snapshot manifests

    A manifest lists every sealed range of a snapshot, from genesis. Its entries
    are grouped into epochs: an epoch closes at `maxRanges` ranges, or at the
    first range that makes it add `maxCommitments` note commitments. The last
    range of a manifest also closes an epoch.

    * `Manifest.epochs`: the epochs of entries,
    * `Manifest`: entries that obey the rules,
    * `Manifest.fromEntriesToGap`: the manifest of the rows of an index,
    * `checkEpochEnds_eq_ok`: the flags that the epochs ask for, range by range.
-/

namespace Ztreamer

open Octets Result

variable {ν : Type}

/-- The maximum number of ranges in one epoch. -/
def maxRanges : Nat := 10

/-- An epoch closes at the first range that makes it add this number of commitments. -/
def maxCommitments : Nat := 1000000

/-- Each pool that is active in `before` is also active. An empty frontier means that
    the pool is not active. -/
def Frontiers.follows (frontiers before : Frontiers) : Prop :=
  (before.sapling = [] ∨ frontiers.sapling ≠ []) ∧
  (before.orchard = [] ∨ frontiers.orchard ≠ []) ∧
  (before.ironwood = [] ∨ frontiers.ironwood ≠ [])

instance (frontiers before : Frontiers) : Decidable (frontiers.follows before) := by
  unfold Frontiers.follows; infer_instance

inductive ManifestError where
  | version (version : U32)
  | empty
  | sealedThrough (sealedThrough lastEnd : U32)
  | start (index : Nat) (startHeight : U32)
  | rangeLength (index : Nat)
  | treeSizes (index : Nat)
  | poolInactive (index : Nat)
  | epochEnd (index : Nat) (expected : Bool)
  deriving DecidableEq

namespace Manifest

/-! ## Epochs -/

/-- The commitments of all pools at the end of an entry. -/
def total (entry : ManifestEntry ν) : Nat := entry.endTreeSizes.total

/-- Adjacent entries that a replica verifies together, with the entry before them. -/
structure Epoch (ν : Type) where
  entries : List (ManifestEntry ν)
  previous : Option (ManifestEntry ν)
  closedByRule : Bool

/-- The rule closes an epoch of `ranges` ranges that adds `commitments` commitments. -/
def Epoch.ruleCloses (ranges commitments : Nat) : Bool :=
  ranges ≥ maxRanges || commitments ≥ maxCommitments

/-- The commitments before the first entry of an epoch. -/
def Epoch.base (previous : Option (ManifestEntry ν)) : Nat :=
  previous.elim 0 total

/-- The number of entries through the first one that closes the epoch, or of all
    entries. `ranges` entries of the epoch are before them. -/
def Epoch.len (base : Nat) : Nat → List (ManifestEntry ν) → Nat
  | _, [] => 0
  | ranges, entry :: rest =>
    if ruleCloses (ranges + 1) (total entry - base) then 1
    else len base (ranges + 1) rest + 1

theorem Epoch.len_pos (base ranges : Nat) (entry : ManifestEntry ν)
    (rest : List (ManifestEntry ν)) : 0 < len base ranges (entry :: rest) := by
  unfold len
  split <;> omega

theorem Epoch.len_le (base ranges : Nat) (entries : List (ManifestEntry ν)) :
    len base ranges entries ≤ entries.length := by
  induction entries generalizing ranges with
  | nil => exact Nat.le_refl 0
  | cons entry rest ih =>
    unfold len
    split
    · exact Nat.succ_pos _
    · exact Nat.succ_le_succ (ih _)

/-- The epochs of the entries after `previous`. -/
def epochs (previous : Option (ManifestEntry ν)) (entries : List (ManifestEntry ν)) :
    List (Epoch ν) :=
  match entries with
  | [] => []
  | entry :: rest =>
    let base := Epoch.base previous
    let len := Epoch.len base 0 (entry :: rest)
    let epoch := (entry :: rest).take len
    let last := epoch.getLast?.getD entry
    { entries := epoch
      previous
      closedByRule := Epoch.ruleCloses len (total last - base) } ::
      epochs (some last) ((entry :: rest).drop len)
  termination_by entries.length
  decreasing_by
    have hpos := Epoch.len_pos (Epoch.base previous) 0 entry rest
    simp only [List.length_drop, List.length_cons]
    omega

theorem epochs_singleton (previous : Option (ManifestEntry ν)) (entry : ManifestEntry ν) :
    epochs previous [entry] =
      [⟨[entry], previous, Epoch.ruleCloses 1 (total entry - Epoch.base previous)⟩] := by
  have hlen : Epoch.len (Epoch.base previous) 0 [entry] = 1 := by
    simp only [Epoch.len, Nat.zero_add, ite_self]
  rw [epochs]
  simp only [hlen, List.take_succ_cons, List.take_nil, List.getLast?_singleton, Option.getD_some,
    List.drop_succ_cons, List.drop_nil]
  rw [epochs]

/-- The entries of the epoch, each with the flag of its place. -/
def Epoch.flagged (epoch : Epoch ν) : List (ManifestEntry ν × Bool) :=
  epoch.entries.zipIdx.map fun (entry, i) => (entry, i = epoch.entries.length - 1)

/-! ## The rules -/

/-- Each entry has `epochEnd` set when it is the last entry of its epoch. -/
def checkEpochEnds (entries : List (ManifestEntry ν)) : Except ManifestError Unit :=
  let flagged := (epochs none entries).flatMap Epoch.flagged
  match flagged.zipIdx.find? fun ((entry, expected), _) => entry.epochEnd ≠ expected with
  | none => .ok ()
  | some ((_, expected), index) => .error (.epochEnd index expected)

/-- The entry `index` is one aligned range, and it follows the entry before it or
    starts at genesis. -/
def checkEntry (index : Nat) (previous : Option (ManifestEntry ν)) (entry : ManifestEntry ν) :
    Except ManifestError Unit := do
  ensure (entry.startHeight.val = previous.elim 0 (·.endHeight.val + 1))
    (.start index entry.startHeight)
  ensure (entry.startHeight.val + (rangeSize - 1) = entry.endHeight.val) (.rangeLength index)
  match previous with
  | none => return
  | some previous =>
    ensure (entry.endTreeSizes.follows previous.endTreeSizes) (.treeSizes index)
    ensure (entry.frontiers.follows previous.frontiers) (.poolInactive index)

/-- Checks the entries from `index` on, in order. -/
def checkEach (index : Nat) (previous : Option (ManifestEntry ν)) :
    List (ManifestEntry ν) → Except ManifestError Unit
  | [] => .ok ()
  | entry :: rest => do
    checkEntry index previous entry
    checkEach (index + 1) (some entry) rest

def checkEntries (entries : List (ManifestEntry ν)) : Except ManifestError Unit := do
  ensure (entries ≠ []) .empty
  checkEach 0 none entries
  checkEpochEnds entries

end Manifest

/-- A snapshot manifest that obeys the rules. -/
structure Manifest (ν : Type) where
  network : String
  genesisHash : Hash
  entries : List (ManifestEntry ν)
  checked : Manifest.checkEntries entries = .ok ()

namespace Manifest

/-- The manifest of `entries`, if they obey the rules. -/
def new (network : String) (genesisHash : Hash) (entries : List (ManifestEntry ν)) :
    Except ManifestError (Manifest ν) :=
  match h : checkEntries entries with
  | .ok () => .ok { network, genesisHash, entries, checked := h }
  | .error e => .error e

/-- The first entry and the entries that follow it, up to the first gap. The height
    after an entry saturates. -/
def takeToGap : Option Nat → List (ManifestEntry ν) → List (ManifestEntry ν)
  | _, [] => []
  | nextStart, entry :: rest =>
    if ∀ start ∈ nextStart, start = entry.startHeight.val then
      entry :: takeToGap (some (min (entry.endHeight.val + 1) (2 ^ 32 - 1))) rest
    else []

/-- Sets `epochEnd` on the last entry. -/
def closeLast (entries : List (ManifestEntry ν)) : List (ManifestEntry ν) :=
  entries.modifyLast fun last => { last with epochEnd := true }

/-- The manifest of the rows of an index, up to the first gap. -/
def fromEntriesToGap (network : String) (genesisHash : Hash) (entries : List (ManifestEntry ν)) :
    Except ManifestError (Manifest ν) :=
  new network genesisHash (closeLast (takeToGap none entries))

variable {network : String} {genesisHash : Hash} {entries : List (ManifestEntry ν)} {α : Type}

variable {manifest : Manifest ν} {entry : ManifestEntry ν} {nextStart : Option Nat} {k : Nat}

theorem new_eq_ok (h : new network genesisHash entries = .ok manifest) :
    manifest.entries = entries := by
  unfold new at h
  split at h
  · cases h
    rfl
  · cases h

theorem new_isOk_iff :
    (∃ manifest, new network genesisHash entries = .ok manifest) ↔
      checkEntries entries = .ok () := by
  constructor
  · rintro ⟨manifest, h⟩
    rw [← new_eq_ok h]
    exact manifest.checked
  · intro h
    unfold new
    split
    · exact ⟨_, rfl⟩
    · simp_all

/-! ## The flags of the epochs -/

/-- The flag of each range by the rule alone, from the commitments at the ends of the
    ranges. The open epoch has `ranges` ranges and starts at `base` commitments. -/
def ruleEnds (ranges base : Nat) : List Nat → List Bool
  | [] => []
  | total :: rest =>
    if Epoch.ruleCloses (ranges + 1) (total - base) then true :: ruleEnds 0 total rest
    else false :: ruleEnds (ranges + 1) base rest

/-- The flags that a manifest has: those of the rule, and the last one is set. -/
def expectedEnds (ranges base : Nat) (entries : List (ManifestEntry ν)) : List Bool :=
  (ruleEnds ranges base (entries.map total)).modifyLast fun _ => true

@[simp] theorem ruleEnds_length (ranges base : Nat) (totals : List Nat) :
    (ruleEnds ranges base totals).length = totals.length := by
  induction totals generalizing ranges base with
  | nil => rfl
  | cons total rest ih =>
    unfold ruleEnds
    split <;> simp [ih]

/-- The flag of a range depends on the ranges below it. -/
theorem ruleEnds_take (ranges base : Nat) (totals : List Nat) (n : Nat) :
    ruleEnds ranges base (totals.take n) = (ruleEnds ranges base totals).take n := by
  induction totals generalizing ranges base n with
  | nil => simp [ruleEnds]
  | cons total rest ih =>
    cases n with
    | zero => simp [ruleEnds]
    | succ n =>
      simp only [List.take_succ_cons, ruleEnds]
      split <;> simp [ih]

theorem ruleEnds_ne_nil (ranges base total : Nat) (rest : List Nat) :
    ruleEnds ranges base (total :: rest) ≠ [] := by
  intro h
  have hlen := ruleEnds_length ranges base (total :: rest)
  simp [h] at hlen

theorem modifyLast_cons (f : α → α) (a : α) {l : List α} (h : l ≠ []) :
    (a :: l).modifyLast f = a :: l.modifyLast f :=
  List.modifyLast_append_of_right_ne_nil f [a] l h

theorem modifyLast_length (f : α → α) (l : List α) : (l.modifyLast f).length = l.length := by
  rcases l.eq_nil_or_concat with rfl | ⟨init, last, rfl⟩
  · rfl
  · rw [List.concat_eq_append, List.modifyLast_concat, List.length_append, List.length_append]
    rfl

@[simp] theorem expectedEnds_length (ranges base : Nat) (entries : List (ManifestEntry ν)) :
    (expectedEnds ranges base entries).length = entries.length := by
  rw [expectedEnds, modifyLast_length, ruleEnds_length, List.length_map]

/-- The flags of the first epoch, then those of the entries after it. -/
theorem expectedEnds_split (ranges base : Nat) (entry : ManifestEntry ν)
    (rest : List (ManifestEntry ν)) :
    let len := Epoch.len base ranges (entry :: rest)
    let last := ((entry :: rest).take len).getLast?.getD entry
    expectedEnds ranges base (entry :: rest) = List.replicate (len - 1) false ++
      true :: expectedEnds 0 (total last) ((entry :: rest).drop len) := by
  -- induction on the entries: the rule closes the epoch at this one, or goes on
  induction rest generalizing ranges entry with
  | nil =>
    by_cases hcloses : Epoch.ruleCloses (ranges + 1) (total entry - base)
    · simp only [expectedEnds, List.map_cons, List.map_nil, ruleEnds, Epoch.len, if_pos hcloses]
      rfl
    · simp only [expectedEnds, List.map_cons, List.map_nil, ruleEnds, Epoch.len, if_neg hcloses]
      rfl
  | cons next rest ih =>
    by_cases hcloses : Epoch.ruleCloses (ranges + 1) (total entry - base)
    · have hne := ruleEnds_ne_nil 0 (total entry) (total next) (rest.map total)
      have hends : expectedEnds ranges base (entry :: next :: rest) =
          true :: expectedEnds 0 (total entry) (next :: rest) := by
        rw [expectedEnds, List.map_cons, List.map_cons, ruleEnds, if_pos hcloses]
        exact modifyLast_cons _ _ hne
      have hlen : Epoch.len base ranges (entry :: next :: rest) = 1 := by
        rw [Epoch.len, if_pos hcloses]
      dsimp only
      rw [hends, hlen]
      rfl
    · have hne := ruleEnds_ne_nil (ranges + 1) base (total next) (rest.map total)
      have hends : expectedEnds ranges base (entry :: next :: rest) =
          false :: expectedEnds (ranges + 1) base (next :: rest) := by
        rw [expectedEnds, List.map_cons, List.map_cons, ruleEnds, if_neg hcloses]
        exact modifyLast_cons _ _ hne
      have hlen : Epoch.len base ranges (entry :: next :: rest) =
          Epoch.len base (ranges + 1) (next :: rest) + 1 := by
        rw [Epoch.len, if_neg hcloses]
      obtain ⟨m, hm⟩ : ∃ m, Epoch.len base (ranges + 1) (next :: rest) = m + 1 :=
        ⟨_, (Nat.succ_pred_eq_of_pos (Epoch.len_pos base (ranges + 1) next rest)).symm⟩
      dsimp only
      rw [hends, ih (ranges + 1) next, hlen, hm]
      simp [List.replicate_succ, List.getLast?_cons]

/-- The entries of the epoch with their flags, side by side. -/
theorem Epoch.flagged_eq {epoch : Epoch ν} (h : epoch.entries ≠ []) :
    epoch.flagged =
      epoch.entries.zip (List.replicate (epoch.entries.length - 1) false ++ [true]) := by
  have hpos := List.length_pos_of_ne_nil h
  apply List.ext_getElem
  · simp only [flagged, List.length_map, List.length_zipIdx, List.length_zip,
      List.length_append, List.length_replicate, List.length_singleton]
    omega
  · intro i hleft hright
    simp only [flagged, List.length_map, List.length_zipIdx] at hleft
    simp only [flagged, List.getElem_map, List.getElem_zipIdx, List.getElem_zip, Nat.zero_add,
      Prod.mk.injEq, true_and]
    by_cases hlast : i = epoch.entries.length - 1
    · simp [hlast]
    · rw [List.getElem_append_left (by simp; omega)]
      simp [hlast]

/-- The epochs flag the entries as the rule does, entry by entry. -/
theorem flagged_epochs (previous : Option (ManifestEntry ν)) (entries : List (ManifestEntry ν)) :
    (epochs previous entries).flatMap Epoch.flagged =
      entries.zip (expectedEnds 0 (Epoch.base previous) entries) := by
  fun_induction epochs previous entries with
  | case1 previous => rfl
  | case2 previous entry rest base len epoch last ih =>
    have hpos : 0 < len := Epoch.len_pos base 0 entry rest
    have hle : len ≤ (entry :: rest).length := Epoch.len_le base 0 (entry :: rest)
    have hepoch : epoch.length = len := List.length_take_of_le hle
    have hsplit := expectedEnds_split 0 base entry rest
    have hflags : (List.replicate (len - 1) false ++ [true]).length = len := by
      simp only [List.length_append, List.length_replicate, List.length_singleton]
      omega
    rw [List.flatMap_cons, ih, Epoch.flagged_eq (by simp [epoch]; omega)]
    show epoch.zip (List.replicate (epoch.length - 1) false ++ [true]) ++ _ = _
    rw [hepoch, ← List.zip_append (hepoch.trans hflags.symm), List.append_assoc,
      List.singleton_append]
    show (epoch ++ (entry :: rest).drop len).zip _ = _
    rw [List.take_append_drop]
    exact congrArg _ hsplit.symm

/-- The check finds an entry whose flag is not that of its place. -/
theorem checkEpochEnds_eq_ok_iff_zip :
    checkEpochEnds entries = .ok () ↔
      ∀ x ∈ entries.zip (expectedEnds 0 0 entries), x.1.epochEnd = x.2 := by
  simp only [checkEpochEnds, flagged_epochs]
  show (match List.find? _ (entries.zip (expectedEnds 0 0 entries)).zipIdx with
    | none => _ | some ((_, expected), index) => _) = _ ↔ _
  split
  next hnone =>
    refine ⟨fun _ x hx => ?_, fun _ => rfl⟩
    obtain ⟨i, hi⟩ := List.mem_iff_getElem?.mp hx
    simpa using List.find?_eq_none.mp hnone (x, i) (List.mk_mem_zipIdx_iff_getElem?.mpr hi)
  next entry expected i hsome =>
    refine ⟨nofun, fun hall => ?_⟩
    have hfound := List.find?_some hsome
    have hne : entry.epochEnd ≠ expected := of_decide_eq_true hfound
    exact absurd (hall _ (List.fst_mem_of_mem_zipIdx (List.mem_of_find?_eq_some hsome))) hne

/-- The check accepts the flags of the rule, with the last one set. -/
theorem checkEpochEnds_eq_ok :
    checkEpochEnds entries = .ok () ↔ entries.map (·.epochEnd) = expectedEnds 0 0 entries := by
  rw [checkEpochEnds_eq_ok_iff_zip, ← List.forall₂_eq_eq_eq, List.forall₂_map_left_iff,
    List.forall₂_iff_zip]
  simp

/-! ## The manifest of adjacent rows -/

theorem map_modifyLast {β : Type} (f : α → α) (g : α → β) (h : β → β)
    (hcomm : ∀ a, g (f a) = h (g a)) (l : List α) :
    (l.modifyLast f).map g = (l.map g).modifyLast h := by
  rcases l.eq_nil_or_concat with rfl | ⟨init, last, rfl⟩
  · rfl
  · simp [List.concat_eq_append, List.modifyLast_concat, hcomm]

theorem closeLast_epochEnd (entries : List (ManifestEntry ν)) :
    (closeLast entries).map (·.epochEnd) =
      (entries.map (·.epochEnd)).modifyLast fun _ => true := by
  apply map_modifyLast
  intro entry
  rfl

theorem closeLast_total (entries : List (ManifestEntry ν)) :
    (closeLast entries).map total = entries.map total := by
  rcases entries.eq_nil_or_concat with rfl | ⟨init, last, rfl⟩
  · rfl
  · rw [List.concat_eq_append, closeLast, List.modifyLast_concat, List.map_append, List.map_append]
    rfl

/-- An entry of the closed entries differs at most in its flag. -/
theorem mem_closeLast (h : entry ∈ closeLast entries) :
    ∃ entry₀ ∈ entries, entry = { entry₀ with epochEnd := entry.epochEnd } := by
  induction entries with
  | nil => cases h
  | cons first rest ih =>
    by_cases hrest : rest = []
    · subst hrest
      obtain rfl : entry = { first with epochEnd := true } := List.mem_singleton.mp h
      exact ⟨first, by simp, rfl⟩
    · rw [closeLast, modifyLast_cons _ _ hrest] at h
      rcases List.mem_cons.mp h with rfl | h
      · exact ⟨entry, by simp, rfl⟩
      · obtain ⟨entry₀, hentry₀, heq⟩ := ih h
        exact ⟨entry₀, .tail _ hentry₀, heq⟩

theorem mem_of_mem_takeToGap (h : entry ∈ takeToGap nextStart entries) : entry ∈ entries := by
  induction entries generalizing nextStart with
  | nil => simp [takeToGap] at h
  | cons first rest ih =>
    unfold takeToGap at h
    split at h
    · rcases List.mem_cons.mp h with rfl | h
      · exact .head _
      · exact .tail _ (ih h)
    · cases h

theorem closeLast_ne_nil (h : entries ≠ []) : closeLast entries ≠ [] := by
  have hlength : (closeLast entries).length = entries.length := modifyLast_length _ _
  intro hnil
  rw [hnil] at hlength
  exact h (List.eq_nil_of_length_eq_zero hlength.symm)

/-- The rules for two entries do not read their flags. -/
theorem checkEach_closeLast (index : Nat) (previous : Option (ManifestEntry ν))
    (entries : List (ManifestEntry ν)) :
    checkEach index previous (closeLast entries) = checkEach index previous entries := by
  induction entries generalizing index previous with
  | nil => rfl
  | cons entry rest ih =>
    by_cases hrest : rest = []
    · subst hrest
      rfl
    · rw [closeLast, modifyLast_cons _ _ hrest, checkEach, checkEach]
      exact congrArg _ (funext fun _ => ih (index + 1) (some entry))

/-- The entry is the range `i`. -/
def IsRange (entry : ManifestEntry ν) (i : Nat) : Prop :=
  entry.startHeight.val = i * rangeSize ∧ entry.endHeight.val = i * rangeSize + (rangeSize - 1)

theorem takeToGap_of_ranges (hnext : ∀ start ∈ nextStart, start = k * rangeSize)
    (h : ∀ i entry, entries[i]? = some entry → IsRange entry (k + i)) :
    takeToGap nextStart entries = entries := by
  induction entries generalizing k nextStart with
  | nil => rfl
  | cons entry rest ih =>
    obtain ⟨hstart, hend⟩ := h 0 entry rfl
    rw [Nat.add_zero] at hstart hend
    rw [takeToGap, if_pos fun start hmem => (hnext start hmem).trans hstart.symm]
    cases rest with
    | nil => rfl
    | cons next rest =>
      -- the next entry starts at a height, so the height after this one does not saturate
      have hnextStart := (h 1 next rfl).1
      have hlt := next.startHeight.isLt
      congr 1
      refine ih (k := k + 1) ?_ fun i e he => ?_
      · intro start hmem
        cases hmem
        simp only [rangeSize] at *
        omega
      · have := h (i + 1) e he
        rwa [show k + (i + 1) = k + 1 + i by omega] at this

/-- What the entries after the first one follow. -/
def Follows (entry next : ManifestEntry ν) : Prop :=
  next.endTreeSizes.follows entry.endTreeSizes ∧ next.frontiers.follows entry.frontiers

theorem checkEach_of_ranges {previous : Option (ManifestEntry ν)}
    (hprevious : previous = none ↔ k = 0) (hrange : ∀ entry ∈ previous, IsRange entry (k - 1))
    (h : ∀ i entry, entries[i]? = some entry → IsRange entry (k + i))
    (hfollows : (previous.toList ++ entries).IsChain Follows) (index : Nat) :
    checkEach index previous entries = .ok () := by
  induction entries generalizing k previous index with
  | nil => rfl
  | cons entry rest ih =>
    obtain ⟨hstart, hend⟩ := h 0 entry rfl
    rw [Nat.add_zero] at hstart hend
    have hentry : checkEntry index previous entry = .ok () := by
      cases previous with
      | none =>
        have hk := hprevious.mp rfl
        subst hk
        rw [checkEntry, ensure_of _ (by simpa using hstart), ok_bind, ensure_of _ (by omega)]
        rfl
      | some previous =>
        have hk : k ≠ 0 := fun hzero => by cases hprevious.mpr hzero
        have hpreviousEnd := (hrange previous rfl).2
        have hlink : Follows previous entry := by
          simp only [Option.toList_some, List.singleton_append, List.isChain_cons_cons] at hfollows
          exact hfollows.1
        have hnext : entry.startHeight.val = previous.endHeight.val + 1 := by
          simp only [rangeSize] at *
          omega
        rw [checkEntry, ensure_of _ (by simpa using hnext), ok_bind, ensure_of _ (by omega),
          ok_bind, ensure_of _ hlink.1, ok_bind, ensure_of _ hlink.2]
    rw [checkEach, hentry, ok_bind]
    refine ih (k := k + 1) (by simp) ?_ ?_ ?_ (index + 1)
    · intro e he
      cases he
      rw [Nat.add_sub_cancel]
      exact ⟨hstart, hend⟩
    · intro i e he
      have := h (i + 1) e he
      rwa [show k + (i + 1) = k + 1 + i by omega] at this
    · cases previous with
      | none => exact hfollows
      | some previous =>
        simp only [Option.toList_some, List.singleton_append, List.isChain_cons_cons] at hfollows
        exact hfollows.2

theorem checkEntries_singleton (hrange : IsRange entry 0) (hflag : entry.epochEnd = true) :
    checkEntries [entry] = .ok () := by
  have hranges : ∀ i e, [entry][i]? = some e → IsRange e (0 + i) := by
    intro i e he
    cases i with
    | zero =>
      cases he
      exact hrange
    | succ i => cases he
  rw [checkEntries, ensure_of _ (List.cons_ne_nil _ _), ok_bind,
    checkEach_of_ranges (by simp) (by simp) hranges (.singleton _), ok_bind, checkEpochEnds_eq_ok,
    List.map_singleton, hflag, expectedEnds, List.map_singleton, ruleEnds, ruleEnds, ruleEnds]
  split <;> rfl

/-- Rows of adjacent ranges from genesis make a manifest when their flags are those of the
    rule. -/
theorem fromEntriesToGap_isOk (network : String) (genesisHash : Hash) (hne : entries ≠ [])
    (hranges : ∀ i entry, entries[i]? = some entry → IsRange entry i)
    (hfollows : entries.IsChain Follows)
    (hflags : entries.map (·.epochEnd) = ruleEnds 0 0 (entries.map total)) :
    ∃ manifest, fromEntriesToGap network genesisHash entries = .ok manifest := by
  rw [fromEntriesToGap, takeToGap_of_ranges (k := 0) (by simp) (by simpa using hranges),
    new_isOk_iff, checkEntries, ensure_of _ (closeLast_ne_nil hne), ok_bind, checkEach_closeLast,
    checkEach_of_ranges (k := 0) (by simp) (by simp) (by simpa using hranges) hfollows, ok_bind,
    checkEpochEnds_eq_ok, closeLast_epochEnd, hflags, expectedEnds, closeLast_total]

/-- A manifest of adjacent rows has the flags of the rule below its last entry. -/
theorem epochEnds_of_fromEntriesToGap
    (hranges : ∀ i entry, entries[i]? = some entry → IsRange entry i)
    (h : fromEntriesToGap network genesisHash entries = .ok manifest) :
    (entries.map (·.epochEnd)).modifyLast (fun _ => true) =
      (ruleEnds 0 0 (entries.map total)).modifyLast fun _ => true := by
  rw [fromEntriesToGap, takeToGap_of_ranges (k := 0) (by simp) (by simpa using hranges)] at h
  have hchecked := new_isOk_iff.mp ⟨manifest, h⟩
  simp only [checkEntries, bind_eq_ok] at hchecked
  obtain ⟨_, -, _, -, hends⟩ := hchecked
  rw [checkEpochEnds_eq_ok, closeLast_epochEnd, expectedEnds, closeLast_total] at hends
  exact hends

theorem entries_ne_nil (manifest : Manifest ν) : manifest.entries ≠ [] := by
  obtain ⟨_, hnonempty, -⟩ := bind_eq_ok.mp manifest.checked
  exact ensure_eq_ok.mp hnonempty

/-- The last height of the last range. -/
def sealedThrough (manifest : Manifest ν) : U32 :=
  (manifest.entries.getLast manifest.entries_ne_nil).endHeight

end Manifest

end Ztreamer
