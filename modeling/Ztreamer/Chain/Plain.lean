import Ztreamer.Chain.BlockParsers
import Ztreamer.Chain.Indexing

/-! # Chains of small blocks

    A family of chains whose blocks have `n` Sapling outputs each: the chain `fork`
    has the blocks of the main chain below height `fork`, and blocks of its own from
    there on. Every such chain can be indexed, and no two blocks of two of them
    have one hash. They stand for the chains of a node wherever a statement
    needs one. The blocks of a plain chain are empty.
-/

namespace Ztreamer

open Octets Octets.Parser Result

/-- The hash of the block at `height`: the branch and the height. -/
def plainHash (fork height : Nat) : Hash :=
  .ofNat 32 ((if height < fork then 0 else fork + 1) * 2 ^ 33 + (height + 1))

/-- The hash of the block below `height`. -/
def plainParent (fork : Nat) : Nat → Hash
  | 0 => genesisPreviousBlockHash
  | height + 1 => plainHash fork height

/-- A header with its version, its parent and zeros elsewhere. -/
def plainHeader (fork height : Nat) : BlockHeader where
  version := .ofNat 4 0x04000000
  previousHash := plainParent fork height
  merkleRoot := .ofNat 32 0
  commitments := .ofNat 32 0
  time := 0
  bitsAndNonce := .ofNat 36 0

/-- A transaction of version 4 with `n` outputs. -/
def outputsOnly (n : Nat) : WireTransaction :=
  .v4 ⟨[], []⟩ (.ofNat 16 0)
    { spends := []
      outputs := List.replicate n ⟨.ofNat 32 0, .ofNat 32 0, .ofNat 32 0, .ofNat 52 0,
        .ofNat 608 0, .ofNat 192 0⟩
      joinsplits := ⟨[], .ofNat 96 0⟩
      bindingSignature := .ofNat 64 0 }

/-- The transactions of a block with `n` outputs. -/
def branchTxs : Nat → List WireTransaction
  | 0 => []
  | n + 1 => [outputsOnly (n + 1)]

def branchTxids (n fork height : Nat) : List Hash :=
  (branchTxs n).map fun _ => plainHash fork height

/-- A header, no solution, and the transactions. -/
def branchRaw (n fork height : Nat) : RawIndexBlock where
  height := Fin.ofNat _ height
  hash := plainHash fork height
  bytes := blockBytes (plainHeader fork height) [] (branchTxids n fork height).length
    ((branchTxs n).map WireTransaction.serialize).flatten
  txids := branchTxids n fork height

def branchParsed (n fork height : Nat) : ParsedCompactBlock where
  height := Fin.ofNat _ height
  hash := plainHash fork height
  previousHash := plainParent fork height
  time := 0
  transactions := (branchTxs n).map (·.compact (plainHash fork height) 0)
  saplingAdditions := Fin.ofNat _ n
  orchardAdditions := 0
  ironwoodAdditions := 0

def branchRecord (n fork height : Nat) : CompactBlockRecord :=
  (branchParsed n fork height).toRecord ⟨Fin.ofNat _ ((height + 1) * n), 0, 0⟩

def branchBlocks (n fork length : Nat) : List RawIndexBlock :=
  (List.range length).map (branchRaw n fork)

def branchRecords (n fork length : Nat) : List CompactBlockRecord :=
  (List.range length).map (branchRecord n fork)

abbrev plainRaw (fork height : Nat) : RawIndexBlock := branchRaw 0 fork height

abbrev plainParsed (fork height : Nat) : ParsedCompactBlock := branchParsed 0 fork height

abbrev plainRecord (fork height : Nat) : CompactBlockRecord := branchRecord 0 fork height

abbrev plainBlocks (fork n : Nat) : List RawIndexBlock := branchBlocks 0 fork n

abbrev plainRecords (fork n : Nat) : List CompactBlockRecord := branchRecords 0 fork n

@[simp]
theorem length_branchBlocks (n fork length : Nat) :
    (branchBlocks n fork length).length = length := by
  simp [branchBlocks]

@[simp]
theorem length_branchRecords (n fork length : Nat) :
    (branchRecords n fork length).length = length := by
  simp [branchRecords]

theorem plainRecords_succ (fork n : Nat) :
    plainRecords fork (n + 1) = plainRecord fork 0 :: (plainRecords fork (n + 1)).tail := by
  simp [branchRecords, List.range_succ_eq_map]

/-- The height in a hash. -/
def plainHeight (hash : Hash) : Nat := beNat hash.val % 2 ^ 33 - 1

theorem beNat_plainHash {fork height : Nat} (hheight : height < 2 ^ 32) :
    beNat (plainHash fork height).val =
      (if height < fork then 0 else fork + 1) * 2 ^ 33 + (height + 1) := by
  refine beNat_beBytes 32 _ ?_
  split <;> omega

theorem plainHeight_plainHash {fork height : Nat} (hheight : height < 2 ^ 32) :
    plainHeight (plainHash fork height) = height := by
  rw [plainHeight, beNat_plainHash hheight]
  omega

variable {n fork fork' length length' : Nat}

/-- A hash determines the height and the parent. -/
theorem plainHash_inj {height height' : Nat} (hheight : height < 2 ^ 32)
    (hheight' : height' < 2 ^ 32) (h : plainHash fork height = plainHash fork' height') :
    height = height' ∧ plainParent fork height = plainParent fork' height' := by
  have hval := congrArg (fun hash : Hash => beNat hash.val) h
  simp only [beNat_plainHash hheight, beNat_plainHash hheight'] at hval
  have hsame : height = height' := by split at hval <;> split at hval <;> omega
  subst hsame
  have hbranch : (if height < fork then 0 else fork + 1) =
      if height < fork' then 0 else fork' + 1 := by omega
  refine ⟨rfl, ?_⟩
  -- the block below is on the same branch, too
  cases height with
  | zero => rfl
  | succ height =>
    have hbelow : (if height < fork then 0 else fork + 1) =
        if height < fork' then 0 else fork' + 1 := by
      clear hval h hheight hheight'
      split at hbranch <;> split at hbranch <;> split <;> split <;> omega
    simp only [plainParent, plainHash, hbelow]

/-- A hash determines the block. -/
theorem branchRaw_eq_of_hash {height height' : Nat} (hheight : height < 2 ^ 32)
    (hheight' : height' < 2 ^ 32) (h : plainHash fork height = plainHash fork' height') :
    branchRaw n fork height = branchRaw n fork' height' := by
  obtain ⟨rfl, hparent⟩ := plainHash_inj hheight hheight' h
  simp only [branchRaw, branchTxids, plainHeader, h, hparent]

/-- The main chain and a branch share their blocks below the fork. -/
theorem branchRecords_getElem? {i : Nat} (hi : i < length) :
    (branchRecords n fork length)[i]? = some (branchRecord n fork i) := by
  rw [branchRecords, List.getElem?_map, List.getElem?_range hi]
  rfl

theorem branchRecords_take_eq {m : Nat} (hfork : m ≤ fork) (hfork' : m ≤ fork')
    (hlength : m ≤ length) (hlength' : m ≤ length') :
    (branchRecords n fork length).take m = (branchRecords n fork' length').take m := by
  have hhash : ∀ i < m, plainHash fork i = plainHash fork' i := by
    intro i hi
    rw [plainHash, plainHash, if_pos (by omega), if_pos (by omega)]
  rw [branchRecords, branchRecords, ← List.map_take, ← List.map_take, List.take_range,
    List.take_range, Nat.min_eq_left hlength, Nat.min_eq_left hlength']
  refine List.map_congr_left fun i hi => ?_
  have hi := List.mem_range.mp hi
  have hparent : plainParent fork i = plainParent fork' i := by
    cases i with
    | zero => rfl
    | succ i => exact hhash i (by omega)
  unfold branchRecord branchParsed
  rw [hhash i hi, hparent]

theorem branchBlocks_getElem? {i : Nat} {b : RawIndexBlock} :
    (branchBlocks n fork length)[i]? = some b ↔ i < length ∧ b = branchRaw n fork i := by
  rw [branchBlocks, List.getElem?_map]
  by_cases hi : i < length
  · simp [hi, eq_comm]
  · simp [hi]

theorem branchBlocks_take {m : Nat} (h : m ≤ length) :
    (branchBlocks n fork length).take m = branchBlocks n fork m := by
  rw [branchBlocks, ← List.map_take, List.take_range, Nat.min_eq_left h, branchBlocks]

theorem branchBlocks_noCollision (hlength : length ≤ 2 ^ 32) (hlength' : length' ≤ 2 ^ 32) :
    NoCollision (branchBlocks n fork length) (branchBlocks n fork' length') := by
  intro a ha b hb hhash
  obtain ⟨i, hi⟩ := List.mem_iff_getElem?.mp ha
  obtain ⟨j, hj⟩ := List.mem_iff_getElem?.mp hb
  obtain ⟨hi, rfl⟩ := branchBlocks_getElem?.mp hi
  obtain ⟨hj, rfl⟩ := branchBlocks_getElem?.mp hj
  exact branchRaw_eq_of_hash (by omega) (by omega) hhash

theorem plainHash_eq_iff {height : Nat} (hheight : height < 2 ^ 32) :
    plainHash fork height = plainHash fork' height ↔
      fork = fork' ∨ height < fork ∧ height < fork' := by
  constructor
  · intro h
    have hval := congrArg (fun hash : Hash => beNat hash.val) h
    simp only [beNat_plainHash hheight] at hval
    have hbranch : (if height < fork then 0 else fork + 1) =
        if height < fork' then 0 else fork' + 1 := by omega
    clear hval h hheight
    split at hbranch <;> split at hbranch <;> omega
  · rintro (rfl | ⟨hlt, hlt'⟩)
    · rfl
    · rw [plainHash, plainHash, if_pos hlt, if_pos hlt']

theorem branchBlocks_rawChain (hlength : length ≤ 2 ^ 32) :
    RawChain (branchBlocks n fork length) where
  height i b hi := by
    obtain ⟨hi, rfl⟩ := branchBlocks_getElem?.mp hi
    simp only [branchRaw, Fin.val_ofNat]
    omega
  parent i b hi := by
    obtain ⟨hi, rfl⟩ := branchBlocks_getElem?.mp hi
    rw [branchRaw, blockBytes, headerPreviousHash_encode, branchBlocks_take (by omega)]
    cases i with
    | zero => rfl
    | succ i =>
      rw [← branchBlocks_take (Nat.le_refl (i + 1)),
        tipHash_take_succ (branchBlocks_getElem?.mpr ⟨by omega, rfl⟩)]
      rfl

/-- Two chains of the family have the blocks below both forks in common. -/
theorem branchBlocks_commonLength (hlength : length ≤ 2 ^ 32) (hlength' : length' ≤ 2 ^ 32) :
    commonLength (branchBlocks n fork length) (branchBlocks n fork' length') =
      if fork = fork' then min length length' else min (min length length') (min fork fork') := by
  refine eq_of_forall_lt_iff fun i => ?_
  rw [(branchBlocks_rawChain hlength).lt_commonLength_iff (branchBlocks_rawChain hlength')
    (branchBlocks_noCollision hlength hlength')]
  simp only [branchBlocks_getElem?]
  constructor
  · rintro ⟨-, -, ⟨hi, rfl⟩, ⟨hi', rfl⟩, hhash⟩
    have hfork := (plainHash_eq_iff (by omega)).mp hhash
    split <;> omega
  · intro hi
    have hlt : i < length ∧ i < length' ∧ (fork = fork' ∨ i < fork ∧ i < fork') := by
      split at hi <;> omega
    exact ⟨_, _, ⟨hlt.1, rfl⟩, ⟨hlt.2.1, rfl⟩, (plainHash_eq_iff (by omega)).mpr hlt.2.2⟩

theorem outputsOnly_length_le (n : Nat) : (outputsOnly n).serialize.length ≤ 101 + 948 * n := by
  have houtputs := length_flatMap_const SaplingOutput.encodeV4_length (List.replicate n
    ⟨.ofNat 32 0, .ofNat 32 0, .ofNat 32 0, .ofNat 52 0, .ofNat 608 0, .ofNat 192 0⟩)
  have hcount := compactSizeBytes_length_le n
  have hzero : (compactSizeBytes 0).length = 1 := by decide
  have hsignature : (if n = 0 then [] else (ByteVec.ofNat 64 0).val).length ≤ 64 := by
    split <;> simp
  simp only [outputsOnly, WireTransaction.serialize, TransparentBundle.encode, SaplingV4.encode,
    JoinSplits.encode, vectorBytes, List.length_append, houtputs, List.length_replicate,
    ByteVec.val_length, leBytes_length, List.flatMap_nil, List.length_nil, if_true, true_and,
    List.replicate_eq_nil_iff, hzero]
  omega

theorem branchRaw_length_le (n fork height : Nat) :
    (branchRaw n fork height).bytes.length ≤ 243 + 948 * n := by
  have hheader := (plainHeader fork height).encode_length
  have hzero : (compactSizeBytes 0).length = 1 := by decide
  have hone : (compactSizeBytes 1).length = 1 := by decide
  cases n with
  | zero =>
    simp [branchRaw, blockBytes, branchTxs, branchTxids, hheader, hzero, headerPrefixBytes]
  | succ n =>
    have hle := outputsOnly_length_le (n + 1)
    simp only [headerPrefixBytes] at hheader
    simp [branchRaw, blockBytes, branchTxs, branchTxids, hheader, hzero, hone]
    omega

theorem parseBlock_branchRaw (hn : 101 + 948 * n ≤ maxTransactionBytes) (fork height : Nat) :
    parseBlock (branchRaw n fork height) = .ok (branchParsed n fork height) := by
  refine parseBlock_eq_ok.mpr ⟨Nat.zero_le _, ?_, (branchTxs n).map WireTransaction.serialize,
    by rw [branchTxids, List.length_map, List.length_map], rfl, ?_⟩
  · cases n <;> simp [branchTxids, branchTxs, maxVectorItems]
  cases n with
  | zero => rfl
  | succ n =>
    have hlength := (outputsOnly_length_le (n + 1)).trans hn
    have hnormal : (outputsOnly (n + 1)).Normal :=
      ⟨fun _ => rfl, fun h => (List.cons_ne_nil _ _ h.2).elim⟩
    have hparse : parseTransaction (outputsOnly (n + 1)).serialize (plainHash fork height) 0 =
        .ok ((outputsOnly (n + 1)).compact (plainHash fork height) 0) :=
      parseTransaction_eq_ok.mpr ⟨hlength, _, hnormal, rfl, Nat.zero_le _, rfl⟩
    have hsapling :
      ((outputsOnly (n + 1)).compact (plainHash fork height) 0).saplingOutputs.length =
        n + 1 := by
      simp [outputsOnly, WireTransaction.compact, WireTransaction.saplingOutputs]
    have hpayload : ((outputsOnly (n + 1)).compact (plainHash fork height) 0).hasPayload :=
      .inr (.inl (List.ne_nil_of_length_pos (by omega)))
    simp only [maxTransactionBytes] at hn
    have hpush : (BlockTransactions.new (Fin.ofNat _ height)).push
        ((outputsOnly (n + 1)).compact (plainHash fork height) 0) = .ok ⟨Fin.ofNat _ height,
          [(outputsOnly (n + 1)).compact (plainHash fork height) 0], n + 1, 0, 0⟩ := by
      simp only [BlockTransactions.push, BlockTransactions.new, hsapling, if_pos hpayload,
        List.nil_append, Nat.zero_add]
      rw [ensure_of _ (by omega : n + 1 < 2 ^ 64), ok_bind]
      rfl
    have hcount : ofNat? 4294967296 (n + 1) = some (Fin.ofNat _ (n + 1)) := by
      rw [ofNat?_eq_some, Fin.val_ofNat, Nat.mod_eq_of_lt (by omega)]
    simp only [parseStoredBlock, branchTxids, branchTxs, List.map_cons, List.map_nil,
      List.zip_cons_cons, List.zip_nil_left, parseStoredTransactions]
    rw [show (Fin.ofNat _ 0 : U64) = 0 from rfl, hparse, okMapError_ok, ok_bind, hpush]
    simp only [ok_bind, BlockTransactions.intoBlock, hcount, okOr_some]
    rfl

theorem parseBlock_plainRaw (fork height : Nat) :
    parseBlock (plainRaw fork height) = .ok (plainParsed fork height) :=
  parseBlock_branchRaw (by decide) fork height

/-- Each block of the chain adds its outputs to the tree sizes. -/
theorem indexBlocks_branchParsed (fork start : Nat) (hsizes : (start + length) * n < 2 ^ 32) :
    indexBlocks ⟨Fin.ofNat _ (start * n), 0, 0⟩
        ((List.range' start length).map (branchParsed n fork)) =
      some ((List.range' start length).map (branchRecord n fork)) := by
  induction length generalizing start with
  | zero => rfl
  | succ length ih =>
    have hmore := @ih (start + 1) (by rwa [Nat.add_right_comm])
    have hle : (start + 1) * n ≤ (start + (length + 1)) * n := Nat.mul_le_mul_right n (by omega)
    rw [Nat.succ_mul] at hle
    rw [List.range'_succ, List.map_cons, List.map_cons, indexBlocks_cons_eq_some]
    refine ⟨branchRecord n fork start, _, ?_, hmore, rfl⟩
    rw [ParsedCompactBlock.intoRecord_eq_some]
    refine ⟨⟨Fin.ofNat _ ((start + 1) * n), 0, 0⟩, TreeSizes.checkedAdd_eq_some.mpr ⟨?_, rfl, rfl⟩,
      rfl⟩
    simp only [branchParsed, ParsedCompactBlock.additions, Fin.val_ofNat, Nat.succ_mul]
    rw [Nat.mod_eq_of_lt (by omega), Nat.mod_eq_of_lt (by omega), Nat.mod_eq_of_lt (by omega)]

/-- Every chain of the family can be indexed while the tree is not full. -/
theorem branchBlocks_indexed (fork : Nat) (hn : 101 + 948 * n ≤ maxTransactionBytes)
    (hlength : length ≤ 2 ^ 32) (hsizes : length * n < 2 ^ 32) :
    Indexed (branchBlocks n fork length) ((List.range length).map (branchParsed n fork))
      (branchRecords n fork length) where
  chain := branchBlocks_rawChain hlength
  parse := by
    rw [branchBlocks, List.mapM_map]
    exact mapM_eq_ok_map fun height _ => parseBlock_branchRaw hn fork height
  index := by
    have hindex := @indexBlocks_branchParsed n length fork 0 (by rwa [Nat.zero_add])
    rw [← List.range_eq_range', show (⟨Fin.ofNat _ (0 * n), 0, 0⟩ : TreeSizes) = default by
      rw [Nat.zero_mul]; rfl] at hindex
    exact hindex

theorem plainBlocks_indexed (fork : Nat) (hlength : length ≤ 2 ^ 32) :
    Indexed (plainBlocks fork length) ((List.range length).map (plainParsed fork))
      (plainRecords fork length) :=
  branchBlocks_indexed fork (by decide) hlength (by omega)

end Ztreamer
