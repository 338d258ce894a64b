import Ztreamer.Chain.TransactionSoundness

/-! # The two block parsers

    `parseBlock` finds the boundaries of the transactions in the bytes of a
    block; `parseStoredBlock` is given each transaction apart. They agree on
    every block whose solution and count `parseBlock` can read, since no
    transaction is the beginning of another one.
-/

namespace Ztreamer

open Octets Octets.Parser Result TxReader

/-! ## Blocks on the wire -/

/-- The part of a block header before its solution. -/
structure BlockHeader where
  version : ByteVec 4
  previousHash : Hash
  merkleRoot : ByteVec 32
  commitments : ByteVec 32
  time : U32
  bitsAndNonce : ByteVec 36

def BlockHeader.encode (h : BlockHeader) : Bytes :=
  h.version.val ++ (h.previousHash.val ++ (h.merkleRoot.val ++ (h.commitments.val ++
    (leBytes 4 h.time.val ++ h.bitsAndNonce.val))))

/-- A block: its header, its solution, the count of its transactions, and their bytes. -/
def blockBytes (header : BlockHeader) (solution : Bytes) (count : Nat) (body : Bytes) : Bytes :=
  header.encode ++ (compactSizeBytes solution.length ++ (solution ++
    (compactSizeBytes count ++ body)))

theorem BlockHeader.encode_length (h : BlockHeader) : h.encode.length = headerPrefixBytes := by
  simp [BlockHeader.encode, headerPrefixBytes]

theorem headerPreviousHash_encode (h : BlockHeader) (rest : Bytes) :
    headerPreviousHash (h.encode ++ rest) = some h.previousHash := by
  have hbytes : ((h.encode ++ rest).drop 4).take 32 = h.previousHash.val := by
    rw [BlockHeader.encode, List.append_assoc, List.drop_left' h.version.val_length,
      List.append_assoc, List.take_left' h.previousHash.val_length]
  rw [headerPreviousHash, hbytes, ByteVec.ofBytes?_val]

theorem headerTime_encode (h : BlockHeader) (rest : Bytes) :
    headerTime (h.encode ++ rest) = some h.time := by
  have hbytes : ((h.encode ++ rest).drop 100).take 4 = leBytes 4 h.time.val := by
    have hfront : (h.version.val ++ (h.previousHash.val ++ (h.merkleRoot.val ++
        h.commitments.val))).length = 100 := by simp
    have hsplit : h.encode ++ rest = (h.version.val ++ (h.previousHash.val ++
        (h.merkleRoot.val ++ h.commitments.val))) ++ (leBytes 4 h.time.val ++
          (h.bitsAndNonce.val ++ rest)) := by
      simp only [BlockHeader.encode, List.append_assoc]
    rw [hsplit, List.drop_left' hfront, List.take_left' (leBytes_length 4 _)]
  have hvec : ByteVec.ofBytes? 4 (leBytes 4 h.time.val) =
      some ⟨leBytes 4 h.time.val, leBytes_length 4 _⟩ :=
    ByteVec.ofBytes?_val ⟨leBytes 4 h.time.val, leBytes_length 4 _⟩
  rw [headerTime, hbytes, hvec]
  show ofNat? _ (leNat (leBytes 4 h.time.val)) = some h.time
  rw [leNat_leBytes 4 _ h.time.isLt, ofNat?_val]

/-! ## One transaction -/

variable {txid : Hash} {compact : CompactTransaction} {part tail : Bytes} {offset index : Nat}
  {height : U32} {txids : List Hash} {acc acc' : BlockTransactions} {parts : List Bytes}
  {parsed : ParsedCompactBlock}

/-- What the block parser takes as the next transaction is a byte string that the
    parser of one transaction accepts. -/
theorem parseTransactionFrom_ok {index : U64} {r r' : Cursor}
    (h : parseTransactionFrom txid index r = .ok (compact, r'))
    (hmax : r'.offset - r.offset ≤ maxTransactionBytes) :
    ∃ part, r.rest = part ++ r'.rest ∧ r'.offset = r.offset + part.length ∧
      parseTransaction part txid index = .ok compact := by
  obtain ⟨part, hrest, hoffset, htx⟩ := reads_transaction txid index r compact r' h
  exact ⟨part, hrest, hoffset, parseTransaction_eq_ok.mpr ⟨by omega, htx⟩⟩

/-- The bytes after an accepted transaction change nothing. -/
theorem parseTransactionFrom_of_parseTransaction {index : U64}
    (h : parseTransaction part txid index = .ok compact)
    (hlen : offset + (part ++ tail).length < 2 ^ 64) :
    parseTransactionFrom txid index ⟨part ++ tail, offset⟩ =
      .ok (compact, ⟨tail, offset + part.length⟩) := by
  obtain ⟨hmax, tx, _, rfl, houtputs, rfl⟩ := parseTransaction_eq_ok.mp h
  exact parses_transaction hmax houtputs txid index tail offset hlen

/-! ## All transactions -/

/-- The block parser has split what it has read into stored transactions. -/
theorem parseTransactions_split {r r' : Cursor}
    (h : parseTransactions height index txids r acc = .ok (r', acc')) :
    ∃ parts : List Bytes, parts.length = txids.length ∧ r.rest = parts.flatten ++ r'.rest ∧
      parseStoredTransactions height index (parts.zip txids) acc = .ok acc' := by
  induction txids generalizing index r acc with
  | nil =>
    cases h
    exact ⟨[], rfl, rfl, rfl⟩
  | cons txid txids ih =>
    simp only [parseTransactions, bind_eq_ok, okMapError_eq_ok, ensure_eq_ok, Prod.exists] at h
    obtain ⟨compact, r₁, hparse, _, hmax, acc₁, hpush, h⟩ := h
    obtain ⟨part, hrest, -, hpart⟩ := parseTransactionFrom_ok hparse hmax
    obtain ⟨parts, hlen, hrest', hstored⟩ := ih h
    refine ⟨part :: parts, by simp [hlen], ?_, ?_⟩
    · rw [hrest, hrest', List.flatten_cons, List.append_assoc]
    · rw [List.zip_cons_cons, parseStoredTransactions, hpart, okMapError_ok, ok_bind, hpush,
        ok_bind,
        hstored]

/-- The block parser reads stored transactions that stand next to each other. -/
theorem parseTransactions_of_stored {height : U32} {index : Nat} {txids : List Hash}
    {parts : List Bytes} {acc acc' : BlockTransactions} (hcount : parts.length = txids.length)
    (h : parseStoredTransactions height index (parts.zip txids) acc = .ok acc') {tail : Bytes}
    {offset : Nat} (hlen : offset + (parts.flatten ++ tail).length < 2 ^ 64) :
    parseTransactions height index txids ⟨parts.flatten ++ tail, offset⟩ acc =
      .ok (⟨tail, offset + parts.flatten.length⟩, acc') := by
  induction txids generalizing index parts offset acc with
  | nil =>
    obtain rfl := List.eq_nil_of_length_eq_zero hcount
    cases h
    rfl
  | cons txid txids ih =>
    cases parts with
    | nil => cases hcount
    | cons part parts =>
      simp only [List.zip_cons_cons, parseStoredTransactions, bind_eq_ok, okMapError_eq_ok] at h
      obtain ⟨compact, hpart, acc₁, hpush, h⟩ := h
      rw [List.flatten_cons, List.append_assoc] at hlen ⊢
      have hmax := (parseTransaction_eq_ok.mp hpart).1
      rw [parseTransactions, parseTransactionFrom_of_parseTransaction hpart hlen, okMapError_ok,
        ok_bind]
      rw [List.length_append] at hlen
      have hrest : parseTransactions height (index + 1) txids
          ⟨parts.flatten ++ tail, offset + part.length⟩ acc₁ = _ :=
        ih (Nat.succ.inj hcount) h (by omega)
      show (ensure (offset + part.length - offset ≤ maxTransactionBytes) _ >>= fun _ => _) = _
      rw [ensure_of _ (by omega), ok_bind, hpush, ok_bind, hrest, List.length_append,
        Nat.add_assoc]

/-- Each stored transaction that is accepted is accepted on its own. -/
theorem parseStoredTransactions_mem (hcount : parts.length = txids.length)
    (h : parseStoredTransactions height index (parts.zip txids) acc = .ok acc') :
    ∀ part ∈ parts, ∃ txid index compact, parseTransaction part txid index = .ok compact := by
  induction txids generalizing index parts acc with
  | nil =>
    obtain rfl := List.eq_nil_of_length_eq_zero hcount
    simp
  | cons txid txids ih =>
    cases parts with
    | nil => cases hcount
    | cons part parts =>
      simp only [List.zip_cons_cons, parseStoredTransactions, bind_eq_ok, okMapError_eq_ok] at h
      obtain ⟨compact, hpart, acc₁, -, h⟩ := h
      intro part' hmem
      rcases List.mem_cons.mp hmem with rfl | hmem
      · exact ⟨_, _, _, hpart⟩
      · exact ih (Nat.succ.inj hcount) h part' hmem

/-- Two accepted transactions that start the same bytes are the same. -/
theorem parts_head_eq {part' rest rest' : Bytes} {txid' : Hash} {index index' : U64}
    {compact' : CompactTransaction} (h : parseTransaction part txid index = .ok compact)
    (h' : parseTransaction part' txid' index' = .ok compact') (heq : part ++ rest = part' ++ rest')
    : part = part' := by
  rcases List.append_eq_append_iff.mp heq with ⟨more, hpart, -⟩ | ⟨more, hpart, -⟩
  · by_contra hne
    subst hpart
    obtain ⟨e, he⟩ := parseTransaction_append_error h (Ne.symm hne) txid' index'
    rw [he] at h'
    cases h'
  · by_contra hne
    subst hpart
    obtain ⟨e, he⟩ := parseTransaction_append_error h' hne txid index
    rw [he] at h
    cases h

/-- A body is split into accepted transactions in at most one way. -/
theorem parts_unique {parts' : List Bytes} (hcount : parts.length = parts'.length)
    (h : ∀ part ∈ parts, ∃ txid index compact, parseTransaction part txid index = .ok compact)
    (h' : ∀ part ∈ parts', ∃ txid index compact, parseTransaction part txid index = .ok compact)
    (heq : parts.flatten = parts'.flatten) : parts = parts' := by
  induction parts generalizing parts' with
  | nil => exact (List.eq_nil_of_length_eq_zero hcount.symm).symm
  | cons part parts ih =>
    cases parts' with
    | nil => cases hcount
    | cons part' parts' =>
      obtain ⟨_, _, _, hpart⟩ := h part List.mem_cons_self
      obtain ⟨_, _, _, hpart'⟩ := h' part' List.mem_cons_self
      rw [List.flatten_cons, List.flatten_cons] at heq
      obtain rfl := parts_head_eq hpart hpart' heq
      rw [ih (Nat.succ.inj hcount) (fun p hp => h p (List.mem_cons_of_mem _ hp))
        (fun p hp => h' p (List.mem_cons_of_mem _ hp)) (List.append_cancel_left heq)]

/-- Accepted transactions are not too large. -/
theorem length_flatten_le
    (h : ∀ part ∈ parts, ∃ txid index compact, parseTransaction part txid index = .ok compact) :
    parts.flatten.length ≤ parts.length * maxTransactionBytes := by
  induction parts with
  | nil => exact Nat.zero_le _
  | cons part parts ih =>
    obtain ⟨_, _, _, hpart⟩ := h part List.mem_cons_self
    have hmax := (parseTransaction_eq_ok.mp hpart).1
    have hrest := ih fun p hp => h p (List.mem_cons_of_mem _ hp)
    rw [List.flatten_cons, List.length_append, List.length_cons, Nat.succ_mul]
    omega

/-! ## Whole blocks -/

/-- A block that the block parser accepts, taken apart. -/
theorem parseBlock_parts {block : RawIndexBlock} (h : parseBlock block = .ok parsed) :
    ∃ (front solution : Bytes) (parts : List Bytes) (previousHash : Hash) (time : U32),
      front.length = headerPrefixBytes ∧ solution.length ≤ maxEquihashSolutionBytes ∧
      block.txids.length ≤ maxVectorItems ∧
      block.bytes = front ++ (compactSizeBytes solution.length ++ (solution ++
        (compactSizeBytes block.txids.length ++ parts.flatten))) ∧
      headerPreviousHash block.bytes = some previousHash ∧ headerTime block.bytes = some time ∧
      parts.length = block.txids.length ∧
      parseStoredBlock block.height block.hash previousHash time (parts.zip block.txids) =
        .ok parsed := by
  simp only [parseBlock, bind_eq_ok, okMapError_eq_ok, okOr_eq_ok, ensure_eq_ok, Prod.exists] at h
  obtain ⟨_, r₁, hfront, n, r₂, hsize, _, r₃, hsolution, k, r₄, hcount, _, hk, previousHash,
    hprevious, time, htime, r₅, transactions, htxs, _, _, hfinish, hblock⟩ := h
  obtain ⟨front, hrest₁, -, hfrontLen⟩ := reads_skip _ _ _ _ hfront
  obtain ⟨size, hrest₂, -, rfl, hmax⟩ := reads_compactSize _ _ _ _ hsize
  obtain ⟨solution, hrest₃, -, rfl⟩ := reads_skip _ _ _ _ hsolution
  obtain ⟨count, hrest₄, -, rfl, hcountMax⟩ := reads_compactSize _ _ _ _ hcount
  obtain ⟨parts, hlen, hrest₅, hstored⟩ := parseTransactions_split htxs
  have hnil : r₅.rest = [] := by
    by_contra hne
    simp [finish, hne] at hfinish
  refine ⟨front, solution, parts, previousHash, time, hfrontLen, hmax, hk ▸ hcountMax, ?_,
    hprevious,
    htime, hlen, ?_⟩
  · rw [hnil, List.append_nil] at hrest₅
    rw [← hk, ← hrest₅, ← hrest₄, ← hrest₃, ← hrest₂, ← hrest₁]
  · rw [parseStoredBlock, hstored, ok_bind, hblock]

/-- A block within the limits of the block parser has 64-bit offsets. -/
theorem block_length_lt {hash previousHash : Hash} {time : U32} {solution : Bytes}
    (hsolution : solution.length ≤ maxEquihashSolutionBytes)
    (hcount : txids.length ≤ maxVectorItems) (hlen : parts.length = txids.length)
    (h : parseStoredBlock height hash previousHash time (parts.zip txids) = .ok parsed) :
    headerPrefixBytes + (compactSizeBytes solution.length ++ (solution ++
      (compactSizeBytes txids.length ++ parts.flatten))).length < 2 ^ 63 := by
  simp only [parseStoredBlock, bind_eq_ok] at h
  obtain ⟨transactions, htxs, -⟩ := h
  have hflat := length_flatten_le (parseStoredTransactions_mem hlen htxs)
  have h₁ := compactSizeBytes_length_le solution.length
  have h₂ := compactSizeBytes_length_le txids.length
  rw [hlen] at hflat
  simp only [List.length_append, headerPrefixBytes, maxEquihashSolutionBytes, maxVectorItems,
    maxTransactionBytes] at *
  omega

/-- The block parser accepts a block exactly if its body is a list of stored
    transactions that are accepted, and its solution and count are within their
    limits. -/
theorem parseBlock_eq_ok {hash : Hash} {header : BlockHeader} {solution body : Bytes} :
    parseBlock ⟨height, hash, blockBytes header solution txids.length body, txids⟩ = .ok parsed ↔
      solution.length ≤ maxEquihashSolutionBytes ∧ txids.length ≤ maxVectorItems ∧
        ∃ parts : List Bytes, parts.length = txids.length ∧ parts.flatten = body ∧
          parseStoredBlock height hash header.previousHash header.time (parts.zip txids) =
            .ok parsed := by
  constructor
  · intro h
    obtain ⟨front, solution', parts, previousHash, time, hfront, hsolution, hcount, hbytes,
      hprevious, htime, hlen, hstored⟩ := parseBlock_parts h
    dsimp only at hcount hbytes hprevious htime hlen hstored
    rw [blockBytes, headerPreviousHash_encode, Option.some.injEq] at hprevious
    rw [blockBytes, headerTime_encode, Option.some.injEq] at htime
    subst hprevious htime
    -- what was read is short enough for its parts to be told apart
    have hsmall := block_length_lt hsolution hcount hlen hstored
    obtain ⟨-, hrest⟩ := List.append_inj hbytes.symm
      (by rw [hfront, BlockHeader.encode_length])
    obtain ⟨rfl, hbody⟩ := lengthPrefixed_append_inj hrest (by omega)
    exact ⟨hsolution, hcount, parts, hlen, List.append_cancel_left hbody, hstored⟩
  · rintro ⟨hsolution, hcount, parts, hlen, hbody, hstored⟩
    subst hbody
    have hsmall := block_length_lt hsolution hcount hlen hstored
    simp only [List.length_append] at hsmall
    simp only [parseStoredBlock, bind_eq_ok] at hstored
    obtain ⟨transactions, htxs, hblock⟩ := hstored
    have hprevious := headerPreviousHash_encode header (compactSizeBytes solution.length ++
      (solution ++ (compactSizeBytes txids.length ++ parts.flatten)))
    have htime := headerTime_encode header (compactSizeBytes solution.length ++
      (solution ++ (compactSizeBytes txids.length ++ parts.flatten)))
    have hheader := header.encode_length
    simp only [headerPrefixBytes] at hheader
    -- the reader follows the layout of the block
    have hread₁ := parses_skip header.encode_length (compactSizeBytes solution.length ++
      (solution ++ (compactSizeBytes txids.length ++ parts.flatten))) 0
      (by simp only [List.length_append]; omega)
    have hread₂ := parses_compactSize hsolution (by omega) (solution ++
      (compactSizeBytes txids.length ++ parts.flatten)) (0 + header.encode.length)
      (by simp only [List.length_append]; omega)
    have hskip : Parses (skip solution.length) solution () := parses_skip rfl
    have hread₃ := hskip (compactSizeBytes txids.length ++ parts.flatten)
      (0 + header.encode.length + (compactSizeBytes solution.length).length)
      (by simp only [List.length_append]; omega)
    have hcountLt : txids.length < 2 ^ 64 := by
      simp only [maxVectorItems] at hcount
      omega
    have hread₄ := parses_compactSize hcount hcountLt parts.flatten
      (0 + header.encode.length + (compactSizeBytes solution.length).length + solution.length)
      (by simp only [List.length_append]; omega)
    have hread₅ : parseTransactions height 0 txids ⟨parts.flatten ++ [], 0 + header.encode.length +
        (compactSizeBytes solution.length).length + solution.length +
        (compactSizeBytes txids.length).length⟩ (.new height) = _ :=
      parseTransactions_of_stored hlen htxs (by simp only [List.append_nil]; omega)
    rw [List.append_nil] at hread₅
    simp only [parseBlock, blockBytes, hread₁, hread₂, hread₃, hread₄, hread₅, hprevious, htime,
      okMapError_ok, ok_bind, okOr_some, finish, if_true, hblock]
    rfl

/-! ## Agreement -/

/-- One transaction of the block parser is one stored transaction, whatever follows. -/
theorem parseTransactions_singleton (hlen : offset + (part ++ tail).length < 2 ^ 64) :
    parseTransactions height index [txid] ⟨part ++ tail, offset⟩ acc =
        .ok (⟨tail, offset + part.length⟩, acc') ↔
      parseStoredTransactions height index [(part, txid)] acc = .ok acc' := by
  constructor
  · intro h
    obtain ⟨parts, hcount, hrest, hstored⟩ := parseTransactions_split h
    obtain ⟨part', rfl⟩ := List.length_eq_one_iff.mp hcount
    rw [List.flatten_cons, List.flatten_nil, List.append_nil] at hrest
    obtain rfl := List.append_cancel_right hrest
    exact hstored
  · intro h
    have hread := @parseTransactions_of_stored height index [txid] [part] acc acc' rfl h tail offset
      (by simpa using hlen)
    simpa using hread

/-- A transaction that is refused on its own is refused in a block, whatever follows. -/
theorem parseTransactions_refuses {tx : WireTransaction} (hnormal : tx.Normal)
    (hlen : offset + (tx.serialize ++ tail).length < 2 ^ 64)
    (h : ∀ acc', parseStoredTransactions height index [(tx.serialize, txid)] acc ≠ .ok acc') :
    ∃ e, parseTransactions height index [txid] ⟨tx.serialize ++ tail, offset⟩ acc = .error e := by
  cases hparse : parseTransactions height index [txid] ⟨tx.serialize ++ tail, offset⟩ acc with
  | error e => exact ⟨e, rfl⟩
  | ok out =>
    -- the bytes that were read are the serialization of a transaction, thus of this one
    obtain ⟨parts, hcount, hrest, hstored⟩ := parseTransactions_split hparse
    obtain ⟨part, rfl⟩ := List.length_eq_one_iff.mp hcount
    obtain ⟨_, _, _, hpart⟩ := parseStoredTransactions_mem hcount hstored part List.mem_cons_self
    obtain ⟨-, tx', hnormal', rfl, -⟩ := parseTransaction_eq_ok.mp hpart
    rw [List.flatten_cons, List.flatten_nil, List.append_nil] at hrest
    obtain ⟨rfl, -⟩ := WireTransaction.serialize_inj hnormal hnormal' (by omega) hrest
    exact absurd hstored (h _)

/-- The two block parsers agree on every block whose solution and count are within
    the limits of the block parser. -/
theorem block_parsers_agree (height : U32) (hash : Hash) (header : BlockHeader)
    (solution body : Bytes) (txids : List Hash) :
    (∀ parsed, parseBlock ⟨height, hash, blockBytes header solution txids.length body, txids⟩ =
        .ok parsed ↔
      solution.length ≤ maxEquihashSolutionBytes ∧ txids.length ≤ maxVectorItems ∧
        ∃ parts : List Bytes, (parts.length = txids.length ∧ parts.flatten = body) ∧
          parseStoredBlock height hash header.previousHash header.time (parts.zip txids) =
            .ok parsed) ∧
      (∀ parts parts' : List Bytes, ∀ parsed parsed',
        (parts.length = txids.length ∧ parts.flatten = body) →
        (parts'.length = txids.length ∧ parts'.flatten = body) →
        parseStoredBlock height hash header.previousHash header.time (parts.zip txids) =
          .ok parsed →
        parseStoredBlock height hash header.previousHash header.time (parts'.zip txids) =
          .ok parsed' → parts = parts') ∧
      ∀ (index : Nat) (txid : Hash) (tail : Bytes) (offset : Nat) (acc : BlockTransactions),
        (∀ part acc', offset + (part ++ tail).length < 2 ^ 64 →
          (parseTransactions height index [txid] ⟨part ++ tail, offset⟩ acc =
              .ok (⟨tail, offset + part.length⟩, acc') ↔
            parseStoredTransactions height index [(part, txid)] acc = .ok acc')) ∧
        ∀ tx : WireTransaction, tx.Normal → offset + (tx.serialize ++ tail).length < 2 ^ 64 →
          (∀ acc', parseStoredTransactions height index [(tx.serialize, txid)] acc ≠ .ok acc') →
          ∃ e, parseTransactions height index [txid] ⟨tx.serialize ++ tail, offset⟩ acc =
            .error e := by
  refine ⟨fun parsed => ?_, ?_, ?_⟩
  · rw [parseBlock_eq_ok]
    simp only [and_assoc]
  · rintro parts parts' parsed parsed' ⟨hcount, hbody⟩ ⟨hcount', hbody'⟩ h h'
    simp only [parseStoredBlock, bind_eq_ok] at h h'
    obtain ⟨_, hstored, -⟩ := h
    obtain ⟨_, hstored', -⟩ := h'
    exact parts_unique (hcount.trans hcount'.symm) (parseStoredTransactions_mem hcount hstored)
      (parseStoredTransactions_mem hcount' hstored') (hbody.trans hbody'.symm)
  · intro index txid tail offset acc
    exact ⟨fun part acc' hlen => parseTransactions_singleton hlen,
      fun tx hnormal hlen h => parseTransactions_refuses hnormal hlen h⟩

/-! ## A count above the limit -/

/-- Transactions without shielded data add nothing to a block. -/
theorem parseStoredTransactions_emptyOutputs (height : U32) (index n : Nat) :
    parseStoredTransactions height index
      (List.replicate n ((emptyOutputs 0).serialize, .ofNat 32 0)) (.new height) =
        .ok (.new height) := by
  induction n generalizing index with
  | zero => rfl
  | succ n ih =>
    have hparse : parseTransaction (emptyOutputs 0).serialize (.ofNat 32 0) (Fin.ofNat _ index) =
        .ok ((emptyOutputs 0).compact (.ofNat 32 0) (Fin.ofNat _ index)) :=
      parseTransaction_eq_ok.mpr ⟨by decide, emptyOutputs 0, trivial, rfl, by decide, rfl⟩
    have hpush : (BlockTransactions.new height).push
        ((emptyOutputs 0).compact (.ofNat 32 0) (Fin.ofNat _ index)) = .ok (.new height) := rfl
    rw [List.replicate_succ, parseStoredTransactions, hparse, okMapError_ok, ok_bind, hpush,
      ok_bind, ih]

/-- A block of more transactions than the block parser counts. Each of them is
    accepted as a stored transaction. -/
theorem parseBlock_refuses_count :
    (∃ parsed, parseStoredBlock 0 (.ofNat 32 0) (.ofNat 32 0) 0
        ((List.replicate 65536 (emptyOutputs 0).serialize).zip
          (List.replicate 65536 (.ofNat 32 0))) = .ok parsed) ∧
      ∀ parsed, parseBlock ⟨0, .ofNat 32 0,
        blockBytes ⟨.ofNat 4 0, .ofNat 32 0, .ofNat 32 0, .ofNat 32 0, 0, .ofNat 36 0⟩ []
          (List.replicate 65536 (ByteVec.ofNat 32 0)).length
          (List.replicate 65536 (emptyOutputs 0).serialize).flatten,
        List.replicate 65536 (.ofNat 32 0)⟩ ≠ .ok parsed := by
  constructor
  · rw [List.zip_replicate']
    exact ⟨_, by rw [parseStoredBlock, parseStoredTransactions_emptyOutputs, ok_bind]; rfl⟩
  · intro parsed h
    have hcount := (parseBlock_eq_ok.mp h).2.1
    rw [List.length_replicate, maxVectorItems] at hcount
    omega

end Ztreamer
