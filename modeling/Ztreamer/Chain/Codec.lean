import Ztreamer.Chain.Proto

/-! # The record codec

    A stored record is an envelope (format version, height, hash, previous
    hash and payload length) followed by the protobuf encoding of the block.

    * `CompactBlockRecord.encode` / `CompactBlockRecord.decode`, with
      `decode_encode`,
    * `StoredBlock`: the three views of a stored record,
    * `encodedSizeBound`: a bound of the encoded size that needs no encoding.
-/

namespace Ztreamer

open Octets Wire Result

/-- The formats that carry a version byte and report it. -/
inductive FormatKind where
  | range
  | rangeMeta
  deriving DecidableEq

inductive CodecError where
  | truncated
  | version (kind : FormatKind) (version : Byte)
  | length
  | trailingBytes
  | invalidRecord
  | invalidRange
  | rangeIndex
  deriving DecidableEq

def blockFormatVersion : Byte := 1

/-- The largest encoded compact block record. -/
def maxRecordBytes : Nat := 2000000

def protobufEnvelopeBytes : Nat := 1 + 2 * 4 + 2 * 32

/-! ## Reader

    A cursor over an encoded value, represented by the bytes it has not read
    yet: no error of the codec carries an offset. -/

namespace Reader

def take (len : Nat) (bytes : Bytes) : Except CodecError (Bytes × Bytes) :=
  if len ≤ bytes.length then .ok (bytes.take len, bytes.drop len) else .error .truncated

def array (n : Nat) (bytes : Bytes) : Except CodecError (ByteVec n × Bytes) :=
  if h : n ≤ bytes.length then .ok (⟨bytes.take n, by simp [h]⟩, bytes.drop n)
  else .error .truncated

def u8 (bytes : Bytes) : Except CodecError (Byte × Bytes) :=
  match bytes with
  | [] => .error .truncated
  | b :: rest => .ok (b, rest)

/-- A big-endian integer of `w` bytes. -/
def uint (w : Nat) (bytes : Bytes) : Except CodecError (Fin (256 ^ w) × Bytes) := do
  let (a, rest) ← array w bytes
  return (⟨beNat a.val, by simpa using beNat_lt a.val⟩, rest)

def u32 (bytes : Bytes) : Except CodecError (U32 × Bytes) := uint 4 bytes

/-- A count or a length. -/
def count (bytes : Bytes) : Except CodecError (Nat × Bytes) := do
  let (n, rest) ← u32 bytes
  return (n.val, rest)

def finish (bytes : Bytes) : Except CodecError Unit := ensure (bytes = []) .trailingBytes

/-! Each read is characterized by the bytes that it consumes. -/

@[simp] theorem take_eq_ok {len : Nat} {bytes a rest : Bytes} :
    take len bytes = .ok (a, rest) ↔ bytes = a ++ rest ∧ a.length = len := by
  unfold take
  split
  · simp only [Except.ok.injEq, Prod.mk.injEq]
    constructor
    · rintro ⟨rfl, rfl⟩
      exact ⟨(List.take_append_drop len bytes).symm, by simpa using ‹_›⟩
    · rintro ⟨rfl, rfl⟩
      simp
  · simp only [reduceCtorEq, false_iff, not_and]
    rintro rfl hlen
    simp only [List.length_append] at *
    omega

variable {bytes rest : Bytes}

@[simp] theorem array_eq_ok {n : Nat} {a : ByteVec n} :
    array n bytes = .ok (a, rest) ↔ bytes = a.val ++ rest := by
  have h := @take_eq_ok n bytes a.val rest
  simp only [a.val_length, and_true] at h
  rw [← h, array, take]
  split <;> simp [ByteVec.ext_iff]

@[simp] theorem u8_eq_ok {b : Byte} : u8 bytes = .ok (b, rest) ↔ bytes = b :: rest := by
  cases bytes <;> simp [u8]

@[simp] theorem uint_eq_ok {w : Nat} {v : Fin (256 ^ w)} :
    uint w bytes = .ok (v, rest) ↔ bytes = beBytes w v.val ++ rest := by
  simp only [uint, bind_eq_ok, Prod.exists, array_eq_ok, pure_eq_ok, Except.ok.injEq,
    Prod.mk.injEq, Fin.ext_iff]
  constructor
  · rintro ⟨a, _, rfl, hv, rfl⟩
    have ha := beBytes_beNat a.val
    rw [a.val_length] at ha
    rw [← hv, ha]
  · rintro rfl
    exact ⟨⟨beBytes w v.val, by simp⟩, rest, rfl, beNat_beBytes w _ v.isLt, rfl⟩

@[simp] theorem u32_eq_ok {v : U32} : u32 bytes = .ok (v, rest) ↔ bytes = beBytes 4 v.val ++ rest :=
  uint_eq_ok (w := 4)

@[simp] theorem count_eq_ok {n : Nat} :
    count bytes = .ok (n, rest) ↔ n < 2 ^ 32 ∧ bytes = beBytes 4 n ++ rest := by
  simp only [count, bind_eq_ok, Prod.exists, u32_eq_ok, pure_eq_ok, Except.ok.injEq,
    Prod.mk.injEq]
  constructor
  · rintro ⟨v, _, rfl, rfl, rfl⟩
    exact ⟨v.isLt, rfl⟩
  · rintro ⟨hn, rfl⟩
    exact ⟨⟨n, hn⟩, rest, rfl, rfl, rfl⟩

@[simp] theorem finish_eq_ok {u : Unit} : finish bytes = .ok u ↔ bytes = [] :=
  ensure_eq_ok

end Reader

/-! ## Records and messages -/

/-- Reads a field of `n` bytes. -/
def array (n : Nat) (bytes : Bytes) : Except CodecError (ByteVec n) :=
  okOr (ByteVec.ofBytes? n bytes) .invalidRecord

def action (a : CompactShieldedAction) : Proto.CompactOrchardAction where
  nullifier := a.nullifier.val
  cmx := a.commitment.val
  ephemeralKey := a.ephemeralKey.val
  ciphertext := a.ciphertext.val

def decodeAction (a : Proto.CompactOrchardAction) : Except CodecError CompactShieldedAction := do
  let nullifier ← array 32 a.nullifier
  let commitment ← array 32 a.cmx
  let ephemeralKey ← array 32 a.ephemeralKey
  let ciphertext ← array 52 a.ciphertext
  return { nullifier, commitment, ephemeralKey, ciphertext }

def output (o : CompactSaplingOutput) : Proto.CompactSaplingOutput where
  cmu := o.cmu.val
  ephemeralKey := o.ephemeralKey.val
  ciphertext := o.ciphertext.val

def decodeOutput (o : Proto.CompactSaplingOutput) : Except CodecError CompactSaplingOutput := do
  let cmu ← array 32 o.cmu
  let ephemeralKey ← array 32 o.ephemeralKey
  let ciphertext ← array 52 o.ciphertext
  return { cmu, ephemeralKey, ciphertext }

def transaction (tx : CompactTransaction) : Proto.CompactTx where
  index := tx.index
  txid := tx.txid.val
  spends := tx.saplingSpends.map fun nf => ⟨nf.val⟩
  outputs := tx.saplingOutputs.map output
  actions := tx.orchardActions.map action
  ironwoodActions := tx.ironwoodActions.map action

def decodeTransaction (tx : Proto.CompactTx) : Except CodecError CompactTransaction := do
  let txid ← array 32 tx.txid
  let saplingSpends ← tx.spends.mapM fun spend => array 32 spend.nf
  let saplingOutputs ← tx.outputs.mapM decodeOutput
  let orchardActions ← tx.actions.mapM decodeAction
  let ironwoodActions ← tx.ironwoodActions.mapM decodeAction
  return { index := tx.index, txid, saplingSpends, saplingOutputs, orchardActions,
           ironwoodActions }

namespace CompactBlockRecord

def toProto (r : CompactBlockRecord) : Proto.CompactBlock where
  height := ⟨r.height.val, by omega⟩
  hash := r.hash.val
  prevHash := r.previousHash.val
  time := r.time
  header := []
  vtx := r.transactions.map transaction
  chainMetadata := some
    { saplingCommitmentTreeSize := r.endTreeSizes.sapling
      orchardCommitmentTreeSize := r.endTreeSizes.orchard
      ironwoodCommitmentTreeSize := r.endTreeSizes.ironwood }

def fromProto (block : Proto.CompactBlock) : Except CodecError CompactBlockRecord := do
  let trees ← okOr block.chainMetadata .invalidRecord
  let height : U32 ← okOr (ofNat? _ block.height.val) .invalidRecord
  let hash ← array 32 block.hash
  let previousHash ← array 32 block.prevHash
  let transactions ← block.vtx.mapM decodeTransaction
  return { height, hash, previousHash, time := block.time, transactions
           endTreeSizes := ⟨trees.saplingCommitmentTreeSize, trees.orchardCommitmentTreeSize,
             trees.ironwoodCommitmentTreeSize⟩ }

end CompactBlockRecord

@[simp] theorem array_val {n : Nat} (a : ByteVec n) : array n a.val = .ok a := by
  simp [array]

theorem decodeAction_action (a : CompactShieldedAction) : decodeAction (action a) = .ok a := by
  simp [decodeAction, action]

theorem decodeOutput_output (o : CompactSaplingOutput) : decodeOutput (output o) = .ok o := by
  simp [decodeOutput, output]

theorem decodeTransaction_transaction (tx : CompactTransaction) :
    decodeTransaction (transaction tx) = .ok tx := by
  have hspends := mapM_map_of_left_inverse (f := fun s : Proto.CompactSaplingSpend => array 32 s.nf)
    (g := fun nf : Digest => ⟨nf.val⟩) array_val tx.saplingSpends
  simp only [decodeTransaction, transaction, array_val, ok_bind, hspends,
    mapM_map_of_left_inverse decodeOutput_output, mapM_map_of_left_inverse decodeAction_action,
    pure_eq_ok]

namespace CompactBlockRecord

/-- The conversion is lossless. -/
theorem fromProto_toProto (r : CompactBlockRecord) : fromProto r.toProto = .ok r := by
  simp only [fromProto, toProto, okOr_some, ok_bind, ofNat?_val, array_val,
    mapM_map_of_left_inverse decodeTransaction_transaction, pure_eq_ok]

/-- The record of a message has the identity of the message. -/
theorem of_fromProto {block : Proto.CompactBlock} {r : CompactBlockRecord}
    (h : fromProto block = .ok r) :
    block.height.val = r.height.val ∧ block.hash = r.hash.val ∧
      block.prevHash = r.previousHash.val ∧ block.chainMetadata.isSome := by
  simp only [fromProto, bind_eq_ok, okOr_eq_ok, array, ofNat?_eq_some, ByteVec.ofBytes?_eq_some,
    pure_eq_ok, Except.ok.injEq] at h
  obtain ⟨trees, htrees, _, hheight, _, hhash, _, hprev, _, -, rfl⟩ := h
  exact ⟨hheight, hhash, hprev, by rw [htrees]; rfl⟩

/-! ## The stored encoding -/

/-- The rules that a stored record must obey and that the protobuf decode does
    not check: each compact transaction must contain shielded data. -/
def check (r : CompactBlockRecord) : Except CodecError Unit :=
  ensure (∀ tx ∈ r.transactions, tx.hasPayload) .invalidRecord

end CompactBlockRecord

/-- The stored form of a payload with its identity. -/
def envelope (height : U32) (hash previousHash : Hash) (payload : Bytes) : Bytes :=
  blockFormatVersion ::
    (beBytes 4 height.val ++ hash.val ++ previousHash.val ++ beBytes 4 payload.length ++ payload)

def CompactBlockRecord.encode (r : CompactBlockRecord) : Except CodecError Bytes := do
  r.check
  let block := r.toProto.encode
  ensure (block.length + protobufEnvelopeBytes ≤ maxRecordBytes) .length
  return envelope r.height r.hash r.previousHash block

def protobufEnvelope (bytes : Bytes) : Except CodecError (U32 × Hash × Hash × Bytes) := do
  ensure (bytes.length ≤ maxRecordBytes) .length
  let (version, bytes) ← Reader.u8 bytes
  ensure (version = blockFormatVersion) .invalidRecord
  let (height, bytes) ← Reader.u32 bytes
  let (hash, bytes) ← Reader.array 32 bytes
  let (previousHash, bytes) ← Reader.array 32 bytes
  let (len, bytes) ← Reader.count bytes
  let (payload, bytes) ← Reader.take len bytes
  okMapError (Reader.finish bytes) fun _ => .invalidRecord
  return (height, hash, previousHash, payload)

theorem envelope_length (height : U32) (hash previousHash : Hash) (payload : Bytes) :
    (envelope height hash previousHash payload).length =
      payload.length + protobufEnvelopeBytes := by
  simp [envelope, protobufEnvelopeBytes]
  omega

variable {bytes : Bytes} {r : CompactBlockRecord}

/-- The envelope is read exactly from its stored form. -/
theorem protobufEnvelope_eq_ok {height : U32} {hash previousHash : Hash} {payload : Bytes} :
    protobufEnvelope bytes = .ok (height, hash, previousHash, payload) ↔
      bytes.length ≤ maxRecordBytes ∧ bytes = envelope height hash previousHash payload := by
  simp only [protobufEnvelope, bind_eq_ok, Prod.exists, ensure_eq_ok, okMapError_eq_ok,
    Reader.u8_eq_ok, Reader.u32_eq_ok, Reader.array_eq_ok, Reader.count_eq_ok,
    Reader.take_eq_ok, Reader.finish_eq_ok, pure_eq_ok, Except.ok.injEq, Prod.mk.injEq]
  constructor
  · rintro ⟨_, hlen, _, _, rfl, _, rfl, _, _, rfl, _, _, rfl, _, _, rfl, _, _, ⟨-, rfl⟩, _, _,
      ⟨rfl, rfl⟩, _, rfl, rfl, rfl, rfl, rfl⟩
    exact ⟨hlen, by simp [envelope]⟩
  · rintro ⟨hlen, rfl⟩
    have hpayload : payload.length < 2 ^ 32 := by
      rw [envelope_length, maxRecordBytes] at hlen
      omega
    refine ⟨(), hlen, blockFormatVersion, _, rfl, (), rfl, height, _, ?_, hash, _, rfl,
      previousHash, _, rfl, payload.length, payload ++ [], ⟨hpayload, rfl⟩, payload, [],
      ⟨rfl, rfl⟩, (), rfl, rfl, rfl, rfl, rfl⟩
    simp

/-- No stored form is the beginning of another: its length is in its first bytes. -/
theorem protobufEnvelope_append_error {rest : Bytes} {out : U32 × Hash × Hash × Bytes}
    (h : protobufEnvelope bytes = .ok out) (hrest : bytes ++ rest ≠ bytes) :
    ∃ e, protobufEnvelope (bytes ++ rest) = .error e := by
  cases happend : protobufEnvelope (bytes ++ rest) with
  | error e => exact ⟨e, rfl⟩
  | ok out' =>
    obtain ⟨height, hash, previousHash, payload⟩ := out
    obtain ⟨height', hash', previousHash', payload'⟩ := out'
    obtain ⟨hlen, rfl⟩ := protobufEnvelope_eq_ok.mp h
    obtain ⟨hlen', heq⟩ := protobufEnvelope_eq_ok.mp happend
    rw [heq, envelope_length, maxRecordBytes] at hlen'
    rw [envelope_length, maxRecordBytes] at hlen
    have hbytes := congrArg List.length heq
    rw [List.length_append, envelope_length, envelope_length] at hbytes
    -- both lengths stand in the same four bytes
    simp only [envelope, List.cons_append, List.append_assoc, List.cons.injEq, true_and] at heq
    obtain ⟨-, h₁⟩ := List.append_inj heq (by simp)
    obtain ⟨-, h₂⟩ := List.append_inj h₁ (by simp)
    obtain ⟨-, h₃⟩ := List.append_inj h₂ (by simp)
    obtain ⟨hcount, -⟩ := List.append_inj h₃ (by simp)
    have hcount' := congrArg beNat hcount
    rw [beNat_beBytes 4 _ (by omega), beNat_beBytes 4 _ (by omega)] at hcount'
    exact absurd (by rw [List.eq_nil_of_length_eq_zero (show rest.length = 0 by omega),
      List.append_nil]) hrest

theorem CompactBlockRecord.encode_eq_ok :
    r.encode = .ok bytes ↔
      (∀ tx ∈ r.transactions, tx.hasPayload) ∧
      r.toProto.encode.length + protobufEnvelopeBytes ≤ maxRecordBytes ∧
      envelope r.height r.hash r.previousHash r.toProto.encode = bytes := by
  simp only [encode, check, bind_eq_ok, ensure_eq_ok, pure_eq_ok, Except.ok.injEq]
  constructor
  · rintro ⟨-, hcheck, -, hlen, rfl⟩
    exact ⟨hcheck, hlen, rfl⟩
  · rintro ⟨hcheck, hlen, rfl⟩
    exact ⟨(), hcheck, (), hlen, rfl⟩

theorem CompactBlockRecord.protobufEnvelope_encode (h : r.encode = .ok bytes) :
    protobufEnvelope bytes = .ok (r.height, r.hash, r.previousHash, r.toProto.encode) := by
  obtain ⟨-, hlen, rfl⟩ := encode_eq_ok.mp h
  rw [protobufEnvelope_eq_ok, envelope_length]
  exact ⟨hlen, rfl⟩

/-! ## Views of a stored record -/

/-- A view of a stored record: how it is read from the stored bytes, and how it
    is made from a record that is not stored. -/
class StoredBlock (α : Type) where
  decode : Bytes → Except CodecError α
  fromRecord : CompactBlockRecord → α
  height : α → U32
  hash : α → Hash
  previousHash : α → Hash

/-- A block that a server sends: its encoding, or the message to encode. -/
inductive EncodedCompactBlock where
  | encoded (bytes : Bytes)
  | decoded (block : Proto.CompactBlock)
  deriving DecidableEq

/-- The protobuf encoding of the block, without a length prefix. -/
def EncodedCompactBlock.toBytes : EncodedCompactBlock → Bytes
  | .encoded bytes => bytes
  | .decoded block => block.encode

/-- A message becomes its encoding. -/
def EncodedCompactBlock.ofBlock (block : Proto.CompactBlock) : EncodedCompactBlock :=
  .encoded block.encode

/-- The identity of a stored block, and its payload as a response. -/
structure EncodedBlockRecord where
  height : U32
  hash : Hash
  previousHash : Hash
  block : EncodedCompactBlock
  deriving DecidableEq

/-- The message of a stored block. The decoder has checked both hash lengths. -/
structure ProtobufBlockRecord where
  block : Proto.CompactBlock
  hash_length : block.hash.length = 32
  prevHash_length : block.prevHash.length = 32
  deriving DecidableEq

def EncodedBlockRecord.decode (bytes : Bytes) : Except CodecError EncodedBlockRecord := do
  let (height, hash, previousHash, payload) ← protobufEnvelope bytes
  return { height, hash, previousHash, block := .encoded payload }

/-- The message of the record without its transactions of no payload. -/
def EncodedBlockRecord.fromRecord (r : CompactBlockRecord) : EncodedBlockRecord where
  height := r.height
  hash := r.hash
  previousHash := r.previousHash
  block := .ofBlock { r.toProto with vtx := r.toProto.vtx.filter fun tx =>
    tx.spends ≠ [] ∨ tx.outputs ≠ [] ∨ tx.actions ≠ [] ∨ tx.ironwoodActions ≠ [] }

instance : StoredBlock EncodedBlockRecord where
  decode := EncodedBlockRecord.decode
  fromRecord := EncodedBlockRecord.fromRecord
  height := EncodedBlockRecord.height
  hash := EncodedBlockRecord.hash
  previousHash := EncodedBlockRecord.previousHash

/-- No transaction of a record that passes its check is left out of its response. -/
theorem EncodedBlockRecord.fromRecord_of_check (h : ∀ tx ∈ r.transactions, tx.hasPayload) :
    EncodedBlockRecord.fromRecord r =
      ⟨r.height, r.hash, r.previousHash, .encoded r.toProto.encode⟩ := by
  have hall : r.toProto.vtx.filter (fun tx => decide (tx.spends ≠ [] ∨ tx.outputs ≠ [] ∨
      tx.actions ≠ [] ∨ tx.ironwoodActions ≠ [])) = r.toProto.vtx := by
    rw [List.filter_eq_self]
    intro tx htx
    obtain ⟨tx, hmem, rfl⟩ := List.mem_map.mp htx
    simpa [transaction, CompactTransaction.hasPayload] using h tx hmem
  rw [EncodedBlockRecord.fromRecord, hall]
  rfl

section

variable [Proto.Prost]

def CompactBlockRecord.decode (bytes : Bytes) : Except CodecError CompactBlockRecord := do
  let (height, hash, previousHash, payload) ← protobufEnvelope bytes
  let block ← okOr (Proto.Prost.decode payload) .invalidRecord
  let record ← CompactBlockRecord.fromProto block
  ensure (record.height = height ∧ record.hash = hash ∧ record.previousHash = previousHash)
    .invalidRecord
  return record

def ProtobufBlockRecord.decode (bytes : Bytes) : Except CodecError ProtobufBlockRecord := do
  let (height, hash, previousHash, payload) ← protobufEnvelope bytes
  let block ← okOr (Proto.Prost.decode payload) .invalidRecord
  if h : block.height.val = height.val ∧ block.hash = hash.val ∧
      block.prevHash = previousHash.val ∧ block.chainMetadata.isSome then
    return ⟨block, by simp [h.2.1], by simp [h.2.2.1]⟩
  else
    throw .invalidRecord

instance : StoredBlock CompactBlockRecord where
  decode := CompactBlockRecord.decode
  fromRecord r := r
  height := CompactBlockRecord.height
  hash := CompactBlockRecord.hash
  previousHash := CompactBlockRecord.previousHash

instance : StoredBlock ProtobufBlockRecord where
  decode := ProtobufBlockRecord.decode
  fromRecord r := ⟨r.toProto, r.hash.val_length, r.previousHash.val_length⟩
  height b := Fin.ofNat _ b.block.height.val
  hash b := ⟨b.block.hash, b.hash_length⟩
  previousHash b := ⟨b.block.prevHash, b.prevHash_length⟩

/-- A view that agrees with the envelope of the stored bytes, that every stored
    record has, and that does not depend on whether the record is stored. -/
class LawfulStoredBlock (α : Type) [StoredBlock α] : Prop where
  envelope_of_decode : ∀ {bytes : Bytes} {a : α}, StoredBlock.decode bytes = .ok a →
    ∃ payload, protobufEnvelope bytes =
      .ok (StoredBlock.height a, StoredBlock.hash a, StoredBlock.previousHash a, payload)
  decode_of_record : ∀ {bytes : Bytes} {r : CompactBlockRecord},
    CompactBlockRecord.decode bytes = .ok r → ∃ a : α, StoredBlock.decode bytes = .ok a
  decode_encode : ∀ {r : CompactBlockRecord} {bytes : Bytes}, r.encode = .ok bytes →
    StoredBlock.decode bytes = .ok (StoredBlock.fromRecord r : α)
  height_fromRecord : ∀ r : CompactBlockRecord,
    StoredBlock.height (StoredBlock.fromRecord r : α) = r.height
  hash_fromRecord : ∀ r : CompactBlockRecord,
    StoredBlock.hash (StoredBlock.fromRecord r : α) = r.hash
  previousHash_fromRecord : ∀ r : CompactBlockRecord,
    StoredBlock.previousHash (StoredBlock.fromRecord r : α) = r.previousHash

/-! ### Round trips -/

variable {r : CompactBlockRecord} {bytes : Bytes}

theorem CompactBlockRecord.prost_decode_toProto (h : r.encode = .ok bytes) :
    Proto.Prost.decode r.toProto.encode = some r.toProto := by
  obtain ⟨-, hlen, -⟩ := encode_eq_ok.mp h
  refine Proto.Prost.decode_encode _ ?_
  rw [maxRecordBytes] at hlen
  omega

theorem CompactBlockRecord.decode_encode (h : r.encode = .ok bytes) :
    CompactBlockRecord.decode bytes = .ok r := by
  simp [decode, protobufEnvelope_encode h, prost_decode_toProto h, fromProto_toProto, ensure]

/-- What a successful decode has checked. -/
theorem CompactBlockRecord.decode_eq_ok :
    CompactBlockRecord.decode bytes = .ok r ↔
      ∃ payload block, protobufEnvelope bytes = .ok (r.height, r.hash, r.previousHash, payload) ∧
        Proto.Prost.decode payload = some block ∧ CompactBlockRecord.fromProto block = .ok r := by
  simp only [decode, bind_eq_ok, Prod.exists, okOr_eq_ok, ensure_eq_ok, pure_eq_ok,
    Except.ok.injEq]
  constructor
  · rintro ⟨_, _, _, payload, henv, block, hblock, r, hr, -, ⟨rfl, rfl, rfl⟩, rfl⟩
    exact ⟨payload, block, henv, hblock, hr⟩
  · rintro ⟨payload, block, henv, hblock, hr⟩
    exact ⟨_, _, _, payload, henv, block, hblock, r, hr, (), ⟨rfl, rfl, rfl⟩, rfl⟩

instance : LawfulStoredBlock CompactBlockRecord where
  envelope_of_decode h := by
    obtain ⟨payload, -, henv, -⟩ := CompactBlockRecord.decode_eq_ok.mp h
    exact ⟨payload, henv⟩
  decode_of_record h := ⟨_, h⟩
  decode_encode h := CompactBlockRecord.decode_encode h
  height_fromRecord _ := rfl
  hash_fromRecord _ := rfl
  previousHash_fromRecord _ := rfl

theorem ProtobufBlockRecord.decode_eq_ok {b : ProtobufBlockRecord} :
    ProtobufBlockRecord.decode bytes = .ok b ↔
      ∃ height hash previousHash payload,
        protobufEnvelope bytes = .ok (height, hash, previousHash, payload) ∧
        Proto.Prost.decode payload = some b.block ∧ b.block.height.val = height.val ∧
        b.block.hash = hash.val ∧ b.block.prevHash = previousHash.val ∧
        b.block.chainMetadata.isSome := by
  simp only [decode, bind_eq_ok, Prod.exists, okOr_eq_ok]
  constructor
  · rintro ⟨height, hash, previousHash, payload, henv, block, hblock, h⟩
    split at h
    case isTrue hids => cases h; exact ⟨height, hash, previousHash, payload, henv, hblock, hids⟩
    case isFalse => cases h
  · rintro ⟨height, hash, previousHash, payload, henv, hblock, hids⟩
    exact ⟨height, hash, previousHash, payload, henv, b.block, hblock, by rw [dif_pos hids]; rfl⟩

instance : LawfulStoredBlock ProtobufBlockRecord where
  envelope_of_decode {bytes b} h := by
    obtain ⟨height, hash, previousHash, payload, henv, -, hheight, hhash, hprev, -⟩ :=
      ProtobufBlockRecord.decode_eq_ok.mp h
    refine ⟨payload, ?_⟩
    have h1 : StoredBlock.height b = height := by
      simp only [StoredBlock.height, hheight, Fin.ofNat_val_eq_self]
    have h2 : StoredBlock.hash b = hash := ByteVec.ext hhash
    have h3 : StoredBlock.previousHash b = previousHash := ByteVec.ext hprev
    rw [h1, h2, h3, henv]
  decode_of_record {bytes r} h := by
    obtain ⟨payload, block, henv, hblock, hr⟩ := CompactBlockRecord.decode_eq_ok.mp h
    obtain ⟨hheight, hhash, hprev, hmeta⟩ := CompactBlockRecord.of_fromProto hr
    exact ⟨⟨block, by simp [hhash], by simp [hprev]⟩, ProtobufBlockRecord.decode_eq_ok.mpr
      ⟨_, _, _, payload, henv, hblock, hheight, hhash, hprev, hmeta⟩⟩
  decode_encode {r bytes} h := by
    refine ProtobufBlockRecord.decode_eq_ok.mpr ⟨_, _, _, _,
      CompactBlockRecord.protobufEnvelope_encode h,
      CompactBlockRecord.prost_decode_toProto h, rfl, rfl, rfl, rfl⟩
  height_fromRecord r := by
    simp [StoredBlock.height, StoredBlock.fromRecord, CompactBlockRecord.toProto]
  hash_fromRecord _ := rfl
  previousHash_fromRecord _ := rfl

instance : LawfulStoredBlock EncodedBlockRecord where
  envelope_of_decode {bytes b} h := by
    simp only [StoredBlock.decode, EncodedBlockRecord.decode, bind_eq_ok, Prod.exists, pure_eq_ok,
      Except.ok.injEq] at h
    obtain ⟨_, _, _, payload, henv, rfl⟩ := h
    exact ⟨payload, henv⟩
  decode_of_record {bytes r} h := by
    obtain ⟨payload, -, henv, -⟩ := CompactBlockRecord.decode_eq_ok.mp h
    exact ⟨⟨r.height, r.hash, r.previousHash, .encoded payload⟩, by
      simp [StoredBlock.decode, EncodedBlockRecord.decode, henv]⟩
  decode_encode {r bytes} h := by
    have hcheck := (CompactBlockRecord.encode_eq_ok.mp h).1
    simp [StoredBlock.decode, EncodedBlockRecord.decode, StoredBlock.fromRecord,
      CompactBlockRecord.protobufEnvelope_encode h, EncodedBlockRecord.fromRecord_of_check hcheck]
  height_fromRecord _ := rfl
  hash_fromRecord _ := rfl
  previousHash_fromRecord _ := rfl

/-- A view refuses every byte string without an envelope. -/
theorem LawfulStoredBlock.decode_error {α : Type} [StoredBlock α] [LawfulStoredBlock α]
    {e : CodecError} (h : protobufEnvelope bytes = .error e) :
    ∃ e, (StoredBlock.decode bytes : Except CodecError α) = .error e := by
  cases hdecode : (StoredBlock.decode bytes : Except CodecError α) with
  | error e => exact ⟨e, rfl⟩
  | ok a =>
    obtain ⟨payload, henv⟩ := LawfulStoredBlock.envelope_of_decode hdecode
    rw [h] at henv
    cases henv

/-- Each view of an encoded record is the view of the record, and no view accepts
    a byte string that begins or continues the encoding. -/
theorem LawfulStoredBlock.decode_encode_only (α : Type) [StoredBlock α] [LawfulStoredBlock α]
    (h : r.encode = .ok bytes) :
    (StoredBlock.decode bytes : Except CodecError α) = .ok (StoredBlock.fromRecord r) ∧
      ∀ bytes' : Bytes, bytes' <+: bytes ∨ bytes <+: bytes' → bytes' ≠ bytes →
        ∃ e, (StoredBlock.decode bytes' : Except CodecError α) = .error e := by
  refine ⟨LawfulStoredBlock.decode_encode h, ?_⟩
  have henv := CompactBlockRecord.protobufEnvelope_encode h
  intro bytes' hpart hne
  rcases hpart with ⟨rest, rfl⟩ | ⟨rest, rfl⟩
  · cases hdecode : (StoredBlock.decode bytes' : Except CodecError α) with
    | error e => exact ⟨e, rfl⟩
    | ok a =>
      obtain ⟨payload, henv'⟩ := LawfulStoredBlock.envelope_of_decode hdecode
      obtain ⟨e, he⟩ := protobufEnvelope_append_error henv' (Ne.symm hne)
      rw [he] at henv
      cases henv
  · obtain ⟨e, he⟩ := protobufEnvelope_append_error henv hne
    exact LawfulStoredBlock.decode_error he

/-- Two views of the same bytes have the same identity. -/
theorem LawfulStoredBlock.sameId {α β : Type} [StoredBlock α] [LawfulStoredBlock α] [StoredBlock β]
    [LawfulStoredBlock β] {a : α} {b : β} (ha : StoredBlock.decode bytes = .ok a)
    (hb : StoredBlock.decode bytes = .ok b) :
    StoredBlock.height a = StoredBlock.height b ∧ StoredBlock.hash a = StoredBlock.hash b ∧
      StoredBlock.previousHash a = StoredBlock.previousHash b := by
  obtain ⟨_, henva⟩ := LawfulStoredBlock.envelope_of_decode ha
  obtain ⟨_, henvb⟩ := LawfulStoredBlock.envelope_of_decode hb
  rw [henva] at henvb
  simp only [Except.ok.injEq, Prod.mk.injEq] at henvb
  exact ⟨henvb.1, henvb.2.1, henvb.2.2.1⟩

end

/-! ## Size bound -/

/-- A bound of the encoded size of one transaction, with its key and length. -/
def transactionSizeBound (tx : CompactTransaction) : Nat :=
  64 + 36 * tx.saplingSpends.length + 128 * tx.saplingOutputs.length +
    160 * tx.orchardActions.length + 160 * tx.ironwoodActions.length

/-- An upper bound of the encoded size of a record with `transactions`. -/
def encodedSizeBound (transactions : List CompactTransaction) : Except CodecError Nat :=
  let size := 192 + (transactions.map transactionSizeBound).sum
  if size ≤ maxRecordBytes then .ok size else .error .length

theorem encodedSizeBound_eq_ok {transactions : List CompactTransaction} {n : Nat} :
    encodedSizeBound transactions = .ok n ↔
      192 + (transactions.map transactionSizeBound).sum ≤ maxRecordBytes ∧
        192 + (transactions.map transactionSizeBound).sum = n := by
  unfold encodedSizeBound
  simp only
  split <;> simp_all

theorem output_length_le (o : CompactSaplingOutput) : (output o).encode.length ≤ 122 := by
  have h1 := @blob_length_le 1 o.cmu.val 1 (by omega) (by omega) (by simp)
  have h2 := @blob_length_le 2 o.ephemeralKey.val 1 (by omega) (by omega) (by simp)
  have h3 := @blob_length_le 3 o.ciphertext.val 1 (by omega) (by omega) (by simp)
  simp only [ByteVec.val_length] at h1 h2 h3
  simp only [output, Proto.CompactSaplingOutput.encode, Proto.CompactSaplingOutput.fields,
    encodeFields_append, List.length_append]
  omega

theorem action_length_le (a : CompactShieldedAction) : (action a).encode.length ≤ 156 := by
  have h1 := @blob_length_le 1 a.nullifier.val 1 (by omega) (by omega) (by simp)
  have h2 := @blob_length_le 2 a.commitment.val 1 (by omega) (by omega) (by simp)
  have h3 := @blob_length_le 3 a.ephemeralKey.val 1 (by omega) (by omega) (by simp)
  have h4 := @blob_length_le 4 a.ciphertext.val 1 (by omega) (by omega) (by simp)
  simp only [ByteVec.val_length] at h1 h2 h3 h4
  simp only [action, Proto.CompactOrchardAction.encode, Proto.CompactOrchardAction.fields,
    encodeFields_append, List.length_append]
  omega

/-- The messages of a repeated field of a transaction, each of at most `c` bytes. -/
theorem repeated_map_length_le {α : Type} {c : Nat} {encode : α → Bytes} (tag k : Nat) (xs : List α)
    (ht : tag < 16) (hk : 0 < k) (hc : c < 128 ^ k) (h : ∀ x, (encode x).length ≤ c) :
    (encodeFields (repeated tag (xs.map encode))).length ≤ (1 + k + c) * xs.length := by
  have := @repeated_length_le tag k c (xs.map encode) ht hk hc (by simpa using fun x _ => h x)
  simpa using this

theorem transaction_length_le (tx : CompactTransaction) :
    (transaction tx).encode.length + 19 ≤ transactionSizeBound tx := by
  have hspend : ∀ nf : Digest,
      (Proto.CompactSaplingSpend.encode ⟨nf.val⟩).length ≤ 34 := by
    intro nf
    simpa [Proto.CompactSaplingSpend.encode, Proto.CompactSaplingSpend.fields] using
      @blob_length_le 1 nf.val 1 (by omega) (by omega) (by simp)
  have hindex := @scalar_length_le 1 tx.index.val 10 (by omega) (by omega) (by omega)
  have htxid := @blob_length_le 2 tx.txid.val 1 (by omega) (by omega) (by simp)
  rw [ByteVec.val_length] at htxid
  have hspends := repeated_map_length_le 4 1 tx.saplingSpends
    (by omega) (by omega) (by omega) hspend
  have houtputs := repeated_map_length_le 5 1 tx.saplingOutputs
    (by omega) (by omega) (by omega) output_length_le
  have hactions := repeated_map_length_le 6 2 tx.orchardActions
    (by omega) (by omega) (by omega) action_length_le
  have hironwood := repeated_map_length_le 9 2 tx.ironwoodActions
    (by omega) (by omega) (by omega) action_length_le
  have hzero : encodeFields (scalar 3 (0 : U32).val) = [] := rfl
  have hnil : ∀ tag, encodeFields (repeated tag []) = [] := fun _ => rfl
  simp only [transaction, Proto.CompactTx.encode, Proto.CompactTx.fields, encodeFields_append,
    List.map_map, List.map_nil, Function.comp_def, List.length_append, hzero, hnil,
    List.length_nil, transactionSizeBound]
  omega

theorem vtx_length_le {txs : List CompactTransaction}
    (h : (txs.map transactionSizeBound).sum < 128 ^ 4) :
    (encodeFields (repeated 7 ((txs.map transaction).map (·.encode)))).length ≤
      (txs.map transactionSizeBound).sum := by
  induction txs with
  | nil => simp [repeated]
  | cons tx txs ih =>
    simp only [List.map_cons, List.sum_cons] at h ⊢
    have htx := transaction_length_le tx
    have hlen := @len_length 7 (transaction tx).encode 4 (by omega) (by omega) (by omega)
    have htail := ih (by omega)
    have hcons : encodeFields (repeated 7 ((transaction tx).encode ::
        (txs.map transaction).map (·.encode))) =
        encodeField (7, .len (transaction tx).encode) ++
          encodeFields (repeated 7 ((txs.map transaction).map (·.encode))) := by
      simp [encodeFields, repeated]
    rw [hcons, List.length_append]
    omega

theorem chainMetadata_length_le (m : Proto.ChainMetadata) : m.encode.length ≤ 18 := by
  have h1 := @scalar_length_le 1 m.saplingCommitmentTreeSize.val 5 (by omega) (by omega) (by omega)
  have h2 := @scalar_length_le 2 m.orchardCommitmentTreeSize.val 5 (by omega) (by omega) (by omega)
  have h3 := @scalar_length_le 3 m.ironwoodCommitmentTreeSize.val 5 (by omega) (by omega)
    (by omega)
  simp only [Proto.ChainMetadata.encode, Proto.ChainMetadata.fields, encodeFields_append,
    List.length_append]
  omega

namespace CompactBlockRecord

/-- The size bound holds for the stored encoding, envelope included. -/
theorem toProto_length_le (r : CompactBlockRecord)
    (h : 192 + (r.transactions.map transactionSizeBound).sum ≤ maxRecordBytes) :
    r.toProto.encode.length + protobufEnvelopeBytes ≤
      192 + (r.transactions.map transactionSizeBound).sum := by
  have hheight := @scalar_length_le 2 r.height.val 5 (by omega) (by omega) (by omega)
  have hhash := @blob_length_le 3 r.hash.val 1 (by omega) (by omega) (by simp)
  have hprev := @blob_length_le 4 r.previousHash.val 1 (by omega) (by omega) (by simp)
  have htime := @scalar_length_le 5 r.time.val 5 (by omega) (by omega) (by omega)
  have hvtx := @vtx_length_le r.transactions (by rw [maxRecordBytes] at h; omega)
  have hmeta := repeated_map_length_le 8 1 r.toProto.chainMetadata.toList
    (by omega) (by omega) (by omega) chainMetadata_length_le
  rw [ByteVec.val_length] at hhash hprev
  have hheader : encodeFields (blob 6 []) = [] := rfl
  simp only [toProto, Proto.CompactBlock.encode, Proto.CompactBlock.fields, encodeFields_append,
    List.length_append, hheader, List.length_nil, protobufEnvelopeBytes,
    Option.toList_some, List.map_cons, List.map_nil, List.length_cons] at hmeta ⊢
  omega

/-- A record within the size bound whose transactions all have payload is encoded. -/
theorem encode_of_sizeBound {r : CompactBlockRecord} {n : Nat}
    (hcheck : ∀ tx ∈ r.transactions, tx.hasPayload)
    (hbound : encodedSizeBound r.transactions = .ok n) :
    r.encode = .ok (envelope r.height r.hash r.previousHash r.toProto.encode) := by
  have h : 192 + (r.transactions.map transactionSizeBound).sum ≤ maxRecordBytes := by
    by_contra hgt
    simp [encodedSizeBound, hgt] at hbound
  have hlen := r.toProto_length_le h
  exact encode_eq_ok.mpr ⟨hcheck, by omega, rfl⟩

end CompactBlockRecord

/-! ## The codec as a whole -/

/-- The record codec: a record whose transactions all have payload and that fits
    is encoded, all three views read the encoding, and none accepts a byte string
    that begins or continues it. -/
theorem record_codec [Proto.Prost] (r : CompactBlockRecord)
    (hpayload : ∀ tx ∈ r.transactions, tx.hasPayload)
    (hfits : r.toProto.encode.length + protobufEnvelopeBytes ≤ maxRecordBytes) :
    ∃ bytes, r.encode = .ok bytes ∧
      CompactBlockRecord.decode bytes = .ok r ∧
      EncodedBlockRecord.decode bytes = .ok (EncodedBlockRecord.fromRecord r) ∧
      EncodedBlockRecord.fromRecord r =
        ⟨r.height, r.hash, r.previousHash, .encoded r.toProto.encode⟩ ∧
      (∃ view, ProtobufBlockRecord.decode bytes = .ok view ∧ view = StoredBlock.fromRecord r ∧
        view.block = r.toProto ∧ StoredBlock.height view = r.height ∧
        StoredBlock.hash view = r.hash ∧ StoredBlock.previousHash view = r.previousHash) ∧
      ∀ bytes' : Bytes, bytes' <+: bytes ∨ bytes <+: bytes' → bytes' ≠ bytes →
        (∃ e, CompactBlockRecord.decode bytes' = .error e) ∧
        (∃ e, EncodedBlockRecord.decode bytes' = .error e) ∧
        ∃ e, ProtobufBlockRecord.decode bytes' = .error e := by
  have hencode := CompactBlockRecord.encode_eq_ok.mpr ⟨hpayload, hfits, rfl⟩
  obtain ⟨hrecord, hrecordOnly⟩ := LawfulStoredBlock.decode_encode_only CompactBlockRecord hencode
  obtain ⟨hview, hviewOnly⟩ := LawfulStoredBlock.decode_encode_only EncodedBlockRecord hencode
  obtain ⟨hproto, hprotoOnly⟩ := LawfulStoredBlock.decode_encode_only ProtobufBlockRecord hencode
  refine ⟨_, hencode, hrecord, hview, EncodedBlockRecord.fromRecord_of_check hpayload,
    ⟨_, hproto, rfl, rfl, ?_, rfl, rfl⟩, ?_⟩
  · exact LawfulStoredBlock.height_fromRecord r
  · intro bytes' hpart hne
    exact ⟨hrecordOnly bytes' hpart hne, hviewOnly bytes' hpart hne, hprotoOnly bytes' hpart hne⟩

section

attribute [local instance] Proto.wireDecoder

def oneSpendRecord : CompactBlockRecord where
  height := 7
  hash := .ofNat 32 8
  previousHash := .ofNat 32 9
  time := 10
  transactions := [⟨0, .ofNat 32 1, [.ofNat 32 2], [], [], []⟩]
  endTreeSizes := ⟨1, 2, 3⟩

theorem record_codec_oneSpend :
    ∃ bytes, oneSpendRecord.encode = .ok bytes ∧
      CompactBlockRecord.decode bytes = .ok oneSpendRecord ∧
      ∃ e, EncodedBlockRecord.decode (bytes ++ [0]) = .error e := by
  have hpayload : ∀ tx ∈ oneSpendRecord.transactions, tx.hasPayload := by decide
  have hlen := oneSpendRecord.toProto_length_le (by decide)
  have hbound : 192 + (oneSpendRecord.transactions.map transactionSizeBound).sum ≤
      maxRecordBytes := by decide
  obtain ⟨bytes, hencode, hdecode, -, -, -, honly⟩ :=
    record_codec oneSpendRecord hpayload (hlen.trans hbound)
  exact ⟨bytes, hencode, hdecode,
    (honly (bytes ++ [0]) (.inr (List.prefix_append _ _)) (by simp)).2.1⟩

end

end Ztreamer
