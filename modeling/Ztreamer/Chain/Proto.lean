import Ztreamer.Chain.Types
import Ztreamer.Lib.Result
import Ztreamer.Lib.Wire

/-! # The compact-block protobuf schema

    The messages of `compact_formats.proto`, their encoding, and the lossless
    conversion between index records and messages.

    The encoder writes the fields in tag order and omits default values. The
    decoder is not part of the repository: `Prost` states what the development
    assumes of it, and `wireDecoder` is one decoder that has these properties.
-/

namespace Ztreamer

open Octets Wire Result

namespace Proto

/-! ## Messages -/

structure ChainMetadata where
  saplingCommitmentTreeSize : U32
  orchardCommitmentTreeSize : U32
  ironwoodCommitmentTreeSize : U32
  deriving DecidableEq

structure CompactSaplingSpend where
  nf : Bytes
  deriving DecidableEq

structure CompactSaplingOutput where
  cmu : Bytes
  ephemeralKey : Bytes
  ciphertext : Bytes
  deriving DecidableEq

structure CompactOrchardAction where
  nullifier : Bytes
  cmx : Bytes
  ephemeralKey : Bytes
  ciphertext : Bytes
  deriving DecidableEq

structure CompactTxIn where
  prevoutTxid : Bytes
  prevoutIndex : U32
  deriving DecidableEq

structure TxOut where
  value : U64
  scriptPubKey : Bytes
  deriving DecidableEq

structure CompactTx where
  index : U64 := 0
  txid : Bytes := []
  fee : U32 := 0
  spends : List CompactSaplingSpend := []
  outputs : List CompactSaplingOutput := []
  actions : List CompactOrchardAction := []
  ironwoodActions : List CompactOrchardAction := []
  vin : List CompactTxIn := []
  vout : List TxOut := []
  deriving DecidableEq

structure CompactBlock where
  height : U64
  hash : Bytes
  prevHash : Bytes
  time : U32
  header : Bytes
  vtx : List CompactTx
  chainMetadata : Option ChainMetadata
  deriving DecidableEq

/-! ## Encoding -/

def ChainMetadata.fields (m : ChainMetadata) : List Field :=
  scalar 1 m.saplingCommitmentTreeSize.val ++ scalar 2 m.orchardCommitmentTreeSize.val ++
    scalar 3 m.ironwoodCommitmentTreeSize.val

def CompactSaplingSpend.fields (s : CompactSaplingSpend) : List Field := blob 1 s.nf

def CompactSaplingOutput.fields (o : CompactSaplingOutput) : List Field :=
  blob 1 o.cmu ++ blob 2 o.ephemeralKey ++ blob 3 o.ciphertext

def CompactOrchardAction.fields (a : CompactOrchardAction) : List Field :=
  blob 1 a.nullifier ++ blob 2 a.cmx ++ blob 3 a.ephemeralKey ++ blob 4 a.ciphertext

def CompactTxIn.fields (i : CompactTxIn) : List Field :=
  blob 1 i.prevoutTxid ++ scalar 2 i.prevoutIndex.val

def TxOut.fields (o : TxOut) : List Field := scalar 1 o.value.val ++ blob 2 o.scriptPubKey

def ChainMetadata.encode (m : ChainMetadata) : Bytes := encodeFields m.fields
def CompactSaplingSpend.encode (s : CompactSaplingSpend) : Bytes := encodeFields s.fields
def CompactSaplingOutput.encode (o : CompactSaplingOutput) : Bytes := encodeFields o.fields
def CompactOrchardAction.encode (a : CompactOrchardAction) : Bytes := encodeFields a.fields
def CompactTxIn.encode (i : CompactTxIn) : Bytes := encodeFields i.fields
def TxOut.encode (o : TxOut) : Bytes := encodeFields o.fields

def CompactTx.fields (tx : CompactTx) : List Field :=
  scalar 1 tx.index.val ++ blob 2 tx.txid ++ scalar 3 tx.fee.val ++
    repeated 4 (tx.spends.map (·.encode)) ++ repeated 5 (tx.outputs.map (·.encode)) ++
    repeated 6 (tx.actions.map (·.encode)) ++ repeated 7 (tx.vin.map (·.encode)) ++
    repeated 8 (tx.vout.map (·.encode)) ++ repeated 9 (tx.ironwoodActions.map (·.encode))

def CompactTx.encode (tx : CompactTx) : Bytes := encodeFields tx.fields

def CompactBlock.fields (b : CompactBlock) : List Field :=
  scalar 2 b.height.val ++ blob 3 b.hash ++ blob 4 b.prevHash ++ scalar 5 b.time.val ++
    blob 6 b.header ++ repeated 7 (b.vtx.map (·.encode)) ++
    repeated 8 (b.chainMetadata.toList.map (·.encode))

/-- The Prost encoding of a block, without a length prefix. -/
def CompactBlock.encode (b : CompactBlock) : Bytes := encodeFields b.fields

/-! ## Decoding -/

/-- What the development assumes of the Prost decoder of a compact block. -/
class Prost where
  decode : Bytes → Option CompactBlock
  /-- Decoding inverts encoding. -/
  decode_encode : ∀ b : CompactBlock, b.encode.length < 2 ^ 64 → decode b.encode = some b
  /-- A field with a tag outside the schema is skipped. -/
  decode_unknown : ∀ (b : CompactBlock) (f : Field), f.Shaped → f.1 ∉ [2, 3, 4, 5, 6, 7, 8] →
    (b.encode ++ encodeField f).length < 2 ^ 64 → decode (b.encode ++ encodeField f) = some b

/-! ### A decoder -/

def ChainMetadata.ofFields (fs : List Field) : Option ChainMetadata := do
  let sapling ← lastVarint (select 1 fs)
  let orchard ← lastVarint (select 2 fs)
  let ironwood ← lastVarint (select 3 fs)
  return ⟨Fin.ofNat _ sapling, Fin.ofNat _ orchard, Fin.ofNat _ ironwood⟩

def CompactSaplingSpend.ofFields (fs : List Field) : Option CompactSaplingSpend := do
  let nf ← lastBlob (select 1 fs)
  return ⟨nf⟩

def CompactSaplingOutput.ofFields (fs : List Field) : Option CompactSaplingOutput := do
  let cmu ← lastBlob (select 1 fs)
  let ephemeralKey ← lastBlob (select 2 fs)
  let ciphertext ← lastBlob (select 3 fs)
  return ⟨cmu, ephemeralKey, ciphertext⟩

def CompactOrchardAction.ofFields (fs : List Field) : Option CompactOrchardAction := do
  let nullifier ← lastBlob (select 1 fs)
  let cmx ← lastBlob (select 2 fs)
  let ephemeralKey ← lastBlob (select 3 fs)
  let ciphertext ← lastBlob (select 4 fs)
  return ⟨nullifier, cmx, ephemeralKey, ciphertext⟩

def CompactTxIn.ofFields (fs : List Field) : Option CompactTxIn := do
  let prevoutTxid ← lastBlob (select 1 fs)
  let prevoutIndex ← lastVarint (select 2 fs)
  return ⟨prevoutTxid, Fin.ofNat _ prevoutIndex⟩

def TxOut.ofFields (fs : List Field) : Option TxOut := do
  let value ← lastVarint (select 1 fs)
  let scriptPubKey ← lastBlob (select 2 fs)
  return ⟨Fin.ofNat _ value, scriptPubKey⟩

/-- Reads each embedded message with `ofFields`. -/
def readMessages {α : Type} (ofFields : List Field → Option α) (vs : List Value) :
    Option (List α) := do
  let messages ← allBlobs vs
  messages.mapM fun bytes => (readFields bytes).bind ofFields

def CompactTx.ofFields (fs : List Field) : Option CompactTx := do
  let index ← lastVarint (select 1 fs)
  let txid ← lastBlob (select 2 fs)
  let fee ← lastVarint (select 3 fs)
  let spends ← readMessages CompactSaplingSpend.ofFields (select 4 fs)
  let outputs ← readMessages CompactSaplingOutput.ofFields (select 5 fs)
  let actions ← readMessages CompactOrchardAction.ofFields (select 6 fs)
  let vin ← readMessages CompactTxIn.ofFields (select 7 fs)
  let vout ← readMessages TxOut.ofFields (select 8 fs)
  let ironwoodActions ← readMessages CompactOrchardAction.ofFields (select 9 fs)
  return { index := Fin.ofNat _ index, txid, fee := Fin.ofNat _ fee, spends, outputs, actions,
           ironwoodActions, vin, vout }

/-- Reads an embedded message. The fields of its occurrences merge. -/
def readOptional {α : Type} (ofFields : List Field → Option α) (vs : List Value) :
    Option (Option α) := do
  let messages ← allBlobs vs
  match messages with
  | [] => return none
  | _ => do
    let fields ← messages.mapM readFields
    let message ← ofFields fields.flatten
    return some message

def CompactBlock.ofFields (fs : List Field) : Option CompactBlock := do
  let height ← lastVarint (select 2 fs)
  let hash ← lastBlob (select 3 fs)
  let prevHash ← lastBlob (select 4 fs)
  let time ← lastVarint (select 5 fs)
  let header ← lastBlob (select 6 fs)
  let vtx ← readMessages CompactTx.ofFields (select 7 fs)
  let chainMetadata ← readOptional ChainMetadata.ofFields (select 8 fs)
  return { height := Fin.ofNat _ height, hash, prevHash, time := Fin.ofNat _ time, header, vtx,
           chainMetadata }

/-! ### Its round trip -/

theorem U32.val_lt (a : U32) : a.val < 2 ^ 64 := by omega

theorem U64.val_lt (a : U64) : a.val < 2 ^ 64 := by omega

/-- The embedded messages in a message that is short enough are read back. -/
theorem readMessages_select {α : Type} {ofFields : List Field → Option α}
    {fields : α → List Field} {tag : Nat} {xs : List α} {fs : List Field}
    (hof : ∀ x, (encodeFields (fields x)).length < 2 ^ 64 → ofFields (fields x) = some x)
    (hshaped : ∀ x, ∀ f ∈ fields x, f.Shaped)
    (hlen : (encodeFields fs).length < 2 ^ 64)
    (hsel : select tag fs = (xs.map fun x => encodeFields (fields x)).map .len) :
    readMessages ofFields (select tag fs) = some xs := by
  have hone : ∀ x ∈ xs, (readFields (encodeFields (fields x))).bind ofFields = some x := by
    intro x hx
    have hmem : Value.len (encodeFields (fields x)) ∈ select tag fs := by
      rw [hsel]
      exact List.mem_map_of_mem (List.mem_map_of_mem hx)
    have hlt := lt_of_le_of_lt (length_le_encodeFields_of_mem (mem_of_mem_select hmem)) hlen
    rw [readFields_encodeFields (hshaped x) hlt, Option.bind_some, hof x hlt]
  rw [readMessages, hsel, allBlobs_map_len, Option.bind_eq_bind, Option.bind_some, List.mapM_map]
  clear hsel
  induction xs with
  | nil => rfl
  | cons x xs ih =>
    rw [List.mapM_cons]
    simp only [Function.comp_apply, hone x List.mem_cons_self]
    simp [ih fun y hy => hone y (List.mem_cons_of_mem x hy)]

theorem ChainMetadata.fields_shaped (m : ChainMetadata) : ∀ f ∈ m.fields, f.Shaped := by
  simp only [fields, List.forall_mem_append]
  exact ⟨⟨scalar_shaped (by omega) (U32.val_lt _), scalar_shaped (by omega) (U32.val_lt _)⟩,
    scalar_shaped (by omega) (U32.val_lt _)⟩

theorem CompactSaplingSpend.fields_shaped (s : CompactSaplingSpend) :
    ∀ f ∈ s.fields, f.Shaped :=
  blob_shaped (by omega) _

theorem CompactSaplingOutput.fields_shaped (o : CompactSaplingOutput) :
    ∀ f ∈ o.fields, f.Shaped := by
  simp only [fields, List.forall_mem_append]
  exact ⟨⟨blob_shaped (by omega) _, blob_shaped (by omega) _⟩, blob_shaped (by omega) _⟩

theorem CompactOrchardAction.fields_shaped (a : CompactOrchardAction) :
    ∀ f ∈ a.fields, f.Shaped := by
  simp only [fields, List.forall_mem_append]
  exact ⟨⟨⟨blob_shaped (by omega) _, blob_shaped (by omega) _⟩, blob_shaped (by omega) _⟩,
    blob_shaped (by omega) _⟩

theorem CompactTxIn.fields_shaped (i : CompactTxIn) : ∀ f ∈ i.fields, f.Shaped := by
  simp only [fields, List.forall_mem_append]
  exact ⟨blob_shaped (by omega) _, scalar_shaped (by omega) (U32.val_lt _)⟩

theorem TxOut.fields_shaped (o : TxOut) : ∀ f ∈ o.fields, f.Shaped := by
  simp only [fields, List.forall_mem_append]
  exact ⟨scalar_shaped (by omega) (U64.val_lt _), blob_shaped (by omega) _⟩

theorem CompactTx.fields_shaped (tx : CompactTx) : ∀ f ∈ tx.fields, f.Shaped := by
  simp only [fields, List.forall_mem_append]
  refine ⟨⟨⟨⟨⟨⟨⟨⟨?_, ?_⟩, ?_⟩, ?_⟩, ?_⟩, ?_⟩, ?_⟩, ?_⟩, ?_⟩
  · exact scalar_shaped (by omega) (U64.val_lt _)
  · exact blob_shaped (by omega) _
  · exact scalar_shaped (by omega) (U32.val_lt _)
  all_goals exact repeated_shaped (by omega) _

theorem CompactBlock.fields_shaped (b : CompactBlock) : ∀ f ∈ b.fields, f.Shaped := by
  simp only [fields, List.forall_mem_append]
  refine ⟨⟨⟨⟨⟨⟨?_, ?_⟩, ?_⟩, ?_⟩, ?_⟩, ?_⟩, ?_⟩
  · exact scalar_shaped (by omega) (U64.val_lt _)
  · exact blob_shaped (by omega) _
  · exact blob_shaped (by omega) _
  · exact scalar_shaped (by omega) (U32.val_lt _)
  · exact blob_shaped (by omega) _
  all_goals exact repeated_shaped (by omega) _

/-! A message without embedded messages is read back field by field: a field
    selects only its own values. -/

theorem ChainMetadata.ofFields_fields (m : ChainMetadata) : ofFields m.fields = some m := by
  simp [ofFields, fields]

theorem CompactSaplingSpend.ofFields_fields (s : CompactSaplingSpend) :
    ofFields s.fields = some s := by
  simp [ofFields, fields]

theorem CompactSaplingOutput.ofFields_fields (o : CompactSaplingOutput) :
    ofFields o.fields = some o := by
  simp [ofFields, fields]

theorem CompactOrchardAction.ofFields_fields (a : CompactOrchardAction) :
    ofFields a.fields = some a := by
  simp [ofFields, fields]

theorem CompactTxIn.ofFields_fields (i : CompactTxIn) : ofFields i.fields = some i := by
  simp [ofFields, fields]

theorem TxOut.ofFields_fields (o : TxOut) : ofFields o.fields = some o := by
  simp [ofFields, fields]

theorem CompactTx.ofFields_fields (tx : CompactTx) (hlen : tx.encode.length < 2 ^ 64) :
    ofFields tx.fields = some tx := by
  have hspends : readMessages CompactSaplingSpend.ofFields (select 4 tx.fields) =
      some tx.spends :=
    readMessages_select (fun s _ => s.ofFields_fields) (fun s => s.fields_shaped) hlen
      (by simp [fields, CompactSaplingSpend.encode])
  have houtputs : readMessages CompactSaplingOutput.ofFields (select 5 tx.fields) =
      some tx.outputs :=
    readMessages_select (fun o _ => o.ofFields_fields) (fun o => o.fields_shaped) hlen
      (by simp [fields, CompactSaplingOutput.encode])
  have hactions : readMessages CompactOrchardAction.ofFields (select 6 tx.fields) =
      some tx.actions :=
    readMessages_select (fun a _ => a.ofFields_fields) (fun a => a.fields_shaped) hlen
      (by simp [fields, CompactOrchardAction.encode])
  have hvin : readMessages CompactTxIn.ofFields (select 7 tx.fields) = some tx.vin :=
    readMessages_select (fun i _ => i.ofFields_fields) (fun i => i.fields_shaped) hlen
      (by simp [fields, CompactTxIn.encode])
  have hvout : readMessages TxOut.ofFields (select 8 tx.fields) = some tx.vout :=
    readMessages_select (fun o _ => o.ofFields_fields) (fun o => o.fields_shaped) hlen
      (by simp [fields, TxOut.encode])
  have hironwood : readMessages CompactOrchardAction.ofFields (select 9 tx.fields) =
      some tx.ironwoodActions :=
    readMessages_select (fun a _ => a.ofFields_fields) (fun a => a.fields_shaped) hlen
      (by simp [fields, CompactOrchardAction.encode])
  rw [ofFields, hspends, houtputs, hactions, hvin, hvout, hironwood]
  simp [fields]

/-- The fields of a block are read back, also before a field outside the schema. -/
theorem CompactBlock.ofFields_fields_append (b : CompactBlock) {fs : List Field}
    (hfs : ∀ tag ∈ [2, 3, 4, 5, 6, 7, 8], select tag fs = [])
    (hlen : (encodeFields (b.fields ++ fs)).length < 2 ^ 64) :
    ofFields (b.fields ++ fs) = some b := by
  simp only [List.forall_mem_cons, List.not_mem_nil, IsEmpty.forall_iff, implies_true,
    and_true] at hfs
  obtain ⟨h2, h3, h4, h5, h6, h7, h8⟩ := hfs
  have hvtx : readMessages CompactTx.ofFields (select 7 (b.fields ++ fs)) = some b.vtx :=
    readMessages_select (fun tx htx => tx.ofFields_fields htx) (fun tx => tx.fields_shaped) hlen
      (by simp [fields, h7, CompactTx.encode])
  have hmeta : readOptional ChainMetadata.ofFields (select 8 (b.fields ++ fs)) =
      some b.chainMetadata := by
    have hsel : select 8 (b.fields ++ fs) = (b.chainMetadata.toList.map (·.encode)).map .len := by
      simp [fields, h8]
    rw [hsel, readOptional, allBlobs_map_len]
    cases hm : b.chainMetadata with
    | none => rfl
    | some m =>
      have hmem : Value.len m.encode ∈ select 8 (b.fields ++ fs) := by
        rw [hsel]; simp [hm]
      have hlt := lt_of_le_of_lt (length_le_encodeFields_of_mem (mem_of_mem_select hmem)) hlen
      simp [ChainMetadata.encode, readFields_encodeFields m.fields_shaped hlt,
        ChainMetadata.ofFields_fields]
  rw [ofFields, hvtx, hmeta]
  simp [fields, h2, h3, h4, h5, h6]

/-- A decoder for the schema. It refuses groups. -/
abbrev wireDecoder : Prost where
  decode bytes := (readFields bytes).bind CompactBlock.ofFields
  decode_encode := by
    intro b hlen
    rw [CompactBlock.encode] at hlen ⊢
    rw [readFields_encodeFields b.fields_shaped hlen, Option.bind_some]
    rw [← List.append_nil b.fields] at hlen ⊢
    exact b.ofFields_fields_append (by simp) hlen
  decode_unknown := by
    intro b f hf htag hlen
    have hcat : b.encode ++ encodeField f = encodeFields (b.fields ++ [f]) := by
      simp [CompactBlock.encode, encodeFields]
    rw [hcat] at hlen ⊢
    have hshaped : ∀ g ∈ b.fields ++ [f], g.Shaped := by
      rw [List.forall_mem_append, List.forall_mem_singleton]
      exact ⟨b.fields_shaped, hf⟩
    rw [readFields_encodeFields hshaped hlen, Option.bind_some,
      b.ofFields_fields_append (fun tag ht => select_singleton_of_ne ?_) hlen]
    rintro rfl
    exact htag ht

end Proto

end Ztreamer
