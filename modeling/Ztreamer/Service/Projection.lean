import Ztreamer.Service.RangeStream

/-! # Projections of compact blocks

    A client asks for some of the shielded pools, or only for nullifiers. The server
    has two ways to answer: `projectBlock` edits a decoded message, and
    `projectEncodedBlock` copies the fields of an encoded one, and rewrites the
    lengths of the messages that it cuts.

    * `WireFields.read`, `forFields`: the fields of an encoded message,
    * `forFields_encodeFields`: the loop over the fields of an encoder,
    * `project_encoded_block_eq`: the two ways give the same bytes.
-/

namespace Ztreamer

open Octets Wire Result

/-! ## Fields of an encoded message -/

/-- One field of an encoded message: its number, the whole field, and the value of
    a length-delimited field. -/
structure WireField where
  number : Nat
  bytes : Bytes
  value : Bytes

/-- Writes a length-delimited field at the end of `out`. -/
def WireField.writeLen (number : Nat) (value out : Bytes) : Bytes :=
  out ++ (varint (8 * number + 2) ++ (varint value.length ++ value))

/-- The value of a length-delimited field, the bytes after the header of the field,
    and how many of them belong to it. Each length that is read fits a `usize`. -/
def WireFields.value (wireType : Nat) (rest : Bytes) : Except CodecError (Bytes × Bytes × Nat) :=
  match wireType with
  | 0 => do
    let (_, rest) ← okOr (readVarint rest) .invalidRecord
    return ([], rest, 0)
  | 1 => return ([], rest, 8)
  | 2 => do
    let (len, rest) ← okOr (readVarint rest) .invalidRecord
    let (value, _) ← okOr (readExact len rest) .truncated
    return (value, rest, len)
  | 5 => return ([], rest, 4)
  | _ => throw .invalidRecord

/-- Reads the next field. -/
def WireFields.read (message : Bytes) : Except CodecError (WireField × Bytes) := do
  let (key, rest) ← okOr (readVarint message) .invalidRecord
  let (value, rest, skip) ← WireFields.value (key % 8) rest
  let (_, rest) ← okOr (readExact skip rest) .truncated
  return ({ number := key / 8, bytes := message.take (message.length - rest.length), value }, rest)

theorem WireFields.value_length {wireType skip : Nat} {bytes value rest : Bytes}
    (h : WireFields.value wireType bytes = .ok (value, rest, skip)) :
    rest.length ≤ bytes.length := by
  unfold WireFields.value at h
  split at h
  · simp only [bind_eq_ok, okOr_eq_ok, Prod.exists, pure_eq_ok, Except.ok.injEq,
      Prod.mk.injEq] at h
    obtain ⟨_, _, hvarint, -, rfl, -⟩ := h
    exact (readVarint_length hvarint).le
  · cases h
    exact le_rfl
  · simp only [bind_eq_ok, okOr_eq_ok, Prod.exists, pure_eq_ok, Except.ok.injEq,
      Prod.mk.injEq] at h
    obtain ⟨_, _, hvarint, _, _, -, -, rfl, -⟩ := h
    exact (readVarint_length hvarint).le
  · cases h
    exact le_rfl
  · cases h

/-- A field has at least one byte. -/
theorem WireFields.read_length {message rest : Bytes} {field : WireField}
    (h : read message = .ok (field, rest)) : rest.length < message.length := by
  simp only [read, bind_eq_ok, okOr_eq_ok, Prod.exists, pure_eq_ok, Except.ok.injEq,
    Prod.mk.injEq] at h
  obtain ⟨key, rest₁, hkey, value, rest₂, skip, hvalue, _, rest₃, hskip, -, rfl⟩ := h
  have hlt := readVarint_length hkey
  have hle := WireFields.value_length hvalue
  have hle' := readExact_length hskip
  omega

/-- Handles the fields of a message one after another. A field that cannot be read
    ends the loop with its error. -/
def forFields {σ : Type} (step : σ → WireField → Except CodecError σ) (acc : σ) (message : Bytes) :
    Except CodecError σ :=
  if message = [] then .ok acc
  else
    match _hread : WireFields.read message with
    | .error error => .error error
    | .ok (field, rest) =>
      match step acc field with
      | .error error => .error error
      | .ok acc => forFields step acc rest
termination_by message.length
decreasing_by exact WireFields.read_length _hread

/-- The field that is read where `f` is written. -/
def WireField.ofField (f : Field) : WireField where
  number := f.1
  bytes := encodeField f
  value := f.2.asLen?.getD []

theorem WireFields.read_encodeField {f : Field} (hf : f.Fits) (rest : Bytes) :
    WireFields.read (encodeField f ++ rest) = .ok (WireField.ofField f, rest) := by
  obtain ⟨tag, v⟩ := f
  obtain ⟨-, hlt, hv⟩ := hf
  simp only at hlt hv
  have hw := v.wireType_lt
  have hmod : (8 * tag + v.wireType) % 8 = v.wireType := by omega
  have hdiv : (8 * tag + v.wireType) / 8 = tag := by omega
  have hkeyLt : 8 * tag + v.wireType < 2 ^ 64 := by omega
  have htake : ∀ field : Bytes, (field ++ rest).take ((field ++ rest).length - rest.length) =
      field := by
    intro field
    rw [List.length_append, Nat.add_sub_cancel, List.take_left]
  have hvalue : ∃ after skip skipped,
      WireFields.value v.wireType (encodeValue v ++ rest) = .ok (v.asLen?.getD [], after, skip) ∧
        readExact skip after = some (skipped, rest) := by
    cases v with
    | varint n =>
      have hskip : readExact 0 ([] ++ rest) = some ([], rest) := readExact_append rest rfl
      refine ⟨rest, 0, [], ?_, hskip⟩
      simp only [WireFields.value, Value.wireType, encodeValue, readVarint_varint n rest hv,
        okOr_some, ok_bind]
      rfl
    | fixed64 bytes => exact ⟨_, 8, bytes, rfl, readExact_append rest hv⟩
    | len bytes =>
      refine ⟨bytes ++ rest, bytes.length, bytes, ?_, readExact_append rest rfl⟩
      simp only [WireFields.value, Value.wireType, encodeValue, List.append_assoc,
        readVarint_varint _ _ hv, okOr_some, ok_bind, readExact_append rest rfl]
      rfl
    | fixed32 bytes => exact ⟨_, 4, bytes, rfl, readExact_append rest hv⟩
  obtain ⟨after, skip, skipped, hvalue, hskip⟩ := hvalue
  have hkey : readVarint (encodeField (tag, v) ++ rest) =
      some (8 * tag + v.wireType, encodeValue v ++ rest) := by
    rw [encodeField, List.append_assoc]
    exact readVarint_varint _ _ hkeyLt
  simp only [WireFields.read, hkey, okOr_some, ok_bind, hmod, hdiv, hvalue, hskip, htake]
  rfl

/-- The loop over the fields of an encoder handles the fields that it wrote. -/
theorem forFields_encodeFields {σ : Type} {step : σ → WireField → Except CodecError σ}
    {fs : List Field} (hfs : ∀ f ∈ fs, f.Fits) (acc : σ) :
    forFields step acc (encodeFields fs) =
      fs.foldlM (fun acc f => step acc (WireField.ofField f)) acc := by
  induction fs generalizing acc with
  | nil =>
    rw [forFields]
    rfl
  | cons f fs ih =>
    have hcons : encodeFields (f :: fs) = encodeField f ++ encodeFields fs := rfl
    have hne : encodeFields (f :: fs) ≠ [] := by
      intro hnil
      have hpos := encodeField_length_pos f
      rw [hcons, List.append_eq_nil_iff] at hnil
      rw [hnil.1] at hpos
      exact Nat.lt_irrefl 0 hpos
    have hread := WireFields.read_encodeField (hfs f List.mem_cons_self) (encodeFields fs)
    rw [forFields, if_neg hne, hcons, hread, List.foldlM_cons]
    simp only
    cases step acc (WireField.ofField f) with
    | error error => rfl
    | ok acc => exact ih (fun g hg => hfs g (List.mem_cons_of_mem f hg)) acc

/-! ## Selections -/

/-- The pools that a client asks for. -/
structure PoolSelection where
  transparent : Bool
  sapling : Bool
  orchard : Bool
  ironwood : Bool
  deriving DecidableEq

def PoolSelection.isAll (pools : PoolSelection) : Bool :=
  !pools.transparent && pools.sapling && pools.orchard && pools.ironwood

/-! ## Decoded messages -/

/-- An action without all but its nullifier. -/
def onlyNullifier (a : Proto.CompactOrchardAction) : Proto.CompactOrchardAction :=
  { a with cmx := [], ephemeralKey := [], ciphertext := [] }

/-- A transaction with the data of the selected pools. -/
def projectTx (pools : PoolSelection) (nullifiers : Bool) (tx : Proto.CompactTx) :
    Proto.CompactTx :=
  let actions := if pools.orchard then tx.actions else []
  let ironwoodActions := if pools.ironwood then tx.ironwoodActions else []
  { tx with
    spends := if pools.sapling then tx.spends else []
    outputs := if pools.sapling && !nullifiers then tx.outputs else []
    actions := if nullifiers then actions.map onlyNullifier else actions
    ironwoodActions := if nullifiers then ironwoodActions.map onlyNullifier else ironwoodActions }

def isShielded (tx : Proto.CompactTx) : Bool :=
  !tx.spends.isEmpty || !tx.outputs.isEmpty || !tx.actions.isEmpty || !tx.ironwoodActions.isEmpty

/-- The projection of a decoded block. -/
def projectBlock (block : Proto.CompactBlock) (pools : PoolSelection) (nullifiers : Bool) :
    Proto.CompactBlock :=
  let vtx := block.vtx.map (projectTx pools nullifiers)
  if nullifiers then { block with vtx, chainMetadata := some ⟨0, 0, 0⟩ }
  else { block with vtx := vtx.filter isShielded }

/-! ## Encoded messages -/

def blockVtx : Nat := 7
def blockChainMetadata : Nat := 8
def txSpends : Nat := 4
def txOutputs : Nat := 5
def txActions : Nat := 6
def txIronwoodActions : Nat := 9
def actionNullifier : Nat := 1

namespace PoolSelection

/-- Writes a field of an action if it is the nullifier. -/
def projectActionField (out : Bytes) (field : WireField) : Except CodecError Bytes :=
  .ok (if field.number = actionNullifier then out ++ field.bytes else out)

def projectActionFields (action : Bytes) : Except CodecError Bytes :=
  forFields projectActionField [] action

/-- Whether a field of a transaction is kept, if it holds shielded data. -/
def keepField (pools : PoolSelection) (nullifiers : Bool) (number : Nat) : Option Bool :=
  if number = txSpends then some pools.sapling
  else if number = txOutputs then some (pools.sapling && !nullifiers)
  else if number = txActions then some pools.orchard
  else if number = txIronwoodActions then some pools.ironwood
  else none

/-- Writes the projection of one field of a transaction. The flag tells if shielded
    data is kept. -/
def projectTransactionField (pools : PoolSelection) (nullifiers : Bool) (acc : Bytes × Bool)
    (field : WireField) : Except CodecError (Bytes × Bool) :=
  match pools.keepField nullifiers field.number with
  | none => .ok (acc.1 ++ field.bytes, acc.2)
  | some false => .ok acc
  | some true =>
    if !nullifiers || field.number = txSpends then .ok (acc.1 ++ field.bytes, true)
    else do
      let action ← projectActionFields field.value
      return (WireField.writeLen field.number action acc.1, true)

def projectTransactionFields (pools : PoolSelection) (transaction : Bytes) (nullifiers : Bool) :
    Except CodecError (Bytes × Bool) :=
  forFields (pools.projectTransactionField nullifiers) ([], false) transaction

/-- Writes the projection of one field of a block. -/
def projectBlockField (pools : PoolSelection) (nullifiers : Bool) (projected : Bytes)
    (field : WireField) : Except CodecError Bytes :=
  if field.number = blockVtx then do
    let (transaction, shielded) ← pools.projectTransactionFields field.value nullifiers
    return if shielded || nullifiers then WireField.writeLen blockVtx transaction projected
      else projected
  else if field.number = blockChainMetadata ∧ nullifiers then
    .ok (WireField.writeLen blockChainMetadata [] projected)
  else .ok (projected ++ field.bytes)

def projectBlockFields (pools : PoolSelection) (block : Bytes) (nullifiers : Bool) :
    Except CodecError Bytes :=
  forFields (pools.projectBlockField nullifiers) [] block

/-- The projection of an encoded block, without a decode. -/
def projectEncodedBlock (pools : PoolSelection) (block : EncodedCompactBlock) (nullifiers : Bool) :
    Except Status EncodedCompactBlock := do
  let projected ← okMapError (pools.projectBlockFields block.toBytes nullifiers)
    fun error => (IndexError.codec error).toStatus
  return .encoded projected

/-- The answer for one stored block of a range, for a selection without transparent
    data. -/
def encodedRangeBlock (pools : PoolSelection) (nullifiers : Bool) (record : EncodedBlockRecord) :
    Except Status EncodedCompactBlock :=
  if !nullifiers && pools.isAll then .ok record.block
  else pools.projectEncodedBlock record.block nullifiers

end PoolSelection

/-! ## The two ways agree -/

/-- The loop over the fields of an encoded message writes the fields of another. -/
theorem forFields_of_copies {σ : Type} {step : σ → WireField → Except CodecError σ}
    {write : σ → Field → σ} {fs gs : List Field}
    (h : Copies (fun acc f => step acc (WireField.ofField f)) write fs gs)
    (hshaped : ∀ f ∈ fs, f.Shaped) (hlen : (encodeFields fs).length < 2 ^ 64) (acc : σ) :
    forFields step acc (encodeFields fs) = .ok (gs.foldl write acc) := by
  rw [forFields_encodeFields (Field.Shaped.fits hshaped hlen)]
  exact h acc

theorem projectActionFields_encode {a : Proto.CompactOrchardAction}
    (hlen : a.encode.length < 2 ^ 64) :
    PoolSelection.projectActionFields a.encode = .ok (onlyNullifier a).encode := by
  have hfields : (onlyNullifier a).fields = blob 1 a.nullifier ++ [] ++ [] ++ [] := rfl
  have hskip : ∀ (tag : Nat) (bytes : Bytes), tag ≠ actionNullifier → ∀ f ∈ blob tag bytes,
      ∀ acc, PoolSelection.projectActionField acc (WireField.ofField f) = .ok acc := by
    intro tag bytes htag f hf acc
    have hne : f.1 ≠ actionNullifier := mem_blob hf ▸ htag
    exact congrArg _ (if_neg hne)
  have hcopies : Copies (fun acc f => PoolSelection.projectActionField acc (WireField.ofField f))
      (fun out g => out ++ encodeField g) a.fields (onlyNullifier a).fields := by
    rw [hfields]
    refine (((Copies.of_step ?_).append (.skip ?_)).append (.skip ?_)).append (.skip ?_)
    · intro f hf acc
      exact congrArg _ (if_pos (mem_blob hf))
    · exact hskip 2 a.cmx (by decide)
    · exact hskip 3 a.ephemeralKey (by decide)
    · exact hskip 4 a.ciphertext (by decide)
  have hloop := forFields_of_copies hcopies a.fields_shaped hlen []
  rw [foldl_append_encodeField, List.nil_append] at hloop
  exact hloop

/-- The fields of a transaction that hold shielded data. -/
def isShieldedField (number : Nat) : Bool :=
  number = txSpends || number = txOutputs || number = txActions || number = txIronwoodActions

/-- Writes a field of a transaction, and notes if it holds shielded data. -/
def writeTxField (acc : Bytes × Bool) (g : Field) : Bytes × Bool :=
  (acc.1 ++ encodeField g, acc.2 || isShieldedField g.1)

theorem foldl_writeTxField (gs : List Field) (acc : Bytes × Bool) :
    gs.foldl writeTxField acc =
      (acc.1 ++ encodeFields gs, acc.2 || gs.any fun g => isShieldedField g.1) := by
  induction gs generalizing acc with
  | nil => simp
  | cons g gs ih =>
    rw [List.foldl_cons, ih, writeTxField, List.any_cons, List.append_assoc, Bool.or_assoc]
    rfl

section

variable {pools : PoolSelection} {nullifiers : Bool}

/-- A field without shielded data is copied. -/
theorem projectTransactionField_other {f : Field} (h : isShieldedField f.1 = false)
    (acc : Bytes × Bool) :
    pools.projectTransactionField nullifiers acc (WireField.ofField f) =
      .ok (writeTxField acc f) := by
  simp only [isShieldedField, Bool.or_eq_false_iff, decide_eq_false_iff_not] at h
  obtain ⟨⟨⟨hspends, houtputs⟩, hactions⟩, hironwood⟩ := h
  have hkeep : pools.keepField nullifiers f.1 = none := by
    rw [PoolSelection.keepField, if_neg hspends, if_neg houtputs, if_neg hactions,
      if_neg hironwood]
  simp only [PoolSelection.projectTransactionField, WireField.ofField, hkeep, writeTxField,
    isShieldedField, hspends, houtputs, hactions, hironwood, decide_false, Bool.or_false]

variable {number : Nat} {block : Proto.CompactBlock}

/-- A field with shielded data that is kept whole. -/
theorem projectTransactionField_copy (hkeep : pools.keepField nullifiers number = some true)
    (hwhole : nullifiers = false ∨ number = txSpends) (bytes : Bytes) (acc : Bytes × Bool) :
    pools.projectTransactionField nullifiers acc (WireField.ofField (number, .len bytes)) =
      .ok (acc.1 ++ encodeField (number, .len bytes), true) := by
  have hcond : (!nullifiers || number = txSpends) = true := by
    rcases hwhole with h | h
    · rw [h]
      rfl
    · rw [decide_eq_true h, Bool.or_true]
  simp only [PoolSelection.projectTransactionField, WireField.ofField, hkeep]
  exact if_pos hcond

/-- An action that is cut to its nullifier. -/
theorem projectTransactionField_cut (hkeep : pools.keepField true number = some true)
    (hnumber : number ≠ txSpends) {a : Proto.CompactOrchardAction} (hlen : a.encode.length < 2 ^ 64)
    (acc : Bytes × Bool) :
    pools.projectTransactionField true acc (WireField.ofField (number, .len a.encode)) =
      .ok (acc.1 ++ encodeField (number, .len (onlyNullifier a).encode), true) := by
  have hcond : (!true || number = txSpends) = false := by
    rw [decide_eq_false hnumber]
    rfl
  have hvalue : (Value.len a.encode).asLen?.getD [] = a.encode := rfl
  simp only [PoolSelection.projectTransactionField, WireField.ofField, hkeep, hcond, hvalue,
    projectActionFields_encode hlen, ok_bind]
  rfl

/-- The messages of one pool: all are edited, or all are skipped. -/
theorem copies_pool {α : Type} {encode : α → Bytes} {keep : Bool} {xs ys : List α} (edit : α → α)
    (hkeep : pools.keepField nullifiers number = some keep)
    (hshielded : isShieldedField number = true) (hys : (if keep then xs.map edit else []) = ys)
    (hedit : keep = true → ∀ x ∈ xs, ∀ acc,
      pools.projectTransactionField nullifiers acc (WireField.ofField (number, .len (encode x))) =
        .ok (acc.1 ++ encodeField (number, .len (encode (edit x))), true)) :
    Copies (fun acc f => pools.projectTransactionField nullifiers acc (WireField.ofField f))
      writeTxField (repeated number (xs.map encode)) (repeated number (ys.map encode)) := by
  cases keep with
  | false =>
    refine Copies.repeated (fun _ => none) (hys ▸ List.filterMap_none xs) ?_
    intro x _ acc
    simp only [PoolSelection.projectTransactionField, WireField.ofField, hkeep, Option.elim_none]
  | true =>
    refine Copies.repeated (fun x => some (edit x)) (hys ▸ congrFun List.filterMap_eq_map xs) ?_
    intro x hx acc
    rw [hedit rfl x hx acc, Option.elim_some, writeTxField, hshielded, Bool.or_true]

theorem copies_other {fs : List Field} (hfs : ∀ f ∈ fs, f.1 = number)
    (hother : isShieldedField number = false) :
    Copies (fun acc f => pools.projectTransactionField nullifiers acc (WireField.ofField f))
      writeTxField fs fs := by
  apply Copies.of_step
  intro f hf acc
  exact projectTransactionField_other (hfs f hf ▸ hother) acc

theorem mem_repeated {messages : List Bytes} {f : Field} (hf : f ∈ repeated number messages) :
    f.1 = number := by
  obtain ⟨_, _, rfl⟩ := List.mem_map.mp hf
  rfl

/-- The actions of a pool are skipped, copied, or cut to their nullifiers. -/
theorem copies_actions {keep : Bool} {xs : List Proto.CompactOrchardAction}
    (hkeep : pools.keepField nullifiers number = some keep) (hnumber : number ≠ txSpends)
    (hshielded : isShieldedField number = true) (hsize : ∀ a ∈ xs, a.encode.length < 2 ^ 64) :
    Copies (fun acc f => pools.projectTransactionField nullifiers acc (WireField.ofField f))
      writeTxField (repeated number (xs.map (·.encode)))
      (repeated number ((if nullifiers then (if keep then xs else []).map onlyNullifier
        else if keep then xs else []).map (·.encode))) := by
  cases hn : nullifiers with
  | false =>
    subst hn
    refine copies_pool id hkeep hshielded (by simp) ?_
    intro hk x _ acc
    exact projectTransactionField_copy (hk ▸ hkeep) (.inl rfl) _ acc
  | true =>
    subst hn
    refine copies_pool onlyNullifier hkeep hshielded (by cases keep <;> rfl) ?_
    intro hk a ha acc
    exact projectTransactionField_cut (hk ▸ hkeep) hnumber (hsize a ha) acc

/-- A transaction is projected field by field. -/
theorem copies_projectTx {tx : Proto.CompactTx} (hlen : tx.encode.length < 2 ^ 64) :
    Copies (fun acc f => pools.projectTransactionField nullifiers acc (WireField.ofField f))
      writeTxField tx.fields (projectTx pools nullifiers tx).fields := by
  have hsize : ∀ (number : Nat) (xs : List Proto.CompactOrchardAction),
      (∀ f ∈ repeated number (xs.map (·.encode)), f ∈ tx.fields) →
      ∀ a ∈ xs, a.encode.length < 2 ^ 64 := by
    intro number xs hsub a ha
    have hmem : (number, Value.len a.encode) ∈ repeated number (xs.map (·.encode)) :=
      List.mem_map_of_mem (List.mem_map_of_mem ha)
    exact (length_le_encodeFields_of_mem (hsub _ hmem)).trans_lt hlen
  have hactions := hsize 6 tx.actions fun f hf => by
    simp only [Proto.CompactTx.fields, List.mem_append, hf, true_or, or_true]
  have hironwood := hsize 9 tx.ironwoodActions fun f hf => by
    simp only [Proto.CompactTx.fields, List.mem_append, hf, or_true]
  have hspendsKeep : pools.keepField nullifiers 4 = some pools.sapling := rfl
  have houtputsKeep : pools.keepField nullifiers 5 = some (pools.sapling && !nullifiers) := rfl
  refine ((((((((copies_other (fun _ => mem_scalar) rfl).append ?_).append ?_).append ?_).append
    ?_).append ?_).append ?_).append ?_).append ?_
  · exact copies_other (fun _ => mem_blob) rfl
  · exact copies_other (fun _ => mem_scalar) rfl
  · refine copies_pool id hspendsKeep rfl (by rw [List.map_id]; rfl) ?_
    intro hk x _ acc
    exact projectTransactionField_copy (hk ▸ hspendsKeep) (.inr rfl) _ acc
  · refine copies_pool id houtputsKeep rfl (by rw [List.map_id]; rfl) ?_
    intro hk x _ acc
    have hwhole : nullifiers = false := by
      rw [Bool.and_eq_true, Bool.not_eq_true'] at hk
      exact hk.2
    exact projectTransactionField_copy (hk ▸ houtputsKeep) (.inl hwhole) _ acc
  · exact copies_actions rfl (by decide) rfl hactions
  · exact copies_other (fun _ => mem_repeated) rfl
  · exact copies_other (fun _ => mem_repeated) rfl
  · exact copies_actions rfl (by decide) rfl hironwood

/-- The flag of the loop tells if the projection keeps shielded data. -/
theorem any_isShieldedField (tx : Proto.CompactTx) :
    (tx.fields.any fun g => isShieldedField g.1) = isShielded tx := by
  have hother : ∀ (fs : List Field) (number : Nat), (∀ f ∈ fs, f.1 = number) →
      isShieldedField number = false → (fs.any fun g => isShieldedField g.1) = false := by
    intro fs number hfs hnumber
    rw [List.any_eq_false]
    intro f hf
    rw [hfs f hf, hnumber]
    exact Bool.false_ne_true
  have hpool : ∀ {α : Type} (xs : List α) (encode : α → Bytes) (number : Nat),
      isShieldedField number = true →
      ((repeated number (xs.map encode)).any fun g => isShieldedField g.1) = !xs.isEmpty := by
    intro α xs encode number hnumber
    cases xs with
    | nil => rfl
    | cons x xs =>
      simp only [repeated, List.map_cons, List.any_cons, hnumber, Bool.true_or, List.isEmpty_cons,
        Bool.not_false]
  rw [Proto.CompactTx.fields, List.any_append, List.any_append, List.any_append, List.any_append,
    List.any_append, List.any_append, List.any_append, List.any_append,
    hother _ 1 (fun _ => mem_scalar) rfl, hother _ 2 (fun _ => mem_blob) rfl,
    hother _ 3 (fun _ => mem_scalar) rfl, hother _ 7 (fun _ => mem_repeated) rfl,
    hother _ 8 (fun _ => mem_repeated) rfl, hpool _ _ 4 rfl, hpool _ _ 5 rfl, hpool _ _ 6 rfl,
    hpool _ _ 9 rfl]
  simp only [isShielded, Bool.false_or, Bool.or_false]

theorem projectTransactionFields_encode {tx : Proto.CompactTx}
    (hlen : tx.encode.length < 2 ^ 64) :
    pools.projectTransactionFields tx.encode nullifiers =
      .ok ((projectTx pools nullifiers tx).encode, isShielded (projectTx pools nullifiers tx)) := by
  have hcopies : Copies (fun acc f =>
      pools.projectTransactionField nullifiers acc (WireField.ofField f)) writeTxField tx.fields
      (projectTx pools nullifiers tx).fields := copies_projectTx hlen
  have hloop := forFields_of_copies hcopies tx.fields_shaped hlen ([], false)
  rw [foldl_writeTxField, any_isShieldedField, List.nil_append, Bool.false_or] at hloop
  exact hloop

/-- The projected transaction, if it stays in the block. -/
def keptTx (pools : PoolSelection) (nullifiers : Bool) (tx : Proto.CompactTx) :
    Option Proto.CompactTx :=
  if isShielded (projectTx pools nullifiers tx) || nullifiers then
    some (projectTx pools nullifiers tx)
  else none

theorem filterMap_keptTx (block : Proto.CompactBlock) :
    block.vtx.filterMap (keptTx pools nullifiers) = (projectBlock block pools nullifiers).vtx := by
  cases nullifiers with
  | true =>
    have hkept : keptTx pools true = fun tx => some (projectTx pools true tx) := by
      funext tx
      rw [keptTx, Bool.or_true, if_pos rfl]
    rw [hkept]
    exact congrFun List.filterMap_eq_map block.vtx
  | false =>
    have hkept : keptTx pools false =
        Option.guard isShielded ∘ projectTx pools false := by
      funext tx
      simp only [keptTx, Bool.or_false, Function.comp_apply, Option.guard]
    rw [hkept, ← List.filterMap_map, List.filterMap_eq_filter]
    rfl

theorem copies_blockOther {fs : List Field} (hfs : ∀ f ∈ fs, f.1 = number)
    (hvtx : number ≠ blockVtx) (hmetadata : number ≠ blockChainMetadata) :
    Copies (fun acc f => pools.projectBlockField nullifiers acc (WireField.ofField f))
      (fun out g => out ++ encodeField g) fs fs := by
  apply Copies.of_step
  intro f hf acc
  have hnumber : (WireField.ofField f).number = number := hfs f hf
  rw [PoolSelection.projectBlockField, hnumber, if_neg hvtx, if_neg fun h => hmetadata h.1]
  rfl

/-- The transactions of a block, each of which is edited or dropped. -/
theorem copies_blockVtx (hsize : ∀ tx ∈ block.vtx, tx.encode.length < 2 ^ 64) :
    Copies (fun acc f => pools.projectBlockField nullifiers acc (WireField.ofField f))
      (fun out g => out ++ encodeField g) (repeated 7 (block.vtx.map (·.encode)))
      (repeated 7 ((projectBlock block pools nullifiers).vtx.map (·.encode))) := by
  refine Copies.repeated (keptTx pools nullifiers) (filterMap_keptTx block) ?_
  intro tx htx acc
  have hnumber : (WireField.ofField (7, .len tx.encode)).number = blockVtx := rfl
  have hvalue : (WireField.ofField (7, .len tx.encode)).value = tx.encode := rfl
  rw [PoolSelection.projectBlockField, if_pos hnumber, hvalue,
    projectTransactionFields_encode (hsize tx htx), ok_bind, keptTx]
  by_cases hkept : (isShielded (projectTx pools nullifiers tx) || nullifiers) = true
  · simp only [if_pos hkept]
    rfl
  · simp only [if_neg hkept]
    rfl

/-- The metadata of a block is copied or emptied. It is not added to a block
    without it. -/
theorem copies_blockMetadata (hmeta : block.chainMetadata.isSome) :
    Copies (fun acc f => pools.projectBlockField nullifiers acc (WireField.ofField f))
      (fun out g => out ++ encodeField g) (repeated 8 (block.chainMetadata.toList.map (·.encode)))
      (repeated 8
        ((projectBlock block pools nullifiers).chainMetadata.toList.map (·.encode))) := by
  obtain ⟨metadata, hsome⟩ := Option.isSome_iff_exists.mp hmeta
  have hnumber : (WireField.ofField (8, .len metadata.encode)).number = blockChainMetadata := rfl
  have hne : blockChainMetadata ≠ blockVtx := by decide
  intro acc
  rw [hsome]
  show pools.projectBlockField nullifiers acc (WireField.ofField (8, .len metadata.encode)) >>=
    pure = _
  rw [PoolSelection.projectBlockField, hnumber, if_neg hne]
  cases nullifiers with
  | true =>
    rw [if_pos ⟨rfl, rfl⟩]
    rfl
  | false =>
    rw [if_neg (by simp)]
    simp only [projectBlock, hsome]
    rfl

/-- A block is projected field by field. -/
theorem copies_projectBlock (hmeta : block.chainMetadata.isSome)
    (hlen : block.encode.length < 2 ^ 64) :
    Copies (fun acc f => pools.projectBlockField nullifiers acc (WireField.ofField f))
      (fun out g => out ++ encodeField g) block.fields
      (projectBlock block pools nullifiers).fields := by
  have hsize : ∀ tx ∈ block.vtx, tx.encode.length < 2 ^ 64 := by
    intro tx htx
    have hmem : (7, Value.len tx.encode) ∈ repeated 7 (block.vtx.map (·.encode)) :=
      List.mem_map_of_mem (List.mem_map_of_mem htx)
    have hfield : (7, Value.len tx.encode) ∈ block.fields := by
      simp only [Proto.CompactBlock.fields, List.mem_append, hmem, true_or, or_true]
    exact (length_le_encodeFields_of_mem hfield).trans_lt hlen
  have hfields : (projectBlock block pools nullifiers).fields =
      scalar 2 block.height.val ++ blob 3 block.hash ++ blob 4 block.prevHash ++
        scalar 5 block.time.val ++ blob 6 block.header ++
        repeated 7 ((projectBlock block pools nullifiers).vtx.map (·.encode)) ++
        repeated 8 ((projectBlock block pools nullifiers).chainMetadata.toList.map (·.encode)) := by
    cases nullifiers with
    | true => rfl
    | false => rfl
  rw [hfields]
  refine (((((Copies.append ?_ ?_).append ?_).append ?_).append ?_).append
    (copies_blockVtx hsize)).append (copies_blockMetadata hmeta)
  · exact copies_blockOther (fun _ => mem_scalar) (by decide) (by decide)
  · exact copies_blockOther (fun _ => mem_blob) (by decide) (by decide)
  · exact copies_blockOther (fun _ => mem_blob) (by decide) (by decide)
  · exact copies_blockOther (fun _ => mem_scalar) (by decide) (by decide)
  · exact copies_blockOther (fun _ => mem_blob) (by decide) (by decide)

theorem projectBlockFields_encode {block : Proto.CompactBlock}
    (hmeta : block.chainMetadata.isSome) (hlen : block.encode.length < 2 ^ 64) :
    pools.projectBlockFields block.encode nullifiers =
      .ok (projectBlock block pools nullifiers).encode := by
  have hcopies : Copies (fun acc f => pools.projectBlockField nullifiers acc (WireField.ofField f))
      (fun out g => out ++ encodeField g) block.fields
      (projectBlock block pools nullifiers).fields := copies_projectBlock hmeta hlen
  have hloop := forFields_of_copies hcopies block.fields_shaped hlen []
  rw [foldl_append_encodeField, List.nil_append] at hloop
  exact hloop

/-- The selection of all shielded pools keeps a block of shielded transactions. -/
theorem projectBlock_all (hsapling : pools.sapling) (horchard : pools.orchard)
    (hironwood : pools.ironwood) (hshielded : ∀ tx ∈ block.vtx, isShielded tx) :
    projectBlock block pools false = block := by
  have htx : projectTx pools false = id := by
    funext tx
    simp only [projectTx, hsapling, horchard, hironwood, if_true, Bool.not_false, Bool.and_true,
      Bool.false_eq_true, if_false, id]
  have hvtx : (block.vtx.map (projectTx pools false)).filter isShielded = block.vtx := by
    rw [htx, List.map_id]
    exact List.filter_eq_self.mpr hshielded
  simp only [projectBlock, Bool.false_eq_true, if_false, hvtx]

end

theorem isShielded_transaction {tx : CompactTransaction} (h : tx.hasPayload) :
    isShielded (transaction tx) := by
  simpa [isShielded, transaction, CompactTransaction.hasPayload, List.isEmpty_iff, or_assoc] using h

/-- The projection of the encoding of a record is the encoding of the projection of
    its message. The answer to a range request does not depend on the shortcut for
    all shielded pools. -/
theorem project_encoded_block_eq (r : CompactBlockRecord)
    (hlen : r.toProto.encode.length < 2 ^ 64) :
    (∀ (pools : PoolSelection) (nullifiers : Bool),
      pools.projectEncodedBlock (.encoded r.toProto.encode) nullifiers =
        .ok (.encoded (projectBlock r.toProto pools nullifiers).encode)) ∧
    ((∀ tx ∈ r.transactions, tx.hasPayload) →
      (∀ pools : PoolSelection, pools.sapling → pools.orchard → pools.ironwood →
        pools.projectEncodedBlock (.encoded r.toProto.encode) false =
          .ok (.encoded r.toProto.encode)) ∧
      ∀ (pools : PoolSelection) (nullifiers : Bool) (record : EncodedBlockRecord),
        record.block = .encoded r.toProto.encode →
        pools.encodedRangeBlock nullifiers record =
          pools.projectEncodedBlock record.block nullifiers) := by
  have hproject : ∀ (pools : PoolSelection) (nullifiers : Bool),
      pools.projectEncodedBlock (.encoded r.toProto.encode) nullifiers =
        .ok (.encoded (projectBlock r.toProto pools nullifiers).encode) := by
    intro pools nullifiers
    have hfields := @projectBlockFields_encode pools nullifiers r.toProto rfl hlen
    simp only [PoolSelection.projectEncodedBlock, EncodedCompactBlock.toBytes, hfields,
      okMapError_ok, ok_bind]
    rfl
  refine ⟨hproject, fun hpayload => ?_⟩
  have hshielded : ∀ tx ∈ r.toProto.vtx, isShielded tx := by
    intro tx htx
    obtain ⟨tx, hmem, rfl⟩ := List.mem_map.mp htx
    exact isShielded_transaction (hpayload tx hmem)
  have hall : ∀ pools : PoolSelection, pools.sapling → pools.orchard → pools.ironwood →
      pools.projectEncodedBlock (.encoded r.toProto.encode) false =
        .ok (.encoded r.toProto.encode) := by
    intro pools hsapling horchard hironwood
    rw [hproject, projectBlock_all hsapling horchard hironwood hshielded]
  refine ⟨hall, fun pools nullifiers record hrecord => ?_⟩
  rw [PoolSelection.encodedRangeBlock]
  split
  case isTrue hshortcut =>
    simp only [PoolSelection.isAll, Bool.and_eq_true, Bool.not_eq_true'] at hshortcut
    obtain ⟨rfl, ⟨⟨-, hsapling⟩, horchard⟩, hironwood⟩ := hshortcut
    rw [hrecord, hall pools hsapling horchard hironwood]
  case isFalse => rfl

/-- A block with one Sapling spend is sent as it is stored. Without the Sapling pool
    its transaction is left out. -/
theorem project_encoded_block_oneSpend :
    PoolSelection.projectEncodedBlock ⟨false, true, true, true⟩
        (.encoded oneSpendRecord.toProto.encode) false =
      .ok (.encoded oneSpendRecord.toProto.encode) ∧
    PoolSelection.projectEncodedBlock ⟨false, false, true, true⟩
        (.encoded oneSpendRecord.toProto.encode) false =
      .ok (.encoded { oneSpendRecord.toProto with vtx := [] }.encode) := by
  have hle := oneSpendRecord.toProto_length_le (by decide)
  have hbound : 192 + (oneSpendRecord.transactions.map transactionSizeBound).sum < 2 ^ 64 := by
    decide
  obtain ⟨hproject, hshielded⟩ := project_encoded_block_eq oneSpendRecord (by omega)
  have hpayload : ∀ tx ∈ oneSpendRecord.transactions, tx.hasPayload := by decide
  exact ⟨(hshielded hpayload).1 _ rfl rfl rfl, hproject ⟨false, false, true, true⟩ false⟩

end Ztreamer
