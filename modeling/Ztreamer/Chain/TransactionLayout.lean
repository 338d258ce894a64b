import Ztreamer.Chain.Parser

/-! # The wire layout of transactions

    The serialization of Zcash transactions of version 1 to 6, as far as the
    compact format distinguishes their parts, and the completeness of the
    selective parser: it reads every transaction of at most 2,000,000 bytes
    whose transparent outputs it can count, and gives exactly its shielded
    fields.
-/

namespace Ztreamer

open Octets Octets.Parser Result TxReader

/-! ## Layout -/

/-- A canonical CompactSize. -/
def compactSizeBytes (n : Nat) : Bytes :=
  if n < 253 then leBytes 1 n
  else if n < 2 ^ 16 then leBytes 1 253 ++ leBytes 2 n
  else if n < 2 ^ 32 then leBytes 1 254 ++ leBytes 4 n
  else leBytes 1 255 ++ leBytes 8 n

/-- A vector: its count, then its items. -/
def vectorBytes {α : Type} (encode : α → Bytes) (items : List α) : Bytes :=
  compactSizeBytes items.length ++ items.flatMap encode

structure TxInput where
  prevout : ByteVec 36
  script : Bytes
  sequence : ByteVec 4

def TxInput.encode (i : TxInput) : Bytes :=
  i.prevout.val ++ (compactSizeBytes i.script.length ++ (i.script ++ i.sequence.val))

structure TxOutput where
  value : ByteVec 8
  script : Bytes

def TxOutput.encode (o : TxOutput) : Bytes :=
  o.value.val ++ (compactSizeBytes o.script.length ++ o.script)

structure TransparentBundle where
  inputs : List TxInput
  outputs : List TxOutput

def TransparentBundle.encode (b : TransparentBundle) : Bytes :=
  vectorBytes TxInput.encode b.inputs ++ vectorBytes TxOutput.encode b.outputs

/-- JoinSplits of `n` bytes, and the key and signature that follow them. -/
structure JoinSplits (n : Nat) where
  items : List (ByteVec n)
  trailer : ByteVec 96

def JoinSplits.encode {n : Nat} (j : JoinSplits n) : Bytes :=
  vectorBytes ByteVec.val j.items ++ if j.items = [] then [] else j.trailer.val

structure SaplingSpendV4 where
  valueCommitmentAndAnchor : ByteVec 64
  nullifier : Digest
  keyProofAndSignature : ByteVec 288

def SaplingSpendV4.encode (s : SaplingSpendV4) : Bytes :=
  s.valueCommitmentAndAnchor.val ++ (s.nullifier.val ++ s.keyProofAndSignature.val)

/-- An output of any version. The proof has its own place in each version. -/
structure SaplingOutput where
  valueCommitment : ByteVec 32
  cmu : Digest
  ephemeralKey : Digest
  ciphertext : Ciphertext
  /-- The rest of the note ciphertext, and the outgoing ciphertext. -/
  ciphertextRest : ByteVec 608
  proof : ByteVec 192

namespace SaplingOutput

/-- The output up to its proof. -/
def encodePrefix (o : SaplingOutput) : Bytes :=
  o.valueCommitment.val ++ (o.cmu.val ++ (o.ephemeralKey.val ++ (o.ciphertext.val ++
    o.ciphertextRest.val)))

def encodeV4 (o : SaplingOutput) : Bytes :=
  o.valueCommitment.val ++ (o.cmu.val ++ (o.ephemeralKey.val ++ (o.ciphertext.val ++
    (o.ciphertextRest.val ++ o.proof.val))))

def compact (o : SaplingOutput) : CompactSaplingOutput :=
  ⟨o.cmu, o.ephemeralKey, o.ciphertext⟩

end SaplingOutput

structure SaplingV4 where
  spends : List SaplingSpendV4
  outputs : List SaplingOutput
  joinsplits : JoinSplits groth16JoinsplitBytes
  bindingSignature : ByteVec 64

def SaplingV4.encode (b : SaplingV4) : Bytes :=
  vectorBytes SaplingSpendV4.encode b.spends ++ (vectorBytes SaplingOutput.encodeV4 b.outputs ++
    (b.joinsplits.encode ++
      if b.spends = [] ∧ b.outputs = [] then [] else b.bindingSignature.val))

structure SaplingSpendV5 where
  valueCommitment : ByteVec 32
  nullifier : Digest
  randomizedKey : ByteVec 32
  proof : ByteVec 192
  signature : ByteVec 64

def SaplingSpendV5.encodePrefix (s : SaplingSpendV5) : Bytes :=
  s.valueCommitment.val ++ (s.nullifier.val ++ s.randomizedKey.val)

structure SaplingV5 where
  spends : List SaplingSpendV5
  outputs : List SaplingOutput
  valueBalance : ByteVec 8
  anchor : ByteVec 32
  bindingSignature : ByteVec 64

/-- The part after the outputs of a bundle that is not empty. -/
def SaplingV5.encodeTail (b : SaplingV5) : Bytes :=
  b.valueBalance.val ++ ((if b.spends = [] then [] else b.anchor.val) ++
    ((b.spends.flatMap (·.proof.val) ++ b.spends.flatMap (·.signature.val)) ++
      (b.outputs.flatMap (·.proof.val) ++ b.bindingSignature.val)))

def SaplingV5.encode (b : SaplingV5) : Bytes :=
  vectorBytes SaplingSpendV5.encodePrefix b.spends ++
    (vectorBytes SaplingOutput.encodePrefix b.outputs ++
      if b.spends = [] ∧ b.outputs = [] then [] else b.encodeTail)

structure ShieldedAction where
  valueCommitment : ByteVec 32
  nullifier : Digest
  randomizedKey : ByteVec 32
  commitment : Digest
  ephemeralKey : Digest
  ciphertext : Ciphertext
  ciphertextRest : ByteVec 608
  signature : ByteVec 64

namespace ShieldedAction

def encode (a : ShieldedAction) : Bytes :=
  a.valueCommitment.val ++ (a.nullifier.val ++ (a.randomizedKey.val ++ (a.commitment.val ++
    (a.ephemeralKey.val ++ (a.ciphertext.val ++ a.ciphertextRest.val)))))

def compact (a : ShieldedAction) : CompactShieldedAction :=
  ⟨a.nullifier, a.commitment, a.ephemeralKey, a.ciphertext⟩

end ShieldedAction

/-- An Orchard or Ironwood bundle. -/
structure ActionBundle where
  actions : List ShieldedAction
  flagsBalanceAndAnchor : ByteVec 41
  proof : Bytes
  bindingSignature : ByteVec 64

/-- The part after the actions of a bundle that is not empty. -/
def ActionBundle.encodeTail (b : ActionBundle) : Bytes :=
  b.flagsBalanceAndAnchor.val ++ (compactSizeBytes b.proof.length ++ (b.proof ++
    (b.actions.flatMap (·.signature.val) ++ b.bindingSignature.val)))

def ActionBundle.encode (b : ActionBundle) : Bytes :=
  vectorBytes ShieldedAction.encode b.actions ++ if b.actions = [] then [] else b.encodeTail

inductive WireTransaction where
  | v1 (transparent : TransparentBundle) (lockTime : ByteVec 4)
  | v2 (transparent : TransparentBundle) (lockTime : ByteVec 4)
      (joinsplits : JoinSplits bctv14JoinsplitBytes)
  | v3 (transparent : TransparentBundle) (lockTimeAndExpiry : ByteVec 8)
      (joinsplits : JoinSplits bctv14JoinsplitBytes)
  | v4 (transparent : TransparentBundle) (lockTimeExpiryAndBalance : ByteVec 16)
      (sapling : SaplingV4)
  | v5 (branchLockTimeAndExpiry : ByteVec 12) (transparent : TransparentBundle)
      (sapling : SaplingV5) (orchard : ActionBundle)
  | v6 (branchLockTimeAndExpiry : ByteVec 12) (transparent : TransparentBundle)
      (sapling : SaplingV5) (orchard ironwood : ActionBundle)

namespace WireTransaction

/-- The header of an overwintered version: the version with its high bit. -/
def overwinter (version : Nat) : Nat := 2 ^ 31 + version

def serialize : WireTransaction → Bytes
  | .v1 transparent lockTime => leBytes 4 1 ++ (transparent.encode ++ lockTime.val)
  | .v2 transparent lockTime joinsplits =>
    leBytes 4 2 ++ (transparent.encode ++ (lockTime.val ++ joinsplits.encode))
  | .v3 transparent fields joinsplits =>
    leBytes 4 (overwinter 3) ++ (leBytes 4 overwinterGroupId ++ (transparent.encode ++
      (fields.val ++ joinsplits.encode)))
  | .v4 transparent fields sapling =>
    leBytes 4 (overwinter 4) ++ (leBytes 4 saplingGroupId ++ (transparent.encode ++
      (fields.val ++ sapling.encode)))
  | .v5 fields transparent sapling orchard =>
    leBytes 4 (overwinter 5) ++ (leBytes 4 v5GroupId ++ (fields.val ++ (transparent.encode ++
      (sapling.encode ++ orchard.encode))))
  | .v6 fields transparent sapling orchard ironwood =>
    leBytes 4 (overwinter 6) ++ (leBytes 4 v6GroupId ++ (fields.val ++ (transparent.encode ++
      (sapling.encode ++ (orchard.encode ++ ironwood.encode)))))

def transparent : WireTransaction → TransparentBundle
  | .v1 transparent _ | .v2 transparent _ _ | .v3 transparent _ _ | .v4 transparent _ _
  | .v5 _ transparent _ _ | .v6 _ transparent _ _ _ => transparent

/-- The Sapling nullifiers of the transaction, in order. -/
def saplingSpends : WireTransaction → List Digest
  | .v1 .. | .v2 .. | .v3 .. => []
  | .v4 _ _ sapling => sapling.spends.map (·.nullifier)
  | .v5 _ _ sapling _ | .v6 _ _ sapling _ _ => sapling.spends.map (·.nullifier)

/-- The compact Sapling outputs of the transaction, in order. -/
def saplingOutputs : WireTransaction → List CompactSaplingOutput
  | .v1 .. | .v2 .. | .v3 .. => []
  | .v4 _ _ sapling => sapling.outputs.map (·.compact)
  | .v5 _ _ sapling _ | .v6 _ _ sapling _ _ => sapling.outputs.map (·.compact)

/-- The compact Orchard actions of the transaction, in order. -/
def orchardActions : WireTransaction → List CompactShieldedAction
  | .v5 _ _ _ orchard | .v6 _ _ _ orchard _ => orchard.actions.map (·.compact)
  | _ => []

/-- The compact Ironwood actions of the transaction, in order. -/
def ironwoodActions : WireTransaction → List CompactShieldedAction
  | .v6 _ _ _ _ ironwood => ironwood.actions.map (·.compact)
  | _ => []

/-- The shielded fields of the transaction. -/
def compact (tx : WireTransaction) (txid : Hash) (index : U64) : CompactTransaction where
  index := index
  txid := txid
  saplingSpends := tx.saplingSpends
  saplingOutputs := tx.saplingOutputs
  orchardActions := tx.orchardActions
  ironwoodActions := tx.ironwoodActions

end WireTransaction

/-! ## The reader on encoded parts -/

variable {enc : Bytes} {n : Nat} {β α : Type} {tx : WireTransaction}

theorem parses_take (h : enc.length = n) : Parses (take n) enc enc := by
  intro tail offset hlt
  subst h
  rw [List.length_append] at hlt
  simp only [take]
  rw [if_pos (by omega), if_pos (by simp), List.take_left, List.drop_left]

theorem parses_skip (h : enc.length = n) : Parses (skip n) enc () :=
  (parses_take h).bind_nil (.pure ())

theorem parses_array (a : ByteVec n) : Parses (array n) a.val a := by
  refine (parses_take a.val_length).bind_nil ?_
  rw [dif_pos a.val_length]
  exact .pure a

theorem parses_uint {w : Nat} (h : n < 256 ^ w) : Parses (uint w) (leBytes w n) n := by
  have := (parses_array ⟨leBytes w n, leBytes_length w n⟩).bind_nil
    (f := fun a => (pure (leNat a.val) : TxParser Nat)) (.pure _)
  rw [leNat_leBytes w n h] at this
  exact this

/-- A parser that first notes the offset. -/
theorem parses_offset {f : Nat → TxParser β} {b : β} (h : ∀ start, Parses (f start) enc b) :
    Parses (offset >>= f) enc b :=
  fun tail start hlt => h start tail start hlt

theorem refuses_offset {f : Nat → TxParser β} (h : ∀ start, Refuses (f start) enc) :
    Refuses (offset >>= f) enc :=
  fun tail start hlt => h start tail start hlt

theorem parses_canonical {start least value : Nat} (h : least ≤ value) :
    Parses (canonical start least value) [] value := by
  rw [canonical, if_neg (by omega)]
  exact .pure value

/-- A canonical CompactSize is its first byte and the value after it. -/
theorem parses_compactSizeValue {n start : Nat} (h : n < 2 ^ 64) :
    ∃ first enc, compactSizeBytes n = leBytes 1 first ++ enc ∧ first < 256 ∧
      Parses (compactSizeValue start first) enc n := by
  unfold compactSizeBytes
  split
  case isTrue hsmall =>
    refine ⟨n, [], by simp, by omega, ?_⟩
    unfold compactSizeValue
    split
    · omega
    · omega
    · omega
    · exact .pure n
  case isFalse hlarge =>
    split
    case isTrue h16 =>
      exact ⟨253, _, rfl, by omega,
        (parses_uint (by omega)).bind_nil (parses_canonical (by omega))⟩
    case isFalse h16 =>
      split
      case isTrue h32 =>
        exact ⟨254, _, rfl, by omega,
          (parses_uint (by omega)).bind_nil (parses_canonical (by omega))⟩
      case isFalse h32 =>
        exact ⟨255, _, rfl, by omega,
          (parses_uint (by omega)).bind_nil (parses_canonical (by omega))⟩

theorem parses_compactSize {max : Nat} (hmax : n ≤ max) (h : n < 2 ^ 64) :
    Parses (compactSize max) (compactSizeBytes n) n := by
  refine parses_offset fun start => ?_
  obtain ⟨first, enc, hbytes, hfirst, hvalue⟩ := @parses_compactSizeValue n start h
  rw [hbytes]
  refine (parses_uint (by omega)).bind (hvalue.bind_nil ?_)
  rw [if_pos hmax]
  exact .pure n

/-- A count above the limit is refused, even though it is canonical. -/
theorem refuses_compactSize {max : Nat} (hmax : max < n) (h : n < 2 ^ 64) :
    Refuses (compactSize max) (compactSizeBytes n) := by
  refine refuses_offset fun start => ?_
  obtain ⟨first, enc, hbytes, hfirst, hvalue⟩ := @parses_compactSizeValue n start h
  rw [hbytes, ← List.append_nil enc]
  refine (parses_uint (by omega)).bind_refuses (hvalue.bind_refuses ?_)
  rw [if_neg (by omega)]
  exact fun _ _ _ => ⟨_, rfl⟩

theorem parses_skipItems {count size : Nat} (h : enc.length = count * size) :
    Parses (skipItems count size) enc () := by
  refine parses_offset fun start => ?_
  intro tail offset hlt
  rw [List.length_append] at hlt
  rw [if_pos (by omega)]
  exact parses_skip h tail offset (by rw [List.length_append]; omega)

/-- Items that are there pass the check of their count. -/
theorem parses_ensureItems {count size : Nat} {f : Unit → TxParser β} {b : β}
    (hitems : count * size ≤ enc.length) (h : Parses (f ()) enc b) :
    Parses (ensureItems count size >>= f) enc b := by
  intro tail offset hlt
  have hensure : ensureItems count size ⟨enc ++ tail, offset⟩ =
    .ok ((), ⟨enc ++ tail, offset⟩) := by
    rw [List.length_append] at hlt
    simp only [ensureItems]
    rw [if_pos (by omega), if_neg (by rw [List.length_append]; omega)]
  show (ensureItems count size ⟨enc ++ tail, offset⟩ >>= fun out => f out.1 out.2) = _
  rw [hensure]
  exact h tail offset hlt

theorem parses_versionGroup {expected : Nat} (h : expected < 2 ^ 32) :
    Parses (versionGroup expected) (leBytes 4 expected) () := by
  refine (parses_uint (by omega)).bind_nil ?_
  rw [if_neg (by simp)]
  exact .pure ()

/-! ## The parts of a transaction -/

theorem compactSizeBytes_length_pos (n : Nat) : 0 < (compactSizeBytes n).length := by
  unfold compactSizeBytes
  split
  · simp
  · split
    · simp
    · split <;> simp

theorem compactSizeBytes_length_le (n : Nat) : (compactSizeBytes n).length ≤ 9 := by
  unfold compactSizeBytes
  split
  · simp
  · split
    · simp
    · split <;> simp

theorem length_flatMap_const {encode : α → Bytes} {size : Nat}
    (h : ∀ item, (encode item).length = size) (items : List α) :
    (items.flatMap encode).length = items.length * size := by
  rw [List.length_flatMap, List.map_congr_left fun item _ => h item]
  simp

theorem le_length_flatMap {α : Type} {encode : α → Bytes} {size : Nat} {items : List α}
    (h : ∀ item ∈ items, size ≤ (encode item).length) :
    items.length * size ≤ (items.flatMap encode).length := by
  induction items with
  | nil => simp
  | cons item items ih =>
    have hhead := h item List.mem_cons_self
    have htail := ih fun item hitem => h item (List.mem_cons_of_mem _ hitem)
    rw [List.flatMap_cons, List.length_append, List.length_cons, Nat.add_mul, Nat.one_mul]
    omega

theorem parses_vector (encode : α → Bytes) (val : α → β) {items : List α} {p : TxParser β}
    (hcount : items.length ≤ maxVectorItems)
    (hitems : ∀ item ∈ items, Parses p (encode item) (val item)) {γ : Type}
    {f : List β → TxParser γ} {c : γ} (h : Parses (f (items.map val)) enc c) :
    Parses (count >>= fun n => times n p >>= f) (vectorBytes encode items ++ enc) c := by
  rw [vectorBytes, List.append_assoc]
  refine (parses_compactSize hcount ?_).bind ((Parses.times hitems).bind h)
  simp only [maxVectorItems] at hcount
  omega

theorem parses_input {i : TxInput} (h : i.encode.length ≤ maxTransactionBytes) :
    Parses input i.encode () := by
  have hscript : i.script.length ≤ maxTransactionBytes := by
    simp only [TxInput.encode, List.length_append] at h
    omega
  refine (parses_skip i.prevout.val_length).bind ((parses_compactSize hscript ?_).bind
    ((parses_skip rfl).bind (parses_skip i.sequence.val_length)))
  simp only [maxTransactionBytes] at hscript
  omega

theorem parses_output {o : TxOutput} (h : o.encode.length ≤ maxTransactionBytes) :
    Parses output o.encode () := by
  have hscript : o.script.length ≤ maxTransactionBytes := by
    simp only [TxOutput.encode, List.length_append] at h
    omega
  refine (parses_skip o.value.val_length).bind ((parses_compactSize hscript ?_).bind
    (parses_skip rfl))
  simp only [maxTransactionBytes] at hscript
  omega

theorem length_le_flatMap (encode : α → Bytes) {items : List α} {item : α} (h : item ∈ items) :
    (encode item).length ≤ (items.flatMap encode).length := by
  obtain ⟨a, b, rfl⟩ := List.append_of_mem h
  simp only [List.flatMap_append, List.flatMap_cons, List.length_append]
  omega

/-- The inputs of a bundle: each has 36 bytes, a script length, and 4 bytes. -/
theorem inputs_length_le {b : TransparentBundle} (h : b.encode.length ≤ maxTransactionBytes) :
    b.inputs.length ≤ maxVectorItems := by
  have := @le_length_flatMap _ TxInput.encode 41 b.inputs fun i _ => by
    have := compactSizeBytes_length_pos i.script.length
    simp only [TxInput.encode, List.length_append, ByteVec.val_length]
    omega
  simp only [TransparentBundle.encode, vectorBytes, List.length_append, maxTransactionBytes] at h
  simp only [maxVectorItems]
  omega

theorem parses_transparentBundle {b : TransparentBundle}
    (h : b.encode.length ≤ maxTransactionBytes) (houtputs : b.outputs.length ≤ maxVectorItems) :
    Parses transparentBundle b.encode () := by
  have hinputs := inputs_length_le h
  simp only [TransparentBundle.encode, vectorBytes, List.length_append] at h
  refine parses_vector TxInput.encode (fun _ => ()) hinputs (fun i hi => parses_input ?_) ?_
  · have := length_le_flatMap TxInput.encode hi
    omega
  · have := parses_vector TxOutput.encode (fun _ => ())
      (f := fun _ => (pure () : TxParser Unit)) houtputs
      (fun o ho => parses_output ?_) (.pure ())
    · rwa [List.append_nil] at this
    · have := length_le_flatMap TxOutput.encode ho
      omega

theorem refuses_transparentBundle {b : TransparentBundle}
    (h : b.encode.length ≤ maxTransactionBytes) (houtputs : maxVectorItems < b.outputs.length) :
    Refuses transparentBundle b.encode := by
  have hinputs := inputs_length_le h
  -- an output has at least 8 bytes
  have hcount := @le_length_flatMap _ TxOutput.encode 8 b.outputs fun o _ => by
    simp only [TxOutput.encode, List.length_append, ByteVec.val_length]
    omega
  simp only [TransparentBundle.encode, vectorBytes, List.length_append, maxTransactionBytes] at h
  simp only [TransparentBundle.encode, vectorBytes, List.append_assoc]
  refine (parses_compactSize hinputs (by omega)).bind_refuses
    ((Parses.times fun i hi => parses_input ?_).bind_refuses
      ((refuses_compactSize houtputs (by omega)).bind.append _))
  have := length_le_flatMap TxInput.encode hi
  simp only [maxTransactionBytes]
  omega

/-- Items of `size` bytes that fit into a transaction can be counted. -/
theorem count_le {count : Nat} (size : Nat) (hsize : 31 ≤ size)
    (h : count * size ≤ maxTransactionBytes) : count ≤ maxVectorItems := by
  have := Nat.mul_le_mul_left count hsize
  simp only [maxTransactionBytes, maxVectorItems] at *
  omega

theorem parses_count {count : Nat} (h : count ≤ maxVectorItems) :
    Parses TxReader.count (compactSizeBytes count) count := by
  refine parses_compactSize h ?_
  simp only [maxVectorItems] at h
  omega

theorem parses_joinsplits (hn : 31 ≤ n) {j : JoinSplits n}
    (h : j.encode.length ≤ maxTransactionBytes) : Parses (joinsplits n) j.encode () := by
  have hitems : (j.items.flatMap ByteVec.val).length = j.items.length * n :=
    length_flatMap_const (fun item => item.val_length) j.items
  simp only [JoinSplits.encode, vectorBytes, List.length_append] at h
  rw [JoinSplits.encode, vectorBytes, List.append_assoc]
  refine (parses_count (count_le n hn (by omega))).bind ((parses_skipItems hitems).bind
    (.whenPos (fun hpos => ?_) fun hzero => ?_))
  · rw [if_neg (List.ne_nil_of_length_pos hpos)]
    exact parses_skip j.trailer.val_length
  · rw [if_pos (List.eq_nil_of_length_eq_zero hzero)]

theorem parses_saplingV4Spend (s : SaplingSpendV4) :
    Parses saplingV4Spend s.encode s.nullifier :=
  (parses_skip s.valueCommitmentAndAnchor.val_length).bind ((parses_array s.nullifier).bind
    ((parses_skip s.keyProofAndSignature.val_length).bind_nil (.pure _)))

theorem parses_saplingSpend (s : SaplingSpendV5) :
    Parses saplingSpend s.encodePrefix s.nullifier :=
  (parses_skip s.valueCommitment.val_length).bind ((parses_array s.nullifier).bind
    ((parses_skip s.randomizedKey.val_length).bind_nil (.pure _)))

theorem parses_saplingOutputV4 (o : SaplingOutput) :
    Parses (saplingOutput true) o.encodeV4 o.compact :=
  (parses_skip o.valueCommitment.val_length).bind ((parses_array o.cmu).bind
    ((parses_array o.ephemeralKey).bind ((parses_array o.ciphertext).bind
      ((parses_skip o.ciphertextRest.val_length).bind
        (Parses.bind_nil (.whenPos (fun _ => parses_skip o.proof.val_length) (by simp))
          (.pure _))))))

theorem parses_saplingOutputV5 (o : SaplingOutput) :
    Parses (saplingOutput false) o.encodePrefix o.compact :=
  (parses_skip o.valueCommitment.val_length).bind ((parses_array o.cmu).bind
    ((parses_array o.ephemeralKey).bind ((parses_array o.ciphertext).bind
      ((parses_skip o.ciphertextRest.val_length).bind_nil
        (Parses.bind_nil (.whenPos (by simp) (by simp)) (.pure _))))))

theorem SaplingSpendV4.encode_length (s : SaplingSpendV4) : s.encode.length = 384 := by
  simp [SaplingSpendV4.encode]

theorem SaplingSpendV5.encodePrefix_length (s : SaplingSpendV5) : s.encodePrefix.length = 96 := by
  simp [SaplingSpendV5.encodePrefix]

theorem SaplingOutput.encodePrefix_length (o : SaplingOutput) : o.encodePrefix.length = 756 := by
  simp [SaplingOutput.encodePrefix]

theorem SaplingOutput.encodeV4_length (o : SaplingOutput) : o.encodeV4.length = 948 := by
  simp [SaplingOutput.encodeV4]

theorem ShieldedAction.encode_length (a : ShieldedAction) : a.encode.length = 820 := by
  simp [ShieldedAction.encode]

theorem parses_saplingV4 {b : SaplingV4} (h : b.encode.length ≤ maxTransactionBytes) :
    Parses saplingV4 b.encode (b.spends.map (·.nullifier), b.outputs.map (·.compact)) := by
  have hspends := length_flatMap_const SaplingSpendV4.encode_length b.spends
  have houtputs := length_flatMap_const SaplingOutput.encodeV4_length b.outputs
  simp only [SaplingV4.encode, vectorBytes, List.length_append] at h
  simp only [SaplingV4.encode, vectorBytes, List.append_assoc]
  refine (parses_count (count_le 384 (by omega) (by omega))).bind
    (parses_ensureItems ?_ ((Parses.times fun s _ => parses_saplingV4Spend s).bind
      ((parses_count (count_le 948 (by omega) (by omega))).bind
        (parses_ensureItems ?_ ((Parses.times fun o _ => parses_saplingOutputV4 o).bind
          ((parses_joinsplits (by decide) (by omega)).bind
            (Parses.bind_nil (.whenPos ?_ ?_) (.pure _))))))))
  · simp only [saplingV4SpendBytes, List.length_append]
    omega
  · simp only [saplingV4OutputBytes, List.length_append]
    omega
  · intro hpos
    rw [if_neg (by rintro ⟨hs, ho⟩; simp [hs, ho] at hpos)]
    exact parses_skip b.bindingSignature.val_length
  · intro hzero
    rw [if_pos ⟨List.eq_nil_of_length_eq_zero (by omega), List.eq_nil_of_length_eq_zero (by omega)⟩]

theorem parses_saplingV5Tail (b : SaplingV5) :
    Parses (saplingV5Tail b.spends.length b.outputs.length) b.encodeTail () := by
  have hproofs := length_flatMap_const (fun s : SaplingSpendV5 => s.proof.val_length) b.spends
  have hsignatures :=
    length_flatMap_const (fun s : SaplingSpendV5 => s.signature.val_length) b.spends
  have houtputs := length_flatMap_const (fun o : SaplingOutput => o.proof.val_length) b.outputs
  refine (parses_skip b.valueBalance.val_length).bind ((Parses.whenPos ?_ ?_).bind
    ((parses_skipItems ?_).bind ((parses_skipItems houtputs).bind
      (parses_skip b.bindingSignature.val_length))))
  · intro hpos
    rw [if_neg (List.ne_nil_of_length_pos hpos)]
    exact parses_skip b.anchor.val_length
  · intro hzero
    rw [if_pos (List.eq_nil_of_length_eq_zero hzero)]
  · rw [List.length_append, hproofs, hsignatures]
    omega

theorem parses_saplingV5 {b : SaplingV5} (h : b.encode.length ≤ maxTransactionBytes) :
    Parses saplingV5 b.encode (b.spends.map (·.nullifier), b.outputs.map (·.compact)) := by
  have hspends := length_flatMap_const SaplingSpendV5.encodePrefix_length b.spends
  have houtputs := length_flatMap_const SaplingOutput.encodePrefix_length b.outputs
  simp only [SaplingV5.encode, vectorBytes, List.length_append] at h
  simp only [SaplingV5.encode, vectorBytes, List.append_assoc]
  refine (parses_count (count_le 96 (by omega) (by omega))).bind
    (parses_ensureItems ?_ ((Parses.times fun s _ => parses_saplingSpend s).bind
      ((parses_count (count_le 756 (by omega) (by omega))).bind
        (parses_ensureItems ?_ ((Parses.times fun o _ => parses_saplingOutputV5 o).bind
          (Parses.bind_nil (.whenPos ?_ ?_) (.pure _)))))))
  · simp only [saplingSpendPrefixBytes, List.length_append]
    omega
  · simp only [saplingOutputPrefixBytes, List.length_append]
    omega
  · intro hpos
    rw [if_neg (by rintro ⟨hs, ho⟩; simp [hs, ho] at hpos)]
    exact parses_saplingV5Tail b
  · intro hzero
    rw [if_pos ⟨List.eq_nil_of_length_eq_zero (by omega), List.eq_nil_of_length_eq_zero (by omega)⟩]

theorem parses_action (a : ShieldedAction) : Parses action a.encode a.compact :=
  (parses_skip a.valueCommitment.val_length).bind ((parses_array a.nullifier).bind
    ((parses_skip a.randomizedKey.val_length).bind ((parses_array a.commitment).bind
      ((parses_array a.ephemeralKey).bind ((parses_array a.ciphertext).bind
        ((parses_skip a.ciphertextRest.val_length).bind_nil (.pure _)))))))

theorem parses_actionsTail {b : ActionBundle} (h : b.encodeTail.length ≤ maxTransactionBytes) :
    Parses (actionsTail b.actions.length) b.encodeTail () := by
  have hsignatures :=
    length_flatMap_const (fun a : ShieldedAction => a.signature.val_length) b.actions
  have hproof : b.proof.length ≤ maxTransactionBytes := by
    simp only [ActionBundle.encodeTail, List.length_append] at h
    omega
  refine (parses_skip b.flagsBalanceAndAnchor.val_length).bind
    ((parses_compactSize hproof ?_).bind ((parses_skip rfl).bind
      ((parses_skipItems hsignatures).bind (parses_skip b.bindingSignature.val_length))))
  simp only [maxTransactionBytes] at hproof
  omega

theorem parses_actions {b : ActionBundle} (h : b.encode.length ≤ maxTransactionBytes) :
    Parses actions b.encode (b.actions.map (·.compact)) := by
  have hactions := length_flatMap_const ShieldedAction.encode_length b.actions
  simp only [ActionBundle.encode, vectorBytes, List.length_append] at h
  simp only [ActionBundle.encode, vectorBytes, List.append_assoc]
  refine (parses_count (count_le 820 (by omega) (by omega))).bind
    (parses_ensureItems ?_ ((Parses.times fun a _ => parses_action a).bind
      (Parses.bind_nil (.whenPos ?_ ?_) (.pure _))))
  · simp only [orchardActionBytes, List.length_append]
    omega
  · intro hpos
    have hne := List.ne_nil_of_length_pos hpos
    rw [if_neg hne] at h ⊢
    exact parses_actionsTail (by omega)
  · intro hzero
    rw [if_pos (List.eq_nil_of_length_eq_zero hzero)]

/-! ## Whole transactions -/

section

variable (h : tx.serialize.length ≤ maxTransactionBytes)

include h

/-- The parser reads every transaction whose outputs it can count. -/
theorem parses_transaction (houtputs : tx.transparent.outputs.length ≤ maxVectorItems) (txid : Hash)
    (index : U64) :
    Parses (parseTransactionFrom txid index) tx.serialize (tx.compact txid index) := by
  cases tx <;>
    simp only [WireTransaction.serialize, WireTransaction.transparent, List.length_append]
      at h houtputs
  case v1 transparent lockTime =>
    exact (parses_uint (by decide)).bind ((parses_transparentBundle (by omega) houtputs).bind
      ((parses_skip lockTime.val_length).bind_nil (.pure _)))
  case v2 transparent lockTime joinsplits =>
    exact (parses_uint (by decide)).bind ((parses_transparentBundle (by omega) houtputs).bind
      ((parses_skip lockTime.val_length).bind
        ((parses_joinsplits (by decide) (by omega)).bind_nil (.pure _))))
  case v3 transparent fields joinsplits =>
    exact (parses_uint (by decide)).bind ((parses_versionGroup (by decide)).bind
      ((parses_transparentBundle (by omega) houtputs).bind ((parses_skip fields.val_length).bind
        ((parses_joinsplits (by decide) (by omega)).bind_nil (.pure _)))))
  case v4 transparent fields sapling =>
    exact (parses_uint (by decide)).bind ((parses_versionGroup (by decide)).bind
      ((parses_transparentBundle (by omega) houtputs).bind ((parses_skip fields.val_length).bind
        ((parses_saplingV4 (by omega)).bind_nil (.pure _)))))
  case v5 fields transparent sapling orchard =>
    exact (parses_uint (by decide)).bind ((parses_versionGroup (by decide)).bind
      ((parses_skip fields.val_length).bind ((parses_transparentBundle (by omega) houtputs).bind
        ((parses_saplingV5 (by omega)).bind ((parses_actions (by omega)).bind_nil (.pure _))))))
  case v6 fields transparent sapling orchard ironwood =>
    exact (parses_uint (by decide)).bind ((parses_versionGroup (by decide)).bind
      ((parses_skip fields.val_length).bind ((parses_transparentBundle (by omega) houtputs).bind
        ((parses_saplingV5 (by omega)).bind ((parses_actions (by omega)).bind
          ((parses_actions (by omega)).bind_nil (.pure _)))))))

/-- The parser refuses every transaction whose outputs it cannot count. -/
theorem refuses_transaction (houtputs : maxVectorItems < tx.transparent.outputs.length)
    (txid : Hash) (index : U64) :
    Refuses (parseTransactionFrom txid index) tx.serialize := by
  cases tx <;>
    simp only [WireTransaction.serialize, WireTransaction.transparent, List.length_append]
      at h houtputs
  case v1 | v2 =>
    exact (parses_uint (by decide)).bind_refuses
      ((refuses_transparentBundle (by omega) houtputs).bind.append _)
  case v3 | v4 =>
    exact (parses_uint (by decide)).bind_refuses ((parses_versionGroup (by decide)).bind_refuses
      ((refuses_transparentBundle (by omega) houtputs).bind.append _))
  case v5 fields _ _ _ | v6 fields _ _ _ _ =>
    exact (parses_uint (by decide)).bind_refuses ((parses_versionGroup (by decide)).bind_refuses
      ((parses_skip fields.val_length).bind_refuses
        ((refuses_transparentBundle (by omega) houtputs).bind.append _)))

theorem parseTransaction_refuses (houtputs : maxVectorItems < tx.transparent.outputs.length)
    (txid : Hash) (index : U64) :
    ∃ e, parseTransaction tx.serialize txid index = .error e := by
  have hlt : tx.serialize.length < 2 ^ 64 := by
    simp only [maxTransactionBytes] at h
    omega
  obtain ⟨e, he⟩ := refuses_transaction h houtputs txid index [] 0 (by simpa using hlt)
  rw [List.append_nil] at he
  exact ⟨e, by rw [parseTransaction, ensure_of _ h, ok_bind, he, error_bind]⟩

end

/-- A transaction of `n` outputs without scripts, each of 9 bytes. -/
def emptyOutputs (n : Nat) : WireTransaction :=
  .v1 ⟨[], List.replicate n ⟨.ofNat 8 0, []⟩⟩ (.ofNat 4 0)

theorem emptyOutputs_serialize_length (n : Nat) :
    (emptyOutputs n).serialize.length = 9 + (compactSizeBytes n).length + n * 9 := by
  have houtputs : ((List.replicate n (⟨.ofNat 8 0, []⟩ : TxOutput)).flatMap
      TxOutput.encode).length = n * 9 := by
    rw [List.length_flatMap, List.map_replicate, List.sum_replicate_nat]
    rfl
  simp only [emptyOutputs, WireTransaction.serialize, TransparentBundle.encode, vectorBytes,
    List.length_append, houtputs, List.length_replicate, ByteVec.val_length, leBytes_length]
  simp [compactSizeBytes]
  omega

/-- The limit on counts refuses a transaction that is far below the size limit. -/
theorem parseTransaction_emptyOutputs :
    (emptyOutputs 65536).serialize.length ≤ maxTransactionBytes ∧
      ∃ e, parseTransaction (emptyOutputs 65536).serialize (.ofNat 32 0) 0 = .error e := by
  have h : (emptyOutputs 65536).serialize.length ≤ maxTransactionBytes := by
    rw [emptyOutputs_serialize_length]
    decide
  refine ⟨h, parseTransaction_refuses h ?_ _ _⟩
  simp only [emptyOutputs, WireTransaction.transparent, List.length_replicate, maxVectorItems]
  omega

/-- The parser is complete: it reads every transaction of versions 1 to 6 that
    is not too large and whose outputs it can count, and gives its shielded
    fields in order. -/
theorem parseTransaction_serialize {tx : WireTransaction}
    (h : tx.serialize.length ≤ maxTransactionBytes)
    (houtputs : tx.transparent.outputs.length ≤ maxVectorItems) (txid : Hash) (index : U64) :
    parseTransaction tx.serialize txid index = .ok (tx.compact txid index) := by
  have hlt : tx.serialize.length < 2 ^ 64 := by
    simp only [maxTransactionBytes] at h
    omega
  have hparse := parses_transaction h houtputs txid index [] 0 (by simpa using hlt)
  rw [List.append_nil] at hparse
  rw [parseTransaction, ensure_of _ h, ok_bind, hparse, ok_bind]
  rfl

/-- A transaction with one item in every vector. -/
def oneOfEach : WireTransaction :=
  let sapling : SaplingV5 :=
    { spends := [⟨.ofNat 32 1, .ofNat 32 2, .ofNat 32 3, .ofNat 192 4, .ofNat 64 5⟩]
      outputs := [⟨.ofNat 32 6, .ofNat 32 7, .ofNat 32 8, .ofNat 52 9, .ofNat 608 10,
      .ofNat 192 11⟩]
      valueBalance := .ofNat 8 12
      anchor := .ofNat 32 13
      bindingSignature := .ofNat 64 14 }
  let bundle (n : Nat) : ActionBundle :=
    { actions := [⟨.ofNat 32 n, .ofNat 32 (n + 1), .ofNat 32 (n + 2), .ofNat 32 (n + 3),
        .ofNat 32 (n + 4), .ofNat 52 (n + 5), .ofNat 608 (n + 6), .ofNat 64 (n + 7)⟩]
      flagsBalanceAndAnchor := .ofNat 41 (n + 8)
      proof := [1, 2, 3]
      bindingSignature := .ofNat 64 (n + 9) }
  .v6 (.ofNat 12 15) ⟨[⟨.ofNat 36 16, [17], .ofNat 4 18⟩], [⟨.ofNat 8 19, [20]⟩]⟩ sapling
    (bundle 21) (bundle 31)

theorem oneOfEach_serialize_length_le : oneOfEach.serialize.length ≤ maxTransactionBytes := by
  simp [oneOfEach, WireTransaction.serialize, TransparentBundle.encode, vectorBytes,
    TxInput.encode, TxOutput.encode, SaplingV5.encode, SaplingV5.encodeTail,
    SaplingSpendV5.encodePrefix, SaplingOutput.encodePrefix, ActionBundle.encode,
    ActionBundle.encodeTail, ShieldedAction.encode, compactSizeBytes, maxTransactionBytes]

theorem parseTransaction_oneOfEach :
    parseTransaction oneOfEach.serialize (.ofNat 32 40) 3 =
        .ok { index := 3
              txid := .ofNat 32 40
              saplingSpends := [.ofNat 32 2]
              saplingOutputs := [⟨.ofNat 32 7, .ofNat 32 8, .ofNat 52 9⟩]
              orchardActions := [⟨.ofNat 32 22, .ofNat 32 24, .ofNat 32 25, .ofNat 52 26⟩]
              ironwoodActions := [⟨.ofNat 32 32, .ofNat 32 34, .ofNat 32 35, .ofNat 52 36⟩] } := by
  exact parseTransaction_serialize oneOfEach_serialize_length_le (by decide) _ _

end Ztreamer
