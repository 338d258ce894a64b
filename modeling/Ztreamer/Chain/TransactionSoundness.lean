import Ztreamer.Chain.TransactionLayout

/-! # Soundness of the selective parser

    What the parser accepts is the serialization of a transaction, and of only
    one. A part that is not on the wire, such as the trailer of no JoinSplits, is
    zero in a normal transaction.

    * `reads_transaction`: the parser has read the serialization of a normal
      transaction,
    * `WireTransaction.serialize_inj`: no serialization is the beginning of another,
    * `parseTransaction_sound`: both, for a whole byte string.
-/

namespace Ztreamer

open Octets Octets.Parser Result TxReader

/-! ## Normal transactions -/

/-- No trailer without items. -/
def JoinSplits.Normal {n : Nat} (j : JoinSplits n) : Prop := j.items = [] → j.trailer = default

/-- No binding signature without spends and outputs. -/
structure SaplingV4.Normal (b : SaplingV4) : Prop where
  joinsplits : b.joinsplits.Normal
  bindingSignature : b.spends = [] ∧ b.outputs = [] → b.bindingSignature = default

/-- No anchor without spends, and no balance and signature without spends and outputs. -/
structure SaplingV5.Normal (b : SaplingV5) : Prop where
  anchor : b.spends = [] → b.anchor = default
  tail : b.spends = [] ∧ b.outputs = [] → b.valueBalance = default ∧ b.bindingSignature = default

/-- Nothing after no actions. -/
def ActionBundle.Normal (b : ActionBundle) : Prop :=
  b.actions = [] →
    b.flagsBalanceAndAnchor = default ∧ b.proof = [] ∧ b.bindingSignature = default

/-- Each part that is not on the wire is zero. -/
def WireTransaction.Normal : WireTransaction → Prop
  | .v1 .. => True
  | .v2 _ _ joinsplits => joinsplits.Normal
  | .v3 _ _ joinsplits => joinsplits.Normal
  | .v4 _ _ sapling => sapling.Normal
  | .v5 _ _ sapling orchard => sapling.Normal ∧ orchard.Normal
  | .v6 _ _ sapling orchard ironwood => sapling.Normal ∧ orchard.Normal ∧ ironwood.Normal

/-! ## What the reader has read -/

theorem reads_take (n : Nat) : Reads (take n) fun bytes enc => bytes = enc ∧ enc.length = n := by
  intro c bytes c' h
  simp only [take] at h
  split at h
  · split at h
    next hle =>
      cases h
      refine ⟨c.rest.take n, (List.take_append_drop n c.rest).symm, ?_, rfl, ?_⟩
      · rw [List.length_take_of_le hle]
      · rw [List.length_take_of_le hle]
    next => cases h
  · cases h

theorem reads_skip (n : Nat) : Reads (skip n) fun _ enc => enc.length = n := by
  refine ((reads_take n).bind fun _ => Reads.pure ()).mono ?_
  rintro _ _ ⟨_, enc, _, rfl, ⟨-, hlen⟩, -, rfl⟩
  rw [List.append_nil, hlen]

theorem reads_array (n : Nat) : Reads (array n) fun a enc => enc = a.val := by
  have hbody : ∀ bytes : Bytes, Reads (if h : bytes.length = n then
      (pure ⟨bytes, h⟩ : TxParser (ByteVec n)) else throw (.truncated 0))
      fun a enc => a.val = bytes ∧ enc = [] := by
    intro bytes
    split
    · refine (Reads.pure _).mono ?_
      rintro _ _ ⟨rfl, rfl⟩
      exact ⟨rfl, rfl⟩
    · exact Reads.throw _ _
  refine ((reads_take n).bind hbody).mono ?_
  rintro a _ ⟨_, enc, _, rfl, ⟨rfl, -⟩, hval, rfl⟩
  rw [List.append_nil, hval]

theorem reads_uint (w : Nat) : Reads (uint w) fun n enc => enc = leBytes w n ∧ n < 256 ^ w := by
  refine ((reads_array w).bind fun _ => Reads.pure _).mono ?_
  rintro _ _ ⟨a, _, _, rfl, rfl, rfl, rfl⟩
  have hbytes := leBytes_leNat a.val
  have hlt := leNat_lt a.val
  rw [a.val_length] at hbytes hlt
  exact ⟨by rw [List.append_nil, hbytes], hlt⟩

variable {α β : Type} {n : Nat} {s t : Bytes}

/-- A parser that first notes the offset. -/
theorem reads_offset {f : Nat → TxParser α} {P : α → Bytes → Prop} (h : ∀ start, Reads (f start) P)
    : Reads (offset >>= f) P :=
  fun c a c' hf => h c.offset c a c' hf

theorem reads_canonical (start least value : Nat) :
    Reads (canonical start least value) fun n enc => n = value ∧ least ≤ value ∧ enc = [] := by
  unfold canonical
  split
  · exact Reads.throw _ _
  next hle =>
    refine (Reads.pure value).mono ?_
    rintro _ _ ⟨rfl, rfl⟩
    exact ⟨rfl, Nat.not_lt.mp hle, rfl⟩

/-- A number of `w` bytes that is not less than `least`. -/
theorem reads_canonical_uint (start least w : Nat) :
    Reads (uint w >>= canonical start least) fun n enc =>
      enc = leBytes w n ∧ least ≤ n ∧ n < 256 ^ w := by
  refine ((reads_uint w).bind fun value => reads_canonical start least value).mono ?_
  rintro _ _ ⟨n, _, _, rfl, ⟨rfl, hlt⟩, rfl, hle, rfl⟩
  exact ⟨List.append_nil _, hle, hlt⟩

/-- The first byte and the bytes of the value are a canonical CompactSize. -/
theorem reads_compactSizeValue (start : Nat) {first : Nat} (hfirst : first < 256) :
    Reads (compactSizeValue start first) fun n enc =>
      leBytes 1 first ++ enc = compactSizeBytes n ∧ n < 2 ^ 64 := by
  unfold compactSizeValue
  split
  · refine (reads_canonical_uint start 253 2).mono ?_
    rintro n _ ⟨rfl, hle, hlt⟩
    refine ⟨?_, by omega⟩
    rw [compactSizeBytes, if_neg (by omega), if_pos (by omega)]
  · refine (reads_canonical_uint start (2 ^ 16) 4).mono ?_
    rintro n _ ⟨rfl, hle, hlt⟩
    refine ⟨?_, by omega⟩
    rw [compactSizeBytes, if_neg (by omega), if_neg (by omega), if_pos (by omega)]
  · refine (reads_canonical_uint start (2 ^ 32) 8).mono ?_
    rintro n _ ⟨rfl, hle, hlt⟩
    refine ⟨?_, by omega⟩
    rw [compactSizeBytes, if_neg (by omega), if_neg (by omega), if_neg (by omega)]
  next h₁ h₂ h₃ =>
    refine (Reads.pure first).mono ?_
    rintro n _ ⟨rfl, rfl⟩
    have hsmall : n < 253 := by
      have : n ≠ 253 := fun h => h₁ h
      have : n ≠ 254 := fun h => h₂ h
      have : n ≠ 255 := fun h => h₃ h
      omega
    refine ⟨?_, by omega⟩
    rw [compactSizeBytes, if_pos hsmall, List.append_nil]

theorem reads_compactSize (max : Nat) :
    Reads (compactSize max) fun n enc => enc = compactSizeBytes n ∧ n ≤ max := by
  refine reads_offset fun start => ?_
  have hlimit : ∀ value, Reads (if value ≤ max then (pure value : TxParser Nat)
      else throw (.lengthLimit start)) fun n enc => n = value ∧ value ≤ max ∧ enc = [] := by
    intro value
    split
    next hle =>
      refine (Reads.pure value).mono ?_
      rintro _ _ ⟨rfl, rfl⟩
      exact ⟨rfl, hle, rfl⟩
    next => exact Reads.throw _ _
  refine ((reads_uint 1).bind_of fun first _ h =>
    (reads_compactSizeValue start (by simpa using h.2)).bind hlimit).mono ?_
  rintro n _ ⟨first, _, _, rfl, ⟨rfl, -⟩, value, enc, _, rfl, ⟨hbytes, -⟩, rfl, hle, rfl⟩
  rw [List.append_nil, hbytes]
  exact ⟨rfl, hle⟩

theorem reads_count : Reads count fun n enc => enc = compactSizeBytes n ∧ n ≤ maxVectorItems :=
  reads_compactSize maxVectorItems

theorem reads_skipItems (count size : Nat) :
    Reads (skipItems count size) fun _ enc => enc.length = count * size := by
  refine reads_offset fun start => ?_
  split
  · exact reads_skip _
  · exact Reads.throw _ _

theorem reads_ensureItems (count size : Nat) :
    Reads (ensureItems count size) fun _ enc => enc = [] := by
  intro c a c' h
  simp only [ensureItems] at h
  split at h
  · split at h
    · cases h
    · cases h
      exact ⟨[], rfl, rfl, rfl⟩
  · cases h

theorem reads_versionGroup (expected : Nat) :
    Reads (versionGroup expected) fun _ enc => enc = leBytes 4 expected := by
  have hcheck : ∀ actual, Reads (if actual ≠ expected then
      (throw (.versionGroup actual expected) : TxParser Unit) else pure ())
      fun _ enc => actual = expected ∧ enc = [] := by
    intro actual
    split
    · exact Reads.throw _ _
    next heq => exact (Reads.pure ()).mono fun _ _ h => ⟨not_not.mp heq, h.2⟩
  refine ((reads_uint 4).bind hcheck).mono ?_
  rintro _ _ ⟨_, _, _, rfl, ⟨rfl, -⟩, rfl, rfl⟩
  exact List.append_nil _

/-! ## The parts of a transaction -/

/-- A byte string of `n` items of one size. -/
theorem exists_items {size : Nat} {enc : Bytes} {n : Nat} (h : enc.length = n * size) :
    ∃ items : List (ByteVec size), items.length = n ∧ enc = items.flatMap ByteVec.val := by
  induction n generalizing enc with
  | zero =>
    rw [Nat.zero_mul] at h
    exact ⟨[], rfl, List.eq_nil_of_length_eq_zero h⟩
  | succ n ih =>
    rw [Nat.succ_mul] at h
    obtain ⟨items, hlen, hitems⟩ := @ih (enc.drop size) (by rw [List.length_drop]; omega)
    refine ⟨⟨enc.take size, by rw [List.length_take]; omega⟩ :: items, by simp [hlen], ?_⟩
    rw [List.flatMap_cons, ← hitems, List.take_append_drop]

theorem reads_input : Reads input fun u enc => ∃ i : TxInput, enc = i.encode ∧ () = u := by
  refine ((reads_skip 36).bind fun _ => (reads_compactSize _).bind fun script =>
    (reads_skip script).bind fun _ => reads_skip 4).mono ?_
  rintro _ _ ⟨_, prevout, _, rfl, hprevout, _, _, _, rfl, ⟨rfl, -⟩, _, script, sequence, rfl,
    rfl, hsequence⟩
  exact ⟨⟨⟨prevout, hprevout⟩, script, ⟨sequence, hsequence⟩⟩, rfl, rfl⟩

theorem reads_output : Reads output fun u enc => ∃ o : TxOutput, enc = o.encode ∧ () = u := by
  refine ((reads_skip 8).bind fun _ => (reads_compactSize _).bind fun script =>
    reads_skip script).mono ?_
  rintro _ _ ⟨_, value, _, rfl, hvalue, _, _, script, rfl, ⟨rfl, -⟩, rfl⟩
  exact ⟨⟨⟨value, hvalue⟩, script⟩, rfl, rfl⟩

theorem reads_transparentBundle : Reads transparentBundle fun _ enc =>
    ∃ b : TransparentBundle, enc = b.encode ∧ b.outputs.length ≤ maxVectorItems := by
  refine (reads_count.bind fun inputs => (reads_input.times inputs).bind fun _ =>
    reads_count.bind fun outputs => (reads_output.times outputs).bind fun _ =>
      Reads.pure ()).mono ?_
  rintro _ _ ⟨_, _, _, rfl, ⟨rfl, -⟩, _, _, _, rfl, ⟨inputs, rfl, rfl, -⟩, _, _, _, rfl, ⟨rfl, hle⟩,
    _, _, _, rfl, ⟨outputs, rfl, rfl, -⟩, -, rfl⟩
  refine ⟨⟨inputs, outputs⟩, ?_, hle⟩
  simp only [TransparentBundle.encode, vectorBytes, List.append_assoc, List.append_nil]

theorem reads_joinsplits (n : Nat) : Reads (joinsplits n) fun _ enc =>
    ∃ j : JoinSplits n, j.Normal ∧ enc = j.encode := by
  refine (reads_count.bind fun count => (reads_skipItems count n).bind fun _ =>
    (reads_skip 96).whenPos count).mono ?_
  rintro _ _ ⟨_, _, _, rfl, ⟨rfl, -⟩, _, _, trailer, rfl, hitems, hpos, hzero⟩
  obtain ⟨items, rfl, rfl⟩ := exists_items hitems
  by_cases hnil : items = []
  · subst hnil
    obtain rfl := hzero rfl
    exact ⟨⟨[], default⟩, fun _ => rfl, rfl⟩
  · refine ⟨⟨items, ⟨trailer, hpos (List.length_pos_of_ne_nil hnil)⟩⟩, fun h => absurd h hnil, ?_⟩
    rw [JoinSplits.encode, if_neg hnil, vectorBytes, List.append_assoc]

theorem reads_saplingV4Spend : Reads saplingV4Spend fun nullifier enc =>
    ∃ s : SaplingSpendV4, enc = s.encode ∧ s.nullifier = nullifier := by
  refine ((reads_skip 64).bind fun _ => (reads_array 32).bind fun nullifier =>
    (reads_skip _).bind fun _ => Reads.pure nullifier).mono ?_
  rintro nullifier _ ⟨_, fst, _, rfl, hfst, _, _, _, rfl, rfl, _, snd, _, rfl, hsnd, rfl, rfl⟩
  refine ⟨⟨⟨fst, hfst⟩, nullifier, ⟨snd, hsnd⟩⟩, ?_, rfl⟩
  rw [SaplingSpendV4.encode, List.append_nil]

theorem reads_saplingSpend : Reads saplingSpend fun nullifier enc =>
    ∃ s : SaplingSpendV5, enc = s.encodePrefix ∧ s.nullifier = nullifier := by
  refine ((reads_skip 32).bind fun _ => (reads_array 32).bind fun nullifier =>
    (reads_skip _).bind fun _ => Reads.pure nullifier).mono ?_
  rintro nullifier _ ⟨_, fst, _, rfl, hfst, _, _, _, rfl, rfl, _, snd, _, rfl, hsnd, rfl, rfl⟩
  refine ⟨⟨⟨fst, hfst⟩, nullifier, ⟨snd, hsnd⟩, default, default⟩, ?_, rfl⟩
  rw [SaplingSpendV5.encodePrefix, List.append_nil]

/-- An output with its proof in place, or one that leaves its proof for later. -/
theorem reads_saplingOutput (includesProof : Bool) :
    Reads (saplingOutput includesProof) fun compact enc => ∃ o : SaplingOutput,
      enc = (if includesProof then o.encodeV4 else o.encodePrefix) ∧ o.compact = compact := by
  have hreads := (reads_skip 32).bind fun _ => (reads_array 32).bind fun cmu =>
    (reads_array 32).bind fun ephemeralKey =>
      (reads_array compactCiphertextBytes).bind fun ciphertext =>
        (reads_skip (580 - compactCiphertextBytes + 80)).bind fun _ =>
          ((reads_skip (saplingV4OutputBytes - saplingOutputPrefixBytes)).whenPos
            includesProof.toNat).bind fun _ =>
              Reads.pure (CompactSaplingOutput.mk cmu ephemeralKey ciphertext)
  refine hreads.mono ?_
  rintro _ _ ⟨_, commitment, _, rfl, hcommitment, cmu, _, _, rfl, rfl, key, _, _, rfl, rfl,
    ciphertext, _, _, rfl, rfl, _, rest, _, rfl, hrest, _, proof, _, rfl, ⟨hpos, hzero⟩, rfl, rfl⟩
  cases includesProof with
  | true =>
    refine ⟨⟨⟨commitment, hcommitment⟩, cmu, key, ciphertext, ⟨rest, hrest⟩,
      ⟨proof, hpos Nat.one_pos⟩⟩, ?_, rfl⟩
    rw [List.append_nil, if_pos rfl, SaplingOutput.encodeV4]
  | false =>
    obtain rfl := hzero rfl
    refine ⟨⟨⟨commitment, hcommitment⟩, cmu, key, ciphertext, ⟨rest, hrest⟩, default⟩, ?_, rfl⟩
    rw [List.append_nil, List.append_nil, if_neg Bool.false_ne_true, SaplingOutput.encodePrefix]

theorem length_add_length_pos {as : List α} {bs : List β} (h : ¬(as = [] ∧ bs = [])) :
    0 < as.length + bs.length := by
  by_contra hzero
  exact h ⟨List.eq_nil_of_length_eq_zero (by omega), List.eq_nil_of_length_eq_zero (by omega)⟩

theorem reads_saplingV4 : Reads saplingV4 fun fields enc => ∃ b : SaplingV4, b.Normal ∧
    enc = b.encode ∧ fields = (b.spends.map (·.nullifier), b.outputs.map (·.compact)) := by
  refine (reads_count.bind fun spendCount => (reads_ensureItems spendCount _).bind fun _ =>
    (reads_saplingV4Spend.times spendCount).bind fun spends =>
      reads_count.bind fun outputCount => (reads_ensureItems outputCount _).bind fun _ =>
        ((reads_saplingOutput true).times outputCount).bind fun outputs =>
          (reads_joinsplits _).bind fun _ =>
            ((reads_skip 64).whenPos (spendCount + outputCount)).bind fun _ =>
              Reads.pure (spends, outputs)).mono ?_
  rintro _ _ ⟨_, _, _, rfl, ⟨rfl, -⟩, _, _, _, rfl, rfl, _, _, _, rfl, ⟨spends, rfl, rfl, rfl⟩,
    _, _, _, rfl, ⟨rfl, -⟩, _, _, _, rfl, rfl, _, _, _, rfl, ⟨outputs, rfl, rfl, rfl⟩,
    _, _, _, rfl, ⟨joinsplits, hjoinsplits, rfl⟩, _, signature, _, rfl, ⟨hpos, hzero⟩, rfl, rfl⟩
  by_cases hnil : spends = [] ∧ outputs = []
  · obtain rfl := hzero (by simp [hnil])
    refine ⟨⟨spends, outputs, joinsplits, default⟩, ⟨hjoinsplits, fun _ => rfl⟩, ?_, rfl⟩
    simp [SaplingV4.encode, vectorBytes, hnil]
  · have hcount := length_add_length_pos hnil
    refine ⟨⟨spends, outputs, joinsplits, ⟨signature, hpos hcount⟩⟩,
      ⟨hjoinsplits, fun h => absurd h hnil⟩, ?_, rfl⟩
    simp only [SaplingV4.encode, vectorBytes, if_neg hnil, if_true, List.append_assoc,
      List.append_nil, List.nil_append]

variable {items xs ys : List α} {parts : List β} {f part : α → β} {a b : ByteVec n}
  {encode : α → Bytes}

/-- Gives each item the part of it that stands elsewhere. The rest of each item is kept. -/
theorem exists_attached (attach : α → β → α) (part : α → β) (hpart : ∀ a b, part (attach a b) = b)
    (hlen : parts.length = items.length) :
    ∃ items' : List α, items'.map part = parts ∧ ∀ (γ : Type) (f : α → γ),
      (∀ a b, f (attach a b) = f a) → items'.map f = items.map f := by
  induction items generalizing parts with
  | nil => exact ⟨[], (List.eq_nil_of_length_eq_zero hlen).symm, fun _ _ _ => rfl⟩
  | cons a items ih =>
    cases parts with
    | nil => cases hlen
    | cons b parts =>
      obtain ⟨items', hparts, hkeep⟩ := ih (Nat.succ.inj hlen)
      refine ⟨attach a b :: items', ?_, fun γ f hf => ?_⟩
      · rw [List.map_cons, hpart, hparts]
      · rw [List.map_cons, hf, hkeep γ f hf, List.map_cons]

theorem flatMap_congr_map {g : β → Bytes} (h : items.map f = parts) :
    items.flatMap (fun a => g (f a)) = parts.flatMap g := by
  rw [← h, List.flatMap_map]

/-- The part of a bundle after its outputs: the signatures and proofs of its items. -/
theorem reads_saplingV5Tail (spendCount outputCount : Nat) :
    Reads (saplingV5Tail spendCount outputCount) fun _ enc =>
      ∃ (balance : ByteVec 8) (anchor : ByteVec 32) (proofs : List (ByteVec 192))
        (signatures : List (ByteVec 64)) (outputProofs : List (ByteVec 192))
        (signature : ByteVec 64),
        (spendCount = 0 → anchor = default) ∧ proofs.length = spendCount ∧
        signatures.length = spendCount ∧ outputProofs.length = outputCount ∧
        enc = balance.val ++ ((if spendCount = 0 then [] else anchor.val) ++
          ((proofs.flatMap ByteVec.val ++ signatures.flatMap ByteVec.val) ++
            (outputProofs.flatMap ByteVec.val ++ signature.val))) := by
  refine ((reads_skip 8).bind fun _ => ((reads_skip 32).whenPos spendCount).bind fun _ =>
    (reads_skipItems spendCount (192 + 64)).bind fun _ =>
      (reads_skipItems outputCount 192).bind fun _ => reads_skip 64).mono ?_
  rintro _ _ ⟨_, balance, _, rfl, hbalance, _, anchor, _, rfl, ⟨hpos, hzero⟩, _, items, _, rfl,
    hitems, _, _, signature, rfl, houtputs, hsignature⟩
  obtain ⟨outputProofs, houtputProofs, rfl⟩ := exists_items houtputs
  -- all the proofs stand before all the signatures
  obtain ⟨proofs, hproofs, hfst⟩ := @exists_items 192 (items.take (spendCount * 192)) spendCount
    (by rw [List.length_take]; omega)
  obtain ⟨signatures, hsignatures, hsnd⟩ := @exists_items 64 (items.drop (spendCount * 192))
    spendCount (by rw [List.length_drop]; omega)
  obtain ⟨anchorVec, hdefault, hanchor⟩ : ∃ v : ByteVec 32, (spendCount = 0 → v = default) ∧
      anchor = if spendCount = 0 then [] else v.val := by
    by_cases hnone : spendCount = 0
    · exact ⟨default, fun _ => rfl, by rw [if_pos hnone, hzero hnone]⟩
    · exact ⟨⟨anchor, hpos (by omega)⟩, fun h => absurd h hnone, by rw [if_neg hnone]⟩
  refine ⟨⟨balance, hbalance⟩, anchorVec, proofs, signatures, outputProofs,
    ⟨signature, hsignature⟩, hdefault, hproofs, hsignatures, houtputProofs, ?_⟩
  rw [← hfst, ← hsnd, List.take_append_drop, ← hanchor]

/-- A bundle whose items have the parts that were read in its two places. -/
theorem exists_saplingV5 {spends : List SaplingSpendV5} {outputs : List SaplingOutput}
    {proofs : List (ByteVec 192)} {signatures : List (ByteVec 64)}
    {outputProofs : List (ByteVec 192)} (hproofs : proofs.length = spends.length)
    (hsignatures : signatures.length = spends.length)
    (houtputs : outputProofs.length = outputs.length) :
    ∃ (spends' : List SaplingSpendV5) (outputs' : List SaplingOutput),
      spends'.map (·.encodePrefix) = spends.map (·.encodePrefix) ∧
      spends'.map (·.nullifier) = spends.map (·.nullifier) ∧
      spends'.map (·.proof) = proofs ∧ spends'.map (·.signature) = signatures ∧
      outputs'.map (·.encodePrefix) = outputs.map (·.encodePrefix) ∧
      outputs'.map (·.compact) = outputs.map (·.compact) ∧
      outputs'.map (·.proof) = outputProofs := by
  obtain ⟨proved, hproved, hkeep⟩ := exists_attached
    (fun (s : SaplingSpendV5) p => { s with proof := p }) (·.proof) (fun _ _ => rfl) hproofs
  have hlen : proved.length = spends.length := by
    rw [← hproofs, ← hproved, List.length_map]
  obtain ⟨spends', hsigned, hkeep'⟩ := exists_attached
    (fun (s : SaplingSpendV5) sig => { s with signature := sig }) (·.signature) (fun _ _ => rfl)
    (hsignatures.trans hlen.symm)
  obtain ⟨outputs', houtput, hkeepOutput⟩ := exists_attached
    (fun (o : SaplingOutput) p => { o with proof := p }) (·.proof) (fun _ _ => rfl) houtputs
  refine ⟨spends', outputs', ?_, ?_, ?_, hsigned, ?_, ?_, houtput⟩
  · exact (hkeep' _ _ fun _ _ => rfl).trans (hkeep _ _ fun _ _ => rfl)
  · exact (hkeep' _ _ fun _ _ => rfl).trans (hkeep _ _ fun _ _ => rfl)
  · exact (hkeep' _ _ fun _ _ => rfl).trans hproved
  · exact hkeepOutput _ _ fun _ _ => rfl
  · exact hkeepOutput _ _ fun _ _ => rfl

theorem reads_saplingV5 : Reads saplingV5 fun fields enc => ∃ b : SaplingV5, b.Normal ∧
    enc = b.encode ∧ fields = (b.spends.map (·.nullifier), b.outputs.map (·.compact)) := by
  refine (reads_count.bind fun spendCount => (reads_ensureItems spendCount _).bind fun _ =>
    (reads_saplingSpend.times spendCount).bind fun spends =>
      reads_count.bind fun outputCount => (reads_ensureItems outputCount _).bind fun _ =>
        ((reads_saplingOutput false).times outputCount).bind fun outputs =>
          ((reads_saplingV5Tail spendCount outputCount).whenPos (spendCount + outputCount)).bind
            fun _ => Reads.pure (spends, outputs)).mono ?_
  rintro _ _ ⟨_, _, _, rfl, ⟨rfl, -⟩, _, _, _, rfl, rfl, _, _, _, rfl, ⟨spends, rfl, rfl, rfl⟩,
    _, _, _, rfl, ⟨rfl, -⟩, _, _, _, rfl, rfl, _, _, _, rfl, ⟨outputs, rfl, rfl, rfl⟩,
    _, _, _, rfl, ⟨hpos, hzero⟩, rfl, rfl⟩
  by_cases hnil : spends = [] ∧ outputs = []
  · obtain rfl := hzero (by simp [hnil])
    refine ⟨⟨spends, outputs, default, default, default⟩,
      ⟨fun _ => rfl, fun _ => ⟨rfl, rfl⟩⟩, ?_, rfl⟩
    simp [SaplingV5.encode, vectorBytes, hnil]
  · obtain ⟨balance, anchor, proofs, signatures, outputProofs, signature, hanchor, hproofs,
      hsignatures, houtputProofs, rfl⟩ := hpos (length_add_length_pos hnil)
    obtain ⟨spends', outputs', hprefixes, hnullifiers, hspendProofs, hspendSignatures, houtputs,
      hcompact, hproof⟩ := exists_saplingV5 hproofs hsignatures houtputProofs
    have hspendLen : spends'.length = spends.length := by
      simpa using congrArg List.length hnullifiers
    have houtputLen : outputs'.length = outputs.length := by
      simpa using congrArg List.length hcompact
    have hspendNil : spends' = [] ↔ spends = [] := by
      rw [← List.length_eq_zero_iff, hspendLen, List.length_eq_zero_iff]
    have houtputNil : outputs' = [] ↔ outputs = [] := by
      rw [← List.length_eq_zero_iff, houtputLen, List.length_eq_zero_iff]
    refine ⟨⟨spends', outputs', balance, anchor, signature⟩, ⟨?_, ?_⟩, ?_, ?_⟩
    · intro h
      exact hanchor (by rw [List.length_eq_zero_iff]; exact hspendNil.mp h)
    · intro h
      exact absurd ⟨hspendNil.mp h.1, houtputNil.mp h.2⟩ hnil
    · simp only [SaplingV5.encode, SaplingV5.encodeTail, vectorBytes, hspendNil, houtputNil,
        if_neg hnil, hspendLen, houtputLen, List.length_eq_zero_iff,
        flatMap_congr_map hspendProofs, flatMap_congr_map hspendSignatures,
        flatMap_congr_map hproof, List.flatMap_def, hprefixes, houtputs,
        List.append_assoc, List.append_nil, List.nil_append, Bool.false_eq_true, if_false]
    · rw [hnullifiers, hcompact]

theorem reads_action : Reads action fun compact enc =>
    ∃ a : ShieldedAction, enc = a.encode ∧ a.compact = compact := by
  have hreads := (reads_skip 32).bind fun _ => (reads_array 32).bind fun nullifier =>
    (reads_skip 32).bind fun _ => (reads_array 32).bind fun commitment =>
      (reads_array 32).bind fun ephemeralKey =>
        (reads_array compactCiphertextBytes).bind fun ciphertext =>
          (reads_skip (580 - compactCiphertextBytes + 80)).bind fun _ =>
            Reads.pure (CompactShieldedAction.mk nullifier commitment ephemeralKey ciphertext)
  refine hreads.mono ?_
  rintro _ _ ⟨_, value, _, rfl, hvalue, nullifier, _, _, rfl, rfl, _, key, _, rfl, hkey,
    commitment, _, _, rfl, rfl, ephemeralKey, _, _, rfl, rfl, ciphertext, _, _, rfl, rfl,
    _, rest, _, rfl, hrest, rfl, rfl⟩
  refine ⟨⟨⟨value, hvalue⟩, nullifier, ⟨key, hkey⟩, commitment, ephemeralKey, ciphertext,
    ⟨rest, hrest⟩, default⟩, ?_, rfl⟩
  rw [List.append_nil, ShieldedAction.encode]

theorem reads_actionsTail (count : Nat) : Reads (actionsTail count) fun _ enc =>
    ∃ (fields : ByteVec 41) (proof : Bytes) (signatures : List (ByteVec 64))
      (signature : ByteVec 64), signatures.length = count ∧
      enc = fields.val ++ (compactSizeBytes proof.length ++ (proof ++
        (signatures.flatMap ByteVec.val ++ signature.val))) := by
  refine ((reads_skip (1 + 8 + 32)).bind fun _ => (reads_compactSize _).bind fun proof =>
    (reads_skip proof).bind fun _ => (reads_skipItems count 64).bind fun _ =>
      reads_skip 64).mono ?_
  rintro _ _ ⟨_, fields, _, rfl, hfields, _, _, _, rfl, ⟨rfl, -⟩, _, proof, _, rfl, rfl, _, _,
    signature, rfl, hitems, hsignature⟩
  obtain ⟨signatures, hsignatures, rfl⟩ := exists_items hitems
  exact ⟨⟨fields, hfields⟩, proof, signatures, ⟨signature, hsignature⟩, hsignatures, rfl⟩

theorem reads_actions : Reads actions fun compact enc => ∃ b : ActionBundle, b.Normal ∧
    enc = b.encode ∧ compact = b.actions.map (·.compact) := by
  refine (reads_count.bind fun count => (reads_ensureItems count _).bind fun _ =>
    (reads_action.times count).bind fun actions =>
      ((reads_actionsTail count).whenPos count).bind fun _ => Reads.pure actions).mono ?_
  rintro _ _ ⟨_, _, _, rfl, ⟨rfl, -⟩, _, _, _, rfl, rfl, _, _, _, rfl, ⟨actions, rfl, rfl, rfl⟩,
    _, _, _, rfl, ⟨hpos, hzero⟩, rfl, rfl⟩
  by_cases hnil : actions = []
  · obtain rfl := hzero (by rw [hnil]; rfl)
    refine ⟨⟨actions, default, [], default⟩, fun _ => ⟨rfl, rfl, rfl⟩, ?_, rfl⟩
    simp [ActionBundle.encode, vectorBytes, hnil]
  · obtain ⟨fields, proof, signatures, signature, hsignatures, rfl⟩ :=
      hpos (List.length_pos_of_ne_nil hnil)
    obtain ⟨actions', hsigned, hkeep⟩ := exists_attached
      (fun (a : ShieldedAction) sig => { a with signature := sig }) (·.signature)
      (fun _ _ => rfl) hsignatures
    have hencode := hkeep _ (·.encode) fun _ _ => rfl
    have hcompact := hkeep _ (·.compact) fun _ _ => rfl
    have hlen : actions'.length = actions.length := by
      simpa using congrArg List.length hcompact
    have hnil' : actions' ≠ [] := by
      rw [← List.length_pos_iff, hlen]
      exact List.length_pos_of_ne_nil hnil
    refine ⟨⟨actions', fields, proof, signature⟩, fun h => absurd h hnil', ?_, hcompact.symm⟩
    simp only [ActionBundle.encode, ActionBundle.encodeTail, vectorBytes, if_neg hnil', hlen,
      flatMap_congr_map hsigned, List.flatMap_def, hencode, List.append_assoc, List.append_nil,
      List.nil_append]

/-! ## Whole transactions -/

/-- What the parser has read is the serialization of a normal transaction, and
    what it gives are the shielded fields of that transaction. -/
def IsTransaction (txid : Hash) (index : U64) (compact : CompactTransaction) (enc : Bytes) : Prop :=
  ∃ tx : WireTransaction, tx.Normal ∧ enc = tx.serialize ∧
    tx.transparent.outputs.length ≤ maxVectorItems ∧ compact = tx.compact txid index

/-- A header is its version and its overwinter flag. -/
theorem header_eq {header version : Nat} (hheader : header < 256 ^ 4)
    (hversion : header % 2 ^ 31 = version) :
    (decide (header / 2 ^ 31 ≠ 0) = false → header = version) ∧
      (decide (header / 2 ^ 31 ≠ 0) = true → header = WireTransaction.overwinter version) := by
  unfold WireTransaction.overwinter
  constructor
  · intro h
    have := of_decide_eq_false h
    omega
  · intro h
    have := of_decide_eq_true h
    omega

theorem reads_transaction (txid : Hash) (index : U64) :
    Reads (parseTransactionFrom txid index) (IsTransaction txid index) := by
  unfold parseTransactionFrom
  refine ((reads_uint 4).bind_of (R := fun header compact enc =>
    IsTransaction txid index compact (leBytes 4 header ++ enc)) fun header _ hheader => ?_).mono ?_
  · dsimp only
    -- one case for each version, and the last for headers that are not supported
    split
    next hversion hflag =>
      rw [(header_eq hheader.2 hversion).1 hflag]
      refine (reads_transparentBundle.bind fun _ => (reads_skip 4).bind fun _ =>
        Reads.pure _).mono ?_
      rintro _ _ ⟨_, _, _, rfl, ⟨transparent, rfl, houtputs⟩, _, lockTime, _, rfl, hlen, rfl, rfl⟩
      refine ⟨.v1 transparent ⟨lockTime, hlen⟩, trivial, ?_, houtputs, rfl⟩
      rw [List.append_nil, WireTransaction.serialize]
    next hversion hflag =>
      rw [(header_eq hheader.2 hversion).1 hflag]
      refine (reads_transparentBundle.bind fun _ => (reads_skip 4).bind fun _ =>
        (reads_joinsplits _).bind fun _ => Reads.pure _).mono ?_
      rintro _ _ ⟨_, _, _, rfl, ⟨transparent, rfl, houtputs⟩, _, lockTime, _, rfl, hlen,
        _, _, _, rfl, ⟨joinsplits, hnormal, rfl⟩, rfl, rfl⟩
      refine ⟨.v2 transparent ⟨lockTime, hlen⟩ joinsplits, hnormal, ?_, houtputs, rfl⟩
      rw [List.append_nil, WireTransaction.serialize]
    next hversion hflag =>
      rw [(header_eq hheader.2 hversion).2 hflag]
      refine ((reads_versionGroup _).bind fun _ => reads_transparentBundle.bind fun _ =>
        (reads_skip 8).bind fun _ => (reads_joinsplits _).bind fun _ => Reads.pure _).mono ?_
      rintro _ _ ⟨_, _, _, rfl, rfl, _, _, _, rfl, ⟨transparent, rfl, houtputs⟩, _, fields, _, rfl,
        hlen, _, _, _, rfl, ⟨joinsplits, hnormal, rfl⟩, rfl, rfl⟩
      refine ⟨.v3 transparent ⟨fields, hlen⟩ joinsplits, hnormal, ?_, houtputs, rfl⟩
      rw [List.append_nil, WireTransaction.serialize]
    next hversion hflag =>
      rw [(header_eq hheader.2 hversion).2 hflag]
      refine ((reads_versionGroup _).bind fun _ => reads_transparentBundle.bind fun _ =>
        (reads_skip 16).bind fun _ => reads_saplingV4.bind fun _ => Reads.pure _).mono ?_
      rintro _ _ ⟨_, _, _, rfl, rfl, _, _, _, rfl, ⟨transparent, rfl, houtputs⟩, _, fields, _, rfl,
        hlen, _, _, _, rfl, ⟨sapling, hnormal, rfl, rfl⟩, rfl, rfl⟩
      refine ⟨.v4 transparent ⟨fields, hlen⟩ sapling, hnormal, ?_, houtputs, rfl⟩
      rw [List.append_nil, WireTransaction.serialize]
    next hversion hflag =>
      rw [(header_eq hheader.2 hversion).2 hflag]
      refine ((reads_versionGroup _).bind fun _ => (reads_skip 12).bind fun _ =>
        reads_transparentBundle.bind fun _ => reads_saplingV5.bind fun _ =>
          reads_actions.bind fun _ => Reads.pure _).mono ?_
      rintro _ _ ⟨_, _, _, rfl, rfl, _, fields, _, rfl, hlen, _, _, _, rfl,
        ⟨transparent, rfl, houtputs⟩, _, _, _, rfl, ⟨sapling, hsapling, rfl, rfl⟩,
        _, _, _, rfl, ⟨orchard, horchard, rfl, rfl⟩, rfl, rfl⟩
      refine ⟨.v5 ⟨fields, hlen⟩ transparent sapling orchard, ⟨hsapling, horchard⟩, ?_, houtputs,
        rfl⟩
      rw [List.append_nil, WireTransaction.serialize]
    next hversion hflag =>
      rw [(header_eq hheader.2 hversion).2 hflag]
      refine ((reads_versionGroup _).bind fun _ => (reads_skip 12).bind fun _ =>
        reads_transparentBundle.bind fun _ => reads_saplingV5.bind fun _ =>
          reads_actions.bind fun _ => reads_actions.bind fun _ => Reads.pure _).mono ?_
      rintro _ _ ⟨_, _, _, rfl, rfl, _, fields, _, rfl, hlen, _, _, _, rfl,
        ⟨transparent, rfl, houtputs⟩, _, _, _, rfl, ⟨sapling, hsapling, rfl, rfl⟩,
        _, _, _, rfl, ⟨orchard, horchard, rfl, rfl⟩, _, _, _, rfl,
        ⟨ironwood, hironwood, rfl, rfl⟩, rfl, rfl⟩
      refine ⟨.v6 ⟨fields, hlen⟩ transparent sapling orchard ironwood,
        ⟨hsapling, horchard, hironwood⟩, ?_, houtputs, rfl⟩
      rw [List.append_nil, WireTransaction.serialize]
    next => exact Reads.throw _ _
  · rintro _ _ ⟨header, _, _, rfl, ⟨rfl, -⟩, h⟩
    exact h

/-! ## Unique decoding -/

/-- `encode` determines `part`: what follows an encoding cannot make it look like
    the encoding of an item with another part. -/
def Determines {α β : Type} (encode : α → Bytes) (part : α → β) : Prop :=
  ∀ (x y : α) (s t : Bytes), (encode x ++ s).length < 2 ^ 64 → encode x ++ s = encode y ++ t →
    part x = part y ∧ s = t

theorem length_lt_right {a b : Bytes} (h : (a ++ b).length < n) : b.length < n := by
  rw [List.length_append] at h
  omega

theorem ByteVec.append_inj (h : a.val ++ s = b.val ++ t) : a = b ∧ s = t := by
  obtain ⟨hval, hrest⟩ := List.append_inj h (by rw [a.val_length, b.val_length])
  exact ⟨ByteVec.ext hval, hrest⟩

theorem compactSizeBytes_append_inj {m : Nat} (hm : m < 2 ^ 64) (hn : n < 2 ^ 64)
    (hlen : (compactSizeBytes m ++ s).length < 2 ^ 64)
    (h : compactSizeBytes m ++ s = compactSizeBytes n ++ t) : m = n ∧ s = t := by
  have hparses : Parses (compactSize (2 ^ 64)) (compactSizeBytes m) m :=
    parses_compactSize hm.le hm
  exact hparses.unique (parses_compactSize hn.le hn) hlen h

/-- A byte string with its length in front. -/
theorem lengthPrefixed_append_inj {a b : Bytes}
    (h : compactSizeBytes a.length ++ (a ++ s) = compactSizeBytes b.length ++ (b ++ t))
    (hlen : (compactSizeBytes a.length ++ (a ++ s)).length < 2 ^ 64) : a = b ∧ s = t := by
  have hlen' := congrArg List.length h
  simp only [List.length_append] at hlen hlen'
  obtain ⟨hcount, hrest⟩ := compactSizeBytes_append_inj (by omega) (by omega)
    (by simpa only [List.length_append] using hlen) h
  exact List.append_inj hrest hcount

theorem Determines.flatMap (h : Determines encode part) (hcount : xs.length = ys.length)
    (hlen : (xs.flatMap encode ++ s).length < 2 ^ 64)
    (heq : xs.flatMap encode ++ s = ys.flatMap encode ++ t) :
    xs.map part = ys.map part ∧ s = t := by
  induction xs generalizing ys with
  | nil =>
    obtain rfl := List.eq_nil_of_length_eq_zero hcount.symm
    exact ⟨rfl, heq⟩
  | cons x xs ih =>
    cases ys with
    | nil => cases hcount
    | cons y ys =>
      rw [List.flatMap_cons, List.append_assoc] at hlen
      rw [List.flatMap_cons, List.flatMap_cons, List.append_assoc, List.append_assoc] at heq
      obtain ⟨hhead, hrest⟩ := h x y _ _ hlen heq
      obtain ⟨htail, hst⟩ := ih (Nat.succ.inj hcount) (length_lt_right hlen) hrest
      exact ⟨by rw [List.map_cons, List.map_cons, hhead, htail], hst⟩

/-- A count of items that are on the wire is a 64-bit number. -/
theorem count_lt (hpos : ∀ x, 0 < (encode x).length) (hlen : (xs.flatMap encode).length < 2 ^ 64) :
    xs.length < 2 ^ 64 := by
  have := @le_length_flatMap _ encode 1 xs fun x _ => hpos x
  omega

theorem Determines.vector (h : Determines encode part) (hpos : ∀ x, 0 < (encode x).length)
    (hlen : (vectorBytes encode xs ++ s).length < 2 ^ 64)
    (heq : vectorBytes encode xs ++ s = vectorBytes encode ys ++ t) :
    xs.map part = ys.map part ∧ s = t := by
  have hlen' := congrArg List.length heq
  simp only [vectorBytes, List.append_assoc] at hlen heq
  simp only [vectorBytes, List.length_append] at hlen hlen'
  obtain ⟨hcount, hrest⟩ := compactSizeBytes_append_inj (count_lt hpos (by omega))
    (count_lt hpos (by omega)) (by simpa only [List.length_append] using hlen) heq
  exact h.flatMap hcount (by rw [List.length_append]; omega) hrest

theorem ByteVec.determines (n : Nat) : Determines (α := ByteVec n) ByteVec.val id :=
  fun _ _ _ _ _ h => ByteVec.append_inj h

theorem TxInput.determines : Determines TxInput.encode id := by
  intro x y s t hlen h
  obtain ⟨prevout, script, sequence⟩ := x
  obtain ⟨prevout', script', sequence'⟩ := y
  simp only [TxInput.encode, List.append_assoc] at h hlen
  obtain ⟨rfl, h₁⟩ := ByteVec.append_inj h
  obtain ⟨rfl, h₂⟩ := lengthPrefixed_append_inj h₁ (length_lt_right hlen)
  obtain ⟨rfl, h₃⟩ := ByteVec.append_inj h₂
  exact ⟨rfl, h₃⟩

theorem TxOutput.determines : Determines TxOutput.encode id := by
  intro x y s t hlen h
  obtain ⟨value, script⟩ := x
  obtain ⟨value', script'⟩ := y
  simp only [TxOutput.encode, List.append_assoc] at h hlen
  obtain ⟨rfl, h₁⟩ := ByteVec.append_inj h
  obtain ⟨rfl, h₂⟩ := lengthPrefixed_append_inj h₁ (length_lt_right hlen)
  exact ⟨rfl, h₂⟩

theorem TransparentBundle.determines : Determines TransparentBundle.encode id := by
  intro x y s t hlen h
  obtain ⟨inputs, outputs⟩ := x
  obtain ⟨inputs', outputs'⟩ := y
  simp only [TransparentBundle.encode, List.append_assoc] at h hlen
  obtain ⟨hinputs, h₁⟩ := TxInput.determines.vector (fun i => by simp [TxInput.encode]) hlen h
  obtain ⟨houtputs, h₂⟩ := TxOutput.determines.vector (fun o => by simp [TxOutput.encode])
    (length_lt_right hlen) h₁
  simp only [List.map_id] at hinputs houtputs
  exact ⟨by rw [hinputs, houtputs], h₂⟩

/-- A part that is on the wire only if there are items. -/
theorem ite_append_inj {P : Prop} [Decidable P] (ha : P → a = default) (hb : P → b = default)
    (h : (if P then [] else a.val) ++ s = (if P then [] else b.val) ++ t) : a = b ∧ s = t := by
  by_cases hP : P
  · rw [if_pos hP, if_pos hP] at h
    exact ⟨(ha hP).trans (hb hP).symm, h⟩
  · rw [if_neg hP, if_neg hP] at h
    exact ByteVec.append_inj h

theorem JoinSplits.encode_inj (hn : 0 < n) {x y : JoinSplits n} (hx : x.Normal) (hy : y.Normal)
    (hlen : (x.encode ++ s).length < 2 ^ 64) (h : x.encode ++ s = y.encode ++ t) :
    x = y ∧ s = t := by
  obtain ⟨items, trailer⟩ := x
  obtain ⟨items', trailer'⟩ := y
  simp only [JoinSplits.encode, List.append_assoc] at h hlen
  obtain ⟨hitems, h₁⟩ := (ByteVec.determines n).vector
    (fun a => by rw [a.val_length]; exact hn) hlen h
  simp only [List.map_id] at hitems
  subst hitems
  obtain ⟨rfl, h₂⟩ := ite_append_inj hx hy h₁
  exact ⟨rfl, h₂⟩

theorem SaplingSpendV4.determines : Determines SaplingSpendV4.encode id := by
  intro x y s t hlen h
  obtain ⟨fst, nullifier, snd⟩ := x
  obtain ⟨fst', nullifier', snd'⟩ := y
  simp only [SaplingSpendV4.encode, List.append_assoc] at h
  obtain ⟨rfl, h₁⟩ := ByteVec.append_inj h
  obtain ⟨rfl, h₂⟩ := ByteVec.append_inj h₁
  obtain ⟨rfl, h₃⟩ := ByteVec.append_inj h₂
  exact ⟨rfl, h₃⟩

theorem SaplingOutput.determines : Determines SaplingOutput.encodeV4 id := by
  intro x y s t hlen h
  obtain ⟨commitment, cmu, key, ciphertext, rest, proof⟩ := x
  obtain ⟨commitment', cmu', key', ciphertext', rest', proof'⟩ := y
  simp only [SaplingOutput.encodeV4, List.append_assoc] at h
  obtain ⟨rfl, h₁⟩ := ByteVec.append_inj h
  obtain ⟨rfl, h₂⟩ := ByteVec.append_inj h₁
  obtain ⟨rfl, h₃⟩ := ByteVec.append_inj h₂
  obtain ⟨rfl, h₄⟩ := ByteVec.append_inj h₃
  obtain ⟨rfl, h₅⟩ := ByteVec.append_inj h₄
  obtain ⟨rfl, h₆⟩ := ByteVec.append_inj h₅
  exact ⟨rfl, h₆⟩

theorem SaplingV4.encode_inj {x y : SaplingV4} (hx : x.Normal) (hy : y.Normal)
    (hlen : (x.encode ++ s).length < 2 ^ 64) (h : x.encode ++ s = y.encode ++ t) :
    x = y ∧ s = t := by
  obtain ⟨spends, outputs, joinsplits, signature⟩ := x
  obtain ⟨spends', outputs', joinsplits', signature'⟩ := y
  simp only [SaplingV4.encode, List.append_assoc] at h hlen
  obtain ⟨hspends, h₁⟩ := SaplingSpendV4.determines.vector
    (fun s => by rw [SaplingSpendV4.encode_length]; omega) hlen h
  have hlen₁ := length_lt_right hlen
  obtain ⟨houtputs, h₂⟩ := SaplingOutput.determines.vector
    (fun o => by rw [SaplingOutput.encodeV4_length]; omega) hlen₁ h₁
  simp only [List.map_id] at hspends houtputs
  subst hspends houtputs
  have hjoinsplits : joinsplits.Normal := hx.joinsplits
  obtain ⟨rfl, h₃⟩ := JoinSplits.encode_inj (by decide) hjoinsplits hy.joinsplits
    (length_lt_right hlen₁) h₂
  obtain ⟨rfl, h₄⟩ := ite_append_inj hx.bindingSignature hy.bindingSignature h₃
  exact ⟨rfl, h₄⟩

/-- The parts of a spend that stand with its nullifier. -/
def SaplingSpendV5.front (s : SaplingSpendV5) : ByteVec 32 × Digest × ByteVec 32 :=
  (s.valueCommitment, s.nullifier, s.randomizedKey)

theorem SaplingSpendV5.determines :
    Determines SaplingSpendV5.encodePrefix SaplingSpendV5.front := by
  intro x y s t hlen h
  simp only [SaplingSpendV5.encodePrefix, List.append_assoc] at h
  obtain ⟨hcommitment, h₁⟩ := ByteVec.append_inj h
  obtain ⟨hnullifier, h₂⟩ := ByteVec.append_inj h₁
  obtain ⟨hkey, h₃⟩ := ByteVec.append_inj h₂
  exact ⟨by rw [front, front, hcommitment, hnullifier, hkey], h₃⟩

/-- The parts of an output that stand before its proof. -/
def SaplingOutput.front (o : SaplingOutput) :
    ByteVec 32 × Digest × Digest × Ciphertext × ByteVec 608 :=
  (o.valueCommitment, o.cmu, o.ephemeralKey, o.ciphertext, o.ciphertextRest)

theorem SaplingOutput.determines_front :
    Determines SaplingOutput.encodePrefix SaplingOutput.front := by
  intro x y s t hlen h
  simp only [SaplingOutput.encodePrefix, List.append_assoc] at h
  obtain ⟨hcommitment, h₁⟩ := ByteVec.append_inj h
  obtain ⟨hcmu, h₂⟩ := ByteVec.append_inj h₁
  obtain ⟨hkey, h₃⟩ := ByteVec.append_inj h₂
  obtain ⟨hciphertext, h₄⟩ := ByteVec.append_inj h₃
  obtain ⟨hrest, h₅⟩ := ByteVec.append_inj h₄
  exact ⟨by rw [front, front, hcommitment, hcmu, hkey, hciphertext, hrest], h₅⟩

/-- The parts of an action that stand before its signature. -/
def ShieldedAction.front (a : ShieldedAction) :
    ByteVec 32 × Digest × ByteVec 32 × Digest × Digest × Ciphertext × ByteVec 608 :=
  (a.valueCommitment, a.nullifier, a.randomizedKey, a.commitment, a.ephemeralKey, a.ciphertext,
    a.ciphertextRest)

theorem ShieldedAction.determines : Determines ShieldedAction.encode ShieldedAction.front := by
  intro x y s t hlen h
  simp only [ShieldedAction.encode, List.append_assoc] at h
  obtain ⟨hvalue, h₁⟩ := ByteVec.append_inj h
  obtain ⟨hnullifier, h₂⟩ := ByteVec.append_inj h₁
  obtain ⟨hkey, h₃⟩ := ByteVec.append_inj h₂
  obtain ⟨hcommitment, h₄⟩ := ByteVec.append_inj h₃
  obtain ⟨hephemeral, h₅⟩ := ByteVec.append_inj h₄
  obtain ⟨hciphertext, h₆⟩ := ByteVec.append_inj h₅
  obtain ⟨hrest, h₇⟩ := ByteVec.append_inj h₆
  exact ⟨by rw [front, front, hvalue, hnullifier, hkey, hcommitment, hephemeral, hciphertext,
    hrest], h₇⟩

theorem determines_field (field : α → ByteVec n) : Determines (fun a => (field a).val) field :=
  fun _ _ _ _ _ h => ByteVec.append_inj h

theorem map_pair_eq {γ : Type} {g : α → γ} (hf : xs.map f = ys.map f) (hg : xs.map g = ys.map g) :
    xs.map (fun a => (f a, g a)) = ys.map fun a => (f a, g a) := by
  have hzip : ∀ zs : List α, zs.map (fun a => (f a, g a)) = (zs.map f).zip (zs.map g) := by
    intro zs
    rw [List.zip_map']
  rw [hzip, hzip, hf, hg]

/-- The three places of the spends determine them. -/
theorem spends_eq {xs ys : List SaplingSpendV5} (hfront : xs.map (·.front) = ys.map (·.front))
    (hproof : xs.map (·.proof) = ys.map (·.proof))
    (hsignature : xs.map (·.signature) = ys.map (·.signature)) : xs = ys := by
  refine List.map_injective_iff.mpr ?_ (map_pair_eq hfront (map_pair_eq hproof hsignature))
  intro x y h
  cases x
  cases y
  simpa [SaplingSpendV5.front, and_assoc] using h

theorem outputs_eq {xs ys : List SaplingOutput} (hfront : xs.map (·.front) = ys.map (·.front))
    (hproof : xs.map (·.proof) = ys.map (·.proof)) : xs = ys := by
  refine List.map_injective_iff.mpr ?_ (map_pair_eq hfront hproof)
  intro x y h
  cases x
  cases y
  simpa [SaplingOutput.front, and_assoc] using h

theorem actions_eq {xs ys : List ShieldedAction} (hfront : xs.map (·.front) = ys.map (·.front))
    (hsignature : xs.map (·.signature) = ys.map (·.signature)) : xs = ys := by
  refine List.map_injective_iff.mpr ?_ (map_pair_eq hfront hsignature)
  intro x y h
  cases x
  cases y
  simpa [ShieldedAction.front, and_assoc] using h

theorem SaplingV5.encodeTail_inj {x y : SaplingV5} (hx : x.Normal) (hy : y.Normal)
    (hspends : x.spends.map (·.front) = y.spends.map (·.front))
    (houtputs : x.outputs.map (·.front) = y.outputs.map (·.front))
    (hlen : (x.encodeTail ++ s).length < 2 ^ 64) (h : x.encodeTail ++ s = y.encodeTail ++ t) :
    x = y ∧ s = t := by
  obtain ⟨spends, outputs, balance, anchor, signature⟩ := x
  obtain ⟨spends', outputs', balance', anchor', signature'⟩ := y
  have hspendLen : spends.length = spends'.length := by simpa using congrArg List.length hspends
  have houtputLen : outputs.length = outputs'.length := by simpa using congrArg List.length houtputs
  have hnil : spends = [] ↔ spends' = [] := by
    rw [← List.length_eq_zero_iff, hspendLen, List.length_eq_zero_iff]
  simp only [SaplingV5.encodeTail, List.append_assoc] at h hlen
  obtain ⟨rfl, h₁⟩ := ByteVec.append_inj h
  simp only [hnil] at h₁
  obtain ⟨rfl, h₂⟩ := ite_append_inj (fun hn => hx.anchor (hnil.mpr hn)) hy.anchor h₁
  have hlen₁ := length_lt_right (length_lt_right hlen)
  obtain ⟨hproofs, h₃⟩ := (determines_field SaplingSpendV5.proof).flatMap hspendLen hlen₁ h₂
  have hlen₂ := length_lt_right hlen₁
  obtain ⟨hsignatures, h₄⟩ := (determines_field SaplingSpendV5.signature).flatMap hspendLen
    hlen₂ h₃
  obtain ⟨houtputProofs, h₅⟩ := (determines_field SaplingOutput.proof).flatMap houtputLen
    (length_lt_right hlen₂) h₄
  obtain ⟨rfl, h₆⟩ := ByteVec.append_inj h₅
  obtain rfl := spends_eq hspends hproofs hsignatures
  obtain rfl := outputs_eq houtputs houtputProofs
  exact ⟨rfl, h₆⟩

theorem SaplingV5.encode_inj {x y : SaplingV5} (hx : x.Normal) (hy : y.Normal)
    (hlen : (x.encode ++ s).length < 2 ^ 64) (h : x.encode ++ s = y.encode ++ t) :
    x = y ∧ s = t := by
  simp only [SaplingV5.encode, List.append_assoc] at h hlen
  obtain ⟨hspends, h₁⟩ := SaplingSpendV5.determines.vector
    (fun s => by rw [SaplingSpendV5.encodePrefix_length]; omega) hlen h
  have hlen₁ := length_lt_right hlen
  obtain ⟨houtputs, h₂⟩ := SaplingOutput.determines_front.vector
    (fun o => by rw [SaplingOutput.encodePrefix_length]; omega) hlen₁ h₁
  have hspendNil : x.spends = [] ↔ y.spends = [] := by
    rw [← List.map_eq_nil_iff (f := (·.front)), hspends, List.map_eq_nil_iff]
  have houtputNil : x.outputs = [] ↔ y.outputs = [] := by
    rw [← List.map_eq_nil_iff (f := (·.front)), houtputs, List.map_eq_nil_iff]
  by_cases hnil : x.spends = [] ∧ x.outputs = []
  · have hnil' : y.spends = [] ∧ y.outputs = [] := ⟨hspendNil.mp hnil.1, houtputNil.mp hnil.2⟩
    rw [if_pos hnil, if_pos hnil'] at h₂
    obtain ⟨spends, outputs, balance, anchor, signature⟩ := x
    obtain ⟨spends', outputs', balance', anchor', signature'⟩ := y
    obtain ⟨rfl, rfl⟩ := hnil
    obtain ⟨rfl, rfl⟩ := hnil'
    obtain ⟨rfl, rfl⟩ := hx.tail ⟨rfl, rfl⟩
    obtain ⟨rfl, rfl⟩ := hy.tail ⟨rfl, rfl⟩
    obtain rfl := hx.anchor rfl
    obtain rfl := hy.anchor rfl
    exact ⟨rfl, h₂⟩
  · have hnil' : ¬(y.spends = [] ∧ y.outputs = []) := by rwa [← hspendNil, ← houtputNil]
    rw [if_neg hnil] at h₂ hlen₁
    rw [if_neg hnil'] at h₂
    exact SaplingV5.encodeTail_inj hx hy hspends houtputs (length_lt_right hlen₁) h₂

theorem ActionBundle.encode_inj {x y : ActionBundle} (hx : x.Normal) (hy : y.Normal)
    (hlen : (x.encode ++ s).length < 2 ^ 64) (h : x.encode ++ s = y.encode ++ t) :
    x = y ∧ s = t := by
  obtain ⟨actions, fields, proof, signature⟩ := x
  obtain ⟨actions', fields', proof', signature'⟩ := y
  simp only [ActionBundle.encode, List.append_assoc] at h hlen
  obtain ⟨hactions, h₁⟩ := ShieldedAction.determines.vector
    (fun a => by rw [ShieldedAction.encode_length]; omega) hlen h
  have hcount : actions.length = actions'.length := by
    simpa using congrArg List.length hactions
  have hempty : actions = [] ↔ actions' = [] := by
    rw [← List.length_eq_zero_iff, hcount, List.length_eq_zero_iff]
  by_cases hnil : actions = []
  · rw [if_pos hnil, if_pos (hempty.mp hnil)] at h₁
    obtain rfl := hnil
    obtain rfl := hempty.mp rfl
    obtain ⟨rfl, rfl, rfl⟩ := hx rfl
    obtain ⟨rfl, rfl, rfl⟩ := hy rfl
    exact ⟨rfl, h₁⟩
  · rw [if_neg hnil] at h₁ hlen
    rw [if_neg (mt hempty.mpr hnil)] at h₁
    simp only [ActionBundle.encodeTail, List.append_assoc] at h₁ hlen
    obtain ⟨rfl, h₂⟩ := ByteVec.append_inj h₁
    have hlen₁ := length_lt_right (length_lt_right hlen)
    obtain ⟨rfl, h₃⟩ := lengthPrefixed_append_inj h₂ hlen₁
    obtain ⟨hsignatures, h₄⟩ := (determines_field ShieldedAction.signature).flatMap hcount
      (length_lt_right (length_lt_right hlen₁)) h₃
    obtain ⟨rfl, h₅⟩ := ByteVec.append_inj h₄
    obtain rfl := actions_eq hactions hsignatures
    exact ⟨rfl, h₅⟩

namespace WireTransaction

/-- The first four bytes of a transaction. -/
def header : WireTransaction → Nat
  | .v1 .. => 1
  | .v2 .. => 2
  | .v3 .. => overwinter 3
  | .v4 .. => overwinter 4
  | .v5 .. => overwinter 5
  | .v6 .. => overwinter 6

theorem take_serialize (tx : WireTransaction) (rest : Bytes) :
    (tx.serialize ++ rest).take 4 = leBytes 4 tx.header := by
  cases tx <;> rfl

theorem header_eq_of_append {x y : WireTransaction} (h : x.serialize ++ s = y.serialize ++ t) :
    x.header = y.header := by
  have hlt (tx : WireTransaction) : tx.header < 256 ^ 4 := by
    cases tx <;> simp [header, overwinter]
  have hnat := congrArg (fun bytes => leNat (bytes.take 4)) h
  simpa only [take_serialize, leNat_leBytes 4 _ (hlt _)] using hnat

/-- No serialization of a normal transaction is the beginning of another. -/
theorem serialize_inj {x y : WireTransaction} (hx : x.Normal) (hy : y.Normal)
    (hlen : (x.serialize ++ s).length < 2 ^ 64) (h : x.serialize ++ s = y.serialize ++ t) :
    x = y ∧ s = t := by
  -- the first four bytes are of one version, which leaves the cases on the diagonal
  have hheader := header_eq_of_append h
  cases x with
  | v1 transparent lockTime =>
    cases y with
    | v1 transparent' lockTime' =>
      simp only [serialize, List.append_assoc] at h hlen
      obtain ⟨rfl, h₁⟩ := TransparentBundle.determines _ _ _ _ (length_lt_right hlen)
        (List.append_cancel_left h)
      obtain ⟨rfl, h₂⟩ := ByteVec.append_inj h₁
      exact ⟨rfl, h₂⟩
    | _ => simp [header, overwinter] at hheader
  | v2 transparent lockTime joinsplits =>
    cases y with
    | v2 transparent' lockTime' joinsplits' =>
      simp only [serialize, List.append_assoc] at h hlen
      have hlen₁ := length_lt_right hlen
      obtain ⟨rfl, h₁⟩ := TransparentBundle.determines _ _ _ _ hlen₁ (List.append_cancel_left h)
      obtain ⟨rfl, h₂⟩ := ByteVec.append_inj h₁
      have hlen₂ := length_lt_right (length_lt_right hlen₁)
      obtain ⟨rfl, h₃⟩ := JoinSplits.encode_inj (by decide) hx hy hlen₂ h₂
      exact ⟨rfl, h₃⟩
    | _ => simp [header, overwinter] at hheader
  | v3 transparent fields joinsplits =>
    cases y with
    | v3 transparent' fields' joinsplits' =>
      simp only [serialize, List.append_assoc] at h hlen
      have hlen₁ := length_lt_right (length_lt_right hlen)
      obtain ⟨rfl, h₁⟩ := TransparentBundle.determines _ _ _ _ hlen₁
        (List.append_cancel_left (List.append_cancel_left h))
      obtain ⟨rfl, h₂⟩ := ByteVec.append_inj h₁
      have hlen₂ := length_lt_right (length_lt_right hlen₁)
      obtain ⟨rfl, h₃⟩ := JoinSplits.encode_inj (by decide) hx hy hlen₂ h₂
      exact ⟨rfl, h₃⟩
    | _ => simp [header, overwinter] at hheader
  | v4 transparent fields sapling =>
    cases y with
    | v4 transparent' fields' sapling' =>
      simp only [serialize, List.append_assoc] at h hlen
      have hlen₁ := length_lt_right (length_lt_right hlen)
      obtain ⟨rfl, h₁⟩ := TransparentBundle.determines _ _ _ _ hlen₁
        (List.append_cancel_left (List.append_cancel_left h))
      obtain ⟨rfl, h₂⟩ := ByteVec.append_inj h₁
      have hlen₂ := length_lt_right (length_lt_right hlen₁)
      obtain ⟨rfl, h₃⟩ := SaplingV4.encode_inj hx hy hlen₂ h₂
      exact ⟨rfl, h₃⟩
    | _ => simp [header, overwinter] at hheader
  | v5 fields transparent sapling orchard =>
    cases y with
    | v5 fields' transparent' sapling' orchard' =>
      simp only [serialize, List.append_assoc] at h hlen
      obtain ⟨rfl, h₁⟩ := ByteVec.append_inj (List.append_cancel_left (List.append_cancel_left h))
      have hlen₁ := length_lt_right (length_lt_right (length_lt_right hlen))
      obtain ⟨rfl, h₂⟩ := TransparentBundle.determines _ _ _ _ hlen₁ h₁
      have hlen₂ := length_lt_right hlen₁
      obtain ⟨rfl, h₃⟩ := SaplingV5.encode_inj hx.1 hy.1 hlen₂ h₂
      obtain ⟨rfl, h₄⟩ := ActionBundle.encode_inj hx.2 hy.2 (length_lt_right hlen₂) h₃
      exact ⟨rfl, h₄⟩
    | _ => simp [header, overwinter] at hheader
  | v6 fields transparent sapling orchard ironwood =>
    cases y with
    | v6 fields' transparent' sapling' orchard' ironwood' =>
      simp only [serialize, List.append_assoc] at h hlen
      obtain ⟨rfl, h₁⟩ := ByteVec.append_inj (List.append_cancel_left (List.append_cancel_left h))
      have hlen₁ := length_lt_right (length_lt_right (length_lt_right hlen))
      obtain ⟨rfl, h₂⟩ := TransparentBundle.determines _ _ _ _ hlen₁ h₁
      have hlen₂ := length_lt_right hlen₁
      obtain ⟨rfl, h₃⟩ := SaplingV5.encode_inj hx.1 hy.1 hlen₂ h₂
      have hlen₃ := length_lt_right hlen₂
      obtain ⟨rfl, h₄⟩ := ActionBundle.encode_inj hx.2.1 hy.2.1 hlen₃ h₃
      obtain ⟨rfl, h₅⟩ := ActionBundle.encode_inj hx.2.2 hy.2.2 (length_lt_right hlen₃) h₄
      exact ⟨rfl, h₅⟩
    | _ => simp [header, overwinter] at hheader

end WireTransaction

/-! ## Accepted byte strings -/

/-- The parser accepts exactly the serializations of normal transactions that
    are not too large and whose outputs it can count. -/
theorem parseTransaction_eq_ok {bytes : Bytes} {txid : Hash} {index : U64}
    {compact : CompactTransaction} :
    parseTransaction bytes txid index = .ok compact ↔
      bytes.length ≤ maxTransactionBytes ∧ IsTransaction txid index compact bytes := by
  constructor
  · intro h
    simp only [parseTransaction, bind_eq_ok, ensure_eq_ok, pure_eq_ok, Prod.exists] at h
    obtain ⟨_, hmax, _, r, hparse, _, _, hfinish, hok⟩ := h
    cases hok
    obtain ⟨enc, hrest, -, htx⟩ := reads_transaction txid index _ _ _ hparse
    have hnil : r.rest = [] := by
      by_contra hne
      simp [finish, hne] at hfinish
    rw [hnil, List.append_nil] at hrest
    rw [← hrest] at htx
    exact ⟨hmax, htx⟩
  · rintro ⟨hmax, tx, _, hbytes, houtputs, hcompact⟩
    subst hbytes hcompact
    have hlt : (tx.serialize ++ []).length < 2 ^ 64 := by
      simp only [maxTransactionBytes, List.append_nil] at hmax ⊢
      omega
    have hparse := parses_transaction hmax houtputs txid index [] 0 (by omega)
    rw [List.append_nil] at hparse
    rw [parseTransaction, ensure_of _ hmax, ok_bind, hparse, ok_bind]
    rfl

/-- A byte string that goes on after a transaction is refused. -/
theorem parseTransaction_append_error {bytes rest : Bytes} {txid : Hash} {index : U64}
    {compact : CompactTransaction} (h : parseTransaction bytes txid index = .ok compact)
    (hrest : bytes ++ rest ≠ bytes) (txid' : Hash) (index' : U64) :
    ∃ e, parseTransaction (bytes ++ rest) txid' index' = .error e := by
  have hne : rest ≠ [] := fun hnil => hrest (by rw [hnil, List.append_nil])
  obtain ⟨hmax, tx, _, rfl, houtputs, -⟩ := parseTransaction_eq_ok.mp h
  by_cases hfits : (tx.serialize ++ rest).length ≤ maxTransactionBytes
  · have hlt : (tx.serialize ++ rest).length < 2 ^ 64 := by
      simp only [maxTransactionBytes] at hfits
      omega
    have hparse := parses_transaction hmax houtputs txid' index' rest 0 (by omega)
    refine ⟨.trailingBytes (0 + tx.serialize.length), ?_⟩
    rw [parseTransaction, ensure_of _ hfits, ok_bind, hparse, ok_bind]
    simp [finish, hne]
  · refine ⟨.tooLarge, ?_⟩
    rw [parseTransaction, ensure_of_not _ hfits]
    rfl

/-- The parser is sound: it accepts a byte string only if it is the serialization
    of exactly one transaction, whose shielded fields it gives, and then it
    accepts no other beginning and no continuation of it. -/
theorem parseTransaction_sound {bytes : Bytes} {txid : Hash} {index : U64}
    {compact : CompactTransaction} (h : parseTransaction bytes txid index = .ok compact) :
    bytes.length ≤ maxTransactionBytes ∧
      (∃ tx : WireTransaction, (tx.Normal ∧ tx.serialize = bytes) ∧
        compact = tx.compact txid index ∧
        ∀ tx' : WireTransaction, tx'.Normal ∧ tx'.serialize = bytes → tx' = tx) ∧
      (∀ bytes' : Bytes, bytes' <+: bytes → bytes' ≠ bytes →
        ∀ txid' index', ∃ e, parseTransaction bytes' txid' index' = .error e) ∧
      ∀ bytes' : Bytes, bytes <+: bytes' → bytes' ≠ bytes →
        ∀ txid' index', ∃ e, parseTransaction bytes' txid' index' = .error e := by
  obtain ⟨hmax, tx, hnormal, hbytes, houtputs, hcompact⟩ := parseTransaction_eq_ok.mp h
  refine ⟨hmax, ⟨tx, ⟨hnormal, hbytes.symm⟩, hcompact, ?_⟩, ?_, ?_⟩
  · rintro tx' ⟨hnormal', hbytes'⟩
    have hlt : (tx'.serialize ++ []).length < 2 ^ 64 := by
      rw [List.append_nil, hbytes']
      simp only [maxTransactionBytes] at hmax
      omega
    exact (WireTransaction.serialize_inj hnormal' hnormal hlt (by rw [hbytes', hbytes])).1
  · rintro bytes' ⟨rest, hrest⟩ hne txid' index'
    subst hrest
    cases hparse : parseTransaction bytes' txid' index' with
    | error e => exact ⟨e, rfl⟩
    | ok compact' =>
      -- the whole string would be a continuation of the accepted one
      obtain ⟨e, he⟩ := parseTransaction_append_error hparse hne.symm txid index
      rw [he] at h
      cases h
  · rintro bytes' ⟨rest, hrest⟩ hne txid' index'
    subst hrest
    exact parseTransaction_append_error h hne txid' index'

theorem oneOfEach_normal : oneOfEach.Normal := by
  simp [oneOfEach, WireTransaction.Normal, ActionBundle.Normal]
  constructor <;> simp

theorem oneOfEach_sound :
    (∀ tx : WireTransaction, tx.Normal → tx.serialize = oneOfEach.serialize → tx = oneOfEach) ∧
      (∃ e, parseTransaction oneOfEach.serialize.dropLast (.ofNat 32 40) 3 = .error e) ∧
      ∃ e, parseTransaction (oneOfEach.serialize ++ [0]) (.ofNat 32 40) 3 = .error e := by
  have hparse : parseTransaction oneOfEach.serialize (.ofNat 32 40) 3 =
      .ok (oneOfEach.compact (.ofNat 32 40) 3) :=
    parseTransaction_eq_ok.mpr
      ⟨oneOfEach_serialize_length_le, oneOfEach, oneOfEach_normal, rfl, by decide, rfl⟩
  obtain ⟨-, ⟨tx, -, -, hunique⟩, hbefore, hafter⟩ := parseTransaction_sound hparse
  have hpos : 0 < oneOfEach.serialize.length := by
    simp [oneOfEach, WireTransaction.serialize]
  refine ⟨?_, ?_, ?_⟩
  · intro tx' hnormal hbytes
    rw [hunique tx' ⟨hnormal, hbytes⟩, hunique oneOfEach ⟨oneOfEach_normal, rfl⟩]
  · refine hbefore _ (List.dropLast_prefix _) (fun h => ?_) _ _
    have := congrArg List.length h
    rw [List.length_dropLast] at this
    omega
  · exact hafter _ (List.prefix_append _ _) (by simp) _ _

end Ztreamer
