import Ztreamer.Chain.Plain
import Ztreamer.Sync.Poll

/-! # A poll of a moving chain

    The chain of the source can change between any two calls of the poll.

    * `MovingSource.pollCanonicalHead_spec`: what a poll gives whatever the source
      answers,
    * `poll_one_chain`: it was one chain, at one instant of the poll.
-/

namespace Ztreamer

open Octets Result

namespace MovingSource

/-! ## What a poll gives -/

/-- The blocks were read one after another, from `height` on, each linked to the one
    before it. -/
def ReadFrom (src : MovingSource) (height : Nat) (parent : Hash) : List RawIndexBlock → Prop
  | [] => True
  | block :: blocks =>
    (∃ time, (src time).block height = .ok (some block)) ∧
      headerPreviousHash block.bytes = some parent ∧ ReadFrom src (height + 1) block.hash blocks

variable {src : MovingSource} {start time time' : Nat} {previousHash : Hash}
  {known : List CompactBlockRecord}

variable {height : Nat} {raw : List RawIndexBlock} {expectedParent : Hash}

/-- The source answered each block that was read at its height. -/
theorem ReadFrom.getElem? {parent : Hash} (h : src.ReadFrom height parent raw) {i : Nat}
    {block : RawIndexBlock} (hi : raw[i]? = some block) :
    ∃ time, (src time).block (height + i) = .ok (some block) := by
  induction raw generalizing height parent i with
  | nil => simp at hi
  | cons first raw ih =>
    obtain ⟨hfirst, -, hrest⟩ := h
    cases i with
    | zero =>
      obtain rfl : first = block := by simpa using hi
      exact hfirst
    | succ i =>
      obtain ⟨time, hanswer⟩ := ih hrest (by simpa using hi)
      exact ⟨time, by rw [← hanswer]; congr 1; omega⟩

theorem checkAnchor_spec (h : src.checkAnchor start previousHash time = .ok time') :
    time ≤ time' ∧ (0 < start → (src time).blockHash (start - 1) = .ok (some previousHash)) := by
  unfold checkAnchor at h
  split at h
  case isFalse hzero =>
    cases h
    exact ⟨le_rfl, fun hpos => absurd hpos hzero⟩
  case isTrue =>
    simp only [CanonicalBlockSource.has, bind_eq_ok, ensure_eq_ok, pure_eq_ok, Except.ok.injEq] at h
    obtain ⟨_, ⟨hash, hhash, rfl⟩, -, hsame, rfl⟩ := h
    obtain rfl := of_decide_eq_true hsame
    exact ⟨Nat.le_succ time, fun _ => hhash⟩

theorem canonicalCount_spec {count : Nat} (h : src.canonicalCount known time = .ok (count, time')) :
    count ≤ known.length ∧ time ≤ time' := by
  unfold canonicalCount at h
  cases hlast : known.getLast? with
  | none =>
    rw [hlast] at h
    cases h
    exact ⟨Nat.zero_le _, le_rfl⟩
  | some last =>
    rw [hlast] at h
    obtain ⟨found, -, h⟩ := bind_eq_ok.mp h
    cases found with
    | true =>
      cases h
      exact ⟨le_rfl, Nat.le_succ _⟩
    | false =>
      have := Bisect.firstFalseAt_le (Nat.zero_le _) h
      omega

/-- A read ends at a height without a block, or has read one more block. -/
theorem readBlocks_cases (h : src.readBlocks start height expectedParent time = .ok (raw, time')) :
    (raw = [] ∧ time' = time + 1) ∨
      ∃ block rest, raw = block :: rest ∧ (src time).block height = .ok (some block) ∧
        headerPreviousHash block.bytes = some expectedParent ∧
        src.readBlocks start (height + 1) block.hash (time + 1) = .ok (rest, time') := by
  rw [readBlocks] at h
  cases hblock : (src time).block height with
  | error =>
    rw [hblock] at h
    cases h
  | ok block =>
    cases block with
    | none =>
      rw [hblock] at h
      cases h
      exact .inl ⟨rfl, rfl⟩
    | some block =>
      rw [hblock] at h
      simp only at h
      split at h
      · cases h
      cases hparent : headerPreviousHash block.bytes with
      | none =>
        rw [hparent] at h
        cases h
      | some parent =>
        simp only [hparent] at h
        split at h
        · cases h
        case isFalse hsame =>
          split at h
          case isFalse => cases h
          case isTrue =>
            obtain ⟨⟨rest, t⟩, hrest, h⟩ := bind_eq_ok.mp h
            cases h
            exact .inr ⟨block, rest, rfl, rfl, by rw [hparent, not_not.mp hsame], hrest⟩

theorem readBlocks_of_none (expectedParent : Hash) (hblock : (src time).block height = .ok none) :
    src.readBlocks start height expectedParent time = .ok ([], time + 1) := by
  rw [readBlocks, hblock]

theorem readBlocks_of_some {block : RawIndexBlock} {rest : List RawIndexBlock}
    (hblock : (src time).block height = .ok (some block))
    (hwindow : height - start ≠ maxBlockReorgHeight)
    (hparent : headerPreviousHash block.bytes = some expectedParent) (hlt : height + 1 < 2 ^ 32)
    (hrest : src.readBlocks start (height + 1) block.hash (time + 1) = .ok (rest, time')) :
    src.readBlocks start height expectedParent time = .ok (block :: rest, time') := by
  rw [readBlocks, hblock]
  simp only [if_neg hwindow, hparent, ne_eq, not_true_eq_false, if_false, if_pos hlt, hrest,
    ok_bind]
  rfl

theorem readBlocks_spec (h : src.readBlocks start height expectedParent time = .ok (raw, time')) :
    time < time' ∧ src.ReadFrom height expectedParent raw := by
  induction raw generalizing height expectedParent time with
  | nil =>
    rcases readBlocks_cases h with ⟨-, rfl⟩ | ⟨_, _, hraw, -⟩
    · exact ⟨Nat.lt_succ_self _, trivial⟩
    · cases hraw
  | cons block raw ih =>
    rcases readBlocks_cases h with ⟨hraw, -⟩ | ⟨_, _, hraw, hblock, hparent, hrest⟩
    · cases hraw
    · cases hraw
      obtain ⟨hlt, hread⟩ := ih hrest
      exact ⟨by omega, ⟨time, hblock⟩, hparent, hread⟩

theorem checkStable_spec {last : Option BlockId} (h : src.checkStable last time = .ok time') :
    time ≤ time' ∧ ∀ block ∈ last, time' - 1 = time ∧
      (src time).blockHash block.height = .ok (some block.hash) := by
  cases last with
  | none =>
    cases h
    exact ⟨le_rfl, by simp⟩
  | some last =>
    simp only [checkStable, CanonicalBlockSource.has, bind_eq_ok, ensure_eq_ok, pure_eq_ok,
      Except.ok.injEq] at h
    obtain ⟨_, ⟨hash, hhash, rfl⟩, -, hsame, rfl⟩ := h
    obtain rfl := of_decide_eq_true hsame
    refine ⟨Nat.le_succ time, ?_⟩
    intro block hblock
    obtain rfl := Option.some.inj hblock
    exact ⟨rfl, hhash⟩

/-- What a poll gives whatever the source answers: some of the known blocks, linked
    one after another, then blocks that were read and are linked to them. -/
theorem pollCanonicalHead_spec {suffix : CanonicalSuffix}
    (h : src.pollCanonicalHead start previousHash known time = .ok (suffix, time')) :
    ∃ (count height : Nat) (raw : List RawIndexBlock),
      suffix.retained =
        ((linkedPrefix start previousHash known).take count).getLast?.map (·.blockId) ∧
      count ≤ (linkedPrefix start previousHash known).length ∧
      readStart start suffix.retained = .ok height ∧
      src.ReadFrom height (suffix.retained.elim previousHash (·.hash)) raw ∧
      raw.mapM parseBlock = .ok suffix.blocks ∧ time < time' ∧
      (0 < start → (src time).blockHash (start - 1) = .ok (some previousHash)) ∧
      ∀ last ∈ (raw.getLast?.map (·.blockId)).or suffix.retained,
        (src (time' - 1)).blockHash last.height = .ok (some last.hash) := by
  simp only [pollCanonicalHead, bind_eq_ok, Prod.exists, pure_eq_ok, Except.ok.injEq,
    Prod.mk.injEq] at h
  obtain ⟨t₁, hanchor, count, t₂, hcount, height, hheight, raw, t₃, hread, t₄, hstable, blocks,
    hparse, rfl, rfl⟩ := h
  obtain ⟨hle₁, hanchor⟩ := checkAnchor_spec hanchor
  obtain ⟨hcount, hle₂⟩ := canonicalCount_spec hcount
  obtain ⟨hlt, hread⟩ := readBlocks_spec hread
  refine ⟨count, height, raw, rfl, hcount, hheight, hread, ?_, ?_, hanchor, ?_⟩
  · rw [mapM_eq_ok] at hparse ⊢
    exact hparse.imp fun _ _ hblock => okMapError_eq_ok.mp hblock
  · have := (checkStable_spec hstable).1
    omega
  · intro last hlast
    obtain ⟨htime, hhash⟩ := (checkStable_spec hstable).2 last hlast
    rw [htime]
    exact hhash

end MovingSource

/-! ## One chain -/

def ParsedCompactBlock.recordId (b : ParsedCompactBlock) : RecordId :=
  ⟨b.height, b.hash, b.previousHash⟩

/-- The blocks have the heights from `height` on, and each links to the one before it,
    the first to `parent`. -/
def LinkedFrom (height : Nat) (parent : Hash) : List RecordId → Prop
  | [] => True
  | id :: ids =>
    id.height.val = height ∧ id.previousHash = parent ∧ LinkedFrom (height + 1) id.hash ids

variable {height : Nat} {parent : Hash} {ids : List RecordId}

theorem linkedFrom_append {as bs : List RecordId} :
    LinkedFrom height parent (as ++ bs) ↔ LinkedFrom height parent as ∧
      LinkedFrom (height + as.length) (as.getLast?.elim parent (·.hash)) bs := by
  induction as generalizing height parent with
  | nil => simp [LinkedFrom]
  | cons id as ih =>
    have hlast : (id :: as).getLast?.elim parent (·.hash) =
        as.getLast?.elim id.hash (·.hash) := by
      cases as with
      | nil => rfl
      | cons a as =>
        rw [List.getLast?_cons_cons, List.getLast?_eq_some_getLast (List.cons_ne_nil a as)]
        rfl
    have hlen : height + (id :: as).length = height + 1 + as.length := by
      rw [List.length_cons]
      omega
    rw [List.cons_append, LinkedFrom, LinkedFrom, ih, hlast, hlen]
    tauto

theorem LinkedFrom.height_eq (h : LinkedFrom height parent ids) {i : Nat} {id : RecordId}
    (hi : ids[i]? = some id) : id.height.val = height + i := by
  induction ids generalizing height parent i with
  | nil => simp at hi
  | cons a ids ih =>
    cases i with
    | zero =>
      obtain rfl : a = id := by simpa using hi
      exact h.1
    | succ i =>
      have := ih h.2.2 (by simpa using hi)
      omega

theorem linkedPrefix_linkedFrom (height : Nat) (parent : Hash) (known : List CompactBlockRecord) :
    LinkedFrom height parent ((linkedPrefix height parent known).map (·.recordId)) ∧
      linkedPrefix height parent known = known.take (linkedPrefix height parent known).length := by
  induction known generalizing height parent with
  | nil => exact ⟨trivial, rfl⟩
  | cons block known ih =>
    rw [linkedPrefix]
    split
    case isFalse => exact ⟨trivial, rfl⟩
    case isTrue hlinked =>
      obtain ⟨hrest, htake⟩ := ih (height + 1) block.hash
      refine ⟨⟨hlinked.1, hlinked.2, hrest⟩, ?_⟩
      rw [List.length_cons, List.take_succ_cons, ← htake]

/-- The chains of a moving source, one for each call. The source answers from its
    chain or fails, and a hash determines a block. -/
structure MovingSource.Moves (src : MovingSource) (chains : Nat → List RawIndexBlock) : Prop where
  chain : ∀ time, RawChain (chains time)
  block : ∀ (time height : Nat) (answer : Option RawIndexBlock),
    (src time).block height = .ok answer → answer = (chains time)[height]?
  blockHash : ∀ (time height : Nat) (answer : Option Hash),
    (src time).blockHash height = .ok answer → answer = (chains time)[height]?.map (·.hash)
  noCollision : ∀ time time', NoCollision (chains time) (chains time')

/-- The block of the chain with the hash of `id`, if there is one, has its parent. -/
def RecordId.HasParentIn (id : RecordId) (blocks : List RawIndexBlock) : Prop :=
  ∀ b ∈ blocks, b.hash = id.hash → headerPreviousHash b.bytes = some id.previousHash

def RecordId.blockId (id : RecordId) : BlockId := ⟨id.height.val, id.hash⟩

/-- A chain with the last of linked blocks has all of them, and the block below. -/
theorem RawChain.onChain_of_last {blocks : List RawIndexBlock} (hchain : RawChain blocks)
    (hlinked : LinkedFrom height parent ids) (hparents : ∀ id ∈ ids, id.HasParentIn blocks)
    {last : RecordId} (hlast : ids.getLast? = some last) (hon : OnChain blocks last.blockId) :
    (∀ id ∈ ids, OnChain blocks id.blockId) ∧
      (0 < height → OnChain blocks ⟨height - 1, parent⟩) := by
  -- the parent of a block of the chain is on the chain
  have hbelow : ∀ {id : RecordId} {h : Nat}, id.HasParentIn blocks → id.height.val = h + 1 →
      OnChain blocks id.blockId → OnChain blocks ⟨h, id.previousHash⟩ := by
    intro id h hparent hheight hid
    obtain ⟨b, hb, hhash⟩ := onChain_iff.mp hid
    rw [RecordId.blockId, hheight] at hb
    have hlt : h + 1 < blocks.length := (List.getElem?_eq_some_iff.mp hb).1
    have hprevious := hchain.parent _ b hb
    rw [hparent b (List.mem_of_getElem? hb) hhash] at hprevious
    rw [Option.some.inj hprevious]
    exact onChain_tipHash (Nat.succ_pos h) (by omega)
  induction ids generalizing height parent with
  | nil => cases hlast
  | cons id ids ih =>
    obtain ⟨hheight, hparent, hrest⟩ := hlinked
    have hid : OnChain blocks id.blockId ∧ ∀ id' ∈ ids, OnChain blocks id'.blockId := by
      cases hids : ids with
      | nil =>
        rw [hids] at hlast
        obtain rfl : id = last := by simpa using hlast
        exact ⟨hon, by simp⟩
      | cons next ids' =>
        have hlast' : ids.getLast? = some last := by
          rw [hids] at hlast ⊢
          rw [← hlast, List.getLast?_cons_cons]
        obtain ⟨hall, hdown⟩ := ih hrest (fun id' hid' =>
          hparents id' (List.mem_cons_of_mem _ hid'))
          hlast'
        rw [← hids]
        refine ⟨?_, hall⟩
        have hon := hdown (Nat.succ_pos height)
        rw [Nat.add_sub_cancel, ← hheight] at hon
        exact hon
    refine ⟨?_, ?_⟩
    · intro id' hid'
      rcases List.mem_cons.mp hid' with rfl | hid'
      · exact hid.1
      · exact hid.2 id' hid'
    · intro hpos
      rw [← hparent]
      exact hbelow (hparents id List.mem_cons_self) (by omega) hid.1

section

variable {src : MovingSource} {chains : Nat → List RawIndexBlock}

variable {height : Nat} {raw : List RawIndexBlock} {parsed : List ParsedCompactBlock}
  {known : List CompactBlockRecord}

/-- The blocks that a poll reads are linked, and each was on the chain when it was read. -/
theorem MovingSource.Moves.linkedFrom (h : src.Moves chains) {parent : Hash}
    (hread : src.ReadFrom height parent raw)
    (hparse : List.Forall₂ (fun b p => parseBlock b = .ok p) raw parsed) :
    LinkedFrom height parent (parsed.map (·.recordId)) ∧
      ∀ b ∈ raw, ∃ time, b ∈ chains time := by
  induction hparse generalizing height parent with
  | nil => exact ⟨trivial, by simp⟩
  | @cons b p raw parsed hp _ ih =>
    obtain ⟨⟨time, hblock⟩, hparent, hrest⟩ := hread
    have hb := (h.block time height _ hblock).symm
    obtain ⟨hheight, hhash, hprevious, -⟩ := parseBlock_spec hp
    obtain ⟨hlinked, hmem⟩ := ih hrest
    have hsame : p.previousHash = parent := Option.some.inj (hprevious.symm.trans hparent)
    refine ⟨⟨?_, hsame, ?_⟩, ?_⟩
    · show p.height.val = height
      rw [hheight, (h.chain time).height height b hb]
    · show LinkedFrom (height + 1) p.hash _
      rw [hhash]
      exact hlinked
    · intro b' hb'
      rcases List.mem_cons.mp hb' with rfl | hb'
      · exact ⟨time, List.mem_of_getElem? hb⟩
      · exact hmem b' hb'

/-- The known blocks through the retained one, and the height and the parent of the
    first block that is read. -/
theorem linkedPrefix_take {start count : Nat} {previousHash : Hash} {retained : Option BlockId}
    (hretained : retained =
      ((linkedPrefix start previousHash known).take count).getLast?.map (·.blockId))
    (hcount : count ≤ (linkedPrefix start previousHash known).length)
    (hheight : readStart start retained = .ok height) :
    (linkedPrefix start previousHash known).take count = known.take count ∧
      LinkedFrom start previousHash ((known.take count).map (·.recordId)) ∧
      height = start + (known.take count).length ∧
      retained.elim previousHash (·.hash) =
        ((known.take count).map (·.recordId)).getLast?.elim previousHash (·.hash) := by
  obtain ⟨hlinked, htake⟩ := linkedPrefix_linkedFrom start previousHash known
  have hkept : (linkedPrefix start previousHash known).take count = known.take count := by
    rw [htake, List.take_take, Nat.min_eq_left hcount]
  have hlinked' : LinkedFrom start previousHash ((known.take count).map (·.recordId)) := by
    rw [← List.take_append_drop count (linkedPrefix start previousHash known), List.map_append,
      linkedFrom_append, hkept] at hlinked
    exact hlinked.1
  refine ⟨hkept, hlinked', ?_⟩
  rw [hkept] at hretained
  cases hlast : (known.take count).getLast? with
  | none =>
    rw [hlast] at hretained
    rw [hretained] at hheight
    cases hheight
    rw [List.getLast?_eq_none_iff] at hlast
    rw [hretained, hlast]
    exact ⟨rfl, rfl⟩
  | some last =>
    rw [hlast] at hretained
    rw [hretained, Option.map_some] at hheight
    unfold readStart at hheight
    simp only at hheight
    split at hheight
    case isFalse => cases hheight
    case isTrue =>
      cases hheight
      rw [List.getLast?_map, hlast, hretained]
      refine ⟨?_, rfl⟩
      have hget := hlast
      rw [List.getLast?_eq_getElem?] at hget
      have hlt := (List.getElem?_eq_some_iff.mp hget).1
      have hheight := hlinked'.height_eq (i := (known.take count).length - 1)
        (by rw [List.getElem?_map, hget]; rfl)
      simp only [CompactBlockRecord.blockId, CompactBlockRecord.recordId] at hheight ⊢
      omega

/-- The last block of a poll, as the poll checks it. -/
theorem getLast?_recordIds (hparse : List.Forall₂ (fun b p => parseBlock b = .ok p) raw parsed)
    {last : RecordId}
    (hlast : (known.map (·.recordId) ++ parsed.map (·.recordId)).getLast? = some last) :
    (raw.getLast?.map (·.blockId)).or (known.getLast?.map (·.blockId)) = some last.blockId := by
  rw [List.getLast?_append, List.getLast?_map, List.getLast?_map] at hlast
  cases hraw : raw.getLast? with
  | none =>
    obtain rfl := List.getLast?_eq_none_iff.mp hraw
    cases hparse
    cases hknown : known.getLast? with
    | none =>
      rw [hknown] at hlast
      cases hlast
    | some r =>
      rw [hknown] at hlast
      cases hlast
      rfl
  | some b =>
    have hb := hraw
    rw [List.getLast?_eq_getElem?] at hb
    obtain ⟨p, hp, hbp⟩ := forall₂_getElem? hparse hb
    rw [hparse.length_eq, ← List.getLast?_eq_getElem?] at hp
    rw [hp] at hlast
    cases hlast
    obtain ⟨hheight, hhash, -⟩ := parseBlock_spec hbp
    simp only [Option.map_some, Option.some_or, RawIndexBlock.blockId, RecordId.blockId,
      ParsedCompactBlock.recordId, hheight, hhash]

/-- A poll of a moving chain gives one chain: the known blocks through the retained
    one and the blocks after it are linked from the anchor on, and at one instant
    of the poll the chain of the source had the anchor and all of them. -/
theorem poll_one_chain (hmoves : src.Moves chains) (start time time' : Nat) (previousHash : Hash)
    (known : List CompactBlockRecord) (suffix : CanonicalSuffix)
    (hknown : ∀ r ∈ known, ∀ t, r.recordId.HasParentIn (chains t))
    (h : src.pollCanonicalHead start previousHash known time = .ok (suffix, time')) :
    ∃ count ≤ known.length,
      suffix.retained = (known.take count).getLast?.map (·.blockId) ∧
      LinkedFrom start previousHash
        ((known.take count).map (·.recordId) ++ suffix.blocks.map (·.recordId)) ∧
      ∃ instant, time ≤ instant ∧ instant < time' ∧
        (0 < start → OnChain (chains instant) ⟨start - 1, previousHash⟩) ∧
        (∀ r ∈ known.take count, OnChain (chains instant) r.blockId) ∧
        ∀ p ∈ suffix.blocks, ∃ b, (chains instant)[p.height.val]? = some b ∧
          parseBlock b = .ok p := by
  obtain ⟨count, height, raw, hretained, hcount, hheight, hread, hparse, hlt, hanchor, hstable⟩ :=
    MovingSource.pollCanonicalHead_spec h
  rw [mapM_eq_ok] at hparse
  have hle : (linkedPrefix start previousHash known).length ≤ known.length := by
    rw [(linkedPrefix_linkedFrom start previousHash known).2, List.length_take]
    omega
  obtain ⟨hkept, hlinked, rfl, hparent⟩ := linkedPrefix_take hretained hcount hheight
  rw [hkept] at hretained
  rw [hparent] at hread
  obtain ⟨hlinkedBlocks, hmem⟩ := hmoves.linkedFrom hread hparse
  have hids : LinkedFrom start previousHash
      ((known.take count).map (·.recordId) ++ suffix.blocks.map (·.recordId)) := by
    rw [linkedFrom_append, List.length_map]
    exact ⟨hlinked, hlinkedBlocks⟩
  refine ⟨count, by omega, hretained, hids, ?_⟩
  -- the block that a parsed block comes from, on the chain of the call that read it
  have hfrom : ∀ p ∈ suffix.blocks, ∃ b t, b ∈ chains t ∧ parseBlock b = .ok p ∧ b.hash = p.hash ∧
      headerPreviousHash b.bytes = some p.previousHash := by
    intro p hp
    obtain ⟨i, hi⟩ := List.mem_iff_getElem?.mp hp
    obtain ⟨b, hb, hbp⟩ := forall₂_getElem? hparse.flip hi
    obtain ⟨t, ht⟩ := hmem b (List.mem_of_getElem? hb)
    obtain ⟨-, hhash, hprevious, -⟩ := parseBlock_spec hbp
    exact ⟨b, t, ht, hbp, hhash.symm, hprevious⟩
  have hparents : ∀ t, ∀ id ∈ (known.take count).map (·.recordId) ++ suffix.blocks.map (·.recordId),
      id.HasParentIn (chains t) := by
    intro t id hid
    rcases List.mem_append.mp hid with hid | hid
    · obtain ⟨r, hr, rfl⟩ := List.mem_map.mp hid
      exact hknown r (List.mem_of_mem_take hr) t
    · obtain ⟨p, hp, rfl⟩ := List.mem_map.mp hid
      obtain ⟨b, t', hb, -, hhash, hprevious⟩ := hfrom p hp
      intro b' hb' hhash'
      rw [hmoves.noCollision t t' b' hb' b hb (hhash'.trans hhash.symm)]
      exact hprevious
  have hon : ∀ {t : Nat} {block : BlockId},
      (src t).blockHash block.height = .ok (some block.hash) → OnChain (chains t) block := by
    intro t block hhash
    exact (hmoves.blockHash t _ _ hhash).symm
  cases hlast : ((known.take count).map (·.recordId) ++
    suffix.blocks.map (·.recordId)).getLast? with
  | none =>
    -- the poll gives nothing, and the anchor was on the chain of its first call
    obtain ⟨hnoKnown, hnoBlocks⟩ := List.append_eq_nil_iff.mp (List.getLast?_eq_none_iff.mp hlast)
    rw [List.map_eq_nil_iff.mp hnoKnown, List.map_eq_nil_iff.mp hnoBlocks]
    exact ⟨time, le_rfl, hlt, fun hpos => hon (hanchor hpos), by simp, by simp⟩
  | some last =>
    have hid : last.blockId ∈ (raw.getLast?.map (·.blockId)).or suffix.retained := by
      rw [hretained]
      exact getLast?_recordIds hparse hlast
    obtain ⟨hall, hdown⟩ := (hmoves.chain (time' - 1)).onChain_of_last hids (hparents _) hlast
      (hon (hstable _ hid))
    refine ⟨time' - 1, by omega, by omega, hdown, ?_, ?_⟩
    · intro r hr
      exact hall r.recordId (List.mem_append_left _ (List.mem_map_of_mem hr))
    · intro p hp
      obtain ⟨b, t, hb, hparsed, hhash, -⟩ := hfrom p hp
      obtain ⟨b', hb', hhash'⟩ := onChain_iff.mp
        (hall p.recordId (List.mem_append_right _ (List.mem_map_of_mem hp)))
      refine ⟨b', hb', ?_⟩
      rw [hmoves.noCollision _ t b' (List.mem_of_getElem? hb') b hb (hhash'.trans hhash.symm)]
      exact hparsed

end

/-- A chain that leaves a branch at height 2, and grows, after the first call. -/
def movingChain (time : Nat) : List RawIndexBlock :=
  plainBlocks (if time = 0 then 2 else 100) (if time = 0 then 3 else 4)

theorem movingChain_moves :
    MovingSource.Moves (fun time => .ofBlocks (movingChain time)) movingChain where
  chain time := branchBlocks_rawChain (by split <;> decide)
  block _ _ _ h := (Except.ok.inj h).symm
  blockHash _ _ _ h := (Except.ok.inj h).symm
  noCollision _ _ := branchBlocks_noCollision (by split <;> decide) (by split <;> decide)

/-- The blocks that are known: one of both branches, and one of the old branch. -/
def movingKnown : List CompactBlockRecord := [plainRecord 100 1, plainRecord 2 2]

theorem plainRecord_hasParentIn {fork height fork' n : Nat} (hheight : height < 2 ^ 32)
    (hn : n ≤ 2 ^ 32) : (plainRecord fork height).recordId.HasParentIn (plainBlocks fork' n) := by
  intro b hb hhash
  obtain ⟨i, hi⟩ := List.mem_iff_getElem?.mp hb
  obtain ⟨hlt, rfl⟩ := branchBlocks_getElem?.mp hi
  rw [branchRaw_eq_of_hash (by omega) hheight hhash, branchRaw, blockBytes,
    headerPreviousHash_encode]
  rfl

/-- A poll with an anchor that finds one of two known blocks on the new branch, and reads
    the two blocks after it. -/
theorem poll_one_chain_growing : ∃ (suffix : CanonicalSuffix) (count instant : Nat),
    MovingSource.pollCanonicalHead (fun time => .ofBlocks (movingChain time)) 1
      (plainHash 100 0) movingKnown 0 = .ok (suffix, 7) ∧
    suffix.retained = some ⟨1, plainHash 100 1⟩ ∧ suffix.blocks.length = 2 ∧
    LinkedFrom 1 (plainHash 100 0)
      ((movingKnown.take count).map (·.recordId) ++ suffix.blocks.map (·.recordId)) ∧
    instant < 7 ∧ OnChain (movingChain instant) ⟨0, plainHash 100 0⟩ ∧
    (∀ r ∈ movingKnown.take count, OnChain (movingChain instant) r.blockId) ∧
    ∀ p ∈ suffix.blocks, ∃ b, (movingChain instant)[p.height.val]? = some b ∧
      parseBlock b = .ok p := by
  have hhas : ∀ time (block : BlockId), (CanonicalBlockSource.ofBlocks (movingChain time)).has
    block =
      .ok (decide (OnChain (movingChain time) block)) := fun time block =>
    (CanonicalBlockSource.ofBlocks_serves (movingChain time)).has block
  have hpoll : MovingSource.pollCanonicalHead (fun time => .ofBlocks (movingChain time)) 1
      (plainHash 100 0) movingKnown 0 =
        .ok (⟨some ⟨1, plainHash 100 1⟩, [plainParsed 100 2, plainParsed 100 3]⟩, 7) := by
    -- the seven calls: the anchor, two known blocks, three reads, the last block again
    have hanchor : MovingSource.checkAnchor (fun time => .ofBlocks (movingChain time)) 1
        (plainHash 100 0) 0 = .ok 1 := by
      have hon : OnChain (movingChain 0) ⟨0, plainHash 100 0⟩ := rfl
      rw [MovingSource.checkAnchor, if_pos Nat.one_pos, hhas, decide_eq_true hon]
      rfl
    have hlinked : linkedPrefix 1 (plainHash 100 0) movingKnown = movingKnown := rfl
    have hcount : MovingSource.canonicalCount (fun time => .ofBlocks (movingChain time))
        movingKnown 1 = .ok (1, 3) := by
      have hold : ¬ OnChain (movingChain 1) (plainRecord 2 2).blockId := by decide
      have hnew : OnChain (movingChain 2) (plainRecord 100 1).blockId := rfl
      simp only [MovingSource.canonicalCount, movingKnown, List.getLast?_cons_cons,
        List.getLast?_singleton, hhas, decide_eq_false hold, ok_bind]
      rw [if_neg Bool.false_ne_true, Bisect.firstFalseAt, if_pos (by decide)]
      simp only [List.length_cons, List.length_nil, Nat.reduceAdd, Nat.reduceSub, Nat.reduceDiv,
        List.getElem?_cons_zero, decide_eq_true hnew, ok_bind]
      rw [if_pos trivial, Bisect.firstFalseAt, if_neg (by decide)]
      rfl
    have hread : MovingSource.readBlocks (fun time => .ofBlocks (movingChain time)) 1 2
        (plainHash 100 1) 3 = .ok ([plainRaw 100 2, plainRaw 100 3], 6) := by
      refine MovingSource.readBlocks_of_some rfl (by decide) (headerPreviousHash_encode _ _)
        (by decide) ?_
      refine MovingSource.readBlocks_of_some rfl (by decide) (headerPreviousHash_encode _ _)
        (by decide) ?_
      exact MovingSource.readBlocks_of_none _ rfl
    have hparse : [plainRaw 100 2, plainRaw 100 3].mapM
        (fun block => okMapError (parseBlock block) HeadError.parse) =
          .ok [plainParsed 100 2, plainParsed 100 3] := by
      simp only [List.mapM_cons, List.mapM_nil, parseBlock_plainRaw]
      rfl
    have hstable : MovingSource.checkStable (fun time => .ofBlocks (movingChain time))
        (some (plainRaw 100 3).blockId) 6 = .ok 7 := by
      have hon : OnChain (movingChain 6) (plainRaw 100 3).blockId := rfl
      rw [MovingSource.checkStable, hhas, decide_eq_true hon]
      rfl
    have hretained : (movingKnown.take 1).getLast?.map (·.blockId) =
      some ⟨1, plainHash 100 1⟩ := rfl
    have hstart : readStart 1 (some ⟨1, plainHash 100 1⟩) = .ok 2 := rfl
    simp only [MovingSource.pollCanonicalHead, hanchor, ok_bind, hlinked, hcount, hretained, hstart,
      Option.elim_some, hread]
    rw [show ([plainRaw 100 2, plainRaw 100 3].getLast?.map (·.blockId)).or
      (some ⟨1, plainHash 100 1⟩) = some (plainRaw 100 3).blockId from rfl, hstable, ok_bind,
      hparse,
      ok_bind]
    rfl
  have hknown : ∀ r ∈ movingKnown, ∀ t, r.recordId.HasParentIn (movingChain t) := by
    intro r hr t
    rcases List.mem_pair.mp hr with rfl | rfl
    · exact plainRecord_hasParentIn (by decide) (by split <;> decide)
    · exact plainRecord_hasParentIn (by decide) (by split <;> decide)
  obtain ⟨count, -, -, hlinked, instant, -, hlt, hanchor, hkept, hblocks⟩ :=
    poll_one_chain movingChain_moves 1 0 7 (plainHash 100 0) movingKnown _ hknown hpoll
  exact ⟨_, count, instant, hpoll, rfl, rfl, hlinked, hlt, hanchor Nat.one_pos, hkept, hblocks⟩

end Ztreamer
