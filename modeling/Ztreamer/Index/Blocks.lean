import Ztreamer.Index.Coverage

/-! # Blocks of a node

    Every block that a node ever had, and the chains of them. A block hash
    determines its block, so a block determines its ancestors.
-/

namespace Ztreamer

open Octets Connected

/-! ## Chains of blocks -/

/-- A chain of blocks of the node, where `Blocks` are all blocks it ever had. -/
structure NodeBlocks (Blocks : CompactBlockRecord → Prop) (chain : List CompactBlockRecord) :
    Prop where
  connected : Connected .any chain
  blocks : ∀ r ∈ chain, Blocks r

section

variable {Blocks : CompactBlockRecord → Prop}

variable {chain : List CompactBlockRecord}

theorem NodeBlocks.take (h : NodeBlocks Blocks chain) (n : Nat) :
    NodeBlocks Blocks (chain.take n) :=
  ⟨h.connected.take n, fun r hr => h.blocks r (List.mem_of_mem_take hr)⟩

/-- The blocks below the last one, which links to the end of them. -/
theorem NodeBlocks.of_concat {a : CompactBlockRecord} (h : NodeBlocks Blocks (chain ++ [a])) :
    NodeBlocks Blocks chain ∧ (chain ≠ [] → chain.getLast?.map (·.hash) = some a.previousHash) := by
  constructor
  · have htake := h.take chain.length
    rw [List.take_left] at htake
    exact htake
  · intro hne
    have hlast := List.getLast?_eq_some_getLast hne
    rw [hlast, Option.map_some, h.connected.extends_of_append.link _ hlast a rfl]

/-- A block determines its ancestors. -/
theorem NodeBlocks.eq_of_last
    (hdetermined : ∀ r r', Blocks r → Blocks r' → r.hash = r'.hash → r = r')
    {chain' : List CompactBlockRecord} (h : NodeBlocks Blocks chain) (h' : NodeBlocks Blocks chain')
    (hlength : chain.length = chain'.length)
    (hlast : chain.getLast?.map (·.hash) = chain'.getLast?.map (·.hash)) : chain = chain' := by
  induction chain using List.reverseRecOn generalizing chain' with
  | nil => exact (List.eq_nil_of_length_eq_zero hlength.symm).symm
  | append_singleton chain a ih =>
    obtain rfl | ⟨chain', b, rfl⟩ := chain'.eq_nil_or_concat
    · simp at hlength
    rw [List.concat_eq_append] at *
    rw [List.getLast?_concat, List.getLast?_concat] at hlast
    obtain rfl : a = b := hdetermined a b (h.blocks a (by simp)) (h'.blocks b (by simp))
      (Option.some.inj hlast)
    simp only [List.length_append, List.length_singleton, Nat.add_right_cancel_iff] at hlength
    obtain ⟨hbelow, hlink⟩ := h.of_concat
    obtain ⟨hbelow', hlink'⟩ := h'.of_concat
    by_cases hnil : chain = []
    · subst hnil
      rw [List.eq_nil_of_length_eq_zero hlength.symm]
    · have hnil' : chain' ≠ [] := by
        rintro rfl
        exact hnil (List.eq_nil_of_length_eq_zero hlength)
      rw [ih hbelow hbelow' hlength ((hlink hnil).trans (hlink' hnil').symm)]

end

end Ztreamer
