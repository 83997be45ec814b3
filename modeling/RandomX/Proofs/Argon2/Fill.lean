import RandomX.Argon2.Memory

/-!
# Filled memory

The first pass reads only blocks that it has written before, and writes all of them. So the fill depends on the key
alone, and not on what the memory held.
-/
namespace RandomX.Argon2

variable {key : ByteArray} {memory memory' : Array Block} {i n pass : Nat}

/-! ## Sizes -/

theorem size_fillFrom (pass n i : Nat) (memory : Array Block) : (fillFrom pass n i memory).size = memory.size := by
  induction n generalizing i memory with
  | zero => rfl
  | succ n ih => rw [fillFrom, ih, Array.size_setIfInBounds]

theorem size_of_fill (h : fill key memory = .ok memory') : memory'.size = memory.size := by
  rw [fill] at h
  split at h
  · cases h
  · rw [← Except.ok.inj h]
    simp only [size_fillFrom, Array.size_setIfInBounds]

theorem fill_ok (key : ByteArray) (h : cacheBlocks ≤ memory.size) : ∃ memory', fill key memory = .ok memory' := by
  rw [fill, if_neg (Nat.not_lt.mpr h)]
  exact ⟨_, rfl⟩

/-! ## The first pass -/

/-- In the first pass the block that is mixed in lies before the one that is written. -/
theorem referenceIndex_lt (hi : 2 ≤ i) (random : UInt64) : referenceIndex 0 i random < i := by
  have hmod (m : Nat) : m % cacheBlocks ≤ m := Nat.mod_le m cacheBlocks
  simp only [referenceIndex, if_true, true_or]
  refine Nat.lt_of_le_of_lt (hmod _) ?_
  omega

/-- The two memories hold the same blocks below an index. -/
def AgreeBelow (n : Nat) (memory memory' : Array Block) : Prop :=
  ∀ j < n, memory[j]? = memory'[j]?

theorem AgreeBelow.blockAt_eq (h : AgreeBelow n memory memory') (hi : i < n) :
    blockAt memory i = blockAt memory' i := by
  simp only [blockAt, Array.getD_eq_getD_getElem?, h i hi]

theorem AgreeBelow.nextBlock_eq (h : AgreeBelow i memory memory') (hi : 2 ≤ i) :
    nextBlock 0 memory i = nextBlock 0 memory' i := by
  have hprevious : blockAt memory (i - 1) = blockAt memory' (i - 1) := h.blockAt_eq (by omega)
  simp only [nextBlock, if_true, if_neg (show i ≠ 0 by omega), hprevious, h.blockAt_eq (referenceIndex_lt hi _)]

theorem AgreeBelow.set (h : AgreeBelow i memory memory') (hs : memory.size = memory'.size) (block : Block) :
    AgreeBelow (i + 1) (memory.setIfInBounds i block) (memory'.setIfInBounds i block) := by
  intro j hj
  simp only [Array.getElem?_setIfInBounds, hs]
  split
  · rfl
  · exact h j (by omega)

theorem AgreeBelow.fillFrom (h : AgreeBelow i memory memory') (hs : memory.size = memory'.size) (hi : 2 ≤ i) (n : Nat) :
    AgreeBelow (i + n) (fillFrom 0 n i memory) (fillFrom 0 n i memory') := by
  induction n generalizing i memory memory' with
  | zero => exact h
  | succ n ih =>
      rw [Argon2.fillFrom, Argon2.fillFrom, h.nextBlock_eq hi, Nat.add_comm n, ← Nat.add_assoc]
      exact ih (h.set hs _) (by simp only [Array.size_setIfInBounds, hs]) (Nat.le_succ_of_le hi)

/-! ## All passes -/

/-- What the memory held before it is filled is of no account. -/
theorem fill_congr (key : ByteArray) (h : memory.size = cacheBlocks) (h' : memory'.size = cacheBlocks) :
    fill key memory = fill key memory' := by
  have hs : memory.size = memory'.size := h.trans h'.symm
  have hfirst : AgreeBelow 0 memory memory' := nofun
  have htwo := (hfirst.set hs (firstBlock key 0)).set (by simp only [Array.size_setIfInBounds, hs]) (firstBlock key 1)
  have hpass := htwo.fillFrom (by simp only [Array.size_setIfInBounds, hs]) (Nat.le_refl 2) (cacheBlocks - 2)
  -- The first pass ends at the end of the memory, past which there is nothing to agree on.
  have heq : Argon2.fillFrom 0 (cacheBlocks - 2) 2
      ((memory.setIfInBounds 0 (firstBlock key 0)).setIfInBounds 1 (firstBlock key 1)) =
      Argon2.fillFrom 0 (cacheBlocks - 2) 2
      ((memory'.setIfInBounds 0 (firstBlock key 0)).setIfInBounds 1 (firstBlock key 1)) := by
    refine Array.ext_getElem? fun j => ?_
    by_cases hj : j < cacheBlocks
    · exact hpass j (by rw [Nat.add_sub_cancel' (by decide)]; exact hj)
    · rw [Array.getElem?_eq_none, Array.getElem?_eq_none]
      · simpa only [size_fillFrom, Array.size_setIfInBounds, h'] using Nat.le_of_not_lt hj
      · simpa only [size_fillFrom, Array.size_setIfInBounds, h] using Nat.le_of_not_lt hj
  simp only [fill, h, h', heq]

end RandomX.Argon2
