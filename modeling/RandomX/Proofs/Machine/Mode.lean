import RandomX.Proofs.Dataset.Build
import RandomX.Proofs.Machine.Run

/-!
# Memory modes

A machine in light mode and one in full mode compute the same, once the dataset has been built throughout.
-/
namespace RandomX.Machine

open Outcome

variable {flags : Flags} {c : Cache} {d₀ d : Dataset} {ranges : List (UInt64 × UInt64)} {m₁ m₂ : Machine}

/-- A machine over a cache and one over a dataset that was built from it throughout agree on every digest, whatever
their flags, registers and scratchpads were. From the same registers and scratchpads every single round leads both to
the same again. -/
theorem light_agrees_with_full (hd : Dataset.create flags c = .ok d₀) (hb : d₀.Builds ranges d)
    (hc : ∀ i < datasetItems, Dataset.Covers ranges i) (h₁ : m₁.view = .light c) (h₂ : m₂.view = .full d) :
    (∀ input, ∃ digest n₁ n₂, m₁.hash input = .ok (digest, n₁) ∧ m₂.hash input = .ok (digest, n₂)) ∧
      ∀ seed, m₁.reg = m₂.reg → m₁.pad = m₂.pad →
        ∃ n₁ n₂, m₁.run seed = .ok n₁ ∧ m₂.run seed = .ok n₂ ∧ n₁.reg = n₂.reg ∧ n₁.pad = n₂.pad := by
  have hv : m₂.view.IsValid := h₂ ▸ .full d
  have hagree : m₂.view.Agree m₁.view := by
    rw [h₁, h₂, ← Dataset.cache_of_create hd]
    exact hb.agree hc
  constructor
  · intro input
    obtain ⟨digest, n₂, hn₂⟩ := hash_ok hv input
    obtain ⟨n₁, hn₁, _⟩ := hash_congr hagree hn₂
    exact ⟨digest, n₁, n₂, hn₁, hn₂⟩
  · intro seed hreg hpad
    obtain ⟨n₂, hn₂⟩ := run_ok hv seed
    obtain ⟨n₁, hn₁, hr, hp⟩ := run_congr hagree (by rw [hreg]) hpad.symm hn₂
    exact ⟨n₁, n₂, hn₁, hn₂, hr, hp⟩

/-- Eight programs, each of which multiplies, rotates and adds in a register of its own, whose value then selects a line. -/
def samplePrograms : List Superscalar.Program :=
  Reg.all.map fun r => ⟨#[⟨.imulR, r, .r3, 0⟩, ⟨.irorC, r, r, 17⟩, ⟨.iaddRS, .r2, r, 3⟩, ⟨.ixorC9, .r6, .r6, 0x1234⟩,
    ⟨.imulRcp, .r4, .r4, reciprocalWord 3⟩, ⟨.imulhR, .r7, r, 0⟩, ⟨.isubR, r, .r4, 0⟩], r⟩

theorem hasImmediate_samplePrograms : ∀ p ∈ samplePrograms, ∀ i ∈ p.instructions, i.HasImmediate := by
  intro p hp i hi
  obtain ⟨r, -, rfl⟩ := List.mem_map.mp hp
  simp only [Array.mem_toList_iff.symm, List.mem_cons, List.not_mem_nil, or_false] at hi
  rcases hi with rfl | rfl | rfl | rfl | rfl | rfl | rfl
  · exact rfl
  · exact (by decide : (17 : UInt64) ≠ 0 ∧ (17 : UInt64) < 64)
  · exact (by decide : (3 : UInt64) < 4)
  · exact ⟨0x1234, by decide⟩
  · exact ⟨3, by decide, rfl⟩
  · exact rfl
  · exact rfl

/-- The memory whose word `i` is `i`, with eight programs. The dataset over it is built in one call. -/
theorem light_agrees_with_full_of_eight_programs :
    let c : Cache := ⟨Cache.counting.blocks, samplePrograms, some .empty⟩
    ∃ d, Dataset.build ⟨c, ∅⟩ 0 datasetItems.toUInt64 = .ok d ∧
      let m₁ : Machine := ⟨⟨false, false, false, false, false⟩, .light c, .blank .nearest, .blank⟩
      let m₂ : Machine := ⟨⟨false, false, true, false, false⟩, .full d, .blank .nearest, .blank⟩
      (∀ input, ∃ digest n₁ n₂, m₁.hash input = .ok (digest, n₁) ∧ m₂.hash input = .ok (digest, n₂)) ∧
        ∀ seed, m₁.reg = m₂.reg → m₁.pad = m₂.pad →
          ∃ n₁ n₂, m₁.run seed = .ok n₁ ∧ m₂.run seed = .ok n₂ ∧ n₁.reg = n₂.reg ∧ n₁.pad = n₂.pad := by
  intro c
  have hcreate : Dataset.create ⟨false, false, true, false, false⟩ c = .ok ⟨c, ∅⟩ := rfl
  have hsound : c.IsSound := ⟨by simp only [c, Cache.size_blocks_counting], hasImmediate_samplePrograms⟩
  have htotal : datasetItems.toUInt64.toNat = datasetItems := by decide
  obtain ⟨d, hd⟩ : ∃ d, Dataset.build ⟨c, ∅⟩ 0 datasetItems.toUInt64 = .ok d := by
    refine Dataset.build_ok (Dataset.items_ok hsound rfl) (show 0 < datasetItems by decide) ?_
    rw [htotal, UInt64.toNat_zero, Nat.zero_add]
  have hcovers : ∀ i < datasetItems, Dataset.Covers [(0, datasetItems.toUInt64)] i :=
    fun i hi => ⟨_, List.mem_cons_self, Nat.zero_le i, by simpa only [htotal, UInt64.toNat_zero, Nat.zero_add] using hi⟩
  exact ⟨d, hd, light_agrees_with_full hcreate (.accepted .nil hd) hcovers rfl rfl⟩

end RandomX.Machine
