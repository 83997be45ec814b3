import RandomX.Cache
import RandomX.Proofs.Argon2.Fill
import RandomX.Proofs.Superscalar.Generate

/-!
# Sound caches

Every cache that creation and keys lead to has its full memory, and programs that cannot fail.
-/
namespace RandomX

open Outcome

namespace Cache

variable {c : Cache} {key : ByteArray}

/-! ## Reachable caches -/

/-- A cache that creation and a sequence of keys lead to. -/
inductive Reachable : Cache → Prop where
  | create {flags : Flags} {c : Cache} (h : Cache.create flags = .ok c) : Reachable c
  | init {c : Cache} (h : Reachable c) (key : ByteArray) : Reachable (c.init key).2

structure IsSound (c : Cache) : Prop where
  size_blocks : c.blocks.size = cacheBlocks
  hasImmediate : ∀ p ∈ c.programs, ∀ i ∈ p.instructions, i.HasImmediate

theorem create_eq {flags : Flags} (h : Cache.create flags = .ok c) :
    c.blocks = Array.replicate cacheBlocks .zero ∧ c.programs = [] ∧ c.key = none := by
  obtain ⟨_, _, h⟩ := bind_eq_ok.mp h
  obtain ⟨blocks, hb, h⟩ := bind_eq_ok.mp h
  cases h
  rw [Argon2.allocate, if_pos (by decide)] at hb
  cases hb
  exact ⟨rfl, rfl, rfl⟩

theorem IsSound.create {flags : Flags} (h : Cache.create flags = .ok c) : c.IsSound := by
  obtain ⟨hb, hp, _⟩ := create_eq h
  exact ⟨by simp only [hb, Array.size_replicate], by simp [hp]⟩

/-- Only a draw without end keeps the programs from being generated. -/
theorem generatePrograms_spec {σ : Type} [EntropyStream σ] (n : Nat) (s : σ) :
    (generatePrograms n s = .error .drawLimit ∧ ¬ DrawsEnd s) ∨ ∃ programs, generatePrograms n s = .ok programs ∧
      programs.length = n ∧ ∀ p ∈ programs, ∀ i ∈ p.instructions, i.HasImmediate := by
  induction n generalizing s with
  | zero => exact .inr ⟨[], rfl, rfl, nofun⟩
  | succ n ih =>
      rw [generatePrograms]
      rcases Superscalar.Program.generate_spec s with ⟨he, hends⟩ | ⟨p, s', hp, hi, _⟩
      · exact .inl ⟨by rw [he, error_bind], hends⟩
      · simp only [hp, ok_bind]
        rcases ih s' with ⟨he, hends⟩ | ⟨programs, hrest, hlength, hprograms⟩
        · refine .inl ⟨by rw [he, error_bind], fun hd => hends ?_⟩
          exact hd.of_leads (Superscalar.Program.leads_of_generate hp)
        · refine .inr ⟨p :: programs, by rw [hrest, ok_bind, pure_eq_ok], by rw [List.length_cons, hlength], ?_⟩
          exact List.forall_mem_cons.mpr ⟨fun i hmem => (hi i hmem).1, hprograms⟩

theorem generatePrograms_ok {σ : Type} [EntropyStream σ] {n : Nat} {s : σ} {programs : List Superscalar.Program}
    (h : generatePrograms n s = .ok programs) :
    programs.length = n ∧ ∀ p ∈ programs, ∀ i ∈ p.instructions, i.HasImmediate := by
  rcases generatePrograms_spec n s with ⟨he, _⟩ | ⟨_, hok, hprograms⟩
  · rw [h] at he
    cases he
  · rw [h] at hok
    cases hok
    exact hprograms

theorem IsSound.init (h : c.IsSound) (key : ByteArray) : (c.init key).2.IsSound := by
  rw [Cache.init, initWith]
  split
  · exact h
  · split
    · exact ⟨h.size_blocks, h.hasImmediate⟩
    · rename_i blocks hfill
      have hsize := (Argon2.size_of_fill hfill).trans h.size_blocks
      split
      · exact ⟨hsize, by simp⟩
      · rename_i programs hp
        exact ⟨hsize, (generatePrograms_ok hp).2⟩

theorem Reachable.isSound (h : c.Reachable) : c.IsSound := by
  induction h with
  | create h => exact .create h
  | init _ key ih => exact ih.init key

end Cache

end RandomX
