import RandomX.Proofs.Dataset.Key
import RandomX.Proofs.Dataset.Lines

/-!
# Items

A cache with a key answers for every item number but the greatest, with the line that its programs and its memory lead
to from the number. The greatest number leads to a line as well, but its successor is no word, and no cache answers for
it.
-/
namespace RandomX

open Outcome

namespace Cache

variable {c : Cache} {key : ByteArray}

/-! ## Expansion -/

theorem IsSound.mixLine_spec (h : c.IsSound) (register : UInt64) :
    ∃ line, c.mixLine register = .ok line ∧ c.IsLineAt (register.toNat % (cacheBytes / lineBytes)) line := by
  obtain ⟨line, hline, hwords⟩ := exists_mixLine h.size_blocks register
  exact ⟨line, hline, isLineAt_of_toList_eq hwords⟩

/-- A program runs, and the line that a register value selects is mixed into its outcome. -/
def Mixes (c : Cache) (p : Superscalar.Program) (register : UInt64) (line line' : Line) : Prop :=
  ∃ ran mix, p.execute line = .ok ran ∧ c.IsLineAt (register.toNat % (cacheBytes / lineBytes)) mix ∧
    ∀ r, line'.get r = ran.get r ^^^ mix.get r

/-- Programs in order, with the line and the register value before each and after the last. -/
structure Expands (c : Cache) (programs : List Superscalar.Program) (lines : Nat → Line) (registers : Nat → UInt64) :
    Prop where
  line_succ : ∀ k p, programs[k]? = some p → c.Mixes p (registers k) (lines k) (lines (k + 1))
  register_succ : ∀ k p, programs[k]? = some p → registers (k + 1) = (lines (k + 1)).get p.addressRegister

theorem IsSound.exists_mixes (h : c.IsSound) {p : Superscalar.Program} (hp : ∀ i ∈ p.instructions, i.HasImmediate)
    (programs : List Superscalar.Program) (register : UInt64) (line : Line) :
    ∃ line', c.Mixes p register line line' ∧
      c.mixPrograms (p :: programs) register line = c.mixPrograms programs (line'.get p.addressRegister) line' := by
  obtain ⟨mix, hmix, hselected⟩ := h.mixLine_spec register
  obtain ⟨ran, hran⟩ := Superscalar.Program.execute_ok hp line
  refine ⟨ran.xor mix, ⟨ran, mix, hran, hselected, Line.get_xor ran mix⟩, ?_⟩
  rw [mixPrograms, hmix, ok_bind, hran, ok_bind]

theorem IsSound.exists_expands (h : c.IsSound) {programs : List Superscalar.Program}
    (hp : ∀ p ∈ programs, ∀ i ∈ p.instructions, i.HasImmediate) (register : UInt64) (line : Line) :
    ∃ lines registers, lines 0 = line ∧ registers 0 = register ∧ c.Expands programs lines registers ∧
      c.mixPrograms programs register line = .ok (lines programs.length) := by
  induction programs generalizing register line with
  | nil => exact ⟨fun _ => line, fun _ => register, rfl, rfl, ⟨nofun, nofun⟩, rfl⟩
  | cons p rest ih =>
      obtain ⟨line', hmixes, heq⟩ := h.exists_mixes (hp p List.mem_cons_self) rest register line
      obtain ⟨lines, registers, rfl, hregister, hrest, hout⟩ :=
        ih (fun q hq => hp q (List.mem_cons_of_mem p hq)) (line'.get p.addressRegister) line'
      -- The lines and registers of the rest are those of the whole from the second place on.
      refine ⟨fun | 0 => line | k + 1 => lines k, fun | 0 => register | k + 1 => registers k, rfl, rfl, ⟨?_, ?_⟩,
        heq.trans hout⟩
      · intro k q hq
        cases k with
        | zero =>
            cases hq
            exact hmixes
        | succ k => exact hrest.line_succ k q hq
      · intro k q hq
        cases k with
        | zero =>
            cases hq
            exact hregister
        | succ k => exact hrest.register_succ k q hq

/-- The line from which an item starts: a multiple of the first constant in `r0`, which the other constants change. -/
structure IsSeed (number : UInt64) (line : Line) : Prop where
  first : (line.get .r0).toNat = (number.toNat + 1) * (KeyMaterial.superscalar.get .r0).toNat % UInt64.size
  others : ∀ r, r ≠ .r0 → line.get r = line.get .r0 ^^^ KeyMaterial.superscalar.get r

theorem seedLine_isSeed (number : UInt64) : IsSeed number (seedLine number) := by
  have hfirst : (seedLine number).get .r0 = (number + 1) * KeyMaterial.superscalar.get .r0 := UInt64.zero_xor
  constructor
  · rw [hfirst, UInt64.toNat_mul, UInt64.toNat_add]
    exact Nat.mod_mul_mod _ _ _
  · intro r hr
    rw [hfirst, seedLine, Line.get_xor, UInt64.xor_comm]
    cases r with
    | r0 => exact absurd rfl hr
    | _ => rfl

/-- The lines and the register values on the way from a number. -/
structure IsItemTrace (c : Cache) (number : UInt64) (lines : Nat → Line) (registers : Nat → UInt64) : Prop where
  seed : IsSeed number (lines 0)
  register_zero : registers 0 = number
  expands : c.Expands c.programs lines registers

theorem IsSound.item_spec (h : c.IsSound) (hi : c.isInitialised = true) (number : UInt64) :
    ∃ lines registers, c.IsItemTrace number lines registers ∧
      c.item number =
        if number = 0xFFFFFFFFFFFFFFFF then .error .overflow else .ok (lines c.programs.length) := by
  obtain ⟨lines, registers, hline, hregister, hexpands, hout⟩ :=
    h.exists_expands h.hasImmediate number (seedLine number)
  refine ⟨lines, registers, ⟨?_, hregister, hexpands⟩, ?_⟩
  · rw [hline]
    exact seedLine_isSeed number
  · rw [item, hi, hout, if_neg (by decide)]

theorem IsSound.item_ok_of_lt (h : c.IsSound) (hi : c.isInitialised = true) {number : UInt64}
    (hn : number.toNat < datasetItems) : ∃ line, c.item number = .ok line := by
  obtain ⟨lines, _, _, hitem⟩ := h.item_spec hi number
  refine ⟨_, hitem.trans (if_neg ?_)⟩
  rintro rfl
  exact absurd hn (by decide)

/-- Unless a draw has no end, a cache takes any key, and then answers for every item number but the greatest, with the
line after the last of the programs of the key. -/
theorem every_number_but_last_has_item (h : c.History) (key : ByteArray) :
    ((c.init key).1 = .error .drawLimit ∧ ¬ DrawsEnd (Generator.ofSeed key 0 : Blake2Generator)) ∨
      (c.init key).1 = .ok () ∧ (c.init key).2.IsOf key ∧ ∀ number, ∃ lines registers,
        (c.init key).2.IsItemTrace number lines registers ∧
          (c.init key).2.item number =
            if number = 0xFFFFFFFFFFFFFFFF then .error .overflow else .ok (lines cacheAccesses) := by
  rcases h.init_spec key with hends | ⟨hok, hk⟩
  · exact .inl hends
  · have hof : (c.init key).2.IsOf key := (h.isPure.init mayFail_fill key).isOf hk
    refine .inr ⟨hok, hof, fun number => ?_⟩
    obtain ⟨lines, registers, htrace, hitem⟩ := hof.isSound.item_spec (Option.isSome_of_eq_some hk) number
    rw [hof.length_programs] at hitem
    exact ⟨lines, registers, htrace, hitem⟩

/-- A new cache that is offered the empty key. -/
theorem new_cache_answers_but_last :
    let out := (⟨Array.replicate cacheBlocks .zero, [], none⟩ : Cache).init .empty
    (out.1 = .error .drawLimit ∧ ¬ DrawsEnd (Generator.ofSeed .empty 0 : Blake2Generator)) ∨
      out.1 = .ok () ∧ out.2.IsOf .empty ∧ ∀ number, ∃ lines registers, out.2.IsItemTrace number lines registers ∧
        out.2.item number = if number = 0xFFFFFFFFFFFFFFFF then .error .overflow else .ok (lines cacheAccesses) :=
  every_number_but_last_has_item (.create (show Cache.create .none = .ok _ from rfl)) .empty

theorem last_number_has_no_item : ¬ ∃ (c : Cache) (line : Line), c.item 0xFFFFFFFFFFFFFFFF = .ok line := by
  rintro ⟨c, line, h⟩
  rw [item] at h
  split at h
  · cases h
  · cases h

end Cache

end RandomX
