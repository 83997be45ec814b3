import Mathlib.Logic.Function.Iterate
import RandomX.Proofs.Outcome
import RandomX.Superscalar.Candidate

/-!
# Draws

What comes of a draw fits its purpose, and a draw that is repeated until it is accepted has an outcome if an accepted
value ever comes.
-/
namespace RandomX

open Superscalar

variable {σ : Type} [EntropyStream σ] {s s' t : σ}

/-! ## Streams -/

/-- The states that a stream comes to by draws of bytes and words. -/
inductive Leads (s : σ) : σ → Prop where
  | refl : Leads s s
  | byte {t : σ} (h : Leads s t) : Leads s (nextByte t).2
  | word {t : σ} (h : Leads s t) : Leads s (nextWord t).2

theorem Leads.trans {u : σ} (h : Leads s t) (k : Leads t u) : Leads s u := by
  induction k with
  | refl => exact h
  | byte _ ih => exact ih.byte
  | word _ ih => exact ih.word

/-- Wherever a stream comes to, bytes that are drawn one after the other hold a rotation at some time, and words a
divisor. -/
structure DrawsEnd (s : σ) : Prop where
  rotation : ∀ t, Leads s t → ∃ n, (nextByte ((fun u => (nextByte u).2)^[n] t)).1 &&& 63 ≠ 0
  divisor : ∀ t, Leads s t → ∃ n, isDivisor (nextWord ((fun u => (nextWord u).2)^[n] t)).1 = true

theorem DrawsEnd.of_leads (h : DrawsEnd s) (ht : Leads s t) : DrawsEnd t where
  rotation u hu := h.rotation u (ht.trans hu)
  divisor u hu := h.divisor u (ht.trans hu)

namespace Superscalar

/-! ## Repeated draws -/

variable {w : UInt32}

theorem drawRotation_spec (h : drawRotation s = some (w, s')) : (w ≠ 0 ∧ w < 64) ∧ Leads s s' := by
  refine drawRotation.partial_correctness (fun s r => (r.1 ≠ 0 ∧ r.1 < 64) ∧ Leads s r.2) ?_ s (w, s') h
  intro draw ih s r hr
  simp only at hr
  split at hr
  · obtain ⟨hbounds, hleads⟩ := ih _ _ hr
    exact ⟨hbounds, Leads.refl.byte.trans hleads⟩
  · rename_i hb
    cases hr
    refine ⟨?_, Leads.refl.byte⟩
    generalize (nextByte s).1 = b at hb
    constructor
    · intro h0
      apply hb
      rw [← UInt8.toNat_inj]
      simpa [← UInt32.toNat_inj] using h0
    · rw [UInt32.lt_iff_toNat_lt]
      have : b.toNat &&& 63 ≤ 63 := Nat.and_le_right
      simpa using Nat.lt_succ_of_le this

theorem drawDivisor_spec (h : drawDivisor s = some (w, s')) : isDivisor w = true ∧ Leads s s' := by
  refine drawDivisor.partial_correctness (fun s r => isDivisor r.1 = true ∧ Leads s r.2) ?_ s (w, s') h
  intro draw ih s r hr
  simp only at hr
  split at hr
  · rename_i hd
    cases hr
    exact ⟨hd, Leads.refl.word⟩
  · obtain ⟨hd, hleads⟩ := ih _ _ hr
    exact ⟨hd, Leads.refl.word.trans hleads⟩

theorem exists_drawRotation (n : Nat) (h : (nextByte ((fun u => (nextByte u).2)^[n] s)).1 &&& 63 ≠ 0) :
    ∃ r, drawRotation s = some r := by
  induction n generalizing s with
  | zero =>
      rw [drawRotation]
      exact ⟨_, if_neg h⟩
  | succ n ih =>
      rw [drawRotation]
      by_cases hb : (nextByte s).1 &&& 63 = 0
      · obtain ⟨r, hr⟩ := ih h
        exact ⟨r, (if_pos hb).trans hr⟩
      · exact ⟨_, if_neg hb⟩

theorem exists_drawDivisor (n : Nat) (h : isDivisor (nextWord ((fun u => (nextWord u).2)^[n] s)).1 = true) :
    ∃ r, drawDivisor s = some r := by
  induction n generalizing s with
  | zero =>
      rw [drawDivisor]
      exact ⟨_, if_pos h⟩
  | succ n ih =>
      rw [drawDivisor]
      by_cases hd : isDivisor (nextWord s).1 = true
      · exact ⟨_, if_pos hd⟩
      · obtain ⟨r, hr⟩ := ih h
        exact ⟨r, (if_neg hd).trans hr⟩

/-! ## Registers -/

variable {rs : List Reg} {r : Reg}

theorem leads_pickRegister (rs : List Reg) (s : σ) : Leads s (pickRegister rs s).2 := by
  unfold pickRegister
  split
  · exact .refl
  · exact .refl
  · exact Leads.refl.word

/-- The index that is drawn lies in the list. -/
theorem exists_pickRegister (h : rs ≠ []) (s : σ) : ∃ r ∈ rs, (pickRegister rs s).1 = some r := by
  unfold pickRegister
  split
  · exact absurd rfl h
  · exact ⟨_, List.mem_singleton_self _, rfl⟩
  · have hlt := Nat.mod_lt (nextWord s).1.toNat (List.length_pos_iff.mpr h)
    exact ⟨_, List.getElem_mem hlt, List.getElem?_eq_getElem hlt⟩

theorem mem_of_pickRegister (h : (pickRegister rs s).1 = some r) : r ∈ rs := by
  by_cases hrs : rs = []
  · rw [hrs] at h
    cases h
  · obtain ⟨r', hr', h'⟩ := exists_pickRegister hrs s
    rw [h] at h'
    cases h'
    exact hr'

end Superscalar

/-! ## Streams whose draws end -/

theorem DrawsEnd.rotation_ok (h : DrawsEnd s) : ∃ r, drawRotation s = some r := by
  obtain ⟨n, hn⟩ := h.rotation s .refl
  exact exists_drawRotation n hn

theorem DrawsEnd.divisor_ok (h : DrawsEnd s) : ∃ r, drawDivisor s = some r := by
  obtain ⟨n, hn⟩ := h.divisor s .refl
  exact exists_drawDivisor n hn

end RandomX
