import RandomX.Proofs.Outcome
import RandomX.Machine.Execute

/-!
# Lanes

What one instruction makes of the lanes of the three floating-point groups.
-/
namespace RandomX

open Outcome

/-- One of the eight numbers of a group. -/
def FloatGroup.IsLane (g : FloatGroup) (x : Binary64) : Prop :=
  ∃ r, x = (g.get r).lo ∨ x = (g.get r).hi

theorem FloatGroup.forall_lane_set {g : FloatGroup} {r : FloatReg} {v : FloatPair} {P : Binary64 → Prop}
    (h : ∀ x, g.IsLane x → P x) (hlo : P v.lo) (hhi : P v.hi) : ∀ x, (g.set r v).IsLane x → P x := by
  rintro x ⟨s, hx⟩
  by_cases hr : s = r
  · rw [hr, get_set_self] at hx
    rcases hx with rfl | rfl
    · exact hlo
    · exact hhi
  · rw [get_set_of_ne _ _ _ _ hr] at hx
    exact h x ⟨s, hx⟩

theorem FloatGroup.isLane_lo (g : FloatGroup) (r : FloatReg) : g.IsLane (g.get r).lo :=
  ⟨r, .inl rfl⟩

theorem FloatGroup.isLane_hi (g : FloatGroup) (r : FloatReg) : g.IsLane (g.get r).hi :=
  ⟨r, .inr rfl⟩

/-- Loaded pairs hold converted integers. -/
theorem Scratchpad.exists_of_loadPair {pad : Scratchpad} {a : Nat} {v : FloatPair} (h : pad.loadPair a = .ok v) :
    ∃ w w', v = ⟨.ofInt32 w, .ofInt32 w'⟩ := by
  obtain ⟨_, _, h⟩ := bind_eq_ok.mp h
  cases h
  exact ⟨_, _, rfl⟩

theorem Scratchpad.exists_of_loadGroup {pad : Scratchpad} {a : Nat} {g : FloatGroup} {x : Binary64}
    (h : pad.loadGroup a = .ok g) (hx : g.IsLane x) : ∃ w, x = .ofInt32 w := by
  obtain ⟨v₀, h₀, h⟩ := bind_eq_ok.mp h
  obtain ⟨v₁, h₁, h⟩ := bind_eq_ok.mp h
  obtain ⟨v₂, h₂, h⟩ := bind_eq_ok.mp h
  obtain ⟨v₃, h₃, h⟩ := bind_eq_ok.mp h
  cases h
  obtain ⟨r, hr⟩ := hx
  obtain ⟨w, w', hv⟩ : ∃ w w', (FloatGroup.mk v₀ v₁ v₂ v₃).get r = ⟨.ofInt32 w, .ofInt32 w'⟩ := by
    cases r with
    | x0 => exact exists_of_loadPair h₀
    | x1 => exact exists_of_loadPair h₁
    | x2 => exact exists_of_loadPair h₂
    | x3 => exact exists_of_loadPair h₃
  rw [hv] at hr
  rcases hr with rfl | rfl
  · exact ⟨w, rfl⟩
  · exact ⟨w', rfl⟩

namespace Program

variable {i : Instruction} {masks : LaneMasks} {c d : Core}

/-! ## Moves -/

/-- What an instruction makes of an additive lane. -/
inductive AdditiveMove (a : FloatGroup) (x : Binary64) : Binary64 → Prop where
  | keep : AdditiveMove a x x
  | sum (op : SumOp) (mode : Rounding) {v : Binary64} (hv : a.IsLane v ∨ ∃ w, v = .ofInt32 w) :
      AdditiveMove a x (op.apply mode x v)
  | scale : AdditiveMove a x x.scaled

/-- A converted integer under the mask of a lane. -/
def IsMasked (masks : LaneMasks) (x : Binary64) : Prop :=
  ∃ w, x = (Binary64.ofInt32 w).masked masks.lo ∨ x = (Binary64.ofInt32 w).masked masks.hi

/-- What an instruction makes of a multiplicative lane. -/
inductive MultiplicativeMove (a : FloatGroup) (masks : LaneMasks) (x : Binary64) : Binary64 → Prop where
  | keep : MultiplicativeMove a masks x x
  | product (mode : Rounding) {v : Binary64} (hv : a.IsLane v) : MultiplicativeMove a masks x (x.mul mode v)
  | quotient (mode : Rounding) {v : Binary64} (hv : IsMasked masks v) : MultiplicativeMove a masks x (x.div mode v)
  | root (mode : Rounding) : MultiplicativeMove a masks x (x.sqrt mode)

/-- The constant group stays, and every lane of the other two comes from one that was there. -/
structure Moves (masks : LaneMasks) (c d : Core) : Prop where
  a : d.reg.a = c.reg.a
  f : ∀ z, d.reg.f.IsLane z → ∃ x, c.reg.f.IsLane x ∧ AdditiveMove c.reg.a x z
  e : ∀ z, d.reg.e.IsLane z → ∃ x, c.reg.e.IsLane x ∧ MultiplicativeMove c.reg.a masks x z

theorem keep_f (a : FloatGroup) (g : FloatGroup) : ∀ z, g.IsLane z → ∃ x, g.IsLane x ∧ AdditiveMove a x z :=
  fun z hz => ⟨z, hz, .keep⟩

theorem keep_e (a : FloatGroup) (masks : LaneMasks) (g : FloatGroup) :
    ∀ z, g.IsLane z → ∃ x, g.IsLane x ∧ MultiplicativeMove a masks x z :=
  fun z hz => ⟨z, hz, .keep⟩

/-- The lanes of an addend are lanes of the constant group or converted integers. -/
theorem FloatOperand.exists_of_value {o : FloatOperand} {reg : RegisterFile} {pad : Scratchpad} {v : FloatPair}
    (h : o.value reg pad = .ok v) :
    (reg.a.IsLane v.lo ∨ ∃ w, v.lo = .ofInt32 w) ∧ (reg.a.IsLane v.hi ∨ ∃ w, v.hi = .ofInt32 w) := by
  cases o with
  | register src =>
      cases h
      exact ⟨.inl (reg.a.isLane_lo src), .inl (reg.a.isLane_hi src)⟩
  | memory address =>
      obtain ⟨w, w', rfl⟩ := Scratchpad.exists_of_loadPair h
      exact ⟨.inr ⟨w, rfl⟩, .inr ⟨w', rfl⟩⟩

theorem Instruction.moves_of_execute (h : i.execute masks c = .ok d) : Moves masks c d := by
  have hf := keep_f c.reg.a c.reg.f
  have he := keep_e c.reg.a masks c.reg.e
  cases i with
  | swapAdditive dst =>
      cases h
      refine ⟨rfl, FloatGroup.forall_lane_set hf ?_ ?_, he⟩
      · exact ⟨_, c.reg.f.isLane_hi dst, .keep⟩
      · exact ⟨_, c.reg.f.isLane_lo dst, .keep⟩
  | swapMultiplicative dst =>
      cases h
      refine ⟨rfl, hf, FloatGroup.forall_lane_set he ?_ ?_⟩
      · exact ⟨_, c.reg.e.isLane_hi dst, .keep⟩
      · exact ⟨_, c.reg.e.isLane_lo dst, .keep⟩
  | sum op dst operand =>
      obtain ⟨v, hv, h⟩ := bind_eq_ok.mp h
      cases h
      obtain ⟨hlo, hhi⟩ := operand.exists_of_value hv
      refine ⟨rfl, FloatGroup.forall_lane_set hf ?_ ?_, he⟩
      · exact ⟨_, c.reg.f.isLane_lo dst, .sum op _ hlo⟩
      · exact ⟨_, c.reg.f.isLane_hi dst, .sum op _ hhi⟩
  | scale dst =>
      cases h
      refine ⟨rfl, FloatGroup.forall_lane_set hf ?_ ?_, he⟩
      · exact ⟨_, c.reg.f.isLane_lo dst, .scale⟩
      · exact ⟨_, c.reg.f.isLane_hi dst, .scale⟩
  | multiply dst src =>
      cases h
      refine ⟨rfl, hf, FloatGroup.forall_lane_set he ?_ ?_⟩
      · exact ⟨_, c.reg.e.isLane_lo dst, .product _ (c.reg.a.isLane_lo src)⟩
      · exact ⟨_, c.reg.e.isLane_hi dst, .product _ (c.reg.a.isLane_hi src)⟩
  | divide dst address =>
      obtain ⟨v, hv, h⟩ := bind_eq_ok.mp h
      cases h
      obtain ⟨w, w', rfl⟩ := Scratchpad.exists_of_loadPair hv
      refine ⟨rfl, hf, FloatGroup.forall_lane_set he ?_ ?_⟩
      · exact ⟨_, c.reg.e.isLane_lo dst, .quotient _ ⟨w, .inl rfl⟩⟩
      · exact ⟨_, c.reg.e.isLane_hi dst, .quotient _ ⟨w', .inr rfl⟩⟩
  | root dst =>
      cases h
      refine ⟨rfl, hf, FloatGroup.forall_lane_set he ?_ ?_⟩
      · exact ⟨_, c.reg.e.isLane_lo dst, .root _⟩
      · exact ⟨_, c.reg.e.isLane_hi dst, .root _⟩
  | integer op dst operand =>
      obtain ⟨_, _, h⟩ := bind_eq_ok.mp h
      cases h
      exact ⟨rfl, hf, he⟩
  | store dst src imm mask =>
      obtain ⟨_, _, h⟩ := bind_eq_ok.mp h
      cases h
      exact ⟨rfl, hf, he⟩
  | addShifted dst src shift imm =>
      simp only [execute] at h
      split at h
      · cases h
        exact ⟨rfl, hf, he⟩
      · cases h
  | branch b imm mask target =>
      simp only [execute] at h
      split at h
      all_goals
        cases h
        exact ⟨rfl, hf, he⟩
  | _ =>
      cases h
      exact ⟨rfl, hf, he⟩

theorem moves_of_step {code : Array Instruction} (h : step code masks c = .ok d) : Moves masks c d := by
  rw [step] at h
  split at h
  · cases h
  · exact Instruction.moves_of_execute h

end Program

end RandomX
