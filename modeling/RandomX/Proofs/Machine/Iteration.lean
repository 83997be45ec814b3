import RandomX.Machine.Round
import RandomX.Proofs.Dataset.View
import RandomX.Proofs.Program.Termination

/-!
# Iterations

Dataset addresses stay inside the base size from one iteration to the next, so that with the offset of a round they
never leave the dataset. No iteration fails, and none can tell two views with the same items apart.
-/
namespace RandomX

open Outcome

variable {config : RoundConfig} {raw : ByteArray} {code : Program.Code} {view v w : DatasetView}

/-! ## Configurations -/

/-- The first dataset address and the offset are within their bounds. -/
structure RoundConfig.IsBounded (config : RoundConfig) : Prop where
  ma_le : config.ma.toNat ≤ datasetLineMask.toNat
  offset_le : config.offset.toNat ≤ datasetExtraItems * lineBytes

theorem RoundConfig.ofEntropy_isBounded (words : Vector UInt64 16) : (ofEntropy words).IsBounded where
  ma_le := by
    rw [ofEntropy, UInt32.toNat_and]
    exact Nat.and_le_right
  offset_le := by
    have hlt : (entropyWord words 13).toNat % (datasetExtraItems + 1) < datasetExtraItems + 1 := Nat.mod_lt _ (Nat.succ_pos _)
    have hm : (datasetExtraItems.toUInt64 + 1).toNat = datasetExtraItems + 1 := by decide
    rw [ofEntropy, UInt64.toNat_mul, UInt64.toNat_mod, hm]
    refine (Nat.mod_le _ _).trans (Nat.mul_le_mul_right _ (Nat.le_of_lt_succ hlt))

namespace Iteration

variable {it it' : Iteration}

/-- The dataset address that is read next lies inside the base size. -/
def IsInBase (it : Iteration) : Prop :=
  it.ma.toNat ≤ datasetLineMask.toNat

theorem first_isInBase (hb : config.IsBounded) (reg : RegisterFile) (pad : Scratchpad) :
    (first config reg pad).IsInBase :=
  hb.ma_le

/-- The dataset item that is read next, with the sum of address and offset taken over the naturals. -/
def itemIndex (config : RoundConfig) (it : Iteration) : Nat :=
  (config.offset.toNat + it.ma.toNat) / lineBytes

/-- The greatest address with the greatest offset is that of the last item. -/
theorem itemIndex_le (hb : config.IsBounded) (hi : it.IsInBase) : it.itemIndex config ≤ datasetItems - 1 := by
  have hma := hi
  have hoffset := hb.offset_le
  have hlast : (datasetExtraItems * lineBytes + datasetLineMask.toNat) / lineBytes = datasetItems - 1 := by decide
  rw [← hlast]
  exact Nat.div_le_div_right (Nat.add_le_add hoffset hma)

theorem toNat_address_div (hb : config.IsBounded) (hi : it.IsInBase) :
    ((config.offset + it.ma.toUInt64) / 64).toNat = it.itemIndex config := by
  have hlt : config.offset.toNat + it.ma.toNat < 2 ^ 64 :=
    (Nat.add_le_add hb.offset_le hi).trans_lt (by decide)
  rw [UInt64.toNat_div, UInt64.toNat_add, UInt32.toNat_toUInt64, Nat.mod_eq_of_lt hlt]
  rfl

theorem address_div_lt (hb : config.IsBounded) (hi : it.IsInBase) :
    ((config.offset + it.ma.toUInt64) / 64).toNat < datasetItems := by
  rw [toNat_address_div hb hi]
  exact (itemIndex_le hb hi).trans_lt (by decide)

/-! ## One iteration -/

theorem next_eq (config : RoundConfig) (it : Iteration) (code : Program.Code) (view : DatasetView) :
    it.next config code view = do
      let reg ← it.loadRegisters config
      let (reg, pad) ← Program.execute code config.masks reg it.pad
      let r ← view.read (config.offset + it.ma.toUInt64) reg.r
      let (reg', pad) ← writeBack (it.address0 config) (it.address1 config) { reg with r := r } pad
      return ⟨reg', pad, nextAddress config it.mx reg.r, it.ma, 0, 0⟩ :=
  rfl

theorem address0_isLineAddress (config : RoundConfig) (it : Iteration) : IsLineAddress (it.address0 config) :=
  isLineAddress_and _

theorem address1_isLineAddress (config : RoundConfig) (it : Iteration) : IsLineAddress (it.address1 config) :=
  isLineAddress_and _

theorem loadRegisters_ok (config : RoundConfig) (it : Iteration) : ∃ reg, it.loadRegisters config = .ok reg := by
  have h₁ := (it.address1_isLineAddress config).le
  obtain ⟨line, hline⟩ := it.pad.loadLine_of_le (it.address0_isLineAddress config).le
  obtain ⟨f, hf⟩ := it.pad.loadGroup_of_le (a := it.address1 config) (by omega)
  obtain ⟨e, he⟩ := it.pad.loadGroup_of_le (a := it.address1 config + 32) (by omega)
  simp only [loadRegisters, hline, hf, he, ok_bind]
  exact ⟨_, rfl⟩

theorem writeBack_ok {a₀ a₁ : Nat} (h₀ : IsLineAddress a₀) (h₁ : IsLineAddress a₁) (reg : RegisterFile)
    (pad : Scratchpad) : ∃ out, writeBack a₀ a₁ reg pad = .ok out := by
  obtain ⟨p, hp⟩ := pad.storeLine_of_le reg.r h₁.le
  obtain ⟨q, hq⟩ := p.storeLine_of_le (reg.f.xor reg.e).toLine h₀.le
  simp only [writeBack, hp, hq, ok_bind]
  exact ⟨_, rfl⟩

/-- What comes after an iteration reads inside the base size, whatever the iteration itself read. -/
theorem isInBase_of_next (h : it.next config code view = .ok it') : it'.IsInBase := by
  rw [next_eq] at h
  obtain ⟨_, _, h⟩ := bind_eq_ok.mp h
  obtain ⟨⟨reg, _⟩, _, h⟩ := bind_eq_ok.mp h
  obtain ⟨_, _, h⟩ := bind_eq_ok.mp h
  obtain ⟨_, _, h⟩ := bind_eq_ok.mp h
  cases h
  rw [IsInBase, nextAddress, UInt32.toNat_and]
  exact Nat.and_le_right

theorem next_ok (hc : Program.IsCompiled raw code) (hs : code.size = programSize) (hv : view.IsValid)
    (hb : config.IsBounded) (hi : it.IsInBase) : ∃ it', it.next config code view = .ok it' := by
  obtain ⟨reg, hreg⟩ := it.loadRegisters_ok config
  obtain ⟨_, e, _, _, _, he⟩ := Program.exists_run hc hs config.masks reg it.pad
  obtain ⟨r, hr⟩ := hv.read_ok (address_div_lt hb hi) e.reg.r
  obtain ⟨out, hout⟩ := writeBack_ok (it.address0_isLineAddress config) (it.address1_isLineAddress config)
    { e.reg with r := r } e.pad
  simp only [next_eq, hreg, he, hr, hout, ok_bind]
  exact ⟨_, rfl⟩

theorem next_congr (h : v.Agree w) (hb : config.IsBounded) (hi : it.IsInBase) :
    it.next config code v = it.next config code w := by
  simp only [next_eq, h.read_eq (address_div_lt hb hi)]

/-! ## Many iterations -/

theorem iterate_ok (hc : Program.IsCompiled raw code) (hs : code.size = programSize) (hv : view.IsValid)
    (hb : config.IsBounded) (n : Nat) (hi : it.IsInBase) : ∃ it', iterate config code view n it = .ok it' := by
  induction n generalizing it with
  | zero => exact ⟨it, rfl⟩
  | succ n ih =>
      obtain ⟨it₁, h₁⟩ := next_ok hc hs hv hb hi
      rw [iterate, h₁, ok_bind]
      exact ih (isInBase_of_next h₁)

theorem iterate_congr (h : v.Agree w) (hb : config.IsBounded) (n : Nat) (hi : it.IsInBase) :
    iterate config code v n it = iterate config code w n it := by
  induction n generalizing it with
  | zero => rfl
  | succ n ih =>
      rw [iterate, iterate, next_congr h hb hi]
      cases h₁ : it.next config code w with
      | error e => rfl
      | ok it₁ => exact ih (isInBase_of_next h₁)

end Iteration

/-! ## Rounds -/

theorem runRound_ok (hv : view.IsValid) (seed : Vector UInt8 64) (reg : RegisterFile) (pad : Scratchpad) :
    ∃ out, runRound view seed reg pad = .ok out := by
  obtain ⟨raw, program, hp, hs, hc⟩ := Program.ofSeed_ok seed
  have hb := RoundConfig.ofEntropy_isBounded program.entropy
  obtain ⟨it, hit⟩ := Iteration.iterate_ok hc hs hv hb programIterations (Iteration.first_isInBase hb reg pad)
  simp only [runRound, hp, hit, ok_bind]
  exact ⟨_, rfl⟩

/-- A round takes nothing but the rounding mode from the registers before it, and nothing but items from the view. -/
theorem runRound_congr (h : v.Agree w) (seed : Vector UInt8 64) {reg reg' : RegisterFile}
    (hr : reg.rounding = reg'.rounding) (pad : Scratchpad) :
    runRound v seed reg pad = runRound w seed reg' pad := by
  have hfirst (config : RoundConfig) : Iteration.first config reg pad = Iteration.first config reg' pad := by
    rw [Iteration.first, Iteration.first, RegisterFile.clear, RegisterFile.clear, hr]
  cases hp : Program.ofSeed seed with
  | error e => simp only [runRound, hp, error_bind]
  | ok program =>
      have hb := RoundConfig.ofEntropy_isBounded program.entropy
      simp only [runRound, hp, ok_bind, hfirst]
      rw [Iteration.iterate_congr h hb programIterations (Iteration.first_isInBase hb reg' pad)]

end RandomX
