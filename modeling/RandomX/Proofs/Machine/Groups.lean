import RandomX.Proofs.Binary64.Level
import RandomX.Proofs.Binary64.Root
import RandomX.Proofs.Machine.Access
import RandomX.Proofs.Program.Lanes

/-!
# Floating-point groups

The ranges that the three groups keep in every iteration of a round, from the loading of the registers to the end of the
program. They rest on what one instruction makes of a lane and on the number of steps that a program takes.
-/
namespace RandomX

open Outcome Binary64

variable {config : RoundConfig} {raw : ByteArray} {code : Program.Code} {view : DatasetView}

/-! ## Configurations -/

/-- The constants and the masks come from entropy. -/
structure RoundConfig.IsDrawn (config : RoundConfig) : Prop where
  a : ∀ x, config.a.IsLane x → x.IsSmallPositive
  masks : ∀ x : Binary64, (x.masked config.masks.lo).IsForced ∧ (x.masked config.masks.hi).IsForced

theorem RoundConfig.ofEntropy_isDrawn (words : Vector UInt64 16) : (ofEntropy words).IsDrawn where
  a := by
    rintro x ⟨r, hx⟩
    obtain ⟨lo, hi, hr⟩ : ∃ lo hi, (ofEntropy words).a.get r = ⟨smallPositive lo, smallPositive hi⟩ := by
      cases r <;> exact ⟨_, _, rfl⟩
    rw [hr] at hx
    rcases hx with rfl | rfl
    · exact smallPositive_isSmallPositive lo
    · exact smallPositive_isSmallPositive hi
  masks x := ⟨masked_isForced x _, masked_isForced x _⟩

/-! ## Steps -/

namespace Program

variable {masks : LaneMasks} {c d : Core} {n : Nat}

theorem isForced_of_isMasked (hd : config.IsDrawn) {x : Binary64} (h : IsMasked config.masks x) : x.IsForced := by
  obtain ⟨w, rfl | rfl⟩ := h
  · exact (hd.masks _).1
  · exact (hd.masks _).2

/-- After `n` steps the multiplicative lanes are not below the power of two that `n` divisions leave of a loaded lane. -/
structure KeepsMultiplicative (config : RoundConfig) (n : Nat) (c : Core) : Prop where
  a : c.reg.a = config.a
  e : ∀ x, c.reg.e.IsLane x → x.IsAtLeast (-255 - n)

theorem KeepsMultiplicative.of_moves (hd : config.IsDrawn) (hn : n < stepLimit) (h : KeepsMultiplicative config n c)
    (hm : Moves config.masks c d) : KeepsMultiplicative config (n + 1) d where
  a := hm.a.trans h.a
  e z hz := by
    have hlimit : n < 768 := hn
    obtain ⟨x, hx, hmove⟩ := hm.e z hz
    have hk := h.e x hx
    rw [h.a] at hmove
    cases hmove with
    | keep => exact hk.mono (by push_cast; omega)
    | product mode hv =>
        have hy := hd.a _ hv
        exact (hk.mul (by omega) (by omega) hy.isAtLeast hy.isFinite mode).mono (by push_cast; omega)
    | quotient mode hv =>
        have hy := isForced_of_isMasked hd hv
        exact (hk.div (by omega) (by omega) hy.isAtLeast hy.isFinite hy.magnitude_lt mode).mono (by push_cast; omega)
    | root mode => exact (hk.sqrt (by omega) (by omega) mode).mono (by push_cast; omega)

/-- After `n` steps the additive lanes are at the levels that `n` sums lead to. -/
structure KeepsAdditive (config : RoundConfig) (n : Nat) (c : Core) : Prop where
  a : c.reg.a = config.a
  f : ∀ x, c.reg.f.IsLane x → x.IsWithin n

theorem KeepsAdditive.of_moves (hd : config.IsDrawn) (hn : n < stepLimit) (h : KeepsAdditive config n c)
    (hm : Moves config.masks c d) : KeepsAdditive config (n + 1) d where
  a := hm.a.trans h.a
  f z hz := by
    have hlimit : n < 768 := hn
    obtain ⟨x, hx, hmove⟩ := hm.f z hz
    have hk := h.f x hx
    rw [h.a] at hmove
    cases hmove with
    | keep => exact hk.mono (Nat.le_succ n)
    | @sum op mode v hv =>
        have hy : v.IsAddend := by
          rcases hv with hv | ⟨w, rfl⟩
          · exact (hd.a _ hv).isAddend
          · exact ofInt32_isAddend w
        cases op with
        | add => exact hk.add (by omega) hy mode
        | sub => exact hk.sub (by omega) hy mode
    | scale => exact hk.scaled.mono (Nat.le_succ n)

theorem a_of_run (h : run code masks n c = .ok d) : d.reg.a = c.reg.a := by
  induction n generalizing c with
  | zero =>
      rw [run] at h
      split at h
      · cases h
        rfl
      · cases h
  | succ n ih =>
      rw [run] at h
      split at h
      · cases h
        rfl
      · obtain ⟨c', hc', h⟩ := bind_eq_ok.mp h
        exact (ih h).trans (moves_of_step hc').a

end Program

/-! ## Iterations -/

namespace Iteration

variable {it it' : Iteration}

/-- The program of the iteration runs to its end, and the property holds of every state on the way, from the loaded
registers to those that the program leaves behind. -/
def Throughout (config : RoundConfig) (code : Program.Code) (it : Iteration) (P : Core → Prop) : Prop :=
  ∃ reg cs e, it.loadRegisters config = .ok reg ∧ Program.Path code config.masks ⟨0, reg, it.pad⟩ cs e ∧
    e.counter = programSize ∧ Program.execute code config.masks reg it.pad = .ok (e.reg, e.pad) ∧ ∀ c ∈ cs ++ [e], P c

theorem Throughout.imp {P Q : Core → Prop} (h : it.Throughout config code P) (hpq : ∀ c, P c → Q c) :
    it.Throughout config code Q := by
  obtain ⟨reg, cs, e, hreg, hp, he, hex, hall⟩ := h
  exact ⟨reg, cs, e, hreg, hp, he, hex, fun c hc => hpq c (hall c hc)⟩

/-- What holds of the loaded registers and is carried on by every step holds throughout an iteration, after no more steps
than a program takes. -/
theorem throughout_of_moves (hc : Program.IsCompiled raw code) (hs : code.size = programSize) {P : Nat → Core → Prop}
    (hload : ∀ reg, it.loadRegisters config = .ok reg → P 0 ⟨0, reg, it.pad⟩)
    (hstep : ∀ n c d, n < Program.stepLimit → P n c → Program.Moves config.masks c d → P (n + 1) d) :
    it.Throughout config code fun c => ∃ n ≤ Program.stepLimit, P n c := by
  obtain ⟨reg, hreg⟩ := it.loadRegisters_ok config
  obtain ⟨cs, e, hp, he, hcov, hex⟩ := Program.exists_run hc hs config.masks reg it.pad
  have hlen : 0 + cs.length ≤ Program.stepLimit := by
    rw [Nat.zero_add]
    exact hcov.length_le hp
  exact ⟨reg, cs, e, hreg, hp, he, hex, hp.forall_of_step hlen
    (fun n c d hn h hd => hstep n c d hn h (Program.moves_of_step hd)) (hload reg hreg)⟩

theorem exists_of_loadRegisters {reg : RegisterFile} (h : it.loadRegisters config = .ok reg) :
    reg.a = it.reg.a ∧ (∀ x, reg.f.IsLane x → ∃ w, x = ofInt32 w) ∧
      ∀ x, reg.e.IsLane x → Program.IsMasked config.masks x := by
  obtain ⟨_, _, h⟩ := bind_eq_ok.mp h
  obtain ⟨f, hf, h⟩ := bind_eq_ok.mp h
  obtain ⟨e, he, h⟩ := bind_eq_ok.mp h
  cases h
  refine ⟨rfl, fun x hx => Scratchpad.exists_of_loadGroup hf hx, ?_⟩
  rintro x ⟨r, hx⟩
  have hget : (e.map (·.masked config.masks)).get r = (e.get r).masked config.masks := by
    cases r <;> rfl
  rw [hget] at hx
  rcases hx with rfl | rfl
  · obtain ⟨w, hw⟩ := Scratchpad.exists_of_loadGroup he (e.isLane_lo r)
    exact ⟨w, .inl (by rw [← hw]; rfl)⟩
  · obtain ⟨w, hw⟩ := Scratchpad.exists_of_loadGroup he (e.isLane_hi r)
    exact ⟨w, .inr (by rw [← hw]; rfl)⟩

/-! ## The constant group -/

theorem a_of_next (h : it.next config code view = .ok it') : it'.reg.a = it.reg.a := by
  rw [next_eq] at h
  obtain ⟨reg, hreg, h⟩ := bind_eq_ok.mp h
  obtain ⟨⟨reg', pad'⟩, hex, h⟩ := bind_eq_ok.mp h
  obtain ⟨_, _, h⟩ := bind_eq_ok.mp h
  obtain ⟨⟨reg'', _⟩, hback, h⟩ := bind_eq_ok.mp h
  cases h
  obtain ⟨d, hrun, hex⟩ := bind_eq_ok.mp hex
  cases hex
  obtain ⟨_, _, hback⟩ := bind_eq_ok.mp hback
  obtain ⟨_, _, hback⟩ := bind_eq_ok.mp hback
  cases hback
  exact (Program.a_of_run hrun).trans (exists_of_loadRegisters hreg).1

theorem a_of_mem_states {n : Nat} (h : it.reg.a = config.a) :
    ∀ s ∈ states config code view n it, s.reg.a = config.a := by
  induction n generalizing it with
  | zero => simp [states]
  | succ n ih =>
      rw [states, List.forall_mem_cons]
      exact ⟨h, forall_mem_collect fun it' hit => ih ((a_of_next hit).trans h)⟩

/-! ## The other groups -/

theorem throughout_keepsMultiplicative (hd : config.IsDrawn) (hc : Program.IsCompiled raw code)
    (hs : code.size = programSize) (ha : it.reg.a = config.a) :
    it.Throughout config code fun c => ∃ n ≤ Program.stepLimit, Program.KeepsMultiplicative config n c := by
  refine throughout_of_moves hc hs (fun reg hreg => ?_) fun n c d hn h hm => h.of_moves hd hn hm
  obtain ⟨hreg, _, he⟩ := exists_of_loadRegisters hreg
  refine ⟨hreg.trans ha, fun x hx => ?_⟩
  exact (Program.isForced_of_isMasked hd (he x hx)).isAtLeast

theorem throughout_keepsAdditive (hd : config.IsDrawn) (hc : Program.IsCompiled raw code)
    (hs : code.size = programSize) (ha : it.reg.a = config.a) :
    it.Throughout config code fun c => ∃ n ≤ Program.stepLimit, Program.KeepsAdditive config n c := by
  refine throughout_of_moves hc hs (fun reg hreg => ?_) fun n c d hn h hm => h.of_moves hd hn hm
  obtain ⟨hreg, hf, _⟩ := exists_of_loadRegisters hreg
  refine ⟨hreg.trans ha, fun x hx => ?_⟩
  obtain ⟨w, rfl⟩ := hf x hx
  exact (ofInt32_isAddend w).isWithin 0

end Iteration

/-! ## Rounds -/

/-- What holds of the multiplicative group and of the constants at a state of a program. -/
structure Program.IsWellBehaved (config : RoundConfig) (code : Code) (c : Core) : Prop where
  a_eq : c.reg.a = config.a
  divisor : ∀ dst address v, code[c.counter]? = some (.divide dst address) →
    c.pad.loadPair (address.resolve c.reg.r).toNat = .ok v →
      (v.masked config.masks).lo.IsForced ∧ (v.masked config.masks).hi.IsForced
  e : ∀ x, c.reg.e.IsLane x → x.isNegative = false ∧ x.isZero = false ∧ x.isNaN = false

/-- In every iteration of a round, from the loading of the registers to the end of the program, the constants are those
of the round, finite and from one to below `2 ^ 32`, loaded multiplicative lanes and divisors are positive with an
exponent that the masks force, and no multiplicative lane is negative, zero or a NaN. -/
theorem multiplicative_group_is_well_behaved (view : DatasetView) (seed : Vector UInt8 64) (reg : RegisterFile)
    (pad : Scratchpad) :
    ∃ program, Program.ofSeed seed = .ok program ∧
      let config := RoundConfig.ofEntropy program.entropy
      (∀ x, config.a.IsLane x → x.IsSmallPositive) ∧
      ∀ it ∈ Iteration.states config program.code view programIterations (.first config reg pad),
        (∃ loaded, it.loadRegisters config = .ok loaded ∧ ∀ x, loaded.e.IsLane x → x.IsForced) ∧
          it.Throughout config program.code (Program.IsWellBehaved config program.code) := by
  obtain ⟨raw, program, hp, hs, hc⟩ := Program.ofSeed_ok seed
  have hd := RoundConfig.ofEntropy_isDrawn program.entropy
  refine ⟨program, hp, hd.a, fun it hit => ⟨?_, ?_⟩⟩
  · obtain ⟨loaded, hloaded⟩ := it.loadRegisters_ok (.ofEntropy program.entropy)
    obtain ⟨_, _, he⟩ := Iteration.exists_of_loadRegisters hloaded
    exact ⟨loaded, hloaded, fun x hx => Program.isForced_of_isMasked hd (he x hx)⟩
  · have ha := Iteration.a_of_mem_states rfl it hit
    refine (Iteration.throughout_keepsMultiplicative hd hc hs ha).imp ?_
    rintro c ⟨n, _, hk⟩
    refine ⟨hk.a, fun _ _ v _ _ => ⟨(hd.masks _).1, (hd.masks _).2⟩, fun x hx => ?_⟩
    have hx := hk.e x hx
    exact ⟨hx.isNegative, hx.isZero, hx.isNaN⟩

/-- In every iteration of a round, from the loading of the registers to the end of the program, every additive lane is
finite. -/
theorem additive_group_is_finite (view : DatasetView) (seed : Vector UInt8 64) (reg : RegisterFile) (pad : Scratchpad) :
    ∃ program, Program.ofSeed seed = .ok program ∧
      let config := RoundConfig.ofEntropy program.entropy
      ∀ it ∈ Iteration.states config program.code view programIterations (.first config reg pad),
        it.Throughout config program.code fun c => ∀ x, c.reg.f.IsLane x → x.isFinite = true := by
  obtain ⟨raw, program, hp, hs, hc⟩ := Program.ofSeed_ok seed
  have hd := RoundConfig.ofEntropy_isDrawn program.entropy
  refine ⟨program, hp, fun it hit => ?_⟩
  have ha := Iteration.a_of_mem_states rfl it hit
  refine (Iteration.throughout_keepsAdditive hd hc hs ha).imp ?_
  rintro c ⟨n, hn, hk⟩ x hx
  exact (hk.f x hx).isFinite (hn.trans (by decide))

end RandomX
