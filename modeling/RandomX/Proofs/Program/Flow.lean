import RandomX.Proofs.Program.Termination

/-!
# Flow of information

Within a program nothing flows from the floating-point registers, the rounding mode or the masks of the divisors to the
integer registers, the memory or the order of instructions. Two runs that start with the same integers go in step.
-/
namespace RandomX.Program

open Outcome

/-- Two states that differ in floating-point registers and rounding modes at most. -/
structure SameIntegers (c c' : Core) : Prop where
  counter : c'.counter = c.counter
  r : c'.reg.r = c.reg.r
  pad : c'.pad = c.pad

/-- Two states between which a step keeps agreement: of the integers, and of the rounding mode if it was there. -/
structure InStep (c c' d d' : Core) : Prop where
  integers : SameIntegers d d'
  rounding : c'.reg.rounding = c.reg.rounding → d'.reg.rounding = d.reg.rounding

variable {code : Code} {masks : LaneMasks} (masks' : LaneMasks) {c c' d e : Core} {cs : List Core}

/-! ## Instructions -/

theorem FloatOperand.value_ok_of_sameIntegers {o : FloatOperand} {reg reg' : RegisterFile} {pad : Scratchpad}
    {v : FloatPair} (hr : reg'.r = reg.r) (h : o.value reg pad = .ok v) : ∃ v', o.value reg' pad = .ok v' := by
  cases o with
  | register src => exact ⟨_, rfl⟩
  | memory address => exact ⟨v, by simpa only [value, hr] using h⟩

theorem Instruction.exists_inStep {i : Instruction} (h : SameIntegers c c') (hd : i.execute masks c = .ok d) :
    ∃ d', i.execute masks' c' = .ok d' ∧ InStep c c' d d' := by
  obtain ⟨n, ⟨r, f, g, a, mode⟩, pad⟩ := c
  obtain ⟨n', ⟨r', f', g', a', mode'⟩, pad'⟩ := c'
  obtain ⟨rfl, rfl, rfl⟩ := h
  cases i with
  | addShifted dst src shift imm =>
      simp only [execute] at hd ⊢
      split at hd
      · cases hd
        exact ⟨_, if_pos ‹_›, ⟨rfl, rfl, rfl⟩, id⟩
      · cases hd
  | integer op dst operand =>
      obtain ⟨v, hv, hd⟩ := bind_eq_ok.mp hd
      cases hd
      exact ⟨_, bind_eq_ok.mpr ⟨v, hv, rfl⟩, ⟨rfl, rfl, rfl⟩, id⟩
  | sum op dst operand =>
      obtain ⟨v, hv, hd⟩ := bind_eq_ok.mp hd
      cases hd
      have hr : (RegisterFile.mk r' f' g' a' mode').r = (RegisterFile.mk r' f g a mode).r := rfl
      obtain ⟨v', hv'⟩ := operand.value_ok_of_sameIntegers hr hv
      exact ⟨_, bind_eq_ok.mpr ⟨v', hv', rfl⟩, ⟨rfl, rfl, rfl⟩, id⟩
  | divide dst address =>
      obtain ⟨v, hv, hd⟩ := bind_eq_ok.mp hd
      cases hd
      exact ⟨_, bind_eq_ok.mpr ⟨v, hv, rfl⟩, ⟨rfl, rfl, rfl⟩, id⟩
  | branch b imm mask target =>
      rw [execute_branch] at hd
      cases hd
      exact ⟨_, execute_branch .., ⟨rfl, rfl, rfl⟩, id⟩
  | setRounding src rotate =>
      cases hd
      -- The new mode comes from an integer register, whatever the old ones were.
      exact ⟨_, rfl, ⟨rfl, rfl, rfl⟩, fun _ => rfl⟩
  | store dst src imm mask =>
      obtain ⟨pad, hpad, hd⟩ := bind_eq_ok.mp hd
      cases hd
      exact ⟨_, bind_eq_ok.mpr ⟨pad, hpad, rfl⟩, ⟨rfl, rfl, rfl⟩, id⟩
  | nop | negate _ | swap _ _ | swapAdditive _ | swapMultiplicative _ | scale _ | multiply _ _ | root _ =>
      cases hd
      exact ⟨_, rfl, ⟨rfl, rfl, rfl⟩, id⟩

theorem exists_inStep (h : SameIntegers c c') (hd : step code masks c = .ok d) :
    ∃ d', step code masks' c' = .ok d' ∧ InStep c c' d d' := by
  rw [step] at hd
  rw [step, h.counter]
  split at hd
  · cases hd
  · exact Instruction.exists_inStep masks' h hd

/-! ## Runs -/

/-- A run is followed, instruction by instruction, from every state with the same integers. -/
theorem Path.exists_inStep (h : Path code masks c cs e) (hc : SameIntegers c c') :
    ∃ cs' e', Path code masks' c' cs' e' ∧ cs'.map (·.counter) = cs.map (·.counter) ∧ InStep c c' e e' := by
  induction h generalizing c' with
  | refl c => exact ⟨[], c', .refl c', rfl, hc, id⟩
  | step hlt hs _ ih =>
      obtain ⟨d', hs', hd⟩ := Program.exists_inStep masks' hc hs
      obtain ⟨cs', e', hp, hcounters, he⟩ := ih hd.integers
      refine ⟨c' :: cs', e', .step (hc.counter ▸ hlt) hs' hp, ?_, he.integers, fun hm => he.rounding (hd.rounding hm)⟩
      rw [List.map_cons, List.map_cons, hcounters, hc.counter]

/-- A compiled program makes the same integer registers and the same memory of two states that agree on these, and
visits the same instructions in the same order on both, whatever the floating-point registers, the rounding modes and
the masks. Only a difference of the rounding modes can leave different rounding modes. -/
theorem floats_never_reach_integers (raw : ByteArray) (h : programSize * instructionBytes ≤ raw.size)
    (masks masks' : LaneMasks) (reg reg' : RegisterFile) (pad : Scratchpad) (hr : reg'.r = reg.r) :
    ∃ code cs cs' e e', compile raw = .ok code ∧
      (Path code masks ⟨0, reg, pad⟩ cs e ∧ e.counter = programSize ∧
        execute code masks reg pad = .ok (e.reg, e.pad)) ∧
      (Path code masks' ⟨0, reg', pad⟩ cs' e' ∧ e'.counter = programSize ∧
        execute code masks' reg' pad = .ok (e'.reg, e'.pad)) ∧
      e'.reg.r = e.reg.r ∧ e'.pad = e.pad ∧ cs'.map (·.counter) = cs.map (·.counter) ∧
      (reg'.rounding = reg.rounding → e'.reg.rounding = e.reg.rounding) := by
  obtain ⟨code, hcode, hs, hc⟩ := compile_ok h
  obtain ⟨cs, e, hp, he, hcov, hex⟩ := exists_run hc hs masks reg pad
  have hsame : SameIntegers ⟨0, reg, pad⟩ ⟨0, reg', pad⟩ := ⟨rfl, hr, rfl⟩
  obtain ⟨cs', e', hp', hcounters, hin⟩ := hp.exists_inStep masks' hsame
  have he' : e'.counter = programSize := hin.integers.counter.trans he
  have hlen : cs'.length = cs.length := by simpa using congrArg List.length hcounters
  have hex' : execute code masks' reg' pad = .ok (e'.reg, e'.pad) := by
    rw [execute, hp'.run_eq he'.ge (hlen.trans_le (hcov.length_le hp)), ok_bind, pure_eq_ok]
  exact ⟨code, cs, cs', e, e', hcode, ⟨hp, he, hex⟩, ⟨hp', he', hex'⟩, hin.integers.r, hin.integers.pad, hcounters,
    hin.rounding⟩

/-- A program with floats, a branch and a store, once on zeros alone and once beside a group that is not zero. -/
theorem sample_program_ignores_floats : ∃ code cs cs' e e', compile sample = .ok code ∧
    (∀ i < 8, code[i]? = sampleCode[i]?) ∧
    (Path code ⟨0, 0⟩ ⟨0, .blank .nearest, .blank⟩ cs e ∧ e.counter = programSize ∧
      execute code ⟨0, 0⟩ (.blank .nearest) .blank = .ok (e.reg, e.pad)) ∧
    (Path code ⟨1, 2⟩ ⟨0, ⟨.zero, .zero, ⟨⟨⟨1⟩, ⟨2⟩⟩, .zero, .zero, .zero⟩, .zero, .nearest⟩, .blank⟩ cs' e' ∧
      e'.counter = programSize ∧
      execute code ⟨1, 2⟩ ⟨.zero, .zero, ⟨⟨⟨1⟩, ⟨2⟩⟩, .zero, .zero, .zero⟩, .zero, .nearest⟩ .blank =
        .ok (e'.reg, e'.pad)) ∧
    e'.reg.r = e.reg.r ∧ e'.pad = e.pad ∧ cs'.map (·.counter) = cs.map (·.counter) ∧
    e'.reg.rounding = e.reg.rounding := by
  obtain ⟨code, cs, cs', e, e', hcode, hp, hp', hr, hpad, hcounters, hrounding⟩ :=
    floats_never_reach_integers sample size_sample ⟨0, 0⟩ ⟨1, 2⟩ (.blank .nearest)
      ⟨.zero, .zero, ⟨⟨⟨1⟩, ⟨2⟩⟩, .zero, .zero, .zero⟩, .zero, .nearest⟩ .blank rfl
  obtain ⟨_, hsample, -, hfirst⟩ := compile_sample
  cases hcode.symm.trans hsample
  exact ⟨code, cs, cs', e, e', hcode, hfirst, hp, hp', hr, hpad, hcounters, hrounding rfl⟩

end RandomX.Program
