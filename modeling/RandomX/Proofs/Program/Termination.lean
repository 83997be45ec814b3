import RandomX.Proofs.Program.Compiled
import RandomX.Proofs.Program.Path

/-!
# Termination

A compiled program always ends. The loops of two branches never overlap, and within a loop the register of its branch
changes at the branch alone, so each branch is taken at most twice. The run is cut at the first arrivals at the
instructions: what lies between two neighbouring ones is one visit, or the rounds of one loop.
-/
namespace RandomX.Program

open Outcome

variable {raw : ByteArray} {code : Code} {c : Core} {r : Reg}

/-! ## Single steps -/

theorem step_eq {x : Instruction} (hx : code[c.counter]? = some x) (masks : LaneMasks) :
    step code masks c = x.execute masks c := by
  rw [step, hx]

theorem jumps_eq_false {x : Instruction} (hx : code[c.counter]? = some x) (h : x.isBranch = false) :
    jumps code c = false := by
  cases x <;> simp_all [jumps, Instruction.isBranch]

theorem jumps_branch {b : Reg} {imm mask : UInt64} {t : Nat} (hx : code[c.counter]? = some (.branch b imm mask t)) :
    jumps code c = true ↔ (c.reg.r.get b + imm) &&& mask = 0 := by
  simp [jumps, hx]

theorem exists_branch_of_jumps (h : jumps code c = true) :
    ∃ b imm mask t, code[c.counter]? = some (.branch b imm mask t) ∧ (c.reg.r.get b + imm) &&& mask = 0 := by
  cases hx : code[c.counter]? with
  | none => simp [jumps, hx] at h
  | some x =>
      cases x with
      | branch b imm mask t => exact ⟨b, imm, mask, t, rfl, (jumps_branch hx).mp h⟩
      | _ => simp [jumps, hx] at h

/-- To take a branch is to step to an instruction that is not a later one. -/
theorem jumps_iff_counter_le {masks : LaneMasks} {d : Core} (hc : IsCompiled raw code)
    (hd : step code masks c = .ok d) : jumps code c = true ↔ d.counter ≤ c.counter := by
  obtain ⟨x, hx⟩ : ∃ x, code[c.counter]? = some x := by
    rw [step] at hd
    split at hd
    · cases hd
    · exact ⟨_, ‹_›⟩
  rw [step_eq hx] at hd
  cases hb : x.isBranch with
  | false =>
      rw [jumps_eq_false hx hb, (Instruction.frame_of_execute hd hb).counter]
      simp
  | true =>
      cases x with
      | branch b imm mask t =>
          rw [Instruction.execute_branch] at hd
          cases hd
          rw [jumps_branch hx]
          by_cases h : (c.reg.r.get b + imm) &&& mask = 0
          · simpa [h] using (hc.branch hx).1.le
          · simp [h]
      | _ => cases hb

/-- An instruction that does not end the reach of a branch leaves its register alone and is followed by the next. -/
theorem exists_step (hc : IsCompiled raw code) (masks : LaneMasks) {x : Instruction} (hx : code[c.counter]? = some x)
    (h : ¬ x.Ends r) :
    ∃ d, step code masks c = .ok d ∧ d.counter = c.counter + 1 ∧ d.reg.r.get r = c.reg.r.get r := by
  obtain ⟨hb, hm⟩ := not_or.mp h
  rw [Bool.not_eq_true] at hb
  obtain ⟨d, hd⟩ := Instruction.execute_ok (hc.isSafe hx) masks c
  have hf := Instruction.frame_of_execute hd hb
  exact ⟨d, (step_eq hx masks).trans hd, hf.counter, hf.get r hm⟩

/-! ## Straight runs -/

/-- Instructions that do not end the reach of a branch are run once each, in order. -/
theorem exists_straight (hc : IsCompiled raw code) (hs : code.size = programSize) (masks : LaneMasks) (m : Nat)
    (hm : c.counter + m ≤ programSize)
    (hf : ∀ j x, c.counter ≤ j → j < c.counter + m → code[j]? = some x → ¬ x.Ends r) :
    ∃ cs d, Path code masks c cs d ∧ d.counter = c.counter + m ∧ d.reg.r.get r = c.reg.r.get r ∧
      ∀ j, visits cs j = (if c.counter ≤ j ∧ j < c.counter + m then 1 else 0) ∧ takes code cs j = 0 := by
  induction m generalizing c with
  | zero => exact ⟨[], c, .refl c, rfl, rfl, fun j => ⟨by rw [if_neg (by omega)]; rfl, rfl⟩⟩
  | succ m ih =>
      have hlt : c.counter < programSize := by omega
      obtain ⟨x, hx⟩ : ∃ x, code[c.counter]? = some x := ⟨_, Array.getElem?_eq_getElem (by omega)⟩
      have hfx := hf _ x le_rfl (by omega) hx
      obtain ⟨d, hd, hdc, hdr⟩ := exists_step hc masks hx hfx
      have hfd : ∀ j y, d.counter ≤ j → j < d.counter + m → code[j]? = some y → ¬ y.Ends r :=
        fun j y hj hjm => hf j y (by omega) (by omega)
      obtain ⟨cs, e, hp, hec, her, hv⟩ := ih (c := d) (by omega) hfd
      have hj := jumps_eq_false hx (by simpa [Instruction.Ends] using fun hb => hfx (.inl hb))
      refine ⟨c :: cs, e, .step hlt hd hp, by omega, her.trans hdr, fun j => ⟨?_, ?_⟩⟩
      · rw [visits_cons, (hv j).1, hdc]
        split <;> split <;> split <;> omega
      · rw [takes_cons, (hv j).2, hj]
        simp

/-! ## Loops -/

section Loop

variable {b : Reg} {imm mask : UInt64} {t : Nat}

/-- A branch that is taken leads through its loop back to itself. Its register has moved on by the addend. -/
theorem exists_round (hc : IsCompiled raw code) (hs : code.size = programSize) (masks : LaneMasks)
    (hx : code[c.counter]? = some (.branch b imm mask t)) (hj : jumps code c = true) :
    ∃ cs d, Path code masks c cs d ∧ d.counter = c.counter ∧ d.reg.r.get b = c.reg.r.get b + imm ∧
      ∀ j, visits cs j = (if t ≤ j ∧ j ≤ c.counter then 1 else 0) ∧
        takes code cs j = (if j = c.counter then 1 else 0) := by
  obtain ⟨ht, _⟩ := hc.branch hx
  obtain ⟨hi, _⟩ := Array.getElem?_eq_some_iff.mp hx
  have hle := ht.le
  have hd := (step_eq hx masks).trans (Instruction.execute_branch b imm mask t masks c)
  rw [if_pos ((jumps_branch hx).mp hj)] at hd
  -- The body between the target and the branch is a straight run.
  obtain ⟨cs, e, hp, hec, her, hv⟩ := exists_straight (c := ⟨t, { c.reg with r := _ }, c.pad⟩) hc hs masks
    (c.counter - t) (by simp only; omega) fun j y hj hlt => ht.free j y hj (by simp only at hlt; omega)
  refine ⟨c :: cs, e, .step (by omega) hd hp, by rw [hec]; simp only; omega,
    her.trans (Line.get_set_self _ _ _), fun j => ⟨?_, ?_⟩⟩
  · rw [visits_cons, (hv j).1]
    simp only
    split <;> split <;> split <;> omega
  · rw [takes_cons, (hv j).2, hj]
    simp

end Loop

/-- The steps from the first arrival at an instruction to that at the next: one visit to it and `k` rounds of a loop
back to `t`. -/
structure IsStage (code : Code) (i k t : Nat) (cs : List Core) : Prop where
  rounds_le : k ≤ 2
  /-- Only a branch has rounds. -/
  branch : 0 < k → ∃ x, code[i]? = some x ∧ x.isBranch = true
  /-- The body of its loop has no branch. -/
  body : 0 < k → ∀ j x, t ≤ j → j < i → code[j]? = some x → x.isBranch = false
  visits_eq : ∀ j, visits cs j = (if j = i then 1 else 0) + k * (if t ≤ j ∧ j ≤ i then 1 else 0)
  takes_eq : ∀ j, takes code cs j = (if j = i then k else 0)

theorem IsStage.cons_round {i k t : Nat} {cs ds : List Core} (h : IsStage code i k t ds) (hk : k < 2)
    (hb : ∃ x, code[i]? = some x ∧ x.isBranch = true)
    (hf : ∀ j x, t ≤ j → j < i → code[j]? = some x → x.isBranch = false)
    (hv : ∀ j, visits cs j = (if t ≤ j ∧ j ≤ i then 1 else 0) ∧ takes code cs j = (if j = i then 1 else 0)) :
    IsStage code i (k + 1) t (cs ++ ds) where
  rounds_le := hk
  branch _ := hb
  body _ := hf
  visits_eq j := by
    rw [visits_append, (hv j).1, h.visits_eq j, Nat.add_mul, Nat.one_mul]
    omega
  takes_eq j := by
    rw [takes_append, (hv j).2, h.takes_eq j]
    split <;> omega

theorem IsStage.single {i : Nat} (t : Nat) (hi : c.counter = i) (hj : jumps code c = false) :
    IsStage code i 0 t [c] where
  rounds_le := Nat.zero_le 2
  branch h := absurd h (Nat.lt_irrefl 0)
  body h := absurd h (Nat.lt_irrefl 0)
  visits_eq j := by rw [visits_cons, hi, visits_nil, Nat.zero_mul]
  takes_eq j := by rw [takes_cons, hj]; simp

theorem exists_stage_of_not_jumps (hc : IsCompiled raw code) (hs : code.size = programSize) (masks : LaneMasks) (t : Nat)
    (hlt : c.counter < programSize) (hj : jumps code c = false) :
    ∃ cs d, Path code masks c cs d ∧ d.counter = c.counter + 1 ∧ IsStage code c.counter 0 t cs := by
  obtain ⟨x, hx⟩ : ∃ x, code[c.counter]? = some x := ⟨_, Array.getElem?_eq_getElem (by omega)⟩
  obtain ⟨d, hd⟩ := Instruction.execute_ok (hc.isSafe hx) masks c
  refine ⟨[c], d, .single hlt ((step_eq hx masks).trans hd), ?_, .single t rfl hj⟩
  cases hb : x.isBranch with
  | false => exact (Instruction.frame_of_execute hd hb).counter
  | true =>
      cases x with
      | branch b imm mask target =>
          rw [Instruction.execute_branch, if_neg (by simpa [hj] using jumps_branch hx)] at hd
          cases hd
          rfl
      | _ => cases hb

theorem exists_stage_of_round (hc : IsCompiled raw code) (hs : code.size = programSize) (masks : LaneMasks)
    {b : Reg} {imm mask : UInt64} {t k : Nat} (hk : k < 2) (hx : code[c.counter]? = some (.branch b imm mask t))
    (hj : jumps code c = true)
    (h : ∀ d, d.counter = c.counter → d.reg.r.get b = c.reg.r.get b + imm →
      ∃ cs e, Path code masks d cs e ∧ e.counter = d.counter + 1 ∧ IsStage code d.counter k t cs) :
    ∃ cs e, Path code masks c cs e ∧ e.counter = c.counter + 1 ∧ IsStage code c.counter (k + 1) t cs := by
  obtain ⟨cs, d, hp, hdc, hdr, hv⟩ := exists_round hc hs masks hx hj
  obtain ⟨ds, e, hq, hec, hst⟩ := h d hdc hdr
  rw [hdc] at hec hst
  refine ⟨cs ++ ds, e, hp.trans hq, hec, hst.cons_round hk ⟨_, hx, rfl⟩ (fun j y hj hlt hy => ?_) hv⟩
  simpa using mt Or.inl ((hc.branch hx).1.free j y hj hlt hy)

/-- From the first arrival at an instruction the program comes to the next one. A branch is left after two rounds at
most: a third would need three sums in a row that leave its field clear. -/
theorem exists_stage (hc : IsCompiled raw code) (hs : code.size = programSize) (masks : LaneMasks)
    (hlt : c.counter < programSize) :
    ∃ k t cs d, Path code masks c cs d ∧ d.counter = c.counter + 1 ∧ IsStage code c.counter k t cs := by
  cases hj : jumps code c with
  | false => exact ⟨0, 0, exists_stage_of_not_jumps hc hs masks 0 hlt hj⟩
  | true =>
      obtain ⟨b, imm, mask, t, hx, h₁⟩ := exists_branch_of_jumps hj
      obtain ⟨s, hw⟩ := (hc.branch hx).2
      by_cases h₂ : (c.reg.r.get b + imm + imm) &&& mask = 0
      · refine ⟨2, t, exists_stage_of_round hc hs masks (by decide) hx hj fun d hdc hdr => ?_⟩
        rw [← hdc] at hx hlt
        refine exists_stage_of_round hc hs masks (by decide) hx ((jumps_branch hx).mpr (by rwa [hdr])) fun e hec her => ?_
        rw [← hec] at hx hlt
        refine exists_stage_of_not_jumps hc hs masks t hlt (Bool.eq_false_iff.mpr fun hje => ?_)
        rw [jumps_branch hx, her, hdr] at hje
        exact hw.third_sum_ne_zero h₁ h₂ hje
      · refine ⟨1, t, exists_stage_of_round hc hs masks (by decide) hx hj fun d hdc hdr => ?_⟩
        rw [← hdc] at hx hlt
        refine exists_stage_of_not_jumps hc hs masks t hlt (Bool.eq_false_iff.mpr fun hjd => ?_)
        rw [jumps_branch hx, hdr] at hjd
        exact h₂ hjd

/-! ## Whole runs -/

/-- What the steps before the first arrival at an index have run. -/
structure IsCover (code : Code) (i : Nat) (cs : List Core) : Prop where
  visits_eq_zero : ∀ j, i ≤ j → visits cs j = 0
  visits_pos : ∀ j, j < i → 0 < visits cs j
  visits_le : ∀ j, visits cs j ≤ 3
  /-- What follows the last branch has been run once: a later loop may still repeat it. -/
  visits_eq_one : ∀ j, j < i → (∀ k x, j ≤ k → k < i → code[k]? = some x → x.isBranch = false) → visits cs j = 1
  takes_le : ∀ j, takes code cs j ≤ 2

theorem IsCover.nil : IsCover code 0 [] where
  visits_eq_zero _ _ := rfl
  visits_pos _ h := absurd h (Nat.not_lt_zero _)
  visits_le _ := Nat.zero_le 3
  visits_eq_one _ h := absurd h (Nat.not_lt_zero _)
  takes_le _ := Nat.zero_le 2

theorem IsCover.append {i k t : Nat} {cs ds : List Core} (h : IsCover code i cs) (hd : IsStage code i k t ds) :
    IsCover code (i + 1) (cs ++ ds) where
  visits_eq_zero j hj := by
    rw [visits_append, h.visits_eq_zero j (by omega), hd.visits_eq, if_neg (by omega), if_neg (by omega), Nat.mul_zero]
  visits_pos j hj := by
    rw [visits_append, hd.visits_eq]
    rcases Nat.lt_or_eq_of_le (Nat.le_of_lt_succ hj) with hlt | rfl
    · exact Nat.add_pos_left (h.visits_pos j hlt) _
    · rw [if_pos rfl]
      omega
  visits_le j := by
    have hk := hd.rounds_le
    rw [visits_append, hd.visits_eq]
    rcases Nat.lt_or_ge j i with hlt | hge
    · rw [if_neg (Nat.ne_of_lt hlt)]
      split
      · rcases Nat.eq_zero_or_pos k with rfl | hpos
        · simpa using h.visits_le j
        · -- The body of the loop has been run once so far.
          have := h.visits_eq_one j hlt fun m x hm hlt => hd.body hpos m x (by omega) hlt
          omega
      · simpa using h.visits_le j
    · rw [h.visits_eq_zero j hge]
      split <;> split <;> omega
  visits_eq_one j hj hf := by
    obtain rfl : k = 0 := by
      by_contra hk
      obtain ⟨x, hx, hb⟩ := hd.branch (Nat.pos_of_ne_zero hk)
      rw [hf i x (Nat.le_of_lt_succ hj) (Nat.lt_succ_self i) hx] at hb
      cases hb
    rw [visits_append, hd.visits_eq, Nat.zero_mul, Nat.add_zero]
    rcases Nat.lt_or_eq_of_le (Nat.le_of_lt_succ hj) with hlt | rfl
    · rw [if_neg (Nat.ne_of_lt hlt), h.visits_eq_one j hlt fun m x hm hlt => hf m x hm (Nat.lt_succ_of_lt hlt)]
    · rw [if_pos rfl, h.visits_eq_zero j le_rfl]
  takes_le j := by
    have hk := hd.rounds_le
    rw [takes_append, hd.takes_eq]
    split
    · have := takes_le_visits code cs j
      have := h.visits_eq_zero j (by omega)
      omega
    · exact h.takes_le j

theorem exists_cover (hc : IsCompiled raw code) (hs : code.size = programSize) (masks : LaneMasks)
    (h0 : c.counter = 0) (n : Nat) (hn : n ≤ programSize) :
    ∃ cs d, Path code masks c cs d ∧ d.counter = n ∧ IsCover code n cs := by
  induction n with
  | zero => exact ⟨[], c, .refl c, h0, .nil⟩
  | succ n ih =>
      obtain ⟨cs, d, hp, hd, hcov⟩ := ih (Nat.le_of_succ_le hn)
      obtain ⟨k, t, ds, e, hq, he, hst⟩ := exists_stage hc hs masks (c := d) (by omega)
      rw [hd] at he hst
      exact ⟨cs ++ ds, e, hp.trans hq, he, hcov.append hst⟩

/-- A cover of the program is no longer than its limit. -/
theorem IsCover.length_le {cs : List Core} {e : Core} {masks : LaneMasks} (h : IsCover code programSize cs)
    (hp : Path code masks c cs e) : cs.length ≤ stepLimit := by
  have hle := length_le_of_visits hp.counter_lt fun i _ => h.visits_le i
  rwa [Nat.mul_comm] at hle

/-- A compiled program comes to its end from every state of the registers and the scratchpad. -/
theorem exists_run (hc : IsCompiled raw code) (hs : code.size = programSize) (masks : LaneMasks) (reg : RegisterFile)
    (pad : Scratchpad) :
    ∃ cs e, Path code masks ⟨0, reg, pad⟩ cs e ∧ e.counter = programSize ∧ IsCover code programSize cs ∧
      execute code masks reg pad = .ok (e.reg, e.pad) := by
  obtain ⟨cs, e, hp, he, hcov⟩ := exists_cover (c := ⟨0, reg, pad⟩) hc hs masks rfl programSize le_rfl
  exact ⟨cs, e, hp, he, hcov, by rw [execute, hp.run_eq he.ge (hcov.length_le hp), ok_bind, pure_eq_ok]⟩

/-- Every program that is long enough compiles, and for every state of the registers and the scratchpad what it
compiles to comes to its end. On the way each instruction is run once, twice or three times, and no branch is taken
more than twice: no more than twice a step leads from it to an instruction that is not a later one. -/
theorem compiled_program_terminates (raw : ByteArray) (h : programSize * instructionBytes ≤ raw.size)
    (masks : LaneMasks) (reg : RegisterFile) (pad : Scratchpad) :
    ∃ code cs e, compile raw = .ok code ∧ code.size = programSize ∧ Path code masks ⟨0, reg, pad⟩ cs e ∧
      e.counter = programSize ∧ execute code masks reg pad = .ok (e.reg, e.pad) ∧
      (∀ i < programSize, 1 ≤ visits cs i ∧ visits cs i ≤ 3) ∧ (∀ i, takes code cs i ≤ 2) ∧
      ∀ c d, step code masks c = .ok d → (jumps code c = true ↔ d.counter ≤ c.counter) := by
  obtain ⟨code, hcode, hs, hc⟩ := compile_ok h
  obtain ⟨cs, e, hp, he, hcov, hex⟩ := exists_run hc hs masks reg pad
  exact ⟨code, cs, e, hcode, hs, hp, he, hex, fun i _ => ⟨hcov.visits_pos i ‹_›, hcov.visits_le i⟩, hcov.takes_le,
    fun c d hd => jumps_iff_counter_le hc hd⟩

/-- A program with a memory operand, floats, a branch and a store. -/
theorem sample_program_terminates : ∃ code cs e,
    compile sample = .ok code ∧ code[5]? = some (.branch .r3 0x201 0x1FE00 2) ∧
      Path code ⟨0, 0⟩ ⟨0, .blank .nearest, .blank⟩ cs e ∧ e.counter = programSize ∧
      execute code ⟨0, 0⟩ (.blank .nearest) .blank = .ok (e.reg, e.pad) ∧
      (∀ i < programSize, 1 ≤ visits cs i ∧ visits cs i ≤ 3) ∧ ∀ i, takes code cs i ≤ 2 := by
  obtain ⟨code, cs, e, hcode, -, hp, he, hex, hvisits, htakes, -⟩ :=
    compiled_program_terminates sample size_sample ⟨0, 0⟩ (.blank .nearest) .blank
  obtain ⟨_, hsample, -, hfirst⟩ := compile_sample
  cases hcode.symm.trans hsample
  exact ⟨code, cs, e, hcode, hfirst 5 (by decide), hp, he, hex, hvisits, htakes⟩

end RandomX.Program
