import Mathlib.Data.Prod.Lex
import RandomX.Proofs.Superscalar.WellFormed

/-!
# Passes

A pass over a slot fills it, throws a candidate away or leaves the buffer. No counter moves in all three cases, but the
cycles, slots and throw-aways that are left go down in this order of weight, and their sum bounds the passes of a run.
-/
namespace RandomX.Superscalar.Builder

open Outcome

variable {σ : Type} {b b' : Builder σ} {c : Candidate} {op : MacroOp} {shape : Shape} {length : Nat} {slots : List Nat}

/-! ## What is left -/

def slotsLeft (b : Builder σ) : ℕ :=
  match b.phase with
  | .issue _ slots => slots.length
  | _ => 0

/-- The next step goes over a slot. -/
def isPass (b : Builder σ) : Bool :=
  b.slotsLeft ≠ 0

/-- The cycles that are left, then the slots of the buffer, then the throw-aways. -/
def left (b : Builder σ) : ℕ ×ₗ ℕ ×ₗ ℕ :=
  toLex (superscalarLatency - b.decodeCycle, toLex (b.slotsLeft, maxThrowaways - b.throwaways))

/-- A bound on the passes to the end. -/
def passesLeft (b : Builder σ) : ℕ :=
  match b.phase with
  | .done => 0
  | .decode => (superscalarLatency - b.decodeCycle) * (4 * (maxThrowaways + 1))
  | .issue _ slots =>
    (superscalarLatency - (b.decodeCycle + 1)) * (4 * (maxThrowaways + 1)) +
      (slots.length * (maxThrowaways + 1) - b.throwaways)

theorem isPass_iff : b.isPass = true ↔ ∃ shape length slots, b.phase = .issue shape (length :: slots) := by
  rw [isPass, slotsLeft]
  cases b.phase with
  | decode => simp
  | done => simp
  | issue shape slots => cases slots <;> simp

/-! ## Outcomes of a pass -/

/-- What a pass over the first of the slots does to what is left. -/
inductive Passes (b : Builder σ) (shape : Shape) (slots : List Nat) (b' : Builder σ) : Prop where
  | closed (hphase : b'.phase = .decode) (hcycle : b'.decodeCycle = b.decodeCycle + 1)
  | thrownAway (hphase : b'.phase = b.phase) (hcycle : b'.decodeCycle = b.decodeCycle)
      (hlt : b.throwaways < maxThrowaways) (hthrow : b'.throwaways = b.throwaways + 1)
  | filled (hphase : b'.phase = .issue shape slots) (hcycle : b'.decodeCycle = b.decodeCycle)
      (hthrow : b'.throwaways = 0)

theorem passes_stall (b₀ : Builder σ) (hphase : b₀.phase = b.phase) (hcycle : b₀.decodeCycle = b.decodeCycle)
    (hthrow : b₀.throwaways = b.throwaways) : Passes b shape slots b₀.stall := by
  rw [stall]
  split
  · rename_i hlt
    exact .thrownAway hphase hcycle (hthrow ▸ hlt) (congrArg (· + 1) hthrow)
  · exact .closed rfl (congrArg (· + 1) hcycle)

theorem Issues.passes {b₀ : Builder σ} {top cycle : Nat} (h : Issues b₀ c op shape slots top cycle b')
    (hcycle : b₀.decodeCycle = b.decodeCycle) : Passes b shape slots b' := by
  cases h with
  | blocked => exact .closed rfl (congrArg (· + 1) hcycle)
  | continued => exact .filled rfl hcycle rfl
  | dropped => exact .filled rfl hcycle rfl
  | finished => exact .filled rfl hcycle rfl

variable [EntropyStream σ]

theorem Tries.passes {b₀ : Builder σ} (h : Tries b₀ c shape slots b') (hphase : b₀.phase = b.phase)
    (hcycle : b₀.decodeCycle = b.decodeCycle) (hthrow : b₀.throwaways = b.throwaways) : Passes b shape slots b' := by
  cases h with
  | blocked => exact .closed rfl (congrArg (· + 1) hcycle)
  | sourceless => exact passes_stall _ hphase hcycle hthrow
  | placeless => exact passes_stall _ hphase hcycle hthrow
  | issues _ _ _ _ h => exact h.passes hcycle

theorem Steps.passes (h : b.Steps b') (hphase : b.phase = .issue shape (length :: slots)) : Passes b shape slots b' := by
  cases h with
  | stopped h | opened h | ended h | filled h => simp [hphase] at h
  | full h => exact .closed rfl rfl
  | drawn h _ _ _ htry | resumed h _ _ htry =>
      rw [hphase] at h
      cases h
      exact htry.passes rfl rfl rfl

/-! ## Steps -/

omit [EntropyStream σ] in
/-- A buffer is open only while cycles are left. -/
def IsTimely (b : Builder σ) : Prop :=
  ∀ shape slots, b.phase = .issue shape slots → b.decodeCycle < superscalarLatency

omit [EntropyStream σ] in
theorem start_isTimely (s : σ) : (start s).IsTimely := by
  intro shape slots h
  cases h

theorem IsTimely.steps (h : b.IsTimely) (hb : b.Steps b') : b'.IsTimely := by
  have hpass {shape : Shape} {length : Nat} {slots : List Nat} (hphase : b.phase = .issue shape (length :: slots)) :
      b'.IsTimely := by
    intro _ _ hp
    cases hb.passes hphase with
    | closed hdecode => simp [hdecode] at hp
    | thrownAway _ hcycle | filled _ hcycle => exact hcycle ▸ h _ _ hphase
  cases hb with
  | stopped => exact h
  | opened _ hcycle => exact fun _ _ _ => hcycle
  | ended | filled => exact fun _ _ hp => by cases hp
  | full hphase | drawn hphase | resumed hphase => exact hpass hphase

omit [EntropyStream σ] in
theorem left_lt_of_passes (ht : b.IsTimely) (hphase : b.phase = .issue shape (length :: slots))
    (h : Passes b shape slots b') : b'.left < b.left := by
  have hlt := ht _ _ hphase
  have hslots : b.slotsLeft = slots.length + 1 := by
    rw [slotsLeft, hphase]
    rfl
  rw [left, left, Prod.Lex.toLex_lt_toLex, Prod.Lex.toLex_lt_toLex]
  cases h with
  | closed _ hcycle => exact .inl (by simp only [hcycle]; omega)
  | thrownAway hp hcycle hlt heq =>
      have hsame : b'.slotsLeft = b.slotsLeft := by rw [slotsLeft, slotsLeft, hp]
      exact .inr ⟨by rw [hcycle], .inr ⟨hsame, by simp only [heq]; omega⟩⟩
  | filled hp hcycle heq =>
      have hless : b'.slotsLeft = slots.length := by rw [slotsLeft, hp]
      exact .inr ⟨by rw [hcycle], .inl (by simp only [hless, hslots]; omega)⟩

/-- Each pass takes at least one off the bound, and no other step adds to it. -/
theorem passesLeft_steps (hthrow : b.throwaways ≤ maxThrowaways) (h : b.Steps b') :
    b'.passesLeft + b.isPass.toNat ≤ b.passesLeft := by
  have hpass {shape : Shape} {length : Nat} {slots : List Nat} (hphase : b.phase = .issue shape (length :: slots)) :
      b'.passesLeft + b.isPass.toNat ≤ b.passesLeft := by
    have hone := Bool.toNat_le b.isPass
    have hslots : (length :: slots).length * (maxThrowaways + 1) =
        slots.length * (maxThrowaways + 1) + (maxThrowaways + 1) := by rw [List.length_cons, Nat.succ_mul]
    cases h.passes hphase with
    | closed hp hcycle =>
        simp only [passesLeft, hphase, hp, hcycle, hslots]
        omega
    | thrownAway hp hcycle hlt heq =>
        simp only [passesLeft, hp, hphase, hcycle, heq, hslots]
        omega
    | filled hp hcycle heq =>
        simp only [passesLeft, hp, hphase, hcycle, heq, hslots]
        omega
  cases h with
  | stopped hphase => simp [isPass, slotsLeft, hphase]
  | @opened hphase hcycle _ shape s hshape =>
      have hslots := Nat.mul_le_mul_right (maxThrowaways + 1) (length_lengths_le shape)
      have hcycles : superscalarLatency - b.decodeCycle = superscalarLatency - (b.decodeCycle + 1) + 1 := by omega
      simp only [passesLeft, isPass, slotsLeft, hphase]
      rw [hcycles, Nat.succ_mul (superscalarLatency - (b.decodeCycle + 1))]
      simp only [ne_eq, not_true_eq_false, decide_false, Bool.toNat_false]
      omega
  | ended hphase => simp [passesLeft, isPass, slotsLeft, hphase]
  | filled hphase => simp [passesLeft, isPass, slotsLeft, hphase, closeBuffer]
  | full hphase | drawn hphase | resumed hphase => exact hpass hphase

omit [EntropyStream σ] in
theorem isPass_le_passesLeft (hthrow : b.throwaways ≤ maxThrowaways) : b.isPass.toNat ≤ b.passesLeft := by
  by_cases hb : b.isPass = true
  · obtain ⟨shape, length, slots, hphase⟩ := isPass_iff.mp hb
    have hone := Bool.toNat_le b.isPass
    simp only [passesLeft, hphase, List.length_cons, Nat.succ_mul]
    omega
  · rw [Bool.eq_false_iff.mpr hb]
    exact Nat.zero_le _

/-! ## Runs -/

/-- The builders that one comes to. -/
inductive Reaches (b : Builder σ) : Builder σ → Prop where
  | refl : Reaches b b
  | step {b₁ b₂ : Builder σ} (h : Reaches b b₁) (hstep : b₁.step = .ok b₂) : Reaches b b₂

theorem Reaches.head {b₁ : Builder σ} (hstep : b.step = .ok b₁) (h : b₁.Reaches b') : b.Reaches b' := by
  induction h with
  | refl => exact .step .refl hstep
  | step _ h ih => exact ih.step h

/-- The builder after a number of steps. -/
def after : (n : ℕ) → Builder σ → Except Error (Builder σ)
  | 0, b => .ok b
  | n + 1, b => b.step >>= after n

theorem reaches_of_after {n : ℕ} (h : b.after n = .ok b') : b.Reaches b' := by
  induction n generalizing b with
  | zero =>
      cases h
      exact .refl
  | succ n ih =>
      obtain ⟨b₁, hstep, hrest⟩ := bind_eq_ok.mp h
      exact (ih hrest).head hstep

theorem IsSound.of_step (h : b.IsSound) (hstep : b.step = .ok b') : b'.IsSound ∧ Leads b.stream b'.stream := by
  by_cases hphase : b.phase = .done
  · rw [step, hphase] at hstep
    cases hstep
    exact ⟨h, .refl⟩
  · have hadv := advances_of_step h hphase hstep
    exact ⟨hadv.sound, hadv.leads⟩

theorem Reaches.isSound (h : b.Reaches b') (hb : b.IsSound) : b'.IsSound ∧ Leads b.stream b'.stream := by
  induction h with
  | refl => exact ⟨hb, .refl⟩
  | step _ hstep ih =>
      obtain ⟨hsound, hleads⟩ := ih.1.of_step hstep
      exact ⟨hsound, ih.2.trans hleads⟩

/-- What every step keeps holds wherever a builder comes to. -/
theorem Reaches.property {P : Builder σ → Prop} (hstep : ∀ b b', P b → b.Steps b' → P b') (h : b.Reaches b')
    (hb : P b) : P b' := by
  induction h with
  | refl => exact hb
  | step _ hb' ih => exact hstep _ _ ih (steps_of_step hb')

theorem Reaches.isTimely (h : b.Reaches b') (hb : b.IsTimely) : b'.IsTimely :=
  h.property (fun _ _ => IsTimely.steps) hb

/-- The passes among a number of steps, with one that fails. -/
def passCount : (n : ℕ) → Builder σ → ℕ
  | 0, _ => 0
  | n + 1, b =>
    b.isPass.toNat +
      match b.step with
      | .ok b' => passCount n b'
      | .error _ => 0

theorem passCount_le (n : ℕ) (h : b.IsSound) : passCount n b ≤ b.passesLeft := by
  induction n generalizing b with
  | zero => exact Nat.zero_le _
  | succ n ih =>
      rw [passCount]
      split
      · rename_i b' hstep
        have hrest := ih (h.of_step hstep).1
        have hone := passesLeft_steps h.throwaways_le (steps_of_step hstep)
        omega
      · exact isPass_le_passesLeft h.throwaways_le

/-- A run of enough steps comes to its end if no draw on its way is without one. -/
theorem run_of_not_isStuck {n : ℕ} (h : b.IsSound) (hends : ∀ b₁, b.Reaches b₁ → ¬ b₁.IsStuck) (hn : b.stepsLeft < n) :
    ∃ b', b.run n = .ok b' ∧ b.Reaches b' ∧ b'.phase = .done := by
  induction n generalizing b with
  | zero => exact absurd hn (Nat.not_lt_zero _)
  | succ n ih =>
      rw [run]
      split
      · rename_i hphase
        exact ⟨b, rfl, .refl, hphase⟩
      · rename_i hphase
        rcases step_spec h hphase with ⟨_, hstuck⟩ | ⟨b₁, hb₁, hadv⟩
        · exact absurd hstuck (hends b .refl)
        · obtain ⟨b', hb', hreach, hdone⟩ := ih hadv.sound (fun b₂ h₂ => hends b₂ (h₂.head hb₁))
            (by have := hadv.stepsLeft_lt; omega)
          exact ⟨b', by rw [hb₁, ok_bind, hb'], hreach.head hb₁, hdone⟩

/-- Where all draws that a stream could be asked for end, those of the candidates do. -/
theorem not_isStuck_of_drawsEnd {s : σ} (h : DrawsEnd s) (hb : (start s).Reaches b) : ¬ b.IsStuck :=
  fun hstuck => hstuck.not_drawsEnd (h.of_leads (hb.isSound (start_isSound s)).2)

/-! ## Termination -/

/-- If no draw of a candidate is without end, generation comes to its own. The cycles, slots and throw-aways that are
left go down in every pass, and no run takes more passes than all slots of all cycles with all their throw-aways. -/
theorem generation_terminates (s : σ) (hends : ∀ b, (start s).Reaches b → ¬ b.IsStuck) :
    (∃ b, (start s).Reaches b ∧ b.phase = .done ∧
      Program.generate s = .ok (⟨b.program, longestChain b.program⟩, b.stream)) ∧
    (∀ b b', (start s).Reaches b → b.isPass = true → b.step = .ok b' → b'.left < b.left) ∧
    ∀ n, passCount n (start s) ≤ superscalarLatency * 4 * (maxThrowaways + 1) := by
  refine ⟨?_, fun b b' hb hpass hstep => ?_, fun n => ?_⟩
  · obtain ⟨b, hb, hreach, hdone⟩ := run_of_not_isStuck (start_isSound s) hends (stepsLeft_start_lt s)
    exact ⟨b, hreach, hdone, by rw [Program.generate, hb, ok_bind]; rfl⟩
  · obtain ⟨shape, length, slots, hphase⟩ := isPass_iff.mp hpass
    exact left_lt_of_passes (hb.isTimely (start_isTimely s)) hphase ((steps_of_step hstep).passes hphase)
  · rw [Nat.mul_assoc]
    exact passCount_le n (start_isSound s)

theorem repeating_generation_terminates :
    (∀ b, (start (Repeating.mk 1 3)).Reaches b → ¬ b.IsStuck) ∧
      (∃ b, (start (Repeating.mk 1 3)).Reaches b ∧ b.phase = .done ∧
        Program.generate (Repeating.mk 1 3) = .ok (⟨b.program, longestChain b.program⟩, b.stream)) := by
  have hends (b : Builder Repeating) (hb : (start (Repeating.mk 1 3)).Reaches b) : ¬ b.IsStuck :=
    not_isStuck_of_drawsEnd (Repeating.drawsEnd (by decide) (by decide)) hb
  exact ⟨hends, (generation_terminates (Repeating.mk 1 3) hends).1⟩

end RandomX.Superscalar.Builder
