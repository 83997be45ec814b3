import RandomX.Proofs.Superscalar.Candidate
import RandomX.Proofs.Superscalar.Transition

/-!
# Generation

Every step of the builder keeps it sound and brings it nearer to its end. What holds of every step holds of every
program that is generated.
-/
namespace RandomX.Superscalar

open Outcome

namespace Builder

variable {σ : Type} {b b₀ b' : Builder σ} {c : Candidate} {op : MacroOp} {shape : Shape} {length : Nat}
  {slots : List Nat}

/-- The pending candidate was drawn, every finished instruction has its operands, and there is room for the instruction
that is pending. -/
structure IsSound (b : Builder σ) : Prop where
  current : ∀ c ∈ b.current, c.IsDrawn
  program : ∀ i ∈ b.program, i.HasImmediate ∧ i.HasRegisters
  throwaways_le : b.throwaways ≤ maxThrowaways
  size_le : b.program.size ≤ superscalarMaxSize
  size_lt : b.isIdle = false → b.program.size < superscalarMaxSize

theorem start_isSound (s : σ) : (start s).IsSound where
  current _ h := by cases h
  program _ h := by simp [start] at h
  throwaways_le := Nat.zero_le _
  size_le := Nat.zero_le _
  size_lt h := by simp [start, isIdle, opCount] at h

/-- Soundness depends on what is pending and on what is finished. -/
theorem IsSound.of_same (h : b.IsSound) (hcurrent : b₀.current = b.current) (hindex : b₀.opIndex = b.opIndex)
    (hprogram : b₀.program = b.program) (hthrow : b₀.throwaways = b.throwaways) : b₀.IsSound where
  current := by
    rw [hcurrent]
    exact h.current
  program := by
    rw [hprogram]
    exact h.program
  throwaways_le := by
    rw [hthrow]
    exact h.throwaways_le
  size_le := by
    rw [hprogram]
    exact h.size_le
  size_lt := by
    rw [isIdle, hcurrent, hindex, hprogram]
    exact h.size_lt

/-- A drawn candidate may be pending where there is room for its instruction. -/
theorem IsSound.pend (h : b.IsSound) (hd : c.IsDrawn) (hroom : b.program.size < superscalarMaxSize)
    (hcurrent : b₀.current = some c) (hprogram : b₀.program = b.program) (hthrow : b₀.throwaways ≤ maxThrowaways) :
    b₀.IsSound where
  current := by
    rw [hcurrent]
    rintro x ⟨⟩
    exact hd
  program := by
    rw [hprogram]
    exact h.program
  throwaways_le := hthrow
  size_le := by
    rw [hprogram]
    exact h.size_le
  size_lt _ := by
    rw [hprogram]
    exact hroom

/-- A bound on the steps to the end. In a buffer every slot is left after all throw-aways at the latest. -/
def stepsLeft (b : Builder σ) : Nat :=
  match b.phase with
  | .done => 0
  | .decode => (superscalarLatency - b.decodeCycle) * (2 + 4 * (maxThrowaways + 1)) + 1
  | .issue _ slots =>
    (superscalarLatency - (b.decodeCycle + 1)) * (2 + 4 * (maxThrowaways + 1)) +
      (slots.length * (maxThrowaways + 1) - b.throwaways) + 2

theorem stepsLeft_start_lt (s : σ) : (start s).stepsLeft < stepLimit := by
  simp [stepsLeft, start, stepLimit]

theorem stepsLeft_issue (hp : b.phase = .issue shape slots) : b.stepsLeft =
    (superscalarLatency - (b.decodeCycle + 1)) * (2 + 4 * (maxThrowaways + 1)) +
      (slots.length * (maxThrowaways + 1) - b.throwaways) + 2 := by
  rw [stepsLeft, hp]

theorem stepsLeft_lt_of_close (hp : b.phase = .issue shape slots) (hp₀ : b₀.phase = .decode)
    (hcycle : b₀.decodeCycle = b.decodeCycle + 1) : b₀.stepsLeft < b.stepsLeft := by
  simp only [stepsLeft, hp, hp₀, hcycle]
  omega

/-- Leaving a slot outweighs all throw-aways that the next one may take. -/
theorem stepsLeft_lt_of_leave (hthrow : b.throwaways ≤ maxThrowaways) (hp : b.phase = .issue shape (length :: slots))
    (hp₀ : b₀.phase = .issue shape slots) (hcycle : b₀.decodeCycle = b.decodeCycle) : b₀.stepsLeft < b.stepsLeft := by
  rw [stepsLeft_issue hp, stepsLeft_issue hp₀, hcycle, List.length_cons, Nat.succ_mul slots.length]
  omega

theorem complete_spec (hd : c.IsDrawn) (hp : c.IsPlaced) (b : Builder σ) :
    b.complete c = .ok b ∨ ∃ i m, b.complete c = .ok { b with program := b.program.push i, multiplications := m } ∧
      i.HasImmediate ∧ i.HasRegisters := by
  obtain ⟨o, ho, hi, _⟩ := Candidate.finish_ok hd hp
  rw [complete, ho, ok_bind]
  cases o with
  | none => exact .inl rfl
  | some i => exact .inr ⟨i, _, rfl, hi i rfl⟩

theorem size_commit {cycle issued : Nat} {r : Reg} (hd : c.IsDrawn) (hpl : c.IsPlaced) (hdst : c.dst = some r)
    (hlast : c.opcode.recipe.ops.length ≤ b.opIndex + 1) (hport : b.ports.schedule op cycle cycle = some issued)
    (shape : Shape) (slots : List Nat) (top : Nat) :
    ∃ b', b.commit c op shape slots top cycle = .ok b' ∧ b'.program.size = b.program.size + 1 := by
  obtain ⟨o, ho, _, hsome⟩ := Candidate.finish_ok hd hpl
  rw [hdst] at hsome
  obtain ⟨i, rfl⟩ := Option.isSome_iff_exists.mp hsome
  simp only [commit, hport, if_pos hlast, complete, ho, ok_bind]
  exact ⟨_, rfl, Array.size_push _⟩

/-! ## Choices -/

variable [EntropyStream σ]

theorem leads_selectWithin {select : Nat → σ → Option Candidate × σ} (h : ∀ cycle s, Leads s (select cycle s).2)
    (n cycle : Nat) (s : σ) : Leads s (selectWithin select n cycle s).2.2 := by
  induction n generalizing cycle s with
  | zero => exact .refl
  | succ n ih =>
      have hs := h cycle s
      rw [selectWithin]
      split
      · rename_i hc
        rwa [hc] at hs
      · rename_i hc
        rw [hc] at hs
        exact hs.trans (ih (cycle + 1) _)

theorem leads_chooseSource (b : Builder σ) (c : Candidate) (cycle : Nat) :
    Leads b.stream (b.chooseSource c cycle).2.2 := by
  rw [chooseSource]
  split
  · exact leads_selectWithin (c.leads_selectSource b.registers) _ _ _
  · exact .refl

theorem leads_chooseDestination (b : Builder σ) (c : Candidate) (cycle : Nat) :
    Leads b.stream (b.chooseDestination c cycle).2.2 := by
  rw [chooseDestination]
  split
  · exact leads_selectWithin (c.leads_selectDestination _ b.registers) _ _ _
  · exact .refl

theorem chooseSource_spec {c' : Candidate} {cycle waited : Nat} {s : σ}
    (h : b.chooseSource c cycle = (some c', waited, s)) :
    c.Places c' ∧ (c.opcode.recipe.srcOp = some b.opIndex → ∃ t, c'.src = some t) := by
  rcases chooseSource_eq_some h with ⟨_, t, ht⟩ | ⟨hne, rfl, _⟩
  · obtain ⟨hplaces, hsrc⟩ := Candidate.selectSource_spec (congrArg Prod.fst ht)
    exact ⟨hplaces, fun _ => hsrc⟩
  · exact ⟨⟨rfl, rfl, rfl, rfl⟩, fun he => absurd he hne⟩

theorem chooseDestination_spec {c' : Candidate} {cycle waited : Nat} {s : σ}
    (h : b.chooseDestination c cycle = (some c', waited, s)) :
    c.Places c' ∧ (c.opcode.recipe.dstOp = b.opIndex → c'.src = c.src ∧ ∃ state now chained r, c'.dst = some r ∧
      c.admits chained state now r = true) := by
  rcases chooseDestination_eq_some h with ⟨_, t, ht⟩ | ⟨hne, rfl, _⟩
  · obtain ⟨hplaces, hsrc, r, hr, hadmits⟩ := Candidate.selectDestination_spec (congrArg Prod.fst ht)
    exact ⟨hplaces, fun _ => ⟨hsrc, _, _, _, r, hr, hadmits⟩⟩
  · exact ⟨⟨rfl, rfl, rfl, rfl⟩, fun he => absurd he hne⟩

/-- A candidate is placed once the choices of its next macro-operation are made: the operations that join two registers
have a single one, at which both registers are chosen. -/
theorem isPlaced_of_choices (b b₀ : Builder σ) {c₁ c₂ : Candidate} {s₁ s₂ : σ}
    {cycle₁ cycle₂ waited₁ waited₂ : Nat} (hd : c.IsDrawn) (hlt : b.opIndex < c.opcode.recipe.ops.length)
    (hb : b₀.opIndex = b.opIndex) (h₁ : b.chooseSource c cycle₁ = (some c₁, waited₁, s₁))
    (h₂ : b₀.chooseDestination c₁ cycle₂ = (some c₂, waited₂, s₂)) : c₂.IsPlaced := by
  obtain ⟨hplaces₁, hsrc⟩ := chooseSource_spec h₁
  obtain ⟨hplaces₂, hdst⟩ := chooseDestination_spec h₂
  have hopcode : c₂.opcode = c.opcode := hplaces₂.opcode.trans hplaces₁.opcode
  by_cases hbinary : c.opcode.isBinary = true
  · have hop : c.opcode.recipe.srcOp = some 0 ∧ c.opcode.recipe.dstOp = 0 ∧ c.opcode.recipe.ops.length = 1 := by
      revert hbinary
      cases c.opcode <;> simp [Opcode.isBinary, Opcode.recipe]
    have h0 : b.opIndex = 0 := by omega
    obtain ⟨t, ht⟩ := hsrc (by rw [hop.1, h0])
    obtain ⟨hkeep, state, now, chained, r, hr, hadmits⟩ := hdst (by rw [hplaces₁.opcode, hop.2.1, hb, h0])
    obtain ⟨hne, hr5⟩ := Candidate.ne_of_admits hadmits
    constructor
    · intro _ r' hr'
      rw [hr] at hr'
      cases hr'
      refine ⟨t, by rw [hkeep, ht], fun hrt => hne ?_ (by rw [ht, hrt])⟩
      exact (hplaces₁.isDrawn hd).apart (by rwa [hplaces₁.opcode])
    · intro hscaled hr'
      rw [hr] at hr'
      cases hr'
      exact hr5 (by rw [← hplaces₂.opcode, hscaled]) rfl
  · constructor
    · intro h
      rw [hopcode] at h
      exact absurd h hbinary
    · intro h
      rw [hopcode] at h
      rw [h] at hbinary
      exact absurd rfl hbinary

/-! ## Parts of a step -/

/-- What a step makes of a builder. -/
structure Advances (b b' : Builder σ) : Prop where
  sound : b'.IsSound
  stepsLeft_lt : b'.stepsLeft < b.stepsLeft
  size_le : b.program.size ≤ b'.program.size
  leads : Leads b.stream b'.stream

/-- A step may first move on in its stream, pick another candidate and let cycles pass. -/
theorem Advances.of_prepared (b₀ : Builder σ) (hs : b₀.stepsLeft = b.stepsLeft) (hp : b₀.program = b.program)
    (hl : Leads b.stream b₀.stream) (h : Advances b₀ b') : Advances b b' where
  sound := h.sound
  stepsLeft_lt := hs ▸ h.stepsLeft_lt
  size_le := hp ▸ h.size_le
  leads := hl.trans h.leads

theorem closeBuffer_advances (h : b.IsSound) (hp : b.phase = .issue shape slots) : Advances b b.closeBuffer where
  sound := h.of_same rfl rfl rfl rfl
  stepsLeft_lt := stepsLeft_lt_of_close hp rfl rfl
  size_le := Nat.le_refl _
  leads := .refl

theorem stall_advances (h : b.IsSound) (hp : b.phase = .issue shape (length :: slots)) : Advances b b.stall := by
  rw [stall]
  split
  · rename_i hlt
    constructor
    · exact ⟨h.current, h.program, hlt, h.size_le, fun hi => by simp [isIdle] at hi⟩
    · simp only [stepsLeft, hp, List.length_cons, Nat.succ_mul]
      omega
    · exact Nat.le_refl _
    · exact .refl
  · refine .of_prepared { b with current := none } rfl rfl .refl (closeBuffer_advances ?_ hp)
    exact ⟨by simp, h.program, h.throwaways_le, h.size_le, fun hi => by simp [isIdle, opCount] at hi⟩

theorem Advances.complete (h : Advances b b₀) (hd : c.IsDrawn) (hpl : c.IsPlaced) (hcurrent : b₀.current = some c)
    (hend : c.opcode.recipe.ops.length ≤ b₀.opIndex) (hroom : b₀.program.size < superscalarMaxSize) :
    ∃ b', b₀.complete c = .ok b' ∧ Advances b b' := by
  rcases complete_spec hd hpl b₀ with hb' | ⟨i, m, hb', hi⟩
  · exact ⟨b₀, hb', h⟩
  · refine ⟨_, hb', ⟨h.sound.current, ?_, h.sound.throwaways_le, ?_, ?_⟩, h.stepsLeft_lt, ?_, h.leads⟩
    · intro j hj
      rcases Array.mem_push.mp hj with hj | rfl
      · exact h.sound.program j hj
      · exact hi
    · rw [Array.size_push]
      exact hroom
    · intro hidle
      simp only [isIdle, hcurrent, opCount, decide_eq_false_iff_not] at hidle
      exact absurd hend hidle
    · rw [Array.size_push]
      exact Nat.le_succ_of_le h.size_le

theorem commit_spec (h : b.IsSound) (hd : c.IsDrawn) (hpl : c.IsPlaced) (hp : b.phase = .issue shape (length :: slots))
    (hroom : b.program.size < superscalarMaxSize) (op : MacroOp) (top cycle : Nat) :
    ∃ b', b.commit c op shape slots top cycle = .ok b' ∧ Advances b b' := by
  simp only [commit]
  split
  · refine ⟨_, rfl, ?_, stepsLeft_lt_of_close hp rfl rfl, Nat.le_refl _, .refl⟩
    exact h.pend hd hroom rfl rfl (Nat.zero_le _)
  · split
    · rename_i hend
      refine Advances.complete ⟨?_, ?_, Nat.le_refl _, .refl⟩ hd hpl rfl hend hroom
      · exact h.pend hd hroom rfl rfl (Nat.zero_le _)
      · exact stepsLeft_lt_of_leave h.throwaways_le hp rfl rfl
    · refine ⟨_, rfl, ?_, ?_, Nat.le_refl _, .refl⟩
      · exact h.pend hd hroom rfl rfl (Nat.zero_le _)
      · exact stepsLeft_lt_of_leave h.throwaways_le hp rfl rfl

theorem placeOp_spec (h : b.IsSound) (hd : c.IsDrawn) (hp : b.phase = .issue shape (length :: slots))
    (hroom : b.program.size < superscalarMaxSize) (op : MacroOp) (top cycle : Nat)
    (hpl : ∀ c' waited s, b.chooseDestination c cycle = (some c', waited, s) → c'.IsPlaced) :
    ∃ b', b.placeOp c op shape slots top cycle = .ok b' ∧ Advances b b' := by
  have hleads := leads_chooseDestination b c cycle
  rw [placeOp]
  split
  · rename_i waited s hc
    rw [hc] at hleads
    refine ⟨_, rfl, .of_prepared (b.wait waited s) rfl rfl hleads (stall_advances ?_ hp)⟩
    exact h.of_same rfl rfl rfl rfl
  · rename_i c' waited s hc
    rw [hc] at hleads
    have hdrawn := (chooseDestination_spec hc).1.isDrawn hd
    have hsound : (b.wait waited s).IsSound := h.of_same rfl rfl rfl rfl
    obtain ⟨b', hb', hadv⟩ := commit_spec hsound hdrawn (hpl _ _ _ hc) hp hroom op top (cycle + waited)
    exact ⟨b', hb', .of_prepared (b.wait waited s) rfl rfl hleads hadv⟩

theorem issueOp_spec (h : b.IsSound) (hd : c.IsDrawn) (hp : b.phase = .issue shape (length :: slots))
    (hroom : b.program.size < superscalarMaxSize) (hlt : b.opIndex < c.opcode.recipe.ops.length) :
    ∃ b', b.issueOp c shape slots = .ok b' ∧ Advances b b' := by
  rw [issueOp, List.getElem?_eq_getElem hlt]
  simp only
  split
  · refine ⟨_, rfl, .of_prepared { b with isSaturated := true } rfl rfl .refl (closeBuffer_advances ?_ hp)⟩
    exact h.of_same rfl rfl rfl rfl
  · rename_i cycle _
    have hleads := leads_chooseSource b c cycle
    split
    · rename_i waited s hc
      rw [hc] at hleads
      refine ⟨_, rfl, .of_prepared (b.wait waited s) rfl rfl hleads (stall_advances ?_ hp)⟩
      exact h.of_same rfl rfl rfl rfl
    · rename_i c' waited s hc
      rw [hc] at hleads
      have hdrawn := (chooseSource_spec hc).1.isDrawn hd
      have hsound : IsSound { b.wait waited s with current := some c' } := h.pend hdrawn hroom rfl rfl h.throwaways_le
      obtain ⟨b', hb', hadv⟩ := placeOp_spec hsound hdrawn hp hroom c.opcode.recipe.ops[b.opIndex] b.cycle
        (cycle + waited) fun c₂ _ _ hc₂ =>
          isPlaced_of_choices b { b.wait waited s with current := some c' } hd hlt rfl hc hc₂
      exact ⟨b', hb', .of_prepared { b.wait waited s with current := some c' } rfl rfl hleads hadv⟩

/-- The candidate for the next slot is drawn without end. -/
def IsStuck (b : Builder σ) : Prop :=
  ∃ shape length slots, b.phase = .issue shape (length :: slots) ∧ b.isIdle = true ∧ b.hasRoom = true ∧
    Candidate.forSlot length slots.isEmpty (shape == .d4444 && !slots.isEmpty) b.stream = .error .drawLimit

theorem IsStuck.not_drawsEnd (h : b.IsStuck) : ¬ DrawsEnd b.stream := by
  obtain ⟨shape, length, slots, _, _, _, he⟩ := h
  rcases Candidate.forSlot_spec length slots.isEmpty (shape == .d4444 && !slots.isEmpty) b.stream with
    ⟨_, hends⟩ | ⟨_, _, hc, _⟩
  · exact hends
  · rw [he] at hc
    cases hc

theorem pass_spec (h : b.IsSound) (hp : b.phase = .issue shape (length :: slots)) :
    (b.pass shape length slots = .error .drawLimit ∧ b.IsStuck) ∨
      ∃ b', b.pass shape length slots = .ok b' ∧ Advances b b' := by
  rw [pass]
  split
  · rename_i hidle
    split
    · rename_i hfree
      have hroom : b.program.size < superscalarMaxSize := by
        simp only [hasRoom, Bool.and_eq_true, decide_eq_true_eq] at hfree
        exact hfree.2
      rcases Candidate.forSlot_spec length slots.isEmpty (shape == .d4444 && !slots.isEmpty) b.stream with
        ⟨he, _⟩ | ⟨c, s, hc, hd, hleads⟩
      · exact .inl ⟨by rw [he, error_bind], shape, length, slots, hp, hidle, hfree, he⟩
      · rw [hc, ok_bind]
        have hsound : IsSound { b with current := some c, opIndex := 0, stream := s } :=
          h.pend hd hroom rfl rfl h.throwaways_le
        have hlt : 0 < c.opcode.recipe.ops.length := by
          cases c.opcode <;> decide
        obtain ⟨b', hb', hadv⟩ := issueOp_spec hsound hd hp hroom hlt
        exact .inr ⟨b', hb', .of_prepared { b with current := some c, opIndex := 0, stream := s } rfl rfl hleads
          hadv⟩
    · exact .inr ⟨_, rfl, closeBuffer_advances h hp⟩
  · rename_i hidle
    rw [Bool.not_eq_true] at hidle
    have hroom := h.size_lt hidle
    simp only [isIdle, decide_eq_false_iff_not, Nat.not_le] at hidle
    cases hc : b.current with
    | none => simp [hc, opCount] at hidle
    | some c =>
        rw [hc] at hidle
        exact .inr (issueOp_spec h (h.current c hc) hp hroom hidle)

theorem length_lengths_le (shape : Shape) : shape.lengths.length ≤ 4 := by
  cases shape <;> decide

theorem leads_next (current : Option Opcode) (cycle multiplications : Nat) (s : σ) :
    Leads s (Shape.next current cycle multiplications s).2 := by
  unfold Shape.next
  split
  · exact .refl
  · split
    · exact .refl
    · simp only
      split
      · exact Leads.refl.byte
      · split
        all_goals exact Leads.refl.byte

/-- A step of a sound builder fails at a draw without end at most, and otherwise leads on. -/
theorem step_spec (h : b.IsSound) (hp : b.phase ≠ .done) :
    (b.step = .error .drawLimit ∧ b.IsStuck) ∨ ∃ b', b.step = .ok b' ∧ Advances b b' := by
  rw [step]
  split
  · rename_i hphase
    exact absurd hphase hp
  · rename_i hphase
    split
    · rename_i hroom
      simp only [Bool.and_eq_true, decide_eq_true_eq] at hroom
      have hleads := leads_next (b.current.map (·.opcode)) b.decodeCycle b.multiplications b.stream
      generalize Shape.next (b.current.map (·.opcode)) b.decodeCycle b.multiplications b.stream = out at hleads ⊢
      obtain ⟨shape, s⟩ := out
      refine .inr ⟨_, rfl, h.of_same rfl rfl rfl rfl, ?_, Nat.le_refl _, hleads⟩
      have hcycles : superscalarLatency - b.decodeCycle = superscalarLatency - (b.decodeCycle + 1) + 1 := by omega
      have hslots := Nat.mul_le_mul_right (maxThrowaways + 1) (length_lengths_le shape)
      simp only [stepsLeft, hphase]
      rw [hcycles, Nat.succ_mul (superscalarLatency - (b.decodeCycle + 1))]
      omega
    · refine .inr ⟨_, rfl, h.of_same rfl rfl rfl rfl, ?_, Nat.le_refl _, .refl⟩
      simp only [stepsLeft, hphase]
      exact Nat.succ_pos _
  · rename_i hphase
    exact .inr ⟨_, rfl, closeBuffer_advances h hphase⟩
  · rename_i hphase
    exact pass_spec h hphase

theorem advances_of_step (h : b.IsSound) (hp : b.phase ≠ .done) (hb : b.step = .ok b') : Advances b b' := by
  rcases step_spec h hp with ⟨he, _⟩ | ⟨b₁, hb₁, hadv⟩
  · rw [hb] at he
    cases he
  · rw [hb] at hb₁
    cases hb₁
    exact hadv

theorem run_spec {n : Nat} (h : b.IsSound) (hn : b.stepsLeft < n) :
    (b.run n = .error .drawLimit ∧ ¬ DrawsEnd b.stream) ∨
      ∃ b', b.run n = .ok b' ∧ b'.IsSound ∧ b.program.size ≤ b'.program.size := by
  induction n generalizing b with
  | zero => exact absurd hn (Nat.not_lt_zero _)
  | succ n ih =>
      rw [run]
      split
      · exact .inr ⟨b, rfl, h, Nat.le_refl _⟩
      · rename_i hp
        rcases step_spec h hp with ⟨he, hstuck⟩ | ⟨b₁, hb₁, hadv⟩
        · exact .inl ⟨by rw [he, error_bind], hstuck.not_drawsEnd⟩
        · rw [hb₁, ok_bind]
          rcases ih hadv.sound (by have := hadv.stepsLeft_lt; omega) with ⟨he, hends⟩ | ⟨b', hb', hsound, hsize⟩
          · exact .inl ⟨he, fun hd => hends (hd.of_leads hadv.leads)⟩
          · exact .inr ⟨b', hb', hsound, Nat.le_trans hadv.size_le hsize⟩

theorem leads_of_run {n : Nat} (h : b.IsSound) (hrun : b.run n = .ok b') : Leads b.stream b'.stream := by
  have hstep : ∀ b₁ b₂ : Builder σ, b₁.phase ≠ .done → b₁.IsSound ∧ Leads b.stream b₁.stream → b₁.step = .ok b₂ →
      b₂.IsSound ∧ Leads b.stream b₂.stream := by
    rintro b₁ b₂ hp ⟨hsound, hleads⟩ hb
    have hadv := advances_of_step hsound hp hb
    exact ⟨hadv.sound, hleads.trans hadv.leads⟩
  exact (property_of_run hstep ⟨h, .refl⟩ hrun).2

/-! ## The first instruction -/

theorem issueOp_of_choices {c₁ c₂ : Candidate} {cycle waited₁ waited₂ : Nat} {s₁ s₂ : σ}
    (hop : c.opcode.recipe.ops[b.opIndex]? = some op) (hport : b.ports.schedule op b.cycle b.dependency = some cycle)
    (h₁ : b.chooseSource c cycle = (some c₁, waited₁, s₁))
    (h₂ : chooseDestination { b.wait waited₁ s₁ with current := some c₁ } c₁ (cycle + waited₁) = (some c₂, waited₂, s₂))
    (shape : Shape) (slots : List Nat) :
    b.issueOp c shape slots =
      commit (wait { b.wait waited₁ s₁ with current := some c₁ } waited₂ s₂) c₂ op shape slots b.cycle
        (cycle + waited₁ + waited₂) := by
  simp only [issueOp, hop, hport, h₁, placeOp, h₂]

def IsUnwritten (b : Builder σ) : Prop :=
  b.registers = .constant ⟨0, none, .none⟩

theorem exists_chooseSource (hu : b.IsUnwritten) (hop : c.opcode.recipe.srcOp = some b.opIndex) (cycle : Nat) :
    ∃ c' s, b.chooseSource c cycle = (some c', 0, s) := by
  have hready : Candidate.readySources b.registers cycle ≠ [] := by
    refine List.ne_nil_of_mem (a := .r0) (List.mem_filter.mpr ⟨Reg.mem_all _, ?_⟩)
    rw [hu, RegMap.get_constant]
    exact decide_eq_true (Nat.zero_le cycle)
  obtain ⟨c', hc'⟩ := Candidate.exists_selectSource (c := c) hready b.stream
  refine ⟨c', (c.selectSource b.registers cycle b.stream).2, ?_⟩
  rw [chooseSource, if_pos hop]
  exact selectWithin_of_eq_some (Prod.ext hc' rfl)

theorem exists_chooseDestination {t : Reg} (hu : b.IsUnwritten) (hop : c.opcode.recipe.dstOp = b.opIndex)
    (hscaled : c.opcode ≠ .iaddRS) (ht : c.src = some t) (cycle : Nat) :
    ∃ c' s, b.chooseDestination c cycle = (some c', 0, s) := by
  obtain ⟨r, hr⟩ : ∃ r : Reg, r ≠ t := by
    by_cases h : t = .r0
    · exact ⟨.r1, by rw [h]; decide⟩
    · exact ⟨.r0, Ne.symm h⟩
  have hstate : b.registers.get r = ⟨0, none, .none⟩ := by
    rw [hu, RegMap.get_constant]
  have hadmits : c.admits (decide (0 < b.throwaways)) (b.registers.get r) cycle r = true :=
    Candidate.admits_unwritten (by rw [hstate]; exact Nat.zero_le cycle) (by rw [hstate]) ht hr hscaled
  obtain ⟨c', hc'⟩ := Candidate.exists_selectDestination hadmits b.stream
  refine ⟨c', (c.selectDestination (decide (0 < b.throwaways)) b.registers cycle b.stream).2, ?_⟩
  rw [chooseDestination, if_pos hop]
  exact selectWithin_of_eq_some (Prod.ext hc' rfl)

/-- While nothing is written, an operation of one macro-operation that joins two registers finds them at once. -/
theorem issueOp_unwritten (cycle issued : Nat) (hu : b.IsUnwritten) (hd : c.IsDrawn) (hindex : b.opIndex = 0)
    (hbinary : c.opcode.isBinary = true) (hscaled : c.opcode ≠ .iaddRS) (hops : c.opcode.recipe.ops = [op])
    (hport : b.ports.schedule op b.cycle b.dependency = some cycle)
    (hissue : b.ports.schedule op cycle cycle = some issued) (shape : Shape) (slots : List Nat) :
    ∃ b', b.issueOp c shape slots = .ok b' ∧ b'.program.size = b.program.size + 1 := by
  have hrecipe : c.opcode.recipe.srcOp = some b.opIndex ∧ c.opcode.recipe.dstOp = b.opIndex := by
    rw [hindex]
    revert hbinary
    cases c.opcode <;> simp [Opcode.isBinary, Opcode.recipe]
  obtain ⟨c₁, s₁, h₁⟩ := exists_chooseSource hu hrecipe.1 cycle
  obtain ⟨hplaces₁, hsrc⟩ := chooseSource_spec h₁
  obtain ⟨t, ht⟩ := hsrc hrecipe.1
  have hop₁ : c₁.opcode.recipe.dstOp = b.opIndex := by rw [hplaces₁.opcode, hrecipe.2]
  obtain ⟨c₂, s₂, h₂⟩ := exists_chooseDestination (b := { b.wait 0 s₁ with current := some c₁ }) hu hop₁
    (by rwa [hplaces₁.opcode]) ht cycle
  obtain ⟨hplaces₂, hdst⟩ := chooseDestination_spec h₂
  obtain ⟨_, _, _, _, r, hr, _⟩ := hdst hop₁
  have hplaced : c₂.IsPlaced := isPlaced_of_choices b { b.wait 0 s₁ with current := some c₁ } hd
    (by rw [hops, hindex]; exact Nat.one_pos) rfl h₁ h₂
  rw [issueOp_of_choices (by rw [hops, hindex]; rfl) hport h₁ h₂]
  refine size_commit (b := wait { b.wait 0 s₁ with current := some c₁ } 0 s₂)
    (hplaces₂.isDrawn (hplaces₁.isDrawn hd)) hplaced hr ?_ hissue shape slots _
  rw [hplaces₂.opcode, hplaces₁.opcode, hops]
  exact Nat.le_add_left 1 _

def first (s : σ) : Builder σ :=
  { start s with phase := .issue .d4444 [4, 4, 4, 4] }

theorem step_start (s : σ) : (start s).step = .ok (first s) :=
  rfl

/-- The first slot is kept for a multiplication, which finds its operands at once. -/
theorem step_first (s : σ) : ∃ b', (first s).step = .ok b' ∧ b'.program.size = 1 := by
  have hd : (Candidate.plain .imulR .imulR true).IsDrawn := ⟨trivial, fun _ => rfl⟩
  exact issueOp_unwritten (b := { first s with current := some (.plain .imulR .imulR true) }) 0 0 rfl hd rfl rfl nofun rfl
    rfl rfl .d4444 [4, 4, 4]

end Builder

/-! ## Programs -/

namespace Program

variable {σ : Type} [EntropyStream σ]

/-- A generated program has its operands, at least one instruction, and no more than there is room for. Only a draw
without end keeps one from being generated. -/
theorem generate_spec (s : σ) :
    (generate s = .error .drawLimit ∧ ¬ DrawsEnd s) ∨ ∃ p s', generate s = .ok (p, s') ∧
      (∀ i ∈ p.instructions, i.HasImmediate ∧ i.HasRegisters) ∧ 1 ≤ p.instructions.size ∧
      p.instructions.size ≤ superscalarMaxSize := by
  obtain ⟨b, hb, hsize⟩ := Builder.step_first s
  have hstart := Builder.advances_of_step (Builder.start_isSound s) nofun (Builder.step_start s)
  have hfirst := Builder.advances_of_step hstart.sound nofun hb
  obtain ⟨n, hn⟩ : ∃ n, Builder.stepLimit = n + 1 + 1 := ⟨_, rfl⟩
  have hrun : Builder.run Builder.stepLimit (.start s) = b.run n := by
    rw [hn, Builder.run, if_neg nofun, Builder.step_start, ok_bind, Builder.run, if_neg nofun, hb, ok_bind]
  have hlt : b.stepsLeft < n := by
    have h₁ := hstart.stepsLeft_lt
    have h₂ := hfirst.stepsLeft_lt
    have h₀ := Builder.stepsLeft_start_lt s
    omega
  rw [generate, hrun]
  rcases Builder.run_spec hfirst.sound hlt with ⟨he, hends⟩ | ⟨b', hb', hsound, hle⟩
  · refine .inl ⟨by rw [he, error_bind], fun hd => hends ?_⟩
    exact (hd.of_leads hstart.leads).of_leads hfirst.leads
  · rw [hsize] at hle
    exact .inr ⟨_, _, by rw [hb', ok_bind]; rfl, hsound.program, hle, hsound.size_le⟩

theorem leads_of_generate {s s' : σ} {p : Program} (h : generate s = .ok (p, s')) : Leads s s' := by
  obtain ⟨b, hrun, h⟩ := bind_eq_ok.mp h
  cases h
  exact Builder.leads_of_run (Builder.start_isSound s) hrun

theorem hasImmediate_of_generate {s s' : σ} {p : Program} (h : generate s = .ok (p, s')) :
    ∀ i ∈ p.instructions, i.HasImmediate := by
  rcases generate_spec s with ⟨he, _⟩ | ⟨p', _, hp, hi, _⟩
  · rw [h] at he
    cases he
  · rw [h] at hp
    cases hp
    exact fun i hmem => (hi i hmem).1

end Program

end RandomX.Superscalar
