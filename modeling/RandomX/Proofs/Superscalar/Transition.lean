import RandomX.Proofs.Outcome
import RandomX.Superscalar.Builder

/-!
# Transitions

All that a step of the builder can do, with what it finds on the way: which candidate is tried, in which cycles its
operands were chosen, and whether a port was free.
-/
namespace RandomX.Superscalar.Builder

open Outcome

variable {σ : Type} {b b' : Builder σ} {c c' : Candidate} {op : MacroOp} {shape : Shape} {slots : List Nat}
  {n cycle waited top : Nat} {s s' : σ}

/-! ## Selections in several cycles -/

section Selections

variable {select : Nat → σ → Option Candidate × σ}

/-- A selection in several cycles is the selection in the one that ends the wait. -/
theorem selectWithin_eq_some (h : selectWithin select n cycle s = (some c, waited, s')) :
    waited < n ∧ ∃ t, select (cycle + waited) t = (some c, s') := by
  induction n generalizing cycle waited s with
  | zero => cases h
  | succ n ih =>
      rw [selectWithin] at h
      split at h
      · rename_i hs
        cases h
        exact ⟨Nat.zero_lt_succ n, s, hs⟩
      · rename_i t hs
        generalize hw : selectWithin select n (cycle + 1) t = w at h
        obtain ⟨c', passed', t'⟩ := w
        cases h
        obtain ⟨hlt, u, hu⟩ := ih hw
        exact ⟨Nat.succ_lt_succ hlt, u, by rw [← hu, Nat.add_right_comm, Nat.add_assoc]⟩

theorem selectWithin_of_eq_some (h : select cycle s = (some c, s')) :
    selectWithin select (n + 1) cycle s = (some c, 0, s') := by
  rw [selectWithin, h]

end Selections

variable [EntropyStream σ]

/-- A source is chosen out of the registers that are ready when the wait ends, or the macro-operation needs none. -/
theorem chooseSource_eq_some (h : b.chooseSource c cycle = (some c', waited, s')) :
    (c.opcode.recipe.srcOp = some b.opIndex ∧ ∃ t, c.selectSource b.registers (cycle + waited) t = (some c', s')) ∨
      (c.opcode.recipe.srcOp ≠ some b.opIndex ∧ c' = c ∧ waited = 0 ∧ s' = b.stream) := by
  rw [chooseSource] at h
  split at h
  · rename_i hop
    exact .inl ⟨hop, (selectWithin_eq_some h).2⟩
  · rename_i hop
    cases h
    exact .inr ⟨hop, rfl, rfl, rfl⟩

theorem chooseDestination_eq_some (h : b.chooseDestination c cycle = (some c', waited, s')) :
    (c.opcode.recipe.dstOp = b.opIndex ∧
      ∃ t, c.selectDestination (0 < b.throwaways) b.registers (cycle + waited) t = (some c', s')) ∨
      (c.opcode.recipe.dstOp ≠ b.opIndex ∧ c' = c ∧ waited = 0 ∧ s' = b.stream) := by
  rw [chooseDestination] at h
  split at h
  · rename_i hop
    exact .inl ⟨hop, (selectWithin_eq_some h).2⟩
  · rename_i hop
    cases h
    exact .inr ⟨hop, rfl, rfl, rfl⟩

/-- No source is found only where one is needed. -/
theorem srcOp_of_chooseSource (h : b.chooseSource c cycle = (none, waited, s')) :
    c.opcode.recipe.srcOp = some b.opIndex := by
  rw [chooseSource] at h
  split at h
  · assumption
  · cases h

theorem dstOp_of_chooseDestination (h : b.chooseDestination c cycle = (none, waited, s')) :
    c.opcode.recipe.dstOp = b.opIndex := by
  rw [chooseDestination] at h
  split at h
  · assumption
  · cases h

/-! ## Macro-operations -/

omit [EntropyStream σ] in
/-- The builder once a macro-operation has issued in a cycle, before the instruction is finished. -/
def withIssued (b : Builder σ) (c : Candidate) (op : MacroOp) (shape : Shape) (slots : List Nat) (top cycle : Nat) :
    Builder σ :=
  { b with
    phase := .issue shape slots
    cycle := top
    dependency := cycle + op.latency
    ports := b.ports.commit op.issue cycle
    registers :=
      if c.opcode.recipe.resultOp = b.opIndex then recordResult b.registers c (cycle + op.latency) else b.registers
    current := some c
    opIndex := b.opIndex + 1
    throwaways := 0
    isSaturated := b.isSaturated || superscalarLatency ≤ cycle }

/-- What becomes of a builder that issues a macro-operation of a candidate whose operands are chosen. -/
inductive Issues (b : Builder σ) (c : Candidate) (op : MacroOp) (shape : Shape) (slots : List Nat) (top cycle : Nat) :
    Builder σ → Prop where
  /-- No port was found, and the buffer is left. -/
  | blocked (hport : b.ports.schedule op cycle cycle = none) :
      Issues b c op shape slots top cycle
        (closeBuffer { b with throwaways := 0, current := some c, isSaturated := true })
  /-- More macro-operations are to come. -/
  | continued {issued : Nat} (hport : b.ports.schedule op cycle cycle = some issued)
      (hmore : b.opIndex + 1 < c.opcode.recipe.ops.length) :
      Issues b c op shape slots top cycle (b.withIssued c op shape slots top issued)
  /-- It was the last one of a candidate without a destination. -/
  | dropped {issued : Nat} (hport : b.ports.schedule op cycle cycle = some issued)
      (hlast : c.opcode.recipe.ops.length ≤ b.opIndex + 1) (hfinish : c.finish = .ok none) :
      Issues b c op shape slots top cycle (b.withIssued c op shape slots top issued)
  /-- It was the last one, and the instruction is finished. -/
  | finished {issued : Nat} {i : Instruction} (hport : b.ports.schedule op cycle cycle = some issued)
      (hlast : c.opcode.recipe.ops.length ≤ b.opIndex + 1) (hfinish : c.finish = .ok (some i)) :
      Issues b c op shape slots top cycle
        { b.withIssued c op shape slots top issued with
          program := b.program.push i
          multiplications := if i.opcode.isMultiplication then b.multiplications + 1 else b.multiplications }

omit [EntropyStream σ] in
theorem issues_of_commit (h : b.commit c op shape slots top cycle = .ok b') :
    Issues b c op shape slots top cycle b' := by
  simp only [commit] at h
  split at h
  · rename_i hport
    cases h
    exact .blocked hport
  · rename_i issued hport
    split at h
    · rename_i hlast
      obtain ⟨o, hfinish, h⟩ := bind_eq_ok.mp h
      cases o with
      | none =>
          cases h
          exact .dropped hport hlast hfinish
      | some i =>
          cases h
          exact .finished hport hlast hfinish
    · rename_i hmore
      cases h
      exact .continued hport (Nat.lt_of_not_le hmore)

/-- What becomes of a builder that tries the next macro-operation of a candidate. -/
inductive Tries (b : Builder σ) (c : Candidate) (shape : Shape) (slots : List Nat) : Builder σ → Prop where
  /-- No port will be free. -/
  | blocked {op : MacroOp} (hop : c.opcode.recipe.ops[b.opIndex]? = some op)
      (hport : b.ports.schedule op b.cycle b.dependency = none) :
      Tries b c shape slots (closeBuffer { b with isSaturated := true })
  /-- No source is ready in time. -/
  | sourceless {op : MacroOp} {cycle waited : Nat} {s : σ} (hop : c.opcode.recipe.ops[b.opIndex]? = some op)
      (hport : b.ports.schedule op b.cycle b.dependency = some cycle)
      (hsrc : b.chooseSource c cycle = (none, waited, s)) : Tries b c shape slots (b.wait waited s).stall
  /-- No destination is ready in time. -/
  | placeless {op : MacroOp} {cycle waited waited' : Nat} {s s' : σ} {c₁ : Candidate}
      (hop : c.opcode.recipe.ops[b.opIndex]? = some op)
      (hport : b.ports.schedule op b.cycle b.dependency = some cycle)
      (hsrc : b.chooseSource c cycle = (some c₁, waited, s))
      (hdst : chooseDestination { b.wait waited s with current := some c₁ } c₁ (cycle + waited) = (none, waited', s')) :
      Tries b c shape slots (wait { b.wait waited s with current := some c₁ } waited' s').stall
  /-- Its operands are chosen. -/
  | issues {op : MacroOp} {cycle waited waited' : Nat} {s s' : σ} {c₁ c₂ : Candidate} {b' : Builder σ}
      (hop : c.opcode.recipe.ops[b.opIndex]? = some op)
      (hport : b.ports.schedule op b.cycle b.dependency = some cycle)
      (hsrc : b.chooseSource c cycle = (some c₁, waited, s))
      (hdst : chooseDestination { b.wait waited s with current := some c₁ } c₁ (cycle + waited) =
        (some c₂, waited', s'))
      (h : Issues (wait { b.wait waited s with current := some c₁ } waited' s') c₂ op shape slots b.cycle
        (cycle + waited + waited') b') :
      Tries b c shape slots b'

theorem tries_of_issueOp (h : b.issueOp c shape slots = .ok b') : Tries b c shape slots b' := by
  rw [issueOp] at h
  split at h
  · cases h
  · rename_i op hop
    split at h
    · rename_i hport
      cases h
      exact .blocked hop hport
    · rename_i cycle hport
      split at h
      · rename_i hsrc
        cases h
        exact .sourceless hop hport hsrc
      · rename_i hsrc
        rw [placeOp] at h
        split at h
        · rename_i hdst
          cases h
          exact .placeless hop hport hsrc hdst
        · rename_i hdst
          exact .issues hop hport hsrc hdst (issues_of_commit h)

/-! ## Steps -/

/-- What becomes of a builder in one step. -/
inductive Steps (b : Builder σ) : Builder σ → Prop where
  | stopped (hphase : b.phase = .done) : Steps b b
  /-- A buffer is opened. -/
  | opened (hphase : b.phase = .decode) (hcycle : b.decodeCycle < superscalarLatency) (hroom : b.hasRoom = true)
      {shape : Shape} {s : σ}
      (hshape : Shape.next (b.current.map (·.opcode)) b.decodeCycle b.multiplications b.stream = (shape, s)) :
      Steps b { b with phase := .issue shape shape.lengths, stream := s }
  /-- The cycles have passed, or there is no room. -/
  | ended (hphase : b.phase = .decode) (hend : superscalarLatency ≤ b.decodeCycle ∨ b.hasRoom = false) :
      Steps b { b with phase := .done }
  /-- All slots of a buffer are filled. -/
  | filled {shape : Shape} (hphase : b.phase = .issue shape []) : Steps b b.closeBuffer
  /-- No candidate is pending, and there is no room for another. -/
  | full {shape : Shape} {length : Nat} {slots : List Nat} (hphase : b.phase = .issue shape (length :: slots))
      (hidle : b.isIdle = true) (hroom : b.hasRoom = false) : Steps b b.closeBuffer
  /-- A candidate is drawn for a slot, and its first macro-operation tried. -/
  | drawn {shape : Shape} {length : Nat} {slots : List Nat} {c : Candidate} {s : σ} {b' : Builder σ}
      (hphase : b.phase = .issue shape (length :: slots)) (hidle : b.isIdle = true) (hroom : b.hasRoom = true)
      (hdraw : Candidate.forSlot length slots.isEmpty (shape == .d4444 && !slots.isEmpty) b.stream = .ok (c, s))
      (h : Tries { b with current := some c, opIndex := 0, stream := s } c shape slots b') : Steps b b'
  /-- The pending candidate is carried on. -/
  | resumed {shape : Shape} {length : Nat} {slots : List Nat} {c : Candidate} {b' : Builder σ}
      (hphase : b.phase = .issue shape (length :: slots)) (hidle : b.isIdle = false) (hcurrent : b.current = some c)
      (h : Tries b c shape slots b') : Steps b b'

theorem steps_of_step (h : b.step = .ok b') : b.Steps b' := by
  rw [step] at h
  split at h
  · rename_i hphase
    cases h
    exact .stopped hphase
  · rename_i hphase
    split at h
    · rename_i hroom
      simp only [Bool.and_eq_true, decide_eq_true_eq] at hroom
      cases h
      exact .opened hphase hroom.1 hroom.2 rfl
    · rename_i hroom
      simp only [Bool.and_eq_true, decide_eq_true_eq, not_and, Bool.not_eq_true] at hroom
      cases h
      exact .ended hphase ((Nat.lt_or_ge b.decodeCycle superscalarLatency).symm.imp_right hroom)
  · rename_i hphase
    cases h
    exact .filled hphase
  · rename_i hphase
    rw [pass] at h
    split at h
    · rename_i hidle
      split at h
      · rename_i hroom
        obtain ⟨⟨c, s⟩, hdraw, h⟩ := bind_eq_ok.mp h
        exact .drawn hphase hidle hroom hdraw (tries_of_issueOp h)
      · rename_i hroom
        rw [Bool.not_eq_true] at hroom
        cases h
        exact .full hphase hidle hroom
    · rename_i hidle
      rw [Bool.not_eq_true] at hidle
      split at h
      · cases h
      · rename_i hcurrent
        exact .resumed hphase hidle hcurrent (tries_of_issueOp h)

/-- What every step keeps, every run keeps. -/
theorem property_of_run {P : Builder σ → Prop} (hstep : ∀ b b', b.phase ≠ .done → P b → b.step = .ok b' → P b')
    (h : P b) (hrun : b.run n = .ok b') : P b' := by
  induction n generalizing b with
  | zero => cases hrun
  | succ n ih =>
      rw [run] at hrun
      split at hrun
      · cases hrun
        exact h
      · rename_i hphase
        obtain ⟨b₁, hb, hrun⟩ := bind_eq_ok.mp hrun
        exact ih (hstep b b₁ hphase h hb) hrun

end RandomX.Superscalar.Builder
