import RandomX.Proofs.Superscalar.Passes

/-!
# Filled slots

A slot is filled when a macro-operation issues in it. The builders before and after the step tell which macro-operation
of which candidate it was, and in which cycle.
-/
namespace RandomX.Superscalar

namespace Builder

variable {σ : Type} {b b' : Builder σ} {c : Candidate} {op : MacroOp} {shape : Shape} {length : ℕ} {slots : List ℕ}
  {top cycle : ℕ}

/-- The slots of the buffer go on with a slot of the given length in one builder, and behind it in the other. -/
structure Fills (b b' : Builder σ) (shape : Shape) (length : ℕ) (slots : List ℕ) : Prop where
  before : b.phase = .issue shape (length :: slots)
  after : b'.phase = .issue shape slots

theorem not_fills_of_same (h : b'.phase = b.phase) (shape : Shape) (length : ℕ) (slots : List ℕ) :
    ¬ Fills b b' shape length slots := by
  rintro ⟨hbefore, hafter⟩
  rw [h, hbefore] at hafter
  simp at hafter

theorem not_fills_of_decode (h : b'.phase = .decode) (shape : Shape) (length : ℕ) (slots : List ℕ) :
    ¬ Fills b b' shape length slots := by
  rintro ⟨_, hafter⟩
  cases h.symm.trans hafter

/-- Between the two builders macro-operation `n` of a candidate issues in a cycle. -/
structure Issued (b b' : Builder σ) (c : Candidate) (n : ℕ) (op : MacroOp) (cycle : ℕ) : Prop where
  current : b'.current = some c
  opIndex : b'.opIndex = n + 1
  listed : c.opcode.recipe.ops[n]? = some op
  ports : b'.ports = b.ports.commit op.issue cycle
  dependency : b'.dependency = cycle + op.latency

theorem Issued.of_same {b₀ : Builder σ} {n : ℕ} (h : Issued b₀ b' c n op cycle) (hports : b₀.ports = b.ports) :
    Issued b b' c n op cycle :=
  ⟨h.current, h.opIndex, h.listed, hports ▸ h.ports, h.dependency⟩

/-- A macro-operation whose operands are chosen finds no port, and the buffer is left, or it issues. -/
theorem Issues.cases (h : Issues b c op shape slots top cycle b') :
    b' = closeBuffer { b with throwaways := 0, current := some c, isSaturated := true } ∨
      ∃ issued program multiplications, b.ports.schedule op cycle cycle = some issued ∧
        b' = { b.withIssued c op shape slots top issued with program, multiplications } := by
  cases h with
  | blocked hport => exact .inl rfl
  | continued hport | dropped hport | finished hport => exact .inr ⟨_, _, _, hport, rfl⟩

/-- Choosing operands keeps the operation. -/
theorem opcode_of_choices [EntropyStream σ] {c₁ c₂ : Candidate} {cycle' waited waited' : ℕ} {s s' : σ}
    (hsrc : b.chooseSource c cycle = (some c₁, waited, s))
    (hdst : b'.chooseDestination c₁ cycle' = (some c₂, waited', s')) : c₂.opcode = c.opcode :=
  (chooseDestination_spec hdst).1.opcode.trans (chooseSource_spec hsrc).1.opcode

/-- Where all bytes are 3 and all words 5, a high product is drawn in front of the third buffer, which continues it. -/
theorem exists_filled_slot : ∃ b₀ b b' : Builder Repeating,
    (start (Repeating.mk 3 5)).Reaches b₀ ∧ b₀.step = .ok b ∧ b.step = .ok b' ∧
    b₀.phase = .decode ∧ b.phase = .issue .d3310 Shape.d3310.lengths ∧ Fills b b' .d3310 3 [3, 10] := by
  have hrun : ∃ b₀ b b' : Builder Repeating, (start (Repeating.mk 3 5)).after 11 = .ok b₀ ∧ b₀.step = .ok b ∧
      b.step = .ok b' ∧ b₀.phase = .decode ∧ b.phase = .issue .d3310 [3, 3, 10] ∧ b'.phase = .issue .d3310 [3, 10] :=
    ⟨_, _, _, rfl, rfl, rfl, rfl, rfl, rfl⟩
  obtain ⟨b₀, b, b', h₀, hopen, hstep, hdecode, hbefore, hafter⟩ := hrun
  exact ⟨b₀, b, b', reaches_of_after h₀, hopen, hstep, hdecode, hbefore, hbefore, hafter⟩

end Builder

end RandomX.Superscalar
