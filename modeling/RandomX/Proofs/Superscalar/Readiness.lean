import RandomX.Proofs.Superscalar.Ports
import RandomX.Proofs.Superscalar.Slots
import RandomX.Proofs.Superscalar.Writers

/-!
# Ready registers

A register is chosen only if it is ready before the macro-operation issues, and its readiness never goes back. High
products choose their destination one macro-operation before the one that yields the result, but by then the wait for
their operands is shorter than the multiplication takes.
-/
namespace RandomX.Superscalar

open Outcome

/-! ## Recipes -/

namespace Opcode

variable {o : Opcode} {op : MacroOp}

/-- A result takes time, that of a high product more than a wait for an operand. -/
theorem latency_of_resultOp (h : o.recipe.ops[o.recipe.resultOp]? = some op) :
    0 < op.latency ∧ (o.isWide = true → lookForward ≤ op.latency) := by
  cases o <;> cases h <;> decide

end Opcode

/-! ## Choices -/

namespace Candidate

variable {σ : Type} [EntropyStream σ] {s s' : σ} {c c' : Candidate} {registers : RegisterStates} {cycle : ℕ}
  {chained : Bool}

theorem dst_of_forSlot {length : ℕ} {isLast multiplies : Bool} (h : forSlot length isLast multiplies s = .ok (c, s')) :
    c.dst = none := by
  rw [forSlot] at h
  generalize opcodeForSlot length isLast multiplies s = drawn at h
  obtain ⟨opcode, t⟩ := drawn
  cases opcode with
  | irorC | imulRcp =>
      obtain ⟨_, _, h⟩ := bind_eq_ok.mp h
      cases h
      rfl
  | _ =>
      cases h
      rfl

theorem ready_of_selectSource (h : c.selectSource registers cycle s = (some c', s')) :
    c'.dst = c.dst ∧ ∃ r, c'.src = some r ∧ (registers.get r).ready ≤ cycle := by
  have hready {r : Reg} (hr : r ∈ readySources registers cycle) : (registers.get r).ready ≤ cycle := by
    simpa using (List.mem_filter.mp hr).2
  replace h := congrArg Prod.fst h
  rw [selectSource] at h
  simp only at h
  split at h
  · rename_i hr5
    simp only [Bool.and_eq_true, List.contains_iff_mem] at hr5
    cases h
    exact ⟨rfl, .r5, rfl, hready hr5.2⟩
  · obtain ⟨r, hr, rfl⟩ := Option.map_eq_some_iff.mp h
    exact ⟨rfl, r, rfl, hready (mem_of_pickRegister hr)⟩

theorem ready_of_selectDestination (h : c.selectDestination chained registers cycle s = (some c', s')) :
    c'.src = c.src ∧ ∃ r, c'.dst = some r ∧ (registers.get r).ready ≤ cycle := by
  obtain ⟨_, hsrc, r, hr, hadmits⟩ := selectDestination_spec (congrArg Prod.fst h)
  simp only [admits, Bool.and_eq_true, decide_eq_true_eq] at hadmits
  exact ⟨hsrc, r, hr, hadmits.1.1.1.1⟩

end Candidate

namespace Builder

variable {σ : Type} {b b' : Builder σ} {c : Candidate} {op : MacroOp} {shape : Shape} {length : ℕ} {slots : List ℕ}
  {n top cycle issued : ℕ}

/-- A high product whose result is still to come has a destination that is ready before it. -/
def IsAwaited (b : Builder σ) : Prop :=
  ∀ c ∈ b.current, c.opcode.isWide = true → ∀ r, c.dst = some r → b.opIndex ≤ c.opcode.recipe.resultOp →
    (b.registers.get r).ready < b.cycle + lookForward

theorem start_isAwaited (s : σ) : (start s).IsAwaited := by
  intro c hc
  cases hc

/-- Time only brings a destination nearer. -/
theorem IsAwaited.later (h : b.IsAwaited) (hcurrent : b'.current = b.current) (hindex : b'.opIndex = b.opIndex)
    (hregisters : b'.registers = b.registers) (hcycle : b.cycle ≤ b'.cycle) : b'.IsAwaited := by
  intro c hc hwide r hr hle
  rw [hcurrent] at hc
  rw [hindex] at hle
  rw [hregisters]
  exact Nat.lt_of_lt_of_le (h c hc hwide r hr hle) (Nat.add_le_add_right hcycle _)

/-- A candidate that is given up yields no result. -/
theorem stall_isAwaited (b : Builder σ) : b.stall.IsAwaited := by
  rw [stall]
  split
  · intro c hc hwide r hr hle
    replace hc : b.current = some c := hc
    simp only [hc, opCount, Opcode.recipe_of_isWide hwide] at hle
    exact absurd hle (by decide)
  · intro c hc
    cases hc

/-! ## Issuing -/

/-- The registers that a candidate chooses at macro-operation `n` are ready in a cycle. -/
structure HasOperands (registers : RegisterStates) (c : Candidate) (n cycle : ℕ) : Prop where
  source : c.opcode.recipe.srcOp = some n → ∃ r, c.src = some r ∧ (registers.get r).ready ≤ cycle
  destination : c.opcode.recipe.dstOp = n → ∃ r, c.dst = some r ∧ (registers.get r).ready ≤ cycle

theorem HasOperands.later {registers : RegisterStates} (h : HasOperands registers c n cycle) (hcycle : cycle ≤ issued) :
    HasOperands registers c n issued where
  source hs := by
    obtain ⟨r, hr, hle⟩ := h.source hs
    exact ⟨r, hr, hle.trans hcycle⟩
  destination hd := by
    obtain ⟨r, hr, hle⟩ := h.destination hd
    exact ⟨r, hr, hle.trans hcycle⟩

/-- Macro-operation `n` can issue from a cycle on. If it is one of a high product whose result is still to come, the
destination is ready before the multiplication ends. -/
structure IsSupplied (registers : RegisterStates) (c : Candidate) (n top cycle : ℕ) : Prop
    extends HasOperands registers c n cycle where
  awaited : c.opcode.isWide = true → ∀ r, c.dst = some r → n ≤ c.opcode.recipe.resultOp →
    (registers.get r).ready < top + lookForward

/-- The registers that are chosen at macro-operation `n` are ready in the cycle in which it issues. A register that
takes the result is ready later than before, and all others stay as they are. -/
structure IsPrompt (before after : RegisterStates) (c : Candidate) (n : ℕ) (op : MacroOp) (cycle : ℕ) : Prop
    extends HasOperands before c n cycle where
  result : c.opcode.recipe.resultOp = n → ∀ r, c.dst = some r →
    (after.get r).ready = cycle + op.latency ∧ (before.get r).ready < (after.get r).ready
  others : ∀ r, ¬ (c.opcode.recipe.resultOp = n ∧ c.dst = some r) → after.get r = before.get r

theorem IsSupplied.isPrompt (h : IsSupplied b.registers c b.opIndex top cycle)
    (hop : c.opcode.recipe.ops[b.opIndex]? = some op) (htop : top ≤ issued) (hcycle : cycle ≤ issued) (shape : Shape)
    (slots : List ℕ) :
    IsPrompt b.registers (b.withIssued c op shape slots top issued).registers c b.opIndex op issued where
  toHasOperands := h.toHasOperands.later hcycle
  result hresult r hr := by
    rw [← hresult] at hop
    obtain ⟨hlatency, hwide⟩ := Opcode.latency_of_resultOp hop
    simp only [withIssued, if_pos hresult, recordResult, hr, RegMap.get_set_self, true_and]
    by_cases hw : c.opcode.isWide = true
    · have hlt := h.awaited hw r hr (Nat.le_of_eq hresult.symm)
      have hlook := hwide hw
      omega
    · have hdst := (Opcode.recipe_of_not_isWide (Bool.not_eq_true _ ▸ hw)).1
      obtain ⟨q, hq, hle⟩ := h.destination (hdst.trans hresult)
      rw [hr] at hq
      cases hq
      omega
  others r hr := by
    simp only [withIssued]
    split
    · rename_i hresult
      cases hdst : c.dst with
      | none => simp only [recordResult, hdst]
      | some q =>
          have hne : r ≠ q := fun he => hr ⟨hresult, he ▸ hdst⟩
          simp only [recordResult, hdst, RegMap.get_set_of_ne _ _ _ _ hne]
    · rfl

theorem IsPrompt.ready_le {before after : RegisterStates} (h : IsPrompt before after c n op cycle) (r : Reg) :
    (before.get r).ready ≤ (after.get r).ready := by
  by_cases hr : c.opcode.recipe.resultOp = n ∧ c.dst = some r
  · exact (h.result hr.1 r hr.2).2.le
  · rw [h.others r hr]

/-- What a step does to the registers: it fills a slot and is prompt, or it leaves slots and registers alone. -/
inductive Serves (b b' : Builder σ) : Prop where
  | issued {shape : Shape} {length : ℕ} {slots : List ℕ} {c : Candidate} {n : ℕ} {op : MacroOp} {cycle : ℕ}
      (hfills : Fills b b' shape length slots) (hissued : Issued b b' c n op cycle)
      (hprompt : IsPrompt b.registers b'.registers c n op cycle) : Serves b b'
  | idle (hfills : ∀ shape length slots, ¬ Fills b b' shape length slots) (hregisters : b'.registers = b.registers) :
      Serves b b'

theorem Serves.of_same {b₀ : Builder σ} (h : Serves b₀ b') (hphase : b₀.phase = b.phase) (hports : b₀.ports = b.ports)
    (hregisters : b₀.registers = b.registers) : Serves b b' := by
  cases h with
  | issued hfills hissued hprompt =>
      exact .issued ⟨hphase ▸ hfills.before, hfills.after⟩ (hissued.of_same hports) (hregisters ▸ hprompt)
  | idle hfills hsame =>
      exact .idle (fun shape length slots hf => hfills shape length slots ⟨hphase ▸ hf.before, hf.after⟩)
        (hsame.trans hregisters)

theorem serves_closeBuffer (b : Builder σ) : Serves b b.closeBuffer :=
  .idle (not_fills_of_decode rfl) rfl

theorem serves_stall (b : Builder σ) : Serves b b.stall := by
  rw [stall]
  split
  · exact .idle (not_fills_of_same rfl) rfl
  · exact .idle (not_fills_of_decode rfl) rfl

/-! ## Steps -/

variable [EntropyStream σ] {c' c₁ c₂ : Candidate} {waited waited' : ℕ} {s s' : σ}

theorem ready_of_chooseSource (h : b.chooseSource c cycle = (some c', waited, s)) :
    c'.dst = c.dst ∧
      (c.opcode.recipe.srcOp = some b.opIndex → ∃ r, c'.src = some r ∧ (b.registers.get r).ready ≤ cycle + waited) ∧
      (c.opcode.recipe.srcOp ≠ some b.opIndex → waited = 0) := by
  rcases chooseSource_eq_some h with ⟨hop, t, ht⟩ | ⟨hop, rfl, rfl, _⟩
  · obtain ⟨hdst, hready⟩ := Candidate.ready_of_selectSource ht
    exact ⟨hdst, fun _ => hready, fun hne => absurd hop hne⟩
  · exact ⟨rfl, fun he => absurd he hop, fun _ => rfl⟩

theorem ready_of_chooseDestination (h : b.chooseDestination c cycle = (some c', waited, s)) :
    c'.src = c.src ∧
      (c.opcode.recipe.dstOp = b.opIndex → ∃ r, c'.dst = some r ∧ (b.registers.get r).ready ≤ cycle + waited) ∧
      (c.opcode.recipe.dstOp ≠ b.opIndex → c'.dst = c.dst) := by
  rcases chooseDestination_eq_some h with ⟨hop, t, ht⟩ | ⟨hop, rfl, _, _⟩
  · obtain ⟨hsrc, hready⟩ := Candidate.ready_of_selectDestination ht
    exact ⟨hsrc, fun _ => hready, fun hne => absurd hop hne⟩
  · exact ⟨rfl, fun he => absurd he hop, fun _ => rfl⟩

theorem waited_lt_of_chooseDestination (h : b.chooseDestination c cycle = (some c', waited, s)) :
    waited < lookForward := by
  rw [chooseDestination] at h
  split at h
  · exact (selectWithin_eq_some h).1
  · cases h
    decide

theorem IsAwaited.isSupplied (h : b.IsAwaited) (hcurrent : b.current = some c)
    (hop : c.opcode.recipe.ops[b.opIndex]? = some op)
    (hport : b.ports.schedule op b.cycle b.dependency = some cycle)
    (hsrc : b.chooseSource c cycle = (some c₁, waited, s))
    (hdst : chooseDestination { b.wait waited s with current := some c₁ } c₁ (cycle + waited) =
      (some c₂, waited', s')) :
    IsSupplied b.registers c₂ b.opIndex b.cycle (cycle + waited + waited') := by
  have hopcode₁ := (chooseSource_spec hsrc).1.opcode
  have hopcode₂ := (chooseDestination_spec hdst).1.opcode
  obtain ⟨hkeep, hsource, hzero⟩ := ready_of_chooseSource hsrc
  obtain ⟨hsame, hdestination, hother⟩ := ready_of_chooseDestination hdst
  refine ⟨⟨fun hs => ?_, fun hd => ?_⟩, fun hwide r hr hle => ?_⟩
  · rw [hopcode₂, hopcode₁] at hs
    obtain ⟨r, hr, hle⟩ := hsource hs
    exact ⟨r, hsame.trans hr, Nat.le_add_right_of_le hle⟩
  · rw [hopcode₂] at hd
    exact hdestination hd
  · rw [hopcode₂] at hwide hle
    rw [hopcode₁] at hwide hle
    by_cases hd : c₁.opcode.recipe.dstOp = b.opIndex
    · -- The macro-operation is the first one, which takes no port and needs no source.
      obtain ⟨q, hq, hready⟩ := hdestination hd
      rw [hr] at hq
      cases hq
      have hrecipe := Opcode.recipe_of_isWide hwide
      rw [hopcode₁, hrecipe] at hd
      rw [hrecipe, ← hd] at hop
      cases hop
      cases hport
      have hnone := hzero (by rw [hrecipe, ← hd]; decide)
      have hlt := waited_lt_of_chooseDestination hdst
      replace hready : (b.registers.get r).ready ≤ b.cycle + waited + waited' := hready
      omega
    · rw [hother hd, hkeep] at hr
      exact h c hcurrent hwide r hr hle

theorem IsAwaited.tries (h : b.IsAwaited) (hphase : b.phase = .issue shape (length :: slots))
    (hcurrent : b.current = some c) (ht : Tries b c shape slots b') : b'.IsAwaited ∧ Serves b b' := by
  cases ht with
  | blocked => exact ⟨h.later rfl rfl rfl (Nat.le_succ _), .idle (not_fills_of_decode rfl) rfl⟩
  | @sourceless _ _ waited s => exact ⟨stall_isAwaited _, (serves_stall (b.wait waited s)).of_same rfl rfl rfl⟩
  | @placeless _ _ waited waited' s s' c₁ =>
      exact ⟨stall_isAwaited _,
        (serves_stall (wait { b.wait waited s with current := some c₁ } waited' s')).of_same rfl rfl rfl⟩
  | @issues op cycle waited waited' s s' c₁ c₂ _ hop hport hsrc hdst hissues =>
      have hsupplied := h.isSupplied hcurrent hop hport hsrc hdst
      have hopcode := opcode_of_choices hsrc hdst
      have htop := PortMap.le_of_schedule hport
      rcases hissues.cases with rfl | ⟨issued, program, multiplications, hissue, rfl⟩
      · refine ⟨?_, .idle (not_fills_of_decode rfl) rfl⟩
        rintro _ ⟨⟩ hwide r hr hle
        exact Nat.lt_of_lt_of_le (hsupplied.awaited hwide r hr hle) (by simp only [closeBuffer, wait]; omega)
      · have hcycle := PortMap.le_of_schedule hissue
        have hop₂ : c₂.opcode.recipe.ops[b.opIndex]? = some op := by rwa [hopcode]
        have hprompt := hsupplied.isPrompt hop₂ (by omega : b.cycle ≤ issued) hcycle shape slots
        refine ⟨?_, .issued ⟨hphase, rfl⟩ ⟨rfl, rfl, hop₂, rfl, rfl⟩ hprompt⟩
        -- Behind the second macro-operation of a high product its result is no longer to come.
        rintro _ ⟨⟩ hwide r hr hle
        have hlt : b.opIndex < c₂.opcode.recipe.resultOp := hle
        have hready := hsupplied.awaited hwide r hr hlt.le
        rw [← hprompt.others r fun he => Nat.ne_of_gt hlt he.1] at hready
        exact hready

theorem IsAwaited.steps (h : b.IsAwaited) (hb : b.Steps b') : b'.IsAwaited ∧ Serves b b' := by
  cases hb with
  | stopped => exact ⟨h, .idle (not_fills_of_same rfl) rfl⟩
  | opened hphase =>
      refine ⟨h.later rfl rfl rfl (Nat.le_refl _), .idle (fun _ _ _ hf => ?_) rfl⟩
      cases hphase.symm.trans hf.before
  | ended hphase =>
      refine ⟨h.later rfl rfl rfl (Nat.le_refl _), .idle (fun _ _ _ hf => ?_) rfl⟩
      cases hf.after
  | filled | full => exact ⟨h.later rfl rfl rfl (Nat.le_succ _), serves_closeBuffer b⟩
  | @drawn shape length slots c s _ hphase hidle hroom hdraw ht =>
      have hnone := Candidate.dst_of_forSlot hdraw
      have hnew : IsAwaited { b with current := some c, opIndex := 0, stream := s } := by
        rintro _ ⟨⟩ _ r hr
        rw [hnone] at hr
        cases hr
      obtain ⟨hawaited, hserves⟩ := hnew.tries hphase rfl ht
      exact ⟨hawaited, hserves.of_same rfl rfl rfl⟩
  | resumed hphase hidle hcurrent ht => exact h.tries hphase hcurrent ht

theorem ready_le_of_reaches (h : b.IsAwaited) (hb : b.Reaches b') (r : Reg) :
    b'.IsAwaited ∧ (b.registers.get r).ready ≤ (b'.registers.get r).ready := by
  induction hb with
  | refl => exact ⟨h, Nat.le_refl _⟩
  | step _ hstep ih =>
      obtain ⟨hawaited, hserves⟩ := ih.1.steps (steps_of_step hstep)
      refine ⟨hawaited, ih.2.trans ?_⟩
      cases hserves with
      | issued _ _ hprompt => exact hprompt.ready_le r
      | idle _ hsame => rw [hsame]

/-- Wherever generation comes to, a step that fills a slot issues a macro-operation when the registers chosen at it are
ready, and its result, if it is the one that yields it, makes a register ready later than it was. No other step changes
a register, so that the readiness of none ever goes back. -/
theorem operands_are_ready_when_issued {s : σ} (hb : (start s).Reaches b) :
    (∀ b', b.step = .ok b' →
      (∀ shape length slots, Fills b b' shape length slots → ∃ c n op cycle, Issued b b' c n op cycle ∧
        IsPrompt b.registers b'.registers c n op cycle) ∧
      ((∀ shape length slots, ¬ Fills b b' shape length slots) → b'.registers = b.registers)) ∧
    ∀ b', b.Reaches b' → ∀ r, (b.registers.get r).ready ≤ (b'.registers.get r).ready := by
  have hawaited : b.IsAwaited := hb.property (fun _ _ h hb => (h.steps hb).1) (start_isAwaited s)
  refine ⟨fun b' hstep => ?_, fun b' hb' r => (ready_le_of_reaches hawaited hb' r).2⟩
  cases (hawaited.steps (steps_of_step hstep)).2 with
  | issued hfills hissued hprompt =>
      exact ⟨fun _ _ _ _ => ⟨_, _, _, _, hissued, hprompt⟩, fun hnone => absurd hfills (hnone _ _ _)⟩
  | idle hnone hsame => exact ⟨fun _ _ _ hfills => absurd hfills (hnone _ _ _), fun _ => hsame⟩

theorem repeating_operands_are_ready : ∃ b b' : Builder Repeating, (start (Repeating.mk 3 5)).Reaches b ∧
    b.step = .ok b' ∧ Fills b b' .d3310 3 [3, 10] ∧
    (∃ c n op cycle, Issued b b' c n op cycle ∧ IsPrompt b.registers b'.registers c n op cycle) ∧
    ∀ r, (b.registers.get r).ready ≤ (b'.registers.get r).ready := by
  obtain ⟨b₀, b, b', hreach, hopen, hstep, _, _, hfills⟩ := exists_filled_slot
  have hb := hreach.step hopen
  obtain ⟨hissues, hgrows⟩ := operands_are_ready_when_issued hb
  exact ⟨b, b', hb, hstep, hfills, (hissues b' hstep).1 _ _ _ hfills, hgrows b' (.step .refl hstep)⟩

end Builder

end RandomX.Superscalar
