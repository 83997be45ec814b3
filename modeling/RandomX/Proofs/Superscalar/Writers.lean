import RandomX.Proofs.Superscalar.Generate

/-!
# Successive writers

Two instructions that write a register one after the other may undo each other or do the work of one. The builder
records the group and the operand of the last writer of every register, and gives no register to a candidate of the same
group and operand, so that no program has such a pair.
-/
namespace RandomX.Superscalar

open Outcome

/-! ## Groups -/

namespace Opcode

/-- The operation that stands for all those that undo it or merge with it. -/
def group : Opcode → Opcode
  | isubR => iaddRS
  | iaddC8 | iaddC9 => iaddC7
  | ixorC8 | ixorC9 => ixorC7
  | o => o

/-- The operation keeps the high half of a product. -/
def isWide : Opcode → Bool
  | imulhR | ismulhR => true
  | _ => false

theorem isWide_congr {o o' : Opcode} (h : o.group = o'.group) : o.isWide = o'.isWide := by
  cases o <;> cases o' <;> first | rfl | cases h

theorem eq_resultOp_of_srcOp {o : Opcode} {n : Nat} (h : o.recipe.srcOp = some n) : n = o.recipe.resultOp := by
  cases o <;> cases h <;> rfl

theorem dstOp_le_resultOp (o : Opcode) : o.recipe.dstOp ≤ o.recipe.resultOp := by
  cases o <;> decide

theorem recipe_of_isWide {o : Opcode} (h : o.isWide = true) :
    o.recipe = ⟨[.move, .multiplyWide, .move], 1, 0, some 1⟩ := by
  cases o <;> first | rfl | cases h

/-- Only high products have their destination before the macro-operation that yields the result, and another one after
it. -/
theorem recipe_of_not_isWide {o : Opcode} (h : o.isWide = false) :
    o.recipe.dstOp = o.recipe.resultOp ∧ o.recipe.ops.length = o.recipe.resultOp + 1 := by
  cases o <;> first | exact ⟨rfl, rfl⟩ | cases h

end Opcode

namespace Instruction

variable {i j : Instruction}

/-- What tells the instruction apart from others of its group. -/
def operand (i : Instruction) : Operand :=
  if i.opcode.isBinary then .source i.src else .none

/-- If the second instruction writes the register that the first one has just written, the two undo each other or do the
work of one. -/
inductive Merges (i j : Instruction) : Prop where
  | rotations (hi : i.opcode = .irorC) (hj : j.opcode = .irorC)
  | constantSums (hi : i.opcode ∈ [.iaddC7, .iaddC8, .iaddC9]) (hj : j.opcode ∈ [.iaddC7, .iaddC8, .iaddC9])
  | constantXors (hi : i.opcode ∈ [.ixorC7, .ixorC8, .ixorC9]) (hj : j.opcode ∈ [.ixorC7, .ixorC8, .ixorC9])
  | reciprocals (hi : i.opcode = .imulRcp) (hj : j.opcode = .imulRcp)
  | sums (hi : i.opcode ∈ [.isubR, .iaddRS]) (hj : j.opcode ∈ [.isubR, .iaddRS]) (hs : i.src = j.src)
  | xors (hi : i.opcode = .ixorR) (hj : j.opcode = .ixorR) (hs : i.src = j.src)
  | products (hi : i.opcode = .imulR) (hj : j.opcode = .imulR) (hs : i.src = j.src)

theorem Merges.same (h : i.Merges j) :
    i.opcode.isWide = false ∧ i.opcode.group = j.opcode.group ∧ i.operand = j.operand := by
  obtain ⟨oi, _, si, _⟩ := i
  obtain ⟨oj, _, sj, _⟩ := j
  cases h with
  | rotations hi hj | reciprocals hi hj =>
      cases hi
      cases hj
      exact ⟨rfl, rfl, rfl⟩
  | constantSums hi hj | constantXors hi hj =>
      simp only [List.mem_cons, List.not_mem_nil, or_false] at hi hj
      rcases hi with rfl | rfl | rfl <;> rcases hj with rfl | rfl | rfl <;> exact ⟨rfl, rfl, rfl⟩
  | sums hi hj hs =>
      simp only [List.mem_cons, List.not_mem_nil, or_false] at hi hj
      cases hs
      rcases hi with rfl | rfl <;> rcases hj with rfl | rfl <;> exact ⟨rfl, rfl, rfl⟩
  | xors hi hj hs | products hi hj hs =>
      cases hi
      cases hj
      cases hs
      exact ⟨rfl, rfl, rfl⟩

end Instruction

/-! ## Writers -/

section Writers

variable {program : Array Instruction} {i j : Instruction} {r : Reg}

/-- The instruction writes the register, and none after it does. -/
def IsLastWriter (program : Array Instruction) (i : Instruction) (r : Reg) : Prop :=
  ∃ k, program[k]? = some i ∧ i.dst = r ∧ ∀ (l : Nat) (j : Instruction), k < l → program[l]? = some j → j.dst ≠ r

/-- No two instructions that write a register one after the other merge. -/
def IsReduced (program : Array Instruction) : Prop :=
  ∀ (k l : Nat) (i j : Instruction), k < l → program[k]? = some i → program[l]? = some j → i.dst = j.dst →
    (∀ (m : Nat) (x : Instruction), k < m → m < l → program[m]? = some x → x.dst ≠ i.dst) → ¬ i.Merges j

theorem IsLastWriter.of_push (h : IsLastWriter (program.push j) i r) :
    (j.dst = r ∧ i = j) ∨ (j.dst ≠ r ∧ IsLastWriter program i r) := by
  obtain ⟨k, hk, hdst, hlast⟩ := h
  rw [Array.getElem?_push] at hk
  split at hk
  · cases hk
    exact .inl ⟨hdst, rfl⟩
  · obtain ⟨hlt, _⟩ := Array.getElem?_eq_some_iff.mp hk
    refine .inr ⟨hlast program.size j hlt Array.getElem?_push_size, k, hk, hdst, fun l x hl hx => ?_⟩
    obtain ⟨hlt', _⟩ := Array.getElem?_eq_some_iff.mp hx
    exact hlast l x hl (by rwa [Array.getElem?_push_lt hlt', ← Array.getElem?_eq_getElem])

theorem IsReduced.push (h : IsReduced program) (hj : ∀ i, IsLastWriter program i j.dst → ¬ i.Merges j) :
    IsReduced (program.push j) := by
  -- The pair is old, or its second instruction is the one that is appended.
  intro k l x y hkl hx hy hdst hbetween
  have hold {m : Nat} {z : Instruction} (hz : program[m]? = some z) : (program.push j)[m]? = some z := by
    obtain ⟨hlt, _⟩ := Array.getElem?_eq_some_iff.mp hz
    rwa [Array.getElem?_push_lt hlt, ← Array.getElem?_eq_getElem]
  rw [Array.getElem?_push] at hy
  split at hy
  · rename_i hl
    cases hy
    rw [Array.getElem?_push, if_neg (by omega)] at hx
    refine hj x ⟨k, hx, hdst, fun m z hm hz => ?_⟩
    obtain ⟨hlt, _⟩ := Array.getElem?_eq_some_iff.mp hz
    rw [← hdst]
    exact hbetween m z hm (by omega) (hold hz)
  · obtain ⟨hlt, _⟩ := Array.getElem?_eq_some_iff.mp hy
    rw [Array.getElem?_push, if_neg (by omega)] at hx
    exact h k l x y hkl hx hy hdst fun m z hm hml hz => hbetween m z hm hml (hold hz)

end Writers

/-! ## Candidates -/

namespace Candidate

variable {σ : Type} [EntropyStream σ] {s s' : σ} {c c' : Candidate} {i : Instruction} {opcode : Opcode}

/-- The candidate bears the group of its operation, and the operand that its instruction will have. -/
structure IsGrouped (c : Candidate) : Prop where
  group : c.group = c.opcode.group
  operandIsSource : c.operandIsSource = c.opcode.isBinary
  operand : c.opcode.isWide = false → c.opcode.isBinary = false → c.operand = .none
  source : c.opcode.isBinary = true → ∀ r, c.src = some r → c.operand = .source r

theorem isGrouped_of_create (h : create opcode s = .ok (c, s')) : c.IsGrouped := by
  cases opcode with
  | irorC | imulRcp =>
      obtain ⟨⟨w, t⟩, _, h⟩ := bind_eq_ok.mp h
      cases h
      exact ⟨rfl, rfl, fun _ _ => rfl, nofun⟩
  | imulhR | ismulhR =>
      cases h
      exact ⟨rfl, rfl, nofun, nofun⟩
  | _ =>
      cases h
      exact ⟨rfl, rfl, fun _ _ => rfl, fun _ _ h => by cases h⟩

theorem isGrouped_of_forSlot {length : Nat} {isLast multiplies : Bool}
    (h : forSlot length isLast multiplies s = .ok (c, s')) : c.IsGrouped :=
  isGrouped_of_create h

theorem IsGrouped.selectSource {registers : RegisterStates} {cycle : Nat} (hc : c.IsGrouped)
    (h : c.selectSource registers cycle s = (some c', s')) : c'.IsGrouped := by
  replace h := congrArg Prod.fst h
  rw [Candidate.selectSource] at h
  simp only at h
  split at h
  · rename_i hr5
    simp only [Bool.and_eq_true, beq_iff_eq] at hr5
    cases h
    refine ⟨hc.group, hc.operandIsSource, fun _ hb => ?_, fun _ r hr => by cases hr; rfl⟩
    simp only at hb
    rw [hr5.1.2] at hb
    cases hb
  · obtain ⟨r, _, rfl⟩ := Option.map_eq_some_iff.mp h
    refine ⟨hc.group, hc.operandIsSource, fun hw hb => ?_, fun hb q hq => ?_⟩
    · simp only at hw hb
      simp only [hc.operandIsSource, hb]
      exact hc.operand hw hb
    · cases hq
      simp only at hb
      simp only [hc.operandIsSource, hb, if_true]

/-- The destination that is chosen has been written by no operation of the candidate's group and operand last. -/
theorem IsGrouped.selectDestination {registers : RegisterStates} {cycle : Nat} {chained : Bool} (hc : c.IsGrouped)
    (h : c.selectDestination chained registers cycle s = (some c', s')) :
    c'.IsGrouped ∧ ∃ r, c'.dst = some r ∧
      ((registers.get r).group ≠ some c'.group ∨ (registers.get r).operand ≠ c'.operand) := by
  obtain ⟨r, hr, rfl⟩ := Option.map_eq_some_iff.mp (congrArg Prod.fst h)
  have hadmits := (List.mem_filter.mp (mem_of_pickRegister hr)).2
  simp only [admits, Bool.and_eq_true, Bool.or_eq_true, bne_iff_ne] at hadmits
  exact ⟨⟨hc.group, hc.operandIsSource, hc.operand, hc.source⟩, r, rfl, hadmits.1.2⟩

theorem IsGrouped.operand_of_finish (hc : c.IsGrouped) (hp : c.IsPlaced) (hw : c.opcode.isWide = false)
    (h : c.finish = .ok (some i)) : i.operand = c.operand := by
  obtain ⟨hopcode, hdst, hsrc⟩ := finish_eq_some h
  rw [Instruction.operand, hopcode]
  by_cases hb : c.opcode.isBinary = true
  · obtain ⟨r, hr, _⟩ := hp.apart hb i.dst hdst
    rw [if_pos hb, hsrc, hr, hc.source hb r hr, Option.getD_some]
  · rw [if_neg hb]
    exact (hc.operand hw (Bool.not_eq_true _ ▸ hb)).symm

end Candidate

/-! ## Records -/

/-- The state of a register tells what its writer was. The operand of a high product is drawn, and no instruction shows
it. -/
def RegisterState.Records (state : RegisterState) (i : Instruction) : Prop :=
  i.opcode.isWide = false → state.group = some i.opcode.group ∧ state.operand = i.operand

namespace Builder

variable {σ : Type} {b b' : Builder σ} {c : Candidate} {op : MacroOp} {shape : Shape} {slots : List Nat}
  {top cycle issued : Nat}

/-- The result of the pending candidate is recorded for the register, but its instruction is not yet finished. -/
def IsPending (b : Builder σ) (r : Reg) : Prop :=
  ∃ c ∈ b.current, c.dst = some r ∧ c.opcode.recipe.resultOp < b.opIndex ∧ b.opIndex < c.opcode.recipe.ops.length

/-- The program has no merging pair, and every register is recorded with its last writer or with the pending one. -/
structure IsTracked (b : Builder σ) : Prop where
  reduced : IsReduced b.program
  current : ∀ c ∈ b.current, c.IsGrouped
  records : ∀ r i, IsLastWriter b.program i r → (b.registers.get r).Records i ∨ b.IsPending r

theorem start_isTracked (s : σ) : (start s).IsTracked where
  reduced k l i j _ hi := by simp [start] at hi
  current _ h := by cases h
  records r i h := by
    obtain ⟨k, hk, _⟩ := h
    simp [start] at hk

/-- Tracking depends on what is pending, finished and recorded. -/
theorem IsTracked.of_same (h : b.IsTracked) (hcurrent : b'.current = b.current) (hindex : b'.opIndex = b.opIndex)
    (hprogram : b'.program = b.program) (hregisters : b'.registers = b.registers) : b'.IsTracked where
  reduced := by
    rw [hprogram]
    exact h.reduced
  current := by
    rw [hcurrent]
    exact h.current
  records r i hi := by
    rw [hprogram] at hi
    rw [hregisters, IsPending, hcurrent, hindex]
    exact h.records r i hi

theorem IsTracked.records_of_not_isPending (h : b.IsTracked) {r : Reg} (hp : ¬ b.IsPending r) {i : Instruction}
    (hi : IsLastWriter b.program i r) : (b.registers.get r).Records i :=
  (h.records r i hi).resolve_right hp

/-- Up to the macro-operation that yields its result, a candidate has left no record. -/
theorem not_isPending_of_le (hcurrent : b.current = some c) (hle : b.opIndex ≤ c.opcode.recipe.resultOp) (r : Reg) :
    ¬ b.IsPending r := by
  rintro ⟨c', hc', _, hlt, _⟩
  rw [hcurrent] at hc'
  cases hc'
  exact absurd hlt (Nat.not_lt.mpr hle)

theorem not_isPending_of_isIdle (hidle : b.isIdle = true) (r : Reg) : ¬ b.IsPending r := by
  rintro ⟨c, hc, _, _, hlt⟩
  simp only [isIdle, Option.mem_def.mp hc, opCount, decide_eq_true_eq] at hidle
  exact absurd hlt (Nat.not_lt.mpr hidle)

/-- A candidate that is given up has left no record. -/
theorem IsTracked.stall (h : b.IsTracked) (hp : ∀ r, ¬ b.IsPending r) : b.stall.IsTracked := by
  have hrecords r i (hi : IsLastWriter b.program i r) := h.records_of_not_isPending (hp r) hi
  rw [Builder.stall]
  split
  · exact ⟨h.reduced, h.current, fun r i hi => .inl (hrecords r i hi)⟩
  · refine ⟨h.reduced, ?_, fun r i hi => .inl (hrecords r i hi)⟩
    rintro c ⟨⟩

/-! ## Issuing -/

/-- The operands of the candidate's next macro-operation are chosen. Before it is issued the records do not show the
candidate, and a destination that was just chosen is recorded with another group or operand. -/
structure IsReady (b : Builder σ) (c : Candidate) : Prop where
  reduced : IsReduced b.program
  grouped : c.IsGrouped
  placed : c.IsPlaced
  opIndex_lt : b.opIndex < c.opcode.recipe.ops.length
  records : ∀ r i, IsLastWriter b.program i r →
    (b.registers.get r).Records i ∨ (c.dst = some r ∧ c.opcode.recipe.resultOp < b.opIndex)
  apart : c.opcode.recipe.dstOp = b.opIndex → ∀ r, c.dst = some r →
    (b.registers.get r).group ≠ some c.group ∨ (b.registers.get r).operand ≠ c.operand

theorem IsReady.records_withIssued (h : b.IsReady c) (op : MacroOp) (shape : Shape) (slots : List Nat)
    (top issued : Nat) {r : Reg} {i : Instruction} (hi : IsLastWriter b.program i r) :
    ((b.withIssued c op shape slots top issued).registers.get r).Records i ∨
      (c.dst = some r ∧ c.opcode.recipe.resultOp < b.opIndex + 1) := by
  have hold := h.records r i hi
  simp only [withIssued]
  split
  · rename_i hresult
    have hold := hold.resolve_right fun hp => by omega
    cases hdst : c.dst with
    | none =>
        simp only [recordResult, hdst]
        exact .inl hold
    | some q =>
        by_cases hq : r = q
        · exact .inr ⟨by rw [hq], by omega⟩
        · simp only [recordResult, hdst, RegMap.get_set_of_ne _ _ _ _ hq]
          exact .inl hold
  · exact hold.imp_right fun hp => ⟨hp.1, by omega⟩

/-- The instruction that is finished does not merge with the last writer of its destination. -/
theorem IsReady.not_merges (h : b.IsReady c) (hlast : c.opcode.recipe.ops.length ≤ b.opIndex + 1) {i j : Instruction}
    (hfinish : c.finish = .ok (some j)) (hi : IsLastWriter b.program i j.dst) : ¬ i.Merges j := by
  intro hm
  obtain ⟨hwide, hgroup, hoperand⟩ := hm.same
  obtain ⟨hopcode, hdst, _⟩ := Candidate.finish_eq_some hfinish
  have hnarrow : c.opcode.isWide = false := by rw [← hopcode, ← Opcode.isWide_congr hgroup, hwide]
  obtain ⟨hdstOp, hlength⟩ := Opcode.recipe_of_not_isWide hnarrow
  have hlt := h.opIndex_lt
  obtain ⟨hg, ho⟩ := (h.records j.dst i hi).resolve_right (fun hp => by omega) hwide
  rcases h.apart (by omega) j.dst hdst with hne | hne
  · exact hne (by rw [hg, hgroup, hopcode, h.grouped.group])
  · exact hne (by rw [ho, hoperand, h.grouped.operand_of_finish h.placed hnarrow hfinish])

theorem IsReady.isTracked_of_issues (h : b.IsReady c) (hb : Issues b c op shape slots top cycle b') : b'.IsTracked := by
  have hcurrent : ∀ c' ∈ some c, c'.IsGrouped := by
    rintro c' ⟨⟩
    exact h.grouped
  cases hb with
  | blocked hport =>
      refine ⟨h.reduced, hcurrent, fun r i hi => (h.records r i hi).imp_right fun hp => ?_⟩
      exact ⟨c, rfl, hp.1, hp.2, h.opIndex_lt⟩
  | @continued issued hport hmore =>
      have hrecords {r i} := h.records_withIssued op shape slots top issued (r := r) (i := i)
      exact ⟨h.reduced, hcurrent, fun r i hi => (hrecords hi).imp_right fun hp => ⟨c, rfl, hp.1, hp.2, hmore⟩⟩
  | @dropped issued hport hlast hfinish =>
      have hdst := Candidate.dst_of_finish_eq_none hfinish
      have hrecords {r i} := h.records_withIssued op shape slots top issued (r := r) (i := i)
      refine ⟨h.reduced, hcurrent, fun r i hi => .inl ((hrecords hi).resolve_right fun hp => ?_)⟩
      rw [hdst] at hp
      cases hp.1
  | @finished issued j hport hlast hfinish =>
      obtain ⟨hopcode, hdst, _⟩ := Candidate.finish_eq_some hfinish
      refine ⟨h.reduced.push fun i hi => h.not_merges hlast hfinish hi, hcurrent, fun r i hi => .inl ?_⟩
      rcases hi.of_push with ⟨rfl, rfl⟩ | ⟨hne, hi⟩
      · intro hwide
        rw [hopcode] at hwide
        have hlength := (Opcode.recipe_of_not_isWide hwide).2
        have hlt := h.opIndex_lt
        simp only [withIssued, if_pos (show c.opcode.recipe.resultOp = b.opIndex by omega), recordResult, hdst,
          RegMap.get_set_self]
        exact ⟨by rw [h.grouped.group, hopcode], (h.grouped.operand_of_finish h.placed hwide hfinish).symm⟩
      · refine (h.records_withIssued op shape slots top issued hi).resolve_right fun hp => hne ?_
        exact Option.some.inj (hdst.symm.trans hp.1)

/-! ## Steps -/

variable [EntropyStream σ] {c₁ c₂ : Candidate} {waited : Nat} {s : σ}

theorem IsTracked.chooseSource (h : b.IsTracked) (hcurrent : b.current = some c)
    (hs : b.chooseSource c cycle = (some c₁, waited, s)) :
    IsTracked { b.wait waited s with current := some c₁ } := by
  have hgrouped := h.current c hcurrent
  rcases chooseSource_eq_some hs with ⟨hop, t, ht⟩ | ⟨_, rfl, _, _⟩
  · have hp := not_isPending_of_le hcurrent (Nat.le_of_eq (Opcode.eq_resultOp_of_srcOp hop))
    refine ⟨h.reduced, ?_, fun r i hi => .inl (h.records_of_not_isPending (hp r) hi)⟩
    rintro c' ⟨⟩
    exact hgrouped.selectSource ht
  · exact h.of_same hcurrent.symm rfl rfl rfl

theorem IsTracked.isReady (h : b.IsTracked) (hcurrent : b.current = some c) (hplaced : c₂.IsPlaced)
    (hlt : b.opIndex < c.opcode.recipe.ops.length) (hd : b.chooseDestination c cycle = (some c₂, waited, s)) :
    (b.wait waited s).IsReady c₂ := by
  have hgrouped := h.current c hcurrent
  have hopcode := (chooseDestination_spec hd).1.opcode
  rcases chooseDestination_eq_some hd with ⟨hop, t, ht⟩ | ⟨hop, rfl, _, _⟩
  · have hp := not_isPending_of_le hcurrent (hop ▸ Opcode.dstOp_le_resultOp c.opcode)
    obtain ⟨hgrouped₂, q, hq, hapart⟩ := hgrouped.selectDestination ht
    refine ⟨h.reduced, hgrouped₂, hplaced, by rwa [hopcode], fun r i hi => ?_, fun _ r hr => ?_⟩
    · exact .inl (h.records_of_not_isPending (hp r) hi)
    · rw [hq] at hr
      cases hr
      exact hapart
  · refine ⟨h.reduced, hgrouped, hplaced, hlt, fun r i hi => ?_, fun he => absurd he hop⟩
    refine (h.records r i hi).imp_right ?_
    rintro ⟨c', hc', hdst, hresult, _⟩
    rw [hcurrent] at hc'
    cases hc'
    exact ⟨hdst, hresult⟩

theorem IsTracked.tries (h : b.IsTracked) (hd : c.IsDrawn) (hcurrent : b.current = some c)
    (hlt : b.opIndex < c.opcode.recipe.ops.length) (hb : Tries b c shape slots b') : b'.IsTracked := by
  cases hb with
  | blocked hop hport => exact h.of_same rfl rfl rfl rfl
  | @sourceless _ _ waited s _ hport hsrc =>
      have hop := srcOp_of_chooseSource hsrc
      have hp := not_isPending_of_le hcurrent (Nat.le_of_eq (Opcode.eq_resultOp_of_srcOp hop))
      exact IsTracked.stall (b := b.wait waited s) (h.of_same rfl rfl rfl rfl) hp
  | @placeless _ _ waited waited' s s' c₁ _ hport hsrc hdst =>
      have h₁ := h.chooseSource hcurrent hsrc
      have hop := dstOp_of_chooseDestination hdst
      refine IsTracked.stall (b := wait { b.wait waited s with current := some c₁ } waited' s')
        (h₁.of_same rfl rfl rfl rfl) (not_isPending_of_le (c := c₁) rfl ?_)
      exact hop ▸ Opcode.dstOp_le_resultOp c₁.opcode
  | @issues _ _ waited _ s _ c₁ _ _ _ hport hsrc hdst hissues =>
      have hplaced := isPlaced_of_choices b { b.wait waited s with current := some c₁ } hd hlt rfl hsrc hdst
      have hopcode := (chooseSource_spec hsrc).1.opcode
      have hready := (h.chooseSource hcurrent hsrc).isReady rfl hplaced (by rwa [hopcode]) hdst
      exact hready.isTracked_of_issues hissues

theorem IsTracked.steps (h : b.IsTracked) (hs : b.IsSound) (hb : b.Steps b') : b'.IsTracked := by
  cases hb with
  | stopped hphase => exact h
  | opened | ended | filled | full => exact h.of_same rfl rfl rfl rfl
  | @drawn shape length slots c s _ hphase hidle hroom hdraw ht =>
      have hd : c.IsDrawn := by
        rcases Candidate.forSlot_spec length slots.isEmpty (shape == .d4444 && !slots.isEmpty) b.stream with
          ⟨he, _⟩ | ⟨c', _, hc, hd, _⟩
        · rw [hdraw] at he
          cases he
        · rw [hdraw] at hc
          cases hc
          exact hd
      have hlt : 0 < c.opcode.recipe.ops.length := by
        cases c.opcode <;> decide
      refine IsTracked.tries (b := { b with current := some c, opIndex := 0, stream := s })
        ⟨h.reduced, ?_, fun r i hi => .inl ?_⟩ hd rfl hlt ht
      · rintro c' ⟨⟩
        exact Candidate.isGrouped_of_forSlot hdraw
      · exact h.records_of_not_isPending (not_isPending_of_isIdle hidle r) hi
  | resumed hphase hidle hcurrent ht =>
      simp only [isIdle, hcurrent, opCount, decide_eq_false_iff_not, Nat.not_le] at hidle
      exact h.tries (hs.current _ hcurrent) hcurrent hidle ht

theorem isTracked_of_run {n : Nat} (hrun : (start s).run n = .ok b') : b'.IsTracked := by
  have hstep (b b' : Builder σ) (hphase : b.phase ≠ .done) (h : b.IsSound ∧ b.IsTracked) (hb : b.step = .ok b') :
      b'.IsSound ∧ b'.IsTracked :=
    ⟨(advances_of_step h.1 hphase hb).sound, h.2.steps h.1 (steps_of_step hb)⟩
  exact (property_of_run hstep ⟨start_isSound s, start_isTracked s⟩ hrun).2

end Builder

/-! ## Programs -/

/-- Unless a repeated draw has no end, a program is generated, and of no two of its instructions that write a register
one after the other does the second undo the first or do more of the same. -/
theorem successive_writers_never_merge {σ : Type} [EntropyStream σ] (s : σ) :
    (Program.generate s = .error .drawLimit ∧ ¬ DrawsEnd s) ∨
      ∃ p s', Program.generate s = .ok (p, s') ∧ IsReduced p.instructions := by
  rcases Program.generate_spec s with hends | ⟨p, s', hp, _⟩
  · exact .inl hends
  · refine .inr ⟨p, s', hp, ?_⟩
    obtain ⟨b, hb, h⟩ := bind_eq_ok.mp hp
    cases h
    exact (Builder.isTracked_of_run hb).reduced

end RandomX.Superscalar
