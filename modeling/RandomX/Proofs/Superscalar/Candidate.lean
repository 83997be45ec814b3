import RandomX.Proofs.Superscalar.Draws
import RandomX.Proofs.Superscalar.Immediate

/-!
# Candidates

A candidate draws what becomes its immediate when it is created. Choosing its registers leaves the draws alone, and
admits only a destination that its operation may have.
-/
namespace RandomX.Superscalar.Candidate

open Outcome

variable {σ : Type} [EntropyStream σ] {s s' : σ} {c c' : Candidate}

/-! ## Creation -/

/-- What was drawn for the candidate fits its operation. -/
structure IsDrawn (c : Candidate) : Prop where
  draw : match c.opcode with
    | .iaddRS => c.shift < 4
    | .irorC => c.imm32 ≠ 0 ∧ c.imm32 < 64
    | .imulRcp => isDivisor c.imm32 = true
    | _ => True
  apart : c.opcode.isBinary = true → c.mayReuseSource = false

theorem create_spec (opcode : Opcode) (s : σ) :
    (create opcode s = .error .drawLimit ∧ ¬ DrawsEnd s) ∨
      ∃ c s', create opcode s = .ok (c, s') ∧ c.IsDrawn ∧ Leads s s' := by
  cases opcode with
  | iaddRS =>
      refine .inr ⟨_, _, rfl, ⟨UInt8.mod_lt _ (by decide), fun _ => rfl⟩, Leads.refl.byte⟩
  | irorC =>
      cases hd : drawRotation s with
      | none =>
          refine .inl ⟨by rw [create, hd]; rfl, fun h => ?_⟩
          obtain ⟨_, hr⟩ := h.rotation_ok
          rw [hd] at hr
          cases hr
      | some r =>
          obtain ⟨hbounds, hleads⟩ := drawRotation_spec hd
          exact .inr ⟨_, r.2, by rw [create, hd]; rfl, ⟨hbounds, fun h => by cases h⟩, hleads⟩
  | imulRcp =>
      cases hd : drawDivisor s with
      | none =>
          refine .inl ⟨by rw [create, hd]; rfl, fun h => ?_⟩
          obtain ⟨_, hr⟩ := h.divisor_ok
          rw [hd] at hr
          cases hr
      | some r =>
          obtain ⟨hdivisor, hleads⟩ := drawDivisor_spec hd
          exact .inr ⟨_, r.2, by rw [create, hd]; rfl, ⟨hdivisor, fun h => by cases h⟩, hleads⟩
  | isubR | ixorR | imulR => exact .inr ⟨_, _, rfl, ⟨trivial, fun _ => rfl⟩, .refl⟩
  | _ => exact .inr ⟨_, _, rfl, ⟨trivial, fun h => by cases h⟩, Leads.refl.word⟩

theorem leads_drawOf (a b : Opcode) (s : σ) : Leads s (drawOf a b s).2 :=
  Leads.refl.byte

theorem leads_opcodeForSlot (length : Nat) (isLast multiplies : Bool) (s : σ) :
    Leads s (opcodeForSlot length isLast multiplies s).2 := by
  unfold opcodeForSlot
  split
  · split
    · simp only
      split
      all_goals exact Leads.refl.byte
    · exact leads_drawOf _ _ s
  · split
    · exact .refl
    · exact leads_drawOf _ _ s
  · exact leads_drawOf _ _ s
  · exact leads_drawOf _ _ s
  · exact leads_drawOf _ _ s
  · exact .refl

theorem forSlot_spec (length : Nat) (isLast multiplies : Bool) (s : σ) :
    (forSlot length isLast multiplies s = .error .drawLimit ∧ ¬ DrawsEnd s) ∨
      ∃ c s', forSlot length isLast multiplies s = .ok (c, s') ∧ c.IsDrawn ∧ Leads s s' := by
  have hleads := leads_opcodeForSlot length isLast multiplies s
  rcases create_spec (opcodeForSlot length isLast multiplies s).1 (opcodeForSlot length isLast multiplies s).2 with
    ⟨hc, hends⟩ | ⟨c, s', hc, hdrawn, hcreate⟩
  · exact .inl ⟨hc, fun h => hends (h.of_leads hleads)⟩
  · exact .inr ⟨c, s', hc, hdrawn, hleads.trans hcreate⟩

/-! ## Registers -/

/-- The candidate differs only in its registers and in what tells it apart from its group. -/
structure Places (c c' : Candidate) : Prop where
  opcode : c'.opcode = c.opcode
  shift : c'.shift = c.shift
  imm32 : c'.imm32 = c.imm32
  mayReuseSource : c'.mayReuseSource = c.mayReuseSource

theorem Places.isDrawn (h : c.Places c') (hc : c.IsDrawn) : c'.IsDrawn := by
  obtain ⟨hd, ha⟩ := hc
  constructor
  · rwa [h.opcode, h.shift, h.imm32]
  · rwa [h.opcode, h.mayReuseSource]

/-- A destination that was chosen may be that of the operation. -/
structure IsPlaced (c : Candidate) : Prop where
  apart : c.opcode.isBinary = true → ∀ r, c.dst = some r → ∃ t, c.src = some t ∧ r ≠ t
  scaled : c.opcode = .iaddRS → c.dst ≠ some .r5

variable {registers : RegisterStates} {cycle : Nat} {chained : Bool}

theorem leads_selectSource (c : Candidate) (registers : RegisterStates) (cycle : Nat) (s : σ) :
    Leads s (c.selectSource registers cycle s).2 := by
  rw [selectSource]
  simp only
  split
  · exact .refl
  · exact leads_pickRegister _ s

theorem selectSource_spec (h : (c.selectSource registers cycle s).1 = some c') :
    c.Places c' ∧ ∃ t, c'.src = some t := by
  rw [selectSource] at h
  simp only at h
  split at h
  · cases h
    exact ⟨⟨rfl, rfl, rfl, rfl⟩, _, rfl⟩
  · obtain ⟨r, _, rfl⟩ := Option.map_eq_some_iff.mp h
    exact ⟨⟨rfl, rfl, rfl, rfl⟩, r, rfl⟩

theorem leads_selectDestination (c : Candidate) (chained : Bool) (registers : RegisterStates) (cycle : Nat) (s : σ) :
    Leads s (c.selectDestination chained registers cycle s).2 :=
  leads_pickRegister _ s

theorem selectDestination_spec (h : (c.selectDestination chained registers cycle s).1 = some c') :
    c.Places c' ∧ c'.src = c.src ∧ ∃ r, c'.dst = some r ∧ c.admits chained (registers.get r) cycle r = true := by
  obtain ⟨r, hr, rfl⟩ := Option.map_eq_some_iff.mp h
  exact ⟨⟨rfl, rfl, rfl, rfl⟩, rfl, r, rfl, (List.mem_filter.mp (mem_of_pickRegister hr)).2⟩

theorem ne_of_admits {state : RegisterState} {r : Reg} (h : c.admits chained state cycle r = true) :
    (c.mayReuseSource = false → c.src ≠ some r) ∧ (c.opcode = .iaddRS → r ≠ .r5) := by
  simp only [admits, Bool.and_eq_true, Bool.or_eq_true, bne_iff_ne] at h
  obtain ⟨⟨⟨⟨_, hsrc⟩, _⟩, _⟩, hr5⟩ := h
  constructor
  · intro hreuse
    rcases hsrc with hsrc | hsrc
    · rw [hreuse] at hsrc
      cases hsrc
    · exact hsrc
  · intro hop
    exact hr5.resolve_left fun hne => hne hop

theorem exists_selectSource (h : readySources registers cycle ≠ []) (s : σ) :
    ∃ c', (c.selectSource registers cycle s).1 = some c' := by
  rw [selectSource]
  simp only
  split
  · exact ⟨_, rfl⟩
  · obtain ⟨r, _, hr⟩ := exists_pickRegister h s
    exact ⟨_, by rw [hr]; rfl⟩

theorem exists_selectDestination {r : Reg} (h : c.admits chained (registers.get r) cycle r = true) (s : σ) :
    ∃ c', (c.selectDestination chained registers cycle s).1 = some c' := by
  have hne : (Reg.all.filter fun q => c.admits chained (registers.get q) cycle q) ≠ [] :=
    List.ne_nil_of_mem (List.mem_filter.mpr ⟨r.mem_all, h⟩)
  obtain ⟨q, _, hq⟩ := exists_pickRegister hne s
  exact ⟨_, congrArg (Option.map _) hq⟩

/-- Only a scaled addition refuses a register that nothing has written yet and that is not the source. -/
theorem admits_unwritten {t r : Reg} {state : RegisterState} (hready : state.ready ≤ cycle) (hgroup : state.group = none)
    (hsrc : c.src = some t) (hne : r ≠ t) (hop : c.opcode ≠ .iaddRS) : c.admits chained state cycle r = true := by
  simp [admits, hready, hgroup, hsrc, hop, hne.symm]

/-! ## Completion -/

theorem IsDrawn.immediate_ok (h : c.IsDrawn) :
    ∃ imm, c.immediate = .ok imm ∧ ∀ dst src, Instruction.HasImmediate ⟨c.opcode, dst, src, imm⟩ := by
  replace h := h.draw
  obtain ⟨opcode, _, _, _, _, imm32, shift, _, _⟩ := c
  cases opcode with
  | iaddRS =>
      refine ⟨_, rfl, fun _ _ => ?_⟩
      simpa [Instruction.HasImmediate, UInt64.lt_iff_toNat_lt] using UInt8.lt_iff_toNat_lt.mp h
  | irorC =>
      refine ⟨_, rfl, fun _ _ => ⟨?_, ?_⟩⟩
      · simpa [← UInt64.toNat_inj, ← UInt32.toNat_inj] using h.1
      · simpa [UInt64.lt_iff_toNat_lt] using UInt32.lt_iff_toNat_lt.mp h.2
  | imulRcp => exact ⟨_, if_pos h, fun _ _ => ⟨imm32, h, rfl⟩⟩
  | iaddC7 | iaddC8 | iaddC9 | ixorC7 | ixorC8 | ixorC9 => exact ⟨_, rfl, fun _ _ => ⟨imm32, rfl⟩⟩
  | _ => exact ⟨_, rfl, fun _ _ => rfl⟩

theorem finish_ok (hd : c.IsDrawn) (hp : c.IsPlaced) :
    ∃ o, c.finish = .ok o ∧ (∀ i ∈ o, i.HasImmediate ∧ i.HasRegisters) ∧ o.isSome = c.dst.isSome := by
  obtain ⟨imm, himm, hi⟩ := hd.immediate_ok
  cases hdst : c.dst with
  | none => exact ⟨none, by rw [finish, hdst], by simp, rfl⟩
  | some dst =>
      refine ⟨some ⟨c.opcode, dst, c.src.getD dst, imm⟩, by simp only [finish, hdst, himm, ok_bind], ?_, rfl⟩
      rintro i ⟨⟩
      refine ⟨hi dst _, fun hbinary => ?_, fun hop h5 => hp.scaled hop (by rw [hdst, ← h5])⟩
      obtain ⟨t, ht, hne⟩ := hp.apart hbinary dst hdst
      simpa [ht] using hne

omit [EntropyStream σ] in
theorem finish_eq_some {i : Instruction} (h : c.finish = .ok (some i)) :
    i.opcode = c.opcode ∧ c.dst = some i.dst ∧ i.src = c.src.getD i.dst := by
  rw [finish] at h
  split at h
  · cases h
  · rename_i dst hdst
    obtain ⟨imm, _, h⟩ := bind_eq_ok.mp h
    cases h
    exact ⟨rfl, hdst, rfl⟩

omit [EntropyStream σ] in
theorem dst_of_finish_eq_none (h : c.finish = .ok none) : c.dst = none := by
  rw [finish] at h
  split at h
  · assumption
  · obtain ⟨_, _, h⟩ := bind_eq_ok.mp h
    cases h

end RandomX.Superscalar.Candidate
