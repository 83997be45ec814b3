import RandomX.Proofs.Superscalar.Slots
import RandomX.Proofs.Superscalar.Writers

/-!
# Split instructions

High products and reciprocals have more macro-operations than fit where they are drawn. Only they are carried over to
the next buffer, after their first macro-operation, and the shape of that buffer has the slots for the rest.
-/
namespace RandomX.Superscalar

open Outcome

/-! ## Shapes -/

namespace Shape

variable {σ : Type} [EntropyStream σ] {current : Option Opcode} {cycle multiplications : ℕ} {s : σ} {shape : Shape}
  {length : ℕ} {slots : List ℕ}

theorem next_eq_d3310_iff :
    (next current cycle multiplications s).1 = d3310 ↔ ∃ o ∈ current, o.isWide = true := by
  have hwide : (∃ o ∈ current, o.isWide = true) ↔ current = some .imulhR ∨ current = some .ismulhR := by
    cases current with
    | none => simp
    | some o => cases o <;> simp [Opcode.isWide]
  rw [hwide, next]
  split
  · rename_i h
    exact iff_of_true rfl h
  · rename_i h
    refine iff_of_false ?_ h
    split
    · nofun
    · simp only
      split
      · split <;> nofun
      · split <;> nofun

theorem head_next_imulRcp : (next (some .imulRcp) cycle multiplications s).1.lengths.head? = some 4 := by
  rw [next, if_neg (by decide)]
  split
  · rfl
  · simp only [if_true]
    split <;> rfl

theorem lengths_ne_nil (shape : Shape) : shape.lengths ≠ [] := by
  cases shape <;> decide

/-- Only the last slot of a buffer may have a length of its own. -/
theorem eq_nil_of_suffix (h : length :: slots <:+ shape.lengths) (hlength : length ∉ [3, 4, 7, 8, 9]) : slots = [] := by
  cases shape <;> simp only [lengths, List.suffix_cons_iff, List.suffix_nil, List.cons.injEq] at h <;>
    rcases h with ⟨rfl, rfl⟩ | ⟨rfl, rfl⟩ | ⟨rfl, rfl⟩ | h <;> simp_all

end Shape

/-! ## Operations -/

namespace Opcode

/-- The operation has macro-operations behind the first. -/
def isSplit : Opcode → Bool
  | imulhR | ismulhR | imulRcp => true
  | _ => false

variable {o : Opcode}

theorem isSplit_of_isWide (h : o.isWide = true) : o.isSplit = true := by
  cases o <;> first | rfl | cases h

theorem isSplit_iff : o.isSplit = true ↔ 1 < o.recipe.ops.length := by
  cases o <;> decide

end Opcode

/-- The slots of a buffer go on with one for macro-operation `n`. Behind the first there are the two slots of three
bytes in a 3-3-10 buffer for a high product, and a leading slot of four bytes for a reciprocal. -/
inductive IsSlotFor (o : Opcode) : (n : ℕ) → Shape → List ℕ → Prop where
  | first {shape : Shape} {slots : List ℕ} : IsSlotFor o 0 shape slots
  | second (hwide : o.isWide = true) : IsSlotFor o 1 .d3310 [3, 3, 10]
  | third (hwide : o.isWide = true) : IsSlotFor o 2 .d3310 [3, 10]
  | product {shape : Shape} {slots : List ℕ} (ho : o = .imulRcp) (hlengths : shape.lengths = 4 :: slots) :
      IsSlotFor o 1 shape (4 :: slots)

/-- Whatever is drawn for the next buffer, it starts with a slot for a split instruction. -/
theorem isSlotFor_next {σ : Type} [EntropyStream σ] {s : σ} {cycle multiplications : ℕ} {o : Opcode} {shape : Shape}
    (ho : o.isSplit = true) (h : (Shape.next (some o) cycle multiplications s).1 = shape) :
    IsSlotFor o 1 shape shape.lengths := by
  cases o with
  | imulhR | ismulhR =>
      cases h
      exact .second rfl
  | imulRcp =>
      have hhead : shape.lengths.head? = some 4 := h ▸ Shape.head_next_imulRcp
      obtain ⟨slots, hlengths⟩ := List.head?_eq_some_iff.mp hhead
      rw [hlengths]
      exact .product rfl hlengths
  | _ => cases ho

namespace Candidate

variable {σ : Type} [EntropyStream σ] {s s' : σ} {c : Candidate} {length : ℕ} {isLast multiplies : Bool}

theorem opcode_of_create {opcode : Opcode} (h : create opcode s = .ok (c, s')) : c.opcode = opcode := by
  cases opcode with
  | irorC | imulRcp =>
      obtain ⟨_, _, h⟩ := bind_eq_ok.mp h
      cases h
      rfl
  | _ =>
      cases h
      rfl

theorem isSplit_drawOf {x y : Opcode} (hx : x.isSplit = false) (hy : y.isSplit = false) (s : σ) :
    (drawOf x y s).1.isSplit = false := by
  rw [drawOf]
  simp only
  split
  · exact hx
  · exact hy

/-- A split operation is drawn only for the last slot, or for one of ten bytes. -/
theorem isSplit_opcodeForSlot (s : σ) (h : (opcodeForSlot length isLast multiplies s).1.isSplit = true) :
    isLast = true ∨ length ∉ [3, 4, 7, 8, 9] := by
  contrapose! h
  obtain ⟨hlast, hlength⟩ := h
  rw [← Bool.eq_false_iff] at hlast ⊢
  unfold opcodeForSlot
  split
  · rw [hlast]
    exact isSplit_drawOf rfl rfl s
  · split
    · rfl
    · exact isSplit_drawOf rfl rfl s
  · exact isSplit_drawOf rfl rfl s
  · exact isSplit_drawOf rfl rfl s
  · exact isSplit_drawOf rfl rfl s
  · simp_all

end Candidate

namespace Builder

variable {σ : Type} {b b' : Builder σ} {c : Candidate} {op : MacroOp} {shape : Shape} {length : ℕ} {slots : List ℕ}
  {n : ℕ}

/-! ## Buffers -/

/-- A candidate that is carried over to the next buffer is finished and no high product, or its first macro-operation
has issued and the second is to come. -/
def IsCarried (b : Builder σ) : Prop :=
  ∀ c ∈ b.current, (b.isIdle = true ∧ c.opcode.isWide = false) ∨ (b.opIndex = 1 ∧ c.opcode.isSplit = true)

/-- Between buffers, and behind the last slot of one, the candidate can be carried over. At any other slot it is
finished, or it has begun and the slot is one for its next macro-operation. -/
structure IsAligned (b : Builder σ) : Prop where
  decode : b.phase = .decode → b.hasRoom = true → b.IsCarried
  suffix : ∀ shape slots, b.phase = .issue shape slots → slots <:+ shape.lengths
  filled : ∀ shape, b.phase = .issue shape [] → b.IsCarried
  issue : ∀ shape length slots, b.phase = .issue shape (length :: slots) → b.isIdle = false →
    0 < b.opIndex ∧ ∀ c ∈ b.current, IsSlotFor c.opcode b.opIndex shape (length :: slots)

theorem start_isAligned (s : σ) : (start s).IsAligned where
  decode _ _ c hc := by cases hc
  suffix _ _ h := by cases h
  filled _ h := by cases h
  issue _ _ _ h := by cases h

/-- Without room nothing is carried over. -/
theorem isAligned_of_not_hasRoom (hphase : b.phase = .decode) (hroom : b.hasRoom = false) : b.IsAligned where
  decode _ h := by
    rw [hroom] at h
    cases h
  suffix _ _ h := by cases hphase.symm.trans h
  filled _ h := by cases hphase.symm.trans h
  issue _ _ _ h := by cases hphase.symm.trans h

theorem closeBuffer_isAligned (h : b.IsCarried) : b.closeBuffer.IsAligned where
  decode _ _ := h
  suffix _ _ h := by cases h
  filled _ h := by cases h
  issue _ _ _ h := by cases h

/-- A candidate that is given up is not carried over. -/
theorem stall_isAligned (hsuffix : length :: slots <:+ shape.lengths)
    (hphase : b.phase = .issue shape (length :: slots)) : b.stall.IsAligned := by
  rw [stall]
  split
  · refine ⟨fun hp => ?_, fun _ _ hp => ?_, fun _ hp => ?_, fun _ _ _ _ hidle => ?_⟩
    · cases hphase.symm.trans hp
    · cases hphase.symm.trans hp
      exact hsuffix
    · cases hphase.symm.trans hp
    · simp [isIdle] at hidle
  · refine closeBuffer_isAligned fun c hc => ?_
    cases hc

/-! ## Unfinished candidates -/

theorem isIdle_eq (hcurrent : b.current = some c) : b.isIdle = decide (c.opcode.recipe.ops.length ≤ b.opIndex) := by
  rw [isIdle, hcurrent]
  rfl

theorem exists_current (hidle : b.isIdle = false) : ∃ c, b.current = some c := by
  cases hcurrent : b.current with
  | none => simp [isIdle, opCount, hcurrent] at hidle
  | some c => exact ⟨c, rfl⟩

/-- The candidate has an operation that is not finished, and macro-operation `n` of it is the next one. -/
structure IsUnfinished (b : Builder σ) (o : Opcode) (n : ℕ) : Prop where
  isIdle : b.isIdle = false
  current : b.current.map (·.opcode) = some o
  opIndex : b.opIndex = n

/-- Only a split instruction is carried over unfinished. -/
theorem IsCarried.exists_isUnfinished (h : b.IsCarried) (hidle : b.isIdle = false) :
    ∃ o : Opcode, o.isSplit = true ∧ b.IsUnfinished o 1 := by
  obtain ⟨c, hc⟩ := exists_current hidle
  rcases h c hc with ⟨htrue, _⟩ | ⟨hindex, hsplit⟩
  · rw [hidle] at htrue
    cases htrue
  · exact ⟨c.opcode, hsplit, hidle, by rw [hc]; rfl, hindex⟩

theorem IsCarried.cases (h : b.IsCarried) :
    b.isIdle = true ∨ b.IsUnfinished .imulhR 1 ∨ b.IsUnfinished .ismulhR 1 ∨ b.IsUnfinished .imulRcp 1 := by
  cases hidle : b.isIdle with
  | true => exact .inl rfl
  | false =>
      right
      obtain ⟨o, hsplit, hunfinished⟩ := h.exists_isUnfinished hidle
      cases o with
      | imulhR => exact .inl hunfinished
      | ismulhR => exact .inr (.inl hunfinished)
      | imulRcp => exact .inr (.inr hunfinished)
      | _ => cases hsplit

/-- A high product that is carried over is not finished. -/
theorem IsCarried.isWide_iff (h : b.IsCarried) :
    (∃ o ∈ b.current.map (·.opcode), o.isWide = true) ↔ b.IsUnfinished .imulhR 1 ∨ b.IsUnfinished .ismulhR 1 := by
  constructor
  · rintro ⟨o, ho, hwide⟩
    have hunfinished : b.IsUnfinished o 1 := by
      obtain ⟨c, hc, rfl⟩ := Option.map_eq_some_iff.mp ho
      rcases h c hc with ⟨_, hnarrow⟩ | ⟨hindex, _⟩
      · rw [hnarrow] at hwide
        cases hwide
      · refine ⟨?_, ho, hindex⟩
        rw [isIdle_eq hc, Opcode.recipe_of_isWide hwide, hindex]
        rfl
    cases o with
    | imulhR => exact .inl hunfinished
    | ismulhR => exact .inr hunfinished
    | _ => cases hwide
  · rintro (h | h)
    · exact ⟨_, h.current, rfl⟩
    · exact ⟨_, h.current, rfl⟩

/-! ## Steps -/

/-- Behind an issued macro-operation come the slots for the next one. A split instruction that was just drawn has the
last slot. -/
theorem isAligned_of_issued {cycle : ℕ} (hslot : IsSlotFor c.opcode n shape (length :: slots))
    (hsuffix : length :: slots <:+ shape.lengths) (hfirst : n = 0 → c.opcode.isSplit = true → slots = [])
    (hphase : b'.phase = .issue shape slots) (hissued : Issued b b' c n op cycle) : b'.IsAligned := by
  have hidle := isIdle_eq hissued.current
  rw [hissued.opIndex] at hidle
  constructor
  · intro hp
    cases hphase.symm.trans hp
  · intro _ _ hp
    cases hphase.symm.trans hp
    exact (List.suffix_cons _ _).trans hsuffix
  · intro _ hp c' hc'
    cases hphase.symm.trans hp
    cases hissued.current.symm.trans hc'
    cases hslot with
    | first =>
        by_cases hsplit : c.opcode.isSplit = true
        · exact .inr ⟨hissued.opIndex, hsplit⟩
        · refine .inl ⟨hidle.trans ?_, Bool.eq_false_iff.mpr fun hw => hsplit (Opcode.isSplit_of_isWide hw)⟩
          rw [Opcode.isSplit_iff, Nat.not_lt] at hsplit
          exact decide_eq_true hsplit
    | product ho => exact .inl ⟨by rw [hidle, ho]; rfl, by rw [ho]; rfl⟩
  · intro _ _ _ hp hpending
    cases hphase.symm.trans hp
    rw [hissued.opIndex]
    refine ⟨Nat.succ_pos n, fun c' hc' => ?_⟩
    cases hissued.current.symm.trans hc'
    rw [hidle, decide_eq_false_iff_not, Nat.not_le] at hpending
    cases hslot with
    | first => cases hfirst rfl (Opcode.isSplit_iff.mpr hpending)
    | second hwide => exact .third hwide
    | third hwide =>
        rw [Opcode.recipe_of_isWide hwide] at hpending
        exact absurd hpending (by decide)
    | product ho =>
        rw [ho] at hpending
        exact absurd hpending (by decide)

/-- A slot is filled only with a macro-operation that it is meant for. -/
def IsFitting (b b' : Builder σ) : Prop :=
  ∀ shape length slots, Fills b b' shape length slots →
    ∃ c n op cycle, Issued b b' c n op cycle ∧ IsSlotFor c.opcode n shape (length :: slots)

theorem isFitting_of_decode (h : b'.phase = .decode) : IsFitting b b' :=
  fun _ _ _ hf => absurd hf (not_fills_of_decode h _ _ _)

theorem isFitting_stall {b₀ : Builder σ} (hphase : b₀.phase = b.phase) : IsFitting b b₀.stall := by
  rw [stall]
  split
  · exact fun _ _ _ hf => absurd hf (not_fills_of_same (by exact hphase) _ _ _)
  · exact isFitting_of_decode rfl

theorem IsFitting.of_same {b₀ : Builder σ} (h : IsFitting b₀ b') (hphase : b₀.phase = b.phase)
    (hports : b₀.ports = b.ports) : IsFitting b b' := by
  intro shape length slots hf
  obtain ⟨c, n, op, cycle, hissued, hslot⟩ := h shape length slots ⟨hphase ▸ hf.before, hf.after⟩
  exact ⟨c, n, op, cycle, hissued.of_same hports, hslot⟩

variable [EntropyStream σ]

theorem aligned_of_tries (hphase : b.phase = .issue shape (length :: slots))
    (hsuffix : length :: slots <:+ shape.lengths) (hslot : IsSlotFor c.opcode b.opIndex shape (length :: slots))
    (hfirst : b.opIndex = 0 → c.opcode.isSplit = true → slots = []) (ht : Tries b c shape slots b') :
    b'.IsAligned ∧ IsFitting b b' := by
  cases ht with
  | blocked => exact ⟨isAligned_of_not_hasRoom rfl rfl, isFitting_of_decode rfl⟩
  | sourceless | placeless => exact ⟨stall_isAligned hsuffix hphase, isFitting_stall rfl⟩
  | @issues op cycle waited waited' s s' c₁ c₂ _ hop hport hsrc hdst hissues =>
      have hopcode := opcode_of_choices hsrc hdst
      rw [← hopcode] at hop hslot hfirst
      rcases hissues.cases with rfl | ⟨issued, program, multiplications, _, rfl⟩
      · exact ⟨isAligned_of_not_hasRoom rfl rfl, isFitting_of_decode rfl⟩
      · have hissued : Issued b { (wait { b.wait waited s with current := some c₁ } waited' s').withIssued c₂ op shape
            slots b.cycle issued with program, multiplications } c₂ b.opIndex op issued := ⟨rfl, rfl, hop, rfl, rfl⟩
        refine ⟨isAligned_of_issued hslot hsuffix hfirst rfl hissued, fun _ _ _ hf => ?_⟩
        cases hphase.symm.trans hf.before
        exact ⟨c₂, b.opIndex, op, issued, hissued, hslot⟩

/-- What goes over to the next buffer has its slot at the start of it. -/
theorem IsCarried.open (h : b.IsCarried)
    (hshape : (Shape.next (b.current.map (·.opcode)) b.decodeCycle b.multiplications b.stream).1 = shape) (s : σ) :
    IsAligned { b with phase := .issue shape shape.lengths, stream := s } where
  decode hp := by cases hp
  suffix _ _ hp := by
    cases hp
    exact List.suffix_refl _
  filled _ hp := absurd (Phase.issue.inj hp).2 (Shape.lengths_ne_nil shape)
  issue shape' length slots hp hidle := by
    obtain ⟨rfl, hslots⟩ := Phase.issue.inj hp
    replace hidle : b.isIdle = false := hidle
    have hnext (c) (hc : b.current = some c) : b.opIndex = 1 ∧ IsSlotFor c.opcode 1 shape shape.lengths := by
      rcases h c hc with ⟨htrue, _⟩ | ⟨hindex, hsplit⟩
      · rw [hidle] at htrue
        cases htrue
      · rw [hc] at hshape
        exact ⟨hindex, isSlotFor_next hsplit hshape⟩
    rw [← hslots]
    refine ⟨?_, fun c hc => ?_⟩
    · obtain ⟨c, hc⟩ := exists_current hidle
      exact Nat.lt_of_lt_of_eq Nat.one_pos (hnext c hc).1.symm
    · obtain ⟨hindex, hslot⟩ := hnext c hc
      exact hindex.symm ▸ hslot

theorem IsAligned.steps (h : b.IsAligned) (hb : b.Steps b') : b'.IsAligned ∧ IsFitting b b' := by
  cases hb with
  | stopped => exact ⟨h, fun _ _ _ hf => absurd hf (not_fills_of_same rfl _ _ _)⟩
  | opened hphase hcycle hroom hshape =>
      refine ⟨(h.decode hphase hroom).open (congrArg Prod.fst hshape) _, fun _ _ _ hf => ?_⟩
      cases hphase.symm.trans hf.before
  | ended hphase =>
      refine ⟨⟨fun hp => ?_, fun _ _ hp => ?_, fun _ hp => ?_, fun _ _ _ hp => ?_⟩, fun _ _ _ hf => ?_⟩
      · cases hp
      · cases hp
      · cases hp
      · cases hp
      · cases hf.after
  | filled hphase => exact ⟨closeBuffer_isAligned (h.filled _ hphase), isFitting_of_decode rfl⟩
  | full hphase hidle hroom => exact ⟨isAligned_of_not_hasRoom rfl hroom, isFitting_of_decode rfl⟩
  | @drawn shape length slots c s _ hphase hidle hroom hdraw ht =>
      have hsuffix := h.suffix _ _ hphase
      have hlast (hsplit : c.opcode.isSplit = true) : slots = [] := by
        rw [Candidate.opcode_of_create hdraw] at hsplit
        rcases Candidate.isSplit_opcodeForSlot _ hsplit with hempty | hlength
        · exact List.isEmpty_iff.mp hempty
        · exact Shape.eq_nil_of_suffix hsuffix hlength
      obtain ⟨haligned, hfitting⟩ := aligned_of_tries (b := { b with current := some c, opIndex := 0, stream := s })
        hphase hsuffix .first (fun _ => hlast) ht
      exact ⟨haligned, hfitting.of_same rfl rfl⟩
  | resumed hphase hidle hcurrent ht =>
      obtain ⟨hpos, hslot⟩ := h.issue _ _ _ hphase hidle
      exact aligned_of_tries hphase (h.suffix _ _ hphase) (hslot _ hcurrent) (fun hzero => by omega) ht

/-! ## Starts of buffers -/

/-- Wherever generation comes to, a buffer is opened with all its slots when no instruction is unfinished or a high
product or a reciprocal has its second macro-operation to come. The buffer is a 3-3-10 one for a high product and for
nothing else, and starts with a slot of four bytes for a reciprocal. From there every step that fills a slot issues a
macro-operation that the slot is for. -/
theorem splits_are_continued {s : σ} (hb : (start s).Reaches b) (hstep : b.step = .ok b') :
    (∀ shape slots, b.phase = .decode → b'.phase = .issue shape slots →
      (Shape.next (b.current.map (·.opcode)) b.decodeCycle b.multiplications b.stream).1 = shape ∧
      slots = shape.lengths ∧
      (b.isIdle = true ∨ b.IsUnfinished .imulhR 1 ∨ b.IsUnfinished .ismulhR 1 ∨ b.IsUnfinished .imulRcp 1) ∧
      (shape = .d3310 ↔ b.IsUnfinished .imulhR 1 ∨ b.IsUnfinished .ismulhR 1) ∧
      (b.IsUnfinished .imulRcp 1 → shape.lengths.head? = some 4)) ∧
    IsFitting b b' := by
  have haligned : b.IsAligned := hb.property (fun _ _ h hb => (h.steps hb).1) (start_isAligned s)
  have hsteps := steps_of_step hstep
  refine ⟨fun shape slots hdecode hissue => ?_, (haligned.steps hsteps).2⟩
  cases hsteps with
  | stopped hphase => cases hphase.symm.trans hdecode
  | opened _ _ hroom hshape =>
      have hcarried := haligned.decode hdecode hroom
      cases hissue
      have hnext : (Shape.next (b.current.map (·.opcode)) b.decodeCycle b.multiplications b.stream).1 = shape :=
        congrArg Prod.fst hshape
      refine ⟨hnext, rfl, hcarried.cases, ?_, fun hproduct => ?_⟩
      · rw [← hcarried.isWide_iff, ← hnext]
        exact Shape.next_eq_d3310_iff
      · rw [← hnext, hproduct.current]
        exact Shape.head_next_imulRcp
  | ended => cases hissue
  | filled hphase | full hphase | drawn hphase | resumed hphase => cases hphase.symm.trans hdecode

theorem repeating_split_is_continued : ∃ b₀ b b' : Builder Repeating, (start (Repeating.mk 3 5)).Reaches b₀ ∧
    b₀.step = .ok b ∧ b.step = .ok b' ∧ (b₀.IsUnfinished .imulhR 1 ∨ b₀.IsUnfinished .ismulhR 1) ∧
    b.phase = .issue .d3310 [3, 3, 10] ∧
    ∃ c n op cycle, Issued b b' c n op cycle ∧ IsSlotFor c.opcode n .d3310 [3, 3, 10] := by
  obtain ⟨b₀, b, b', hreach, hopen, hstep, hdecode, hissue, hfills⟩ := exists_filled_slot
  obtain ⟨_, _, _, hwide, _⟩ := (splits_are_continued hreach hopen).1 _ _ hdecode hissue
  have hfitting := (splits_are_continued (hreach.step hopen) hstep).2
  exact ⟨b₀, b, b', hreach, hopen, hstep, hwide.mp rfl, hissue, hfitting _ _ _ hfills⟩

end Builder

end RandomX.Superscalar
