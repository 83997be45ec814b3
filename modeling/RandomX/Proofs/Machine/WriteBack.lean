import RandomX.Proofs.Machine.Access

/-!
# Lines written back

An iteration ends with two lines in the scratchpad: that of the integer registers, then that of the additive ones. As
both are aligned, they are one and the same or have no byte in common, and the second never covers a part of the first.
-/
namespace RandomX

open Outcome

variable {a₀ a₁ : ℕ}

theorem IsLineAddress.eq_or_apart (h₀ : IsLineAddress a₀) (h₁ : IsLineAddress a₁) :
    a₁ = a₀ ∨ a₁ + 64 ≤ a₀ ∨ a₀ + 64 ≤ a₁ := by
  have hm₀ := h₀.1
  have hm₁ := h₁.1
  omega

theorem FloatGroup.get_xor (g h : FloatGroup) (x : FloatReg) : (g.xor h).get x = (g.get x).xor (h.get x) := by
  cases x <;> rfl

/-! ## Two lines -/

/-- The registers lie in the memory, each word with its low byte first, and no other byte has changed. Of two lines at
one address the additive registers remain. -/
structure IsWrittenBack (a₀ a₁ : ℕ) (reg : RegisterFile) (pad pad' : Scratchpad) : Prop where
  aligned : IsLineAddress a₀ ∧ IsLineAddress a₁
  /-- The low lane of a register lies before its high lane. -/
  additive : ∀ n < 4, pad'.HoldsWord (a₀ + 16 * n) (reg.f.get (.ofIndex n)).lo.bits ∧
    pad'.HoldsWord (a₀ + 16 * n + 8) (reg.f.get (.ofIndex n)).hi.bits
  integer : a₁ ≠ a₀ → ∀ n < 8, pad'.HoldsWord (a₁ + 8 * n) (reg.r.get (.ofIndex n))
  others : ∀ i, (i < a₀ ∨ a₀ + 64 ≤ i) → (i < a₁ ∨ a₁ + 64 ≤ i) → pad'.byte i = pad.byte i
  apart : a₁ = a₀ ∨ a₁ + 64 ≤ a₀ ∨ a₀ + 64 ≤ a₁

namespace Scratchpad

variable {pad pad' : Scratchpad} {a : ℕ}

theorem holdsWord_of_storeGroup {g : FloatGroup} (h : pad.storeLine a g.toLine = .ok pad') {n : ℕ} (hn : n < 4) :
    pad'.HoldsWord (a + 16 * n) (g.get (.ofIndex n)).lo.bits ∧
      pad'.HoldsWord (a + 16 * n + 8) (g.get (.ofIndex n)).hi.bits := by
  have hlo := holdsWord_of_storeLine h (n := 2 * n) (by omega)
  have hhi := holdsWord_of_storeLine h (n := 2 * n + 1) (by omega)
  match n, hn with
  | 0, _ | 1, _ | 2, _ | 3, _ => exact ⟨hlo, hhi⟩

end Scratchpad

namespace Iteration

variable {config : RoundConfig} {raw : ByteArray} {code : Program.Code} {view : DatasetView} {it it' : Iteration}
  {reg reg' : RegisterFile} {pad pad' : Scratchpad}

theorem isWrittenBack_of_writeBack (h₀ : IsLineAddress a₀) (h₁ : IsLineAddress a₁)
    (h : writeBack a₀ a₁ reg pad = .ok (reg', pad')) :
    reg' = { reg with f := reg.f.xor reg.e } ∧ IsWrittenBack a₀ a₁ reg' pad pad' := by
  obtain ⟨p, hp, h⟩ := bind_eq_ok.mp h
  obtain ⟨q, hq, h⟩ := bind_eq_ok.mp h
  cases h
  have hapart := h₀.eq_or_apart h₁
  refine ⟨rfl, ⟨h₀, h₁⟩, fun n hn => Scratchpad.holdsWord_of_storeGroup hq hn, fun hne n hn => ?_,
    fun i hi₀ hi₁ => ?_, hapart⟩
  · -- The second line lies elsewhere, so it leaves the first one alone.
    refine (Scratchpad.holdsWord_of_storeLine hp hn).congr fun k hk => Scratchpad.byte_of_storeLine hq ?_
    have := hapart.resolve_left hne
    omega
  · rw [Scratchpad.byte_of_storeLine hq hi₀, Scratchpad.byte_of_storeLine hp hi₁]

/-! ## Iterations -/

/-- What happens in an iteration, from its registers at the end of the program to those that it leaves behind. -/
structure Ends (config : RoundConfig) (code : Program.Code) (view : DatasetView) (it : Iteration) (reg : RegisterFile)
    (pad : Scratchpad) (it' : Iteration) : Prop where
  next : it.next config code view = .ok it'
  program : ∃ loaded, it.loadRegisters config = .ok loaded ∧
    Program.execute code config.masks loaded it.pad = .ok (reg, pad)
  read : view.read (config.offset + it.ma.toUInt64) reg.r = .ok it'.reg.r
  sums : ∀ x, (it'.reg.f.get x).lo.bits = (reg.f.get x).lo.bits ^^^ (reg.e.get x).lo.bits ∧
    (it'.reg.f.get x).hi.bits = (reg.f.get x).hi.bits ^^^ (reg.e.get x).hi.bits
  lines : IsWrittenBack (it.address0 config) (it.address1 config) it'.reg pad it'.pad

theorem exists_ends_of_next (h : it.next config code view = .ok it') :
    ∃ reg pad, Ends config code view it reg pad it' := by
  have hnext := h
  rw [next_eq] at h
  obtain ⟨loaded, hloaded, h⟩ := bind_eq_ok.mp h
  obtain ⟨⟨reg, pad⟩, hex, h⟩ := bind_eq_ok.mp h
  obtain ⟨r, hr, h⟩ := bind_eq_ok.mp h
  obtain ⟨⟨reg', pad'⟩, hback, h⟩ := bind_eq_ok.mp h
  cases h
  obtain ⟨rfl, hlines⟩ :=
    isWrittenBack_of_writeBack (it.address0_isLineAddress config) (it.address1_isLineAddress config) hback
  refine ⟨reg, pad, hnext, ⟨loaded, hloaded, hex⟩, hr, fun x => ?_, hlines⟩
  simp only [FloatGroup.get_xor]
  exact ⟨rfl, rfl⟩

/-- As many iterations take place as there are to be, and none of them fails. -/
theorem next_ok_of_mem_states (hc : Program.IsCompiled raw code) (hs : code.size = programSize) (hv : view.IsValid)
    (hb : config.IsBounded) (n : ℕ) (hi : it.IsInBase) :
    (states config code view n it).length = n ∧
      ∀ s ∈ states config code view n it, ∃ s', s.next config code view = .ok s' := by
  induction n generalizing it with
  | zero => exact ⟨rfl, by simp [states]⟩
  | succ n ih =>
      obtain ⟨it', hnext⟩ := next_ok hc hs hv hb hi
      obtain ⟨hlength, hrest⟩ := ih (isInBase_of_next hnext)
      rw [states, hnext, collect_ok, List.length_cons, hlength]
      exact ⟨rfl, List.forall_mem_cons.mpr ⟨⟨it', hnext⟩, hrest⟩⟩

end Iteration

/-! ## Rounds -/

/-- Every iteration of every round ends with its registers in two lines that are aligned, the additive ones after the
exclusive or with the multiplicative ones, and the integer ones after the dataset was read. All other bytes are as the
program left them. -/
theorem write_back_is_whole_line {view : DatasetView} (hv : view.IsValid) (seed : Vector UInt8 64) (reg : RegisterFile)
    (pad : Scratchpad) :
    ∃ program, Program.ofSeed seed = .ok program ∧
      let config := RoundConfig.ofEntropy program.entropy
      let its := Iteration.states config program.code view programIterations (.first config reg pad)
      its.length = programIterations ∧
      ∀ it ∈ its, ∃ reg' pad' it', Iteration.Ends config program.code view it reg' pad' it' := by
  obtain ⟨raw, program, hp, hs, hc⟩ := Program.ofSeed_ok seed
  have hb := RoundConfig.ofEntropy_isBounded program.entropy
  have hi := Iteration.first_isInBase hb reg pad
  obtain ⟨hlength, hnext⟩ := Iteration.next_ok_of_mem_states hc hs hv hb programIterations hi
  refine ⟨program, hp, hlength, fun it hit => ?_⟩
  obtain ⟨it', h⟩ := hnext it hit
  obtain ⟨reg', pad', hends⟩ := Iteration.exists_ends_of_next h
  exact ⟨reg', pad', it', hends⟩

/-- The first iteration of a round over a dataset without built items. -/
theorem first_write_back_is_whole_line :
    ∃ program, Program.ofSeed (.replicate 64 0) = .ok program ∧
      let config := RoundConfig.ofEntropy program.entropy
      let it := Iteration.first config (.blank .nearest) .blank
      ∃ reg pad it', Iteration.Ends config program.code (.full ⟨⟨#[], [], none⟩, ∅⟩) it reg pad it' := by
  obtain ⟨program, hp, _, hends⟩ :=
    write_back_is_whole_line (.full ⟨⟨#[], [], none⟩, ∅⟩) (.replicate 64 0) (.blank .nearest) .blank
  exact ⟨program, hp, hends _ List.mem_cons_self⟩

end RandomX
