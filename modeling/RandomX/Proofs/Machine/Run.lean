import RandomX.Hash
import RandomX.Proofs.Machine.Iteration

/-!
# Runs of a machine

A round of a machine is that of its view, registers and scratchpad. It reads nothing of the registers but the rounding
mode, and a hash fills the scratchpad and sets the mode before its first round, so that no trace is left of what the
machine did before.
-/
namespace RandomX.Machine

open Outcome

variable {m m₁ m₂ n₁ : Machine} {seed : Vector UInt8 64} {input : ByteArray} {d : Digest} {n : Nat}

/-! ## Equations -/

theorem run_eq (m : Machine) (seed : Vector UInt8 64) :
    m.run seed = do
      let (reg, pad) ← runRound m.view seed m.reg m.pad
      return { m with reg := reg, pad := pad } :=
  rfl

theorem runChain_succ (n : Nat) (seed : Vector UInt8 64) (m : Machine) :
    m.runChain (n + 1) seed = m.run seed >>= fun m => m.runChain n (Blake2b.hash512 m.reg.toBytes) := by
  cases n with
  | zero => exact (bind_pure (m.run seed)).symm
  | succ n => rfl

/-- The machine before the first round of a hash. -/
def prepare (m : Machine) (input : ByteArray) : Machine :=
  { m with pad := (Scratchpad.fill (Blake2b.hash512 input)).1 }.setRounding .nearest

/-- The seed of the first round of a hash. -/
def firstSeed (input : ByteArray) : Vector UInt8 64 :=
  (Scratchpad.fill (Blake2b.hash512 input)).2

theorem view_prepare (m : Machine) (input : ByteArray) : (m.prepare input).view = m.view :=
  rfl

theorem flags_prepare (m : Machine) (input : ByteArray) : (m.prepare input).flags = m.flags :=
  rfl

theorem hash_eq (m : Machine) (input : ByteArray) :
    m.hash input = do
      let m ← (m.prepare input).runChain programCount (firstSeed input)
      return (Blake2b.hash256 (m.setRounding .nearest).finalBytes, m.setRounding .nearest) := by
  simp only [hash, guarded, bind_assoc, pure_bind]
  rfl

/-! ## What stays -/

theorem binding_of_run (h : m.run seed = .ok n₁) : n₁.flags = m.flags ∧ n₁.view = m.view := by
  rw [run_eq] at h
  obtain ⟨_, _, h⟩ := bind_eq_ok.mp h
  cases h
  exact ⟨rfl, rfl⟩

theorem view_of_run (h : m.run seed = .ok n₁) : n₁.view = m.view :=
  (binding_of_run h).2

theorem binding_of_runChain (h : m.runChain n seed = .ok n₁) : n₁.flags = m.flags ∧ n₁.view = m.view := by
  induction n generalizing m seed with
  | zero => cases h; exact ⟨rfl, rfl⟩
  | succ n ih =>
      rw [runChain_succ] at h
      obtain ⟨m', hm, h⟩ := bind_eq_ok.mp h
      obtain ⟨hflags, hview⟩ := binding_of_run hm
      exact ⟨(ih h).1.trans hflags, (ih h).2.trans hview⟩

/-- A hash changes neither the flags of a machine nor what it reads from. -/
theorem binding_of_hash (h : m.hash input = .ok (d, n₁)) : n₁.flags = m.flags ∧ n₁.view = m.view := by
  rw [hash_eq] at h
  obtain ⟨m', hm, h⟩ := bind_eq_ok.mp h
  obtain ⟨-, rfl⟩ := Prod.mk.inj (Except.ok.inj h)
  obtain ⟨hflags, hview⟩ := binding_of_runChain hm
  exact ⟨hflags.trans (flags_prepare m input), hview.trans (view_prepare m input)⟩

theorem view_of_hash (h : m.hash input = .ok (d, n₁)) : n₁.view = m.view :=
  (binding_of_hash h).2

/-! ## Success -/

theorem run_ok (hv : m.view.IsValid) (seed : Vector UInt8 64) : ∃ m', m.run seed = .ok m' := by
  obtain ⟨out, hout⟩ := runRound_ok hv seed m.reg m.pad
  rw [run_eq, hout, ok_bind]
  exact ⟨_, rfl⟩

theorem runChain_ok (hv : m.view.IsValid) (n : Nat) (seed : Vector UInt8 64) :
    ∃ m', m.runChain n seed = .ok m' := by
  induction n generalizing m seed with
  | zero => exact ⟨m, rfl⟩
  | succ n ih =>
      obtain ⟨m', hm⟩ := run_ok hv seed
      rw [runChain_succ, hm, ok_bind]
      exact ih (by rwa [view_of_run hm]) _

theorem hash_ok (hv : m.view.IsValid) (input : ByteArray) : ∃ d m', m.hash input = .ok (d, m') := by
  rw [← view_prepare m input] at hv
  obtain ⟨m', hm⟩ := runChain_ok hv programCount (firstSeed input)
  rw [hash_eq, hm, ok_bind]
  exact ⟨_, _, rfl⟩

/-! ## Two machines -/

theorem run_congr (h : m₁.view.Agree m₂.view) (hr : m₁.reg.rounding = m₂.reg.rounding) (hp : m₁.pad = m₂.pad)
    (h₁ : m₁.run seed = .ok n₁) : ∃ n₂, m₂.run seed = .ok n₂ ∧ n₂.reg = n₁.reg ∧ n₂.pad = n₁.pad := by
  rw [run_eq, runRound_congr h seed hr, hp] at h₁
  obtain ⟨out, hout, h₁⟩ := bind_eq_ok.mp h₁
  cases h₁
  rw [run_eq, hout, ok_bind]
  exact ⟨_, rfl, rfl, rfl⟩

/-- Machines that agree on the rounding mode and the scratchpad agree on all registers after the first round. -/
theorem runChain_congr (hn : 0 < n) (h : m₁.view.Agree m₂.view) (hr : m₁.reg.rounding = m₂.reg.rounding)
    (hp : m₁.pad = m₂.pad) (h₁ : m₁.runChain n seed = .ok n₁) :
    ∃ n₂, m₂.runChain n seed = .ok n₂ ∧ n₂.reg = n₁.reg ∧ n₂.pad = n₁.pad := by
  induction n generalizing m₁ m₂ seed with
  | zero => exact absurd hn (Nat.lt_irrefl 0)
  | succ n ih =>
      rw [runChain_succ] at h₁ ⊢
      obtain ⟨k₁, hk₁, h₁⟩ := bind_eq_ok.mp h₁
      obtain ⟨k₂, hk₂, hreg, hpad⟩ := run_congr h hr hp hk₁
      rw [hk₂, ok_bind, hreg]
      rcases Nat.eq_zero_or_pos n with rfl | hpos
      · cases h₁
        exact ⟨k₂, rfl, hreg, hpad⟩
      · refine ih hpos ?_ (by rw [hreg]) hpad.symm h₁
        rwa [view_of_run hk₁, view_of_run hk₂]

theorem hash_congr (h : m₁.view.Agree m₂.view) (h₁ : m₁.hash input = .ok (d, n₁)) :
    ∃ n₂, m₂.hash input = .ok (d, n₂) ∧ n₂.reg = n₁.reg ∧ n₂.pad = n₁.pad := by
  rw [hash_eq] at h₁ ⊢
  obtain ⟨k₁, hk₁, h₁⟩ := bind_eq_ok.mp h₁
  rw [← view_prepare m₁ input, ← view_prepare m₂ input] at h
  obtain ⟨k₂, hk₂, hreg, hpad⟩ := runChain_congr (by decide) h rfl rfl hk₁
  obtain ⟨rfl, rfl⟩ := Prod.mk.inj (Except.ok.inj h₁)
  have hbytes : (k₂.setRounding .nearest).finalBytes = (k₁.setRounding .nearest).finalBytes := by
    simp only [finalBytes, setRounding, hreg, hpad]
  refine ⟨k₂.setRounding .nearest, ?_, ?_, hpad⟩
  · rw [hk₂, ok_bind, hbytes, pure_eq_ok]
  · simp only [setRounding, hreg]

theorem rounding_of_hash (h : m.hash input = .ok (d, n₁)) : n₁.reg.rounding = .nearest := by
  rw [hash_eq] at h
  obtain ⟨m', _, h⟩ := bind_eq_ok.mp h
  obtain ⟨-, rfl⟩ := Prod.mk.inj (Except.ok.inj h)
  rfl

/-! ## The past -/

/-- Two machines with one view hash an input to the same digest and end with the same registers and the same scratchpad
in the nearest mode, whatever their registers, modes and scratchpads were. -/
theorem hash_forgets_past (h : m₁.view = m₂.view) (hv : m₁.view.IsValid) (input : ByteArray) :
    ∃ d n₁ n₂, m₁.hash input = .ok (d, n₁) ∧ m₂.hash input = .ok (d, n₂) ∧ n₁.reg = n₂.reg ∧ n₁.pad = n₂.pad ∧
      n₁.reg.rounding = .nearest := by
  have hagree : m₁.view.Agree m₂.view := h ▸ .refl m₁.view
  obtain ⟨d, n₁, h₁⟩ := hash_ok hv input
  obtain ⟨n₂, h₂, hreg, hpad⟩ := hash_congr hagree h₁
  exact ⟨d, n₁, n₂, h₁, h₂, hreg.symm, hpad.symm, rounding_of_hash h₁⟩

/-- A machine with a written scratchpad in another mode, and a new one. -/
theorem hash_forgets_store :
    let view := DatasetView.full ⟨⟨#[], [], none⟩, ∅⟩
    ∃ d n₁ n₂, (Machine.mk ⟨false, false, true, false, false⟩ view (.blank .up) (Scratchpad.blank.setByte 0 1)).hash .empty
        = .ok (d, n₁) ∧
      (Machine.mk ⟨false, false, true, false, false⟩ view (.blank .nearest) .blank).hash .empty = .ok (d, n₂) ∧
      n₁.reg = n₂.reg ∧ n₁.pad = n₂.pad ∧ n₁.reg.rounding = .nearest :=
  hash_forgets_past rfl (.full _) _

end RandomX.Machine
