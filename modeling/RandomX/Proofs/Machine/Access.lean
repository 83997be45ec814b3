import RandomX.Proofs.Machine.Run
import RandomX.Proofs.Scratchpad.Bytes

/-!
# Accesses

Every access of a hash to the scratchpad and to the dataset, in order. All of them are in range, on every machine.
-/
namespace RandomX

open Outcome

/-- Eight bytes of the scratchpad, or an item of the dataset. -/
inductive Access where
  | word (a : Nat)
  | item (i : Nat)
  deriving DecidableEq

def Access.IsInRange : Access → Prop
  | word a => IsWordAddress a
  | item i => i ≤ datasetItems - 1

/-- The words of a line. -/
def lineAccesses (a : Nat) : List Access :=
  (List.range 8).map fun j => .word (a + 8 * j)

theorem IsLineAddress.accesses {a : Nat} (h : IsLineAddress a) : ∀ x ∈ lineAccesses a, x.IsInRange := by
  intro x hx
  obtain ⟨j, hj, rfl⟩ := List.mem_map.mp hx
  exact h.word (List.mem_range.mp hj)

theorem word_mem_lineAccesses (a : Nat) {j : Nat} (hj : j < 8) : .word (a + 8 * j) ∈ lineAccesses a :=
  List.mem_map.mpr ⟨j, List.mem_range.mpr hj, rfl⟩

variable {config : RoundConfig} {raw : ByteArray} {code : Program.Code} {view : DatasetView}

/-! ## Programs -/

def Program.accesses (code : Code) (masks : LaneMasks) (c : Core) : List Access :=
  (states code masks stepLimit c).flatMap fun c => (touched code c).map .word

theorem Program.IsCompiled.accesses (h : IsCompiled raw code) (masks : LaneMasks) (c : Core) :
    ∀ x ∈ accesses code masks c, x.IsInRange := by
  intro x hx
  obtain ⟨d, _, hx⟩ := List.mem_flatMap.mp hx
  obtain ⟨a, ha, rfl⟩ := List.mem_map.mp hx
  exact h.touched d a ha

namespace Iteration

variable {it : Iteration} {pad : Scratchpad}

/-! ## Iterations -/

/-- The accesses before the program of an iteration. -/
def loads (config : RoundConfig) (it : Iteration) : List Access :=
  lineAccesses (it.address0 config) ++ lineAccesses (it.address1 config)

/-- The accesses after its program and the dataset item. -/
def stores (config : RoundConfig) (it : Iteration) : List Access :=
  lineAccesses (it.address1 config) ++ lineAccesses (it.address0 config)

def accesses (config : RoundConfig) (it : Iteration) (code : Program.Code) : List Access :=
  it.loads config ++
    collect (it.loadRegisters config) (fun reg => Program.accesses code config.masks ⟨0, reg, it.pad⟩) ++
    .item (it.itemIndex config) :: it.stores config

/-- The registers with which the program starts depend on the memory through the words loaded alone. -/
theorem loadRegisters_congr (h : ∀ a, .word a ∈ it.loads config → pad.load a = it.pad.load a) :
    loadRegisters config { it with pad := pad } = it.loadRegisters config := by
  have h₀ (j : Nat) (hj : j < 8) := h _ (List.mem_append_left _ (word_mem_lineAccesses (it.address0 config) hj))
  have h₁ (j : Nat) (hj : j < 8) := h _ (List.mem_append_right _ (word_mem_lineAccesses (it.address1 config) hj))
  have hline : pad.loadLine (it.address0 config) = it.pad.loadLine (it.address0 config) :=
    Scratchpad.loadLine_congr h₀
  have hf : pad.loadGroup (it.address1 config) = it.pad.loadGroup (it.address1 config) :=
    Scratchpad.loadGroup_congr fun j hj => h₁ j (by omega)
  have he : pad.loadGroup (it.address1 config + 32) = it.pad.loadGroup (it.address1 config + 32) :=
    Scratchpad.loadGroup_congr fun j hj => by
      rw [Nat.add_assoc, show 32 + 8 * j = 8 * (j + 4) by omega]
      exact h₁ (j + 4) (by omega)
  rw [loadRegisters, loadRegisters, ← hline, ← hf, ← he]
  rfl

theorem accesses_isInRange (hc : Program.IsCompiled raw code) (hb : config.IsBounded) (hi : it.IsInBase) :
    ∀ x ∈ it.accesses config code, x.IsInRange := by
  have h₀ := (it.address0_isLineAddress config).accesses
  have h₁ := (it.address1_isLineAddress config).accesses
  simp only [accesses, loads, stores, List.forall_mem_append, List.forall_mem_cons]
  exact ⟨⟨⟨h₀, h₁⟩, forall_mem_collect fun reg _ => hc.accesses config.masks _⟩, itemIndex_le hb hi, h₁, h₀⟩

/-- The states before each of at most `n` iterations. -/
def states (config : RoundConfig) (code : Program.Code) (view : DatasetView) : (n : Nat) → Iteration →
    List Iteration
  | 0, _ => []
  | n + 1, it => it :: collect (it.next config code view) fun it => states config code view n it

theorem isInBase_of_mem_states {n : Nat} (hi : it.IsInBase) : ∀ s ∈ states config code view n it, s.IsInBase := by
  induction n generalizing it with
  | zero => simp [states]
  | succ n ih =>
      rw [states, List.forall_mem_cons]
      exact ⟨hi, forall_mem_collect fun it' h => ih (isInBase_of_next h)⟩

end Iteration

/-! ## Rounds -/

def roundAccesses (view : DatasetView) (seed : Vector UInt8 64) (reg : RegisterFile) (pad : Scratchpad) :
    List Access :=
  collect (Program.ofSeed seed) fun program =>
    let config := .ofEntropy program.entropy
    (Iteration.states config program.code view programIterations (.first config reg pad)).flatMap
      fun it => it.accesses config program.code

theorem roundAccesses_isInRange (view : DatasetView) (seed : Vector UInt8 64) (reg : RegisterFile)
    (pad : Scratchpad) : ∀ x ∈ roundAccesses view seed reg pad, x.IsInRange := by
  obtain ⟨raw, program, hp, hs, hc⟩ := Program.ofSeed_ok seed
  have hb := RoundConfig.ofEntropy_isBounded program.entropy
  have hi := Iteration.first_isInBase hb reg pad
  rw [roundAccesses, hp, collect_ok, List.forall_mem_flatMap]
  exact fun it hit => Iteration.accesses_isInRange hc hb (Iteration.isInBase_of_mem_states hi it hit)

namespace Machine

/-! ## Hashes -/

def chainAccesses : (n : Nat) → (seed : Vector UInt8 64) → Machine → List Access
  | 0, _, _ => []
  | n + 1, seed, m =>
    roundAccesses m.view seed m.reg m.pad ++
      collect (m.run seed) fun m => chainAccesses n (Blake2b.hash512 m.reg.toBytes) m

/-- The accesses of the rounds with which a machine hashes an input. -/
def accesses (m : Machine) (input : ByteArray) : List Access :=
  (m.prepare input).chainAccesses programCount (firstSeed input)

theorem chainAccesses_isInRange (n : Nat) (seed : Vector UInt8 64) (m : Machine) :
    ∀ x ∈ m.chainAccesses n seed, x.IsInRange := by
  induction n generalizing seed m with
  | zero => simp [chainAccesses]
  | succ n ih =>
      rw [chainAccesses, List.forall_mem_append]
      exact ⟨roundAccesses_isInRange _ _ _ _, forall_mem_collect fun m' _ => ih _ m'⟩

theorem accesses_isInRange (m : Machine) (input : ByteArray) : ∀ x ∈ m.accesses input, x.IsInRange :=
  chainAccesses_isInRange programCount _ _

end Machine

/-! ## Dataset items -/

/-- The item of an access to the dataset. -/
def Access.item? : Access → Option Nat
  | word _ => none
  | item i => some i

theorem items_lineAccesses (a : Nat) : (lineAccesses a).filterMap Access.item? = [] := by
  simp [lineAccesses, Access.item?, List.filterMap_eq_nil_iff]

theorem Program.items_accesses (code : Code) (masks : LaneMasks) (c : Core) :
    (accesses code masks c).filterMap Access.item? = [] := by
  rw [List.filterMap_eq_nil_iff]
  intro x hx
  obtain ⟨d, _, hx⟩ := List.mem_flatMap.mp hx
  obtain ⟨a, _, rfl⟩ := List.mem_map.mp hx
  rfl

namespace Iteration

variable {it : Iteration}

theorem items_accesses (config : RoundConfig) (it : Iteration) (code : Program.Code) :
    (it.accesses config code).filterMap Access.item? = [it.itemIndex config] := by
  obtain ⟨reg, hreg⟩ := it.loadRegisters_ok config
  simp [accesses, loads, stores, hreg, items_lineAccesses, Program.items_accesses, Access.item?]

theorem length_states (hc : Program.IsCompiled raw code) (hs : code.size = programSize) (hv : view.IsValid)
    (hb : config.IsBounded) (n : Nat) (hi : it.IsInBase) : (states config code view n it).length = n := by
  induction n generalizing it with
  | zero => rfl
  | succ n ih =>
      obtain ⟨it', h⟩ := next_ok hc hs hv hb hi
      rw [states, h, collect_ok, List.length_cons, ih (isInBase_of_next h)]

end Iteration

theorem length_items_roundAccesses (hv : view.IsValid) (seed : Vector UInt8 64) (reg : RegisterFile)
    (pad : Scratchpad) : ((roundAccesses view seed reg pad).filterMap Access.item?).length = programIterations := by
  obtain ⟨raw, program, hp, hs, hc⟩ := Program.ofSeed_ok seed
  have hb := RoundConfig.ofEntropy_isBounded program.entropy
  have hi := Iteration.first_isInBase hb reg pad
  rw [roundAccesses, hp, collect_ok, List.filterMap_flatMap]
  simp only [Iteration.items_accesses, List.length_flatMap, List.length_singleton]
  rw [List.map_const', List.sum_replicate, Iteration.length_states hc hs hv hb _ hi]
  rfl

namespace Machine

theorem length_items_chainAccesses (n : Nat) (seed : Vector UInt8 64) (m : Machine) (hv : m.view.IsValid) :
    ((m.chainAccesses n seed).filterMap Access.item?).length = n * programIterations := by
  induction n generalizing seed m with
  | zero => simp [chainAccesses]
  | succ n ih =>
      obtain ⟨m', hm⟩ := run_ok hv seed
      rw [chainAccesses, hm, collect_ok, List.filterMap_append, List.length_append, length_items_roundAccesses hv,
        ih _ m' (by rwa [view_of_run hm]), Nat.succ_mul, Nat.add_comm]

/-- The accesses are those of a whole hash: every iteration of every round reads its item. -/
theorem length_items_accesses (m : Machine) (hv : m.view.IsValid) (input : ByteArray) :
    ((m.accesses input).filterMap Access.item?).length = programCount * programIterations := by
  rw [← view_prepare m input] at hv
  exact length_items_chainAccesses programCount _ _ hv

end Machine

end RandomX
