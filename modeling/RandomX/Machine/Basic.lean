import RandomX.Machine.Round

/-!
# Machines

A machine is bound to a cache in light mode and to a dataset in full mode. It carries registers and a scratchpad from
one hash to the next, but no digest depends on them.
-/
namespace RandomX

structure Machine where
  flags : Flags
  view : DatasetView
  reg : RegisterFile
  pad : Scratchpad

namespace Machine

/-! ## Construction -/

/-- The view that the flags ask for. Light mode needs a cache that holds a key, full mode a dataset. -/
def viewFor (flags : Flags) (cache : Option Cache) (dataset : Option Dataset) : Except Error DatasetView :=
  if flags.fullMem then
    match dataset, cache with
    | some dataset, _ => .ok (.full dataset)
    | none, some _ => .error (.modeMismatch "cache")
    | none, none => .error .missingDataset
  else
    match cache, dataset with
    | some cache, _ => if cache.isInitialised then .ok (.light cache) else .error .missingCache
    | none, some _ => .error (.modeMismatch "dataset")
    | none, none => .error .missingCache

/-- A machine with blank registers and memory. -/
def create (flags : Flags) (cache : Option Cache) (dataset : Option Dataset) : Except Error Machine := do
  Cache.checkFlags flags
  let view ← viewFor flags cache dataset
  return ⟨flags, view, .blank .nearest, .blank⟩

/-- Points a light machine at a cache. A cache that is refused leaves the machine as it was. -/
def setCache (m : Machine) (cache : Cache) : Except Error Unit × Machine :=
  if m.flags.fullMem then (.error (.modeMismatch "cache"), m)
  else if !cache.isInitialised then (.error .missingCache, m)
  else (.ok (), { m with view := .light cache })

/-- Points a full machine at a dataset. -/
def setDataset (m : Machine) (dataset : Dataset) : Except Error Unit × Machine :=
  if !m.flags.fullMem then (.error (.modeMismatch "dataset"), m)
  else (.ok (), { m with view := .full dataset })

def describe (m : Machine) : String :=
  s!"Vm \x7b flags: {m.flags.render}, aes: Portable, full: {m.view.isFull} \x7d"

/-! ## Running -/

def setRounding (m : Machine) (rounding : Rounding) : Machine :=
  { m with reg := { m.reg with rounding := rounding } }

/-- Runs a body that starts and ends in the nearest mode. -/
def guarded {α : Type} (m : Machine) (body : Machine → Except Error (α × Machine)) :
    Except Error (α × Machine) := do
  let (a, m) ← body (m.setRounding .nearest)
  return (a, m.setRounding .nearest)

/-- Fills the scratchpad from a seed, and returns the advanced seed. -/
def fillPad (m : Machine) (seed : Vector UInt8 64) : Vector UInt8 64 × Machine :=
  let (pad, seed) := Scratchpad.fill seed
  (seed, { m with pad := pad })

def run (m : Machine) (seed : Vector UInt8 64) : Except Error Machine := do
  let ⟨flags, view, reg, pad⟩ := m
  let (reg, pad) ← runRound view seed reg pad
  return ⟨flags, view, reg, pad⟩

/-- Runs `n` rounds, each but the first seeded with the digest of the registers before it. -/
def runChain : (n : Nat) → (seed : Vector UInt8 64) → Machine → Except Error Machine
  | 0, _, m => .ok m
  | 1, seed, m => m.run seed
  | n + 2, seed, m => do
    let m ← m.run seed
    runChain (n + 1) (Blake2b.hash512 m.reg.toBytes) m

end Machine

end RandomX
