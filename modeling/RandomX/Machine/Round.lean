import RandomX.Dataset
import RandomX.Machine.Execute
import RandomX.Program.Compile

/-!
# Rounds

A round generates a program and runs it a fixed number of times. Each iteration mixes a line of the scratchpad and a
dataset item into the registers and writes both kinds of registers back.
-/
namespace RandomX

/-! ## Configuration -/

/-- What a round takes from the entropy of its program. -/
structure RoundConfig where
  /-- The constant registers. -/
  a : FloatGroup
  /-- The first dataset address. -/
  ma : UInt32
  /-- The second dataset address, which is aligned only when it is next used. -/
  mx : UInt32
  /-- The registers that mix into the scratchpad addresses. -/
  (read0 read1 : Reg)
  /-- The registers that mix into the dataset address. -/
  (read2 read3 : Reg)
  /-- The start of the part of the dataset that is read. -/
  offset : UInt64
  masks : LaneMasks

namespace RoundConfig

/-- The register of a pair that a bit of a word selects. -/
def selectReg (w : UInt64) (i : Nat) : Reg :=
  .ofIndex (2 * i + ((w >>> i.toUInt64) &&& 1).toNat)

def smallPair (lo hi : UInt64) : FloatPair :=
  ⟨smallPositive lo, smallPositive hi⟩

def entropyWord (w : Vector UInt64 16) (i : Nat) : UInt64 :=
  w.toArray.getD i 0

def ofEntropy (w : Vector UInt64 16) : RoundConfig where
  a := ⟨smallPair (entropyWord w 0) (entropyWord w 1), smallPair (entropyWord w 2) (entropyWord w 3),
    smallPair (entropyWord w 4) (entropyWord w 5), smallPair (entropyWord w 6) (entropyWord w 7)⟩
  ma := (entropyWord w 8).toUInt32 &&& datasetLineMask
  mx := (entropyWord w 10).toUInt32
  read0 := selectReg (entropyWord w 12) 0
  read1 := selectReg (entropyWord w 12) 1
  read2 := selectReg (entropyWord w 12) 2
  read3 := selectReg (entropyWord w 12) 3
  offset := (entropyWord w 13 % (datasetExtraItems.toUInt64 + 1)) * 64
  masks := ⟨exponentMask (entropyWord w 14), exponentMask (entropyWord w 15)⟩

end RoundConfig

/-! ## Iterations -/

/-- What one iteration hands to the next. -/
structure Iteration where
  reg : RegisterFile
  pad : Scratchpad
  ma : UInt32
  mx : UInt32
  /-- The parts of the scratchpad addresses that do not come from registers. -/
  (sp0 sp1 : UInt32)

namespace Iteration

variable (config : RoundConfig) (it : Iteration)

/-- The word that mixes into the scratchpad addresses. -/
def mixWord : UInt64 :=
  it.reg.r.get config.read0 ^^^ it.reg.r.get config.read1

/-- The scratchpad line that is added to the integer registers and takes the floating-point registers. -/
def address0 : Nat :=
  ((it.sp0 ^^^ (it.mixWord config).toUInt32) &&& maskLine).toNat

/-- The scratchpad line that fills the floating-point registers and takes the integer registers. -/
def address1 : Nat :=
  ((it.sp1 ^^^ (it.mixWord config >>> 32).toUInt32) &&& maskLine).toNat

/-- The registers with which the program starts. -/
def loadRegisters : Except Error RegisterFile := do
  let line ← it.pad.loadLine (it.address0 config)
  let f ← it.pad.loadGroup (it.address1 config)
  let e ← it.pad.loadGroup (it.address1 config + 32)
  return { it.reg with r := it.reg.r.xor line, f := f, e := e.map (·.masked config.masks) }

/-- The dataset address that a program leaves behind. -/
def nextAddress (config : RoundConfig) (mx : UInt32) (r : Line) : UInt32 :=
  (mx ^^^ (r.get config.read2 ^^^ r.get config.read3).toUInt32) &&& datasetLineMask

/-- Writes the integer registers, then the sum of the two floating-point groups. -/
def writeBack (address0 address1 : Nat) (reg : RegisterFile) (pad : Scratchpad) :
    Except Error (RegisterFile × Scratchpad) := do
  let pad ← pad.storeLine address1 reg.r
  let f := reg.f.xor reg.e
  let pad ← pad.storeLine address0 f.toLine
  return ({ reg with f := f }, pad)

def next (code : Program.Code) (view : DatasetView) : Except Error Iteration := do
  let address0 := it.address0 config
  let address1 := it.address1 config
  let reg ← it.loadRegisters config
  let ⟨_, pad, ma, mx, _, _⟩ := it
  let (reg, pad) ← Program.execute code config.masks reg pad
  let mx := nextAddress config mx reg.r
  let r ← view.read (config.offset + ma.toUInt64) reg.r
  let (reg, pad) ← writeBack address0 address1 { reg with r := r } pad
  return { reg := reg, pad := pad, ma := mx, mx := ma, sp0 := 0, sp1 := 0 }

def iterate (config : RoundConfig) (code : Program.Code) (view : DatasetView) : (n : Nat) → Iteration →
    Except Error Iteration
  | 0, it => .ok it
  | n + 1, it => do iterate config code view n (← it.next config code view)

def first (reg : RegisterFile) (pad : Scratchpad) : Iteration where
  reg := { reg.clear with a := config.a }
  pad := pad
  ma := config.ma
  mx := config.mx
  sp0 := config.mx
  sp1 := config.ma

end Iteration

/-- Runs the round of a seed on registers and a scratchpad. -/
def runRound (view : DatasetView) (seed : Vector UInt8 64) (reg : RegisterFile) (pad : Scratchpad) :
    Except Error (RegisterFile × Scratchpad) := do
  let program ← Program.ofSeed seed
  let config := RoundConfig.ofEntropy program.entropy
  let it ← Iteration.iterate config program.code view programIterations (.first config reg pad)
  return (it.reg, it.pad)

end RandomX
