/-!
# Parameters

The sizes, counts and masks on which every digest depends.
-/
namespace RandomX

/-! ## Cache -/

/-- Blocks of the cache, 1024 bytes each. -/
def cacheBlocks : Nat := 262144
def fillPasses : Nat := 3
def fillLanes : Nat := 1
def blockBytes : Nat := 1024
def blockWords : Nat := blockBytes / 8
def cacheBytes : Nat := cacheBlocks * blockBytes
/-- Superscalar programs, and so cache reads, for each dataset item. -/
def cacheAccesses : Nat := 8
/-- Bytes of a cache line and of a dataset item. -/
def lineBytes : Nat := 64

/-! ## Dataset -/

def datasetBaseBytes : Nat := 2147483648
def datasetExtraBytes : Nat := 33554368
def datasetBytes : Nat := datasetBaseBytes + datasetExtraBytes
def datasetItems : Nat := datasetBytes / lineBytes
def datasetExtraItems : Nat := datasetExtraBytes / lineBytes
/-- Aligns a dataset address to a line inside the base size. -/
def datasetLineMask : UInt32 := 0x7FFFFFC0
/-- Selects a line of the cache. -/
def cacheLineMask : UInt64 := 0x3FFFFF

/-! ## Superscalar programs -/

/-- Cycles that a superscalar program is generated for. -/
def superscalarLatency : Nat := 170
/-- The most instructions that a superscalar program has. -/
def superscalarMaxSize : Nat := 3 * superscalarLatency + 2

/-! ## Programs -/

/-- Instructions of a program. -/
def programSize : Nat := 256
/-- Runs of a program in one round. -/
def programIterations : Nat := 2048
/-- Rounds of a hash. -/
def programCount : Nat := 8
def instructionBytes : Nat := 8
/-- Bytes of entropy in front of a program. -/
def entropyBytes : Nat := 128
/-- Bytes generated for one round. -/
def programBufferBytes : Nat := entropyBytes + programSize * instructionBytes
def registerFileBytes : Nat := 256
def digestBytes : Nat := 32

/-! ## Scratchpad -/

def scratchpadBytes : Nat := 2097152
/-- Aligns an address to a word in the first 16 KiB. -/
def maskL1 : UInt32 := 0x3FF8
/-- Aligns an address to a word in the first 256 KiB. -/
def maskL2 : UInt32 := 0x3FFF8
/-- Aligns an address to a word of the scratchpad. -/
def maskL3 : UInt32 := 0x1FFFF8
/-- Aligns an address to a line of the scratchpad. -/
def maskLine : UInt32 := 0x1FFFC0

/-! ## Branches and stores -/

/-- The bits that a branch tests, before they are shifted. -/
def conditionMask : UInt64 := 0xFF
/-- The least shift of the tested bits. -/
def conditionOffset : UInt64 := 8
/-- Stores whose modifier has this high part or a greater one go to the whole scratchpad. -/
def storeL3Condition : UInt8 := 14

end RandomX
