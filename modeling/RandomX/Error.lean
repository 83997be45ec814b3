/-!
# Errors

Every way in which a call can be refused, and its wording.
-/
namespace RandomX

/-- Why a call was refused. The first group concerns resources and wiring, the second the promises of callers. -/
inductive Error where
  /-- Memory could not be reserved. -/
  | allocation (what : String) (bytes : Nat)
  /-- Too few blocks were offered to the memory-hard fill. -/
  | memoryTooSmall
  /-- Light mode was asked for without an initialised cache. -/
  | missingCache
  /-- Full mode was asked for without a dataset. -/
  | missingDataset
  /-- A cache or dataset was offered in the other memory mode. -/
  | modeMismatch (what : String)
  /-- A flag cannot be honoured. -/
  | unsupported (feature : String)
  /-- Fewer bytes of code than a program has. -/
  | programTooShort
  /-- An output length that is no multiple of the generator's block. -/
  | partialOutput
  /-- An input length that is no multiple of the hash's block. -/
  | partialInput
  /-- Items were asked of a cache that holds no key. -/
  | cacheUninitialised
  /-- A range of items that leaves the dataset. -/
  | rangeExceedsDataset (start count total : Nat)
  | outOfBounds
  | overflow
  /-- A divisor that has no reciprocal: zero or a power of two. -/
  | invalidDivisor
  /-- Every draw of a stream was rejected, without end. -/
  | drawLimit
  /-- A machine took more steps than it was given. -/
  | stepLimit
  deriving DecidableEq, Inhabited

namespace Error

def message : Error → String
  | allocation what bytes => s!"failed to allocate {bytes} bytes for {what}"
  | memoryTooSmall => "argon2 cache fill failed: memory cost is too small"
  | missingCache => "light mode requires an initialized cache"
  | missingDataset => "full mode requires a dataset"
  | modeMismatch what => s!"{what} does not match the configured memory mode"
  | unsupported feature => s!"unsupported on this platform: {feature}"
  | programTooShort => "program too short"
  | partialOutput => "output must be a multiple of 64 bytes"
  | partialInput => "input must be a multiple of 64 bytes"
  | cacheUninitialised => "cache used before init"
  | rangeExceedsDataset start count total => s!"dataset range {start}+{count} exceeds {total} items"
  | outOfBounds => "index out of bounds"
  | overflow => "integer overflow"
  | invalidDivisor => "divisor has no reciprocal"
  | drawLimit => "draw limit reached"
  | stepLimit => "step limit reached"

end Error

end RandomX
